import PkuyoProxy.Analysis.LoggedRuns

/-!
# Messages of announced length under any segmentation

The reader of a stream of such messages is always in a header block or in a body, where
every cut is clean.  The parser therefore delivers each message once, in order, however
the stream is cut (`feeds_sized_stream`), unless it prints a line of a request that is too long
for the buffer of the log (`sized_stream_framed_iff`).
-/

set_option autoImplicit false

namespace PkuyoProxy.Analysis

open PkuyoProxy.Lib PkuyoProxy.Model PkuyoProxy.Interface

/-- A header block that announces the length of the body behind it, on a connection of the
given side and peer. -/
structure SizedMessage (maxSize : ℕ) (ip : Bytes) (isRequest : Bool) where
  head : Bytes
  body : Bytes
  delimited : Delimited head
  announces : announced ip isRequest head = (false, body.length)
  body_lt : body.length < npos
  body_le : body.length ≤ maxSize

namespace SizedMessage

variable {maxSize : ℕ} {ip : Bytes} {isRequest : Bool}

/-- The bytes of the message. -/
def wire (m : SizedMessage maxSize ip isRequest) : Bytes := m.head ++ (crlf ++ crlf) ++ m.body

/-- The message as `rev_handler` is to receive it. -/
def forwarded (m : SizedMessage maxSize ip isRequest) : Bytes × Bytes × Bool :=
  (rewritten ip isRequest m.head, m.body, true)

/-- The framer reads a stream of messages of announced length as the messages, in order. -/
theorem run_stream (ms : List (SizedMessage maxSize ip isRequest)) (tmp : HttpContext) :
    ∃ c cs, (Framer.machine maxSize ip isRequest).run ⟨.headers, tmp, []⟩ (ms.flatMap wire) =
        (⟨.headers, c, []⟩, cs) ∧ cs.map delivered = ms.map forwarded := by
  induction ms generalizing tmp with
  | nil => exact ⟨tmp, [], rfl, rfl⟩
  | cons m ms ih =>
    obtain ⟨c, hc, hrun⟩ := run_sized m.delimited m.announces m.body_lt.ne m.body_le tmp
    obtain ⟨c', cs, hrest, hcs⟩ := ih c
    refine ⟨c', c :: cs, ?_, by simp [forwarded, hc, hcs]⟩
    rw [List.flatMap_cons, Mealy.run_append, wire, hrun, hrest]
    rfl

/-- Anywhere in the stream the reader is in a header block or in a body. -/
theorem phase_stream (ms : List (SizedMessage maxSize ip isRequest)) (tmp : HttpContext)
    {xs : Bytes} (hxs : xs <+: ms.flatMap wire) :
    ((Framer.machine maxSize ip isRequest).run ⟨.headers, tmp, []⟩ xs).1.phase = .headers ∨
      ((Framer.machine maxSize ip isRequest).run ⟨.headers, tmp, []⟩ xs).1.phase = .body := by
  induction ms generalizing tmp xs with
  | nil =>
    obtain rfl : xs = [] := List.prefix_nil.mp hxs
    exact .inl rfl
  | cons m ms ih =>
    rw [List.flatMap_cons] at hxs
    rcases Nat.lt_or_ge xs.length m.wire.length with hlt | hge
    · exact phase_sized m.delimited m.announces m.body_lt.ne m.body_le tmp
        (List.prefix_of_prefix_length_le hxs (List.prefix_append _ _) hlt.le)
    · obtain ⟨ys, rfl⟩ : m.wire <+: xs :=
        List.prefix_of_prefix_length_le (List.prefix_append _ _) hxs hge
      obtain ⟨c, -, hrun⟩ := run_sized m.delimited m.announces m.body_lt.ne m.body_le tmp
      rw [Mealy.run_append, wire, hrun]
      exact ih c ((List.prefix_append_right_inj _).mp hxs)

end SizedMessage

variable {maxSize : ℕ}

/-- Without the lines it prints, the parser frames every stream of such messages, however it is
cut. -/
theorem feeds_sized_stream {h : NormalConnHandler} (hstate : h.state = .readHeaders)
    (hraw : h.rawBuffer = []) (ms : List (SizedMessage maxSize h.connHandler.ip h.isRequest))
    {pieces : List Bytes} (hflat : pieces.flatten = ms.flatMap SizedMessage.wire) :
    ∃ r, Feeds maxSize pieces { handler := h } (.done r) ∧
      r.passed.map delivered = ms.map SizedMessage.forwarded ∧
      r.handler.state = .readHeaders ∧ r.handler.rawBuffer = [] := by
  have ht : Tracks { handler := h } ⟨.headers, h.tmpContext, []⟩ :=
    ⟨rfl, by simp, hstate, rfl, hraw⟩
  have hclean : CleanFrom maxSize h.connHandler.ip h.isRequest ⟨.headers, h.tmpContext, []⟩
      pieces := by
    apply cleanFrom_of_phase
    intro xs hxs
    rw [hflat] at hxs
    exact SizedMessage.phase_stream ms h.tmpContext hxs
  obtain ⟨c, cs, hrun, hcs⟩ := SizedMessage.run_stream ms h.tmpContext
  have hfeed := feed_clean ht trivial hclean
  rw [hflat, hrun] at hfeed
  rcases hfeed with ⟨e, -, hphase, -⟩ | ⟨-, hdone⟩
  · cases hphase
  · exact ⟨_, hdone, by simpa using hcs, rfl, rfl⟩

end PkuyoProxy.Analysis
