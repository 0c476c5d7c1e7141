import PkuyoProxy.Analysis.ContentLengthFraming
import PkuyoProxy.Analysis.ParserExceptions

/-!
# Responses without a body

Where a response ends depends on the request it answers: the response to `HEAD` announces a
length and has no body.  The parser of the backend's side does not know the request and always
reads as many bytes as were announced.  So it takes the bytes behind the response to `HEAD` for
its body, unless the length announced is zero (`answers_framed_iff`).
-/

set_option autoImplicit false

namespace PkuyoProxy.Analysis

open PkuyoProxy.Lib PkuyoProxy.Model PkuyoProxy.Interface

variable {maxSize : ℕ}

/-! ## Runs over a stream that begins cleanly -/

/-- A run over pieces keeps what was passed on. -/
theorem feeds_keeps {pieces : List Bytes} {r r' : ParseRun}
    (h : Feeds maxSize pieces r (.done r')) : r.passed <+: r'.passed := by
  induction pieces generalizing r with
  | nil =>
    cases feeds_nil_iff.mp h
    exact List.prefix_rfl
  | cons piece pieces ih =>
    obtain ⟨r₁, hcall, hrest⟩ := feeds_cons_done h
    have hfirst : r.passed <+: r₁.passed := parse_passed hcall
    exact hfirst.trans (ih hrest)

/-- What the reader delivers on the first bytes of a stream, while it is in header blocks and in
bodies, is what a run over the stream passes on first. -/
theorem delivers_first {pieces : List Bytes} {r r' : ParseRun} {f : Framer} (ht : Tracks r f)
    {first rest : Bytes} (hflat : pieces.flatten = first ++ rest)
    (hphase : ∀ xs, xs <+: first →
      ((Framer.machine maxSize r.handler.connHandler.ip r.handler.isRequest).run f xs).1.phase =
          .headers ∨
        ((Framer.machine maxSize r.handler.connHandler.ip r.handler.isRequest).run f xs).1.phase =
          .body)
    (h : Feeds maxSize pieces r (.done r')) :
    r.passed ++ ((Framer.machine maxSize r.handler.connHandler.ip r.handler.isRequest).run f
      first).2 <+: r'.passed := by
  induction pieces generalizing r f first with
  | nil =>
    obtain ⟨rfl, -⟩ := List.append_eq_nil_iff.mp hflat.symm
    simpa using feeds_keeps h
  | cons piece pieces ih =>
    have hstart := hphase [] (List.nil_prefix)
    have hcut (rest' : Bytes) : CleanCut f rest' := by
      rcases hstart with hs | hs <;> simp only [Mealy.run_nil] at hs <;> simp [CleanCut, hs]
    rw [List.flatten_cons] at hflat
    obtain ⟨r₁, hcall, hrest₁⟩ := feeds_cons_done h
    obtain ⟨hr₁, -⟩ := parse_done (ht.ready piece) hcall
    rw [reading_append ht (hcut piece)] at hr₁
    rcases List.append_eq_append_iff.mp hflat with ⟨t, hfirst, hrest⟩ | ⟨t, hpiece, hrest⟩
    · -- the piece lies in the first bytes
      have hpre : piece <+: first := ⟨t, hfirst.symm⟩
      have hend := hphase piece hpre
      rcases hrun : (Framer.machine maxSize r.handler.connHandler.ip
        r.handler.isRequest).run f piece with ⟨f', out⟩
      have hwf := @Framer.wf_run maxSize r.handler.connHandler.ip r.handler.isRequest _ ht.wf
        piece
      rw [hrun] at hr₁ hend hwf
      have hrunning : ∀ e, f'.phase ≠ .failed e := by
        rintro e he
        rcases hend with hend | hend <;> cases hend.symm.trans he
      have htracks := tracks_restore hwf hrunning r.handler (r.passed ++ out)
      have hnext := ih (hr₁ ▸ htracks) hrest (by
        rw [hr₁]
        intro xs hxs
        have hlater := hphase (piece ++ xs) (by
          rw [hfirst]
          exact (List.prefix_append_right_inj piece).mpr hxs)
        rw [Mealy.run_append, hrun] at hlater
        exact hlater) hrest₁
      rw [hr₁] at hnext
      rw [hfirst, Mealy.run_append, hrun, ← List.append_assoc]
      exact hnext
    · -- the piece reaches beyond them
      refine List.IsPrefix.trans ?_ (feeds_keeps hrest₁)
      rw [hr₁, hpiece, Mealy.run_append]
      simp only [← List.append_assoc]
      exact List.prefix_append _ _

/-! ## Answers -/

/-- A response that announces a length, and the method of the request it answers: as many bytes
follow the header block, but none if the request was `HEAD`. -/
structure Answer (maxSize : ℕ) (ip : Bytes) where
  method : Bytes
  head : Bytes
  length : ℕ
  content : Bytes
  delimited : Delimited head
  announces : announced ip false head = (false, length)
  length_lt : length < npos
  length_le : length ≤ maxSize
  content_length : content.length = if method = ascii "HEAD" then 0 else length

namespace Answer

variable {ip : Bytes}

/-- The bytes of the answer. -/
def wire (a : Answer maxSize ip) : Bytes := a.head ++ (crlf ++ crlf) ++ a.content

/-- The message made of the response's own bytes. -/
def own (a : Answer maxSize ip) : Bytes × Bytes × Bool :=
  (rewritten ip false a.head, a.content, true)

/-- The response has as many bytes as it announces. -/
def Whole (a : Answer maxSize ip) : Prop := a.method = ascii "HEAD" → a.length = 0

/-- A whole answer has the content that it announces. -/
theorem Whole.content_length {a : Answer maxSize ip} (h : a.Whole) :
    a.content.length = a.length := by
  rw [a.content_length]
  split
  · rename_i hhead
    exact (h hhead).symm
  · rfl

/-- The response as the parser takes it, if `body` is what it finds behind the header block. -/
def taken (a : Answer maxSize ip) (body : Bytes) (h : body.length = a.length) :
    SizedMessage maxSize ip false where
  head := a.head
  body := body
  delimited := a.delimited
  announces := h ▸ a.announces
  body_lt := h ▸ a.length_lt
  body_le := h ▸ a.length_le

/-- Responses that have as many bytes as they announce are messages of announced length. -/
theorem exists_sized {as : List (Answer maxSize ip)} (h : ∀ a ∈ as, a.Whole) :
    ∃ ms : List (SizedMessage maxSize ip false), ms.flatMap SizedMessage.wire = as.flatMap wire ∧
      ms.map SizedMessage.forwarded = as.map own := by
  induction as with
  | nil => exact ⟨[], rfl, rfl⟩
  | cons a as ih =>
    obtain ⟨ms, hwire, hforwarded⟩ := ih fun a' ha' => h a' (by simp [ha'])
    refine ⟨a.taken a.content (h a (by simp)).content_length :: ms, ?_, ?_⟩
    · rw [List.flatMap_cons, List.flatMap_cons, hwire]
      rfl
    · rw [List.map_cons, List.map_cons, hforwarded]
      rfl

/-- If some answer is not whole, there is a first one. -/
theorem exists_first_not_whole {as : List (Answer maxSize ip)} (h : ¬ ∀ a ∈ as, a.Whole) :
    ∃ before a behind, as = before ++ a :: behind ∧ (∀ x ∈ before, x.Whole) ∧ ¬ a.Whole := by
  induction as with
  | nil => exact absurd (by simp) h
  | cons a as ih =>
    by_cases ha : a.Whole
    · have hrest : ¬ ∀ x ∈ as, x.Whole := by
        intro hall
        exact h (List.forall_mem_cons.mpr ⟨ha, hall⟩)
      obtain ⟨before, x, behind, rfl, hbefore, hx⟩ := ih hrest
      exact ⟨a :: before, x, behind, rfl, List.forall_mem_cons.mpr ⟨ha, hbefore⟩, hx⟩
    · exact ⟨[], a, as, rfl, by simp, ha⟩

end Answer

/-! ## Keeping in step -/

/-- The parser passes on one message for each response, in order, made of the response's own
bytes. -/
def KeepsStep (connHandler : ConnHandler) (pieces : List Bytes)
    (as : List (Answer maxSize connHandler.ip)) : Prop :=
  ∃ r, Feeds maxSize pieces (.opened false connHandler) (.done r) ∧
    r.passed.map delivered = as.map Answer.own

section Step

variable {connHandler : ConnHandler} {pieces : List Bytes}
  {before behind : List (Answer maxSize connHandler.ip)} {a : Answer maxSize connHandler.ip}

/-- With too few bytes behind it, the response is never passed on. -/
theorem not_keepsStep_of_short (hbefore : ∀ x ∈ before, x.Whole)
    (hflat : pieces.flatten = (before ++ a :: behind).flatMap Answer.wire)
    (hcontent : a.content = [])
    (hshort : (behind.flatMap Answer.wire).length < a.length) :
    ¬ KeepsStep connHandler pieces (before ++ a :: behind) := by
  obtain ⟨ms, hms, hforwarded⟩ := Answer.exists_sized hbefore
  have hpad : (behind.flatMap Answer.wire ++ List.replicate (a.length -
      (behind.flatMap Answer.wire).length) 0).length = a.length := by
    rw [List.length_append, List.length_replicate]
    omega
  -- the stream as the beginning of one in which the missing bytes follow
  let m := a.taken _ hpad
  have hstream : pieces.flatten = ms.flatMap SizedMessage.wire ++
      (a.head ++ (crlf ++ crlf) ++ behind.flatMap Answer.wire) := by
    rw [hflat, hms, List.flatMap_append, List.flatMap_cons, Answer.wire, hcontent, List.append_nil]
  have hpart : a.head ++ (crlf ++ crlf) ++ behind.flatMap Answer.wire <+:
      m.head ++ (crlf ++ crlf) ++ m.body := ⟨_, List.append_assoc _ _ _⟩
  have hproper : a.head ++ (crlf ++ crlf) ++ behind.flatMap Answer.wire ≠
      m.head ++ (crlf ++ crlf) ++ m.body := by
    intro heq
    have hlen := congrArg List.length (List.append_cancel_left heq)
    rw [show m.body.length = a.length from hpad] at hlen
    omega
  have hclean : CleanFrom maxSize connHandler.ip false Framer.fresh pieces := by
    apply cleanFrom_of_phase
    intro xs hxs
    apply SizedMessage.phase_stream (ms ++ [m]) {}
    rw [hstream] at hxs
    rw [List.flatMap_append, List.flatMap_singleton]
    exact hxs.trans ((List.prefix_append_right_inj _).mpr hpart)
  obtain ⟨c, cs, hrun, hcs⟩ := SizedMessage.run_stream ms {}
  obtain ⟨hphase, hnone⟩ :=
    run_sized_cut m.delimited m.announces m.body_lt.ne m.body_le c hpart hproper
  rcases hrest : (Framer.machine maxSize connHandler.ip false).run ⟨.headers, c, []⟩
    (a.head ++ (crlf ++ crlf) ++ behind.flatMap Answer.wire) with ⟨f, out⟩
  rw [hrest] at hphase hnone
  have hwhole : (Framer.machine maxSize connHandler.ip false).run Framer.fresh pieces.flatten =
      (f, cs) := by
    rw [hstream, Mealy.run_append, Framer.fresh, hrun]
    dsimp only
    rw [hrest, show out = [] from hnone, List.append_nil]
  have hfeed := feed_clean (tracks_opened false connHandler) trivial hclean
  unfold FeedMeets at hfeed
  simp only [ParseRun.opened, hwhole, List.nil_append] at hfeed
  rintro ⟨r, hr, hpassed⟩
  have hout : r.passed = cs := by
    rcases hfeed with ⟨e, -, hfailed, -⟩ | ⟨-, hdone⟩
    · rcases hphase with hphase | hphase <;> cases hfailed.symm.trans hphase
    · cases hr.unique hdone
      rfl
  rw [hout, hcs, hforwarded] at hpassed
  have hlen := congrArg List.length hpassed
  simp only [List.length_map, List.length_append, List.length_cons] at hlen
  omega

/-- With enough bytes behind it, the response is passed on with a content that is not its own. -/
theorem not_keepsStep_of_long (hbefore : ∀ x ∈ before, x.Whole)
    (hflat : pieces.flatten = (before ++ a :: behind).flatMap Answer.wire)
    (hcontent : a.content = [])
    (hpos : 0 < a.length) (hlong : a.length ≤ (behind.flatMap Answer.wire).length) :
    ¬ KeepsStep connHandler pieces (before ++ a :: behind) := by
  obtain ⟨ms, hms, hforwarded⟩ := Answer.exists_sized hbefore
  have htake : ((behind.flatMap Answer.wire).take a.length).length = a.length := by
    rw [List.length_take]
    omega
  let m := a.taken _ htake
  have hstream : pieces.flatten = (ms ++ [m]).flatMap SizedMessage.wire ++
      (behind.flatMap Answer.wire).drop a.length := by
    have hm : m.wire = a.head ++ (crlf ++ crlf) ++ (behind.flatMap Answer.wire).take a.length := rfl
    rw [hflat, List.flatMap_append, List.flatMap_append, hms, List.flatMap_cons,
      List.flatMap_singleton, hm, Answer.wire, hcontent, List.append_nil]
    simp only [List.append_assoc, List.take_append_drop]
  obtain ⟨c, cs, hrun, hcs⟩ := SizedMessage.run_stream (ms ++ [m]) {}
  rintro ⟨r, hr, hpassed⟩
  have hfirst := delivers_first (tracks_opened false connHandler) hstream
    (fun xs hxs => SizedMessage.phase_stream (ms ++ [m]) {} hxs) hr
  simp only [ParseRun.opened, List.nil_append] at hfirst
  rw [Framer.fresh, hrun] at hfirst
  have hmap : (ms ++ [m]).map SizedMessage.forwarded <+:
      (before ++ a :: behind).map Answer.own := by
    rw [← hcs, ← hpassed]
    exact hfirst.map delivered
  rw [List.map_append, List.map_append, hforwarded, List.prefix_append_right_inj, List.map_cons,
    List.map_cons, List.cons_prefix_cons] at hmap
  have hbody : (behind.flatMap Answer.wire).take a.length = a.content :=
    congrArg (·.2.1) hmap.1
  rw [hbody, hcontent] at htake
  exact absurd htake.symm hpos.ne'

end Step

/-- **The parser keeps in step with the responses exactly if every response to `HEAD` announces
the length zero**, however the bytes are cut. -/
theorem answers_framed_iff (maxSize : ℕ) (connHandler : ConnHandler)
    (as : List (Answer maxSize connHandler.ip)) (pieces : List Bytes)
    (hflat : pieces.flatten = as.flatMap Answer.wire) :
    KeepsStep connHandler pieces as ↔ ∀ a ∈ as, a.method = ascii "HEAD" → a.length = 0 := by
  constructor
  · intro hstep
    by_contra hnot
    obtain ⟨before, a, behind, rfl, hbefore, ha⟩ := Answer.exists_first_not_whole hnot
    unfold Answer.Whole at ha
    push Not at ha
    obtain ⟨hhead, hne⟩ := ha
    have hcontent : a.content = [] := by
      rw [← List.length_eq_zero_iff, a.content_length, if_pos hhead]
    rcases Nat.lt_or_ge (behind.flatMap Answer.wire).length a.length with hshort | hlong
    · exact not_keepsStep_of_short hbefore hflat hcontent hshort hstep
    · exact not_keepsStep_of_long hbefore hflat hcontent (Nat.pos_of_ne_zero hne) hlong hstep
  · intro hwhole
    obtain ⟨ms, hms, hforwarded⟩ := Answer.exists_sized hwhole
    obtain ⟨r, hr, hpassed, -⟩ := @feeds_sized_stream maxSize
      (ParseRun.opened false connHandler).handler rfl rfl ms pieces (hflat.trans hms.symm)
    exact ⟨r, hr, hpassed.trans hforwarded⟩

/-- The response to a `HEAD` request for a page of two bytes. -/
def headAnswer : Answer (2 ^ 62) [] where
  method := ascii "HEAD"
  head := ascii "HTTP/1.1 200 OK\r\nContent-Length: 2"
  length := 2
  content := []
  delimited := by decide
  announces := by decide
  length_lt := by decide
  length_le := by decide
  content_length := by decide

/-- The response to a `GET` request for the page. -/
def getAnswer : Answer (2 ^ 62) [] where
  method := ascii "GET"
  head := ascii "HTTP/1.1 200 OK\r\nContent-Length: 2"
  length := 2
  content := ascii "ab"
  delimited := by decide
  announces := by decide
  length_lt := by decide
  length_le := by decide
  content_length := by decide

/-- The equivalence for a response to `HEAD` in front of one to `GET`. -/
theorem answers_framed_iff_two :
    KeepsStep {}
        [headAnswer.wire ++ ascii "HTTP", ascii "/1.1 200 OK\r\nContent-Length: 2\r\n\r\nab"]
        [headAnswer, getAnswer] ↔
      ∀ a ∈ [headAnswer, getAnswer], a.method = ascii "HEAD" → a.length = 0 :=
  answers_framed_iff (2 ^ 62) {} [headAnswer, getAnswer] _ (by decide)

/-- The first bytes of the response to `GET` are passed on as the body of the one to `HEAD`. -/
theorem not_keepsStep_head :
    ¬ ∀ (maxSize : ℕ) (connHandler : ConnHandler) (as : List (Answer maxSize connHandler.ip))
        (pieces : List Bytes), pieces.flatten = as.flatMap Answer.wire →
      KeepsStep connHandler pieces as := by
  intro hall
  obtain ⟨r, ⟨fuel, hr⟩, hpassed⟩ := hall (2 ^ 62) {} [headAnswer, getAnswer]
    [headAnswer.wire, getAnswer.wire] (by decide)
  have hswallowed : (feed (2 ^ 62) 8 [headAnswer.wire, getAnswer.wire] (.opened false {})).map
      (fun x => x.state.passed.map (·.content)) = some [ascii "HT", ascii "ab"] := by decide
  obtain ⟨x, hx, hcontents⟩ := Option.map_eq_some_iff.mp hswallowed
  obtain rfl := Feeds.unique ⟨8, hx⟩ ⟨fuel, hr⟩
  have hown := congrArg (List.map (·.2.1)) hpassed
  rw [List.map_map] at hown
  have hdiffer := hcontents.symm.trans hown
  revert hdiffer
  decide

end PkuyoProxy.Analysis
