import PkuyoProxy.Interface.Framer

/-!
# What the reader makes of a well-framed message

A header block opens a message whose body has the announced length (`run_sized`) or comes
in chunks (`run_chunked`).  Either way the reader delivers one completed context with the
block as `process_http_headers` rewrites it and the bytes of the body, and is back in front
of a header block.
-/

set_option autoImplicit false

namespace PkuyoProxy.Interface

open PkuyoProxy.Lib PkuyoProxy.Model

variable {maxSize : ℕ} {ip : Bytes} {isRequest : Bool}

/-- The blank line behind `head` is the first one. -/
def Delimited (head : Bytes) : Prop :=
  find (crlf ++ crlf) (head ++ (crlf ++ crlf)) = some head.length

instance (head : Bytes) : Decidable (Delimited head) :=
  inferInstanceAs (Decidable (find (crlf ++ crlf) (head ++ (crlf ++ crlf)) = some head.length))

/-- The header block as it is forwarded. -/
def rewritten (ip : Bytes) (isRequest : Bool) (head : Bytes) : Bytes :=
  (processHttpHeaders { header := head ++ crlf } ip isRequest).1.header

/-- Whether the header block announces chunks, and the length it announces otherwise. -/
def announced (ip : Bytes) (isRequest : Bool) (head : Bytes) : Bool × ℕ :=
  (processHttpHeaders { header := head ++ crlf } ip isRequest).2

/-- What the receiver of a context is given: header, body, and whether it is complete. -/
def delivered (c : HttpContext) : Bytes × Bytes × Bool := (c.header, c.content, c.isCompleted)

/-! ## Header blocks -/

/-- A delimited block in front of a stream opens its message, and the rest is read from there. -/
theorem run_block {head : Bytes} (h : Delimited head) (tmp : HttpContext) (rest : Bytes) :
    (Framer.machine maxSize ip isRequest).run ⟨.headers, tmp, []⟩ (head ++ (crlf ++ crlf) ++ rest) =
      Framer.continueWith maxSize ip isRequest (Framer.openMessage maxSize ip isRequest head)
        rest := by
  have hfind := find_delimited h rest
  have htake : (head ++ (crlf ++ crlf) ++ rest).take head.length = head := by
    rw [List.append_assoc]
    exact List.take_left
  have hdrop : (head ++ (crlf ++ crlf) ++ rest).drop (head.length + 4) = rest :=
    List.drop_left' (by simp [crlf])
  rw [Framer.run_headers_some hfind, htake, hdrop]

/-- A block that announces a length goes to a body of this length, or emits its message if it is
0. -/
theorem openMessage_sized {head : Bytes} {n : ℕ} (h : announced ip isRequest head = (false, n))
    (hn : n ≠ npos) (hmax : n ≤ maxSize) :
    ∃ tmp : HttpContext, tmp.header = rewritten ip isRequest head ∧ tmp.content = [] ∧
      tmp.data = n ∧ Framer.openMessage maxSize ip isRequest head =
        if n = 0 then Framer.emit tmp else (⟨.body, tmp, []⟩, []) := by
  refine ⟨extractHead isRequest
    { (processHttpHeaders { header := head ++ crlf } ip isRequest).1 with data := n },
    by simp [rewritten], by simp [processHttpHeaders], by simp, ?_⟩
  unfold announced at h
  have hlen : ¬ maxSize < n := by omega
  simp [Framer.openMessage, h, hn, hlen]

/-- A block that announces chunks goes to the first size line. -/
theorem openMessage_chunked {head : Bytes} (h : (announced ip isRequest head).1 = true) :
    ∃ tmp : HttpContext, tmp.header = rewritten ip isRequest head ∧ tmp.content = [] ∧
      Framer.openMessage maxSize ip isRequest head = (⟨.chunkSize, tmp, []⟩, []) := by
  refine ⟨extractHead isRequest (processHttpHeaders { header := head ++ crlf } ip isRequest).1,
    by simp [rewritten], by simp [processHttpHeaders], ?_⟩
  unfold announced at h
  simp [Framer.openMessage, h]

/-! ## Bodies of announced length -/

/-- **A message of announced length is delivered whole.** -/
theorem run_sized {head body : Bytes} (h : Delimited head)
    (hann : announced ip isRequest head = (false, body.length)) (hn : body.length ≠ npos)
    (hmax : body.length ≤ maxSize) (tmp : HttpContext) :
    ∃ c, delivered c = (rewritten ip isRequest head, body, true) ∧
      (Framer.machine maxSize ip isRequest).run ⟨.headers, tmp, []⟩
        (head ++ (crlf ++ crlf) ++ body) = (⟨.headers, c, []⟩, [c]) := by
  obtain ⟨opened, hheader, hcontent, hdata, hopen⟩ := openMessage_sized hann hn hmax
  rw [run_block h tmp body, hopen]
  by_cases hnil : body.length = 0
  · obtain rfl := List.length_eq_zero_iff.mp hnil
    exact ⟨opened.complete, by simp [delivered, hheader, hcontent], rfl⟩
  · refine ⟨(Framer.withContent opened 0 body).complete,
      by simp [delivered, Framer.withContent, hheader], ?_⟩
    have hrun := @Framer.run_body_le maxSize ip isRequest opened body (by omega) (by omega)
    simp only [hdata, List.take_length, List.drop_length, hcontent, List.nil_append] at hrun
    rw [if_neg hnil]
    simp [Framer.continueWith, hrun, Framer.emit]

/-- Inside a message of announced length the reader has delivered nothing and is in its block
or in its body. -/
theorem run_sized_cut {head body : Bytes} (h : Delimited head)
    (hann : announced ip isRequest head = (false, body.length)) (hn : body.length ≠ npos)
    (hmax : body.length ≤ maxSize) (tmp : HttpContext) {xs : Bytes}
    (hxs : xs <+: head ++ (crlf ++ crlf) ++ body) (hne : xs ≠ head ++ (crlf ++ crlf) ++ body) :
    (((Framer.machine maxSize ip isRequest).run ⟨.headers, tmp, []⟩ xs).1.phase = .headers ∨
      ((Framer.machine maxSize ip isRequest).run ⟨.headers, tmp, []⟩ xs).1.phase = .body) ∧
    ((Framer.machine maxSize ip isRequest).run ⟨.headers, tmp, []⟩ xs).2 = [] := by
  rcases Nat.lt_or_ge xs.length (head.length + (crlf ++ crlf).length) with hlt | hge
  · have hnone : find (crlf ++ crlf) xs = none := by
      rw [List.prefix_iff_eq_take.mp hxs]
      exact find_take_of_lt (find_delimited h body) hlt
    rw [Framer.run_headers_none hnone]
    exact ⟨.inl rfl, rfl⟩
  · obtain ⟨ys, rfl⟩ : head ++ (crlf ++ crlf) <+: xs :=
      List.prefix_of_prefix_length_le (List.prefix_append _ body) hxs (by simpa using hge)
    have hys : ys <+: body := (List.prefix_append_right_inj _).mp hxs
    have hlt : ys.length < body.length :=
      lt_of_le_of_ne hys.length_le fun hlen => hne (by rw [hys.eq_of_length hlen])
    obtain ⟨opened, -, -, hdata, hopen⟩ := openMessage_sized hann hn hmax
    have hrun := @Framer.run_body_lt maxSize ip isRequest opened ys (by omega)
    rw [run_block h tmp ys, hopen, if_neg (by omega)]
    simp [Framer.continueWith, hrun]

/-- Inside a message of announced length the reader is in its block or in its body. -/
theorem phase_sized {head body : Bytes} (h : Delimited head)
    (hann : announced ip isRequest head = (false, body.length)) (hn : body.length ≠ npos)
    (hmax : body.length ≤ maxSize) (tmp : HttpContext) {xs : Bytes}
    (hxs : xs <+: head ++ (crlf ++ crlf) ++ body) :
    ((Framer.machine maxSize ip isRequest).run ⟨.headers, tmp, []⟩ xs).1.phase = .headers ∨
      ((Framer.machine maxSize ip isRequest).run ⟨.headers, tmp, []⟩ xs).1.phase = .body := by
  by_cases heq : xs = head ++ (crlf ++ crlf) ++ body
  · obtain ⟨c, -, hrun⟩ := run_sized h hann hn hmax tmp
    rw [heq, hrun]
    exact .inl rfl
  · exact (run_sized_cut h hann hn hmax tmp hxs heq).1

/-! ## Bodies in chunks -/

/-- A chunk: the text that announces its size, in hexadecimal, and its data. -/
structure Chunk where
  size : Bytes
  data : Bytes
  size_ne : size ≠ []
  size_digits : ∀ x ∈ size, isDigit 16 x = true
  size_value : digitsValue 16 size = data.length
  data_ne : data ≠ []

/-- The bytes of the chunk. -/
def Chunk.wire (c : Chunk) : Bytes := c.size ++ crlf ++ (c.data ++ crlf)

/-- The chunk of size zero, without the blank line behind it. -/
def lastChunk : Bytes := ascii "0" ++ crlf

end PkuyoProxy.Interface
