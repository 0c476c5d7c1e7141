import PkuyoProxy.Analysis.Forwarding

/-!
# What is read off a start line

`get_request_head` and `get_response_head` look for spaces in the whole block.  Behind the first
line of a request there are always two, since rewriting leaves a space in each forwarding line; so
a first line without two spaces borrows the missing ones.
-/

set_option autoImplicit false

namespace PkuyoProxy.Analysis

open PkuyoProxy.Lib PkuyoProxy.Model PkuyoProxy.Interface
open PkuyoProxy.Model.NormalConnHandler

variable {maxSize : ℕ} {isRequest : Bool} {connHandler : ConnHandler}

/-! ## The law -/

/-- The first line of a header block. -/
def firstLine (header : Bytes) : Bytes := (splitHeaders header).headD []

/-- A first line of the form method SP target SP rest. -/
structure RequestLine (line method target rest : Bytes) : Prop where
  parts : line = method ++ 32 :: (target ++ 32 :: rest)
  method_ne : method ≠ []
  target_ne : target ≠ []
  method_space : 32 ∉ method
  target_space : 32 ∉ target

/-- The second part of a line cut at its spaces. -/
def SecondToken (line token : Bytes) : Prop :=
  32 ∉ token ∧ ∃ first, 32 ∉ first ∧
    (line = first ++ 32 :: token ∨ ∃ rest, line = first ++ 32 :: (token ++ 32 :: rest))

/-- The request is valid if and only if the first line has its form, and is read off it. -/
def RequestExact (c : HttpContext) : Prop :=
  (c.request.isValid = true ↔
    ∃ method target rest, RequestLine (firstLine c.header) method target rest) ∧
  ∀ method target rest, RequestLine (firstLine c.header) method target rest →
    c.request.method = method ∧ c.request.urlPath = target

/-- A status code that was read is that of the second part of the first line. -/
def ResponseExact (c : HttpContext) : Prop :=
  (getResponseHead { header := c.header }).1 = false →
    ∃ token, SecondToken (firstLine c.header) token ∧ stoi 10 token = .ok c.response.statusCode

/-- What was read off the start line is in it. -/
def StartLineExact (isRequest : Bool) (c : HttpContext) : Prop :=
  if isRequest then RequestExact c else ResponseExact c

/-- The first line has two spaces; or it has one and begins with it; or it has none, and the
first two of the block are adjacent. -/
def RequestSpaced (header : Bytes) : Prop :=
  2 ≤ (firstLine header).count 32 ∨
    (firstLine header).count 32 = 1 ∧ (firstLine header).head? = some 32 ∨
    32 ∉ firstLine header ∧ ∃ before behind, 32 ∉ before ∧ header = before ++ 32 :: 32 :: behind

/-- Behind its first space the first line has another one, or a byte that is no white space; or
no number is read behind the first space of the block. -/
def ResponseSpaced (header : Bytes) : Prop :=
  (∃ first rest, 32 ∉ first ∧ firstLine header = first ++ 32 :: rest ∧
    (32 ∈ rest ∨ ∃ x ∈ rest, isSpace x = false)) ∨
  ¬ ∃ before behind n, 32 ∉ before ∧ header = before ++ 32 :: behind ∧
    stoi 10 (behind.takeWhile (· ≠ 32)) = .ok n

/-- The spaces of the block are where the code looks for them. -/
def StartLineSpaced (isRequest : Bool) (header : Bytes) : Prop :=
  if isRequest then RequestSpaced header else ResponseSpaced header

/-! ## The two extractors -/

/-- A text without a space is passed over. -/
theorem takeWhile_past {s : Bytes} (h : 32 ∉ s) (t : Bytes) :
    (s ++ t).takeWhile (· ≠ 32) = s ++ t.takeWhile (· ≠ 32) := by
  apply List.takeWhile_append_of_pos
  intro x hx
  have hne : x ≠ 32 := fun heq => h (heq ▸ hx)
  simp [hne]

/-- In front of the first space stands the first part. -/
theorem takeWhile_cut {before behind : Bytes} (h : 32 ∉ before) :
    (before ++ 32 :: behind).takeWhile (· ≠ 32) = before := by
  rw [takeWhile_past h]
  simp

/-- Without spaces the first part is everything. -/
theorem takeWhile_whole {s : Bytes} (h : 32 ∉ s) : s.takeWhile (· ≠ 32) = s := by
  have hpast := takeWhile_past h []
  rwa [List.append_nil, List.takeWhile_nil, List.append_nil] at hpast

/-- The first space is found behind the first part. -/
theorem findSpace_cut {before behind : Bytes} (h : 32 ∉ before) :
    findSpace (before ++ 32 :: behind) 0 = some before.length := by
  rw [findSpace, List.drop_zero, find_singleton h]
  rfl

/-- Behind the first space stands the rest. -/
theorem drop_cut (before behind : Bytes) :
    (before ++ 32 :: behind).drop (before.length + 1) = behind := by
  simp

/-- A request with two spaces is read up to them. -/
theorem getRequestHead_cut {c : HttpContext} {method target rest : Bytes} (hm : 32 ∉ method)
    (ht : 32 ∉ target) (h : c.header = method ++ 32 :: (target ++ 32 :: rest)) :
    getRequestHead c = (false, { c with request := { method, urlPath := target } }) := by
  have hfirst : findSpace c.header 0 = some method.length := by
    rw [h, findSpace_cut hm]
  have hdrop : c.header.drop (method.length + 1) = target ++ 32 :: rest := by
    rw [h, drop_cut]
  have hsecond : findSpace c.header (method.length + 1) =
      some (target.length + (method.length + 1)) := by
    rw [findSpace, hdrop, find_singleton ht]
    rfl
  have hmethod : c.header.take method.length = method := by
    rw [h, List.take_left]
  have hlen : target.length + (method.length + 1) - method.length - 1 = target.length := by omega
  unfold getRequestHead
  simp only [hfirst, hsecond, hdrop, hmethod, hlen, List.take_left]

/-- A response with a space is read behind it, up to the next one. -/
theorem getResponseHead_cut {c : HttpContext} {before behind : Bytes} (hb : 32 ∉ before)
    (h : c.header = before ++ 32 :: behind) :
    getResponseHead c = match stoi 10 (behind.takeWhile (· ≠ 32)) with
      | .ok code => (false, { c with response.statusCode := code })
      | .error _ => (true, c) := by
  have hfirst : findSpace c.header 0 = some before.length := by
    rw [h, findSpace_cut hb]
  have hdrop : c.header.drop (before.length + 1) = behind := by
    rw [h, drop_cut]
  have htoken : behind.take ((findSpace c.header (before.length + 1)).getD c.header.length -
      (before.length + 1)) = behind.takeWhile (· ≠ 32) := by
    by_cases hspace : 32 ∈ behind
    · obtain ⟨token, rest, rfl, htoken⟩ := List.eq_append_cons_of_mem hspace
      rw [findSpace, hdrop, find_singleton htoken, takeWhile_cut htoken, Option.map_some,
        Option.getD_some, Nat.add_sub_cancel, List.take_left]
    · have hlen : c.header.length - (before.length + 1) = behind.length := by
        rw [h]
        simp only [List.length_append, List.length_cons]
        omega
      rw [findSpace, hdrop, find_singleton_eq_none.mpr hspace, takeWhile_whole hspace,
        Option.map_none, Option.getD_none, hlen, List.take_length]
  unfold getResponseHead
  cases hn : stoi 10 (behind.takeWhile (· ≠ 32)) with
  | ok code => simp only [hfirst, hdrop, htoken, hn]
  | error e => simp only [hfirst, hdrop, htoken, hn]

/-! ## Numbers -/

/-- A number is read off a text only if that is not all white space. -/
theorem exists_not_space_of_stoi {s : Bytes} {n : ℤ} (h : stoi 10 s = .ok n) :
    ∃ x ∈ s, isSpace x = false := by
  by_contra hnone
  have hdrop : s.dropWhile isSpace = [] := by
    rw [List.dropWhile_eq_nil_iff]
    intro x hx
    by_contra hx'
    exact hnone ⟨x, hx, by simpa using hx'⟩
  simp [stoi, scanNumber, hdrop] at h

/-- A line end ends a run of digits. -/
theorem takeWhile_digits_line (s t : Bytes) :
    (s ++ 13 :: t).takeWhile (isDigit 10) = s.takeWhile (isDigit 10) := by
  induction s with
  | nil => exact List.takeWhile_cons_of_neg (by decide)
  | cons x s ih => simp only [List.cons_append, List.takeWhile_cons, ih]

/-- Behind a text that is not all white space, a line end ends the number. -/
theorem stoi_line {s : Bytes} (h : ∃ x ∈ s, isSpace x = false) (t : Bytes) :
    stoi 10 (s ++ 13 :: t) = stoi 10 s := by
  have hne : s.dropWhile isSpace ≠ [] := by
    obtain ⟨x, hx, hspace⟩ := h
    intro hnil
    rw [List.dropWhile_eq_nil_iff.mp hnil x hx] at hspace
    cases hspace
  have hdrop : (s ++ 13 :: t).dropWhile isSpace = s.dropWhile isSpace ++ 13 :: t := by
    rw [List.dropWhile_append, if_neg (by simpa using hne)]
  obtain ⟨x, rest, hrest⟩ := List.exists_cons_of_ne_nil hne
  have hdigits := takeWhile_digits_line
  have hscan : scanNumber 10 (s ++ 13 :: t) = scanNumber 10 s := by
    unfold scanNumber
    rw [hdrop, hrest]
    by_cases hsign : x = 45 ∨ x = 43
    · simp [hsign, hdigits]
    · have hline := hdigits (x :: rest) t
      rw [List.cons_append] at hline
      simp [hsign, hline]
  rw [stoi, hscan, stoi]

/-! ## The contexts that were read -/

/-- What `log_access` leaves in a context, which is read off its header. -/
def Extracted (isRequest : Bool) (c : HttpContext) : Prop :=
  c.request = (extractHead isRequest { header := c.header }).request ∧
    c.response = (extractHead isRequest { header := c.header }).response

/-- A context that `log_access` has reported on: it was passed on, or its body is being read. -/
def Logged (r : ParseRun) (c : HttpContext) : Prop :=
  c ∈ r.passed ∨ r.handler.state ≠ .readHeaders ∧ c = r.handler.tmpContext

/-- The parts of a context that `log_access` reads and writes. -/
def SameHead (c c' : HttpContext) : Prop :=
  c'.header = c.header ∧ c'.request = c.request ∧ c'.response = c.response

/-- What was extracted is that of every context with the same head. -/
theorem Extracted.same {c c' : HttpContext} (h : Extracted isRequest c) (hsame : SameHead c c') :
    Extracted isRequest c' := by
  obtain ⟨hheader, hrequest, hresponse⟩ := hsame
  unfold Extracted
  rw [hheader, hrequest, hresponse]
  exact h

/-- The extractors read the header only. -/
theorem extracted_extractHead (isRequest : Bool) {c : HttpContext} (hrequest : c.request = {})
    (hresponse : c.response = {}) : Extracted isRequest (extractHead isRequest c) := by
  unfold Extracted
  rw [extractHead_header]
  cases isRequest with
  | true =>
    simp only [extractHead, if_true, getRequestHead]
    split
    · exact ⟨hrequest, hresponse⟩
    · split <;> simp [hrequest, hresponse]
  | false =>
    simp only [extractHead, Bool.false_eq_true, if_false, getResponseHead]
    split
    · exact ⟨hrequest, hresponse⟩
    · split <;> simp [hrequest, hresponse]

/-- Where the contexts behind a round come from: they were there, or were just read. -/
def LoggedFrom (r r' : ParseRun) : Prop :=
  ∀ c', Logged r' c' → (∃ c, Logged r c ∧ SameHead c c') ∨
    ∃ c : HttpContext, c.request = {} ∧ c.response = {} ∧
      SameHead (extractHead r.handler.isRequest c) c'

/-- Without a round the contexts are the same. -/
theorem LoggedFrom.refl (r : ParseRun) : LoggedFrom r r :=
  fun c' h => .inl ⟨c', h, rfl, rfl, rfl⟩

/-- A round that goes on with the message under construction, or completes it. -/
theorem loggedFrom_underWay {r r' : ParseRun} (hs : r.handler.state ≠ .readHeaders)
    (hsame : SameHead r.handler.tmpContext r'.handler.tmpContext)
    (hpassed : ∀ c' ∈ r'.passed, c' ∈ r.passed ∨ SameHead r.handler.tmpContext c') :
    LoggedFrom r r' := by
  rintro c' (hmem | ⟨-, rfl⟩)
  · rcases hpassed c' hmem with hold | hnew
    · exact .inl ⟨c', .inl hold, rfl, rfl, rfl⟩
    · exact .inl ⟨_, .inr ⟨hs, rfl⟩, hnew⟩
  · exact .inl ⟨_, .inr ⟨hs, rfl⟩, hsame⟩

/-- Behind a message the contexts are those that were reported on. -/
theorem loggedFrom_complete {r r' : ParseRun} (hs : r.handler.state ≠ .readHeaders)
    (hsame : SameHead r.handler.tmpContext r'.handler.tmpContext) (hpassed : r'.passed = r.passed) :
    LoggedFrom r r'.complete := by
  refine loggedFrom_underWay hs hsame ?_
  intro c' hmem
  rcases List.mem_append.mp hmem with hmem | hmem
  · exact .inl (hpassed ▸ hmem)
  · rw [List.mem_singleton.mp hmem]
    exact .inr hsame

/-- A round that has read a header block. -/
theorem loggedFrom_block {r r' : ParseRun} {c : HttpContext} (hrequest : c.request = {})
    (hresponse : c.response = {}) (hpassed : ∀ c' ∈ r'.passed, c' ∈ r.passed ∨
      SameHead (extractHead r.handler.isRequest c) c')
    (htmp : r'.handler.state ≠ .readHeaders →
      SameHead (extractHead r.handler.isRequest c) r'.handler.tmpContext) : LoggedFrom r r' := by
  rintro c' (hmem | ⟨hs, rfl⟩)
  · rcases hpassed c' hmem with hold | hnew
    · exact .inl ⟨c', .inl hold, rfl, rfl, rfl⟩
    · exact .inr ⟨c, hrequest, hresponse, hnew⟩
  · exact .inr ⟨c, hrequest, hresponse, htmp hs⟩

/-- The round leads to contexts that were reported on, however it ended. -/
def KeepsLogged (r : ParseRun) : Flow Exn ParseRun → Prop :=
  FlowIn (LoggedFrom r) fun _ _ => True

/-- Reading a header block reports on its message. -/
theorem readHeaders_loggedFrom (maxSize : ℕ) {r : ParseRun} (hs : r.handler.state = .readHeaders) :
    KeepsLogged r (readHeaders maxSize r) := by
  have hround := readHeaders_round maxSize r
  generalize readHeaders maxSize r = f at hround ⊢
  cases hround with
  | incomplete => exact .refl r
  | @chunked e len tmp hf hp =>
    have hrequest : tmp.request = {} := (congrArg (·.1.request) hp).symm
    have hresponse : tmp.response = {} := (congrArg (·.1.response) hp).symm
    apply loggedFrom_block hrequest hresponse
    · exact fun c' hmem => .inl hmem
    · exact fun _ => ⟨rfl, rfl, rfl⟩
  | @skipped e tmp hf hp =>
    rintro c' (hmem | ⟨hne, -⟩)
    · exact .inl ⟨c', .inl hmem, rfl, rfl, rfl⟩
    · exact absurd hs hne
  | @bodiless e tmp hf hp r'' hr' =>
    have hrequest : tmp.request = {} := (congrArg (·.1.request) hp).symm
    have hresponse : tmp.response = {} := (congrArg (·.1.response) hp).symm
    subst hr'
    apply @loggedFrom_block _ _ { tmp with data := 0 } hrequest hresponse
    · intro c' hmem
      rcases List.mem_append.mp hmem with hmem | hmem
      · exact .inl hmem
      · rw [List.mem_singleton.mp hmem]
        exact .inr ⟨rfl, rfl, rfl⟩
    · intro hne
      exact absurd rfl hne
  | tooLong => trivial
  | @sized e len tmp hf hp hnpos hzero hmax =>
    have hrequest : tmp.request = {} := (congrArg (·.1.request) hp).symm
    have hresponse : tmp.response = {} := (congrArg (·.1.response) hp).symm
    apply @loggedFrom_block _ _ { tmp with data := len } hrequest hresponse
    · exact fun c' hmem => .inl hmem
    · exact fun _ => ⟨rfl, rfl, rfl⟩

/-- Reading a body goes on with a message that was reported on. -/
theorem readBody_loggedFrom {r : ParseRun} (hs : r.handler.state = .readBody) :
    KeepsLogged r (readBody r) := by
  have hne : r.handler.state ≠ .readHeaders := by simp [hs]
  have hround := readBody_round r
  generalize readBody r = f at hround ⊢
  cases hround with
  | ended _ hr' =>
    subst hr'
    exact loggedFrom_complete hne ⟨rfl, rfl, rfl⟩ rfl
  | underWay => exact loggedFrom_underWay hne ⟨rfl, rfl, rfl⟩ fun c' hmem => .inl hmem

/-- Reading the size of a chunk goes on with a message that was reported on. -/
theorem readChunkSize_loggedFrom {r : ParseRun} (hs : r.handler.state = .readChunkSize) :
    KeepsLogged r (readChunkSize r) := by
  have hne : r.handler.state ≠ .readHeaders := by simp [hs]
  have hround := readChunkSize_round r
  generalize readChunkSize r = f at hround ⊢
  cases hround with
  | incomplete => exact .refl r
  | malformed => trivial
  | last _ _ hr' =>
    subst hr'
    exact loggedFrom_complete hne ⟨rfl, rfl, rfl⟩ rfl
  | chunk => exact loggedFrom_underWay hne ⟨rfl, rfl, rfl⟩ fun c' hmem => .inl hmem

/-- Reading the data of a chunk goes on with a message that was reported on. -/
theorem readChunkData_loggedFrom {r : ParseRun} (hs : r.handler.state = .readChunkData) :
    KeepsLogged r (readChunkData r) := by
  have hne : r.handler.state ≠ .readHeaders := by simp [hs]
  have hround := readChunkData_round r
  generalize readChunkData r = f at hround ⊢
  cases hround with
  | terminated | unterminated | underWay =>
    exact loggedFrom_underWay hne ⟨rfl, rfl, rfl⟩ fun c' hmem => .inl hmem

/-- Every round of the parser leads to contexts that were reported on. -/
theorem parserRound_loggedFrom (maxSize : ℕ) (r : ParseRun) :
    KeepsLogged r (parserRound maxSize r) := by
  unfold parserRound
  cases hs : r.handler.state with
  | readHeaders => exact readHeaders_loggedFrom maxSize hs
  | readBody => exact readBody_loggedFrom hs
  | readChunkSize => exact readChunkSize_loggedFrom hs
  | readChunkData => exact readChunkData_loggedFrom hs

/-- What was extracted stays extracted. -/
theorem LoggedFrom.extracted {r r' : ParseRun} (hfrom : LoggedFrom r r')
    (hside : r.handler.isRequest = isRequest) (h : ∀ c, Logged r c → Extracted isRequest c) :
    ∀ c, Logged r' c → Extracted isRequest c := by
  intro c' hc'
  rcases hfrom c' hc' with ⟨c, hc, hsame⟩ | ⟨c, hrequest, hresponse, hsame⟩
  · exact (h c hc).same hsame
  · rw [hside] at hsame
    exact (extracted_extractHead isRequest hrequest hresponse).same hsame

/-- **Whatever was read off a start line was read off the header that is passed on.** -/
theorem reaches_extracted {r : ParseRun} (hr : Reaches maxSize isRequest connHandler r) :
    ∀ c, Logged r c → Extracted isRequest c := by
  induction hr with
  | opened =>
    rintro c (hmem | ⟨hne, -⟩)
    · cases hmem
    · exact absurd rfl hne
  | append _ piece ih => exact ih
  | @next r r' hreach hr ih | @leave r r' hreach hr ih =>
    have hlogged := parserRound_loggedFrom maxSize r
    rw [hr] at hlogged
    exact hlogged.extracted (reaches_inv hreach).side ih

/-- The header of such a context is a block that was rewritten. -/
theorem logged_block {r : ParseRun} (hr : Reaches maxSize isRequest connHandler r) {c : HttpContext}
    (hc : Logged r c) : ∃ head, c.header = rewritten connHandler.ip isRequest head := by
  have hinv := reaches_inv hr
  rcases hc with hmem | ⟨hne, rfl⟩
  · obtain ⟨-, -, head, -, hheader, -⟩ := hinv.passed c hmem
    exact ⟨head, hheader⟩
  · have hunder := hinv.underWay
    rw [← hinv.conn, ← hinv.side]
    cases hs : r.handler.state with
    | readHeaders => exact absurd hs hne
    | readBody | readChunkSize | readChunkData =>
      simp only [UnderWay, hs] at hunder
      obtain ⟨head, -, hheader, -⟩ := hunder
      exact ⟨head, hheader⟩

/-! ## Spaces behind the first line -/

/-- The first line stands in front of the first line end. -/
theorem firstLine_eq {line : Bytes} (h : ¬ crlf <:+: line) (t : Bytes) :
    firstLine (line ++ 13 :: 10 :: t) = line := by
  have hfind : find crlf (line ++ 13 :: 10 :: t) = some line.length :=
    find_line (by decide) h t
  have hne : line ++ 13 :: 10 :: t ≠ [] := by simp
  have hlen : (line ++ 13 :: 10 :: t).length = (line.length + t.length + 1) + 1 := by
    simp
    omega
  rw [firstLine, splitHeaders, splitLines, hlen, splitLinesAux, if_neg hne, hfind]
  simp

/-- Rewriting the list of addresses removes no line. -/
theorem setForwardedFor_length (scan : HeaderScan) (addr : Bytes) (lines : List Bytes) :
    lines.length ≤ (setForwardedFor scan addr lines).length := by
  unfold setForwardedFor
  split <;> simp

/-- The field `X-Forwarded-For` is written to a line that holds a space then, and is not the one
of the other field. -/
theorem setForwardedFor_space {lines : List Bytes} {scan : HeaderScan} (hne : lines ≠ [])
    (hscan : ScanOk lines scan) (addr : Bytes) :
    ∃ i line, 1 ≤ i ∧ (setForwardedFor scan addr lines)[i]? = some line ∧ 32 ∈ line ∧
      scan.xriIdx ≠ some i := by
  unfold setForwardedFor
  cases hi : scan.xffIdx with
  | none =>
    refine ⟨lines.length, ascii "X-Forwarded-For: " ++ addr, List.length_pos_iff.mpr hne, by simp,
      List.mem_append_left _ (by decide), ?_⟩
    intro hxri
    obtain ⟨-, line, value, hget, -⟩ := hscan.realIp _ hxri
    simp at hget
  | some i =>
    obtain ⟨hpos, line, hget, hfield⟩ := hscan.forwardedFor i hi
    have hlt := (List.getElem?_eq_some_iff.mp hget).1
    refine ⟨i, _, hpos, List.getElem?_set_self hlt, ?_, ?_⟩
    · simp [ascii]
    · intro hxri
      obtain ⟨-, line', value, hget', hfield'⟩ := hscan.realIp _ hxri
      obtain rfl : line = line' := Option.some.inj (hget.symm.trans hget')
      rw [hfield] at hfield'
      injection hfield' with hpair
      injection hpair with hname _
      revert hname
      decide

/-- Behind the first line of a rewritten request two lines hold a space. -/
theorem rewriteLines_spaces {lines : List Bytes} (hne : lines ≠ []) (addr : Bytes) :
    ∃ i j line line', 1 ≤ i ∧ 1 ≤ j ∧ i ≠ j ∧ (rewriteLines true addr lines)[i]? = some line ∧
      (rewriteLines true addr lines)[j]? = some line' ∧ 32 ∈ line ∧ 32 ∈ line' := by
  have hscan := scanHeaders_ok true lines
  have hlen := setForwardedFor_length (scanHeaders true lines) addr lines
  have hpos := List.length_pos_iff.mpr hne
  have hspace : 32 ∈ ascii "X-Real-IP: " ++ addr := List.mem_append_left _ (by decide)
  obtain ⟨i, line, hi, hget, hline, hother⟩ := setForwardedFor_space hne hscan addr
  have hlt := (List.getElem?_eq_some_iff.mp hget).1
  simp only [rewriteLines, if_true, setRealIp]
  cases hj : (scanHeaders true lines).xriIdx with
  | none =>
    refine ⟨i, _, line, _, hi, by omega, hlt.ne, ?_, List.getElem?_concat_length, hline, hspace⟩
    rw [List.getElem?_append_left hlt, hget]
  | some j =>
    obtain ⟨hj', line', value, hget', -⟩ := hscan.realIp j hj
    have hlt' := (List.getElem?_eq_some_iff.mp hget').1
    have hne' : j ≠ i := fun heq => hother (by rw [hj, heq])
    refine ⟨i, j, line, _, hi, hj', hne'.symm, ?_, List.getElem?_set_self (by omega), hline, hspace⟩
    rw [List.getElem?_set_ne hne', hget]

/-- A space in a line is one in the text. -/
theorem mem_joinLines {ls : List Bytes} {i : ℕ} {line : Bytes} (hget : ls[i]? = some line)
    (hspace : 32 ∈ line) : 32 ∈ joinLines crlf ls :=
  List.mem_flatMap.mpr
    ⟨line, List.mem_of_getElem? hget, List.mem_append_left _ hspace⟩

/-- Lines of which two hold a space. -/
theorem two_le_count_joinLines {ls : List Bytes} {i j : ℕ} {line line' : Bytes} (hij : i < j)
    (hi : ls[i]? = some line) (hj : ls[j]? = some line') (hline : 32 ∈ line) (hline' : 32 ∈ line') :
    2 ≤ (joinLines crlf ls).count 32 := by
  have hfront : (ls.take j)[i]? = some line := by
    rw [List.getElem?_take_of_lt hij, hi]
  have hback : (ls.drop j)[0]? = some line' := by
    rw [List.getElem?_drop, Nat.add_zero, hj]
  have hfront' := List.count_pos_iff.mpr (mem_joinLines hfront hline)
  have hback' := List.count_pos_iff.mpr (mem_joinLines hback hline')
  rw [← List.take_append_drop j ls, joinLines_append, List.count_append]
  omega

/-- A rewritten block is its first line, a line end and text that, in a request, has two
spaces. -/
theorem exists_rewritten (ip : Bytes) (isRequest : Bool) (head : Bytes) :
    ∃ line text, ¬ crlf <:+: line ∧ rewritten ip isRequest head = line ++ 13 :: 10 :: text ∧
      (isRequest = true → 2 ≤ text.count 32) := by
  obtain ⟨line, fields, hall, hjoin⟩ := exists_joinLines (13 : UInt8) 10 head
  have hsplit : splitHeaders (head ++ crlf) = line :: fields :=
    (congrArg splitHeaders hjoin).trans (splitLines_joinLines (by decide) hall)
  have hhead := @rewriteLines_head? isRequest ip (line :: fields) (by simp)
  have hspaces := rewriteLines_spaces (List.cons_ne_nil line fields) ip
  have hheader : rewritten ip isRequest head =
      joinLines crlf (rewriteLines isRequest ip (line :: fields)) ++ crlf := by
    simp only [rewritten, processHttpHeaders, hsplit]
  cases hlines : rewriteLines isRequest ip (line :: fields) with
  | nil => simp [hlines] at hhead
  | cons first rest =>
    obtain rfl : first = line := by simpa [hlines] using hhead
    refine ⟨first, joinLines crlf rest ++ crlf, hall first (by simp), ?_, ?_⟩
    · rw [hheader, hlines, joinLines_cons]
      simp [crlf]
    · rintro rfl
      rw [hlines] at hspaces
      obtain ⟨i, j, l, l', hi, hj, hne, hget, hget', hl, hl'⟩ := hspaces
      obtain ⟨i, rfl⟩ : ∃ k, i = k + 1 := ⟨i - 1, by omega⟩
      obtain ⟨j, rfl⟩ : ∃ k, j = k + 1 := ⟨j - 1, by omega⟩
      rw [List.getElem?_cons_succ] at hget hget'
      rw [List.count_append]
      rcases Nat.lt_or_gt_of_ne hne with hlt | hlt
      · have := two_le_count_joinLines (by omega) hget hget' hl hl'
        omega
      · have := two_le_count_joinLines (by omega) hget' hget hl' hl
        omega

/-! ## Requests -/

/-- A text with two spaces, cut at the first two. -/
theorem exists_cuts {s : Bytes} (h : 2 ≤ s.count 32) :
    ∃ first second rest, s = first ++ 32 :: (second ++ 32 :: rest) ∧ 32 ∉ first ∧ 32 ∉ second := by
  obtain ⟨first, behind, rfl, hfirst⟩ :=
    List.eq_append_cons_of_mem (List.count_pos_iff.mp (by omega : 0 < s.count 32))
  rw [List.count_append, List.count_eq_zero.mpr hfirst, List.count_cons_self] at h
  obtain ⟨second, rest, rfl, hsecond⟩ :=
    List.eq_append_cons_of_mem (List.count_pos_iff.mp (by omega : 0 < behind.count 32))
  exact ⟨first, second, rest, rfl, hfirst, hsecond⟩

/-- A first line of the form is cut at its first two spaces. -/
theorem requestLine_cut {m t rest m' t' rest' : Bytes} (hm : 32 ∉ m) (ht : 32 ∉ t)
    (h : RequestLine (m ++ 32 :: (t ++ 32 :: rest)) m' t' rest') : m = m' ∧ t = t' := by
  obtain ⟨hmethod, hbehind⟩ := append_cons_unique hm h.method_space h.parts
  exact ⟨hmethod, (append_cons_unique ht h.target_space hbehind).1⟩

/-- A line with two spaces has the form of a request's exactly if its first two parts are not
empty. -/
theorem requestLine_iff {m t rest : Bytes} (hm : 32 ∉ m) (ht : 32 ∉ t) :
    (∃ m' t' rest', RequestLine (m ++ 32 :: (t ++ 32 :: rest)) m' t' rest') ↔ m ≠ [] ∧ t ≠ [] := by
  constructor
  · rintro ⟨m', t', rest', h⟩
    obtain ⟨rfl, rfl⟩ := requestLine_cut hm ht h
    exact ⟨h.method_ne, h.target_ne⟩
  · rintro ⟨hm', ht'⟩
    exact ⟨m, t, rest, rfl, hm', ht', hm, ht⟩

/-- Without the form the law says that the request is not valid. -/
theorem requestExact_of_not_form {c : HttpContext}
    (h : ¬ ∃ m t rest, RequestLine (firstLine c.header) m t rest) :
    RequestExact c ↔ c.request.isValid = false := by
  rw [RequestExact, iff_false_right h, Bool.not_eq_true]
  constructor
  · exact And.left
  · intro hinvalid
    exact ⟨hinvalid, fun m t rest hform => absurd ⟨m, t, rest, hform⟩ h⟩

/-- What is cut off behind a line end is not empty. -/
theorem cut_ne_nil {s text before behind : Bytes} (hs : 32 ∉ s)
    (h : s ++ 13 :: text = before ++ 32 :: behind) : before ≠ [] := by
  rintro rfl
  cases s with
  | nil => cases h
  | cons x s =>
    obtain ⟨rfl, -⟩ := List.cons.inj h
    exact hs List.mem_cons_self

/-- A line with one space has not the form of a request's. -/
theorem not_requestLine {first rest : Bytes} (hfirst : 32 ∉ first) (hrest : 32 ∉ rest) :
    ¬ ∃ m t rest', RequestLine (first ++ 32 :: rest) m t rest' := by
  rintro ⟨m, t, rest', h⟩
  obtain ⟨-, rfl⟩ := append_cons_unique hfirst h.method_space h.parts
  simp at hrest

/-- A request is valid exactly if its method and its target are not empty. -/
theorem isValid_mk (method target : Bytes) :
    ({ method, urlPath := target } : Request).isValid = true ↔ method ≠ [] ∧ target ≠ [] := by
  simp [Request.isValid, and_comm]

/-- With two spaces in the block the request is read off in front of and between them. -/
theorem request_eq {c : HttpContext} (h : Extracted true c) {method target rest : Bytes}
    (hm : 32 ∉ method) (ht : 32 ∉ target)
    (hcut : c.header = method ++ 32 :: (target ++ 32 :: rest)) :
    c.request = { method, urlPath := target } := by
  rw [h.1]
  simp only [extractHead, if_true]
  rw [@getRequestHead_cut { header := c.header } _ _ _ hm ht hcut]

/-- Two spaces in the first line: the request is read between them. -/
theorem requestExact_of_two {c : HttpContext} {method target rest : Bytes}
    (hm : 32 ∉ method) (ht : 32 ∉ target)
    (hline : firstLine c.header = method ++ 32 :: (target ++ 32 :: rest))
    (hread : c.request = { method, urlPath := target }) : RequestExact c := by
  rw [RequestExact, hline, hread, isValid_mk, requestLine_iff hm ht]
  refine ⟨Iff.rfl, ?_⟩
  intro m t rest' h
  exact requestLine_cut hm ht h

/-- One space in the first line: the target goes on behind it. -/
theorem requestExact_of_one {c : HttpContext} {method target rest : Bytes}
    (hm : 32 ∉ method) (hrest : 32 ∉ rest) (hline : firstLine c.header = method ++ 32 :: rest)
    (hread : c.request = { method, urlPath := target }) (htarget : target ≠ []) :
    RequestExact c ↔ method = [] := by
  rw [requestExact_of_not_form (by rw [hline]; exact not_requestLine hm hrest), hread,
    ← Bool.not_eq_true, isValid_mk]
  simp [htarget]

/-- No space in the first line: method and target are borrowed from the text behind it. -/
theorem requestExact_of_none {c : HttpContext} {method target : Bytes}
    (hline : 32 ∉ firstLine c.header) (hread : c.request = { method, urlPath := target })
    (hmethod : method ≠ []) : RequestExact c ↔ target = [] := by
  have hform : ¬ ∃ m t rest, RequestLine (firstLine c.header) m t rest := by
    rintro ⟨m, t, rest, h⟩
    rw [h.parts] at hline
    simp at hline
  rw [requestExact_of_not_form hform, hread, ← Bool.not_eq_true, isValid_mk]
  simp [hmethod]

/-- **A request is read off its first line if and only if that is spaced.** -/
theorem requestExact_iff {c : HttpContext} {line text : Bytes} (hline : ¬ crlf <:+: line)
    (hheader : c.header = line ++ 13 :: 10 :: text) (htext : 2 ≤ text.count 32)
    (h : Extracted true c) : RequestExact c ↔ RequestSpaced c.header := by
  have hfirst : firstLine c.header = line := by rw [hheader, firstLine_eq hline]
  have hcount : 2 ≤ c.header.count 32 := by
    rw [hheader, List.count_append, List.count_cons_of_ne (by decide),
      List.count_cons_of_ne (by decide)]
    omega
  obtain ⟨method, target, rest, hcut, hmethod, htarget⟩ := exists_cuts hcount
  have hread := request_eq h hmethod htarget hcut
  have hboth := hheader.symm.trans hcut
  rw [RequestSpaced, hfirst]
  by_cases hspace : 32 ∈ line
  · obtain ⟨first, behind, rfl, hnot⟩ := List.eq_append_cons_of_mem hspace
    rw [List.append_assoc, List.cons_append] at hboth
    obtain ⟨rfl, hbehind⟩ := append_cons_unique hnot hmethod hboth
    by_cases hsecond : 32 ∈ behind
    · obtain ⟨second, more, rfl, hnot'⟩ := List.eq_append_cons_of_mem hsecond
      rw [List.append_assoc, List.cons_append] at hbehind
      obtain ⟨rfl, -⟩ := append_cons_unique hnot' htarget hbehind
      have htwo : 2 ≤ (first ++ 32 :: (second ++ 32 :: more)).count 32 := by
        simp
        omega
      exact iff_of_true (requestExact_of_two hmethod htarget hfirst hread) (.inl htwo)
    · have hone : (first ++ 32 :: behind).count 32 = 1 := by
        simp [List.count_eq_zero.mpr hnot, List.count_eq_zero.mpr hsecond]
      rw [requestExact_of_one hmethod hsecond hfirst hread (cut_ne_nil hsecond hbehind), hone]
      cases first with
      | nil => simp
      | cons x first =>
        have hne : x ≠ 32 := fun heq => hnot (heq ▸ List.mem_cons_self)
        simp [hne]
  · have hzero := List.count_eq_zero.mpr hspace
    rw [← hfirst] at hspace
    rw [requestExact_of_none hspace hread (cut_ne_nil (hfirst ▸ hspace) hboth), hzero]
    have hadjacent : target = [] ↔
        ∃ before behind, 32 ∉ before ∧ c.header = before ++ 32 :: 32 :: behind := by
      constructor
      · rintro rfl
        exact ⟨method, rest, hmethod, hcut⟩
      · rintro ⟨before, behind, hbefore, heq⟩
        obtain ⟨-, htail⟩ := append_cons_unique hmethod hbefore (hcut.symm.trans heq)
        exact (@append_cons_unique _ _ 32 _ _ [] behind htarget (by simp) htail).1
    simp [hadjacent, List.count_eq_zero.mp hzero]

/-! ## Responses -/

/-- A number read behind the first space of the block is that of the second part of the first
line, unless that is not there or all white space. -/
theorem secondToken_iff {line text before behind : Bytes} (hbefore : 32 ∉ before)
    (hcut : line ++ 13 :: 10 :: text = before ++ 32 :: behind) {n : ℤ}
    (hn : stoi 10 (behind.takeWhile (· ≠ 32)) = .ok n) :
    (∃ token, SecondToken line token ∧ stoi 10 token = .ok n) ↔
      ∃ first rest, 32 ∉ first ∧ line = first ++ 32 :: rest ∧
        (32 ∈ rest ∨ ∃ x ∈ rest, isSpace x = false) := by
  constructor
  · rintro ⟨token, ⟨-, first, hfirst, hline⟩, htoken⟩
    rcases hline with rfl | ⟨rest, rfl⟩
    · exact ⟨first, token, hfirst, rfl, .inr (exists_not_space_of_stoi htoken)⟩
    · exact ⟨first, token ++ 32 :: rest, hfirst, rfl, .inl (by simp)⟩
  · rintro ⟨first, rest, hfirst, rfl, hrest⟩
    rw [List.append_assoc, List.cons_append] at hcut
    obtain ⟨rfl, rfl⟩ := append_cons_unique hfirst hbefore hcut
    by_cases hspace : 32 ∈ rest
    · obtain ⟨token, more, rfl, htoken⟩ := List.eq_append_cons_of_mem hspace
      rw [List.append_assoc, List.cons_append, takeWhile_cut htoken] at hn
      exact ⟨token, ⟨htoken, first, hfirst, .inr ⟨more, rfl⟩⟩, hn⟩
    · have hvisible := hrest.resolve_left hspace
      have htake : (rest ++ 13 :: 10 :: text).takeWhile (· ≠ 32) =
          rest ++ 13 :: (10 :: text).takeWhile (· ≠ 32) := takeWhile_past hspace _
      rw [htake, stoi_line hvisible] at hn
      exact ⟨rest, ⟨hspace, first, hfirst, .inl rfl⟩, hn⟩

/-- **A status code is read off the first line if and only if that is spaced.** -/
theorem responseExact_iff {c : HttpContext} {line text : Bytes} (hline : ¬ crlf <:+: line)
    (hheader : c.header = line ++ 13 :: 10 :: text) (h : Extracted false c) :
    ResponseExact c ↔ ResponseSpaced c.header := by
  have hfirst : firstLine c.header = line := by rw [hheader, firstLine_eq hline]
  have hstatus : c.response = (getResponseHead { header := c.header }).2.response := h.2
  by_cases hspace : 32 ∈ c.header
  · obtain ⟨before, behind, hcut, hbefore⟩ := List.eq_append_cons_of_mem hspace
    have hread := @getResponseHead_cut { header := c.header } _ _ hbefore hcut
    have hnumber : (∃ before behind n, 32 ∉ before ∧ c.header = before ++ 32 :: behind ∧
        stoi 10 (behind.takeWhile (· ≠ 32)) = .ok n) ↔
        ∃ n, stoi 10 (behind.takeWhile (· ≠ 32)) = .ok n := by
      constructor
      · rintro ⟨before', behind', n, hbefore', hcut', hn⟩
        obtain ⟨-, rfl⟩ := append_cons_unique hbefore hbefore' (hcut.symm.trans hcut')
        exact ⟨n, hn⟩
      · rintro ⟨n, hn⟩
        exact ⟨before, behind, n, hbefore, hcut, hn⟩
    rw [ResponseExact, ResponseSpaced, hnumber, hfirst]
    cases hn : stoi 10 (behind.takeWhile (· ≠ 32)) with
    | error e =>
      rw [hn] at hread
      simp [hread]
    | ok n =>
      rw [hn] at hread
      rw [hread] at hstatus
      have hcode : c.response.statusCode = n := congrArg Response.statusCode hstatus
      rw [hcode, hread, ← secondToken_iff hbefore (hheader.symm.trans hcut) hn]
      simp
  · have hnone : findSpace c.header 0 = none := by
      rw [findSpace, List.drop_zero, find_singleton_eq_none.mpr hspace]
      rfl
    have hfail : (getResponseHead { header := c.header }).1 = true := by
      simp [getResponseHead, hnone]
    have hexact : ResponseExact c := fun hok => by simp [hfail] at hok
    refine iff_of_true hexact (.inr ?_)
    rintro ⟨before, behind, n, -, hcut, -⟩
    rw [hcut] at hspace
    simp at hspace

/-! ## Every run -/

/-- **In every run, what is read off the start line of a block is in its first line if and only if
that line is spaced.** -/
theorem startLineExact_iff {r : ParseRun} (hr : Reaches maxSize isRequest connHandler r)
    {c : HttpContext} (hc : Logged r c) :
    StartLineExact isRequest c ↔ StartLineSpaced isRequest c.header := by
  obtain ⟨head, hheader⟩ := logged_block hr hc
  obtain ⟨line, text, hline, hrewritten, htext⟩ := exists_rewritten connHandler.ip isRequest head
  have hextracted := reaches_extracted hr c hc
  rw [hrewritten] at hheader
  unfold StartLineExact StartLineSpaced
  cases isRequest with
  | true => exact requestExact_iff hline hheader (htext rfl) hextracted
  | false => exact responseExact_iff hline hheader hextracted

/-- A request with two spaces in its first line is read off that line. -/
theorem startLineExact_iff_spaced :
    StartLineExact true (passedRequest (ascii "Content-Length: 2") (ascii "hi")) := by
  have hrun : (feed (2 ^ 62) 8 [ascii "P / H\r\nContent-Length: 2\r\n\r\nhi"]
      (.opened true clientConn)).map (fun x => (outcome x).1) =
      some [passedRequest (ascii "Content-Length: 2") (ascii "hi")] := by decide
  obtain ⟨r, hr, hpassed⟩ := exists_reaches_of_feed hrun
  have hmem : passedRequest (ascii "Content-Length: 2") (ascii "hi") ∈ r.passed := by
    rw [hpassed]
    exact List.mem_singleton_self _
  rw [startLineExact_iff hr (.inl hmem)]
  exact .inl (by decide)

/-! ## First lines without a space -/

/-- A request that is read off the two forwarding lines. -/
def borrowedRequest : HttpContext where
  isCompleted := true
  request := { method := ascii "X\r\nX-Forwarded-For:", urlPath := ascii "10.0.0.1\r\nX-Real-IP:" }
  header := ascii "X\r\nX-Forwarded-For: 10.0.0.1\r\nX-Real-IP: 10.0.0.1\r\n\r\n"

/-- A response whose status code is read off a field. -/
def borrowedResponse : HttpContext where
  isCompleted := true
  response := { statusCode := 200 }
  header := ascii "HTTP/1.1\r\nAge: 200\r\n\r\n"

/-- A first line without a space borrows those of the lines behind it. -/
theorem borrowed_not_exact :
    (¬ ∀ (maxSize : ℕ) (connHandler : ConnHandler) (r : ParseRun) (c : HttpContext),
      Reaches maxSize true connHandler r → Logged r c → StartLineExact true c) ∧
    ¬ ∀ (maxSize : ℕ) (connHandler : ConnHandler) (r : ParseRun) (c : HttpContext),
      Reaches maxSize false connHandler r → Logged r c → StartLineExact false c := by
  refine ⟨?_, ?_⟩
  · intro hall
    have hrun : (feed (2 ^ 62) 8 [ascii "X\r\n\r\n"] (.opened true clientConn)).map
        (fun x => (outcome x).1) = some [borrowedRequest] := by decide
    obtain ⟨r, hr, hpassed⟩ := exists_reaches_of_feed hrun
    have hlaw : RequestExact borrowedRequest :=
      hall _ _ r _ hr (.inl (by rw [hpassed]; exact List.mem_singleton_self _))
    obtain ⟨m, t, rest, hform⟩ := hlaw.1.mp (by decide)
    have hspace : 32 ∈ firstLine borrowedRequest.header := by simp [hform.parts]
    revert hspace
    decide
  · intro hall
    have hrun : (feed (2 ^ 62) 8 [ascii "HTTP/1.1\r\nAge: 200\r\n\r\n"]
        (.opened false clientConn)).map (fun x => (outcome x).1) = some [borrowedResponse] := by
      decide
    obtain ⟨r, hr, hpassed⟩ := exists_reaches_of_feed hrun
    have hlaw : ResponseExact borrowedResponse :=
      hall _ _ r _ hr (.inl (by rw [hpassed]; exact List.mem_singleton_self _))
    obtain ⟨token, ⟨-, first, -, hline⟩, -⟩ := hlaw (by decide)
    have hspace : 32 ∈ firstLine borrowedResponse.header := by
      rcases hline with hline | ⟨rest, hline⟩ <;> simp [hline]
    revert hspace
    decide

end PkuyoProxy.Analysis
