import PkuyoProxy.Analysis.Segmentation
import PkuyoProxy.Interface.Messages

/-!
# What the parser passes on

The states between the rounds of the parser, whatever has arrived and however it was cut
(`Reaches`), include those of every run (`feeds_reaches`).  In each of them the contexts
passed on carry the rewritten block they were read from and, unless the block announces
chunks, a body of the announced length (`reaches_inv`).
-/

set_option autoImplicit false

namespace PkuyoProxy.Analysis

open PkuyoProxy.Lib PkuyoProxy.Model PkuyoProxy.Interface
open PkuyoProxy.Model.NormalConnHandler

variable {maxSize : ℕ} {isRequest : Bool} {connHandler : ConnHandler}

/-! ## Every state of the parser -/

/-- One round of the loop that handles the parser's state. -/
def parserRound (maxSize : ℕ) (r : ParseRun) : Flow Exn ParseRun :=
  match r.handler.state with
  | .readHeaders => readHeaders maxSize r
  | .readBody => readBody r
  | .readChunkSize => readChunkSize r
  | .readChunkData => readChunkData r

/-- The states between the rounds of the parser of a connection, whatever arrives and
whenever it does. -/
inductive Reaches (maxSize : ℕ) (isRequest : Bool) (connHandler : ConnHandler) : ParseRun → Prop
  | opened : Reaches maxSize isRequest connHandler (.opened isRequest connHandler)
  | append {r : ParseRun} (h : Reaches maxSize isRequest connHandler r) (piece : Bytes) :
      Reaches maxSize isRequest connHandler (r.append piece)
  | next {r r' : ParseRun} (h : Reaches maxSize isRequest connHandler r)
      (hround : parserRound maxSize r = .next r') : Reaches maxSize isRequest connHandler r'
  | leave {r r' : ParseRun} (h : Reaches maxSize isRequest connHandler r)
      (hround : parserRound maxSize r = .leave r') : Reaches maxSize isRequest connHandler r'

/-- A header block that raises has passed nothing on. -/
theorem readHeaders_raise {r r' : ParseRun} {e : Exn} (h : readHeaders maxSize r = .raise e r') :
    r'.passed = r.passed := by
  have hround := readHeaders_round maxSize r
  rw [h] at hround
  cases hround with
  | tooLong => rfl

/-- A size line that raises has changed nothing. -/
theorem readChunkSize_raise {r r' : ParseRun} {e : Exn} (h : readChunkSize r = .raise e r') :
    r' = r := by
  have hround := readChunkSize_round r
  rw [h] at hround
  cases hround with
  | malformed => rfl

/-- A round that raises has passed nothing on. -/
theorem passed_of_raise (maxSize : ℕ) {r r' : ParseRun} {e : Exn}
    (h : parserRound maxSize r = .raise e r') : r'.passed = r.passed := by
  unfold parserRound at h
  split at h
  · exact readHeaders_raise h
  · have hround := readBody_round r
    rw [h] at hround
    cases hround
  · rw [readChunkSize_raise h]
  · have hround := readChunkData_round r
    rw [h] at hround
    cases hround

/-- The round ends in `I`, or raises in `E`. -/
def FlowIn (I : ParseRun → Prop) (E : Exn → ParseRun → Prop) : Flow Exn ParseRun → Prop
  | .next r | .leave r => I r
  | .raise e r => E e r

/-- The call ends in `I`, or raises in `E`. -/
def ExitIn (I : ParseRun → Prop) (E : Exn → ParseRun → Prop) : Exit Exn ParseRun → Prop
  | .done r => I r
  | .raised e r => E e r

section Rounds

variable {I : ParseRun → Prop} {E : Exn → ParseRun → Prop}

/-- A loop whose body keeps a property ends with it. -/
theorem loop_in {body : ParseRun → Option (Flow Exn ParseRun)}
    (hbody : ∀ s f, I s → body s = some f → FlowIn I E f) {r : ParseRun} (hr : I r)
    {x : Exit Exn ParseRun} (hx : Evaluates rawNonempty body r x) : ExitIn I E x := by
  refine Evaluates.invariant I (ExitIn I E) (fun s hs _ => hs) ?_ ?_ ?_ hr hx
  · exact fun s s' hs _ hb => hbody s _ hs hb
  · exact fun s s' hs _ hb => hbody s _ hs hb
  · exact fun s e s' hs _ hb => hbody s _ hs hb

/-- The rounds of the inner loop are rounds of the parser. -/
theorem chunkBody_in (hround : ∀ s, I s → FlowIn I E (parserRound maxSize s)) {r : ParseRun}
    {f : Flow Exn ParseRun} (hr : I r) (hf : chunkBody r = some f) : FlowIn I E f := by
  have h := hround r hr
  unfold parserRound at h
  obtain rfl := Option.some.inj hf
  cases hstate : r.handler.state with
  | readHeaders => exact hr
  | readBody => exact hr
  | readChunkSize =>
    rw [hstate] at h
    exact h
  | readChunkData =>
    rw [hstate] at h
    exact h

/-- A round of the outer loop is a round of the parser, or a run of the inner loop. -/
theorem parseBody_in (hround : ∀ s, I s → FlowIn I E (parserRound maxSize s)) {r : ParseRun}
    {f : Flow Exn ParseRun} (hr : I r) (hf : parseBody maxSize r = some f) : FlowIn I E f := by
  have h := hround r hr
  have hinner (x : Exit Exn ParseRun) (hx : parseChunkedContent r = some x) : ExitIn I E x :=
    loop_in (fun s f hs hb => chunkBody_in hround hs hb) hr ⟨_, hx⟩
  unfold parserRound at h
  unfold parseBody at hf
  cases hstate : r.handler.state with
  | readHeaders =>
    rw [hstate] at h hf
    obtain rfl := Option.some.inj hf
    exact h
  | readBody =>
    rw [hstate] at h hf
    obtain rfl := Option.some.inj hf
    exact h
  | readChunkSize | readChunkData =>
    rw [hstate] at hf
    dsimp only at hf
    split at hf
    · cases hf
    · rename_i r' hx
      obtain rfl := Option.some.inj hf
      exact hinner _ hx
    · rename_i e r' hx
      obtain rfl := Option.some.inj hf
      exact hinner _ hx

/-- **Whatever the rounds of the parser keep, a call keeps.** -/
theorem parse_in (hround : ∀ s, I s → FlowIn I E (parserRound maxSize s)) {r : ParseRun}
    (hr : I r) {x : Exit Exn ParseRun} (hx : Evaluates rawNonempty (parseBody maxSize) r x) :
    ExitIn I E x :=
  loop_in (fun _ _ hs hb => parseBody_in hround hs hb) hr hx

end Rounds

/-- Where a call that started in a reachable state may end. -/
def ReachesExit (maxSize : ℕ) (isRequest : Bool) (connHandler : ConnHandler) :
    Exit Exn ParseRun → Prop
  | .done r => Reaches maxSize isRequest connHandler r
  | .raised _ r => ∃ r₀, Reaches maxSize isRequest connHandler r₀ ∧ r.passed = r₀.passed

/-- A round leads from reached states to reached ones. -/
theorem parserRound_reaches {r : ParseRun} (hr : Reaches maxSize isRequest connHandler r) :
    FlowIn (Reaches maxSize isRequest connHandler)
      (fun e r => ReachesExit maxSize isRequest connHandler (.raised e r))
      (parserRound maxSize r) := by
  cases hf : parserRound maxSize r with
  | next r' => exact hr.next hf
  | leave r' => exact hr.leave hf
  | raise e r' => exact ⟨r, hr, passed_of_raise maxSize hf⟩

/-- A call of the parser leads from reached states to reached ones. -/
theorem parse_reaches {r : ParseRun} (hr : Reaches maxSize isRequest connHandler r)
    {x : Exit Exn ParseRun} (hx : Evaluates rawNonempty (parseBody maxSize) r x) :
    ReachesExit maxSize isRequest connHandler x := by
  have h := parse_in (fun s hs => parserRound_reaches hs) hr hx
  cases x with
  | done r' => exact h
  | raised e r' => exact h

/-- Feeding pieces leads from reached states to reached ones. -/
theorem feeds_reaches {pieces : List Bytes} {r : ParseRun}
    (hr : Reaches maxSize isRequest connHandler r) {x : Exit Exn ParseRun}
    (hx : Feeds maxSize pieces r x) : ReachesExit maxSize isRequest connHandler x := by
  induction pieces generalizing r with
  | nil =>
    obtain rfl := feeds_nil_iff.mp hx
    exact hr
  | cons piece pieces ih =>
    rcases feeds_cons_iff.mp hx with ⟨e, r', hcall, rfl⟩ | ⟨r', hcall, hrest⟩
    · exact parse_reaches (hr.append piece) hcall
    · have hr' : Reaches maxSize isRequest connHandler r' := parse_reaches (hr.append piece) hcall
      exact ih hr' hrest

/-- The messages a run has passed on were passed on in one of these states. -/
theorem feeds_passed {pieces : List Bytes} {x : Exit Exn ParseRun}
    (hx : Feeds maxSize pieces (.opened isRequest connHandler) x) :
    ∃ r, Reaches maxSize isRequest connHandler r ∧ r.passed = (outcome x).1 := by
  have hreach := feeds_reaches .opened hx
  cases x with
  | done r => exact ⟨r, hreach, rfl⟩
  | raised e r =>
    obtain ⟨r₀, hr₀, hpassed⟩ := hreach
    exact ⟨r₀, hr₀, hpassed.symm⟩

/-! ## Genuine messages -/

/-- A context read off a header block and, unless the block announces chunks, the body of the
announced length. -/
def Genuine (maxSize : ℕ) (ip : Bytes) (isRequest : Bool) (c : HttpContext) : Prop :=
  c.isCompleted = true ∧ c.state = .sendHeader ∧ ∃ head, Delimited head ∧
    c.header = rewritten ip isRequest head ∧
    ((announced ip isRequest head).1 = false →
      (announced ip isRequest head).2 = c.content.length ∧ c.content.length ≤ maxSize ∧
        c.content.length ≠ npos)

/-- The message under construction. -/
def UnderWay (maxSize : ℕ) (h : NormalConnHandler) : Prop :=
  match h.state with
  | .readHeaders => True
  | .readBody => ∃ head, Delimited head ∧
      h.tmpContext.header = rewritten h.connHandler.ip h.isRequest head ∧
      announced h.connHandler.ip h.isRequest head =
        (false, h.tmpContext.content.length + h.tmpContext.data) ∧
      h.tmpContext.content.length + h.tmpContext.data ≤ maxSize ∧
      h.tmpContext.content.length + h.tmpContext.data ≠ npos
  | .readChunkSize | .readChunkData => ∃ head, Delimited head ∧
      h.tmpContext.header = rewritten h.connHandler.ip h.isRequest head ∧
      (announced h.connHandler.ip h.isRequest head).1 = true

/-- The invariant of the parser of a connection. -/
structure ParserInv (maxSize : ℕ) (isRequest : Bool) (connHandler : ConnHandler) (r : ParseRun) :
    Prop where
  side : r.handler.isRequest = isRequest
  conn : r.handler.connHandler = connHandler
  underWay : UnderWay maxSize r.handler
  passed : ∀ c ∈ r.passed, Genuine maxSize connHandler.ip isRequest c

/-- What stands in front of the first empty line is a delimited block. -/
theorem delimited_take {raw : Bytes} {e : ℕ} (h : find (crlf ++ crlf) raw = some e) :
    Delimited (raw.take e) := by
  have hsplit := take_append_drop_of_find h
  have hlen := find_add_length_le h
  have hte : (raw.take e).length = e := by
    rw [List.length_take]
    omega
  have hprefix := find_take_of_le h le_rfl
  have htake : raw.take (e + (crlf ++ crlf).length) = raw.take e ++ (crlf ++ crlf) := by
    conv_lhs => rw [← hsplit]
    exact List.take_left' (by rw [List.length_append, hte])
  rw [htake] at hprefix
  rw [Delimited, hprefix, hte]

/-- Passing a genuine message on keeps the invariant. -/
theorem ParserInv.completed {r r' : ParseRun} {c : HttpContext}
    (h : ParserInv maxSize isRequest connHandler r)
    (hc : Genuine maxSize connHandler.ip isRequest c) (hpassed : r'.passed = r.passed ++ [c])
    (hstate : r'.handler.state = .readHeaders) (hside : r'.handler.isRequest = r.handler.isRequest)
    (hconn : r'.handler.connHandler = r.handler.connHandler) :
    ParserInv maxSize isRequest connHandler r' := by
  refine ⟨hside.trans h.side, hconn.trans h.conn, by simp [UnderWay, hstate], ?_⟩
  intro c' hmem
  rw [hpassed] at hmem
  rcases List.mem_append.mp hmem with hmem | hmem
  · exact h.passed c' hmem
  · rwa [List.mem_singleton.mp hmem]

/-- What `process_http_headers` makes of a block. -/
theorem processed_block {head ip : Bytes} {isRequest isChunk : Bool} {len : ℕ} {tmp : HttpContext}
    (h : processHttpHeaders { header := head ++ crlf } ip isRequest = (tmp, isChunk, len)) :
    tmp.header = rewritten ip isRequest head ∧ announced ip isRequest head = (isChunk, len) ∧
      tmp.content = [] := by
  refine ⟨(congrArg (·.1.header) h).symm, congrArg Prod.snd h, ?_⟩
  exact (congrArg (·.1.content) h).symm

/-- The round keeps the invariant, and passes nothing on if it raises. -/
def KeepsInv (maxSize : ℕ) (isRequest : Bool) (connHandler : ConnHandler) :
    Flow Exn ParseRun → Prop :=
  FlowIn (ParserInv maxSize isRequest connHandler)
    fun _ r => ∀ c ∈ r.passed, Genuine maxSize connHandler.ip isRequest c

/-- Reading a header block keeps the invariant. -/
theorem readHeaders_inv {r : ParseRun} (h : ParserInv maxSize isRequest connHandler r)
    (hs : r.handler.state = .readHeaders) :
    KeepsInv maxSize isRequest connHandler (readHeaders maxSize r) := by
  have hround := readHeaders_round maxSize r
  generalize readHeaders maxSize r = f at hround ⊢
  cases hround with
  | incomplete => exact h
  | chunked hf hp =>
    obtain ⟨hwritten, hann, -⟩ := processed_block hp
    refine ⟨h.side, h.conn, ⟨_, delimited_take hf, ?_, ?_⟩, h.passed⟩
    · simpa [logAccess, eraseRaw] using hwritten
    · exact congrArg Prod.fst hann
  | skipped hf hp => exact ⟨h.side, h.conn, by simp [UnderWay, eraseRaw, hs], h.passed⟩
  | bodiless hf hp hr' =>
    obtain ⟨hwritten, hann, hempty⟩ := processed_block hp
    subst hr'
    refine h.completed ⟨rfl, rfl, _, delimited_take hf, ?_, ?_⟩ rfl rfl rfl rfl
    · rw [← h.conn, ← h.side]
      simpa [logAccess] using hwritten
    · rw [← h.conn, ← h.side, hann]
      simp [logAccess, hempty, npos]
  | tooLong => exact h.passed
  | sized hf hp hnpos hzero hmax =>
    obtain ⟨hwritten, hann, hempty⟩ := processed_block hp
    refine ⟨h.side, h.conn, ⟨_, delimited_take hf, ?_, ?_, ?_, ?_⟩, h.passed⟩
    · simpa [logAccess, eraseRaw] using hwritten
    · apply hann.trans
      simp [logAccess, eraseRaw, hempty]
    · simp only [logAccess, eraseRaw, extractHead_content, extractHead_data, hempty]
      simpa using hmax
    · simpa [logAccess, eraseRaw, hempty] using hnpos

/-- Reading a body keeps the invariant. -/
theorem readBody_inv {r : ParseRun} (h : ParserInv maxSize isRequest connHandler r)
    (hs : r.handler.state = .readBody) : KeepsInv maxSize isRequest connHandler (readBody r) := by
  have hunder := h.underWay
  simp only [UnderWay, hs] at hunder
  obtain ⟨head, hdelim, hheader, hann, hmax, hnpos⟩ := hunder
  have hround := readBody_round r
  generalize readBody r = f at hround ⊢
  cases hround with
  | ended hle hr' =>
    have hlen : (r.handler.takeContent r.handler.tmpContext.data).tmpContext.content.length =
        r.handler.tmpContext.content.length + r.handler.tmpContext.data := by
      rw [takeContent, List.length_append, List.length_take, Nat.min_eq_left hle]
    subst hr'
    refine h.completed ⟨rfl, rfl, head, hdelim, ?_, fun _ => ?_⟩ rfl rfl rfl rfl
    · rw [← h.conn, ← h.side]
      exact hheader
    · rw [← h.conn, ← h.side, hann]
      exact ⟨hlen.symm, hlen ▸ hmax, hlen ▸ hnpos⟩
  | underWay hlt =>
    have hsum : (r.handler.takeContent r.handler.rawBuffer.length).tmpContext.content.length +
        (r.handler.takeContent r.handler.rawBuffer.length).tmpContext.data =
        r.handler.tmpContext.content.length + r.handler.tmpContext.data := by
      simp only [takeContent, List.length_append, List.take_length]
      omega
    refine ⟨h.side, h.conn, ?_, h.passed⟩
    have hstate : (r.handler.takeContent r.handler.rawBuffer.length).state = .readBody := hs
    simp only [UnderWay, hstate, hsum]
    exact ⟨head, hdelim, hheader, hann, hmax, hnpos⟩

/-- Reading the size of a chunk keeps the invariant. -/
theorem readChunkSize_inv {r : ParseRun} (h : ParserInv maxSize isRequest connHandler r)
    (hs : r.handler.state = .readChunkSize) :
    KeepsInv maxSize isRequest connHandler (readChunkSize r) := by
  have hunder := h.underWay
  simp only [UnderWay, hs] at hunder
  obtain ⟨head, hdelim, hheader, hann⟩ := hunder
  have hgenuine : Genuine maxSize connHandler.ip isRequest r.handler.tmpContext.complete := by
    rw [h.conn, h.side] at hheader hann
    exact ⟨rfl, rfl, head, hdelim, hheader, by simp [hann]⟩
  have hround := readChunkSize_round r
  generalize readChunkSize r = f at hround ⊢
  cases hround with
  | incomplete => exact h
  | malformed => exact h.passed
  | last _ _ hr' =>
    subst hr'
    exact h.completed hgenuine rfl rfl rfl rfl
  | chunk => exact ⟨h.side, h.conn, ⟨head, hdelim, hheader, hann⟩, h.passed⟩

/-- Reading the data of a chunk keeps the invariant. -/
theorem readChunkData_inv {r : ParseRun} (h : ParserInv maxSize isRequest connHandler r)
    (hs : r.handler.state = .readChunkData) :
    KeepsInv maxSize isRequest connHandler (readChunkData r) := by
  have hunder := h.underWay
  simp only [UnderWay, hs] at hunder
  obtain ⟨head, hdelim, hheader, hann⟩ := hunder
  have hround := readChunkData_round r
  generalize readChunkData r = f at hround ⊢
  cases hround with
  | terminated | unterminated =>
    exact ⟨h.side, h.conn, ⟨head, hdelim, hheader, hann⟩, h.passed⟩
  | underWay =>
    refine ⟨h.side, h.conn, ?_, h.passed⟩
    have hstate : (r.handler.takeContent r.handler.rawBuffer.length).state = .readChunkData := hs
    simp only [UnderWay, hstate]
    exact ⟨head, hdelim, hheader, hann⟩

/-- Every round of the parser keeps the invariant. -/
theorem parserRound_inv {r : ParseRun} (h : ParserInv maxSize isRequest connHandler r) :
    KeepsInv maxSize isRequest connHandler (parserRound maxSize r) := by
  unfold parserRound
  cases hs : r.handler.state with
  | readHeaders => exact readHeaders_inv h hs
  | readBody => exact readBody_inv h hs
  | readChunkSize => exact readChunkSize_inv h hs
  | readChunkData => exact readChunkData_inv h hs

/-- **Everything the parser passes on is genuine.** -/
theorem reaches_inv {r : ParseRun} (hr : Reaches maxSize isRequest connHandler r) :
    ParserInv maxSize isRequest connHandler r := by
  induction hr with
  | opened => exact ⟨rfl, rfl, trivial, by simp [ParseRun.opened]⟩
  | append _ piece ih => exact ⟨ih.side, ih.conn, ih.underWay, ih.passed⟩
  | next _ hr ih =>
    have h := parserRound_inv ih
    rwa [hr] at h
  | leave _ hr ih =>
    have h := parserRound_inv ih
    rwa [hr] at h

end PkuyoProxy.Analysis
