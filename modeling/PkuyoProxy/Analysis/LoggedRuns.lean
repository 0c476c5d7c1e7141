import PkuyoProxy.Analysis.AccessLines

/-!
# Runs of the parser that prints

The parser prints a line for every block it accepts, and what it has printed can be seen from the
messages it has passed on and from the one it is reading (`printedBlocks`).  So the parser that ends
with the first line that does not fit its buffer returns exactly as the other one does, if every
line that was printed on the way fits (`feedLogged_iff`).
-/

set_option autoImplicit false

namespace PkuyoProxy.Analysis

open PkuyoProxy.Lib PkuyoProxy.Model PkuyoProxy.Interface
open PkuyoProxy.Model.NormalConnHandler

variable {maxSize fuel : ℕ} {r r' r'' : ParseRun}

/-! ## What was printed -/

/-- The blocks whose start lines were printed: of the messages that were passed on, and of the one
that is being read. -/
def printedBlocks (r : ParseRun) : List Bytes :=
  r.passed.map HttpContext.header ++
    if r.handler.state = .readHeaders then [] else [r.handler.tmpContext.header]

/-- The block whose start line the next round prints. -/
def nextBlock (r : ParseRun) : List Bytes :=
  match r.handler.state with
  | .readHeaders => ((reporting r).map fun h => h.tmpContext.header).toList
  | _ => []

/-- Every line that was printed of a request fits the buffer. -/
def PrintedFit (r : ParseRun) : Prop :=
  r.handler.isRequest = true → ∀ block ∈ printedBlocks r, BlockFits r.handler.connHandler block

/-- A parser in front of a header block has printed a line for each message it has passed on. -/
theorem printedFit_iff (hstate : r.handler.state = .readHeaders) :
    PrintedFit r ↔ (r.handler.isRequest = true →
      ∀ c ∈ r.passed, BlockFits r.handler.connHandler c.header) := by
  simp [PrintedFit, printedBlocks, hstate]

/-- The parser of a new connection has printed nothing. -/
theorem printedFit_fresh {h : NormalConnHandler} (hstate : h.state = .readHeaders) :
    PrintedFit { handler := h } := by
  rw [printedFit_iff hstate]
  rintro - c ⟨⟩

/-- What holds of the blocks that were passed on holds of those that were to be. -/
theorem forall_delivered {α : Type} {passed : List HttpContext} {ms : List α}
    {forwarded : α → Bytes × Bytes × Bool} (h : passed.map delivered = ms.map forwarded)
    (P : Bytes → Prop) : (∀ c ∈ passed, P c.header) ↔ ∀ m ∈ ms, P (forwarded m).1 := by
  have hheaders : passed.map HttpContext.header = ms.map fun m => (forwarded m).1 := by
    have hfirst := congrArg (List.map Prod.fst) h
    rwa [List.map_map, List.map_map] at hfirst
  rw [← List.forall_mem_map (f := HttpContext.header), hheaders, List.forall_mem_map]

/-- The parser is of the same side of the same connection. -/
def SameConnection (r r' : ParseRun) : Prop :=
  r'.handler.isRequest = r.handler.isRequest ∧ r'.handler.connHandler = r.handler.connHandler

/-- What was printed fits if the block of every message fits that was to be passed on. -/
theorem printedFit_delivered {α : Type} {ms : List α} {forwarded : α → Bytes × Bytes × Bool}
    (hsame : SameConnection r r') (hstate : r'.handler.state = .readHeaders)
    (hpassed : r'.passed.map delivered = ms.map forwarded) :
    PrintedFit r' ↔ (r.handler.isRequest = true →
      ∀ m ∈ ms, BlockFits r.handler.connHandler (forwarded m).1) := by
  rw [printedFit_iff hstate, forall_delivered hpassed, hsame.1, hsame.2]

/-! ## One round -/

/-- The round goes on with the same connection, and has printed these lines. -/
structure Prints (r r' : ParseRun) (blocks : List Bytes) : Prop where
  side : r'.handler.isRequest = r.handler.isRequest
  conn : r'.handler.connHandler = r.handler.connHandler
  blocks : printedBlocks r' = printedBlocks r ++ blocks

/-- Where nothing has been done nothing was printed. -/
theorem Prints.refl (r : ParseRun) : Prints r r [] := ⟨rfl, rfl, (List.append_nil _).symm⟩

/-- Two rounds that print nothing print nothing together. -/
theorem Prints.trans (h : Prints r r' []) (h' : Prints r' r'' []) : Prints r r'' [] :=
  ⟨h'.side.trans h.side, h'.conn.trans h.conn, by rw [h'.blocks, h.blocks, List.append_nil]⟩

/-- The context that is reported on, by what `process_http_headers` made of the block. -/
theorem reporting_eq {e len : ℕ} {tmp : HttpContext} {isChunk : Bool}
    (hf : find (crlf ++ crlf) r.handler.rawBuffer = some e)
    (hp : processHttpHeaders { header := r.handler.rawBuffer.take e ++ crlf }
      r.handler.connHandler.ip r.handler.isRequest = (tmp, isChunk, len)) :
    reporting r =
      if isChunk then some { r.handler with state := .readChunkSize, tmpContext := tmp }
      else if len = npos then none
      else some { r.handler with state := .readBody, tmpContext := { tmp with data := len } } := by
  unfold reporting
  simp only [hf, take_add_two_of_find hf, HttpContext.reset_eq, hp]

/-- A message that is read on, or completed, is printed once. -/
theorem printedBlocks_complete (hs : r.handler.state ≠ .readHeaders)
    (hheader : r'.handler.tmpContext.header = r.handler.tmpContext.header)
    (hpassed : r'.passed = r.passed) : printedBlocks r'.complete = printedBlocks r := by
  simp [printedBlocks, ParseRun.complete, HttpContext.complete, hs, hheader, hpassed]

/-- Within a message the printed blocks are those of its header and of what was passed on. -/
theorem printedBlocks_underWay (hs : r.handler.state ≠ .readHeaders)
    (hs' : r'.handler.state ≠ .readHeaders)
    (hheader : r'.handler.tmpContext.header = r.handler.tmpContext.header)
    (hpassed : r'.passed = r.passed) : printedBlocks r' = printedBlocks r := by
  simp [printedBlocks, hs, hs', hheader, hpassed]

/-- Reading a header block prints the line of the next block. -/
theorem readHeaders_prints (maxSize : ℕ) (hs : r.handler.state = .readHeaders) :
    Prints r (readHeaders maxSize r).state (nextBlock r) := by
  have hround := readHeaders_round maxSize r
  have hstart : printedBlocks r = r.passed.map HttpContext.header := by
    simp [printedBlocks, hs]
  generalize readHeaders maxSize r = f at hround ⊢
  cases hround with
  | incomplete hf =>
    have hnone : nextBlock r = [] := by simp [nextBlock, hs, reporting, hf]
    rw [hnone]
    exact .refl r
  | chunked hf hp =>
    refine ⟨rfl, rfl, ?_⟩
    rw [hstart, nextBlock, hs, reporting_eq hf hp]
    simp [Flow.state, printedBlocks, logAccess, eraseRaw]
  | skipped hf hp =>
    refine ⟨rfl, rfl, ?_⟩
    rw [hstart, nextBlock, hs, reporting_eq hf hp]
    simp [Flow.state, printedBlocks, eraseRaw, hs]
  | bodiless hf hp hr' =>
    subst hr'
    refine ⟨rfl, rfl, ?_⟩
    have hzero : (0 : ℕ) ≠ npos := by decide
    rw [hstart, nextBlock, hs, reporting_eq hf hp]
    simp [Flow.state, printedBlocks, ParseRun.complete, HttpContext.complete, logAccess, eraseRaw,
      hzero]
  | tooLong hf hp hnpos hzero hmax =>
    refine ⟨rfl, rfl, ?_⟩
    rw [hstart, nextBlock, hs, reporting_eq hf hp]
    simp [Flow.state, printedBlocks, logAccess, hnpos]
  | sized hf hp hnpos hzero hmax =>
    refine ⟨rfl, rfl, ?_⟩
    rw [hstart, nextBlock, hs, reporting_eq hf hp]
    simp [Flow.state, printedBlocks, logAccess, eraseRaw, hnpos]

/-- Reading a body prints nothing. -/
theorem readBody_prints (hs : r.handler.state = .readBody) :
    Prints r (readBody r).state [] := by
  have hne : r.handler.state ≠ .readHeaders := by simp [hs]
  have hround := readBody_round r
  generalize readBody r = f at hround ⊢
  cases hround with
  | ended hle hr' =>
    subst hr'
    refine ⟨rfl, rfl, ?_⟩
    rw [List.append_nil]
    exact printedBlocks_complete hne rfl rfl
  | underWay hlt =>
    refine ⟨rfl, rfl, ?_⟩
    rw [List.append_nil]
    exact printedBlocks_underWay hne hne rfl rfl

/-- Reading the size of a chunk prints nothing. -/
theorem readChunkSize_prints (hs : r.handler.state = .readChunkSize) :
    Prints r (readChunkSize r).state [] := by
  have hne : r.handler.state ≠ .readHeaders := by simp [hs]
  have hround := readChunkSize_round r
  generalize readChunkSize r = f at hround ⊢
  cases hround with
  | incomplete | malformed => exact .refl r
  | last hf hsize hr' =>
    subst hr'
    refine ⟨rfl, rfl, ?_⟩
    rw [List.append_nil]
    exact printedBlocks_complete hne rfl rfl
  | chunk hf hsize hpos =>
    refine ⟨rfl, rfl, ?_⟩
    rw [List.append_nil]
    exact printedBlocks_underWay hne (by simp [Flow.state]) rfl rfl

/-- Reading the data of a chunk prints nothing. -/
theorem readChunkData_prints (hs : r.handler.state = .readChunkData) :
    Prints r (readChunkData r).state [] := by
  have hne : r.handler.state ≠ .readHeaders := by simp [hs]
  have hround := readChunkData_round r
  generalize readChunkData r = f at hround ⊢
  cases hround with
  | terminated hle hend | unterminated hle hend =>
    refine ⟨rfl, rfl, ?_⟩
    rw [List.append_nil]
    exact printedBlocks_underWay hne (by simp [Flow.state]) rfl rfl
  | underWay hlt =>
    refine ⟨rfl, rfl, ?_⟩
    rw [List.append_nil]
    exact printedBlocks_underWay hne hne rfl rfl

/-- A round of the loop over chunks prints nothing. -/
theorem chunkBody_prints {f : Flow Exn ParseRun} (hf : chunkBody r = some f) :
    Prints r f.state [] := by
  obtain rfl := Option.some.inj hf
  cases hs : r.handler.state with
  | readHeaders | readBody => exact .refl r
  | readChunkSize => exact readChunkSize_prints hs
  | readChunkData => exact readChunkData_prints hs

/-- The loop over chunks prints nothing. -/
theorem parseChunkedContent_prints {x : Exit Exn ParseRun} (hx : parseChunkedContent r = some x) :
    Prints r x.state [] := by
  have hin : ExitIn (fun s => Prints r s []) (fun _ s => Prints r s []) x := by
    refine loop_in (fun s f hs hf => ?_) (.refl r) ⟨_, hx⟩
    have hround := hs.trans (chunkBody_prints hf)
    cases f <;> exact hround
  cases x <;> exact hin

/-- **What a round prints** is the block it accepts. -/
theorem parseBody_prints {f : Flow Exn ParseRun} (hf : parseBody maxSize r = some f) :
    Prints r f.state (nextBlock r) := by
  unfold parseBody at hf
  cases hs : r.handler.state with
  | readHeaders =>
    rw [hs] at hf
    obtain rfl := Option.some.inj hf
    exact readHeaders_prints maxSize hs
  | readBody =>
    rw [hs] at hf
    obtain rfl := Option.some.inj hf
    have hnone : nextBlock r = [] := by simp [nextBlock, hs]
    rw [hnone]
    exact readBody_prints hs
  | readChunkSize | readChunkData =>
    have hnone : nextBlock r = [] := by simp [nextBlock, hs]
    rw [hs] at hf
    rw [hnone]
    dsimp only at hf
    split at hf
    · cases hf
    · rename_i hx
      cases hf
      exact parseChunkedContent_prints hx
    · rename_i hx
      cases hf
      exact parseChunkedContent_prints hx

/-! ## The line of a round -/

/-- What `log_access` reports on is the rewritten block of the same connection. -/
theorem reporting_spec {h : NormalConnHandler} (hr : reporting r = some h) :
    h.isRequest = r.handler.isRequest ∧ h.connHandler = r.handler.connHandler ∧
      ∃ head, h.tmpContext.header =
        rewritten r.handler.connHandler.ip r.handler.isRequest head := by
  cases hf : find (crlf ++ crlf) r.handler.rawBuffer with
  | none =>
    rw [reporting, hf] at hr
    cases hr
  | some e =>
    obtain ⟨⟨tmp, isChunk, len⟩, hp⟩ : ∃ parsed,
      processHttpHeaders { header := r.handler.rawBuffer.take e ++ crlf }
        r.handler.connHandler.ip r.handler.isRequest = parsed := ⟨_, rfl⟩
    have hheader : tmp.header =
        rewritten r.handler.connHandler.ip r.handler.isRequest (r.handler.rawBuffer.take e) :=
      (processed_block hp).1
    rw [reporting_eq hf hp] at hr
    split at hr
    · cases hr
      exact ⟨rfl, rfl, _, hheader⟩
    · split at hr
      · cases hr
      · cases hr
        exact ⟨rfl, rfl, _, hheader⟩

/-- The two texts that are printed of a response are short. -/
theorem length_accessLine_response {h : NormalConnHandler} (hside : h.isRequest = false)
    {text : Bytes} (htext : h.accessLine = some text) : text.length + 1 ≤ formatBufferSize := by
  unfold NormalConnHandler.accessLine at htext
  rw [hside, if_neg Bool.false_ne_true] at htext
  split at htext
  · cases htext
    decide
  · cases htext

/-- The line of a round fits the buffer if that of the block it accepts does. -/
theorem lineFits_iff (r : ParseRun) :
    LineFits r ↔ (r.handler.isRequest = true →
      ∀ block ∈ nextBlock r, BlockFits r.handler.connHandler block) := by
  unfold LineFits ParseRun.accessLine nextBlock
  cases hs : r.handler.state with
  | readBody | readChunkSize | readChunkData => simp
  | readHeaders =>
    cases hreport : reporting r with
    | none => simp
    | some h =>
      obtain ⟨hside, hconn, head, hheader⟩ := reporting_spec hreport
      simp only [Option.bind_some, Option.map_some, Option.toList_some, List.mem_singleton,
        forall_eq]
      cases hrequest : r.handler.isRequest with
      | false =>
        simp only [Bool.false_eq_true, false_implies, iff_true]
        exact fun text => length_accessLine_response (hside.trans hrequest)
      | true =>
        obtain ⟨line, text, -, hblock, hspaces⟩ :=
          exists_rewritten r.handler.connHandler.ip true head
        rw [hrequest] at hheader
        have hspace : 2 ≤ h.tmpContext.header.count 32 := by
          rw [hheader, hblock, List.count_append, List.count_cons_of_ne (by decide),
            List.count_cons_of_ne (by decide)]
          have htwo := hspaces rfl
          omega
        obtain ⟨shown, hline, hlen⟩ := length_accessLine (hside.trans hrequest) hspace
        rw [hconn] at hlen
        rw [hline]
        simp only [Option.some.injEq, forall_eq', formatBufferSize, true_implies, BlockFits]
        omega

/-- Every line that was printed behind a round fits if those in front of it do, and its own. -/
theorem records_printedFit (maxSize : ℕ) : Records PrintedFit LineFits (parseBody maxSize) := by
  intro r f hf
  obtain ⟨hside, hconn, hblocks⟩ := parseBody_prints hf
  rw [lineFits_iff, PrintedFit, PrintedFit, hside, hconn, hblocks]
  simp only [List.forall_mem_append]
  exact imp_and

/-! ## Calls and runs -/

/-- A call of the parser stays with its connection. -/
theorem parse_connection {x : Exit Exn ParseRun} (h : parseHttpContext maxSize fuel r = some x) :
    SameConnection r x.state := by
  have hin : ExitIn (SameConnection r) (fun _ => SameConnection r) x := by
    refine loop_in (fun s f hs hf => ?_) ⟨rfl, rfl⟩ ⟨fuel, h⟩
    obtain ⟨hside, hconn, -⟩ := parseBody_prints hf
    have hround : SameConnection r f.state := ⟨hside.trans hs.1, hconn.trans hs.2⟩
    cases f <;> exact hround
  cases x <;> exact hin

/-- A run over pieces stays with its connection. -/
theorem feed_connection {pieces : List Bytes} {x : Exit Exn ParseRun}
    (h : feed maxSize fuel pieces r = some x) : SameConnection r x.state := by
  induction pieces generalizing r with
  | nil =>
    cases h
    exact ⟨rfl, rfl⟩
  | cons piece pieces ih =>
    rw [feed, feedBy] at h
    cases hcall : parseHttpContext maxSize fuel (r.append piece) with
    | none => simp [hcall] at h
    | some y =>
      rw [hcall] at h
      have hfirst := parse_connection hcall
      cases y with
      | raised e r₁ =>
        cases h
        exact hfirst
      | done r₁ =>
        have hrest := ih h
        exact ⟨hrest.1.trans hfirst.1, hrest.2.trans hfirst.2⟩

/-- The line that is too long ends a call, and nothing else does that would not end it anyway. -/
theorem parseLogged_iff (hr : PrintedFit r) :
    parseHttpContextLogged maxSize fuel r = some (.done r') ↔
      parseHttpContext maxSize fuel r = some (.done r') ∧ PrintedFit r' :=
  whileLoop_cutOff_iff (records_printedFit maxSize) hr

/-- What a call has left fits the buffer only if what it began with does. -/
theorem parse_back (h : parseHttpContext maxSize fuel r = some (.done r')) (hr' : PrintedFit r') :
    PrintedFit r := (records_printedFit maxSize).back h hr'

/-- A run over pieces that returns, taken apart at the first one. -/
theorem feedBy_cons_done_iff {ε : Type} {parse : ParseRun → Option (Exit ε ParseRun)}
    {piece : Bytes} {pieces : List Bytes} :
    feedBy parse (piece :: pieces) r = some (.done r') ↔
      ∃ r₁, parse (r.append piece) = some (.done r₁) ∧
        feedBy parse pieces r₁ = some (.done r') := by
  rw [feedBy]
  cases parse (r.append piece) with
  | none => simp
  | some x =>
    cases x with
    | raised e r₁ => simp
    | done r₁ => simp

/-- What a run over pieces has left fits the buffer only if what it began with does. -/
theorem feed_back {pieces : List Bytes} (h : feed maxSize fuel pieces r = some (.done r'))
    (hr' : PrintedFit r') : PrintedFit r := by
  induction pieces generalizing r with
  | nil =>
    cases h
    exact hr'
  | cons piece pieces ih =>
    obtain ⟨r₁, hcall, hrest⟩ := feedBy_cons_done_iff.mp h
    have hback : PrintedFit (r.append piece) := parse_back hcall (ih hrest)
    exact hback

/-- **A run over pieces that prints returns exactly as the other one does**, if every line fits. -/
theorem feedLogged_iff {pieces : List Bytes} (hr : PrintedFit r) :
    feedLogged maxSize fuel pieces r = some (.done r') ↔
      feed maxSize fuel pieces r = some (.done r') ∧ PrintedFit r' := by
  unfold feedLogged feed
  induction pieces generalizing r with
  | nil =>
    simp only [feedBy, Option.some.injEq, Exit.done.injEq]
    constructor
    · rintro rfl
      exact ⟨rfl, hr⟩
    · exact And.left
  | cons piece pieces ih =>
    have hfirst : PrintedFit (r.append piece) := hr
    rw [feedBy_cons_done_iff, feedBy_cons_done_iff]
    constructor
    · rintro ⟨r₁, hcall, hrest⟩
      obtain ⟨hcall, hr₁⟩ := (parseLogged_iff hfirst).mp hcall
      obtain ⟨hrest, hr'⟩ := (ih hr₁).mp hrest
      exact ⟨⟨r₁, hcall, hrest⟩, hr'⟩
    · rintro ⟨⟨r₁, hcall, hrest⟩, hr'⟩
      have hr₁ := feed_back hrest hr'
      exact ⟨r₁, (parseLogged_iff hfirst).mpr ⟨hcall, hr₁⟩, (ih hr₁).mpr ⟨hrest, hr'⟩⟩

/-- Feeding the pieces to the parser that prints ends in `x`. -/
def LoggedFeeds (maxSize : ℕ) (pieces : List Bytes) (r : ParseRun) (x : Exit ParserFault ParseRun) :
    Prop :=
  ∃ fuel, feedLogged maxSize fuel pieces r = some x

/-- The parser that prints is fed the pieces exactly if the other one is and every line fits. -/
theorem loggedFeeds_iff {pieces : List Bytes} (hr : PrintedFit r) :
    LoggedFeeds maxSize pieces r (.done r') ↔
      Feeds maxSize pieces r (.done r') ∧ PrintedFit r' := by
  constructor
  · rintro ⟨fuel, h⟩
    obtain ⟨hfeed, hr'⟩ := (feedLogged_iff hr).mp h
    exact ⟨⟨fuel, hfeed⟩, hr'⟩
  · rintro ⟨⟨fuel, hfeed⟩, hr'⟩
    exact ⟨fuel, (feedLogged_iff hr).mpr ⟨hfeed, hr'⟩⟩

end PkuyoProxy.Analysis
