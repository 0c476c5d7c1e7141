import PkuyoProxy.Analysis.ParserRefinement

/-!
# Cutting the input into pieces

`feed` calls the parser after each piece.  The parser looks at bytes it may not have yet in
two places: the line end behind a chunk size, and the terminator behind a chunk's data.
When no piece ends there (`CleanFrom`), the run over the pieces ends where the byte-by-byte
reader ends on the whole stream (`feed_clean`), so two such cuts of one stream give the
same messages and the same parser (`segmentation_independent`).
-/

set_option autoImplicit false

namespace PkuyoProxy.Analysis

open PkuyoProxy.Lib PkuyoProxy.Model PkuyoProxy.Interface

variable {maxSize : ℕ}

/-! ## Runs over pieces -/

/-- Feeding the pieces ends in `x`. -/
def Feeds (maxSize : ℕ) (pieces : List Bytes) (r : ParseRun) (x : Exit Exn ParseRun) : Prop :=
  ∃ fuel, feed maxSize fuel pieces r = some x

section Calls

variable {ε : Type} {body : ParseRun → Option (Flow ε ParseRun)}

/-- More fuel does not change how a run ends, whatever the rounds of the parser are. -/
theorem feedBy_mono {fuel fuel' : ℕ} {pieces : List Bytes} {r : ParseRun} {x : Exit ε ParseRun}
    (hle : fuel ≤ fuel') (h : feedBy (whileLoop rawNonempty body fuel) pieces r = some x) :
    feedBy (whileLoop rawNonempty body fuel') pieces r = some x := by
  induction pieces generalizing r with
  | nil => exact h
  | cons piece pieces ih =>
    rw [feedBy] at h ⊢
    cases hp : whileLoop rawNonempty body fuel (r.append piece) with
    | none => simp [hp] at h
    | some y =>
      rw [hp] at h
      rw [whileLoop_mono hle hp]
      cases y with
      | done r' => exact ih h
      | raised e r' => exact h

/-- A run ends with its first call if that raises, and goes on if it returns. -/
theorem feedBy_cons_iff {piece : Bytes} {pieces : List Bytes} {r : ParseRun}
    {x : Exit ε ParseRun} :
    (∃ fuel, feedBy (whileLoop rawNonempty body fuel) (piece :: pieces) r = some x) ↔
      (∃ e r', Evaluates rawNonempty body (r.append piece) (.raised e r') ∧ x = .raised e r') ∨
      ∃ r', Evaluates rawNonempty body (r.append piece) (.done r') ∧
        ∃ fuel, feedBy (whileLoop rawNonempty body fuel) pieces r' = some x := by
  constructor
  · rintro ⟨fuel, h⟩
    rw [feedBy] at h
    cases hcall : whileLoop rawNonempty body fuel (r.append piece) with
    | none => simp [hcall] at h
    | some y =>
      rw [hcall] at h
      cases y with
      | raised e r' => exact .inl ⟨e, r', ⟨fuel, hcall⟩, (Option.some.inj h).symm⟩
      | done r' => exact .inr ⟨r', ⟨fuel, hcall⟩, fuel, h⟩
  · rintro (⟨e, r', ⟨fuel, hcall⟩, rfl⟩ | ⟨r', ⟨n, hn⟩, m, hm⟩)
    · exact ⟨fuel, by rw [feedBy, hcall]⟩
    · refine ⟨max n m, ?_⟩
      rw [feedBy, whileLoop_mono (Nat.le_max_left n m) hn]
      exact feedBy_mono (Nat.le_max_right n m) hm

end Calls

/-- More fuel does not change the result of feeding pieces. -/
theorem feed_mono {fuel fuel' : ℕ} {pieces : List Bytes} {r : ParseRun} {x : Exit Exn ParseRun}
    (hle : fuel ≤ fuel') (h : feed maxSize fuel pieces r = some x) :
    feed maxSize fuel' pieces r = some x := feedBy_mono hle h

/-- Feeding pieces has at most one result. -/
theorem Feeds.unique {pieces : List Bytes} {r : ParseRun} {x y : Exit Exn ParseRun}
    (hx : Feeds maxSize pieces r x) (hy : Feeds maxSize pieces r y) : x = y := by
  obtain ⟨n, hn⟩ := hx
  obtain ⟨m, hm⟩ := hy
  have h1 := feed_mono (Nat.le_max_left n m) hn
  have h2 := feed_mono (Nat.le_max_right n m) hm
  exact Option.some.inj (h1.symm.trans h2)

/-- Feeding no pieces changes nothing. -/
theorem feeds_nil_iff {r : ParseRun} {x : Exit Exn ParseRun} :
    Feeds maxSize [] r x ↔ x = .done r := by
  constructor
  · rintro ⟨fuel, h⟩
    exact (Option.some.inj h).symm
  · rintro rfl
    exact ⟨0, rfl⟩

/-- Feeding more pieces ends in the exception of the first, or goes on with the others behind it. -/
theorem feeds_cons_iff {piece : Bytes} {pieces : List Bytes} {r : ParseRun}
    {x : Exit Exn ParseRun} :
    Feeds maxSize (piece :: pieces) r x ↔
      (∃ e r', Evaluates rawNonempty (parseBody maxSize) (r.append piece) (.raised e r') ∧
        x = .raised e r') ∨
      ∃ r', Evaluates rawNonempty (parseBody maxSize) (r.append piece) (.done r') ∧
        Feeds maxSize pieces r' x := feedBy_cons_iff

/-- A run that returns has returned from its first call. -/
theorem feeds_cons_done {piece : Bytes} {pieces : List Bytes} {r r' : ParseRun}
    (h : Feeds maxSize (piece :: pieces) r (.done r')) :
    ∃ r₁, Evaluates rawNonempty (parseBody maxSize) (r.append piece) (.done r₁) ∧
      Feeds maxSize pieces r₁ (.done r') := by
  rcases feeds_cons_iff.mp h with ⟨e, r₁, -, hx⟩ | hnext
  · cases hx
  · exact hnext

/-! ## Cuts the parser does not notice -/

/-- The reader stands at `f` and `rest` is still to come: the parser, called now, does not
miss a byte it would have looked at. -/
def CleanCut (f : Framer) (rest : Bytes) : Prop :=
  match f.phase with
  | .chunkSize => f.pending = []
  | .chunkEnd => f.pending = [] ∧ ¬ crlf <+: rest
  | _ => True

instance : (f : Framer) → (rest : Bytes) → Decidable (CleanCut f rest)
  | ⟨.chunkSize, _, pending⟩, _ => inferInstanceAs (Decidable (pending = []))
  | ⟨.chunkEnd, _, pending⟩, rest => inferInstanceAs (Decidable (pending = [] ∧ ¬ crlf <+: rest))
  | ⟨.headers, _, _⟩, _ | ⟨.body, _, _⟩, _ | ⟨.chunkData, _, _⟩, _ | ⟨.failed _, _, _⟩, _ =>
    inferInstanceAs (Decidable True)

/-- Every piece ends at a clean cut. -/
def CleanFrom (maxSize : ℕ) (ip : Bytes) (isRequest : Bool) (f : Framer) : List Bytes → Prop
  | [] => True
  | piece :: pieces =>
    CleanCut ((Framer.machine maxSize ip isRequest).run f piece).1 pieces.flatten ∧
      CleanFrom maxSize ip isRequest ((Framer.machine maxSize ip isRequest).run f piece).1 pieces

/-- The reader that stands where a handler's parser does. -/
structure Tracks (r : ParseRun) (f : Framer) : Prop where
  wf : Framer.Wf f
  running : ∀ e, f.phase ≠ .failed e
  state : r.handler.state = stateOf (settle f).phase
  tmp : r.handler.tmpContext = f.tmp
  raw : r.handler.rawBuffer = f.pending

/-- The fresh reader stands where a new parser does. -/
theorem tracks_opened (isRequest : Bool) (connHandler : ConnHandler) :
    Tracks (ParseRun.opened isRequest connHandler) Framer.fresh :=
  ⟨Framer.wf_fresh, by simp [Framer.fresh], rfl, rfl, rfl⟩

/-- Settling does not change the message under construction. -/
@[simp] theorem settle_tmp (f : Framer) : (settle f).tmp = f.tmp := by
  unfold settle
  split <;> rfl

/-- Settling does not change the pending bytes. -/
@[simp] theorem settle_pending (f : Framer) : (settle f).pending = f.pending := by
  unfold settle
  split <;> rfl

/-- A reader that has not failed stands where the parser is restored from it. -/
theorem tracks_restore {f : Framer} (hwf : Framer.Wf f) (hrun : ∀ e, f.phase ≠ .failed e)
    (h : NormalConnHandler) (passed : List HttpContext) :
    Tracks ⟨restore h (settle f), passed⟩ f :=
  ⟨hwf, hrun, rfl, settle_tmp f, settle_pending f⟩

/-- A parser that is tracked is ready for the next piece. -/
theorem Tracks.ready {r : ParseRun} {f : Framer} (ht : Tracks r f) (piece : Bytes) :
    Ready (r.append piece).handler := by
  intro hs
  have hstate := ht.state
  have hwf := ht.wf
  change 0 < r.handler.tmpContext.data
  change r.handler.state = _ ∨ r.handler.state = _ at hs
  rw [ht.tmp]
  rw [hstate] at hs
  obtain ⟨phase, tmp, pending⟩ := f
  cases phase <;> simp [settle, stateOf] at hs
  · exact hwf.2
  · exact hwf.2

/-- A clean cut in front of a stream is one in front of its first bytes. -/
theorem CleanCut.of_append {f : Framer} {piece rest : Bytes} (h : CleanCut f (piece ++ rest)) :
    CleanCut f piece := by
  unfold CleanCut at h ⊢
  split
  · simp_all
  · rename_i hp
    rw [hp] at h
    exact ⟨h.1, fun hc => h.2 (hc.trans (List.prefix_append _ _))⟩
  · trivial

/-- Behind a clean cut the parser reads the next piece as the reader does. -/
theorem reading_append {r : ParseRun} {f : Framer} (ht : Tracks r f) {piece : Bytes}
    (hcut : CleanCut f piece) :
    reading maxSize (r.append piece) =
      (let o := (Framer.machine maxSize r.handler.connHandler.ip r.handler.isRequest).run f piece
      (settle o.1, r.passed ++ o.2)) := by
  have hreader : reader (r.append piece).handler =
      ⟨phaseOf (stateOf (settle f).phase), f.tmp, []⟩ := by
    simp [reader, ParseRun.append, ht.state, ht.tmp]
  have hraw : (r.append piece).handler.rawBuffer = f.pending ++ piece := by
    simp [ParseRun.append, ht.raw]
  rw [reading, hreader, hraw]
  have hwf := ht.wf
  have hrun := ht.running
  by_cases hend : f.phase = .chunkEnd
  · obtain ⟨phase, tmp, pending⟩ := f
    obtain rfl : phase = .chunkEnd := hend
    obtain ⟨rfl, hcrlf⟩ : pending = [] ∧ ¬ crlf <+: piece := hcut
    obtain ⟨hstate, hout⟩ := settle_run_chunkEnd maxSize r.handler.connHandler.ip
      r.handler.isRequest tmp hcrlf
    simp only [hstate, hout]
    rfl
  · have hphase : phaseOf (stateOf (settle f).phase) = f.phase := by
      obtain ⟨phase, tmp, pending⟩ := f
      cases phase <;> simp_all [settle, stateOf, phaseOf]
    simp only [hphase, Mealy.run_append, Framer.run_pending hwf, List.nil_append]
    rfl

/-- One call between two clean cuts: it raises when the reader fails on the piece, and
otherwise returns where the reader stands behind it. -/
theorem parse_piece {r : ParseRun} {f : Framer} (ht : Tracks r f) {piece : Bytes}
    (hcut : CleanCut f piece) {f' : Framer} {out : List HttpContext}
    (hrun : (Framer.machine maxSize r.handler.connHandler.ip r.handler.isRequest).run f piece =
      (f', out)) {rest : Bytes} (hcut' : CleanCut f' rest) :
    (∃ e r', f'.phase = .failed e ∧ r'.passed = r.passed ++ out ∧
      Evaluates rawNonempty (parseBody maxSize) (r.append piece) (.raised e r')) ∨
    ((∀ e, f'.phase ≠ .failed e) ∧
      Evaluates rawNonempty (parseBody maxSize) (r.append piece)
        (.done ⟨restore r.handler (settle f'), r.passed ++ out⟩)) := by
  have hmeets := parse_meets maxSize (ht.ready piece)
  unfold Meets at hmeets
  rw [reading_append ht hcut, hrun] at hmeets
  obtain ⟨phase, tmp, pending⟩ := f'
  cases phase with
  | failed e =>
    obtain ⟨r', hx, hpassed⟩ := hmeets
    exact .inl ⟨e, r', rfl, hpassed, hx⟩
  | chunkSize =>
    obtain rfl : pending = [] := hcut'
    exact .inr ⟨by simp, hmeets⟩
  | chunkEnd =>
    obtain ⟨rfl, -⟩ : pending = [] ∧ ¬ crlf <+: rest := hcut'
    exact .inr ⟨by simp, hmeets⟩
  | headers => exact .inr ⟨by simp, hmeets⟩
  | body => exact .inr ⟨by simp, hmeets⟩
  | chunkData => exact .inr ⟨by simp, hmeets⟩

/-- A piece that ends inside a size line stops the run: the call never returns. -/
theorem not_feeds_of_partial_size {r : ParseRun} {f : Framer} (ht : Tracks r f) {piece : Bytes}
    (hcut : CleanCut f piece) {f' : Framer}
    (hf' : ((Framer.machine maxSize r.handler.connHandler.ip r.handler.isRequest).run f piece).1 =
      f') (hphase : f'.phase = .chunkSize ∨ f'.phase = .chunkEnd) (hpending : f'.pending ≠ [])
    (pieces : List Bytes) (x : Exit Exn ParseRun) : ¬ Feeds maxSize (piece :: pieces) r x := by
  have hmeets := parse_meets maxSize (ht.ready piece)
  unfold Meets at hmeets
  rw [reading_append ht hcut] at hmeets
  dsimp only at hmeets
  rw [hf'] at hmeets
  have hsettle : (settle f').phase = .chunkSize := by
    rcases hphase with hp | hp <;> simp [settle, hp]
  simp only [hsettle, settle_pending, hpending, if_false] at hmeets
  rintro ⟨fuel, hfeed⟩
  rw [feed, feedBy, parseHttpContext, hmeets fuel] at hfeed
  cases hfeed

/-- How a run over pieces has to end, given what the reader makes of the stream. -/
def FeedMeets (maxSize : ℕ) (pieces : List Bytes) (r : ParseRun)
    (o : Framer × List HttpContext) : Prop :=
  (∃ e r', o.1.phase = .failed e ∧ r'.passed = r.passed ++ o.2 ∧
    Feeds maxSize pieces r (.raised e r')) ∨
  ((∀ e, o.1.phase ≠ .failed e) ∧
    Feeds maxSize pieces r (.done ⟨restore r.handler (settle o.1), r.passed ++ o.2⟩))

/-- **Runs with clean cuts end where the reader of the whole stream ends.** -/
theorem feed_clean {r : ParseRun} {f : Framer} (ht : Tracks r f) {pieces : List Bytes}
    (hcut : CleanCut f pieces.flatten)
    (hc : CleanFrom maxSize r.handler.connHandler.ip r.handler.isRequest f pieces) :
    FeedMeets maxSize pieces r
      ((Framer.machine maxSize r.handler.connHandler.ip r.handler.isRequest).run f
        pieces.flatten) := by
  induction pieces generalizing r f with
  | nil =>
    refine .inr ⟨ht.running, 0, ?_⟩
    obtain ⟨⟨queue, tmp, raw, state, sending, isRequest, conn⟩, passed⟩ := r
    have hstate := ht.state
    have htmp := ht.tmp
    have hraw := ht.raw
    simp only at hstate htmp hraw
    simp [feed, feedBy, restore, hstate, htmp, hraw]
  | cons piece pieces ih =>
    obtain ⟨hcut', hrest⟩ := hc
    rw [List.flatten_cons] at hcut ⊢
    rw [Mealy.run_append]
    have hwf' := @Framer.wf_run maxSize r.handler.connHandler.ip
      r.handler.isRequest _ ht.wf piece
    rcases hrun : (Framer.machine maxSize r.handler.connHandler.ip r.handler.isRequest).run f piece
      with ⟨f', out⟩
    rw [hrun] at hcut' hrest hwf'
    rcases parse_piece ht hcut.of_append hrun hcut' with ⟨e, r', hphase, hpassed, hx⟩ | ⟨hgo, hx⟩
    · -- the reader has failed and ignores what follows
      obtain ⟨phase, tmp, pending⟩ := f'
      obtain rfl : phase = .failed e := hphase
      refine .inl ⟨e, r', ?_, ?_, feeds_cons_iff.mpr (.inl ⟨e, r', hx, rfl⟩)⟩
      · simp [Framer.run_failed]
      · simpa [Framer.run_failed] using hpassed
    · have hnext := ih (tracks_restore hwf' hgo r.handler (r.passed ++ out)) hcut' hrest
      rcases hnext with ⟨e, r', hphase, hpassed, hfeed⟩ | ⟨hgo', hfeed⟩
      · refine .inl ⟨e, r', hphase, ?_, feeds_cons_iff.mpr (.inr ⟨_, hx, hfeed⟩)⟩
        rw [← List.append_assoc]
        exact hpassed
      · refine .inr ⟨hgo', feeds_cons_iff.mpr (.inr ⟨_, hx, ?_⟩)⟩
        dsimp only
        rw [← List.append_assoc]
        exact hfeed

/-- Cuts in header blocks and in bodies of announced length are clean. -/
theorem cleanFrom_of_phase {ip : Bytes} {isRequest : Bool} {f : Framer} {pieces : List Bytes}
    (h : ∀ xs, xs <+: pieces.flatten →
      ((Framer.machine maxSize ip isRequest).run f xs).1.phase = .headers ∨
        ((Framer.machine maxSize ip isRequest).run f xs).1.phase = .body) :
    CleanFrom maxSize ip isRequest f pieces := by
  induction pieces generalizing f with
  | nil => trivial
  | cons piece pieces ih =>
    refine ⟨?_, ih fun xs hxs => ?_⟩
    · rcases h piece (List.prefix_append _ _) with hp | hp <;> simp [CleanCut, hp]
    · have := h (piece ++ xs) ((List.prefix_append_right_inj piece).mpr hxs)
      rwa [Mealy.run_append] at this

/-! ## Two cuts of one stream -/

/-- What a run leaves behind: the messages passed on, and the parser with its unconsumed
bytes or the exception it failed with. -/
def outcome : Exit Exn ParseRun → List HttpContext × Except Exn NormalConnHandler
  | .done r => (r.passed, .ok r.handler)
  | .raised e r => (r.passed, .error e)

/-- Feeding the pieces leaves `o` behind. -/
def Yields (maxSize : ℕ) (pieces : List Bytes) (r : ParseRun)
    (o : List HttpContext × Except Exn NormalConnHandler) : Prop :=
  ∃ x, Feeds maxSize pieces r x ∧ outcome x = o

/-- The reader's account of what a run leaves behind. -/
def readerOutcome (r : ParseRun) (o : Framer × List HttpContext) :
    List HttpContext × Except Exn NormalConnHandler :=
  (r.passed ++ o.2, match o.1.phase with
    | .failed e => .error e
    | _ => .ok (restore r.handler (settle o.1)))

/-- A run that ends as it has to leaves what the reader says. -/
theorem FeedMeets.yields {pieces : List Bytes} {r : ParseRun} {o : Framer × List HttpContext}
    (h : FeedMeets maxSize pieces r o) : Yields maxSize pieces r (readerOutcome r o) := by
  rcases h with ⟨e, r', hphase, hpassed, hfeed⟩ | ⟨hgo, hfeed⟩
  · exact ⟨_, hfeed, by simp [outcome, readerOutcome, hphase, hpassed]⟩
  · refine ⟨_, hfeed, ?_⟩
    unfold readerOutcome
    split
    · rename_i heq
      exact absurd heq (hgo _)
    · rfl

/-- No piece ends inside a chunk-size line, or behind a chunk's data with (part of) the
chunk's terminator still to come. -/
def CleanCuts (maxSize : ℕ) (isRequest : Bool) (connHandler : ConnHandler)
    (pieces : List Bytes) : Prop :=
  CleanFrom maxSize connHandler.ip isRequest Framer.fresh pieces

/-- Two cuts are received alike: they leave the same behind, or neither run returns. -/
def SameOutcome (maxSize : ℕ) (isRequest : Bool) (connHandler : ConnHandler)
    (pieces pieces' : List Bytes) : Prop :=
  ∀ o, Yields maxSize pieces (.opened isRequest connHandler) o ↔
    Yields maxSize pieces' (.opened isRequest connHandler) o

/-- A run leaves one thing behind. -/
theorem Yields.unique {pieces : List Bytes} {r : ParseRun}
    {o o' : List HttpContext × Except Exn NormalConnHandler} (h : Yields maxSize pieces r o)
    (h' : Yields maxSize pieces r o') : o = o' := by
  obtain ⟨x, hx, rfl⟩ := h
  obtain ⟨y, hy, rfl⟩ := h'
  rw [hx.unique hy]

/-- A run over clean cuts leaves what the reader makes of the whole stream. -/
theorem yields_reader {isRequest : Bool} {connHandler : ConnHandler} {pieces : List Bytes}
    (h : CleanCuts maxSize isRequest connHandler pieces) :
    Yields maxSize pieces (.opened isRequest connHandler)
      (readerOutcome (.opened isRequest connHandler)
        ((Framer.machine maxSize connHandler.ip isRequest).run Framer.fresh pieces.flatten)) :=
  (feed_clean (tracks_opened isRequest connHandler) trivial h).yields

/-- **Segmentation independence at clean cuts.**  Both runs return or raise, and leave the
same messages and the same parser or exception behind. -/
theorem segmentation_independent (maxSize : ℕ) (isRequest : Bool) (connHandler : ConnHandler)
    (pieces pieces' : List Bytes) (hflat : pieces.flatten = pieces'.flatten)
    (h : CleanCuts maxSize isRequest connHandler pieces)
    (h' : CleanCuts maxSize isRequest connHandler pieces') :
    (∃ o, Yields maxSize pieces (.opened isRequest connHandler) o) ∧
      SameOutcome maxSize isRequest connHandler pieces pieces' := by
  have hy := yields_reader h
  have hy' := yields_reader h'
  rw [← hflat] at hy'
  refine ⟨⟨_, hy⟩, fun o => ⟨fun ho => ?_, fun ho => ?_⟩⟩
  · rwa [ho.unique hy]
  · rwa [ho.unique hy']

/-- A chunked request, cut behind the chunk's data. -/
def cutRequest : List Bytes :=
  [ascii "P / H\r\nTransfer-Encoding: chunked\r\n\r\n1\r\na", ascii "\r\n0\r\n"]

/-- A chunked request whose one cut lies between two chunks, and the same request whole. -/
theorem segmentation_independent_chunked :
    (∃ o, Yields (2 ^ 62)
        [ascii "P / H\r\nTransfer-Encoding: chunked\r\n\r\n1\r\na\r\n", ascii "0\r\n"]
        (.opened true {}) o) ∧
      SameOutcome (2 ^ 62) true {}
        [ascii "P / H\r\nTransfer-Encoding: chunked\r\n\r\n1\r\na\r\n", ascii "0\r\n"]
        [ascii "P / H\r\nTransfer-Encoding: chunked\r\n\r\n1\r\na\r\n0\r\n"] := by
  apply segmentation_independent (2 ^ 62) true {} _ _ (by decide)
  · exact ⟨by decide, by decide, trivial⟩
  · exact ⟨by decide, trivial⟩

/-- Received whole, the request is one message; cut, its second piece is taken for a size
line and the parser raises before any message is passed on. -/
theorem segmentation_not_independent :
    ¬ ∀ (maxSize : ℕ) (isRequest : Bool) (connHandler : ConnHandler)
        (pieces pieces' : List Bytes), (∀ piece ∈ pieces, piece ≠ []) →
      (∀ piece ∈ pieces', piece ≠ []) → pieces.flatten = pieces'.flatten →
      SameOutcome maxSize isRequest connHandler pieces pieces' := by
  intro h
  have hsame := h (2 ^ 62) true {} [cutRequest.flatten] cutRequest (by decide) (by decide)
    (by decide)
  have hwhole : (feed (2 ^ 62) 8 [cutRequest.flatten] (.opened true {})).map
      (fun x => (outcome x).1.length) = some 1 := by decide
  have hcut : (feed (2 ^ 62) 8 cutRequest (.opened true {})).map
      (fun x => (outcome x).1.length) = some 0 := by decide
  obtain ⟨x, hx, hone⟩ := Option.map_eq_some_iff.mp hwhole
  obtain ⟨y, hy, hzero⟩ := Option.map_eq_some_iff.mp hcut
  have hyields := (hsame (outcome x)).mp ⟨x, ⟨8, hx⟩, rfl⟩
  have heq := Yields.unique hyields ⟨y, ⟨8, hy⟩, rfl⟩
  rw [heq, hzero] at hone
  cases hone

end PkuyoProxy.Analysis
