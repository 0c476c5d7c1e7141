import Mathlib.Logic.Relation
import PkuyoProxy.Analysis.ParserExceptions

/-!
# The parser between two messages

Behind a message the parser differs from that of a new connection in `tmp_context` only, which
the next header block resets.  Two such parsers make the same of everything that follows, round
by round, whether the calls return or not (`comes_matched`, `passes_matched`).
-/

set_option autoImplicit false

namespace PkuyoProxy.Analysis

open PkuyoProxy.Lib PkuyoProxy.Model PkuyoProxy.Interface
open PkuyoProxy.Model.NormalConnHandler

variable {maxSize : ℕ} {base base' : List HttpContext} {r r' : ParseRun}

/-! ## Parsers that go on alike -/

/-- The parsers differ at most in what is left of the message before, and have passed on the
same behind `base` and `base'`. -/
structure Matched (base base' : List HttpContext) (r r' : ParseRun) : Prop where
  handler : r'.handler = { r.handler with tmpContext := r'.handler.tmpContext }
  tmp : r.handler.state ≠ .readHeaders → r'.handler.tmpContext = r.handler.tmpContext
  passed : ∃ ms, r.passed = base ++ ms ∧ r'.passed = base' ++ ms

/-- Parsers that match one way match the other way. -/
theorem Matched.symm (h : Matched base base' r r') : Matched base' base r' r where
  handler := by rw [h.handler]
  tmp := by
    intro hs
    rw [h.handler] at hs
    exact (h.tmp hs).symm
  passed := by
    obtain ⟨ms, hms, hms'⟩ := h.passed
    exact ⟨ms, hms', hms⟩

/-- Matched parsers match with more bytes behind their buffers. -/
theorem Matched.append (h : Matched base base' r r') (piece : Bytes) :
    Matched base base' (r.append piece) (r'.append piece) where
  handler := by
    unfold ParseRun.append
    rw [h.handler]
  tmp := h.tmp
  passed := h.passed

/-- Parsers match if their handlers are the same and what they passed on is the same behind their
bases. -/
theorem Matched.of_handler {h : NormalConnHandler} {p p' : List HttpContext}
    (hpassed : ∃ ms, p = base ++ ms ∧ p' = base' ++ ms) : Matched base base' ⟨h, p⟩ ⟨h, p'⟩ :=
  ⟨rfl, fun _ => rfl, hpassed⟩

/-- Completing a message passes the same one on. -/
theorem Matched.complete {h : NormalConnHandler} {p p' : List HttpContext}
    (hpassed : ∃ ms, p = base ++ ms ∧ p' = base' ++ ms) :
    ∃ ms, (ParseRun.complete ⟨h, p⟩).passed = base ++ ms ∧
      (ParseRun.complete ⟨h, p'⟩).passed = base' ++ ms := by
  obtain ⟨ms, rfl, rfl⟩ := hpassed
  exact ⟨ms ++ [h.tmpContext.complete], by simp [ParseRun.complete], by simp [ParseRun.complete]⟩

/-- Of two matched parsers both have bytes left, or neither has. -/
theorem rawNonempty_matched (h : Matched base base' r r') : rawNonempty r = rawNonempty r' := by
  unfold rawNonempty
  rw [h.handler]

/-- A header block is read in a context that was reset. -/
theorem readHeaders_matched (h : Matched base base' r r') :
    Flow.Rel (Matched base base') (readHeaders maxSize r) (readHeaders maxSize r') := by
  obtain ⟨g, p⟩ := r
  obtain ⟨g', p'⟩ := r'
  obtain ⟨hhandler, htmp, hpassed⟩ := h
  dsimp only at hhandler htmp hpassed
  generalize g'.tmpContext = t at hhandler htmp
  subst hhandler
  unfold readHeaders
  dsimp only [HttpContext.reset_eq]
  cases find (crlf ++ crlf) g.rawBuffer with
  | none => exact .leave ⟨rfl, htmp, hpassed⟩
  | some e =>
    dsimp only
    generalize processHttpHeaders _ g.connHandler.ip g.isRequest = parsed
    obtain ⟨tmp, isChunk, len⟩ := parsed
    dsimp only
    split
    · exact .next (.of_handler hpassed)
    · split
      · exact .next (.of_handler hpassed)
      · split
        · exact .next (.of_handler (Matched.complete hpassed))
        · split
          · exact .raise (.of_handler hpassed)
          · exact .next (.of_handler hpassed)

/-- Reading a body keeps them matched. -/
theorem readBody_matched {h : NormalConnHandler} {p p' : List HttpContext}
    (hpassed : ∃ ms, p = base ++ ms ∧ p' = base' ++ ms) :
    Flow.Rel (Matched base base') (readBody ⟨h, p⟩) (readBody ⟨h, p'⟩) := by
  unfold readBody
  dsimp only
  split
  · exact .next (.of_handler (Matched.complete hpassed))
  · exact .next (.of_handler hpassed)

/-- Reading the size of a chunk keeps parsers matched. -/
theorem readChunkSize_matched {h : NormalConnHandler} {p p' : List HttpContext}
    (hpassed : ∃ ms, p = base ++ ms ∧ p' = base' ++ ms) :
    Flow.Rel (Matched base base') (readChunkSize ⟨h, p⟩) (readChunkSize ⟨h, p'⟩) := by
  unfold readChunkSize
  dsimp only
  split
  · exact .leave (.of_handler hpassed)
  · split
    · exact .raise (.of_handler hpassed)
    · split
      · exact .leave (.of_handler (Matched.complete hpassed))
      · exact .next (.of_handler hpassed)

/-- Reading the data of a chunk keeps parsers matched. -/
theorem readChunkData_matched {h : NormalConnHandler} {p p' : List HttpContext}
    (hpassed : ∃ ms, p = base ++ ms ∧ p' = base' ++ ms) :
    Flow.Rel (Matched base base') (readChunkData ⟨h, p⟩) (readChunkData ⟨h, p'⟩) := by
  unfold readChunkData
  dsimp only
  split
  · exact .next (.of_handler hpassed)
  · exact .next (.of_handler hpassed)

/-- Inside a message the parsers are the same. -/
theorem Matched.exists_handler (h : Matched base base' r r') (hs : r.handler.state ≠ .readHeaders) :
    ∃ g p p', r = ⟨g, p⟩ ∧ r' = ⟨g, p'⟩ ∧ ∃ ms, p = base ++ ms ∧ p' = base' ++ ms := by
  have hhandler := h.handler
  rw [h.tmp hs] at hhandler
  obtain ⟨g, p⟩ := r
  obtain ⟨g', p'⟩ := r'
  obtain rfl : g' = g := hhandler
  exact ⟨g', p, p', rfl, rfl, h.passed⟩

/-- A round of the loop over chunks keeps parsers matched. -/
theorem chunkBody_matched (h : Matched base base' r r') :
    Option.Rel (Flow.Rel (Matched base base')) (chunkBody r) (chunkBody r') := by
  cases hs : r.handler.state with
  | readHeaders =>
    have hs' : r'.handler.state = .readHeaders := by rw [h.handler]; exact hs
    simp only [chunkBody, hs, hs']
    exact .some (.next h)
  | readBody =>
    have hs' : r'.handler.state = .readBody := by rw [h.handler]; exact hs
    simp only [chunkBody, hs, hs']
    exact .some (.next h)
  | readChunkSize =>
    obtain ⟨g, p, p', rfl, rfl, hpassed⟩ := h.exists_handler (by simp [hs])
    obtain hs : g.state = .readChunkSize := hs
    simp only [chunkBody, hs]
    exact .some (readChunkSize_matched hpassed)
  | readChunkData =>
    obtain ⟨g, p, p', rfl, rfl, hpassed⟩ := h.exists_handler (by simp [hs])
    obtain hs : g.state = .readChunkData := hs
    simp only [chunkBody, hs]
    exact .some (readChunkData_matched hpassed)

/-- The loop over chunks keeps parsers matched. -/
theorem parseChunkedContent_matched (h : Matched base base' r r') :
    Option.Rel (Exit.Rel (Matched base base')) (parseChunkedContent r)
      (parseChunkedContent r') := by
  have hfuel : chunkFuel r' = chunkFuel r := by
    unfold chunkFuel
    rw [h.handler]
  unfold parseChunkedContent
  rw [hfuel]
  exact whileLoop_lockstep _ (fun _ _ hs => rawNonempty_matched hs)
    (fun _ _ hs => chunkBody_matched hs) h _

/-- A round of the parser keeps parsers matched. -/
theorem parseBody_matched (h : Matched base base' r r') :
    Option.Rel (Flow.Rel (Matched base base')) (parseBody maxSize r) (parseBody maxSize r') := by
  have hstate : r'.handler.state = r.handler.state := by rw [h.handler]
  have hinner := parseChunkedContent_matched h
  unfold parseBody
  rw [hstate]
  cases hs : r.handler.state with
  | readHeaders => exact .some (readHeaders_matched h)
  | readBody =>
    obtain ⟨g, p, p', rfl, rfl, hpassed⟩ := h.exists_handler (by simp [hs])
    exact .some (readBody_matched hpassed)
  | readChunkSize | readChunkData =>
    dsimp only
    generalize parseChunkedContent r = x at hinner ⊢
    generalize parseChunkedContent r' = x' at hinner ⊢
    cases hinner with
    | none => exact .none
    | some hexit =>
      cases hexit with
      | done hdone => exact .some (.next hdone)
      | raised hraised => exact .some (.raise hraised)

/-! ## Runs that go on alike -/

/-- The call has come to its end in `r` and leaves `r'` behind. -/
def CallOver (maxSize : ℕ) (r r' : ParseRun) : Prop :=
  rawNonempty r = false ∧ r' = r ∨
    rawNonempty r = true ∧ parseBody maxSize r = some (.leave r')

/-- One move of a run over pieces: a round of the call under way, or the next piece behind a call
that is over. -/
inductive RunStep (maxSize : ℕ) : List Bytes × ParseRun → List Bytes × ParseRun → Prop
  | round {pieces : List Bytes} {r r' : ParseRun} (hmore : rawNonempty r = true)
      (hround : parseBody maxSize r = some (.next r')) : RunStep maxSize (pieces, r) (pieces, r')
  | piece {piece : Bytes} {pieces : List Bytes} {r r' : ParseRun} (hover : CallOver maxSize r r') :
      RunStep maxSize (piece :: pieces, r) (pieces, r'.append piece)

/-- The run over the pieces comes to the state `x`. -/
abbrev Comes (maxSize : ℕ) : List Bytes × ParseRun → List Bytes × ParseRun → Prop :=
  Relation.ReflTransGen (RunStep maxSize)

/-- At some time in a run over the pieces, these are the messages passed on. -/
def Passes (maxSize : ℕ) (pieces : List Bytes) (r : ParseRun) (ms : List HttpContext) : Prop :=
  ∃ x, Comes maxSize (pieces, r) x ∧ x.2.passed = ms

/-- A call leaves one state behind. -/
theorem callOver_unique {s s' : ParseRun} (h : CallOver maxSize r s) (h' : CallOver maxSize r s') :
    s = s' := by
  rcases h with ⟨hraw, rfl⟩ | ⟨hraw, hleave⟩
  · rcases h' with ⟨-, rfl⟩ | ⟨hraw', -⟩
    · rfl
    · cases hraw.symm.trans hraw'
  · rcases h' with ⟨hraw', -⟩ | ⟨-, hleave'⟩
    · cases hraw'.symm.trans hraw
    · cases hleave.symm.trans hleave'
      rfl

/-- A call that has another round to make is not over. -/
theorem not_callOver_of_round {s : ParseRun} (hmore : rawNonempty r = true)
    (hround : parseBody maxSize r = some (.next r')) : ¬ CallOver maxSize r s := by
  rintro (⟨hraw, -⟩ | ⟨-, hleave⟩)
  · cases hraw.symm.trans hmore
  · cases hround.symm.trans hleave

/-- A run goes on in one way. -/
theorem runStep_unique : Relator.RightUnique (RunStep maxSize) := by
  intro x y z hy hz
  cases hy with
  | round hmore hround =>
    cases hz with
    | round _ hround' =>
      cases hround.symm.trans hround'
      rfl
    | piece hover => exact absurd hover (not_callOver_of_round hmore hround)
  | piece hover =>
    cases hz with
    | round hmore hround => exact absurd hover (not_callOver_of_round hmore hround)
    | piece hover' => rw [callOver_unique hover hover']

/-- Where a call is over, so is that of the matched parser, and both still match. -/
theorem callOver_matched {s : ParseRun} (h : Matched base base' r r')
    (hover : CallOver maxSize r s) :
    ∃ s', CallOver maxSize r' s' ∧ Matched base base' s s' := by
  rcases hover with ⟨hraw, rfl⟩ | ⟨hraw, hleave⟩
  · exact ⟨r', .inl ⟨rawNonempty_matched h ▸ hraw, rfl⟩, h⟩
  · have hrel := @parseBody_matched maxSize _ _ _ _ h
    rw [hleave] at hrel
    generalize hx : parseBody maxSize r' = x at hrel
    cases hrel with
    | some hflow =>
      cases hflow with
      | leave hs => exact ⟨_, .inr ⟨rawNonempty_matched h ▸ hraw, hx⟩, hs⟩

/-- A matched parser makes the same move. -/
theorem runStep_matched {pieces : List Bytes} {y : List Bytes × ParseRun}
    (h : Matched base base' r r') (hstep : RunStep maxSize (pieces, r) y) :
    ∃ s', RunStep maxSize (pieces, r') (y.1, s') ∧ Matched base base' y.2 s' := by
  cases hstep with
  | round hmore hround =>
    have hrel := @parseBody_matched maxSize _ _ _ _ h
    rw [hround] at hrel
    generalize hx : parseBody maxSize r' = x at hrel
    cases hrel with
    | some hflow =>
      cases hflow with
      | next hnext => exact ⟨_, .round (rawNonempty_matched h ▸ hmore) hx, hnext⟩
  | piece hover =>
    obtain ⟨s', hover', hs'⟩ := callOver_matched h hover
    exact ⟨_, .piece hover', hs'.append _⟩

/-- A matched parser makes the same moves, one behind the other. -/
theorem comes_matched {x y : List Bytes × ParseRun} (hcomes : Comes maxSize x y)
    (h : Matched base base' x.2 r') :
    ∃ s', Comes maxSize (x.1, r') (y.1, s') ∧ Matched base base' y.2 s' := by
  induction hcomes with
  | refl => exact ⟨r', .refl, h⟩
  | tail _ hstep ih =>
    obtain ⟨s, hsteps, hs⟩ := ih
    obtain ⟨s', hstep', hs'⟩ := runStep_matched hs hstep
    exact ⟨s', hsteps.tail hstep', hs'⟩

/-- **What is passed on at some time is passed on by the other run as well**, each behind its own
messages before. -/
theorem passes_matched {pieces : List Bytes} {ms : List HttpContext} (h : Matched base base' r r')
    (hpasses : Passes maxSize pieces r (base ++ ms)) : Passes maxSize pieces r' (base' ++ ms) := by
  obtain ⟨x, hcomes, hms⟩ := hpasses
  obtain ⟨s', hcomes', hs'⟩ := comes_matched hcomes h
  obtain ⟨ms', hpassed, hpassed'⟩ := hs'.passed
  have hsame : ms' = ms := List.append_cancel_left (hpassed.symm.trans hms)
  refine ⟨(x.1, s'), hcomes', ?_⟩
  rw [← hsame]
  exact hpassed'

/-! ## Runs and calls -/

/-- A call that returns comes to its end in a number of rounds. -/
theorem comes_of_evaluates {s : ParseRun}
    (h : Evaluates rawNonempty (parseBody maxSize) r (.done s)) (pieces : List Bytes) :
    ∃ r', Comes maxSize (pieces, r) (pieces, r') ∧ CallOver maxSize r' s := by
  obtain ⟨fuel, h⟩ := h
  induction fuel generalizing r with
  | zero => cases h
  | succ fuel ih =>
    rw [whileLoop] at h
    split at h
    case isTrue hmore =>
      cases hround : parseBody maxSize r with
      | none => simp [hround] at h
      | some f =>
        rw [hround] at h
        cases f with
        | next r₁ =>
          obtain ⟨r', hcomes, hover⟩ := ih h
          exact ⟨r', hcomes.head (.round hmore hround), hover⟩
        | leave r₁ =>
          cases h
          exact ⟨r, .refl, .inr ⟨hmore, hround⟩⟩
        | raise e r₁ => cases h
    case isFalse hempty =>
      cases h
      exact ⟨_, .refl, .inl ⟨by simpa using hempty, rfl⟩⟩

/-- Behind the pieces of a run that returns, the next piece is appended to what it leaves. -/
theorem comes_of_feeds {front : List Bytes} {s : ParseRun} (h : Feeds maxSize front r (.done s))
    (hover : CallOver maxSize r' r) (piece : Bytes) (pieces : List Bytes) :
    Comes maxSize (front ++ piece :: pieces, r') (pieces, s.append piece) := by
  induction front generalizing r r' with
  | nil =>
    cases feeds_nil_iff.mp h
    exact .single (.piece hover)
  | cons first front ih =>
    obtain ⟨r₁, hcall, hrest⟩ := feeds_cons_done h
    obtain ⟨r₂, hcomes, hover'⟩ := comes_of_evaluates hcall (front ++ piece :: pieces)
    have hfirst : RunStep maxSize (first :: (front ++ piece :: pieces), r')
        (front ++ piece :: pieces, r.append first) := .piece hover
    exact (hcomes.head hfirst).trans (ih hrest hover')

/-- The states of a run are those of the parser, and what was passed on stays passed on. -/
theorem runStep_reaches {isRequest : Bool} {connHandler : ConnHandler} {x y : List Bytes × ParseRun}
    (hx : Reaches maxSize isRequest connHandler x.2) (hstep : RunStep maxSize x y) :
    Reaches maxSize isRequest connHandler y.2 := by
  have hin {r : ParseRun} {f : Flow Exn ParseRun} (hr : Reaches maxSize isRequest connHandler r)
      (hf : parseBody maxSize r = some f) := parseBody_in (fun s hs => parserRound_reaches hs) hr hf
  cases hstep with
  | round _ hround => exact hin hx hround
  | piece hover =>
    rcases hover with ⟨-, rfl⟩ | ⟨-, hleave⟩
    · exact hx.append _
    · exact (hin hx hleave).append _

/-- What a run comes to from a reached state is reached. -/
theorem comes_reaches {isRequest : Bool} {connHandler : ConnHandler} {x y : List Bytes × ParseRun}
    (hx : Reaches maxSize isRequest connHandler x.2) (hcomes : Comes maxSize x y) :
    Reaches maxSize isRequest connHandler y.2 := by
  induction hcomes with
  | refl => exact hx
  | tail _ hstep ih => exact runStep_reaches ih hstep

/-- What was passed on stays passed on. -/
theorem comes_passed {x y : List Bytes × ParseRun} (hcomes : Comes maxSize x y) :
    x.2.passed <+: y.2.passed := by
  induction hcomes with
  | refl => exact List.prefix_rfl
  | tail _ hstep ih =>
    apply ih.trans
    cases hstep with
    | round _ hround => exact parseBody_passed hround
    | piece hover =>
      rcases hover with ⟨-, rfl⟩ | ⟨-, hleave⟩
      · exact List.prefix_rfl
      · exact parseBody_passed hleave

/-! ## Behind a message -/

section Behind

variable {isRequest : Bool} {connHandler : ConnHandler} {b : Bytes} {rest : List Bytes}
  {ms : List HttpContext}

/-- The first piece is appended to a parser that was just opened. -/
theorem passes_opened :
    Passes maxSize (b :: rest) (.opened isRequest connHandler) ms ↔
      Passes maxSize rest ((ParseRun.opened isRequest connHandler).append b) ms := by
  constructor
  · rintro ⟨x, hcomes, hms⟩
    rcases Relation.ReflTransGen.cases_head hcomes with rfl | ⟨y, hstep, hcomes⟩
    · exact ⟨_, .refl, hms⟩
    · cases hstep with
      | round hmore => cases hmore
      | piece hover =>
        rcases hover with ⟨-, rfl⟩ | ⟨hmore, -⟩
        · exact ⟨x, hcomes, hms⟩
        · cases hmore
  · rintro ⟨x, hcomes, hms⟩
    have hfirst : RunStep maxSize (b :: rest, .opened isRequest connHandler)
        (rest, (ParseRun.opened isRequest connHandler).append b) := .piece (.inl ⟨rfl, rfl⟩)
    exact ⟨x, hcomes.head hfirst, hms⟩

/-- **Behind its first message a run passes on what a new connection passes on**: nothing, or that
message and what the run over the bytes behind it passes on. -/
theorem passes_behind {pieces : List Bytes} {c tmp : HttpContext}
    (hcomes : Comes maxSize (pieces, .opened isRequest connHandler)
      (rest, ⟨{ isRequest, connHandler, tmpContext := tmp, rawBuffer := b }, [c]⟩)) :
    Passes maxSize pieces (.opened isRequest connHandler) ms ↔
      ms = [] ∨ ∃ ms', ms = c :: ms' ∧
        Passes maxSize (b :: rest) (.opened isRequest connHandler) ms' := by
  have hmatched : Matched [c] []
      ⟨{ isRequest, connHandler, tmpContext := tmp, rawBuffer := b }, [c]⟩
      ((ParseRun.opened isRequest connHandler).append b) :=
    ⟨rfl, fun hne => absurd rfl hne, [], rfl, rfl⟩
  constructor
  · rintro ⟨x, hx, rfl⟩
    rcases Relation.ReflTransGen.total_of_right_unique runStep_unique hcomes hx with hlate | hearly
    · right
      obtain ⟨ms', hms'⟩ := comes_passed hlate
      have hpasses : Passes maxSize rest
          ⟨{ isRequest, connHandler, tmpContext := tmp, rawBuffer := b }, [c]⟩ ([c] ++ ms') :=
        ⟨x, hlate, hms'.symm⟩
      exact ⟨ms', hms'.symm, passes_opened.mpr (passes_matched hmatched hpasses)⟩
    · rcases List.prefix_cons_iff.mp (comes_passed hearly) with hnil | ⟨ms', hms', hnil⟩
      · exact .inl hnil
      · obtain rfl := List.prefix_nil.mp hnil
        exact .inr ⟨[], hms', _, .refl, rfl⟩
  · rintro (rfl | ⟨ms', rfl, hpasses⟩)
    · exact ⟨_, .refl, rfl⟩
    · obtain ⟨x, hx, hms⟩ := passes_matched hmatched.symm (passes_opened.mp hpasses)
      exact ⟨x, hcomes.trans hx, hms⟩

end Behind

end PkuyoProxy.Analysis
