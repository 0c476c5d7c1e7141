import PkuyoProxy.Analysis.ParserStates
import PkuyoProxy.Analysis.ParserTermination
import PkuyoProxy.Model.RevHandler

/-!
# When `parse_http_context` raises

Three texts that the peer chooses are converted to numbers or sizes without a handler for
the exception: the size line of a chunk, the announced length of a body, and an escape in
the path of a static file.  A call raises exactly when its buffer holds such a text
(`raises_iff`), so a run over any pieces raises no exception exactly when none of its calls
meets one (`no_exception_iff`).
-/

set_option autoImplicit false

namespace PkuyoProxy.Analysis

open PkuyoProxy.Lib PkuyoProxy.Model PkuyoProxy.Interface
open PkuyoProxy.Model.NormalConnHandler

variable {rev : RevHandler} {maxSize : ℕ}

/-! ## Harmless input -/

/-- The static file handler cannot decode the path of the request. -/
def RejectedBy : RevHandler → HttpContext → Prop
  | .normalConn, _ | .failedBackend, _ => False
  | .staticFile _ _, c =>
    c.request.method = ascii "GET" ∧ ∃ e, urlDecode c.request.urlPath = .error e

/-- Read from the parser's state on, the buffer holds no element that cannot be read and no
request that its receiver rejects. -/
structure Harmless (rev : RevHandler) (maxSize : ℕ) (r : ParseRun) : Prop where
  readable : ∀ pre rest, pre ++ rest = r.handler.rawBuffer →
    ¬ Framer.Unreadable maxSize r.handler.connHandler.ip r.handler.isRequest
      ((Framer.machine maxSize r.handler.connHandler.ip r.handler.isRequest).run
        (reader r.handler) pre).1 rest
  accepted : ∀ c ∈ ((Framer.machine maxSize r.handler.connHandler.ip r.handler.isRequest).run
    (reader r.handler) r.handler.rawBuffer).2, ¬ RejectedBy rev c

/-- Only the decoding of the path can fail. -/
theorem resolveFullPath_ok (fs : FileSystem) (rootDir : Bytes) {urlPath decoded : Bytes}
    (h : urlDecode urlPath = .ok decoded) : ∃ x, resolveFullPath fs rootDir urlPath = .ok x := by
  unfold resolveFullPath
  rw [h]
  cases hp : fs.realpath (cStr (rootDir ++ ascii "/" ++ decoded)) with
  | none => exact ⟨(false, []), by simp only [bind, Except.bind, hp]; rfl⟩
  | some p =>
    exact ⟨(find rootDir p.text = some 0, p.text), by simp only [bind, Except.bind, hp]; rfl⟩

/-- A receiver takes a context exactly if it does not reject it. -/
theorem raises_eq_none_iff (rev : RevHandler) (c : HttpContext) :
    rev.raises c = none ↔ ¬ RejectedBy rev c := by
  cases rev with
  | normalConn => simp [RevHandler.raises, RejectedBy]
  | failedBackend => simp [RevHandler.raises, RejectedBy]
  | staticFile fs rootDir =>
    simp only [RevHandler.raises, RejectedBy, staticRecvContent]
    by_cases hget : c.request.method = ascii "GET"
    · cases hd : urlDecode c.request.urlPath with
      | error e => simp [hget, resolveFullPath, hd, bind, Except.bind]
      | ok decoded =>
        obtain ⟨x, hx⟩ := resolveFullPath_ok fs rootDir hd
        simp [hget, hx, bind, Except.bind, pure, Except.pure]
    · simp [hget]

/-- Every context passed so far was taken. -/
def AllTaken (rev : RevHandler) (contexts : List HttpContext) : Prop :=
  ∀ c ∈ contexts, ¬ RejectedBy rev c

/-- None of the contexts raises exactly if all are taken. -/
theorem findSome_raises_eq_none {contexts : List HttpContext} :
    contexts.findSome? rev.raises = none ↔ AllTaken rev contexts := by
  simp [List.findSome?_eq_none_iff, raises_eq_none_iff, AllTaken]

/-- Nothing the buffer makes of the parser's state can raise. -/
def Quiet (rev : RevHandler) (maxSize : ℕ) (r : ParseRun) : Prop :=
  (∀ e, (reading maxSize r).1.phase ≠ .failed e) ∧ AllTaken rev (reading maxSize r).2

/-- A reader that has settled has failed exactly if it had. -/
theorem settle_failed_iff {f : Framer} {e : Exn} :
    (settle f).phase = .failed e ↔ f.phase = .failed e := by
  unfold settle
  split
  · rename_i h
    simp [h]
  · exact Iff.rfl

/-- Nothing can raise exactly if the buffer is harmless. -/
theorem quiet_iff {r : ParseRun} (hr : Ready r.handler) (hpassed : AllTaken rev r.passed) :
    Quiet rev maxSize r ↔ Harmless rev maxSize r := by
  have hfailed := @Framer.run_failed_iff maxSize r.handler.connHandler.ip r.handler.isRequest
    (reader r.handler) hr.wf rfl (phaseOf_ne_failed _) r.handler.rawBuffer
  have hquiet : Quiet rev maxSize r ↔
      (¬ ∃ e, ((Framer.machine maxSize r.handler.connHandler.ip r.handler.isRequest).run
        (reader r.handler) r.handler.rawBuffer).1.phase = .failed e) ∧
      AllTaken rev ((Framer.machine maxSize r.handler.connHandler.ip r.handler.isRequest).run
        (reader r.handler) r.handler.rawBuffer).2 := by
    simp only [Quiet, reading, ne_eq, settle_failed_iff, not_exists]
    refine and_congr_right fun _ => ⟨fun h c hc => h c (by simp [hc]), fun h c hc => ?_⟩
    rcases List.mem_append.mp hc with hc | hc
    · exact hpassed c hc
    · exact h c hc
  rw [hquiet, hfailed]
  constructor
  · rintro ⟨hno, hacc⟩
    exact ⟨fun pre rest heq hbad => hno ⟨pre, rest, heq, hbad⟩, hacc⟩
  · rintro ⟨hread, hacc⟩
    refine ⟨?_, hacc⟩
    rintro ⟨pre, rest, heq, hbad⟩
    exact hread pre rest heq hbad

/-! ## One call -/

/-- A round only adds to the contexts passed on. -/
theorem parserRound_passed (r : ParseRun) :
    r.passed <+: (parserRound maxSize r).state.passed := by
  unfold parserRound
  cases hs : r.handler.state with
  | readHeaders =>
    dsimp only
    have hround := readHeaders_round maxSize r
    generalize readHeaders maxSize r = f at hround ⊢
    cases hround with
    | incomplete | chunked | skipped | tooLong | sized => exact List.prefix_rfl
    | bodiless _ _ hr' =>
      rw [hr']
      exact List.prefix_append _ _
  | readBody =>
    dsimp only
    have hround := readBody_round r
    generalize readBody r = f at hround ⊢
    cases hround with
    | ended _ hr' =>
      rw [hr']
      exact List.prefix_append _ _
    | underWay => exact List.prefix_rfl
  | readChunkSize =>
    dsimp only
    have hround := readChunkSize_round r
    generalize readChunkSize r = f at hround ⊢
    cases hround with
    | incomplete | malformed | chunk => exact List.prefix_rfl
    | last _ _ hr' =>
      rw [hr']
      exact List.prefix_append _ _
  | readChunkData =>
    dsimp only
    have hround := readChunkData_round r
    generalize readChunkData r = f at hround ⊢
    cases hround with
    | terminated | unterminated | underWay => exact List.prefix_rfl

/-- A round passes on only more. -/
theorem parserRound_adds {base : List HttpContext} {r : ParseRun} (h : base <+: r.passed) :
    FlowIn (base <+: ·.passed) (fun _ r => base <+: r.passed) (parserRound maxSize r) := by
  have hadd := h.trans (@parserRound_passed maxSize r)
  cases hf : parserRound maxSize r <;> rwa [hf] at hadd

/-- A round of `parse_http_context` only adds to what was passed on. -/
theorem parseBody_passed {r : ParseRun} {f : Flow Exn ParseRun}
    (h : parseBody maxSize r = some f) : r.passed <+: f.state.passed := by
  have hin := parseBody_in (fun s hs => @parserRound_adds maxSize r.passed s hs) List.prefix_rfl h
  cases f <;> exact hin

/-- A call only adds to the contexts passed on. -/
theorem parse_passed {r : ParseRun} {x : Exit Exn ParseRun}
    (h : Evaluates rawNonempty (parseBody maxSize) r x) : r.passed <+: x.state.passed := by
  have hin := parse_in (fun s hs => @parserRound_adds maxSize r.passed s hs) List.prefix_rfl h
  cases x <;> exact hin

/-- A round of a parser that is ready ends, and keeps to the result of the reader. -/
theorem parseBody_keeps {r : ParseRun} (hr : Ready r.handler) :
    ∃ f, parseBody maxSize r = some f ∧ Keeps maxSize r f := by
  have hchunk (hs : r.handler.state = .readChunkSize ∨ r.handler.state = .readChunkData) :
      ∃ f, parseBody maxSize r = some f ∧ Keeps maxSize r f := by
    obtain ⟨x, hx, hres⟩ := parseChunkedContent_spec maxSize hs hr
    cases x with
    | raised e s =>
      exact ⟨.raise e s, by rcases hs with hs | hs <;> simp [parseBody, hs, hx], hres⟩
    | done s =>
      exact ⟨.next s, by rcases hs with hs | hs <;> simp [parseBody, hs, hx], hres.1⟩
  cases hs : r.handler.state with
  | readHeaders => exact ⟨_, by simp [parseBody, hs], readHeaders_keeps maxSize hs⟩
  | readBody => exact ⟨_, by simp [parseBody, hs], readBody_keeps maxSize hs hr⟩
  | readChunkSize => exact hchunk (.inl hs)
  | readChunkData => exact hchunk (.inr hs)

/-- The outer loop is left only in front of an incomplete header block. -/
theorem parseBody_leave_headers {r r' : ParseRun} (h : parseBody maxSize r = some (.leave r')) :
    r' = r ∧ r.handler.state = .readHeaders ∧
      find (crlf ++ crlf) r.handler.rawBuffer = none := by
  unfold parseBody at h
  cases hs : r.handler.state with
  | readHeaders =>
    rw [hs] at h
    obtain ⟨hsame, hnone⟩ := readHeaders_leave (Option.some.inj h)
    exact ⟨hsame, rfl, hnone⟩
  | readBody =>
    rw [hs] at h
    have hround := readBody_round r
    rw [Option.some.inj h] at hround
    cases hround
  | readChunkSize | readChunkData =>
    rw [hs] at h
    dsimp only at h
    split at h <;> cases h

/-- The loop is left in a header block that has not ended. -/
theorem parseBody_leave {r r' : ParseRun} (h : parseBody maxSize r = some (.leave r')) :
    reading maxSize r = (⟨.headers, r.handler.tmpContext, r.handler.rawBuffer⟩, r.passed) := by
  obtain ⟨-, hs, hnone⟩ := parseBody_leave_headers h
  simp [reading, reader, hs, phaseOf, Framer.run_headers_none hnone, settle]

/-- In front of a size line the reader waits for its end. -/
theorem reading_sizeLine {r : ParseRun} (h : BeforeSizeLine r) :
    reading maxSize r =
      (⟨.chunkSize, r.handler.tmpContext, r.handler.rawBuffer⟩, r.passed) := by
  obtain ⟨hs, hline⟩ := h
  have hnone : find crlf r.handler.rawBuffer = none := (find_eq_none_iff _ _).mpr hline
  simp [reading, reader, hs, phaseOf, Framer.run_chunkSize_none hnone, settle]

/-- Where all is taken the receiver does not matter. -/
theorem parseBodyTo_ok {r : ParseRun} {f : Flow Exn ParseRun} (hf : parseBody maxSize r = some f)
    (hacc : AllTaken rev f.state.passed) : parseBodyTo rev maxSize r = some f := by
  have hnew : (f.state.passed.drop r.passed.length).findSome? rev.raises = none :=
    findSome_raises_eq_none.mpr fun c hc => hacc c (List.mem_of_mem_drop hc)
  simp [parseBodyTo, hf, hnew]

/-- Where something is rejected the round raises. -/
theorem parseBodyTo_raise {r : ParseRun} {f : Flow Exn ParseRun}
    (hf : parseBody maxSize r = some f) (hpassed : AllTaken rev r.passed)
    (hacc : ¬ AllTaken rev f.state.passed) :
    ∃ e, parseBodyTo rev maxSize r = some (.raise e f.state) := by
  cases hnew : (f.state.passed.drop r.passed.length).findSome? rev.raises with
  | some e => exact ⟨e, by simp [parseBodyTo, hf, hnew]⟩
  | none =>
    refine absurd (fun c hc => ?_) hacc
    obtain ⟨new, heq⟩ := parseBody_passed hf
    rw [← heq, List.drop_left] at hnew
    rw [← heq] at hc
    rcases List.mem_append.mp hc with hc | hc
    · exact hpassed c hc
    · exact findSome_raises_eq_none.mp hnew c hc

/-- A context passed in a round is among those the buffer makes. -/
theorem Keeps.not_quiet {r : ParseRun} {f : Flow Exn ParseRun} (hk : Keeps maxSize r f)
    (hacc : ¬ AllTaken rev f.state.passed) : ¬ Quiet rev maxSize r := by
  intro hq
  have hsub : f.state.passed <+: (reading maxSize r).2 := by
    cases f with
    | next s =>
      rw [← hk.2.2]
      exact List.prefix_append _ _
    | leave s =>
      rw [← hk.2.2]
      exact List.prefix_append _ _
    | raise e s =>
      rw [← hk.2]
      exact List.prefix_rfl
  exact hacc fun c hc => hq.2 c (hsub.subset hc)

/-- A reader that passes nothing on and does not fail is quiet. -/
theorem quiet_of_reading {r : ParseRun} (hpassed : AllTaken rev r.passed) {f : Framer}
    (h : reading maxSize r = (f, r.passed)) (hf : ∀ e, f.phase ≠ .failed e) :
    Quiet rev maxSize r := by
  unfold Quiet
  rw [h]
  exact ⟨hf, hpassed⟩

/-- **A call raises exactly when its buffer makes it.** -/
theorem raises_iff {r : ParseRun} (hr : Ready r.handler) (hpassed : AllTaken rev r.passed) :
    (∃ e r', Evaluates rawNonempty (parseBodyTo rev maxSize) r (.raised e r')) ↔
      ¬ Quiet rev maxSize r := by
  induction hn : r.handler.rawBuffer.length using Nat.strong_induction_on generalizing r with
  | _ n ih =>
    subst hn
    -- a call that does not raise because it returns or never ends
    have hno (hq : Quiet rev maxSize r)
        (h : ∀ e r', ¬ Evaluates rawNonempty (parseBodyTo rev maxSize) r (.raised e r')) :
        (∃ e r', Evaluates rawNonempty (parseBodyTo rev maxSize) r (.raised e r')) ↔
          ¬ Quiet rev maxSize r :=
      ⟨fun ⟨e, r', hx⟩ => absurd hx (h e r'), fun hnq => absurd hq hnq⟩
    by_cases hraw : r.handler.rawBuffer = []
    · refine hno (quiet_of_reading hpassed (reading_nil hraw) (phaseOf_ne_failed _)) ?_
      intro e r' hx
      cases hx.unique (evaluates_exit (by simp [rawNonempty, hraw]))
    have hg : rawNonempty r = true := by simpa [rawNonempty] using hraw
    obtain ⟨f, hf, hk⟩ := @parseBody_keeps maxSize r hr
    by_cases hacc : AllTaken rev f.state.passed
    · have hto := parseBodyTo_ok hf hacc
      cases f with
      | raise e s =>
        exact ⟨fun _ hq => hq.1 e hk.1, fun _ => ⟨e, s, evaluates_raise hg hto⟩⟩
      | leave s =>
        refine hno (quiet_of_reading hpassed (parseBody_leave hf) (by simp)) ?_
        intro e r' hx
        cases hx.unique (evaluates_leave hg hto)
      | next s =>
        by_cases hline : BeforeSizeLine r
        · refine hno (quiet_of_reading hpassed (reading_sizeLine hline) (by simp)) ?_
          obtain rfl : s = r := by
            have hstuck := @parseBody_sizeLine maxSize r hraw hline
            rw [hf] at hstuck
            simpa using hstuck
          exact fun e r' hx => hx.not_diverges (diverges_of_stuck hg hto)
        · obtain ⟨f', hf', hlt⟩ := (progress_iff hr hraw).mpr hline
          have hless := hlt s (Option.some.inj (hf'.symm.trans hf))
          have hnext := ih _ hless hk.1 hacc rfl
          have hsame : Quiet rev maxSize s ↔ Quiet rev maxSize r := by
            unfold Quiet
            rw [hk.2.2]
          simp only [evaluates_next hg hto]
          rwa [hsame] at hnext
    · obtain ⟨e, hto⟩ := parseBodyTo_raise hf hpassed hacc
      exact ⟨fun _ => hk.not_quiet hacc, fun _ => ⟨e, _, evaluates_raise hg hto⟩⟩

/-! ## Runs over pieces -/

/-- Feeding the pieces to a parser with the receiver `rev` ends in `x`. -/
def FeedsTo (rev : RevHandler) (maxSize : ℕ) (pieces : List Bytes) (r : ParseRun)
    (x : Exit Exn ParseRun) : Prop :=
  ∃ fuel, feedTo rev maxSize fuel pieces r = some x

/-- Feeding more pieces ends in the exception of the first, or goes on with the others behind it. -/
theorem feedsTo_cons_iff {piece : Bytes} {pieces : List Bytes} {r : ParseRun}
    {x : Exit Exn ParseRun} :
    FeedsTo rev maxSize (piece :: pieces) r x ↔
      (∃ e r', Evaluates rawNonempty (parseBodyTo rev maxSize) (r.append piece) (.raised e r') ∧
        x = .raised e r') ∨
      ∃ r', Evaluates rawNonempty (parseBodyTo rev maxSize) (r.append piece) (.done r') ∧
        FeedsTo rev maxSize pieces r' x := feedBy_cons_iff

/-- A call that returns leaves a parser between two rounds, and its contexts were taken. -/
theorem returns_spec {r r' : ParseRun} (hr : Ready r.handler) (hpassed : AllTaken rev r.passed)
    (h : Evaluates rawNonempty (parseBodyTo rev maxSize) r (.done r')) :
    Ready r'.handler ∧ AllTaken rev r'.passed := by
  have hstep (s s' : ParseRun) (hs : Ready s.handler ∧ AllTaken rev s.passed)
      (hb : parseBodyTo rev maxSize s = some (.next s') ∨
        parseBodyTo rev maxSize s = some (.leave s')) :
      Ready s'.handler ∧ AllTaken rev s'.passed := by
    obtain ⟨f, hf, hk⟩ := @parseBody_keeps maxSize s hs.1
    by_cases hacc : AllTaken rev f.state.passed
    · rw [parseBodyTo_ok hf hacc] at hb
      rcases hb with hb | hb
      · obtain rfl := Option.some.inj hb
        exact ⟨hk.1, hacc⟩
      · obtain rfl := Option.some.inj hb
        exact ⟨hk.1, hacc⟩
    · obtain ⟨e, hto⟩ := parseBodyTo_raise hf hs.2 hacc
      rw [hto] at hb
      simp at hb
  refine Evaluates.invariant (fun s => Ready s.handler ∧ AllTaken rev s.passed)
    (fun x => x.returned = true → Ready x.state.handler ∧ AllTaken rev x.state.passed)
    ?_ ?_ ?_ ?_ ⟨hr, hpassed⟩ h rfl
  · exact fun s hs _ _ => hs
  · exact fun s s' hs _ hb => hstep s s' hs (.inl hb)
  · exact fun s s' hs _ hb _ => hstep s s' hs (.inr hb)
  · exact fun s e s' _ _ _ hret => absurd hret (by simp [Exit.returned])

/-- From a parser that is ready no piece raises exactly if each is harmless where it arrives. -/
theorem no_exception_from {r : ParseRun} (hr : Ready r.handler) (hpassed : AllTaken rev r.passed)
    (pieces : List Bytes) :
    (∀ e r', ¬ FeedsTo rev maxSize pieces r (.raised e r')) ↔
      ∀ pre piece post, pieces = pre ++ piece :: post →
        ∀ s, FeedsTo rev maxSize pre r (.done s) → Harmless rev maxSize (s.append piece) := by
  induction pieces generalizing r with
  | nil =>
    refine ⟨fun _ pre piece post h => absurd h (by simp), ?_⟩
    rintro - e r' ⟨fuel, h⟩
    cases h
  | cons piece pieces ih =>
    have hready : Ready (r.append piece).handler := hr
    have hcall := @raises_iff rev maxSize _ hready hpassed
    have hquiet := @quiet_iff rev maxSize _ hready hpassed
    have hnil : FeedsTo rev maxSize [] r (.done r) := ⟨0, rfl⟩
    by_cases hq : Quiet rev maxSize (r.append piece)
    · have hnone : ¬ ∃ e r', Evaluates rawNonempty (parseBodyTo rev maxSize) (r.append piece)
          (.raised e r') := fun h => hcall.mp h hq
      constructor
      · intro h pre piece' post heq s hs
        cases pre with
        | nil =>
          obtain ⟨rfl, rfl⟩ : piece = piece' ∧ pieces = post := by simpa using heq
          obtain ⟨fuel, hs⟩ := hs
          cases hs
          exact hquiet.mp hq
        | cons first pre =>
          obtain ⟨rfl, rfl⟩ : piece = first ∧ pieces = pre ++ piece' :: post := by simpa using heq
          rcases feedsTo_cons_iff.mp hs with ⟨e, r', -, hx⟩ | ⟨r₁, hx, hrest⟩
          · cases hx
          · obtain ⟨hr₁, hp₁⟩ := returns_spec hready hpassed hx
            exact (ih hr₁ hp₁).mp
              (fun e r' hraise => h e r' (feedsTo_cons_iff.mpr (.inr ⟨r₁, hx, hraise⟩)))
              pre piece' post rfl s hrest
      · intro h e r' hraise
        rcases feedsTo_cons_iff.mp hraise with ⟨e', r₁, hx, -⟩ | ⟨r₁, hx, hrest⟩
        · exact hnone ⟨e', r₁, hx⟩
        · obtain ⟨hr₁, hp₁⟩ := returns_spec hready hpassed hx
          refine (ih hr₁ hp₁).mpr ?_ e r' hrest
          intro pre piece' post heq s hs
          exact h (piece :: pre) piece' post (by rw [heq]; rfl) s
            (feedsTo_cons_iff.mpr (.inr ⟨r₁, hx, hs⟩))
    · obtain ⟨e, r', hx⟩ := hcall.mpr hq
      refine ⟨fun h => ?_, fun h => ?_⟩
      · exact absurd (feedsTo_cons_iff.mpr (.inl ⟨e, r', hx, rfl⟩)) (h e r')
      · exact absurd (hquiet.mpr (h [] piece pieces rfl r hnil)) hq

/-- **No peer can raise an exception** exactly when no call meets an element that cannot be
read or a request its receiver rejects. -/
theorem no_exception_iff (rev : RevHandler) (maxSize : ℕ) (isRequest : Bool)
    (connHandler : ConnHandler) (pieces : List Bytes) :
    (∀ e r', ¬ FeedsTo rev maxSize pieces (.opened isRequest connHandler) (.raised e r')) ↔
      ∀ pre piece post, pieces = pre ++ piece :: post →
        ∀ r, FeedsTo rev maxSize pre (.opened isRequest connHandler) (.done r) →
          Harmless rev maxSize (r.append piece) :=
  no_exception_from (by rintro (h | h) <;> cases h) (by simp [AllTaken, ParseRun.opened]) pieces

/-- A chunked request whose first chunk size is no number. -/
def unreadableChunk : Bytes := ascii "P / H\r\nTransfer-Encoding: chunked\r\n\r\nzz\r\n"

/-- `stoul` raises on the size line of the chunk. -/
theorem exception_unreadableChunk :
    ¬ ∀ (rev : RevHandler) (maxSize : ℕ) (isRequest : Bool) (connHandler : ConnHandler)
        (pieces : List Bytes) (e : Exn) (r' : ParseRun),
      ¬ FeedsTo rev maxSize pieces (.opened isRequest connHandler) (.raised e r') := by
  intro h
  have hrun : (feedTo .normalConn (2 ^ 62) 4 [unreadableChunk] (.opened true {})).map
      Exit.returned = some false := by decide
  obtain ⟨x, hx, hraised⟩ := Option.map_eq_some_iff.mp hrun
  cases x with
  | done r => cases hraised
  | raised e r => exact h .normalConn (2 ^ 62) true {} [unreadableChunk] e r ⟨4, hx⟩

end PkuyoProxy.Analysis
