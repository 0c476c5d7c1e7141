import PkuyoProxy.Analysis.ParserRefinement
import PkuyoProxy.Interface.Elements

/-!
# When `parse_http_context` comes to an end

Every iteration of the outer loop consumes a byte or leaves the loop, except the one that
finds the parser in front of a chunk-size line whose end has not arrived: it changes nothing
and the loop repeats it for ever (`progress_iff`).  The call therefore ends exactly when
the buffer does not end inside such a line (`terminates_iff`).
-/

set_option autoImplicit false

namespace PkuyoProxy.Analysis

open PkuyoProxy.Lib PkuyoProxy.Model PkuyoProxy.Interface

variable {maxSize : ℕ}

/-- Read from the parser's state on, the buffer ends with a part of a chunk-size line. -/
def EndsInSizeLine (maxSize : ℕ) (r : ParseRun) : Prop :=
  ∃ pre line, pre ++ line = r.handler.rawBuffer ∧ line ≠ [] ∧ ¬ crlf <:+: line ∧
    Framer.AtSizeLine ((Framer.machine maxSize r.handler.connHandler.ip r.handler.isRequest).run
      (reader r.handler) pre).1 line

/-- The call returns or raises. -/
def Terminates (maxSize : ℕ) (r : ParseRun) : Prop :=
  ∃ fuel x, parseHttpContext maxSize fuel r = some x

/-- The reader of a parser that is ready is well formed. -/
theorem Ready.wf {h : NormalConnHandler} (hr : Ready h) : Framer.Wf (reader h) := by
  unfold Framer.Wf reader
  cases hs : h.state with
  | readHeaders => rfl
  | readBody => exact ⟨rfl, hr (.inl hs)⟩
  | readChunkSize => rfl
  | readChunkData => exact ⟨rfl, hr (.inr hs)⟩

/-- A line of at most one byte contains no line end. -/
theorem not_crlf_of_short {line : Bytes} (h : line.length < 2) : ¬ crlf <:+: line := by
  intro hin
  exact absurd hin.length_le (Nat.not_le.mpr h)

/-- A settled reader is in front of a size line exactly if it was there or behind a chunk. -/
theorem settle_phase_eq {f : Framer} :
    (settle f).phase = .chunkSize ↔ f.phase = .chunkSize ∨ f.phase = .chunkEnd := by
  unfold settle
  split
  · rename_i h
    simp [h]
  · rename_i h
    simp [h]

/-- What the reader makes of such a buffer. -/
theorem endsInSizeLine_iff {r : ParseRun} (hr : Ready r.handler) :
    EndsInSizeLine maxSize r ↔
      (reading maxSize r).1.phase = .chunkSize ∧ (reading maxSize r).1.pending ≠ [] := by
  have hwf := hr.wf
  have hstart : (reader r.handler).pending = [] := rfl
  have hpending (f : Framer) : (settle f).pending = f.pending := by
    unfold settle
    split <;> rfl
  unfold EndsInSizeLine reading
  dsimp only
  rw [settle_phase_eq, hpending]
  generalize reader r.handler = f at hwf hstart
  constructor
  · rintro ⟨pre, line, heq, hne, hline, hat⟩
    rw [← heq, Mealy.run_append]
    generalize (Framer.machine maxSize r.handler.connHandler.ip r.handler.isRequest).run f pre = o
      at hat
    obtain ⟨⟨phase, tmp, pending⟩, out⟩ := o
    obtain ⟨hnil, hphase⟩ := hat
    obtain rfl : pending = [] := hnil
    have hnone : find crlf line = none := (find_eq_none_iff _ _).mpr hline
    rcases hphase with hp | ⟨hp, hno⟩
    · obtain rfl : phase = .chunkSize := hp
      rw [Framer.run_chunkSize_none hnone]
      exact ⟨.inl rfl, hne⟩
    · obtain rfl : phase = .chunkEnd := hp
      rw [Framer.run_chunkEnd_other hno]
      split
      · exact ⟨.inr rfl, hne⟩
      · rw [Framer.run_chunkSize_none hnone]
        exact ⟨.inl rfl, hne⟩
  · rintro ⟨hphase, hne⟩
    obtain ⟨pre, heq, hg, hgrown⟩ := @Framer.run_ends maxSize
      r.handler.connHandler.ip r.handler.isRequest f hwf hstart r.handler.rawBuffer
    have hwf' := @Framer.wf_run maxSize r.handler.connHandler.ip r.handler.isRequest f hwf
      r.handler.rawBuffer
    refine ⟨pre, _, heq, hne, ?_, hg, ?_⟩
    · unfold Framer.Wf at hwf'
      rcases hphase with hp | hp
      · simp only [hp] at hwf'
        exact (find_eq_none_iff _ _).mp hwf'
      · simp only [hp] at hwf'
        exact not_crlf_of_short hwf'
    · rcases hphase with hp | hp
      · simp only [hp] at hgrown
        exact hgrown.imp_right fun h => ⟨h.1, h.2.2⟩
      · simp only [hp] at hgrown
        unfold Framer.Wf at hwf'
        simp only [hp] at hwf'
        exact .inr ⟨hgrown, fun hpre => not_crlf_of_short hwf' hpre.isInfix⟩

/-- A call ends exactly if the reader does not end in a size line that has begun. -/
theorem terminates_reading_iff {r : ParseRun} (hr : Ready r.handler) :
    Terminates maxSize r ↔
      ¬ ((reading maxSize r).1.phase = .chunkSize ∧ (reading maxSize r).1.pending ≠ []) := by
  have hm := parse_meets maxSize hr
  have hends {x : Exit Exn ParseRun} (hx : Evaluates rawNonempty (parseBody maxSize) r x) :
      Terminates maxSize r := by
    obtain ⟨fuel, hx⟩ := hx
    exact ⟨fuel, x, hx⟩
  unfold Meets at hm
  dsimp only at hm
  split at hm
  · rename_i e hp
    obtain ⟨r', hx, -⟩ := hm
    exact ⟨fun _ hc => by simp [hp] at hc, fun _ => hends hx⟩
  · rename_i hp
    split at hm
    · rename_i hnil
      exact ⟨fun _ hc => hc.2 hnil, fun _ => hends hm⟩
    · rename_i hne
      refine ⟨?_, fun h => absurd ⟨hp, hne⟩ h⟩
      rintro ⟨fuel, x, hx⟩
      have hnone : parseHttpContext maxSize fuel r = none := hm fuel
      rw [hnone] at hx
      cases hx
  · rename_i hp
    exact ⟨fun _ hc => hp hc.1, fun _ => hends hm⟩

/-! ## One iteration -/

/-- The iteration ends, and if it does not leave the loop it has consumed bytes. -/
def Progresses (maxSize : ℕ) (r : ParseRun) : Prop :=
  ∃ f, parseBody maxSize r = some f ∧
    ∀ s, f = .next s → s.handler.rawBuffer.length < r.handler.rawBuffer.length

/-- The parser stands in front of a chunk-size line whose end has not arrived. -/
def BeforeSizeLine (r : ParseRun) : Prop :=
  r.handler.state = .readChunkSize ∧ ¬ crlf <:+: r.handler.rawBuffer

/-- The inner loop gives up at once, and the iteration changes nothing. -/
theorem parseBody_sizeLine {r : ParseRun} (hraw : r.handler.rawBuffer ≠ [])
    (h : BeforeSizeLine r) : parseBody maxSize r = some (.next r) := by
  obtain ⟨hs, hline⟩ := h
  have hf : find crlf r.handler.rawBuffer = none := (find_eq_none_iff _ _).mpr hline
  have hinner : parseChunkedContent r = some (.done r) := by
    simp [parseChunkedContent, chunkFuel, whileLoop, rawNonempty, hraw, chunkBody, hs,
      readChunkSize, hf]
  simp only [parseBody, hs, hinner]

/-- In front of a size line that has not ended no iteration ends. -/
theorem not_progresses_of_sizeLine {r : ParseRun} (hraw : r.handler.rawBuffer ≠ [])
    (h : BeforeSizeLine r) : ¬ Progresses maxSize r := by
  rintro ⟨f, hf, hlt⟩
  rw [parseBody_sizeLine hraw h] at hf
  exact lt_irrefl _ (hlt r (Option.some.inj hf).symm)

/-- No iteration of the inner loop adds bytes. -/
theorem chunkBody_length {s s' : ParseRun}
    (h : chunkBody s = some (.next s') ∨ chunkBody s = some (.leave s')) :
    s'.handler.rawBuffer.length ≤ s.handler.rawBuffer.length := by
  unfold chunkBody at h
  cases hs : s.handler.state with
  | readHeaders =>
    simp only [hs, Option.some.injEq, Flow.next.injEq, reduceCtorEq, or_false] at h
    rw [h]
  | readBody =>
    simp only [hs, Option.some.injEq, Flow.next.injEq, reduceCtorEq, or_false] at h
    rw [h]
  | readChunkSize =>
    simp only [hs, Option.some.injEq] at h
    rcases h with h | h
    · have hlen := (readChunkSize_next h).2
      omega
    · rcases readChunkSize_leave h with ⟨rfl, -⟩ | ⟨-, hlen⟩
      · exact le_rfl
      · omega
  | readChunkData =>
    simp only [hs, Option.some.injEq] at h
    have hround := readChunkData_round s
    rcases h with h | h
    · rw [h] at hround
      cases hround with
      | terminated =>
        simp only [NormalConnHandler.takeContent, NormalConnHandler.eraseRaw, List.length_drop]
        omega
      | unterminated | underWay =>
        simp only [NormalConnHandler.takeContent, List.length_drop]
        omega
    · rw [h] at hround
      cases hround

/-- The inner loop does not lengthen the buffer. -/
theorem chunkLoop_length {r s : ParseRun} (h : Evaluates rawNonempty chunkBody r (.done s)) :
    s.handler.rawBuffer.length ≤ r.handler.rawBuffer.length := by
  refine Evaluates.invariant
    (fun s => s.handler.rawBuffer.length ≤ r.handler.rawBuffer.length)
    (fun x => x.state.handler.rawBuffer.length ≤ r.handler.rawBuffer.length ∨ x.returned = false)
    ?_ ?_ ?_ ?_ le_rfl h |>.resolve_right (by simp [Exit.returned])
  · exact fun s hs _ => .inl hs
  · exact fun s s' hs _ hb => (chunkBody_length (.inl hb)).trans hs
  · exact fun s s' hs _ hb => .inl ((chunkBody_length (.inr hb)).trans hs)
  · exact fun s e s' _ _ _ => .inr rfl

/-- The first iteration of the inner loop consumes bytes or raises. -/
theorem chunkBody_first {r : ParseRun} (hr : Ready r.handler) (hraw : r.handler.rawBuffer ≠ [])
    (hs : r.handler.state = .readChunkSize ∨ r.handler.state = .readChunkData)
    (hline : ¬ BeforeSizeLine r) :
    ∃ f, chunkBody r = some f ∧ ∀ s, f = .next s ∨ f = .leave s →
      s.handler.rawBuffer.length < r.handler.rawBuffer.length := by
  rcases hs with hs | hs
  · refine ⟨readChunkSize r, by simp [chunkBody, hs], ?_⟩
    have hlen := List.length_pos_iff.mpr hraw
    rintro s (hf | hf)
    · have := (readChunkSize_next hf).2
      omega
    · rcases readChunkSize_leave hf with ⟨-, hnone⟩ | ⟨-, hlt⟩
      · exact absurd ⟨hs, (find_eq_none_iff _ _).mp hnone⟩ hline
      · omega
  · obtain ⟨s₁, hf, -, hlt⟩ := readChunkData_next (hr (.inr hs)) hraw
    refine ⟨.next s₁, by simp [chunkBody, hs, hf], ?_⟩
    rintro s (h | h)
    · cases h
      exact hlt
    · cases h

/-- Anywhere else in chunks an iteration consumes bytes or leaves. -/
theorem progresses_of_chunk {r : ParseRun} (hr : Ready r.handler) (hraw : r.handler.rawBuffer ≠ [])
    (hs : r.handler.state = .readChunkSize ∨ r.handler.state = .readChunkData)
    (hline : ¬ BeforeSizeLine r) : Progresses maxSize r := by
  have hg : rawNonempty r = true := by simpa [rawNonempty] using hraw
  obtain ⟨x, hx, -⟩ := parseChunkedContent_spec maxSize hs hr
  obtain ⟨f, hf, hlt⟩ := chunkBody_first hr hraw hs hline
  have heval : Evaluates rawNonempty chunkBody r x := ⟨_, hx⟩
  cases x with
  | raised e s =>
    exact ⟨.raise e s, by rcases hs with hs | hs <;> simp [parseBody, hs, hx], by simp⟩
  | done s =>
    refine ⟨.next s, by rcases hs with hs | hs <;> simp [parseBody, hs, hx], ?_⟩
    rintro s' ⟨⟩
    cases f with
    | next s₁ =>
      exact (chunkLoop_length ((evaluates_next hg hf).mp heval)).trans_lt (hlt s₁ (.inl rfl))
    | leave s₁ =>
      cases heval.unique (evaluates_leave hg hf)
      exact hlt _ (.inr rfl)
    | raise e s₁ => cases heval.unique (evaluates_raise hg hf)

/-- An iteration makes progress exactly if the parser is not in front of a size line that has
begun without ending. -/
theorem progress_iff {r : ParseRun} (hr : Ready r.handler) (hraw : r.handler.rawBuffer ≠ []) :
    Progresses maxSize r ↔ ¬ BeforeSizeLine r := by
  refine ⟨fun h hline => not_progresses_of_sizeLine hraw hline h, fun hline => ?_⟩
  cases hs : r.handler.state with
  | readHeaders =>
    refine ⟨readHeaders maxSize r, by simp [parseBody, hs], ?_⟩
    exact fun s hf => readHeaders_next hf
  | readBody =>
    obtain ⟨s, hf, hlt⟩ := readBody_next (hr (.inl hs)) hraw
    refine ⟨.next s, by simp [parseBody, hs, hf], ?_⟩
    rintro s' ⟨⟩
    exact hlt
  | readChunkSize => exact progresses_of_chunk hr hraw (.inl hs) hline
  | readChunkData => exact progresses_of_chunk hr hraw (.inr hs) hline

/-! ## The whole call -/

/-- **Parser termination.**  From any parser state, the call returns or raises if and only if
the buffer does not end inside a chunk-size line; and each iteration consumes bytes or leaves
the loop, except in front of such a line. -/
theorem terminates_iff (maxSize : ℕ) (r : ParseRun) (hr : Ready r.handler) :
    (Terminates maxSize r ↔ ¬ EndsInSizeLine maxSize r) ∧
      (r.handler.rawBuffer ≠ [] → (Progresses maxSize r ↔ ¬ BeforeSizeLine r)) := by
  refine ⟨?_, progress_iff hr⟩
  rw [terminates_reading_iff hr, endsInSizeLine_iff hr]

/-- A parser in front of a chunk-size line of which one digit has arrived. -/
def beforeSizeLine : ParseRun :=
  { handler :=
      { state := .readChunkSize, rawBuffer := ascii "5", isRequest := true, connHandler := {} } }

/-- A parser inside a body of two bytes of which one has arrived. -/
def insideBody : ParseRun :=
  { handler :=
      { state := .readBody, tmpContext := { data := 2 }, rawBuffer := ascii "a",
        isRequest := true, connHandler := {} } }

/-- Both equivalences for a call that reads the byte it has. -/
theorem terminates_iff_body :
    (Terminates (2 ^ 62) insideBody ↔ ¬ EndsInSizeLine (2 ^ 62) insideBody) ∧
      (insideBody.handler.rawBuffer ≠ [] →
        (Progresses (2 ^ 62) insideBody ↔ ¬ BeforeSizeLine insideBody)) :=
  terminates_iff (2 ^ 62) insideBody (by intro _; decide)

/-- In front of the digit the call repeats its iteration for ever. -/
theorem not_terminates_sizeLine :
    ¬ ∀ (maxSize : ℕ) (r : ParseRun), Ready r.handler → Terminates maxSize r := by
  intro hall
  have hraw : beforeSizeLine.handler.rawBuffer ≠ [] := by decide
  have hline : EndsInSizeLine (2 ^ 62) beforeSizeLine :=
    ⟨[], ascii "5", rfl, by decide, by decide, rfl, .inl rfl⟩
  have hready : Ready beforeSizeLine.handler := by
    rintro (h | h) <;> cases h
  have hends := hall (2 ^ 62) beforeSizeLine hready
  exact (terminates_reading_iff hready).mp hends ((endsInSizeLine_iff hready).mp hline)

end PkuyoProxy.Analysis
