import PkuyoProxy.Analysis.ClientAddress
import PkuyoProxy.Analysis.ParserRefinement

/-!
# Lengths that are not numbers

`process_http_headers` takes the last `Content-Length` value that `stoul` accepts and swallows
the exception of every other, so a malformed length is reported as the failure value only if the
values end with one that reads as that number (`lengthReported_iff`).
-/

set_option autoImplicit false

namespace PkuyoProxy.Analysis

open PkuyoProxy.Lib PkuyoProxy.Model PkuyoProxy.Interface

/-- The name of the field of the length, in lower case. -/
def xContentLength : Bytes := ascii "content-length"

/-- A plain decimal number below the failure value. -/
structure IsLength (v : Bytes) : Prop where
  ne : v ≠ []
  digits : ∀ c ∈ v, isDigit 10 c = true
  lt : digitsValue 10 v < npos

/-- The values of the `Content-Length` lines of a context's block. -/
def lengthValues (context : HttpContext) : List Bytes :=
  fieldValues xContentLength (splitHeaders context.header)

/-- A malformed length is reported as the failure value, and the only length, if it is well
formed, as what it says. -/
structure LengthReported (context : HttpContext) (addr : Bytes) (isRequest : Bool) : Prop where
  malformed : (∃ v ∈ lengthValues context, ¬ IsLength v) →
    (processHttpHeaders context addr isRequest).2.2 = npos
  single : ∀ v, lengthValues context = [v] → IsLength v →
    (processHttpHeaders context addr isRequest).2.2 = digitsValue 10 v

/-- The value begins with -1 or 2^64 - 1, behind white space and a sign. -/
def ReadsFailure (v : Bytes) : Prop :=
  scanNumber 10 v = some (true, 1) ∨ scanNumber 10 v = some (false, npos)

/-- The value does not begin with a number below 2^64, behind white space and a sign. -/
def ReadsNothing (v : Bytes) : Prop :=
  ∀ negative n, scanNumber 10 v = some (negative, n) → 2 ^ 64 ≤ n

/-- The last value that reads as a number reads as the failure value. -/
def EndsInFailure (values : List Bytes) : Prop :=
  ∃ pre v post, values = pre ++ v :: post ∧ ReadsFailure v ∧ ∀ w ∈ post, ReadsNothing w

/-! ## One value -/

/-- A value is read as the largest number exactly if it reads as a failure. -/
theorem stoul_eq_npos_iff (v : Bytes) : stoul 10 v = .ok npos ↔ ReadsFailure v := by
  unfold stoul ReadsFailure
  cases scanNumber 10 v with
  | none => simp
  | some entry =>
    obtain ⟨negative, n⟩ := entry
    by_cases hle : 2 ^ 64 ≤ n
    · simp only [if_pos hle, reduceCtorEq, Option.some.injEq, Prod.mk.injEq, false_iff]
      unfold npos
      omega
    · simp only [if_neg hle, Except.ok.injEq, Option.some.injEq, Prod.mk.injEq]
      unfold npos
      cases negative with
      | true =>
        simp only [if_true, true_and, reduceCtorEq, false_and, or_false]
        omega
      | false => simp only [Bool.false_eq_true, if_false, false_and, true_and, false_or]

/-- A value is not read exactly if it reads as nothing. -/
theorem stoul_error_iff (v : Bytes) : (∀ n, stoul 10 v ≠ .ok n) ↔ ReadsNothing v := by
  unfold stoul ReadsNothing
  cases scanNumber 10 v with
  | none => exact iff_of_true (fun n => by simp) (fun negative n => by simp)
  | some entry =>
    obtain ⟨negative, n⟩ := entry
    by_cases hle : 2 ^ 64 ≤ n
    · simp only [if_pos hle]
      refine iff_of_true (fun n => by simp) fun negative' n' h => ?_
      cases h
      exact hle
    · simp only [if_neg hle]
      exact iff_of_false (fun h => h _ rfl) fun h => hle (h negative n rfl)

/-- What reads as a failure is read. -/
theorem ReadsFailure.not_nothing {v : Bytes} (h : ReadsFailure v) : ¬ ReadsNothing v :=
  fun hnothing => (stoul_error_iff v).mpr hnothing npos ((stoul_eq_npos_iff v).mpr h)

/-- A length is read as the number of its digits. -/
theorem stoul_isLength {v : Bytes} (h : IsLength v) : stoul 10 v = .ok (digitsValue 10 v) := by
  apply stoul_digits h.ne h.digits
  have hlt := h.lt
  unfold npos at hlt
  omega

/-! ## All values -/

/-- The length after a list of values, behind the length `n`. -/
def lastLength (n : ℕ) (values : List Bytes) : ℕ :=
  values.foldl (fun n v => (stoul 10 v).toOption.getD n) n

/-- A line sets the length if it is a field of it that can be read. -/
theorem frameLine_length (acc : Bool × ℕ) (line : Bytes) :
    (frameLine acc line).2 = lastLength acc.2 (valueOf xContentLength line).toList := by
  unfold frameLine valueOf
  cases fieldOf line with
  | none => rfl
  | some field =>
    obtain ⟨name, value⟩ := field
    simp only [Option.bind_some]
    by_cases hcl : name = xContentLength
    · subst hcl
      rw [if_neg (by decide), if_pos (show xContentLength = ascii "content-length" from rfl),
        if_pos rfl]
      rfl
    · rw [if_neg (show ¬ name = ascii "content-length" from hcl), if_neg hcl]
      split <;> rfl

/-- The lines set the length that is read last. -/
theorem foldl_frameLine_length (ls : List Bytes) (acc : Bool × ℕ) :
    (ls.foldl frameLine acc).2 = lastLength acc.2 (ls.filterMap (valueOf xContentLength)) := by
  induction ls generalizing acc with
  | nil => rfl
  | cons l ls ih =>
    rw [List.foldl_cons, ih, frameLine_length]
    cases hl : valueOf xContentLength l with
    | none => rw [List.filterMap_cons_none hl]; rfl
    | some v => rw [List.filterMap_cons_some hl]; rfl

/-- The reported length is the one that is read last among the values of the block. -/
theorem reported_eq (context : HttpContext) (addr : Bytes) (isRequest : Bool) :
    (processHttpHeaders context addr isRequest).2.2 = lastLength 0 (lengthValues context) := by
  rw [processHttpHeaders_framing]
  exact foldl_frameLine_length _ _

/-- Behind a value that is read, the failure is that of this value. -/
theorem endsInFailure_concat {values : List Bytes} {v : Bytes} (h : ¬ ReadsNothing v) :
    EndsInFailure (values ++ [v]) ↔ ReadsFailure v := by
  constructor
  · rintro ⟨pre, v', post, heq, hfailure, hpost⟩
    rcases List.eq_nil_or_concat post with rfl | ⟨post', w, rfl⟩
    · obtain ⟨-, hv⟩ := List.append_inj' heq rfl
      cases hv
      exact hfailure
    · have hconcat : values ++ [v] = (pre ++ v' :: post') ++ [w] := by simp [heq]
      obtain ⟨-, hv⟩ := List.append_inj' hconcat rfl
      cases hv
      exact absurd (hpost v (by simp)) h
  · intro hfailure
    exact ⟨values, v, [], rfl, hfailure, by simp⟩

/-- A value that is not read changes nothing. -/
theorem endsInFailure_concat_nothing {values : List Bytes} {v : Bytes} (h : ReadsNothing v) :
    EndsInFailure (values ++ [v]) ↔ EndsInFailure values := by
  constructor
  · rintro ⟨pre, v', post, heq, hfailure, hpost⟩
    rcases List.eq_nil_or_concat post with rfl | ⟨post', w, rfl⟩
    · obtain ⟨-, hv⟩ := List.append_inj' heq rfl
      cases hv
      exact absurd h hfailure.not_nothing
    · have hconcat : values ++ [v] = (pre ++ v' :: post') ++ [w] := by simp [heq]
      obtain ⟨hvalues, -⟩ := List.append_inj' hconcat rfl
      exact ⟨pre, v', post', hvalues, hfailure, fun w' hw' => hpost w' (by simp [hw'])⟩
  · rintro ⟨pre, v', post, heq, hfailure, hpost⟩
    refine ⟨pre, v', post ++ [v], by simp [heq], hfailure, fun w hw => ?_⟩
    rcases List.mem_append.mp hw with hw | hw
    · exact hpost w hw
    · rwa [List.mem_singleton.mp hw]

/-- The failure value is the length after values that end in it. -/
theorem lastLength_eq_npos_iff (values : List Bytes) :
    lastLength 0 values = npos ↔ EndsInFailure values := by
  induction values using List.reverseRecOn with
  | nil => simp [lastLength, EndsInFailure, npos]
  | append_singleton values v ih =>
    have hlast : lastLength 0 (values ++ [v]) =
        (stoul 10 v).toOption.getD (lastLength 0 values) := by
      rw [lastLength, List.foldl_append]
      rfl
    rw [hlast]
    cases hv : stoul 10 v with
    | ok n =>
      have hsome : ¬ ReadsNothing v := fun h => (stoul_error_iff v).mpr h n hv
      have hiff : n = npos ↔ ReadsFailure v := by
        rw [← stoul_eq_npos_iff, hv, Except.ok.injEq]
      rw [endsInFailure_concat hsome]
      exact hiff
    | error e =>
      have hnothing : ReadsNothing v := (stoul_error_iff v).mp fun n h => by simp [hv] at h
      rw [endsInFailure_concat_nothing hnothing]
      exact ih

/-! ## Blocks -/

/-- A block with the failure value for its length is dropped, and nothing is passed on. -/
theorem readHeaders_failure {maxSize e : ℕ} {r : ParseRun}
    (hf : find (crlf ++ crlf) r.handler.rawBuffer = some e)
    (hp : (processHttpHeaders { header := r.handler.rawBuffer.take e ++ crlf }
      r.handler.connHandler.ip r.handler.isRequest).2 = (false, npos)) :
    ∃ h, readHeaders maxSize r = .next { r with handler := h } ∧ h.state = r.handler.state := by
  -- the other rounds read another pair off the same block
  have hother {e' len : ℕ} {tmp : HttpContext} {chunked : Bool}
      (hf' : find (crlf ++ crlf) r.handler.rawBuffer = some e')
      (hp' : processHttpHeaders { header := r.handler.rawBuffer.take e' ++ crlf }
        r.handler.connHandler.ip r.handler.isRequest = (tmp, chunked, len)) :
      chunked = false ∧ len = npos := by
    obtain rfl : e = e' := Option.some.inj (hf.symm.trans hf')
    rw [hp', Prod.mk.injEq] at hp
    exact hp
  have hround := readHeaders_round maxSize r
  generalize readHeaders maxSize r = f at hround ⊢
  cases hround with
  | incomplete hf' =>
    rw [hf] at hf'
    cases hf'
  | chunked hf' hp' => exact absurd (hother hf' hp').1 (by simp)
  | skipped hf' hp' => exact ⟨_, rfl, rfl⟩
  | bodiless hf' hp' => exact absurd (hother hf' hp').2 (by simp [npos])
  | tooLong hf' hp' hnpos => exact absurd (hother hf' hp').2 hnpos
  | sized hf' hp' hnpos => exact absurd (hother hf' hp').2 hnpos

/-- **Malformed lengths.**  A malformed length is reported as the failure value, and a single
well-formed one as what it says, exactly when no length is malformed or the last value that
reads as a number reads as the failure value.  A single well-formed length is always reported
so, and a block with the failure value for its length is not passed on. -/
theorem lengthReported_iff (context : HttpContext) (addr : Bytes) (isRequest : Bool) :
    (LengthReported context addr isRequest ↔
        (∀ v ∈ lengthValues context, IsLength v) ∨ EndsInFailure (lengthValues context)) ∧
      (∀ v, lengthValues context = [v] → IsLength v →
        (processHttpHeaders context addr isRequest).2.2 = digitsValue 10 v) ∧
      ∀ (maxSize e : ℕ) (r : ParseRun), find (crlf ++ crlf) r.handler.rawBuffer = some e →
        (processHttpHeaders { header := r.handler.rawBuffer.take e ++ crlf }
          r.handler.connHandler.ip r.handler.isRequest).2 = (false, npos) →
        ∃ h, readHeaders maxSize r = .next { r with handler := h } ∧ h.state = r.handler.state := by
  have hreported := reported_eq context addr isRequest
  have hsingle (v : Bytes) (hv : lengthValues context = [v]) (hlength : IsLength v) :
      (processHttpHeaders context addr isRequest).2.2 = digitsValue 10 v := by
    rw [hreported, hv]
    show (stoul 10 v).toOption.getD 0 = _
    rw [stoul_isLength hlength]
    rfl
  refine ⟨⟨fun h => ?_, fun h => ⟨fun hsome => ?_, hsingle⟩⟩, hsingle, ?_⟩
  · by_cases hall : ∀ v ∈ lengthValues context, IsLength v
    · exact .inl hall
    · push Not at hall
      rw [← lastLength_eq_npos_iff, ← hreported]
      exact .inr (h.malformed hall)
  · rcases h with hall | hends
    · obtain ⟨v, hv, hnot⟩ := hsome
      exact absurd (hall v hv) hnot
    · rwa [hreported, lastLength_eq_npos_iff]
  · exact fun maxSize e r hf hp => readHeaders_failure hf hp

/-- A length with letters behind its number is reported as the number. -/
theorem malformed_not_reported :
    ¬ ∀ context addr isRequest, (processHttpHeaders context addr isRequest).2.1 = false →
      LengthReported context addr isRequest := by
  intro hall
  have h := hall { header := ascii "POST / H\r\nContent-Length: 5abc\r\n" } [] false (by decide)
  have hreported := h.malformed ⟨ascii "5abc", by decide, fun hl => ?_⟩
  · revert hreported
    decide
  · have hdigit := hl.digits 97 (by decide)
    revert hdigit
    decide

end PkuyoProxy.Analysis
