import Mathlib.Data.List.MinMax
import Mathlib.Tactic.Common

/-!
# Scanning for a smallest key

`scanMin` goes through a list with a candidate in hand, which it exchanges for an eligible
element with a strictly smaller key: it computes `List.argmin` of the first candidate and the
eligible elements.
-/

set_option autoImplicit false

namespace PkuyoProxy.Lib

variable {ι κ : Type} [LinearOrder κ]

/-- The candidate at the end of the scan. -/
def scanMin (eligible : ι → Bool) (key : ι → κ) (best : ι) (l : List ι) : ι :=
  l.foldl (fun best i => if eligible i ∧ key i < key best then i else best) best

variable (eligible : ι → Bool) (key : ι → κ) (best : ι)

/-- One more candidate replaces the best one so far if it is eligible and smaller. -/
theorem scanMin_concat (l : List ι) (i : ι) :
    scanMin eligible key best (l ++ [i]) =
      if eligible i ∧ key i < key (scanMin eligible key best l) then i
      else scanMin eligible key best l := by
  rw [scanMin, List.foldl_append]
  rfl

/-- The scan finds the first of the smallest keys. -/
theorem argmin_eq_scanMin (l : List ι) :
    (best :: l.filter eligible).argmin key = some (scanMin eligible key best l) := by
  induction l using List.reverseRecOn with
  | nil => rfl
  | append_singleton l i ih =>
    rw [scanMin_concat, List.filter_append]
    by_cases helig : eligible i = true
    · have hfilter : [i].filter eligible = [i] := by simp [helig]
      rw [hfilter, ← List.cons_append, List.argmin_concat, ih]
      by_cases hlt : key i < key (scanMin eligible key best l) <;> simp [helig, hlt]
    · have hfilter : [i].filter eligible = [] := by simp [helig]
      rw [hfilter, List.append_nil, ih, if_neg (fun h => helig h.1)]

/-- A scan ends with the candidate it began with or with an eligible one of the list. -/
theorem scanMin_mem (l : List ι) :
    scanMin eligible key best l = best ∨
      scanMin eligible key best l ∈ l ∧ eligible (scanMin eligible key best l) = true := by
  have hmem := List.argmin_mem (argmin_eq_scanMin eligible key best l)
  rwa [List.mem_cons, List.mem_filter] at hmem

/-- The result is no larger than the candidate at the start. -/
theorem scanMin_le_start (l : List ι) : key (scanMin eligible key best l) ≤ key best :=
  List.le_of_mem_argmin List.mem_cons_self (argmin_eq_scanMin eligible key best l)

/-- The result is no larger than any eligible candidate. -/
theorem scanMin_le {l : List ι} {i : ι} (hi : i ∈ l) (helig : eligible i = true) :
    key (scanMin eligible key best l) ≤ key i := by
  apply List.le_of_mem_argmin _ (argmin_eq_scanMin eligible key best l)
  exact List.mem_cons_of_mem _ (List.mem_filter.mpr ⟨hi, helig⟩)

/-- Of the eligible elements with the smallest key, the scan of an ascending list finds the
least. -/
theorem scanMin_le_of_key_le [LinearOrder ι] {l : List ι} (hl : (best :: l).Pairwise (· < ·))
    {i : ι} (hi : i ∈ l) (helig : eligible i = true)
    (hkey : key i ≤ key (scanMin eligible key best l)) : scanMin eligible key best l ≤ i := by
  induction l using List.reverseRecOn with
  | nil => cases hi
  | append_singleton l j ih =>
    rw [← List.cons_append, List.pairwise_append] at hl
    obtain ⟨hsorted, -, hlast⟩ := hl
    rw [scanMin_concat] at hkey ⊢
    rcases List.mem_append.mp hi with hi | hi
    · have hle := scanMin_le eligible key best hi helig
      split at hkey
      · rename_i hj
        exact absurd (hkey.trans_lt hj.2) (not_lt_of_ge hle)
      · rename_i hj
        rw [if_neg hj]
        exact ih hsorted hi hkey
    · obtain rfl := List.mem_singleton.mp hi
      split
      · exact le_rfl
      · -- the candidate is an earlier element
        apply le_of_lt
        apply hlast _ _ i (List.mem_singleton_self i)
        rcases scanMin_mem eligible key best l with heq | ⟨hmem, -⟩
        · rw [heq]
          exact List.mem_cons_self
        · exact List.mem_cons_of_mem _ hmem

/-- The first candidate stays exactly when no eligible element has a smaller key. -/
theorem scanMin_eq_start_iff (l : List ι) :
    scanMin eligible key best l = best ↔ ∀ i ∈ l, eligible i = true → key best ≤ key i := by
  constructor
  · intro h i hi helig
    have hle := scanMin_le eligible key best hi helig
    rwa [h] at hle
  · intro h
    induction l using List.reverseRecOn with
    | nil => rfl
    | append_singleton l i ih =>
      have hstay := ih fun j hj => h j (by simp [hj])
      rw [scanMin_concat, hstay]
      apply if_neg
      rintro ⟨helig, hlt⟩
      exact absurd (h i (by simp) helig) (not_le_of_gt hlt)

/-- The scan ends with an eligible element when it starts with one or finds one with a smaller
key. -/
theorem scanMin_eligible_iff (l : List ι) :
    eligible (scanMin eligible key best l) = true ↔
      eligible best = true ∨ ∃ i ∈ l, eligible i = true ∧ key i < key best := by
  have hstart := scanMin_eq_start_iff eligible key best l
  by_cases heq : scanMin eligible key best l = best
  · have hle := hstart.mp heq
    rw [heq]
    constructor
    · exact .inl
    · rintro (h | ⟨i, hi, helig, hlt⟩)
      · exact h
      · exact absurd (hle i hi helig) (not_le_of_gt hlt)
  · have helig := (scanMin_mem eligible key best l).resolve_left heq
    rw [hstart] at heq
    push Not at heq
    exact iff_of_true helig.2 (.inr heq)

end PkuyoProxy.Lib
