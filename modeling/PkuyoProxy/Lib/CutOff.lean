import PkuyoProxy.Lib.WhileLoop

/-!
# Loops that are cut off

In front of every iteration a condition on the state is tested, and the loop ends with a fault of
its own where it fails.  A property of states keeps books on the conditions if behind an iteration
it holds exactly where it held before and the condition did (`Records`).  The loop that is cut off
then comes to an end exactly as the other one does if the property holds there
(`whileLoop_cutOff_iff`).
-/

set_option autoImplicit false

namespace PkuyoProxy.Lib

variable {ε ε' σ : Type}

/-- The iteration with another type of faults. -/
def Flow.mapFault (lift : ε → ε') : Flow ε σ → Flow ε' σ
  | .next s => .next s
  | .leave s => .leave s
  | .raise e s => .raise (lift e) s

/-- The iteration, unless the condition fails in front of it. -/
def cutOff (ok : σ → Prop) [DecidablePred ok] (stop : ε') (lift : ε → ε')
    (body : σ → Option (Flow ε σ)) (s : σ) : Option (Flow ε' σ) :=
  if ok s then (body s).map (Flow.mapFault lift) else some (.raise stop s)

/-- The property says that the condition has held in front of every iteration so far. -/
def Records (good ok : σ → Prop) (body : σ → Option (Flow ε σ)) : Prop :=
  ∀ s f, body s = some f → (good f.state ↔ good s ∧ ok s)

variable {guard : σ → Bool} {body : σ → Option (Flow ε σ)} {good ok : σ → Prop}

/-- A loop at whose end the property holds started where it did. -/
theorem Records.back (h : Records good ok body) {fuel : ℕ} {s : σ} {x : Exit ε σ}
    (hrun : whileLoop guard body fuel s = some x) (hx : good x.state) : good s := by
  induction fuel generalizing s with
  | zero => cases hrun
  | succ fuel ih =>
    simp only [whileLoop] at hrun
    split at hrun
    · cases hb : body s with
      | none => simp [hb] at hrun
      | some f =>
        rw [hb] at hrun
        refine ((h s f hb).mp ?_).1
        cases f with
        | next s' => exact ih hrun
        | leave s' =>
          cases hrun
          exact hx
        | raise e s' =>
          cases hrun
          exact hx
    · cases hrun
      exact hx

/-- **A loop that is cut off returns exactly as the other one does**, if the property holds where
that comes to its end. -/
theorem whileLoop_cutOff_iff [DecidablePred ok] (h : Records good ok body) {stop : ε'}
    {lift : ε → ε'} {fuel : ℕ} {s s' : σ} (hs : good s) :
    whileLoop guard (cutOff ok stop lift body) fuel s = some (.done s') ↔
      whileLoop guard body fuel s = some (.done s') ∧ good s' := by
  induction fuel generalizing s with
  | zero => simp [whileLoop]
  | succ fuel ih =>
    simp only [whileLoop, cutOff]
    by_cases hg : guard s = true
    · simp only [if_pos hg]
      cases hb : body s with
      | none =>
        by_cases hok : ok s
        · simp [hok]
        · simp [hok]
      | some f =>
        have hrecords := h s f hb
        by_cases hok : ok s
        · have hnext : good f.state := hrecords.mpr ⟨hs, hok⟩
          simp only [if_pos hok, Option.map_some]
          cases f with
          | next s₁ => exact ih hnext
          | leave s₁ =>
            simp only [Flow.mapFault, Option.some.injEq, Exit.done.injEq]
            constructor
            · rintro rfl
              exact ⟨rfl, hnext⟩
            · exact And.left
          | raise e s₁ => simp [Flow.mapFault]
        · have hbad : ¬ good f.state := fun hgood => hok (hrecords.mp hgood).2
          simp only [if_neg hok]
          cases f with
          | next s₁ =>
            simp only [Option.some.injEq, reduceCtorEq, false_iff, not_and]
            exact fun hrun hend => hbad (h.back hrun hend)
          | leave s₁ =>
            simp only [Option.some.injEq, reduceCtorEq, Exit.done.injEq, false_iff, not_and]
            rintro rfl
            exact hbad
          | raise e s₁ => simp
    · simp only [if_neg hg, Option.some.injEq, Exit.done.injEq]
      constructor
      · rintro rfl
        exact ⟨rfl, hs⟩
      · exact And.left

end PkuyoProxy.Lib
