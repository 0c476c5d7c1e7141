import PkuyoProxy.Lib.FallibleRun

/-!
# How a fallible computation ends

`EndsIn E P x` says that `x` fails with an error in `E` or gives a value with `P`.  It composes
along `bind` as pre- and postconditions do, and along a run of steps that keep an invariant.
-/

set_option autoImplicit false

namespace PkuyoProxy.Lib

variable {ε α β σ ι : Type} {E E' : ε → Prop} {P Q : α → Prop}

/-- The computation fails with an error in `E`, or gives a value with `P`. -/
def EndsIn (E : ε → Prop) (P : α → Prop) : Except ε α → Prop
  | .error e => E e
  | .ok a => P a

/-- Where a first computation ends in states from which a second one ends well, their sequence
ends well. -/
theorem EndsIn.bind {R : β → Prop} {x : Except ε α} {f : α → Except ε β} (h : EndsIn E P x)
    (hf : ∀ a, P a → EndsIn E R (f a)) : EndsIn E R (x >>= f) := by
  cases x with
  | error e => exact h
  | ok a => exact hf a h

/-- A weaker condition on the errors and on the results holds as well. -/
theorem EndsIn.mono {x : Except ε α} (h : EndsIn E P x) (hE : ∀ e, E e → E' e)
    (hP : ∀ a, P a → Q a) : EndsIn E' Q x := by
  cases x with
  | error e => exact hE e h
  | ok a => exact hP a h

/-- The result of a computation that returns meets the condition on results. -/
theorem EndsIn.of_ok {x : Except ε α} (h : EndsIn E P x) {a : α} (hx : x = .ok a) : P a := by
  rw [hx] at h
  exact h

/-- A run ends as its steps do, from states with the invariant. -/
theorem EndsIn.run {step : σ → ι → Except ε σ} {Inv : σ → Prop} {Legal : σ → ι → Prop}
    (hkeep : ∀ s i, Inv s → Legal s i → EndsIn E Inv (step s i)) {s : σ} (hs : Inv s)
    {inputs : List ι} (hlegal : EveryStep step Legal s inputs) :
    EndsIn E Inv (runSteps step s inputs) := by
  induction inputs generalizing s with
  | nil => exact hs
  | cons i inputs ih =>
    obtain ⟨hfirst, hrest⟩ := everyStep_cons.mp hlegal
    have hstep := hkeep s i hs hfirst
    unfold runSteps
    rw [List.foldlM_cons]
    cases hs' : step s i with
    | error e =>
      rw [hs'] at hstep
      exact hstep
    | ok s' =>
      rw [hs'] at hstep
      exact ih hstep (hrest s' hs')

end PkuyoProxy.Lib
