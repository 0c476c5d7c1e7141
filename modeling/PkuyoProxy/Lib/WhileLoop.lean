import Mathlib.Data.Nat.Notation
import Mathlib.Tactic.Common

/-!
# `while` loops with `break` and exceptions

A loop is a guard and a body; one iteration falls through to the next test, leaves the
loop or raises.  `whileLoop` runs at most `fuel` iterations and answers `none` when they
do not suffice.  `Evaluates` is the fuel-free reading: some number of iterations ends the
loop with that exit.  It is a function of the start state (`Evaluates.unique`), each
iteration is one rewriting step of it (`evaluates_next`), and `Diverges` is its negation.
-/

set_option autoImplicit false

namespace PkuyoProxy.Lib

/-- How one iteration of a loop body ends. -/
inductive Flow (ε σ : Type)
  | next (s : σ)
  | leave (s : σ)
  | raise (e : ε) (s : σ)
  deriving DecidableEq, Repr

/-- The state behind an iteration. -/
def Flow.state {ε σ : Type} : Flow ε σ → σ
  | .next s | .leave s | .raise _ s => s

/-- How a whole loop ends. -/
inductive Exit (ε σ : Type)
  | done (s : σ)
  | raised (e : ε) (s : σ)
  deriving DecidableEq, Repr

/-- Iterations that end alike, in related states. -/
inductive Flow.Rel {ε σ τ : Type} (R : σ → τ → Prop) : Flow ε σ → Flow ε τ → Prop
  | next {s : σ} {t : τ} (h : R s t) : Flow.Rel R (.next s) (.next t)
  | leave {s : σ} {t : τ} (h : R s t) : Flow.Rel R (.leave s) (.leave t)
  | raise {e : ε} {s : σ} {t : τ} (h : R s t) : Flow.Rel R (.raise e s) (.raise e t)

/-- Loops that end alike, in related states. -/
inductive Exit.Rel {ε σ τ : Type} (R : σ → τ → Prop) : Exit ε σ → Exit ε τ → Prop
  | done {s : σ} {t : τ} (h : R s t) : Exit.Rel R (.done s) (.done t)
  | raised {e : ε} {s : σ} {t : τ} (h : R s t) : Exit.Rel R (.raised e s) (.raised e t)

variable {ε σ : Type}

/-- The loop ended without an exception. -/
def Exit.returned : Exit ε σ → Bool
  | .done _ => true
  | .raised _ _ => false

/-- The state that is left. -/
def Exit.state : Exit ε σ → σ
  | .done s => s
  | .raised _ s => s

/-- `while (guard) body`, for at most `fuel` tests of the guard. -/
def whileLoop (guard : σ → Bool) (body : σ → Option (Flow ε σ)) : ℕ → σ → Option (Exit ε σ)
  | 0, _ => none
  | fuel + 1, s =>
    if guard s then
      match body s with
      | none => none
      | some (.next s') => whileLoop guard body fuel s'
      | some (.leave s') => some (.done s')
      | some (.raise e s') => some (.raised e s')
    else some (.done s)

/-- The loop ends with `x` after some number of iterations. -/
def Evaluates (guard : σ → Bool) (body : σ → Option (Flow ε σ)) (s : σ) (x : Exit ε σ) : Prop :=
  ∃ fuel, whileLoop guard body fuel s = some x

/-- The loop does not end, whatever number of iterations it is given. -/
def Diverges (guard : σ → Bool) (body : σ → Option (Flow ε σ)) (s : σ) : Prop :=
  ∀ fuel, whileLoop guard body fuel s = none

variable {guard : σ → Bool} {body : σ → Option (Flow ε σ)}

/-- More fuel does not change the result of a loop. -/
theorem whileLoop_mono {fuel fuel' : ℕ} {s : σ} {x : Exit ε σ} (hle : fuel ≤ fuel')
    (h : whileLoop guard body fuel s = some x) : whileLoop guard body fuel' s = some x := by
  induction fuel generalizing fuel' s with
  | zero => cases h
  | succ fuel ih =>
    obtain ⟨m, rfl⟩ : ∃ m, fuel' = m + 1 := ⟨fuel' - 1, by omega⟩
    simp only [whileLoop] at h ⊢
    split at h
    · rename_i hg
      rw [if_pos hg]
      cases hb : body s with
      | none => simp [hb] at h
      | some f =>
        cases f with
        | next s' =>
          rw [hb] at h
          exact ih (by omega) h
        | leave s' => simpa [hb] using h
        | raise e s' => simpa [hb] using h
    · rename_i hg
      rw [if_neg hg]
      exact h

/-- A loop has at most one result. -/
theorem Evaluates.unique {s : σ} {x y : Exit ε σ} (hx : Evaluates guard body s x)
    (hy : Evaluates guard body s y) : x = y := by
  obtain ⟨n, hn⟩ := hx
  obtain ⟨m, hm⟩ := hy
  have h1 := whileLoop_mono (Nat.le_max_left n m) hn
  have h2 := whileLoop_mono (Nat.le_max_right n m) hm
  exact Option.some.inj (h1.symm.trans h2)

/-- A loop with a result does not run for ever. -/
theorem Evaluates.not_diverges {s : σ} {x : Exit ε σ} (hx : Evaluates guard body s x) :
    ¬ Diverges guard body s := by
  obtain ⟨n, hn⟩ := hx
  intro h
  rw [h n] at hn
  cases hn

/-- A loop whose guard is false ends where it is. -/
theorem evaluates_exit {s : σ} (hg : guard s = false) : Evaluates guard body s (.done s) :=
  ⟨1, by simp [whileLoop, hg]⟩

/-- A loop whose body leaves it ends in the state of the body. -/
theorem evaluates_leave {s s' : σ} (hg : guard s = true) (hb : body s = some (.leave s')) :
    Evaluates guard body s (.done s') :=
  ⟨1, by simp [whileLoop, hg, hb]⟩

/-- A loop whose body raises an exception ends with it. -/
theorem evaluates_raise {s s' : σ} {e : ε} (hg : guard s = true)
    (hb : body s = some (.raise e s')) : Evaluates guard body s (.raised e s') :=
  ⟨1, by simp [whileLoop, hg, hb]⟩

/-- One iteration that falls through does not change what the loop evaluates to. -/
theorem evaluates_next {s s' : σ} {x : Exit ε σ} (hg : guard s = true)
    (hb : body s = some (.next s')) : Evaluates guard body s x ↔ Evaluates guard body s' x := by
  constructor
  · rintro ⟨fuel, h⟩
    cases fuel with
    | zero => cases h
    | succ fuel => exact ⟨fuel, by simpa [whileLoop, hg, hb] using h⟩
  · rintro ⟨fuel, h⟩
    exact ⟨fuel + 1, by simpa [whileLoop, hg, hb] using h⟩

/-- One iteration that falls through does not change whether the loop diverges. -/
theorem diverges_next {s s' : σ} (hg : guard s = true) (hb : body s = some (.next s')) :
    Diverges guard body s ↔ Diverges guard body s' := by
  constructor
  · intro h fuel
    simpa [whileLoop, hg, hb] using h (fuel + 1)
  · intro h fuel
    cases fuel with
    | zero => rfl
    | succ fuel => simpa [whileLoop, hg, hb] using h fuel

/-- An iteration that comes back to its own start never ends. -/
theorem diverges_of_stuck {s : σ} (hg : guard s = true) (hb : body s = some (.next s)) :
    Diverges guard body s := by
  intro fuel
  induction fuel with
  | zero => rfl
  | succ fuel ih => simpa [whileLoop, hg, hb] using ih

/-- **Loop rule.**  An invariant of the iterations that establishes `Q` at every way out
gives `Q` at the loop's exit. -/
theorem Evaluates.invariant (I : σ → Prop) (Q : Exit ε σ → Prop)
    (hexit : ∀ s, I s → guard s = false → Q (.done s))
    (hnext : ∀ s s', I s → guard s = true → body s = some (.next s') → I s')
    (hleave : ∀ s s', I s → guard s = true → body s = some (.leave s') → Q (.done s'))
    (hraise : ∀ s e s', I s → guard s = true → body s = some (.raise e s') → Q (.raised e s'))
    {s : σ} {x : Exit ε σ} (hs : I s) (hx : Evaluates guard body s x) : Q x := by
  obtain ⟨fuel, h⟩ := hx
  induction fuel generalizing s with
  | zero => cases h
  | succ fuel ih =>
    simp only [whileLoop] at h
    split at h
    · rename_i hg
      cases hb : body s with
      | none => simp [hb] at h
      | some f =>
        rw [hb] at h
        cases f with
        | next s' => exact ih (hnext s s' hs hg hb) h
        | leave s' => cases h; exact hleave s s' hs hg hb
        | raise e s' => cases h; exact hraise s e s' hs hg hb
    · rename_i hg
      cases h
      exact hexit s hs (by simpa using hg)

/-- **Lockstep rule.**  Loops whose guards agree and whose iterations keep their states related
end alike after the same number of iterations. -/
theorem whileLoop_lockstep {τ : Type} {guard' : τ → Bool} {body' : τ → Option (Flow ε τ)}
    (R : σ → τ → Prop) (hguard : ∀ s t, R s t → guard s = guard' t)
    (hbody : ∀ s t, R s t → Option.Rel (Flow.Rel R) (body s) (body' t)) {s : σ} {t : τ}
    (h : R s t) (fuel : ℕ) :
    Option.Rel (Exit.Rel R) (whileLoop guard body fuel s) (whileLoop guard' body' fuel t) := by
  induction fuel generalizing s t with
  | zero => exact .none
  | succ fuel ih =>
    simp only [whileLoop, hguard s t h]
    split
    · have hround := hbody s t h
      generalize body s = f at hround ⊢
      generalize body' t = f' at hround ⊢
      cases hround with
      | none => exact .none
      | some hflow =>
        cases hflow with
        | next hnext => exact ih hnext
        | leave hleave => exact .some (.done hleave)
        | raise hraise => exact .some (.raised hraise)
    · exact .some (.done h)

/-- **Termination rule.**  A measure that every iteration decreases bounds the fuel. -/
theorem whileLoop_isSome (I : σ → Prop) (μ : σ → ℕ)
    (hbody : ∀ s, I s → guard s = true → ∃ f, body s = some f ∧
      ∀ s', f = .next s' → I s' ∧ μ s' < μ s)
    {s : σ} (hs : I s) {fuel : ℕ} (hfuel : μ s < fuel) :
    ∃ x, whileLoop guard body fuel s = some x := by
  induction fuel generalizing s with
  | zero => omega
  | succ fuel ih =>
    by_cases hg : guard s = true
    · obtain ⟨f, hf, hdec⟩ := hbody s hs hg
      cases f with
      | next s' =>
        obtain ⟨hI, hlt⟩ := hdec s' rfl
        obtain ⟨x, hx⟩ := ih hI (by omega)
        exact ⟨x, by simpa [whileLoop, hg, hf] using hx⟩
      | leave s' => exact ⟨.done s', by simp [whileLoop, hg, hf]⟩
      | raise e s' => exact ⟨.raised e s', by simp [whileLoop, hg, hf]⟩
    · exact ⟨.done s, by simp [whileLoop, hg]⟩

end PkuyoProxy.Lib
