import Mathlib.Data.List.Forall2
import Mathlib.Data.List.Infix
import Mathlib.Tactic.Common

/-!
# Runs of a system whose steps can fail

A system takes one step for each input, and a step can fail.  `EveryState` says that a run
never fails and that a property holds in each of its states, `EveryStep` that each input
meets a condition in the state it arrives in.  `everyState_iff` turns facts about single
steps into an equivalence between the two.  Where failing is not at issue, `EveryReached` and
`EveryTaken` speak of the states that are reached and the steps that are taken.
-/

set_option autoImplicit false

namespace PkuyoProxy.Lib

variable {ε σ ι : Type}

/-- A sequence of two computations succeeds exactly if the first one does and the second one does
on its result. -/
theorem bind_eq_ok_iff {α β : Type} {x : Except ε α} {f : α → Except ε β} {b : β} :
    x >>= f = .ok b ↔ ∃ a, x = .ok a ∧ f a = .ok b := by
  cases x with
  | error e => simp [bind, Except.bind]
  | ok a => simp [bind, Except.bind]

/-- Renaming the errors leaves the successes as they are. -/
@[simp] theorem mapError_eq_ok_iff {ε' α : Type} {f : ε → ε'} {x : Except ε α} {a : α} :
    x.mapError f = .ok a ↔ x = .ok a := by
  cases x with
  | error e => simp [Except.mapError]
  | ok b => simp [Except.mapError]

/-- Each result of a successful traversal comes from the element at its place. -/
theorem mapM_eq_ok {α β : Type} {f : α → Except ε β} {l : List α} {ys : List β}
    (h : l.mapM f = .ok ys) {i : ℕ} {y : β} (hy : ys[i]? = some y) :
    ∃ x, l[i]? = some x ∧ f x = .ok y := by
  induction l generalizing ys i with
  | nil =>
    cases h
    simp at hy
  | cons x l ih =>
    rw [List.mapM_cons, bind_eq_ok_iff] at h
    obtain ⟨b, hb, hrest⟩ := h
    obtain ⟨bs, hbs, hys⟩ := bind_eq_ok_iff.mp hrest
    cases hys
    cases i with
    | zero => exact ⟨x, rfl, by simpa [hb] using hy⟩
    | succ i => exact ih hbs hy

/-- Mapping succeeds with results related to the inputs exactly when it does on each input. -/
theorem exists_mapM_ok_iff {α β : Type} {f : α → Except ε β} {R : α → β → Prop} {l : List α} :
    (∃ ys, l.mapM f = .ok ys ∧ List.Forall₂ R l ys) ↔ ∀ x ∈ l, ∃ y, f x = .ok y ∧ R x y := by
  induction l with
  | nil => exact ⟨fun _ x hx => absurd hx (by simp), fun _ => ⟨[], rfl, .nil⟩⟩
  | cons x l ih =>
    rw [List.forall_mem_cons, ← ih]
    constructor
    · rintro ⟨ys, hmap, hrel⟩
      rw [List.mapM_cons] at hmap
      obtain ⟨y, hy, hmap⟩ := bind_eq_ok_iff.mp hmap
      obtain ⟨ys', hys, hmap⟩ := bind_eq_ok_iff.mp hmap
      cases hmap
      obtain ⟨hR, hrest⟩ := List.forall₂_cons.mp hrel
      exact ⟨⟨y, hy, hR⟩, ys', hys, hrest⟩
    · rintro ⟨⟨y, hy, hR⟩, ys, hys, hrest⟩
      refine ⟨y :: ys, ?_, hrest.cons hR⟩
      rw [List.mapM_cons, hy, hys]
      rfl

/-- A list is related to the indices in front of its length. -/
theorem forall₂_range_iff {β : Type} {R : ℕ → β → Prop} {n : ℕ} {ys : List β} :
    List.Forall₂ R (List.range n) ys ↔
      n = ys.length ∧ ∀ (i : ℕ) (y : β), ys[i]? = some y → R i y := by
  rw [List.forall₂_iff_get]
  constructor
  · rintro ⟨hn, hget⟩
    rw [List.length_range] at hn
    refine ⟨hn, fun i y hy => ?_⟩
    obtain ⟨hlt, rfl⟩ := List.getElem?_eq_some_iff.mp hy
    have hi := hget i (by rw [List.length_range]; omega) hlt
    rwa [List.get_eq_getElem, List.getElem_range] at hi
  · rintro ⟨hn, hall⟩
    refine ⟨by rwa [List.length_range], fun i hi hlt => ?_⟩
    rw [List.get_eq_getElem, List.getElem_range]
    exact hall i _ (List.getElem?_eq_getElem hlt)

variable (step : σ → ι → Except ε σ)

/-- The state after a sequence of inputs. -/
def runSteps (s : σ) (inputs : List ι) : Except ε σ := inputs.foldlM step s

/-- No step of the run fails, and `P` holds in all its states. -/
def EveryState (P : σ → Prop) (s : σ) (inputs : List ι) : Prop :=
  ∀ pre, pre <+: inputs → ∃ s', runSteps step s pre = .ok s' ∧ P s'

/-- Each input meets `Q` in the state it arrives in. -/
def EveryStep (Q : σ → ι → Prop) (s : σ) (inputs : List ι) : Prop :=
  ∀ pre i, pre ++ [i] <+: inputs → ∀ s', runSteps step s pre = .ok s' → Q s' i

/-- `P` holds in every state the run reaches. -/
def EveryReached (P : σ → Prop) (s : σ) (inputs : List ι) : Prop :=
  ∀ pre, pre <+: inputs → ∀ s', runSteps step s pre = .ok s' → P s'

/-- Each input whose step is taken meets `Q`. -/
def EveryTaken (Q : σ → ι → Prop) (s : σ) (inputs : List ι) : Prop :=
  EveryStep step (fun s i => ∀ s', step s i = .ok s' → Q s i) s inputs

variable {step}

/-- The run without inputs stays where it starts. -/
@[simp] theorem runSteps_nil (s : σ) : runSteps step s [] = .ok s := rfl

/-- One more input at the end of a run is one more step. -/
theorem runSteps_concat {s s' : σ} {inputs : List ι} (h : runSteps step s inputs = .ok s') (i : ι) :
    runSteps step s (inputs ++ [i]) = step s' i := by
  unfold runSteps at h ⊢
  rw [List.foldlM_append, h]
  exact bind_pure (step s' i)

/-- A run takes its first step and goes on from there. -/
theorem runSteps_cons {s s' : σ} {i : ι} (h : step s i = .ok s') (inputs : List ι) :
    runSteps step s (i :: inputs) = runSteps step s' inputs := by
  unfold runSteps
  rw [List.foldlM_cons, h]
  rfl

/-- Two runs behind each other are one. -/
theorem runSteps_append {s s' : σ} {inputs : List ι} (h : runSteps step s inputs = .ok s')
    (rest : List ι) : runSteps step s (inputs ++ rest) = runSteps step s' rest := by
  unfold runSteps at h ⊢
  rw [List.foldlM_append, h]
  rfl

/-- **A run succeeds exactly when each of its inputs is good**, and then ends with the
invariant, if good inputs keep the invariant and the others fail where it holds. -/
theorem runSteps_ok_iff {Inv : σ → Prop} {Q : ι → Prop}
    (hkeep : ∀ s i, Inv s → Q i → ∃ s', step s i = .ok s' ∧ Inv s')
    (hfail : ∀ s i s', Inv s → ¬ Q i → step s i ≠ .ok s') {s : σ} (hs : Inv s)
    (inputs : List ι) :
    ((∃ s', runSteps step s inputs = .ok s') ↔ ∀ i ∈ inputs, Q i) ∧
      ∀ s', runSteps step s inputs = .ok s' → Inv s' := by
  induction inputs generalizing s with
  | nil =>
    refine ⟨by simp, ?_⟩
    intro s' h
    cases h
    exact hs
  | cons i inputs ih =>
    rw [List.forall_mem_cons]
    by_cases hQ : Q i
    · obtain ⟨s₁, hstep, hinv⟩ := hkeep s i hs hQ
      obtain ⟨hiff, hend⟩ := ih hinv
      rw [runSteps_cons hstep, hiff]
      exact ⟨⟨fun h => ⟨hQ, h⟩, And.right⟩, hend⟩
    · have hno (s' : σ) : runSteps step s (i :: inputs) ≠ .ok s' := by
        intro hrun
        obtain ⟨s₁, hstep, -⟩ := bind_eq_ok_iff.mp hrun
        exact hfail s i s₁ hs hQ hstep
      exact ⟨⟨fun ⟨s', h⟩ => absurd h (hno s'), fun h => absurd h.1 hQ⟩,
        fun s' h => absurd h (hno s')⟩

/-- A run ends with the invariant if each of its steps keeps it. -/
theorem runSteps_keeps {Inv : σ → Prop} {inputs : List ι}
    (hkeep : ∀ s, ∀ i ∈ inputs, ∀ s', Inv s → step s i = .ok s' → Inv s') {s s' : σ} (hs : Inv s)
    (hrun : runSteps step s inputs = .ok s') : Inv s' := by
  induction inputs generalizing s with
  | nil =>
    cases hrun
    exact hs
  | cons i inputs ih =>
    obtain ⟨s₁, hstep, hrest⟩ := bind_eq_ok_iff.mp hrun
    exact ih (fun s j hj => hkeep s j (by simp [hj])) (hkeep s i (by simp) s₁ hs hstep) hrest

/-- A run over consecutive numbers, the state in front of each of them being known. -/
theorem runSteps_range' {step : σ → ℕ → Except ε σ} (state : ℕ → σ) (a n : ℕ)
    (h : ∀ k < n, step (state k) (a + k) = .ok (state (k + 1))) :
    runSteps step (state 0) (List.range' a n) = .ok (state n) := by
  induction n with
  | zero => rfl
  | succ n ih =>
    have hrun := ih fun k hk => h k (by omega)
    rw [List.range'_1_concat, runSteps_concat hrun]
    exact h n (by omega)

/-- If every state that a run may reach has a property, then the run succeeds and its last state
has it. -/
theorem EveryState.run {P : σ → Prop} {s : σ} {inputs : List ι}
    (h : EveryState step P s inputs) : ∃ s', runSteps step s inputs = .ok s' ∧ P s' :=
  h inputs List.prefix_rfl

/-- Every step of a longer run is one of the shorter run, or the last one. -/
theorem everyStep_concat {Q : σ → ι → Prop} {s : σ} {inputs : List ι} {i : ι} :
    EveryStep step Q s (inputs ++ [i]) ↔ EveryStep step Q s inputs ∧
      ∀ s', runSteps step s inputs = .ok s' → Q s' i := by
  constructor
  · intro h
    exact ⟨fun pre j hpre => h pre j (hpre.trans (List.prefix_append _ _)),
      h inputs i List.prefix_rfl⟩
  · rintro ⟨h, hlast⟩ pre j hpre
    rcases List.prefix_concat_iff.mp hpre with heq | hpre
    · obtain ⟨rfl, hj⟩ := List.append_inj' heq rfl
      cases hj
      exact hlast
    · exact h pre j hpre

/-- Every step of a run is its first one, or one of the rest. -/
theorem everyStep_cons {Q : σ → ι → Prop} {s : σ} {i : ι} {inputs : List ι} :
    EveryStep step Q s (i :: inputs) ↔
      Q s i ∧ ∀ s', step s i = .ok s' → EveryStep step Q s' inputs := by
  constructor
  · intro h
    refine ⟨h [] i ⟨inputs, rfl⟩ s rfl, fun s' hstep pre j hpre s'' hrun => ?_⟩
    apply h (i :: pre) j ((List.prefix_cons_inj i).mpr hpre)
    rwa [runSteps_cons hstep]
  · rintro ⟨hfirst, hrest⟩ pre j hpre s'' hrun
    cases pre with
    | nil =>
      obtain ⟨rfl, -⟩ := List.cons_prefix_cons.mp hpre
      cases hrun
      exact hfirst
    | cons i' pre =>
      obtain ⟨rfl, htail⟩ := List.cons_prefix_cons.mp hpre
      obtain ⟨s', hstep, hrun⟩ := bind_eq_ok_iff.mp hrun
      exact hrest s' hstep pre j htail s'' hrun

/-- A weaker condition on the steps holds as well. -/
theorem EveryStep.mono {Q Q' : σ → ι → Prop} {s : σ} {inputs : List ι}
    (h : EveryStep step Q s inputs) (himp : ∀ s i, Q s i → Q' s i) :
    EveryStep step Q' s inputs :=
  fun pre i hpre s' hrun => himp s' i (h pre i hpre s' hrun)

/-- The run without inputs takes no step. -/
theorem everyStep_nil {Q : σ → ι → Prop} {s : σ} : EveryStep step Q s [] := by
  intro pre i hpre
  exact absurd (List.prefix_nil.mp hpre) (by simp)

/-- A condition on the inputs alone. -/
theorem everyStep_of_mem {Q : σ → ι → Prop} {s : σ} {inputs : List ι}
    (h : ∀ i ∈ inputs, ∀ s', Q s' i) : EveryStep step Q s inputs :=
  fun _ i hpre s' _ => h i (hpre.subset (by simp)) s'

/-- A successful run with one more input is a successful run and a successful step. -/
theorem runSteps_concat_eq_ok {s s' : σ} {inputs : List ι} {i : ι}
    (h : runSteps step s (inputs ++ [i]) = .ok s') :
    ∃ s₁, runSteps step s inputs = .ok s₁ ∧ step s₁ i = .ok s' := by
  cases hrun : runSteps step s inputs with
  | error e =>
    unfold runSteps at h hrun
    rw [List.foldlM_append, hrun] at h
    cases h
  | ok s₁ => exact ⟨s₁, rfl, runSteps_concat hrun i ▸ h⟩

/-- The states that a longer run reaches are those of the shorter one and its last one. -/
theorem everyReached_concat {P : σ → Prop} {s : σ} {inputs : List ι} {i : ι} :
    EveryReached step P s (inputs ++ [i]) ↔ EveryReached step P s inputs ∧
      ∀ s', runSteps step s (inputs ++ [i]) = .ok s' → P s' := by
  constructor
  · intro h
    exact ⟨fun pre hpre => h pre (hpre.trans (List.prefix_append _ _)),
      h (inputs ++ [i]) List.prefix_rfl⟩
  · rintro ⟨h, hlast⟩ pre hpre
    rcases List.prefix_concat_iff.mp hpre with rfl | hpre
    · exact hlast
    · exact h pre hpre

/-- What holds in every state that is reached holds behind every step. -/
theorem EveryReached.everyTaken {P : σ → Prop} {s : σ} {inputs : List ι}
    (h : EveryReached step P s inputs) :
    EveryStep step (fun s i => ∀ s', step s i = .ok s' → P s') s inputs := by
  intro pre i hpre s₁ hrun s₂ hstep
  exact h (pre ++ [i]) hpre s₂ ((runSteps_concat hrun i).trans hstep)

/-- **Property and condition are equivalent along what is reached** when, from a state with the
invariant, a taken step that meets the condition keeps the invariant and one that does not
breaks the property. -/
theorem everyReached_iff {Inv P : σ → Prop} {Legal Q : σ → ι → Prop}
    (hP : ∀ s, Inv s → P s)
    (hkeep : ∀ s i s', Inv s → Legal s i → Q s i → step s i = .ok s' → Inv s')
    (hbreak : ∀ s i s', Inv s → Legal s i → ¬ Q s i → step s i = .ok s' → ¬ P s')
    {s : σ} (hs : Inv s) {inputs : List ι} (hlegal : EveryStep step Legal s inputs) :
    EveryReached step P s inputs ↔ EveryTaken step Q s inputs := by
  suffices h : (EveryReached step P s inputs ∨ EveryTaken step Q s inputs) →
      EveryReached step P s inputs ∧ EveryTaken step Q s inputs ∧
        ∀ s', runSteps step s inputs = .ok s' → Inv s' from
    ⟨fun hreached => (h (.inl hreached)).2.1, fun htaken => (h (.inr htaken)).1⟩
  induction inputs using List.reverseRecOn with
  | nil =>
    intro _
    have hend (s' : σ) (hrun : runSteps step s [] = .ok s') : Inv s' := by
      cases hrun
      exact hs
    refine ⟨?_, everyStep_nil, hend⟩
    intro pre hpre s' hrun
    rw [List.prefix_nil.mp hpre] at hrun
    exact hP s' (hend s' hrun)
  | append_singleton inputs i ih =>
    intro h
    obtain ⟨hlegal', hlegali⟩ := everyStep_concat.mp hlegal
    obtain ⟨hreached, htaken, hinv⟩ := ih hlegal'
      (h.imp (fun h => (everyReached_concat.mp h).1) (fun h => (everyStep_concat.mp h).1))
    -- the last input meets the condition if its step is taken, by either hypothesis
    have hQ (s₁ : σ) (hrun : runSteps step s inputs = .ok s₁) (s₂ : σ)
        (hstep : step s₁ i = .ok s₂) : Q s₁ i := by
      rcases h with h | h
      · by_contra hnot
        apply hbreak s₁ i s₂ (hinv s₁ hrun) (hlegali s₁ hrun) hnot hstep
        exact (everyReached_concat.mp h).2 s₂ ((runSteps_concat hrun i).trans hstep)
      · exact (everyStep_concat.mp h).2 s₁ hrun s₂ hstep
    have hend (s₂ : σ) (hrun : runSteps step s (inputs ++ [i]) = .ok s₂) : Inv s₂ := by
      obtain ⟨s₁, hrun₁, hstep⟩ := runSteps_concat_eq_ok hrun
      exact hkeep s₁ i s₂ (hinv s₁ hrun₁) (hlegali s₁ hrun₁) (hQ s₁ hrun₁ s₂ hstep) hstep
    exact ⟨everyReached_concat.mpr ⟨hreached, fun s₂ hrun => hP s₂ (hend s₂ hrun)⟩,
      everyStep_concat.mpr ⟨htaken, hQ⟩, hend⟩

/-- What holds in every state of a run that succeeds holds in every state it reaches. -/
theorem EveryState.reached {P : σ → Prop} {s : σ} {inputs : List ι}
    (h : EveryState step P s inputs) : EveryReached step P s inputs := by
  intro pre hpre s' hrun
  obtain ⟨s₁, hrun₁, hP⟩ := h pre hpre
  rw [hrun] at hrun₁
  cases hrun₁
  exact hP

/-- No step of a run fails if, from a state with the invariant, a step that meets the condition
succeeds and keeps it. -/
theorem EveryStep.succeeds {Inv : σ → Prop} {Q : σ → ι → Prop}
    (hkeep : ∀ s i, Inv s → Q s i → ∃ s', step s i = .ok s' ∧ Inv s') {s : σ} (hs : Inv s)
    {inputs : List ι} (h : EveryStep step Q s inputs) : EveryState step Inv s inputs := by
  intro pre hpre
  induction pre using List.reverseRecOn with
  | nil => exact ⟨s, rfl, hs⟩
  | append_singleton pre i ih =>
    obtain ⟨s₁, hrun, hinv⟩ := ih ((List.prefix_append _ _).trans hpre)
    obtain ⟨s₂, hstep, hinv₂⟩ := hkeep s₁ i hinv (h pre i hpre s₁ hrun)
    exact ⟨s₂, (runSteps_concat hrun i).trans hstep, hinv₂⟩

/-- **Property and condition are equivalent along runs** when, from a state with the
invariant, a step that meets the condition keeps the invariant and a step that does not
breaks the property. -/
theorem everyState_iff {Inv P : σ → Prop} {Legal Q : σ → ι → Prop}
    (hP : ∀ s, Inv s → P s)
    (hkeep : ∀ s i, Inv s → Legal s i → Q s i → ∃ s', step s i = .ok s' ∧ Inv s')
    (hbreak : ∀ s i s', Inv s → Legal s i → ¬ Q s i → step s i = .ok s' → ¬ P s')
    {s : σ} (hs : Inv s) {inputs : List ι} (hlegal : EveryStep step Legal s inputs) :
    EveryState step P s inputs ↔ EveryStep step Q s inputs := by
  constructor
  · intro hstate pre i hpre s₁ hrun
    have hkeep' (s : σ) (i : ι) (s' : σ) (hinv : Inv s) (hl : Legal s i) (hQ : Q s i)
        (hstep : step s i = .ok s') : Inv s' := by
      obtain ⟨s₂, hstep₂, hinv₂⟩ := hkeep s i hinv hl hQ
      rw [hstep] at hstep₂
      cases hstep₂
      exact hinv₂
    have htaken := (everyReached_iff hP hkeep' hbreak hs hlegal).mp hstate.reached
    obtain ⟨s₂, hrun₂, -⟩ := hstate (pre ++ [i]) hpre
    exact htaken pre i hpre s₁ hrun s₂ ((runSteps_concat hrun i).symm.trans hrun₂)
  · intro hstep pre hpre
    have hboth : EveryStep step (fun s i => Legal s i ∧ Q s i) s inputs := fun pre i hpre s' hrun =>
      ⟨hlegal pre i hpre s' hrun, hstep pre i hpre s' hrun⟩
    obtain ⟨s', hrun, hinv⟩ := hboth.succeeds (fun s i hinv hq => hkeep s i hinv hq.1 hq.2) hs pre
      hpre
    exact ⟨s', hrun, hP s' hinv⟩

/-- An invariant that every legal step keeps holds in every state that is reached. -/
theorem everyReached_inv {Inv : σ → Prop} {Legal : σ → ι → Prop}
    (hkeep : ∀ s i s', Inv s → Legal s i → step s i = .ok s' → Inv s') {s : σ} (hs : Inv s)
    {inputs : List ι} (hlegal : EveryStep step Legal s inputs) : EveryReached step Inv s inputs :=
  (everyReached_iff (fun _ h => h) (fun s i s' h hl _ => hkeep s i s' h hl)
    (fun _ _ _ _ _ hnot => absurd trivial hnot) hs hlegal).mpr fun _ _ _ _ _ _ _ => trivial

/-- Conditions on steps that are equivalent under an invariant are so along a run. -/
theorem EveryReached.everyStep_iff {Inv : σ → Prop} {s : σ} {inputs : List ι}
    (hinv : EveryReached step Inv s inputs) {Q Q' : σ → ι → Prop}
    (h : ∀ s i, Inv s → (Q s i ↔ Q' s i)) :
    EveryStep step Q s inputs ↔ EveryStep step Q' s inputs := by
  have hstate (pre : List ι) (i : ι) (hpre : pre ++ [i] <+: inputs) (s' : σ)
      (hrun : runSteps step s pre = .ok s') : Inv s' :=
    hinv pre ((List.prefix_append _ _).trans hpre) s' hrun
  constructor
  · intro hQ pre i hpre s' hrun
    exact (h s' i (hstate pre i hpre s' hrun)).mp (hQ pre i hpre s' hrun)
  · intro hQ pre i hpre s' hrun
    exact (h s' i (hstate pre i hpre s' hrun)).mpr (hQ pre i hpre s' hrun)

/-- The conditions on two runs behind each other make one. -/
theorem EveryStep.append {Q : σ → ι → Prop} {s s' : σ} {inputs rest : List ι}
    (h : EveryStep step Q s inputs) (hrun : runSteps step s inputs = .ok s')
    (hrest : EveryStep step Q s' rest) : EveryStep step Q s (inputs ++ rest) := by
  induction inputs generalizing s with
  | nil =>
    cases hrun
    exact hrest
  | cons i inputs ih =>
    obtain ⟨s₁, hstep, hrun⟩ := bind_eq_ok_iff.mp hrun
    obtain ⟨hfirst, hlater⟩ := everyStep_cons.mp h
    refine everyStep_cons.mpr ⟨hfirst, fun s₂ hs₂ => ?_⟩
    rw [hstep] at hs₂
    cases hs₂
    exact ih (hlater s₁ hstep) hrun

/-! ## Simulation -/

/-- A run whose steps meet `Q` leads from `s` to `s'`. -/
def Attains (step : σ → ι → Except ε σ) (Q : σ → ι → Prop) (s s' : σ) : Prop :=
  ∃ inputs, EveryStep step Q s inputs ∧ runSteps step s inputs = .ok s'

/-- A state is attained from itself by the run without inputs. -/
theorem Attains.refl {Q : σ → ι → Prop} (s : σ) : Attains step Q s s := ⟨[], everyStep_nil, rfl⟩

/-- What is attained from an attained state is attained. -/
theorem Attains.trans {Q : σ → ι → Prop} {s s' s'' : σ} (h : Attains step Q s s')
    (h' : Attains step Q s' s'') : Attains step Q s s'' := by
  obtain ⟨inputs, hsteps, hrun⟩ := h
  obtain ⟨rest, hsteps', hrun'⟩ := h'
  exact ⟨inputs ++ rest, hsteps.append hrun hsteps', (runSteps_append hrun rest).trans hrun'⟩

/-- One step that meets the condition attains its result. -/
theorem Attains.single {Q : σ → ι → Prop} {s s' : σ} {i : ι} (hQ : Q s i)
    (hstep : step s i = .ok s') : Attains step Q s s' :=
  ⟨[i], everyStep_cons.mpr ⟨hQ, fun _ _ => everyStep_nil⟩, runSteps_cons hstep []⟩

/-- **Forward simulation**: what every step is matched by, every run is matched by. -/
theorem EveryStep.simulated {ε' τ κ : Type} {step' : τ → κ → Except ε' τ} {Q : σ → ι → Prop}
    {Q' : τ → κ → Prop} {R : σ → τ → Prop}
    (hsim : ∀ s i s' t, R s t → Q s i → step s i = .ok s' →
      ∃ t', R s' t' ∧ Attains step' Q' t t') {s s' : σ} {t : τ} (hR : R s t) {inputs : List ι}
    (h : EveryStep step Q s inputs) (hrun : runSteps step s inputs = .ok s') :
    ∃ t', R s' t' ∧ Attains step' Q' t t' := by
  induction inputs generalizing s t with
  | nil =>
    cases hrun
    exact ⟨t, hR, .refl t⟩
  | cons i inputs ih =>
    obtain ⟨s₁, hstep, hrest⟩ := bind_eq_ok_iff.mp hrun
    obtain ⟨hfirst, hlater⟩ := everyStep_cons.mp h
    obtain ⟨t₁, hR₁, hmoves⟩ := hsim s i s₁ t hR hfirst hstep
    obtain ⟨t', hR', hmoves'⟩ := ih hR₁ (hlater s₁ hstep) hrest
    exact ⟨t', hR', hmoves.trans hmoves'⟩

/-! ## Batches -/

/-- A run over batches is a run over their inputs. -/
theorem runSteps_batches (s : σ) (batches : List (List ι)) :
    runSteps (runSteps step) s batches = runSteps step s batches.flatten := by
  induction batches generalizing s with
  | nil => rfl
  | cons batch batches ih =>
    unfold runSteps at ih ⊢
    rw [List.foldlM_cons, List.flatten_cons, List.foldlM_append]
    cases hfirst : batch.foldlM step s with
    | error e => rfl
    | ok s₁ => exact ih s₁

/-- What holds in every state holds behind every batch. -/
theorem EveryReached.batches {P : σ → Prop} {s : σ} {batches : List (List ι)}
    (h : EveryReached step P s batches.flatten) : EveryReached (runSteps step) P s batches := by
  rintro pre ⟨rest, rfl⟩ s' hrun
  apply h pre.flatten ⟨rest.flatten, by rw [List.flatten_append]⟩ s'
  rwa [← runSteps_batches]

end PkuyoProxy.Lib
