import Mathlib.Data.Set.Card
import PkuyoProxy.Lib.SecondaryIndex

/-!
# How many records of a store have a property

The keys under which a store holds a record with a property (`holding`) change by one key when a
record is stored or removed.  An index of the store bounds their number by the number of values
its attribute can take (`Indexes.ncard_holding_le`).
-/

set_option autoImplicit false

namespace PkuyoProxy.Lib

variable {κ ν α : Type} {store : κ → Option ν} {p p' : κ → ν → Prop}

/-- The keys of the stored records with the property. -/
def holding (store : κ → Option ν) (p : κ → ν → Prop) : Set κ := {k | ∃ v, store k = some v ∧ p k v}

/-- The store holds finitely many records. -/
def FiniteStore (store : κ → Option ν) : Prop := (holding store fun _ _ => True).Finite

/-- The keys that hold a value with a property are among those that hold one. -/
theorem holding_subset (p : κ → ν → Prop) : holding store p ⊆ holding store fun _ _ => True := by
  rintro k ⟨v, hv, -⟩
  exact ⟨v, hv, trivial⟩

/-- Only finitely many keys of a finite store hold a value with a property. -/
theorem FiniteStore.holding (h : FiniteStore store) (p : κ → ν → Prop) : (holding store p).Finite :=
  h.subset (holding_subset p)

/-- The empty store is finite. -/
theorem finiteStore_empty : FiniteStore (fun _ : κ => (none : Option ν)) := by
  have hempty : Lib.holding (fun _ : κ => (none : Option ν)) (fun _ _ => True) = ∅ := by
    ext k
    simp [Lib.holding]
  rw [FiniteStore, hempty]
  exact Set.finite_empty

section Changes

variable [DecidableEq κ] {k : κ} {v : ν}

/-- A record with the property is stored under a free key. -/
theorem holding_store (hk : store k = none) (hv : p' k v)
    (hsame : ∀ k', k' ≠ k → ∀ v', p' k' v' ↔ p k' v') :
    holding (Function.update store k (some v)) p' = insert k (holding store p) := by
  ext k'
  by_cases hkk : k' = k
  · subst hkk
    simp [holding, hv]
  · simp [holding, hkk, hsame k' hkk]

/-- A record without the property is stored. -/
theorem holding_store_not (hk : store k = none) (hv : ¬ p' k v)
    (hsame : ∀ k', k' ≠ k → ∀ v', p' k' v' ↔ p k' v') :
    holding (Function.update store k (some v)) p' = holding store p := by
  ext k'
  by_cases hkk : k' = k
  · subst hkk
    simp [holding, hv, hk]
  · simp [holding, hkk, hsame k' hkk]

/-- A removed entry leaves the set of the keys, and no other one does. -/
theorem holding_remove : holding (Function.update store k none) p = holding store p \ {k} := by
  ext k'
  by_cases hkk : k' = k
  · subst hkk
    simp [holding]
  · simp [holding, hkk]

/-- A record with the property takes the place of one without it, or is stored under a free
key. -/
theorem holding_put (hk : k ∉ holding store p) (hv : p k v) :
    holding (Function.update store k (some v)) p = insert k (holding store p) := by
  ext k'
  by_cases hkk : k' = k
  · subst hkk
    simp [holding, hv]
  · simp [holding, hkk]

/-- A new value without the property leaves the set as it is. -/
theorem holding_put_not (hk : k ∉ holding store p) (hv : ¬ p k v) :
    holding (Function.update store k (some v)) p = holding store p := by
  ext k'
  by_cases hkk : k' = k
  · subst hkk
    refine iff_of_false ?_ hk
    simp [holding, hv]
  · simp [holding, hkk]

omit [DecidableEq κ] in
/-- A key without a value is not in the set. -/
theorem not_mem_holding (hk : store k = none) : k ∉ holding store p := by
  rintro ⟨v, hv, -⟩
  rw [hk] at hv
  cases hv

/-- A finite store with one more entry is finite. -/
theorem FiniteStore.insert (h : FiniteStore store) (hk : store k = none) (v : ν) :
    FiniteStore (Function.update store k (some v)) := by
  rw [FiniteStore, holding_store hk trivial fun _ _ _ => Iff.rfl]
  exact Set.Finite.insert k h

/-- A finite store with one entry fewer is finite. -/
theorem FiniteStore.remove (h : FiniteStore store) (k : κ) :
    FiniteStore (Function.update store k none) := by
  rw [FiniteStore, holding_remove]
  exact h.subset Set.sdiff_subset

/-- One more record. -/
theorem ncard_store (h : FiniteStore store) (hk : store k = none) (hv : p' k v)
    (hsame : ∀ k', k' ≠ k → ∀ v', p' k' v' ↔ p k' v') :
    (holding (Function.update store k (some v)) p').ncard = (holding store p).ncard + 1 := by
  rw [holding_store hk hv hsame]
  exact Set.ncard_insert_of_notMem (not_mem_holding hk) (h.holding p)

/-- One record less. -/
theorem ncard_remove (h : FiniteStore store) (hk : store k = some v) (hv : p k v) :
    (holding (Function.update store k none) p).ncard + 1 = (holding store p).ncard := by
  rw [holding_remove]
  exact Set.ncard_sdiff_singleton_add_one ⟨v, hk, hv⟩ (h.holding p)

/-- Removing a value without the property leaves the set as it is. -/
theorem holding_remove_not (hk : store k = some v) (hv : ¬ p k v) :
    holding (Function.update store k none) p = holding store p := by
  rw [holding_remove]
  apply Set.sdiff_singleton_eq_self
  rintro ⟨v', hv', hp⟩
  rw [hk] at hv'
  cases hv'
  exact hv hp

end Changes

/-- The attribute of an index tells the records apart. -/
theorem Indexes.ncard_holding_le {attr : ν → α} {index : α → Option κ}
    (h : Indexes (fun v => some (attr v)) store index) {values : Set α} (hfinite : values.Finite)
    (hvalues : ∀ k v, store k = some v → attr v ∈ values) (p : κ → ν → Prop) :
    (holding store p).ncard ≤ values.ncard := by
  rw [← Set.ncard_image_of_injective values (Option.some_injective α)]
  refine Set.ncard_le_ncard_of_injOn (fun k => (store k).map attr) ?_ ?_ (hfinite.image _)
  · rintro k ⟨v, hv, -⟩
    exact ⟨attr v, hvalues k v hv, by simp [hv]⟩
  · rintro k ⟨v, hv, -⟩ k' ⟨v', hv', -⟩ hsame
    have hattr : attr v' = attr v := by simpa [hv, hv', eq_comm] using hsame
    exact h.key_unique hv rfl hv' (congrArg some hattr)

end PkuyoProxy.Lib
