import Mathlib.Data.Set.Insert
import Mathlib.Logic.Function.Basic
import Mathlib.Order.BooleanAlgebra.Set
import Mathlib.Tactic.Common

/-!
# Handles that stored objects own

A table holds the handles that are open.  Some belong to nobody (`base`), every other one is owned
by exactly one object of a store (`Accounts`).  Storing an object with handles that were opened for
it, and removing an object together with its handles, keep the account; so nothing is left open
when the store is empty.
-/

set_option autoImplicit false

namespace PkuyoProxy.Lib

variable {κ ν η : Type}

/-- The handles that the stored objects own. -/
def owned (handles : ν → List η) (store : κ → Option ν) : Set η :=
  {x | ∃ k v, store k = some v ∧ x ∈ handles v}

/-- What is open is the base and what the objects own, and each handle has one owner. -/
structure Accounts (handles : ν → List η) (base : Set η) (store : κ → Option ν) (table : Set η) :
    Prop where
  table : table = base ∪ owned handles store
  apart : ∀ x ∈ owned handles store, x ∉ base
  nodup : ∀ k v, store k = some v → (handles v).Nodup
  unique : ∀ k k' v v' x, store k = some v → store k' = some v' → x ∈ handles v →
    x ∈ handles v' → k = k'

variable {handles : ν → List η} {base table : Set η} {store : κ → Option ν}

/-- A store without entries owns nothing. -/
theorem owned_empty : owned handles (fun _ : κ => (none : Option ν)) = ∅ := by
  ext x
  simp [owned]

/-- With an empty store the table is the base. -/
theorem accounts_empty (base : Set η) :
    Accounts handles base (fun _ : κ => (none : Option ν)) base :=
  ⟨by rw [owned_empty, Set.union_empty], by simp [owned_empty], by simp, by simp⟩

/-- Nothing is left open behind the last object. -/
theorem Accounts.eq_base (h : Accounts handles base store table) (hnone : ∀ k, store k = none) :
    table = base := by
  rw [h.table, funext hnone, owned_empty, Set.union_empty]

/-- A handle of an entry is in the table. -/
theorem Accounts.mem_of_owned (h : Accounts handles base store table) {k : κ} {v : ν} {x : η}
    (hk : store k = some v) (hx : x ∈ handles v) : x ∈ table := by
  rw [h.table]
  exact .inr ⟨k, v, hk, hx⟩

section Changes

variable [DecidableEq κ] {k : κ} {v : ν}

/-- A new entry adds its own handles to what is owned. -/
theorem owned_insert (hk : store k = none) (v : ν) :
    owned handles (Function.update store k (some v)) =
      owned handles store ∪ {x | x ∈ handles v} := by
  ext x
  constructor
  · rintro ⟨k', v', hk', hx⟩
    by_cases hkk : k' = k
    · rw [hkk, Function.update_self] at hk'
      cases hk'
      exact .inr hx
    · rw [Function.update_of_ne hkk] at hk'
      exact .inl ⟨k', v', hk', hx⟩
  · rintro (⟨k', v', hk', hx⟩ | hx)
    · have hkk : k' ≠ k := by
        rintro rfl
        rw [hk] at hk'
        cases hk'
      exact ⟨k', v', by rwa [Function.update_of_ne hkk], hx⟩
    · exact ⟨k, v, Function.update_self _ _ _, hx⟩

/-- An object is stored with the handles that were opened for it. -/
theorem Accounts.insert (h : Accounts handles base store table) (hk : store k = none)
    (hnodup : (handles v).Nodup) (hfresh : ∀ x ∈ handles v, x ∉ table) :
    Accounts handles base (Function.update store k (some v)) (table ∪ {x | x ∈ handles v}) := by
  have hnew (k' : κ) (v' : ν) (x : η) (hk' : store k' = some v') (hx : x ∈ handles v) :
      x ∉ handles v' := fun hx' => hfresh x hx (h.mem_of_owned hk' hx')
  refine ⟨by rw [owned_insert hk, h.table, Set.union_assoc], ?_, ?_, ?_⟩
  · rw [owned_insert hk]
    rintro x (hx | hx) hbase
    · exact h.apart x hx hbase
    · exact hfresh x hx (h.table ▸ .inl hbase)
  · intro k' v' hk'
    by_cases hkk : k' = k
    · rw [hkk, Function.update_self] at hk'
      cases hk'
      exact hnodup
    · rw [Function.update_of_ne hkk] at hk'
      exact h.nodup k' v' hk'
  · intro k₁ k₂ v₁ v₂ x h₁ h₂ hx₁ hx₂
    by_cases hk₁ : k₁ = k
    · rw [hk₁, Function.update_self] at h₁
      cases h₁
      by_cases hk₂ : k₂ = k
      · exact hk₁.trans hk₂.symm
      · rw [Function.update_of_ne hk₂] at h₂
        exact absurd hx₂ (hnew k₂ v₂ x h₂ hx₁)
    · rw [Function.update_of_ne hk₁] at h₁
      by_cases hk₂ : k₂ = k
      · rw [hk₂, Function.update_self] at h₂
        cases h₂
        exact absurd hx₁ (hnew k₁ v₁ x h₁ hx₂)
      · rw [Function.update_of_ne hk₂] at h₂
        exact h.unique k₁ k₂ v₁ v₂ x h₁ h₂ hx₁ hx₂

/-- A removed entry takes its own handles with it and no others, as no two entries share one. -/
theorem Accounts.owned_remove (h : Accounts handles base store table) (hk : store k = some v) :
    owned handles (Function.update store k none) =
      owned handles store \ {x | x ∈ handles v} := by
  ext x
  constructor
  · rintro ⟨k', v', hk', hx⟩
    have hkk : k' ≠ k := by
      rintro rfl
      rw [Function.update_self] at hk'
      cases hk'
    rw [Function.update_of_ne hkk] at hk'
    exact ⟨⟨k', v', hk', hx⟩, fun hx' => hkk (h.unique k' k v' v x hk' hk hx hx')⟩
  · rintro ⟨⟨k', v', hk', hx⟩, hnot⟩
    have hkk : k' ≠ k := by
      rintro rfl
      rw [hk] at hk'
      cases hk'
      exact hnot hx
    exact ⟨k', v', by rwa [Function.update_of_ne hkk], hx⟩

/-- An object is removed, and its handles are closed. -/
theorem Accounts.remove (h : Accounts handles base store table) (hk : store k = some v) :
    Accounts handles base (Function.update store k none) (table \ {x | x ∈ handles v}) := by
  have howned := h.owned_remove hk
  have hold (k' : κ) (v' : ν) (hk' : Function.update store k none k' = some v') :
      store k' = some v' := by
    by_cases hkk : k' = k
    · rw [hkk, Function.update_self] at hk'
      cases hk'
    · rwa [Function.update_of_ne hkk] at hk'
  refine ⟨?_, ?_, ?_, ?_⟩
  · rw [howned, h.table, Set.union_sdiff_distrib]
    congr 1
    ext x
    refine ⟨And.left, fun hx => ⟨hx, fun hx' => h.apart x ⟨k, v, hk, hx'⟩ hx⟩⟩
  · intro x hx
    rw [howned] at hx
    exact h.apart x hx.1
  · exact fun k' v' hk' => h.nodup k' v' (hold k' v' hk')
  · intro k₁ k₂ v₁ v₂ x h₁ h₂ hx₁ hx₂
    exact h.unique k₁ k₂ v₁ v₂ x (hold k₁ v₁ h₁) (hold k₂ v₂ h₂) hx₁ hx₂

end Changes

end PkuyoProxy.Lib
