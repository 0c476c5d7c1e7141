import Mathlib.Logic.Function.Basic
import Mathlib.Tactic.Common

/-!
# Secondary indexes

A store maps keys to records, and some records have an attribute.  An index of the attribute
maps each attribute that occurs to the key of its record (`Indexes`).  Storing and removing a
record keep the index when the index is updated with the store; a record without the
attribute needs no update.
-/

set_option autoImplicit false

namespace PkuyoProxy.Lib

variable {κ ν α : Type} [DecidableEq κ] [DecidableEq α]

/-- `index` maps the attribute of every stored record to the record's key, and nothing
else. -/
def Indexes (attr : ν → Option α) (store : κ → Option ν) (index : α → Option κ) : Prop :=
  ∀ a k, index a = some k ↔ ∃ v, store k = some v ∧ attr v = some a

variable {attr : ν → Option α} {store : κ → Option ν} {index : α → Option κ}

omit [DecidableEq κ] [DecidableEq α] in
/-- An empty index is one of the empty store. -/
theorem indexes_empty : Indexes attr (fun _ : κ => none) (fun _ : α => none) := by
  simp [Indexes]

omit [DecidableEq κ] [DecidableEq α] in
/-- Two entries with one attribute are at one key. -/
theorem Indexes.key_unique (h : Indexes attr store index) {a : α} {k k' : κ} {v v' : ν}
    (hk : store k = some v) (hv : attr v = some a) (hk' : store k' = some v')
    (hv' : attr v' = some a) : k = k' := by
  have h1 := (h a k).mpr ⟨v, hk, hv⟩
  have h2 := (h a k').mpr ⟨v', hk', hv'⟩
  rw [h1] at h2
  exact Option.some.inj h2

/-- Storing a record whose attribute is not in use, under a free key. -/
theorem Indexes.insert (h : Indexes attr store index) {k : κ} (hk : store k = none) {v : ν} {a : α}
    (hv : attr v = some a) (ha : index a = none) :
    Indexes attr (Function.update store k (some v)) (Function.update index a (some k)) := by
  intro b k'
  by_cases hb : b = a
  · subst hb
    by_cases hkk : k' = k
    · subst hkk
      simp [hv]
    · have hnone : ¬ ∃ v', store k' = some v' ∧ attr v' = some b := by
        rw [← h b k', ha]
        simp
      simpa [hkk, Ne.symm hkk] using hnone
  · by_cases hkk : k' = k
    · subst hkk
      have hnone : index b ≠ some k' := by
        intro hidx
        obtain ⟨v', hv', -⟩ := (h b k').mp hidx
        rw [hk] at hv'
        cases hv'
      simp [hb, hnone, hv, Ne.symm hb]
    · simpa [hb, hkk] using h b k'

omit [DecidableEq α] in
/-- Storing a record without the attribute, under a free key. -/
theorem Indexes.insert_none (h : Indexes attr store index) {k : κ} (hk : store k = none) {v : ν}
    (hv : attr v = none) : Indexes attr (Function.update store k (some v)) index := by
  intro b k'
  by_cases hkk : k' = k
  · subst hkk
    have hnone : index b ≠ some k' := by
      intro hidx
      obtain ⟨v', hv', -⟩ := (h b k').mp hidx
      rw [hk] at hv'
      cases hv'
    simp [hnone, hv]
  · simpa [hkk] using h b k'

/-- Removing a record together with its entry. -/
theorem Indexes.remove (h : Indexes attr store index) {k : κ} {v : ν} (hk : store k = some v)
    {a : α} (hv : attr v = some a) :
    Indexes attr (Function.update store k none) (Function.update index a none) := by
  intro b k'
  by_cases hb : b = a
  · subst hb
    by_cases hkk : k' = k
    · subst hkk
      simp
    · have hnone : ¬ ∃ v', store k' = some v' ∧ attr v' = some b := by
        rintro ⟨v', hk', hv'⟩
        exact hkk (h.key_unique hk' hv' hk hv)
      simpa [hkk] using hnone
  · by_cases hkk : k' = k
    · subst hkk
      have hnone : index b ≠ some k' := by
        intro hidx
        obtain ⟨v', hk', hv'⟩ := (h b k').mp hidx
        rw [hk] at hk'
        cases hk'
        rw [hv] at hv'
        exact hb (Option.some.inj hv').symm
      simp [hb, hnone]
    · simpa [hb, hkk] using h b k'

omit [DecidableEq α] in
/-- Removing a record without the attribute. -/
theorem Indexes.remove_none (h : Indexes attr store index) {k : κ} {v : ν} (hk : store k = some v)
    (hv : attr v = none) : Indexes attr (Function.update store k none) index := by
  intro b k'
  by_cases hkk : k' = k
  · subst hkk
    have hnone : index b ≠ some k' := by
      intro hidx
      obtain ⟨v', hk', hv'⟩ := (h b k').mp hidx
      rw [hk] at hk'
      cases hk'
      rw [hv] at hv'
      cases hv'
    simp [hnone]
  · simpa [hkk] using h b k'

end PkuyoProxy.Lib
