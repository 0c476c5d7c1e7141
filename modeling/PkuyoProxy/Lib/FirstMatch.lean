import Mathlib.Data.List.ReduceOption
import Mathlib.Data.Nat.Notation
import Mathlib.Tactic.Common

/-!
# The first entry of a list that matches

A pass over a list that remembers the first match of a partial function, with its position,
and keeps it from then on (`foldl_firstMatch`); and what replacing that entry does to the
list of all matches: its head is exchanged (`filterMap_set_first`).
-/

set_option autoImplicit false

namespace PkuyoProxy.Lib

variable {α β γ σ : Type} {g : α → Option β}

/-- The first match of `g` and its position, the first position being `k`. -/
def firstMatch (g : α → Option β) (k : ℕ) (l : List α) : Option (ℕ × β) :=
  (l.zipIdx k).findSome? fun entry => (g entry.1).map (entry.2, ·)

/-- The first match of a list is at its head, or the first one of its tail. -/
theorem firstMatch_cons (k : ℕ) (x : α) (l : List α) :
    firstMatch g k (x :: l) = ((g x).map (k, ·)).or (firstMatch g (k + 1) l) := by
  unfold firstMatch
  rw [List.zipIdx_cons, List.findSome?_cons]
  cases g x <;> rfl

/-- Nothing matches exactly if the list of all matches is empty. -/
theorem firstMatch_eq_none_iff {k : ℕ} {l : List α} :
    firstMatch g k l = none ↔ l.filterMap g = [] := by
  induction l generalizing k with
  | nil => simp [firstMatch]
  | cons x l ih =>
    rw [firstMatch_cons]
    cases hx : g x with
    | none => simp [hx, ih]
    | some v => simp [hx]

/-- Nothing in front of the first match matches. -/
theorem exists_of_firstMatch {k i : ℕ} {l : List α} {v : β}
    (h : firstMatch g k l = some (i, v)) :
    ∃ pre post, l.map g = pre ++ some v :: post ∧ (∀ x ∈ pre, x = none) ∧ i = k + pre.length := by
  induction l generalizing k with
  | nil => cases h
  | cons x l ih =>
    rw [firstMatch_cons] at h
    cases hx : g x with
    | none =>
      rw [hx] at h
      obtain ⟨pre, post, hl, hpre, hi⟩ := ih h
      refine ⟨none :: pre, post, by simp [hx, hl], by simpa using hpre, ?_⟩
      rw [hi, List.length_cons]
      omega
    | some w =>
      rw [hx] at h
      cases h
      exact ⟨[], l.map g, by simp [hx], by simp, rfl⟩

/-- **A fold that keeps something of the first match finds it.** -/
theorem foldl_firstMatch {step : σ → α × ℕ → σ} {kept : σ → Option γ} {f : ℕ × β → γ}
    (hstep : ∀ s entry, kept (step s entry) =
      (kept s).or (((g entry.1).map (entry.2, ·)).map f)) (s : σ) (k : ℕ) (l : List α) :
    kept ((l.zipIdx k).foldl step s) = (kept s).or ((firstMatch g k l).map f) := by
  induction l generalizing s k with
  | nil => simp [firstMatch]
  | cons x l ih =>
    rw [List.zipIdx_cons, List.foldl_cons, ih, hstep, firstMatch_cons, Option.or_assoc]
    cases g x <;> rfl

/-- A list without values is empty once it is reduced. -/
theorem reduceOption_eq_nil {l : List (Option β)} (h : ∀ x ∈ l, x = none) :
    l.reduceOption = [] := by
  rw [List.eq_replicate_of_mem h]
  exact List.reduceOption_replicate_none

/-- The matches are what is left of the images of all the elements. -/
theorem filterMap_eq_reduceOption (l : List α) : l.filterMap g = (l.map g).reduceOption := by
  rw [List.reduceOption, List.filterMap_map, Function.id_comp]

/-- **Replacing the first match exchanges the head of the list of matches.** -/
theorem filterMap_set_first {l : List α} {pre post : List (Option β)} {v w : β} {x : α}
    (hl : l.map g = pre ++ some v :: post) (hpre : ∀ y ∈ pre, y = none) (hx : g x = some w) :
    l.filterMap g = v :: post.reduceOption ∧
      (l.set pre.length x).filterMap g = w :: post.reduceOption := by
  have hnil := reduceOption_eq_nil hpre
  constructor
  · rw [filterMap_eq_reduceOption, hl, List.reduceOption_append, hnil]
    rfl
  · rw [filterMap_eq_reduceOption, List.map_set, hl, hx,
      List.set_append_right _ _ (Nat.le_refl _), Nat.sub_self, List.set_cons_zero,
      List.reduceOption_append, hnil]
    rfl

/-- A map that changes matching elements only leaves a list without matches as it is. -/
theorem map_eq_self_of_no_match {f : α → α} (hf : ∀ x, g x = none → f x = x) {l : List α}
    (h : l.filterMap g = []) : l.map f = l := by
  rw [List.map_congr_left fun x hx => hf x (List.filterMap_eq_nil_iff.mp h x hx), List.map_id']

/-- **Replacing the only match is a map** that leaves alone what does not match. -/
theorem set_only_match {f : α → α} (hf : ∀ x, g x = none → f x = x) {k i : ℕ} {l : List α} {v : β}
    (h : firstMatch g k l = some (i, v)) (hone : (l.filterMap g).length ≤ 1) :
    ∃ y, l[i - k]? = some y ∧ g y = some v ∧ l.set (i - k) (f y) = l.map f := by
  induction l generalizing k with
  | nil => cases h
  | cons x l ih =>
    rw [firstMatch_cons] at h
    cases hx : g x with
    | none =>
      rw [hx] at h
      rw [List.filterMap_cons_none hx] at hone
      have hfirst : firstMatch g (k + 1) l = some (i, v) := h
      obtain ⟨pre, post, -, -, hi⟩ := exists_of_firstMatch hfirst
      obtain ⟨y, hget, hy, hset⟩ := ih hfirst hone
      have hsucc : i - k = i - (k + 1) + 1 := by omega
      refine ⟨y, by rw [hsucc]; exact hget, hy, ?_⟩
      rw [hsucc, List.set_cons_succ, hset, List.map_cons, hf x hx]
    | some w =>
      rw [hx] at h
      cases h
      rw [List.filterMap_cons_some hx, List.length_cons] at hone
      have hnil : l.filterMap g = [] := List.length_eq_zero_iff.mp (by omega)
      refine ⟨x, by simp, hx, ?_⟩
      rw [Nat.sub_self, List.set_cons_zero, List.map_cons, map_eq_self_of_no_match hf hnil]

/-- Replacing an entry by one with the same image changes no image. -/
theorem map_set_same {f : α → γ} {l : List α} {i : ℕ} {x : α}
    (h : ∀ y, l[i]? = some y → f y = f x) : (l.set i x).map f = l.map f := by
  induction l generalizing i with
  | nil => rfl
  | cons y l ih =>
    cases i with
    | zero => simp [h y rfl]
    | succ i => simpa using ih h

end PkuyoProxy.Lib
