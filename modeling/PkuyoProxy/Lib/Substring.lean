import Mathlib.Data.List.Basic
import Mathlib.Data.List.Infix

/-!
# First occurrence of a pattern in a list

`find pat s` is the position of the first occurrence of `pat` in `s`.  A found
occurrence does not move when the list grows (`find_append`), and every prefix that
stops short of its end contains none (`find_take_of_lt`): a reader that waits for a
delimiter therefore sees the same delimiter however the input arrives.
-/

set_option autoImplicit false

namespace PkuyoProxy.Lib

variable {α : Type} [DecidableEq α]

/-- The position of the first occurrence of `pat`. -/
def find (pat : List α) : List α → Option ℕ
  | [] => if pat = [] then some 0 else none
  | x :: s => if pat <+: x :: s then some 0 else (find pat s).map (· + 1)

/-- A found position is an occurrence, and the first one. -/
theorem find_eq_some_iff (pat s : List α) (e : ℕ) :
    find pat s = some e ↔
      e ≤ s.length ∧ pat <+: s.drop e ∧ ∀ k < e, ¬ pat <+: s.drop k := by
  induction s generalizing e with
  | nil =>
    by_cases hp : pat = []
    · constructor
      · intro h
        have he : e = 0 := by simpa [find, hp] using h.symm
        simp [he, hp]
      · rintro ⟨hle, -, -⟩
        have he : e = 0 := by simpa using hle
        simp [find, hp, he]
    · simp [find, hp]
  | cons x s ih =>
    by_cases hp : pat <+: x :: s
    · constructor
      · intro h
        have he : e = 0 := by simpa [find, hp] using h.symm
        subst he
        simpa using hp
      · rintro ⟨-, -, hfirst⟩
        have he : e = 0 := by
          by_contra hne
          exact hfirst 0 (by omega) (by simpa using hp)
        simp [find, hp, he]
    · cases e with
      | zero => simp [find, hp]
      | succ e =>
        have hstep : find pat (x :: s) = some (e + 1) ↔ find pat s = some e := by
          simp [find, hp]
        rw [hstep, ih]
        constructor
        · rintro ⟨hle, hpre, hfirst⟩
          refine ⟨by simpa using hle, by simpa using hpre, ?_⟩
          rintro (_ | k) hk
          · simpa using hp
          · simpa using hfirst k (by omega)
        · rintro ⟨hle, hpre, hfirst⟩
          refine ⟨by simpa using hle, by simpa using hpre, ?_⟩
          intro k hk
          simpa using hfirst (k + 1) (by omega)

/-- A pattern is found at the start exactly if the text begins with it. -/
theorem find_eq_zero_iff (pat s : List α) : find pat s = some 0 ↔ pat <+: s := by
  rw [find_eq_some_iff]
  simp

/-- A pattern is not found exactly if it occurs nowhere. -/
theorem find_eq_none_iff (pat s : List α) : find pat s = none ↔ ¬ pat <:+: s := by
  induction s with
  | nil => simp [find]
  | cons x s ih =>
    by_cases hp : pat <+: x :: s
    · simp [find, List.infix_cons_iff, hp]
    · simp [find, List.infix_cons_iff, hp, ih]

/-- A found occurrence does not move when the list grows. -/
theorem find_append {pat s : List α} {e : ℕ} (t : List α) (h : find pat s = some e) :
    find pat (s ++ t) = some e := by
  obtain ⟨hle, hpre, hfirst⟩ := (find_eq_some_iff pat s e).mp h
  refine (find_eq_some_iff pat (s ++ t) e).mpr ⟨by simp; omega, ?_, ?_⟩
  · rw [List.drop_append_of_le_length hle]
    exact hpre.trans (List.prefix_append _ _)
  · intro k hk hk'
    rw [List.drop_append_of_le_length (by omega)] at hk'
    refine hfirst k hk (List.prefix_of_prefix_length_le hk' (List.prefix_append _ _) ?_)
    have := hpre.length_le
    simp only [List.length_drop] at this ⊢
    omega

/-- What is not found in a text is not found in its beginning. -/
theorem find_eq_none_of_append {pat s t : List α} (h : find pat (s ++ t) = none) :
    find pat s = none := by
  cases hs : find pat s with
  | none => rfl
  | some e => rw [find_append t hs] at h; cases h

/-- The list around its first occurrence. -/
theorem take_append_drop_of_find {pat s : List α} {e : ℕ} (h : find pat s = some e) :
    s.take e ++ pat ++ s.drop (e + pat.length) = s := by
  obtain ⟨-, hpre, -⟩ := (find_eq_some_iff pat s e).mp h
  obtain ⟨t, ht⟩ := hpre
  have hdrop : s.drop (e + pat.length) = t := by
    rw [← List.drop_drop, ← ht, List.drop_left]
  rw [hdrop, List.append_assoc, ht, List.take_append_drop]

/-- An occurrence lies within the text. -/
theorem find_add_length_le {pat s : List α} {e : ℕ} (h : find pat s = some e) :
    e + pat.length ≤ s.length := by
  obtain ⟨hle, hpre, -⟩ := (find_eq_some_iff pat s e).mp h
  have := hpre.length_le
  rw [List.length_drop] at this
  omega

/-- The prefix that ends with the occurrence already shows it. -/
theorem find_take_of_le {pat s : List α} {e n : ℕ} (h : find pat s = some e)
    (hn : e + pat.length ≤ n) : find pat (s.take n) = some e := by
  obtain ⟨hle, hpre, hfirst⟩ := (find_eq_some_iff pat s e).mp h
  have hlen := find_add_length_le h
  refine (find_eq_some_iff pat (s.take n) e).mpr ⟨by simp; omega, ?_, ?_⟩
  · rw [List.drop_take]
    exact (List.prefix_take_iff).mpr ⟨hpre, by omega⟩
  · intro k hk hk'
    rw [List.drop_take] at hk'
    exact hfirst k hk (hk'.trans (List.take_prefix _ _))

/-- A prefix that stops before the end of the occurrence shows nothing. -/
theorem find_take_of_lt {pat s : List α} {e n : ℕ} (h : find pat s = some e)
    (hn : n < e + pat.length) : find pat (s.take n) = none := by
  cases ht : find pat (s.take n) with
  | none => rfl
  | some k =>
    have hk := find_append (s.drop n) ht
    rw [List.take_append_drop, h] at hk
    have hle := find_add_length_le ht
    rw [List.length_take] at hle
    cases hk
    omega

/-- When the last element completes the first occurrence, that occurrence is at the end. -/
theorem find_concat {pat acc : List α} {x : α} {e : ℕ} (hacc : find pat acc = none)
    (h : find pat (acc ++ [x]) = some e) : e + pat.length = acc.length + 1 := by
  have hle := find_add_length_le h
  by_contra hne
  rw [List.length_append, List.length_singleton] at hle
  have := find_take_of_le h (n := acc.length) (by omega)
  rw [List.take_left, hacc] at this
  cases this

/-- A delimiter that first occurs at the end of `h ++ pat` delimits `h` in every
continuation. -/
theorem find_delimited {pat h : List α} (hh : find pat (h ++ pat) = some h.length)
    (t : List α) : find pat (h ++ pat ++ t) = some h.length :=
  find_append t hh

/-- A pattern of one element is not found exactly if it is no element of the text. -/
theorem find_singleton_eq_none {x : α} {s : List α} : find [x] s = none ↔ x ∉ s :=
  (find_eq_none_iff [x] s).trans (not_congr (List.singleton_infix_iff x s))

/-- The first occurrence of an element is behind what does not contain it. -/
theorem find_singleton {x : α} {l : List α} (h : x ∉ l) (t : List α) :
    find [x] (l ++ x :: t) = some l.length := by
  induction l with
  | nil => simp [find]
  | cons y l ih =>
    obtain ⟨hy, hl⟩ : x ≠ y ∧ x ∉ l := by simpa using h
    simp [find, hy, ih hl]

/-- A list has one cut at the first occurrence of a symbol. -/
theorem append_cons_unique {x : α} {a b a' b' : List α} (ha : x ∉ a) (ha' : x ∉ a')
    (h : a ++ x :: b = a' ++ x :: b') : a = a' ∧ b = b' := by
  have hfind := find_singleton ha b
  rw [h, find_singleton ha' b'] at hfind
  obtain ⟨heq, hcons⟩ := List.append_inj h (Option.some.inj hfind).symm
  exact ⟨heq, List.cons_inj_right x |>.mp hcons⟩

end PkuyoProxy.Lib
