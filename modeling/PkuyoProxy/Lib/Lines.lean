import PkuyoProxy.Lib.Substring
import Mathlib.Tactic.Common

/-!
# Lines with a two-symbol terminator

Texts made of lines that each end with the terminator `[a, b]`, `a ≠ b`.  Splitting
undoes joining (`splitLines_joinLines`), every text that ends with the terminator is such
a join (`exists_joinLines`), and the first blank line of a block of lines is its last one
exactly when no line after the first is empty (`find_blank_iff`).
-/

set_option autoImplicit false

namespace PkuyoProxy.Lib

section Basic

variable {α : Type}

/-- Every line followed by the terminator. -/
def joinLines (d : List α) (ls : List (List α)) : List α := ls.flatMap (· ++ d)

/-- No lines make no text. -/
@[simp] theorem joinLines_nil (d : List α) : joinLines d [] = [] := rfl

/-- The first line and its separator stand in front of the text of the others. -/
@[simp] theorem joinLines_cons (d l : List α) (ls : List (List α)) :
    joinLines d (l :: ls) = l ++ (d ++ joinLines d ls) := by
  simp [joinLines]

/-- The text of two lists of lines is that of the first followed by that of the second. -/
theorem joinLines_append (d : List α) (ls ms : List (List α)) :
    joinLines d (ls ++ ms) = joinLines d ls ++ joinLines d ms := by
  simp [joinLines]

end Basic

variable {α : Type} [DecidableEq α]

/-- Cut at the terminator `d` until nothing is left, at most `fuel` times. -/
def splitLinesAux (d : List α) : ℕ → List α → List (List α)
  | 0, _ => []
  | fuel + 1, s =>
    if s = [] then []
    else match find d s with
      | none => [s]
      | some e => s.take e :: splitLinesAux d fuel (s.drop (e + d.length))

/-- The pieces of `s` between terminators; a rest without terminator is the last piece. -/
def splitLines (d s : List α) : List (List α) := splitLinesAux d s.length s

variable {a b : α}

omit [DecidableEq α] in
/-- A terminator that starts at the head of `x :: l` lies in it, or is cut by its end. -/
theorem not_prefix_of_not_isInfix (hab : a ≠ b) {x : α} {l : List α} (t u : List α)
    (h : ¬ [a, b] <:+: x :: l) : ¬ (a :: b :: u) <+: x :: (l ++ a :: t) := by
  intro hp
  obtain ⟨hx, hrest⟩ := List.cons_prefix_cons.mp hp
  cases l with
  | nil => exact hab (List.cons_prefix_cons.mp hrest).1.symm
  | cons y l =>
    obtain ⟨hy, -⟩ := List.cons_prefix_cons.mp hrest
    exact h ⟨[], l, by simp [hx, hy]⟩

/-- Behind a line without a separator, the first separator is the one that ends it. -/
theorem find_line (hab : a ≠ b) {l : List α} (h : ¬ [a, b] <:+: l) (t : List α) :
    find [a, b] (l ++ a :: b :: t) = some l.length := by
  induction l with
  | nil => simp [find]
  | cons x l ih =>
    have htail := ih fun hi => h (List.infix_cons hi)
    have hp := not_prefix_of_not_isInfix hab (b :: t) [] h
    simp [find, hp, htail]

/-- Searching two terminators in a row behind a line: either the line is followed by a
blank one, or the search goes on in the next line. -/
theorem find_double (hab : a ≠ b) {l : List α} (h : ¬ [a, b] <:+: l) (t : List α) :
    find [a, b, a, b] (l ++ a :: b :: t) =
      if [a, b] <+: t then some l.length
      else (find [a, b, a, b] t).map (· + (l.length + 2)) := by
  induction l with
  | nil =>
    by_cases hp : [a, b] <+: t
    · simp [find, hp]
    · have hb : ¬ [a, b, a, b] <+: b :: t := fun hq => hab (List.cons_prefix_cons.mp hq).1
      have ha : ¬ [a, b, a, b] <+: a :: b :: t := by
        simpa only [List.cons_prefix_cons, true_and] using hp
      rw [List.nil_append, find, if_neg ha, find, if_neg hb, if_neg hp, Option.map_map]
      rfl
  | cons x l ih =>
    have htail := ih fun hi => h (List.infix_cons hi)
    have hp := not_prefix_of_not_isInfix hab (b :: t) [a, b] h
    rw [List.cons_append, find, if_neg hp, htail]
    split
    · simp
    · simp only [Option.map_map, Function.comp_def, List.length_cons]
      congr 1

/-- Splitting the text of lines without separators gives the lines back, with fuel for its length.
-/
theorem splitLinesAux_joinLines (hab : a ≠ b) {ls : List (List α)}
    (h : ∀ l ∈ ls, ¬ [a, b] <:+: l) {fuel : ℕ} (hfuel : (joinLines [a, b] ls).length ≤ fuel) :
    splitLinesAux [a, b] fuel (joinLines [a, b] ls) = ls := by
  induction ls generalizing fuel with
  | nil => cases fuel <;> simp [splitLinesAux]
  | cons l ls ih =>
    obtain ⟨m, rfl⟩ : ∃ m, fuel = m + 1 := ⟨fuel - 1, by simp at hfuel; omega⟩
    have hl := find_line hab (h l (by simp)) (joinLines [a, b] ls)
    have hrest : (joinLines [a, b] ls).length ≤ m := by
      simp at hfuel
      omega
    have htail := ih (fun l' hl' => h l' (by simp [hl'])) hrest
    have hdrop : (l ++ a :: b :: joinLines [a, b] ls).drop (l.length + 2) =
        joinLines [a, b] ls := by
      rw [← List.drop_drop, List.drop_left]
      rfl
    simp [splitLinesAux, hl, hdrop, htail]

/-- **Splitting undoes joining.** -/
theorem splitLines_joinLines (hab : a ≠ b) {ls : List (List α)}
    (h : ∀ l ∈ ls, ¬ [a, b] <:+: l) : splitLines [a, b] (joinLines [a, b] ls) = ls :=
  splitLinesAux_joinLines hab h le_rfl

/-- Every text that ends with the terminator consists of terminated lines. -/
theorem exists_joinLines (a b : α) (s : List α) :
    ∃ l ls, (∀ l' ∈ l :: ls, ¬ [a, b] <:+: l') ∧ s ++ [a, b] = joinLines [a, b] (l :: ls) := by
  induction hn : s.length using Nat.strong_induction_on generalizing s with
  | _ n ih =>
    by_cases hs : [a, b] <:+: s
    · cases hf : find [a, b] s with
      | none => exact absurd hs ((find_eq_none_iff _ _).mp hf)
      | some e =>
        have hsplit := take_append_drop_of_find hf
        have hlen := find_add_length_le hf
        obtain ⟨l, ls, hls, heq⟩ := ih (s.drop (e + 2)).length
          (by simp only [List.length_drop, List.length_cons, List.length_nil] at hlen ⊢; omega)
          (s.drop (e + 2)) rfl
        refine ⟨s.take e, l :: ls, ?_, ?_⟩
        · intro l' hl'
          rcases List.mem_cons.mp hl' with rfl | hl'
          · exact (find_eq_none_iff _ _).mp (find_take_of_lt hf (by simp))
          · exact hls l' hl'
        · rw [joinLines_cons, ← heq]
          conv_lhs => rw [← hsplit]
          simp
    · exact ⟨s, [], by simpa using hs, by simp⟩

/-- The first blank line of a block of lines is the one that ends it exactly when no line
after the first is empty. -/
theorem find_blank_iff (hab : a ≠ b) {l : List α} {ls : List (List α)}
    (h : ∀ l' ∈ l :: ls, ¬ [a, b] <:+: l') :
    find [a, b, a, b] (joinLines [a, b] (l :: ls) ++ [a, b]) =
        some ((joinLines [a, b] (l :: ls)).length - 2) ↔
      ∀ l' ∈ ls, l' ≠ [] := by
  induction ls generalizing l with
  | nil =>
    have hl := find_double hab (h l (by simp)) [a, b]
    simp [hl]
  | cons r ls ih =>
    have hl := find_double hab (h l (by simp)) (r ++ a :: b :: (joinLines [a, b] ls ++ [a, b]))
    have hr : ¬ [a, b] <:+: r := h r (by simp)
    have hih := ih (l := r) fun l' hl' => h l' (List.mem_cons_of_mem _ hl')
    simp only [joinLines_cons, List.cons_append, List.nil_append, List.append_assoc] at hl hih ⊢
    rw [hl]
    by_cases hnil : r = []
    · subst hnil
      simp
      omega
    · have hp : ¬ [a, b] <+: r ++ a :: b :: (joinLines [a, b] ls ++ [a, b]) := by
        cases r with
        | nil => exact absurd rfl hnil
        | cons x r => simpa using not_prefix_of_not_isInfix hab _ [] hr
      rw [if_neg hp]
      rw [show (∀ l' ∈ r :: ls, l' ≠ []) ↔ ∀ l' ∈ ls, l' ≠ [] by simp [hnil], ← hih]
      simp only [Option.map_eq_some_iff, List.length_append, List.length_cons]
      constructor
      · rintro ⟨k, hk, hk'⟩
        rw [hk]
        congr 1
        omega
      · intro hk
        exact ⟨_, hk, by omega⟩

omit [DecidableEq α] in
/-- Two texts without the terminator, joined where no terminator can straddle. -/
theorem not_infix_append {l r : List α} (hl : ¬ [a, b] <:+: l) (hr : ¬ [a, b] <:+: r)
    (hj : l.getLast? ≠ some a ∨ r.head? ≠ some b) : ¬ [a, b] <:+: l ++ r := by
  induction l with
  | nil => simpa using hr
  | cons x l ih =>
    have htail : ¬ [a, b] <:+: l ++ r := by
      apply ih (fun hi => hl (List.infix_cons hi))
      cases l with
      | nil => simp
      | cons y l => simpa using hj
    intro hi
    rw [List.cons_append, List.infix_cons_iff] at hi
    rcases hi with hp | hi
    · obtain ⟨hx, hrest⟩ := List.cons_prefix_cons.mp hp
      cases l with
      | nil =>
        cases r with
        | nil => simp at hrest
        | cons y r =>
          obtain ⟨hy, -⟩ := List.cons_prefix_cons.mp hrest
          simp [hx, hy] at hj
      | cons y l =>
        obtain ⟨hy, -⟩ := List.cons_prefix_cons.mp hrest
        exact hl ⟨[], l, by simp [hx, hy]⟩
    · exact htail hi

end PkuyoProxy.Lib
