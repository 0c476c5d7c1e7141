import Mathlib.Data.List.Infix
import Mathlib.Tactic.Common

/-!
# Paths as texts and as lists of components

The text of a path is every component with a separator in front of it.  Below a directory are
the paths whose components begin with the directory's (`below_text_iff`).  A path whose text
merely begins with the directory's text may also lie below a sibling whose last component
extends that of the directory (`prefix_text_iff`).
-/

set_option autoImplicit false

namespace PkuyoProxy.Lib

variable {α : Type}

/-- Every component behind a separator. -/
def pathText (sep : α) (path : List (List α)) : List α := path.flatMap (sep :: ·)

/-- `path` lies at or below a directory that differs from `dir` in its last component only,
which properly extends that of `dir`. -/
def BesideExtension (dir path : List (List α)) : Prop :=
  ∃ parent name ext rest, dir = parent ++ [name] ∧ path = parent ++ (name ++ ext) :: rest ∧ ext ≠ []

variable {sep : α}

/-- The path without names has no text. -/
@[simp] theorem pathText_nil : pathText sep ([] : List (List α)) = [] := rfl

/-- Each name of a path stands behind a separator. -/
@[simp] theorem pathText_cons (name : List α) (path : List (List α)) :
    pathText sep (name :: path) = sep :: (name ++ pathText sep path) := by
  simp [pathText]

/-- The text of a path is empty or begins with a separator. -/
theorem pathText_eq_nil_or (sep : α) (path : List (List α)) :
    pathText sep path = [] ∨ ∃ t, pathText sep path = sep :: t := by
  cases path with
  | nil => exact .inl rfl
  | cons name path => exact .inr ⟨_, pathText_cons name path⟩

/-- A component followed by a separator that begins a path's text is its first component. -/
theorem eq_of_prefix_sep {x y s t : List α} (hx : sep ∉ x) (hy : sep ∉ y)
    (ht : t = [] ∨ ∃ t', t = sep :: t') (h : x ++ sep :: s <+: y ++ t) :
    x = y ∧ sep :: s <+: t := by
  induction x generalizing y with
  | nil =>
    cases y with
    | nil => exact ⟨rfl, h⟩
    | cons b y =>
      obtain ⟨hb, -⟩ := List.cons_prefix_cons.mp h
      exact absurd (by simp [hb]) hy
  | cons a x ih =>
    cases y with
    | nil =>
      rcases ht with rfl | ⟨t', rfl⟩
      · simp at h
      · obtain ⟨ha, -⟩ := List.cons_prefix_cons.mp h
        exact absurd (by simp [ha]) hx
    | cons b y =>
      obtain ⟨hab, hrest⟩ := List.cons_prefix_cons.mp h
      obtain ⟨hxy, hst⟩ := ih (fun hm => hx (by simp [hm])) (fun hm => hy (by simp [hm])) hrest
      exact ⟨by rw [hab, hxy], hst⟩

/-- A component that begins a path's text begins its first component. -/
theorem prefix_append_iff {x y t : List α} (hx : sep ∉ x) (ht : t = [] ∨ ∃ t', t = sep :: t') :
    x <+: y ++ t ↔ x <+: y := by
  constructor
  · intro h
    rcases List.prefix_or_prefix_of_prefix h (List.prefix_append y t) with hle | ⟨z, rfl⟩
    · exact hle
    · have hz : z <+: t := (List.prefix_append_right_inj y).mp h
      rcases ht with rfl | ⟨t', rfl⟩
      · simp [List.prefix_nil.mp hz]
      · cases z with
        | nil => simp
        | cons a z =>
          obtain ⟨ha, -⟩ := List.cons_prefix_cons.mp hz
          exact absurd (by simp [ha]) hx
  · intro h
    exact h.trans (List.prefix_append y t)

/-- A path is beside a directory of one name if its first name is a longer one that begins alike. -/
theorem besideExtension_singleton (name name' : List α) (path : List (List α)) :
    BesideExtension [name] (name' :: path) ↔ name <+: name' ∧ name ≠ name' := by
  constructor
  · rintro ⟨parent, name₀, ext, rest, hdir, hpath, hext⟩
    cases parent with
    | nil =>
      obtain ⟨rfl⟩ : name = name₀ := by simpa using hdir
      obtain ⟨rfl, -⟩ : name' = name ++ ext ∧ path = rest := by simpa using hpath
      exact ⟨List.prefix_append name ext, by simpa using hext⟩
    | cons d parent => simp at hdir
  · rintro ⟨⟨ext, rfl⟩, hne⟩
    exact ⟨[], name, ext, path, rfl, rfl, by simpa using hne⟩

/-- Beside a longer directory the first names agree, and the rest is beside the rest. -/
theorem besideExtension_cons {dir : List (List α)} (hdir : dir ≠ []) (name name' : List α)
    (path : List (List α)) :
    BesideExtension (name :: dir) (name' :: path) ↔ name = name' ∧ BesideExtension dir path := by
  constructor
  · rintro ⟨parent, name₀, ext, rest, hd, hp, hext⟩
    cases parent with
    | nil =>
      obtain ⟨-, rfl⟩ : name = name₀ ∧ dir = [] := by simpa using hd
      exact absurd rfl hdir
    | cons d parent =>
      obtain ⟨rfl, rfl⟩ : name = d ∧ dir = parent ++ [name₀] := by simpa using hd
      obtain ⟨rfl, rfl⟩ : name' = name ∧ path = parent ++ (name₀ ++ ext) :: rest := by
        simpa using hp
      exact ⟨rfl, parent, name₀, ext, rest, rfl, rfl, hext⟩
  · rintro ⟨rfl, parent, name₀, ext, rest, rfl, rfl, hext⟩
    exact ⟨name :: parent, name₀, ext, rest, rfl, rfl, hext⟩

/-- The empty path is beside no directory. -/
theorem not_besideExtension_nil (dir : List (List α)) : ¬ BesideExtension dir [] := by
  rintro ⟨parent, name, ext, rest, -, hpath, -⟩
  simp at hpath

/-- **The text of a path begins with the text of a directory if and only if the path is below
the directory, or below a sibling whose last component extends the directory's.** -/
theorem prefix_text_iff {dir path : List (List α)} (hdir : dir ≠ [])
    (hd : ∀ name ∈ dir, sep ∉ name) (hp : ∀ name ∈ path, sep ∉ name) :
    pathText sep dir <+: pathText sep path ↔ dir <+: path ∨ BesideExtension dir path := by
  induction dir generalizing path with
  | nil => exact absurd rfl hdir
  | cons name dir ih =>
    cases path with
    | nil => simp [not_besideExtension_nil]
    | cons name' path =>
      have hname : sep ∉ name := hd name (by simp)
      have hname' : sep ∉ name' := hp name' (by simp)
      rw [pathText_cons, pathText_cons, List.cons_prefix_cons, List.cons_prefix_cons,
        eq_self_iff_true, true_and]
      cases dir with
      | nil =>
        rw [pathText_nil, List.append_nil, prefix_append_iff hname (pathText_eq_nil_or sep path),
          besideExtension_singleton]
        have hnil : [] <+: path := List.nil_prefix
        constructor
        · intro h
          by_cases heq : name = name'
          · exact .inl ⟨heq, hnil⟩
          · exact .inr ⟨h, heq⟩
        · rintro (⟨rfl, -⟩ | ⟨h, -⟩)
          · exact List.prefix_rfl
          · exact h
      | cons d dir =>
        have hdirs : ∀ n ∈ d :: dir, sep ∉ n := fun n hn => hd n (by simp [hn])
        have hpaths : ∀ n ∈ path, sep ∉ n := fun n hn => hp n (by simp [hn])
        have ih := ih (by simp) hdirs hpaths
        rw [besideExtension_cons (by simp), ← and_or_left, ← ih]
        constructor
        · intro h
          rw [pathText_cons] at h
          have := eq_of_prefix_sep hname hname' (pathText_eq_nil_or sep path) h
          rwa [← pathText_cons] at this
        · rintro ⟨rfl, h⟩
          exact (List.prefix_append_right_inj name).mpr h

/-- What is below a directory is not beside it. -/
theorem not_besideExtension_of_below {dir path : List (List α)} (h : dir <+: path) :
    ¬ BesideExtension dir path := by
  rintro ⟨parent, name, ext, rest, rfl, rfl, hext⟩
  have hname := (List.prefix_append_right_inj parent).mp h
  exact hext (by simpa using (List.cons_prefix_cons.mp hname).1)

/-- With a separator behind both, texts begin with each other exactly when paths do. -/
theorem text_concat_prefix_iff {dir path : List (List α)}
    (hd : ∀ name ∈ dir, sep ∉ name) (hp : ∀ name ∈ path, sep ∉ name) :
    pathText sep dir ++ [sep] <+: pathText sep path ++ [sep] ↔ dir <+: path := by
  induction dir generalizing path with
  | nil => rcases pathText_eq_nil_or sep path with h | ⟨t, h⟩ <;> simp [h]
  | cons name dir ih =>
    cases path with
    | nil => simp
    | cons name' path =>
      have hname : sep ∉ name := hd name (by simp)
      have hname' : sep ∉ name' := hp name' (by simp)
      have hdirs : ∀ n ∈ dir, sep ∉ n := fun n hn => hd n (by simp [hn])
      have hpaths : ∀ n ∈ path, sep ∉ n := fun n hn => hp n (by simp [hn])
      have ih := ih hdirs hpaths
      have hend (l : List (List α)) : ∃ t, pathText sep l ++ [sep] = sep :: t := by
        rcases pathText_eq_nil_or sep l with h | ⟨t, h⟩ <;> simp [h]
      rw [List.cons_prefix_cons, ← ih, pathText_cons, pathText_cons, List.cons_append,
        List.cons_append, List.cons_prefix_cons, List.append_assoc, List.append_assoc]
      constructor
      · rintro ⟨-, h⟩
        obtain ⟨s, hs⟩ := hend dir
        rw [hs] at h ⊢
        exact eq_of_prefix_sep hname hname' (.inr (hend path)) h
      · rintro ⟨rfl, h⟩
        exact ⟨rfl, (List.prefix_append_right_inj name).mpr h⟩

/-- **The text of a path is the text of a directory, or begins with it and a separator, if
and only if the path is below the directory.** -/
theorem below_text_iff {dir path : List (List α)}
    (hd : ∀ name ∈ dir, sep ∉ name) (hp : ∀ name ∈ path, sep ∉ name) :
    pathText sep path = pathText sep dir ∨ pathText sep dir ++ [sep] <+: pathText sep path ↔
      dir <+: path := by
  rw [← text_concat_prefix_iff hd hp, List.prefix_concat_iff, List.append_left_inj,
    eq_comm (a := pathText sep path)]

end PkuyoProxy.Lib
