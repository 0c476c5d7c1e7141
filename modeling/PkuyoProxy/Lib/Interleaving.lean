import Mathlib.Data.List.Induction
import Mathlib.Tactic.Common

/-!
# Two sequences in one

`Interleaving xs ys zs` says that `zs` is made of the elements of `xs` and those of `ys`, each in
their order.  It grows at the end, as the sequence does that two writers append to.
-/

set_option autoImplicit false

namespace PkuyoProxy.Lib

variable {α : Type}

/-- The third list has the elements of the other two, those of each in order. -/
inductive Interleaving : List α → List α → List α → Prop
  | nil : Interleaving [] [] []
  | left {xs ys zs : List α} (x : α) (h : Interleaving xs ys zs) :
      Interleaving (xs ++ [x]) ys (zs ++ [x])
  | right {xs ys zs : List α} (y : α) (h : Interleaving xs ys zs) :
      Interleaving xs (ys ++ [y]) (zs ++ [y])

variable {xs ys zs : List α}

/-- The first writer goes on alone. -/
theorem Interleaving.lefts (h : Interleaving xs ys zs) (ws : List α) :
    Interleaving (xs ++ ws) ys (zs ++ ws) := by
  induction ws using List.reverseRecOn with
  | nil => simpa using h
  | append_singleton ws w ih =>
    rw [← List.append_assoc, ← List.append_assoc]
    exact ih.left w

end PkuyoProxy.Lib
