import Mathlib.Data.Nat.Notation
import Mathlib.Tactic.Common

/-!
# Taking turns

When `n` take turns, the first one first, each has had the same number of turns or one more than
those behind it (`turns`).  The next one is the first of those that have had the fewest
(`turns_next_le`, `turns_next_lt`).
-/

set_option autoImplicit false

namespace PkuyoProxy.Lib

/-- How often number `i` of `n` has had its turn in `k` rounds. -/
def turns (n k i : ℕ) : ℕ := k / n + if i < k % n then 1 else 0

variable {n k i : ℕ}

/-- Nobody has had a turn before the first one. -/
@[simp] theorem turns_zero (n i : ℕ) : turns n 0 i = 0 := by simp [turns]

/-- One more turn is that of the member whose place it is. -/
theorem turns_succ (hi : i < n) : turns n (k + 1) i = turns n k i + if i = k % n then 1 else 0 := by
  have hpos : 0 < n := Nat.zero_lt_of_lt hi
  have hk := Nat.div_add_mod k n
  have hlt := Nat.mod_lt k hpos
  unfold turns
  by_cases hlast : k % n + 1 = n
  · -- the last one ends a lap
    have hlap : (k + 1) / n = k / n + 1 ∧ (k + 1) % n = 0 := by
      rw [Nat.div_mod_unique hpos]
      refine ⟨?_, hpos⟩
      rw [Nat.mul_add]
      omega
    rw [hlap.1, hlap.2]
    split <;> split <;> split <;> omega
  · have hnext : (k + 1) / n = k / n ∧ (k + 1) % n = k % n + 1 := by
      rw [Nat.div_mod_unique hpos]
      omega
    rw [hnext.1, hnext.2]
    split <;> split <;> split <;> omega

/-- Nobody has more turns than there were. -/
theorem turns_le (hn : 0 < n) : turns n k i ≤ k := by
  have hk := Nat.div_add_mod k n
  have hlap : k / n ≤ n * (k / n) := Nat.le_mul_of_pos_left _ hn
  unfold turns
  split <;> omega

/-- The next member has had no more turns than anyone else. -/
theorem turns_next_le (n k i : ℕ) : turns n k (k % n) ≤ turns n k i := by
  unfold turns
  split <;> omega

/-- The next member has had fewer turns than those before it in this round. -/
theorem turns_next_lt (h : i < k % n) : turns n k (k % n) < turns n k i := by
  unfold turns
  rw [if_pos h, if_neg (by omega)]
  omega

end PkuyoProxy.Lib
