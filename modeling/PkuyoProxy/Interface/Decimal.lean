import PkuyoProxy.Model.Headers

/-!
# Decimal numbers

What an output stream prints for a number is read back as that number, by `stoul` and, as far
as it fits an `int`, by `stoi`.
-/

set_option autoImplicit false

namespace PkuyoProxy.Interface

open PkuyoProxy.Lib PkuyoProxy.Model

/-- The decimal text of a number is made of the characters of its digits. -/
theorem decimal_eq (n : ℕ) :
    decimal n = (Nat.toDigits 10 n).map fun c => UInt8.ofNat c.toNat := by
  rw [decimal, ascii, Nat.toString_eq_ofList_toDigits, String.toList_ofList]

/-- The byte of a digit has the digit's value. -/
theorem digitVal_ofNat {c : Char} (h : c.isDigit = true) :
    digitVal (UInt8.ofNat c.toNat) = some (c.toNat - 48) ∧ c.toNat - 48 < 10 := by
  have hrange : 48 ≤ c.toNat ∧ c.toNat ≤ 57 := by
    simpa [Char.isDigit, UInt32.le_iff_toNat_le] using h
  have hbyte : (UInt8.ofNat c.toNat).toNat = c.toNat :=
    UInt8.toNat_ofNat_of_lt' (Nat.lt_of_le_of_lt hrange.2 (by decide))
  have hin : 48 ≤ UInt8.ofNat c.toNat ∧ UInt8.ofNat c.toNat ≤ 57 := by
    rw [UInt8.le_iff_toNat_le, UInt8.le_iff_toNat_le, hbyte]
    exact hrange
  refine ⟨?_, by omega⟩
  rw [digitVal, if_pos hin, hbyte]

/-- The value read from the bytes of digit characters is the one read from the characters. -/
theorem digitsValue_map {cs : List Char} (h : ∀ c ∈ cs, c.isDigit = true) (v : ℕ) :
    (cs.map fun c => UInt8.ofNat c.toNat).foldl (fun v c => v * 10 + (digitVal c).getD 0) v =
      Nat.ofDigitChars 10 cs v := by
  induction cs generalizing v with
  | nil => simp
  | cons c cs ih =>
    have hvalue := (digitVal_ofNat (h c (by simp))).1
    rw [List.map_cons, List.foldl_cons, hvalue, ih fun c' hc' => h c' (by simp [hc']),
      Nat.ofDigitChars_cons, Option.getD_some, Nat.mul_comm v 10]
    rfl

/-- A byte that is no digit is none of a run of digits. -/
theorem notMem_digits {s : Bytes} {c : UInt8} (hs : ∀ x ∈ s, isDigit 10 x = true)
    (hc : isDigit 10 c = false) : c ∉ s := by
  intro hmem
  rw [hs c hmem] at hc
  cases hc

/-- The decimal text of a number is not empty. -/
theorem decimal_ne_nil (n : ℕ) : decimal n ≠ [] := by
  rw [decimal_eq]
  simp

/-- Every byte of the decimal text is a digit. -/
theorem isDigit_decimal (n : ℕ) : ∀ c ∈ decimal n, isDigit 10 c = true := by
  intro c hc
  rw [decimal_eq] at hc
  obtain ⟨d, hd, rfl⟩ := List.mem_map.mp hc
  obtain ⟨hvalue, hlt⟩ := digitVal_ofNat (Nat.isDigit_of_mem_toDigits (by decide) (by decide) hd)
  rw [isDigit, hvalue]
  simpa using hlt

/-- **The digits of a number have its value.** -/
theorem digitsValue_decimal (n : ℕ) : digitsValue 10 (decimal n) = n := by
  have hdigits : ∀ c ∈ Nat.toDigits 10 n, c.isDigit = true :=
    fun c hc => Nat.isDigit_of_mem_toDigits (by decide) (by decide) hc
  rw [decimal_eq, digitsValue, digitsValue_map hdigits, Nat.ofDigitChars_ten_toDigits]

/-- The decimal text of a number in the range of `int` is read back as the number. -/
theorem stoi_decimal {n : ℕ} (h : n < 2 ^ 31) : stoi 10 (decimal n) = .ok n := by
  rw [stoi, scanNumber_digits (decimal_ne_nil n) (isDigit_decimal n), digitsValue_decimal]
  apply if_neg
  simp only [Bool.false_eq_true, if_false]
  omega

end PkuyoProxy.Interface
