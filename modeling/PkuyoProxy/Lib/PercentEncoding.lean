import Mathlib.Data.Nat.Notation
import Mathlib.Tactic.Common

/-!
# Percent-encoding

A byte can be written as `%` and two hexadecimal digits.  Decoding goes from left to right,
keeps a `%` that no two digits follow, and passes every byte outside an escape through a
function, for instance one that makes a `+` a space.  Decoding undoes encoding as long as
that function leaves the bytes alone that encoding keeps (`percentDecode_of_encoded`).
-/

set_option autoImplicit false

namespace PkuyoProxy.Lib

/-! ## Hexadecimal digits -/

/-- The value of a hexadecimal digit. -/
def hexValue (c : UInt8) : Option ℕ :=
  if 48 ≤ c ∧ c ≤ 57 then some (c.toNat - 48)
  else if 97 ≤ c ∧ c ≤ 102 then some (c.toNat - 87)
  else if 65 ≤ c ∧ c ≤ 70 then some (c.toNat - 55)
  else none

/-- The byte two hexadecimal digits denote. -/
def hexByte (c₁ c₂ : UInt8) : Option UInt8 :=
  match hexValue c₁, hexValue c₂ with
  | some v₁, some v₂ => some (UInt8.ofNat (16 * v₁ + v₂))
  | _, _ => none

/-- The digit of a value below 16, in upper case. -/
def hexDigit (v : ℕ) : UInt8 := if v < 10 then UInt8.ofNat (48 + v) else UInt8.ofNat (55 + v)

/-- A hexadecimal digit has a value below 16. -/
theorem hexValue_lt {c : UInt8} {v : ℕ} (h : hexValue c = some v) : v < 16 := by
  simp only [hexValue, UInt8.le_iff_toNat_le, UInt8.reduceToNat] at h
  grind

/-- The percent sign is no hexadecimal digit. -/
theorem hexValue_percent : hexValue 37 = none := by decide

/-- The digit that is written for a value has this value. -/
theorem hexValue_hexDigit : ∀ v < 16, hexValue (hexDigit v) = some v := by decide

/-- Two characters are an escape exactly if both are digits, and the byte is what their values
make. -/
theorem hexByte_eq_some_iff {c₁ c₂ c : UInt8} :
    hexByte c₁ c₂ = some c ↔
      ∃ v₁ v₂, hexValue c₁ = some v₁ ∧ hexValue c₂ = some v₂ ∧ UInt8.ofNat (16 * v₁ + v₂) = c := by
  unfold hexByte
  split
  case h_1 v₁ v₂ h₁ h₂ => simp [h₁, h₂]
  case h_2 hnone =>
    simp only [reduceCtorEq, false_iff]
    rintro ⟨v₁, v₂, h₁, h₂, -⟩
    exact hnone v₁ v₂ h₁ h₂

/-- The two digits that are written for a byte are read as this byte. -/
theorem hexByte_hexDigit (c : UInt8) :
    hexByte (hexDigit (c.toNat / 16)) (hexDigit (c.toNat % 16)) = some c := by
  have hc : c.toNat < 256 := c.toNat_lt
  rw [hexByte_eq_some_iff]
  refine ⟨c.toNat / 16, c.toNat % 16, ?_, ?_, ?_⟩
  · exact hexValue_hexDigit _ (by omega)
  · exact hexValue_hexDigit _ (by omega)
  · rw [Nat.div_add_mod, UInt8.ofNat_toNat]

/-! ## Decoding -/

section Decode

variable (plain : UInt8 → UInt8)

/-- Every escape is replaced by its byte, and every other byte by what it stands for. -/
def percentDecode : List UInt8 → List UInt8
  | c :: c₁ :: c₂ :: s =>
    match if c = 37 then hexByte c₁ c₂ else none with
    | some b => b :: percentDecode s
    | none => plain c :: percentDecode (c₁ :: c₂ :: s)
  | s => s.map plain

variable {plain}

/-- A byte other than the percent sign is decoded on its own. -/
theorem percentDecode_cons {c : UInt8} (hc : c ≠ 37) (s : List UInt8) :
    percentDecode plain (c :: s) = plain c :: percentDecode plain s := by
  rcases s with _ | ⟨c₁, _ | ⟨c₂, s⟩⟩
  · rfl
  · rfl
  · rw [percentDecode, if_neg hc]

/-- A percent sign before two digits is decoded together with them. -/
theorem percentDecode_escape {c₁ c₂ b : UInt8} (h : hexByte c₁ c₂ = some b) (s : List UInt8) :
    percentDecode plain (37 :: c₁ :: c₂ :: s) = b :: percentDecode plain s := by
  rw [percentDecode, if_pos rfl, h]

/-- A percent sign before anything else stays. -/
theorem percentDecode_malformed {c₁ c₂ : UInt8} (h : hexByte c₁ c₂ = none) (s : List UInt8) :
    percentDecode plain (37 :: c₁ :: c₂ :: s) =
      plain 37 :: percentDecode plain (c₁ :: c₂ :: s) := by
  rw [percentDecode, if_pos rfl, h]

end Decode

/-- Every `%` that has two bytes behind it begins an escape. -/
def WellEscaped (s : List UInt8) : Prop :=
  ∀ c₁ c₂ rest, 37 :: c₁ :: c₂ :: rest <:+ s → (hexByte c₁ c₂).isSome = true

/-- The end of a text whose percent signs are all escapes is one as well. -/
theorem WellEscaped.of_suffix {s t : List UInt8} (h : WellEscaped s) (hts : t <:+ s) :
    WellEscaped t := fun c₁ c₂ rest hrest => h c₁ c₂ rest (hrest.trans hts)

/-- A byte other than the percent sign does not matter for the escapes behind it. -/
theorem wellEscaped_cons_iff {c : UInt8} (hc : c ≠ 37) {s : List UInt8} :
    WellEscaped (c :: s) ↔ WellEscaped s := by
  constructor
  · intro h
    exact h.of_suffix (List.suffix_cons c s)
  · intro h c₁ c₂ rest hrest
    rcases List.suffix_cons_iff.mp hrest with heq | htail
    · exact absurd (List.cons.inj heq).1.symm hc
    · exact h c₁ c₂ rest htail

/-- The digits of an escape are not `%`, so the next one begins behind them. -/
theorem wellEscaped_percent_iff {c₁ c₂ : UInt8} {s : List UInt8} :
    WellEscaped (37 :: c₁ :: c₂ :: s) ↔ (hexByte c₁ c₂).isSome = true ∧ WellEscaped s := by
  have hsuffix : s <:+ 37 :: c₁ :: c₂ :: s := ⟨[37, c₁, c₂], rfl⟩
  constructor
  · intro h
    exact ⟨h c₁ c₂ s List.suffix_rfl, h.of_suffix hsuffix⟩
  · rintro ⟨hdigits, h⟩ d₁ d₂ rest hrest
    obtain ⟨b, hb⟩ := Option.isSome_iff_exists.mp hdigits
    obtain ⟨v₁, v₂, hv₁, hv₂, -⟩ := hexByte_eq_some_iff.mp hb
    have hne₁ : c₁ ≠ 37 := by
      rintro rfl
      cases hexValue_percent.symm.trans hv₁
    have hne₂ : c₂ ≠ 37 := by
      rintro rfl
      cases hexValue_percent.symm.trans hv₂
    rcases List.suffix_cons_iff.mp hrest with heq | htail
    · cases heq
      exact hdigits
    · have hbehind := (wellEscaped_cons_iff hne₁).mpr ((wellEscaped_cons_iff hne₂).mpr h)
      exact hbehind d₁ d₂ rest htail

/-- In a text of at most two bytes no percent sign is followed by two others. -/
theorem wellEscaped_of_length_le {s : List UInt8} (h : s.length ≤ 2) : WellEscaped s := by
  intro c₁ c₂ rest hrest
  have hle := hrest.length_le
  simp only [List.length_cons] at hle
  omega

/-! ## Encoding -/

/-- `url` is a text in which every byte that is not kept is written as an escape, with
digits in either case. -/
inductive PercentEncoded (keep : UInt8 → Prop) : List UInt8 → List UInt8 → Prop
  | nil : PercentEncoded keep [] []
  | kept {c : UInt8} {s url : List UInt8} : keep c → PercentEncoded keep s url →
      PercentEncoded keep (c :: s) (c :: url)
  | escaped {c c₁ c₂ : UInt8} {s url : List UInt8} : ¬ keep c → hexByte c₁ c₂ = some c →
      PercentEncoded keep s url → PercentEncoded keep (c :: s) (37 :: c₁ :: c₂ :: url)

variable {keep : UInt8 → Prop}

/-- Every text has an encoding. -/
theorem exists_percentEncoded (keep : UInt8 → Prop) (s : List UInt8) :
    ∃ url, PercentEncoded keep s url := by
  induction s with
  | nil => exact ⟨[], .nil⟩
  | cons c s ih =>
    obtain ⟨url, hurl⟩ := ih
    by_cases hc : keep c
    · exact ⟨c :: url, .kept hc hurl⟩
    · exact ⟨_, .escaped hc (hexByte_hexDigit c) hurl⟩

/-- In an encoded text every percent sign begins an escape, as none stands for itself. -/
theorem wellEscaped_of_encoded (hpercent : ¬ keep 37) {s url : List UInt8}
    (h : PercentEncoded keep s url) : WellEscaped url := by
  induction h with
  | nil => exact wellEscaped_of_length_le (by decide)
  | @kept c s url hc _ ih =>
    have hne : c ≠ 37 := by
      rintro rfl
      exact hpercent hc
    exact (wellEscaped_cons_iff hne).mpr ih
  | escaped _ hb _ ih => exact wellEscaped_percent_iff.mpr ⟨by rw [hb]; rfl, ih⟩

/-- **Decoding undoes encoding.** -/
theorem percentDecode_of_encoded {plain : UInt8 → UInt8} (hpercent : ¬ keep 37)
    (hplain : ∀ c, keep c → plain c = c) {s url : List UInt8} (h : PercentEncoded keep s url) :
    percentDecode plain url = s := by
  induction h with
  | nil => rfl
  | @kept c s url hc _ ih =>
    have hne : c ≠ 37 := by
      rintro rfl
      exact hpercent hc
    rw [percentDecode_cons hne, hplain c hc, ih]
  | escaped _ hb _ ih => rw [percentDecode_escape hb, ih]

end PkuyoProxy.Lib
