import PkuyoProxy.Analysis.Confinement
import PkuyoProxy.Lib.PercentEncoding

/-!
# Percent-decoding by `url_decode`

An escape whose two bytes are hexadecimal digits is decoded to the byte they denote.  On any
other two bytes `stoi` raises, or it reads at most one digit and `url_decode` puts a byte of
magnitude below 16 in place of all three.  So the text is decoded as it should be exactly
when every `%` with two bytes behind it begins an escape.
-/

set_option autoImplicit false

namespace PkuyoProxy.Analysis

open PkuyoProxy.Lib PkuyoProxy.Model

/-! ## Two bytes read as a hexadecimal number -/

/-- A hexadecimal digit of the code is one of the encoding. -/
theorem isDigit_sixteen_iff {c : UInt8} : isDigit 16 c = true ↔ (hexValue c).isSome = true := by
  have hsame : digitVal c = hexValue c := rfl
  unfold isDigit
  rw [hsame]
  cases hv : hexValue c with
  | none => simp
  | some v => simp [hexValue_lt hv]

/-- Whatever `scanNumber` skips, the number it reads is a run of digits of the text. -/
theorem exists_digits_of_scanNumber {base : ℕ} {s : Bytes} {neg : Bool} {v : ℕ}
    (h : scanNumber base s = some (neg, v)) :
    ∃ ds, ds <:+: s ∧ (∀ c ∈ ds, isDigit base c = true) ∧ digitsValue base ds = v := by
  unfold scanNumber at h
  extract_lets s₁ neg' s₂ hex ds at h
  have hs₁ : s₁ <:+ s := List.dropWhile_suffix _
  have hs₂ : s₂ <:+ s₁ := by
    unfold s₂
    split
    · exact List.drop_suffix 1 s₁
    · exact List.suffix_rfl
  have hds : ds <:+: s₂ := by
    unfold ds
    split
    · exact (List.takeWhile_prefix _).isInfix.trans (List.drop_suffix 2 s₂).isInfix
    · exact (List.takeWhile_prefix _).isInfix
  split at h
  · split at h
    · cases h
      exact ⟨[], List.nil_infix, by simp, rfl⟩
    · cases h
  · cases h
    refine ⟨ds, hds.trans (hs₂.trans hs₁).isInfix, ?_, rfl⟩
    intro c hc
    exact List.mem_takeWhile_imp hc

/-- At most one digit makes less than 16. -/
theorem digitsValue_lt_of_length_le {ds : Bytes} (h : ds.length ≤ 1)
    (hdigits : ∀ c ∈ ds, isDigit 16 c = true) : digitsValue 16 ds < 16 := by
  rcases ds with _ | ⟨c, _ | ⟨c', ds⟩⟩
  · decide
  · obtain ⟨v, hv⟩ := Option.isSome_iff_exists.mp (isDigit_sixteen_iff.mp (hdigits c (by simp)))
    have hval : digitVal c = some v := hv
    simpa [digitsValue, hval] using hexValue_lt hv
  · simp at h

/-- A byte's value is converted to the byte. -/
theorem toChar_natCast {v : ℕ} (h : v < 256) : toChar v = UInt8.ofNat v := by
  have hmod : (v : ℤ) % 256 = v := by omega
  rw [toChar, hmod, Int.toNat_natCast]

/-- An escape is read as its byte. -/
theorem stoi_of_hexByte {c₁ c₂ b : UInt8} (h : hexByte c₁ c₂ = some b) :
    ∃ n, stoi 16 [c₁, c₂] = .ok n ∧ toChar n = b := by
  obtain ⟨v₁, v₂, hv₁, hv₂, rfl⟩ := hexByte_eq_some_iff.mp h
  have hlt₁ := hexValue_lt hv₁
  have hlt₂ := hexValue_lt hv₂
  have hdigits : ∀ c ∈ [c₁, c₂], isDigit 16 c = true := by
    intro c hc
    rw [isDigit_sixteen_iff]
    rcases List.mem_pair.mp hc with rfl | rfl
    · rw [hv₁]; rfl
    · rw [hv₂]; rfl
  have hvalue : digitsValue 16 [c₁, c₂] = 16 * v₁ + v₂ := by
    have hval₁ : digitVal c₁ = some v₁ := hv₁
    have hval₂ : digitVal c₂ = some v₂ := hv₂
    simp only [digitsValue, List.foldl_cons, List.foldl_nil, hval₁, hval₂, Option.getD_some]
    omega
  refine ⟨((16 * v₁ + v₂ : ℕ) : ℤ), ?_, toChar_natCast (by omega)⟩
  rw [stoi, scanNumber_digits (by simp) hdigits, hvalue]
  apply if_neg
  simp only [Bool.false_eq_true, if_false]
  omega

/-- Two bytes that are not both digits denote no `%`. -/
theorem toChar_stoi_ne {c₁ c₂ : UInt8} {n : ℤ} (h : hexByte c₁ c₂ = none)
    (hn : stoi 16 [c₁, c₂] = .ok n) : toChar n ≠ 37 := by
  unfold stoi at hn
  split at hn
  · cases hn
  case h_2 neg v hscan =>
    obtain ⟨ds, hinfix, hdigits, hv⟩ := exists_digits_of_scanNumber hscan
    have hshort : ds.length ≤ 1 := by
      by_contra hlong
      have hle : ds.length ≤ 2 := hinfix.length_le
      have hlength : ds.length = [c₁, c₂].length := by
        simp only [List.length_cons, List.length_nil]
        omega
      have hds : ds = [c₁, c₂] := hinfix.sublist.eq_of_length hlength
      subst hds
      obtain ⟨v₁, hv₁⟩ := Option.isSome_iff_exists.mp
        (isDigit_sixteen_iff.mp (hdigits c₁ (by simp)))
      obtain ⟨v₂, hv₂⟩ := Option.isSome_iff_exists.mp
        (isDigit_sixteen_iff.mp (hdigits c₂ (by simp)))
      cases h.symm.trans (hexByte_eq_some_iff.mpr ⟨v₁, v₂, hv₁, hv₂, rfl⟩)
    have hlt : v < 16 := hv ▸ digitsValue_lt_of_length_le hshort hdigits
    extract_lets z at hn
    have hz : -16 < z ∧ z < 16 := by
      unfold z
      split <;> omega
    have hbound : -16 < n ∧ n < 16 := by
      split at hn
      · cases hn
      · rw [← Except.ok.inj hn]
        exact hz
    intro hchar
    have hnat : (toChar n).toNat = 37 := by rw [hchar]; rfl
    rw [toChar, UInt8.toNat_ofNat'] at hnat
    omega

/-! ## The whole text -/

/-- A percent sign before anything but two digits is not decoded as `percentDecode` does. -/
theorem urlDecode_malformed_ne {c₁ c₂ : UInt8} (h : hexByte c₁ c₂ = none) (s : Bytes) :
    urlDecode (37 :: c₁ :: c₂ :: s) ≠
      .ok (percentDecode plusToSpace (37 :: c₁ :: c₂ :: s)) := by
  rw [percentDecode_malformed h]
  intro heq
  cases hn : stoi 16 [c₁, c₂] with
  | error e =>
    rw [urlDecode, if_pos rfl, hn] at heq
    cases heq
  | ok n =>
    rw [urlDecode_escape hn] at heq
    cases hrest : urlDecode s with
    | error e =>
      rw [hrest] at heq
      cases heq
    | ok decoded =>
      rw [hrest] at heq
      exact toChar_stoi_ne h hn (List.cons.inj (Except.ok.inj heq)).1

/-- A byte in front of both sides does not matter. -/
theorem map_cons_eq_iff {b : UInt8} {x : Except Exn Bytes} {s : Bytes} :
    x.map (b :: ·) = .ok (b :: s) ↔ x = .ok s := by
  cases x <;> simp [Except.map]

/-- A text without three bytes has at most two. -/
theorem length_le_of_short {s : Bytes} (h : ∀ c c₁ c₂ rest, s ≠ c :: c₁ :: c₂ :: rest) :
    s.length ≤ 2 := by
  rcases s with _ | ⟨c, _ | ⟨c₁, _ | ⟨c₂, rest⟩⟩⟩
  · simp
  · simp
  · simp
  · exact absurd rfl (h c c₁ c₂ rest)

/-- A text of at most two bytes is decoded as `percentDecode` does. -/
theorem urlDecode_of_length_le {s : Bytes} (h : s.length ≤ 2) :
    urlDecode s = .ok (percentDecode plusToSpace s) := by
  rcases s with _ | ⟨c, _ | ⟨c₁, _ | ⟨c₂, rest⟩⟩⟩
  · rfl
  · rfl
  · rfl
  · simp only [List.length_cons] at h
    omega

/-- A text whose percent signs are all escapes is decoded as `percentDecode` does. -/
theorem urlDecode_of_wellEscaped {s : Bytes} (h : WellEscaped s) :
    urlDecode s = .ok (percentDecode plusToSpace s) := by
  induction s using urlDecode.induct with
  | case1 c₁ c₂ s ih =>
    obtain ⟨hdigits, hs⟩ := wellEscaped_percent_iff.mp h
    obtain ⟨b, hb⟩ := Option.isSome_iff_exists.mp hdigits
    obtain ⟨n, hn, hchar⟩ := stoi_of_hexByte hb
    rw [urlDecode_escape hn, percentDecode_escape hb, hchar, map_cons_eq_iff]
    exact ih hs
  | case2 c c₁ c₂ s hc ih =>
    rw [urlDecode_cons hc, percentDecode_cons hc, map_cons_eq_iff]
    exact ih ((wellEscaped_cons_iff hc).mp h)
  | case3 s hshort => exact urlDecode_of_length_le (length_le_of_short hshort)

/-- The first `%` whose two bytes are not digits spoils the whole text. -/
theorem wellEscaped_of_urlDecode {s : Bytes}
    (h : urlDecode s = .ok (percentDecode plusToSpace s)) : WellEscaped s := by
  induction s using urlDecode.induct with
  | case1 c₁ c₂ s ih =>
    cases hb : hexByte c₁ c₂ with
    | none => exact absurd h (urlDecode_malformed_ne hb s)
    | some b =>
      obtain ⟨n, hn, hchar⟩ := stoi_of_hexByte hb
      rw [urlDecode_escape hn, percentDecode_escape hb, hchar, map_cons_eq_iff] at h
      exact wellEscaped_percent_iff.mpr ⟨by rw [hb]; rfl, ih h⟩
  | case2 c c₁ c₂ s hc ih =>
    rw [urlDecode_cons hc, percentDecode_cons hc, map_cons_eq_iff] at h
    exact (wellEscaped_cons_iff hc).mpr (ih h)
  | case3 s hshort => exact wellEscaped_of_length_le (length_le_of_short hshort)

/-- **`url_decode` decodes a text exactly when each `%` in it that has two bytes behind it is
followed by two hexadecimal digits**; on any other text it raises, or returns something
else. -/
theorem urlDecode_eq_percentDecode_iff (s : Bytes) :
    urlDecode s = .ok (percentDecode plusToSpace s) ↔ WellEscaped s :=
  ⟨wellEscaped_of_urlDecode, urlDecode_of_wellEscaped⟩

/-- `stoi` raises on the two bytes behind the `%` of `/%zz`, and on those of `/%4z` it reads
the `4` alone. -/
theorem not_urlDecode_eq_percentDecode :
    ¬ ∀ s : Bytes, urlDecode s = .ok (percentDecode plusToSpace s) := by
  intro hall
  have hraise : urlDecode (ascii "/%zz") = .error .invalidArgument := by decide
  cases hraise.symm.trans (hall (ascii "/%zz"))

example : urlDecode (ascii "/%4z") = .ok [47, 4] ∧
    percentDecode plusToSpace (ascii "/%4z") = ascii "/%4z" := by decide

end PkuyoProxy.Analysis
