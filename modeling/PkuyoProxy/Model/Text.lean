import Mathlib.Algebra.Order.Ring.Int
import Mathlib.Data.List.DropRight
import Mathlib.Tactic.Common
import PkuyoProxy.Lib.Lines

/-!
# Byte strings and the library calls on them

`std::string` is a list of bytes.  The numeric conversions follow the C library: leading
white space, an optional sign, an optional `0x` in base 16, then the longest run of
digits; `std::stoul` negates modulo `2^64` and throws when there are no digits or the
magnitude does not fit, `std::stoi` throws when the value does not fit an `int`.
-/

set_option autoImplicit false

namespace PkuyoProxy.Model

open PkuyoProxy.Lib

/-- `std::string` -/
abbrev Bytes := List UInt8

/-- A property of every byte of a string is decided along the string. -/
instance (priority := 2000) decidableAllBytes (p : UInt8 → Prop) [DecidablePred p] (s : Bytes) :
    Decidable (∀ c ∈ s, p c) := List.decidableBAll p s

/-- The bytes of a text literal. -/
def ascii (s : String) : Bytes := s.toList.map fun c => UInt8.ofNat c.toNat

/-- The end of a line. -/
def crlf : Bytes := [13, 10]

/-- `std::string::npos`, also `(size_t)-1`. -/
def npos : ℕ := 2 ^ 64 - 1

/-- The exceptions the program can raise. -/
inductive Exn
  | invalidArgument
  | outOfRange
  | lengthError
  | badAlloc
  deriving DecidableEq, Repr

/-- `std::string::max_size()` -/
def stringMaxSize : ℕ := 2 ^ 63 - 1

/-- What `reserve` throws for a length it does not get: no string has that length, or there is no
memory for it. -/
def reserveExn (length : ℕ) : Exn :=
  if stringMaxSize < length then .lengthError else .badAlloc

/-- A space or a tab. -/
def isBlank (c : UInt8) : Bool := c = 32 || c = 9

/-- proxy_handler.cpp:64-72 -/
def trim (s : Bytes) : Bytes := (s.dropWhile isBlank).rdropWhile isBlank

/-- `tolower` of one byte in the "C" locale. -/
def tolower (c : UInt8) : UInt8 := if 65 ≤ c ∧ c ≤ 90 then c + 32 else c

/-- proxy_handler.cpp:75-78 -/
def toLower (s : Bytes) : Bytes := s.map tolower

/-! ## Number conversions -/

/-- `isspace` in the "C" locale. -/
def isSpace (c : UInt8) : Bool := c = 32 || (9 ≤ c && c ≤ 13)

/-- The value of a digit, in any base up to 16. -/
def digitVal (c : UInt8) : Option ℕ :=
  if 48 ≤ c ∧ c ≤ 57 then some (c.toNat - 48)
  else if 97 ≤ c ∧ c ≤ 102 then some (c.toNat - 87)
  else if 65 ≤ c ∧ c ≤ 70 then some (c.toNat - 55)
  else none

/-- Whether a byte is a digit of the base. -/
def isDigit (base : ℕ) (c : UInt8) : Bool :=
  match digitVal c with
  | none => false
  | some v => v < base

/-- The number a run of digits denotes. -/
def digitsValue (base : ℕ) (ds : Bytes) : ℕ :=
  ds.foldl (fun v c => v * base + (digitVal c).getD 0) 0

/-- Sign and magnitude read by `strtol` and `strtoul`; `none` when no conversion is
possible. -/
def scanNumber (base : ℕ) (s : Bytes) : Option (Bool × ℕ) :=
  let s := s.dropWhile isSpace
  let neg := s.head? = some 45
  let s := if s.head? = some 45 ∨ s.head? = some 43 then s.drop 1 else s
  -- the prefix counts only in base 16; "0x" without a digit behind it reads as "0"
  let hex := base = 16 ∧ (s.take 2 = [48, 120] ∨ s.take 2 = [48, 88])
  let ds := (if hex then s.drop 2 else s).takeWhile (isDigit base)
  if ds = [] then (if hex then some (neg, 0) else none)
  else some (neg, digitsValue base ds)

/-- `std::stoul(s, nullptr, base)` -/
def stoul (base : ℕ) (s : Bytes) : Except Exn ℕ :=
  match scanNumber base s with
  | none => .error .invalidArgument
  | some (neg, v) =>
    if 2 ^ 64 ≤ v then .error .outOfRange
    else .ok (if neg then (2 ^ 64 - v) % 2 ^ 64 else v)

/-- `std::stoi(s, nullptr, base)` -/
def stoi (base : ℕ) (s : Bytes) : Except Exn ℤ :=
  match scanNumber base s with
  | none => .error .invalidArgument
  | some (neg, v) =>
    let z : ℤ := if neg then -v else v
    if z < -2 ^ 31 ∨ 2 ^ 31 ≤ z then .error .outOfRange else .ok z

example : stoul 10 (ascii "-1") = .ok npos := by decide

example : stoul 16 (ascii "0x1F;ext") = .ok 31 := by decide

/-! ## Facts about the conversions -/

/-- A digit is neither white space nor a sign, nor the `x` of a prefix. -/
theorem isDigit_ne {base : ℕ} {c : UInt8} (h : isDigit base c = true) :
    isSpace c = false ∧ c ≠ 45 ∧ c ≠ 43 ∧ c ≠ 120 ∧ c ≠ 88 := by
  have hv : (digitVal c).isSome = true := by
    unfold isDigit at h
    cases hd : digitVal c with
    | none => simp [hd] at h
    | some v => rfl
  simp only [digitVal, isSpace] at hv ⊢
  grind

/-- A text of digits is scanned as the number they make, without a sign. -/
theorem scanNumber_digits {base : ℕ} {ds : Bytes} (hne : ds ≠ [])
    (h : ∀ c ∈ ds, isDigit base c = true) :
    scanNumber base ds = some (false, digitsValue base ds) := by
  obtain ⟨c, rest, rfl⟩ := List.exists_cons_of_ne_nil hne
  obtain ⟨hsp, h45, h43, -, -⟩ := isDigit_ne (h c (by simp))
  have htake : (c :: rest).takeWhile (isDigit base) = c :: rest := by
    simpa [List.takeWhile_eq_self_iff] using h
  have hx : ¬ ((c :: rest).take 2 = [48, 120] ∨ (c :: rest).take 2 = [48, 88]) := by
    cases rest with
    | nil => simp
    | cons y rest =>
      obtain ⟨-, -, -, h120, h88⟩ := isDigit_ne (h y (by simp))
      simp [h120, h88]
  simp only [scanNumber, List.dropWhile_cons, hsp, Bool.false_eq_true, if_false, List.head?_cons,
    Option.some.injEq, h45, h43, or_self, hx, and_false, htake, decide_false]
  simp

/-- A text of digits below the range of `unsigned long` is read as the number they make. -/
theorem stoul_digits {base : ℕ} {ds : Bytes} (hne : ds ≠ [])
    (h : ∀ c ∈ ds, isDigit base c = true) (hlt : digitsValue base ds < 2 ^ 64) :
    stoul base ds = .ok (digitsValue base ds) := by
  rw [stoul, scanNumber_digits hne h]
  exact if_neg (Nat.not_le.mpr hlt)

end PkuyoProxy.Model
