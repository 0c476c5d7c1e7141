import PkuyoProxy.Model.Text

/-!
# IPv4 addresses (arpa/inet.h)

`inet_pton` reads a dotted quad and nothing else: no name, no missing octet, no leading zero.  It
writes an address only if it could read one.
-/

set_option autoImplicit false

namespace PkuyoProxy.Model

/-- `in_addr`: the bytes of an IPv4 address in network order. -/
structure InAddr where
  first : UInt8
  second : UInt8
  third : UInt8
  fourth : UInt8
  deriving DecidableEq, Repr

/-- Its bytes in the order of the network. -/
def InAddr.bytes (addr : InAddr) : Bytes := [addr.first, addr.second, addr.third, addr.fourth]

/-- `INADDR_ANY`, which is also what memory filled with zeros holds. -/
def inaddrAny : InAddr := ⟨0, 0, 0, 0⟩

/-- An octet of a dotted quad: decimal digits for a number below 256, without a leading zero. -/
def octetValue (text : Bytes) : Option UInt8 :=
  if text ≠ [] ∧ (∀ c ∈ text, isDigit 10 c = true) ∧ (text.head? = some 48 → text = [48]) ∧
      digitsValue 10 text < 256 then
    some (UInt8.ofNat (digitsValue 10 text))
  else none

/-- `inet_pton` of the family `AF_INET`; without a result the address it points to is not
written. -/
def inetPton (src : Bytes) : Option InAddr :=
  match src.splitOn 46 with
  | [first, second, third, fourth] => do
    return ⟨← octetValue first, ← octetValue second, ← octetValue third, ← octetValue fourth⟩
  | _ => none

example : inetPton (ascii "127.0.0.1") = some ⟨127, 0, 0, 1⟩ := by decide

example : inetPton (ascii "localhost") = none ∧ inetPton (ascii "10.0.0.256") = none ∧
    inetPton (ascii "10.0.0.01") = none ∧ inetPton (ascii "10.0.1") = none := by decide

end PkuyoProxy.Model
