import PkuyoProxy.Lib.WhileLoop
import PkuyoProxy.Model.Headers

/-!
# The loop of `contains_chunked` (proxy_handler.cpp:63-94)

`trim` and `contains_chunked` work with positions: `find` returns one or `npos`, lengths are
differences of `size_t`, and `substr` raises when it is to begin behind the end of the string.
-/

set_option autoImplicit false

namespace PkuyoProxy.Model

open PkuyoProxy.Lib

/-- The difference of two values of type `size_t`. -/
def sizeSub (a b : ℕ) : ℕ := (a + 2 ^ 64 - b) % 2 ^ 64

/-- `std::string::substr(pos, count)` -/
def substr (s : Bytes) (pos count : ℕ) : Except Exn Bytes :=
  if s.length < pos then .error .outOfRange else .ok ((s.drop pos).take count)

/-- `std::string::find(c, pos)` -/
def findByte (s : Bytes) (c : UInt8) (pos : ℕ) : ℕ :=
  match find [c] (s.drop pos) with
  | none => npos
  | some k => pos + k

/-- `std::string::find_first_not_of`, the set as a predicate -/
def findFirstNotOf (s : Bytes) (p : UInt8 → Bool) : ℕ :=
  let k := (s.takeWhile p).length
  if k < s.length then k else npos

/-- `std::string::find_last_not_of`, the set as a predicate -/
def findLastNotOf (s : Bytes) (p : UInt8 → Bool) : ℕ :=
  match (s.rdropWhile p).length with
  | 0 => npos
  | k + 1 => k

/-- proxy_handler.cpp:64-72 -/
def trimInPlace (s : Bytes) : Except Exn Bytes :=
  let start := findFirstNotOf s isBlank
  if start = npos then .ok []
  else substr s start (sizeSub (findLastNotOf s isBlank) start + 1)

/-- One round of the loop of `contains_chunked` from `start` on; what it returns is put beside
the position. -/
def chunkedRound (value : Bytes) (scan : ℕ × Bool) : Flow Exn (ℕ × Bool) :=
  let start := scan.1
  let comma := findByte value 44 start
  match substr value start (sizeSub comma start) with
  | .error e => .raise e scan
  | .ok token =>
    match trimInPlace token with
    | .error e => .raise e scan
    | .ok token =>
      if toLower token = ascii "chunked" then .leave (start, true)
      else if comma = npos then .leave (start, false)
      else .next (comma + 1, false)

/-- proxy_handler.cpp:81-94 -/
def containsChunkedLoop (value : Bytes) (fuel : ℕ) : Option (Exit Exn (ℕ × Bool)) :=
  whileLoop (fun _ => true) (fun scan => some (chunkedRound value scan)) fuel (0, false)

end PkuyoProxy.Model
