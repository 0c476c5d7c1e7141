import PkuyoProxy.Interface.HttpMessage
import PkuyoProxy.Model.TransferCoding

/-!
# Whether a value lists `chunked`

The positions that `contains_chunked` computes stay inside of the value or right behind it, so no
`substr` raises, and the loop looks at the elements between the commas one after the other
(`containsChunkedLoop_spec`).  This is the loop that the header scan is modelled with.
-/

set_option autoImplicit false

namespace PkuyoProxy.Analysis

open PkuyoProxy.Lib PkuyoProxy.Model PkuyoProxy.Interface

/-- One of the elements between the commas is `chunked`, whatever its case and the blanks around
it. -/
def ListsChunked (value : Bytes) : Prop :=
  ∃ element ∈ value.splitOn 44, toLower (trim element) = ascii "chunked"

/-! ## Trimming -/

/-- What is dropped at the end of a text is dropped at the end of its last part, unless all of
that is. -/
theorem rdropWhile_behind {p : UInt8 → Bool} (s : Bytes) {t : Bytes} (h : t.rdropWhile p ≠ []) :
    (s ++ t).rdropWhile p = s ++ t.rdropWhile p := by
  have hne : ¬ (t.reverse.dropWhile p).isEmpty = true := by simpa [List.rdropWhile] using h
  rw [List.rdropWhile, List.reverse_append, List.dropWhile_append, if_neg hne,
    List.reverse_append, List.reverse_reverse, ← List.rdropWhile]

/-- A subtraction that does not wrap. -/
theorem sizeSub_of_le {a b : ℕ} (h : b ≤ a) (ha : a < 2 ^ 64) : sizeSub a b = a - b := by
  unfold sizeSub
  omega

/-- A position in the range gives a part of the text. -/
theorem substr_of_le {s : Bytes} {pos count : ℕ} (h : pos ≤ s.length) :
    substr s pos count = .ok ((s.drop pos).take count) := if_neg (Nat.not_lt.mpr h)

/-- `trim` begins at the first byte that is no blank and ends at the last one. -/
theorem trimInPlace_eq {s : Bytes} (h : s.length < npos) : trimInPlace s = .ok (trim s) := by
  have hsplit : s.takeWhile isBlank ++ s.dropWhile isBlank = s := List.takeWhile_append_dropWhile
  have hlen := congrArg List.length hsplit
  rw [List.length_append] at hlen
  unfold trimInPlace findFirstNotOf trim
  by_cases hnil : s.dropWhile isBlank = []
  · have hblank : ¬ (s.takeWhile isBlank).length < s.length := by
      rw [hnil, List.length_nil] at hlen
      omega
    rw [if_neg hblank, if_pos rfl, hnil, List.rdropWhile_nil]
  · have hpos := List.length_pos_iff.mpr hnil
    have hlt : (s.takeWhile isBlank).length < s.length := by omega
    have hrest : (s.dropWhile isBlank).rdropWhile isBlank ≠ [] := by
      intro hall
      rw [List.rdropWhile_eq_nil_iff] at hall
      have hblank := hall _ (List.head_mem hnil)
      rw [List.head_dropWhile_not isBlank hnil] at hblank
      cases hblank
    have hlast : (s.rdropWhile isBlank).length = (s.takeWhile isBlank).length +
        ((s.dropWhile isBlank).rdropWhile isBlank).length := by
      conv_lhs => rw [← hsplit]
      rw [rdropWhile_behind _ hrest, List.length_append]
    have hprefix := List.rdropWhile_prefix isBlank (s.dropWhile isBlank)
    have hdrop : s.drop (s.takeWhile isBlank).length = s.dropWhile isBlank := by
      have hleft := @List.drop_left _ (s.takeWhile isBlank) (s.dropWhile isBlank)
      rwa [hsplit] at hleft
    obtain ⟨m, hm⟩ := Nat.exists_eq_add_one.mpr (List.length_pos_iff.mpr hrest)
    have hend : findLastNotOf s isBlank = (s.takeWhile isBlank).length + m := by
      rw [findLastNotOf, hlast, hm]
      rfl
    have hcount : sizeSub (findLastNotOf s isBlank) (s.takeWhile isBlank).length + 1 = m + 1 := by
      have hle := hprefix.length_le
      unfold npos at h
      rw [hend, sizeSub_of_le (by omega) (by omega)]
      omega
    dsimp only
    rw [if_pos hlt, if_neg (hlt.trans h).ne, hcount, substr_of_le hlt.le, hdrop, ← hm]
    exact congrArg Except.ok (List.prefix_iff_eq_take.mp hprefix).symm

/-! ## The loop -/

/-- A round looks at the bytes up to the next comma. -/
theorem chunkedRound_token {value token : Bytes} {start comma : ℕ} (hstart : start ≤ value.length)
    (hcomma : findByte value 44 start = comma)
    (htoken : (value.drop start).take (sizeSub comma start) = token) (hlen : token.length < npos) :
    chunkedRound value (start, false) =
      if toLower (trim token) = ascii "chunked" then .leave (start, true)
      else if comma = npos then .leave (start, false)
      else .next (comma + 1, false) := by
  unfold chunkedRound
  dsimp only
  rw [hcomma, substr_of_le hstart, htoken]
  dsimp only
  rw [trimInPlace_eq hlen]

/-- In the last element the loop ends with its answer. -/
theorem chunkedRound_last {value : Bytes} (h : value.length < npos) {start : ℕ}
    (hstart : start ≤ value.length) (hfind : find [44] (value.drop start) = none) :
    chunkedRound value (start, false) =
      .leave (start, decide (toLower (trim (value.drop start)) = ascii "chunked")) := by
  have hlen : (value.drop start).length = value.length - start := List.length_drop
  have hcomma : findByte value 44 start = npos := by rw [findByte, hfind]
  have hall : (value.drop start).take (sizeSub npos start) = value.drop start := by
    apply List.take_of_length_le
    rw [sizeSub_of_le (by omega) (by decide)]
    omega
  rw [chunkedRound_token hstart hcomma hall (by omega), if_pos rfl]
  by_cases hchunked : toLower (trim (value.drop start)) = ascii "chunked"
  · rw [if_pos hchunked, decide_eq_true hchunked]
  · rw [if_neg hchunked, decide_eq_false hchunked]

/-- In front of a comma it ends with the coding, or goes on behind the comma. -/
theorem chunkedRound_element {value : Bytes} (h : value.length < npos) {start k : ℕ}
    (hk : start + k + 1 ≤ value.length) (hfind : find [44] (value.drop start) = some k) :
    chunkedRound value (start, false) =
      if toLower (trim ((value.drop start).take k)) = ascii "chunked" then .leave (start, true)
      else .next (start + k + 1, false) := by
  have hcomma : findByte value 44 start = start + k := by rw [findByte, hfind]
  have hnpos : start + k ≠ npos := by omega
  have hcount : sizeSub (start + k) start = k := by
    unfold npos at h
    rw [sizeSub_of_le (by omega) (by omega)]
    omega
  have hshort : ((value.drop start).take k).length < npos := by
    rw [List.length_take, List.length_drop]
    omega
  rw [chunkedRound_token (by omega) hcomma (by rw [hcount]) hshort, if_neg hnpos]

/-- From `start` on the loop computes what the elements behind `start` say. -/
theorem whileLoop_chunked {value : Bytes} (h : value.length < npos) {fuel start : ℕ}
    (hstart : start ≤ value.length) (hfuel : value.length - start < fuel) :
    ∃ pos, whileLoop (fun _ => true) (fun scan => some (chunkedRound value scan)) fuel
      (start, false) = some (.done (pos, containsChunkedFrom fuel (value.drop start))) := by
  induction fuel generalizing start with
  | zero => omega
  | succ fuel ih =>
    rw [whileLoop, if_pos rfl, containsChunkedFrom]
    cases hfind : find [44] (value.drop start) with
    | none =>
      rw [chunkedRound_last h hstart hfind]
      exact ⟨start, rfl⟩
    | some k =>
      have hk := find_add_length_le hfind
      rw [List.length_singleton, List.length_drop] at hk
      have hnext : start + k + 1 ≤ value.length := by omega
      rw [chunkedRound_element h hnext hfind]
      dsimp only
      by_cases hchunked : toLower (trim ((value.drop start).take k)) = ascii "chunked"
      · rw [if_pos hchunked, if_pos hchunked]
        exact ⟨start, rfl⟩
      · rw [if_neg hchunked, if_neg hchunked, List.drop_drop, ← Nat.add_assoc]
        exact ih hnext (by omega)

/-- The header scan asks the loop of the source. -/
theorem containsChunkedLoop_eq {value : Bytes} (h : value.length < npos) :
    ∃ pos, containsChunkedLoop value (value.length + 1) =
      some (.done (pos, containsChunked value)) :=
  whileLoop_chunked h (Nat.zero_le _) (by omega)

/-- **`contains_chunked` ends, without a `substr` out of range, and returns whether one of the
comma-separated elements is `chunked`.**  Every string is shorter than `npos`. -/
theorem containsChunkedLoop_spec (value : Bytes) (h : value.length < npos) :
    ∃ pos found, containsChunkedLoop value (value.length + 1) = some (.done (pos, found)) ∧
      (found = true ↔ ListsChunked value) := by
  obtain ⟨pos, hrun⟩ := containsChunkedLoop_eq h
  exact ⟨pos, _, hrun, containsChunkedFrom_iff (Nat.lt_succ_self _)⟩

/-- The loop on a value with an empty element and one behind its last comma. -/
theorem containsChunkedLoop_spec_trailing :
    ∃ pos found,
      containsChunkedLoop (ascii "a,,\tChunked ,") ((ascii "a,,\tChunked ,").length + 1) =
        some (.done (pos, found)) ∧
      (found = true ↔ ListsChunked (ascii "a,,\tChunked ,")) :=
  containsChunkedLoop_spec (ascii "a,,\tChunked ,") (by decide)

end PkuyoProxy.Analysis
