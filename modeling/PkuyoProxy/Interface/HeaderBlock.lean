import PkuyoProxy.Interface.Messages

/-!
# Header blocks as lists of lines

A block is the start line and the field lines, none of them empty, each with its line end.
What it says about the body (`framing`) is read off the field lines one after the other;
lines that say nothing about it (`Neutral`) can be replaced or added freely.
-/

set_option autoImplicit false

namespace PkuyoProxy.Interface

open PkuyoProxy.Lib PkuyoProxy.Model

/-- The start line and the field lines of a block. -/
structure HeaderLines (ls : List Bytes) : Prop where
  ne : ls ≠ []
  line : ∀ l ∈ ls, ¬ crlf <:+: l
  field : ∀ l ∈ ls.drop 1, l ≠ []

/-- The lines of a block and their line ends, without the last one. -/
theorem exists_head {ls : List Bytes} (h : HeaderLines ls) :
    ∃ head, head ++ crlf = joinLines crlf ls := by
  obtain ⟨l, ls', rfl⟩ := List.exists_cons_of_ne_nil h.ne
  clear h
  induction ls' generalizing l with
  | nil => exact ⟨l, by simp⟩
  | cons r ls ih =>
    obtain ⟨head, hhead⟩ := ih r
    refine ⟨l ++ crlf ++ head, ?_⟩
    rw [joinLines_cons, ← hhead]
    simp

/-- Header lines are split back from their text. -/
theorem splitHeaders_joinLines {ls : List Bytes} (h : HeaderLines ls) :
    splitHeaders (joinLines crlf ls) = ls :=
  splitLines_joinLines (by decide) h.line

/-- The first blank line behind the lines of a block is the one that ends it. -/
theorem delimited_of_lines {head : Bytes} {ls : List Bytes} (h : HeaderLines ls)
    (hhead : head ++ crlf = joinLines crlf ls) : Delimited head := by
  obtain ⟨l, ls', rfl⟩ := List.exists_cons_of_ne_nil h.ne
  have hfind := (find_blank_iff (by decide) h.line).mpr h.field
  change find (crlf ++ crlf) (joinLines crlf (l :: ls') ++ crlf) =
    some ((joinLines crlf (l :: ls')).length - 2) at hfind
  rw [Delimited, ← List.append_assoc, hhead, hfind, ← hhead]
  simp [crlf]

/-- Every delimited block is the text of header lines. -/
theorem exists_headerLines {head : Bytes} (h : Delimited head) :
    ∃ ls, HeaderLines ls ∧ head ++ crlf = joinLines crlf ls := by
  obtain ⟨l, ls, hline, heq⟩ := exists_joinLines (13 : UInt8) 10 head
  change head ++ crlf = joinLines crlf (l :: ls) at heq
  refine ⟨l :: ls, ⟨by simp, hline, ?_⟩, heq⟩
  apply (find_blank_iff (by decide) hline).mp
  change find (crlf ++ crlf) (joinLines crlf (l :: ls) ++ crlf) =
    some ((joinLines crlf (l :: ls)).length - 2)
  rw [← heq, List.append_assoc, h]
  simp [crlf]

/-! ## What the lines say about the body -/

/-- What one field line adds: that the body is chunked, or its length. -/
def frameLine (acc : Bool × ℕ) (line : Bytes) : Bool × ℕ :=
  match fieldOf line with
  | none => acc
  | some (name, value) =>
    if name = ascii "transfer-encoding" then (acc.1 || containsChunked value, acc.2)
    else if name = ascii "content-length" then (acc.1, (stoul 10 value).toOption.getD acc.2)
    else acc

/-- Whether the field lines announce chunks, and the length they announce. -/
def framing (ls : List Bytes) : Bool × ℕ := (ls.drop 1).foldl frameLine (false, 0)

/-- The line says nothing about the body. -/
def Neutral (line : Bytes) : Prop := ∀ acc, frameLine acc line = acc

/-- A field other than those of the framing is neutral. -/
theorem neutral_of_field {line name value : Bytes} (h : fieldOf line = some (name, value))
    (hte : name ≠ ascii "transfer-encoding") (hcl : name ≠ ascii "content-length") :
    Neutral line := by
  intro acc
  simp [frameLine, h, hte, hcl]

/-- Replacing a neutral line by another one keeps the framing. -/
theorem foldl_frameLine_set {line : Bytes} (hnew : Neutral line) (ls : List Bytes) (i : ℕ)
    (hold : ∀ old, ls[i]? = some old → Neutral old) (acc : Bool × ℕ) :
    (ls.set i line).foldl frameLine acc = ls.foldl frameLine acc := by
  induction ls generalizing i acc with
  | nil => rfl
  | cons l ls ih =>
    cases i with
    | zero =>
      have hl : Neutral l := hold l rfl
      simp [hnew acc, hl acc]
    | succ i => simpa using ih i hold (frameLine acc l)

/-! ## Rewriting a block -/

/-- `ls'` frames the body as `ls` does, and consists of the lines of a block. -/
structure Conveys (ls ls' : List Bytes) : Prop where
  framing : framing ls' = framing ls
  lines : HeaderLines ls'

/-- A block conveys itself. -/
theorem Conveys.refl {ls : List Bytes} (h : HeaderLines ls) : Conveys ls ls := ⟨rfl, h⟩

/-- What is conveyed twice is conveyed. -/
theorem Conveys.trans {ls ls' ls'' : List Bytes} (h : Conveys ls ls') (h' : Conveys ls' ls'') :
    Conveys ls ls'' :=
  ⟨h'.framing.trans h.framing, h'.lines⟩

/-- A neutral field line may be replaced by a neutral field line. -/
theorem conveys_set {ls : List Bytes} {line : Bytes} {i : ℕ} (h : HeaderLines ls) (hi : 1 ≤ i)
    (hold : ∀ old, ls[i]? = some old → Neutral old) (hnew : Neutral line)
    (hcrlf : ¬ crlf <:+: line) (hne : line ≠ []) : Conveys ls (ls.set i line) := by
  obtain ⟨l, ls, rfl⟩ := List.exists_cons_of_ne_nil h.ne
  obtain ⟨j, rfl⟩ : ∃ j, i = j + 1 := ⟨i - 1, by omega⟩
  refine ⟨foldl_frameLine_set hnew ls j hold _, ⟨by simp, ?_, ?_⟩⟩
  · intro l' hl'
    rcases List.mem_or_eq_of_mem_set hl' with hl' | rfl
    · exact h.line l' hl'
    · exact hcrlf
  · intro l' hl'
    rcases List.mem_or_eq_of_mem_set (i := j) hl' with hl' | rfl
    · exact h.field l' hl'
    · exact hne

/-- A block with one more neutral line at its end conveys the block. -/
theorem conveys_append {ls : List Bytes} {line : Bytes} (h : HeaderLines ls) (hnew : Neutral line)
    (hcrlf : ¬ crlf <:+: line) (hne : line ≠ []) : Conveys ls (ls ++ [line]) := by
  obtain ⟨l, ls, rfl⟩ := List.exists_cons_of_ne_nil h.ne
  refine ⟨by simp [framing, hnew _], ⟨by simp, ?_, ?_⟩⟩
  · intro l' hl'
    rcases List.mem_append.mp hl' with hl' | hl'
    · exact h.line l' hl'
    · rwa [List.mem_singleton.mp hl']
  · intro l' hl'
    rcases List.mem_append.mp (show l' ∈ ls ++ [line] from hl') with hl' | hl'
    · exact h.field l' hl'
    · rwa [List.mem_singleton.mp hl']

end PkuyoProxy.Interface
