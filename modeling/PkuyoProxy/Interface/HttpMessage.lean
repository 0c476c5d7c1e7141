import Mathlib.Data.List.DropRight
import PkuyoProxy.Interface.HeaderBlock

/-!
# Well-formed HTTP messages

The grammar of the messages a peer may send, in terms of its own: a start line of three
parts, fields with a name and a value, and a body that the fields announce either by its
length or as chunked.  `HttpMessage.headerLines` and `framing_lines` say how
`process_http_headers` sees such a message.
-/

set_option autoImplicit false

namespace PkuyoProxy.Interface

open PkuyoProxy.Lib PkuyoProxy.Model

/-- A byte of a line. -/
def isTextByte (c : UInt8) : Bool := c ≠ 13 && c ≠ 10

/-- A byte of a method, a version or a field name. -/
def isNameByte (c : UInt8) : Bool := isTextByte c && !isBlank c && c ≠ 58

/-! ## Fields -/

/-- A header field, as it is written. -/
structure Field where
  name : Bytes
  value : Bytes
  name_ne : name ≠ []
  name_bytes : ∀ c ∈ name, isNameByte c = true
  value_bytes : ∀ c ∈ value, isTextByte c = true

namespace Field

/-- Its line. -/
def line (f : Field) : Bytes := f.name ++ 58 :: f.value

/-- Field names are compared without case. -/
def key (f : Field) : Bytes := toLower f.name

/-- One of the codings listed in the value is `chunked`. -/
def ListsChunked (f : Field) : Prop :=
  ∃ coding ∈ (trim f.value).splitOn 44, toLower (trim coding) = ascii "chunked"

/-- The value is the decimal text of `n`. -/
def Denotes (f : Field) (n : ℕ) : Prop :=
  trim f.value ≠ [] ∧ (∀ c ∈ trim f.value, isDigit 10 c = true) ∧
    digitsValue 10 (trim f.value) = n

end Field

/-! ## Start lines -/

/-- Method, target and version, or version, status code and reason. -/
structure StartLine where
  first : Bytes
  second : Bytes
  third : Bytes
  first_ne : first ≠ []
  first_bytes : ∀ c ∈ first, isNameByte c = true
  second_ne : second ≠ []
  second_bytes : ∀ c ∈ second, isTextByte c = true ∧ isBlank c = false
  second_head : second.head? ≠ some 58
  third_bytes : ∀ c ∈ third, isTextByte c = true

/-- The three parts with spaces between them. -/
def StartLine.line (s : StartLine) : Bytes := s.first ++ 32 :: (s.second ++ 32 :: s.third)

/-! ## Messages -/

/-- A body of announced length or in chunks. -/
inductive Body
  | sized (content : Bytes)
  | chunked (chunks : List Chunk)

namespace Body

/-- The decoded body. -/
def content : Body → Bytes
  | sized content => content
  | chunked chunks => chunks.flatMap Chunk.data

/-- The bytes of the body. -/
def wire : Body → Bytes
  | sized content => content
  | chunked chunks => chunks.flatMap Chunk.wire ++ (lastChunk ++ crlf)

end Body

/-- The fields announce the body. -/
def BodyFramed (fields : List Field) : Body → Prop
  | .sized content =>
    (∀ f ∈ fields, f.key = ascii "transfer-encoding" → ¬ f.ListsChunked) ∧
      (∀ f ∈ fields, f.key = ascii "content-length" → f.Denotes content.length) ∧
      (content ≠ [] → ∃ f ∈ fields, f.key = ascii "content-length")
  | .chunked _ => ∃ f ∈ fields, f.key = ascii "transfer-encoding" ∧ f.ListsChunked

/-- A start line, fields and the body that they announce. -/
structure HttpMessage where
  start : StartLine
  fields : List Field
  body : Body
  framed : BodyFramed fields body

namespace HttpMessage

/-- The lines of the header block. -/
def lines (m : HttpMessage) : List Bytes := m.start.line :: m.fields.map Field.line

/-- The bytes of the message. -/
def wire (m : HttpMessage) : Bytes := joinLines crlf m.lines ++ crlf ++ m.body.wire

/-- The message as `rev_handler` is to receive it from a connection of the given side and
peer. -/
def forwarded (ip : Bytes) (isRequest : Bool) (m : HttpMessage) : Bytes × Bytes × Bool :=
  ((processHttpHeaders { header := joinLines crlf m.lines } ip isRequest).1.header,
    m.body.content, true)

end HttpMessage

/-! ## The lines of a message -/

/-- A line of text bytes contains no line end. -/
theorem not_crlf_of_text {s : Bytes} (h : ∀ c ∈ s, isTextByte c = true) : ¬ crlf <:+: s := by
  intro hin
  have hmem : (13 : UInt8) ∈ s := hin.subset (by decide)
  exact absurd (h 13 hmem) (by decide)

/-- A byte of a name is a text byte. -/
theorem isTextByte_of_name {c : UInt8} (h : isNameByte c = true) : isTextByte c = true := by
  unfold isNameByte at h
  grind

/-- A byte of a name is not blank. -/
theorem not_blank_of_name {c : UInt8} (h : isNameByte c = true) : isBlank c = false := by
  unfold isNameByte at h
  grind

/-- A byte of a name is not the colon. -/
theorem ne_colon_of_name {c : UInt8} (h : isNameByte c = true) : c ≠ 58 := by
  unfold isNameByte at h
  grind

/-- The line of a field is made of text bytes. -/
theorem Field.line_bytes (f : Field) : ∀ c ∈ f.line, isTextByte c = true := by
  intro c hc
  rcases List.mem_append.mp hc with hc | hc
  · exact isTextByte_of_name (f.name_bytes c hc)
  · rcases List.mem_cons.mp hc with rfl | hc
    · decide
    · exact f.value_bytes c hc

/-- The start line is made of text bytes. -/
theorem StartLine.line_bytes (s : StartLine) : ∀ c ∈ s.line, isTextByte c = true := by
  intro c hc
  simp only [StartLine.line, List.mem_append, List.mem_cons] at hc
  rcases hc with hc | rfl | hc | rfl | hc
  · exact isTextByte_of_name (s.first_bytes c hc)
  · decide
  · exact (s.second_bytes c hc).1
  · decide
  · exact s.third_bytes c hc

/-- The lines of a message are header lines. -/
theorem HttpMessage.headerLines (m : HttpMessage) : HeaderLines m.lines := by
  refine ⟨by simp [lines], ?_, ?_⟩
  · intro l hl
    rcases List.mem_cons.mp hl with rfl | hl
    · exact not_crlf_of_text m.start.line_bytes
    · obtain ⟨f, -, rfl⟩ := List.mem_map.mp hl
      exact not_crlf_of_text f.line_bytes
  · intro l hl
    obtain ⟨f, -, rfl⟩ := List.mem_map.mp (show l ∈ m.fields.map Field.line from hl)
    simp [Field.line]

/-! ## How the lines are read -/

/-- Trimming leaves a text without blanks as it is. -/
theorem trim_eq_self {s : Bytes} (h : ∀ c ∈ s, isBlank c = false) : trim s = s := by
  have hdrop : s.dropWhile isBlank = s := by
    apply List.dropWhile_eq_self_iff.mpr
    intro hl
    simp [h _ (List.getElem_mem hl)]
  have hrdrop : s.rdropWhile isBlank = s := by
    apply List.rdropWhile_eq_self_iff.mpr
    intro hl
    simp [h _ (List.getLast_mem hl)]
  rw [trim, hdrop, hrdrop]

/-- The line of a field is read back as its name in lower case and its trimmed value. -/
theorem Field.fieldOf_line (f : Field) : fieldOf f.line = some (f.key, trim f.value) := by
  have hcolon : (58 : UInt8) ∉ f.name := fun h => ne_colon_of_name (f.name_bytes 58 h) rfl
  have hdrop : f.line.drop (f.name.length + 1) = f.value := by
    rw [← List.drop_drop, line, List.drop_left]
    rfl
  have htake : f.line.take f.name.length = f.name := List.take_left
  have hfind : find [58] f.line = some f.name.length := find_singleton hcolon f.value
  rw [fieldOf, hfind, Option.map_some, htake, hdrop,
    trim_eq_self fun c hc => not_blank_of_name (f.name_bytes c hc), key]

/-- The scan of the codings finds `chunked` exactly if it is one of those between the commas. -/
theorem containsChunkedFrom_iff {fuel : ℕ} {rest : Bytes} (h : rest.length < fuel) :
    containsChunkedFrom fuel rest = true ↔
      ∃ coding ∈ rest.splitOn 44, toLower (trim coding) = ascii "chunked" := by
  induction fuel generalizing rest with
  | zero => omega
  | succ fuel ih =>
    unfold containsChunkedFrom
    cases hf : find [44] rest with
    | none =>
      have hnot := find_singleton_eq_none.mp hf
      simp [List.splitOn_eq_singleton hnot]
    | some comma =>
      have hlen := find_add_length_le hf
      rw [List.length_singleton] at hlen
      have hnot : (44 : UInt8) ∉ rest.take comma :=
        find_singleton_eq_none.mp (find_take_of_lt hf (by simp))
      have hsplit := take_append_drop_of_find hf
      have hrest : rest.splitOn 44 =
          rest.take comma :: (rest.drop (comma + 1)).splitOn 44 := by
        conv_lhs => rw [← hsplit]
        rw [List.append_assoc]
        exact List.splitOn_append_cons_self_of_not_mem hnot _
      have hshort : (rest.drop (comma + 1)).length < fuel := by
        rw [List.length_drop]
        omega
      have htail := ih hshort
      rw [hrest]
      by_cases hc : toLower (trim (rest.take comma)) = ascii "chunked"
      · simp [hc]
      · simp [hc, htail]

/-- The code takes a value for chunked exactly if the field lists this coding. -/
theorem Field.containsChunked_iff (f : Field) :
    containsChunked (trim f.value) = true ↔ f.ListsChunked :=
  containsChunkedFrom_iff (Nat.lt_succ_self _)

/-- What the line of a field adds to the framing that was read so far. -/
theorem Field.frameLine_line (f : Field) (acc : Bool × ℕ) :
    frameLine acc f.line =
      if f.key = ascii "transfer-encoding" then
        (acc.1 || containsChunked (trim f.value), acc.2)
      else if f.key = ascii "content-length" then
        (acc.1, (stoul 10 (trim f.value)).toOption.getD acc.2)
      else acc := by
  rw [frameLine, f.fieldOf_line]

/-- Fields that list no `chunked` and agree on a length announce that length. -/
theorem foldl_fields_sized {fields : List Field} {n : ℕ} (hn : n < 2 ^ 64)
    (hte : ∀ f ∈ fields, f.key = ascii "transfer-encoding" → ¬ f.ListsChunked)
    (hcl : ∀ f ∈ fields, f.key = ascii "content-length" → f.Denotes n) (k : ℕ)
    (hk : k = n ∨ ∃ f ∈ fields, f.key = ascii "content-length") :
    (fields.map Field.line).foldl frameLine (false, k) = (false, n) := by
  induction fields generalizing k with
  | nil => simpa using hk
  | cons f fields ih =>
    have hrest := ih (fun g hg => hte g (by simp [hg])) (fun g hg => hcl g (by simp [hg]))
    rw [List.map_cons, List.foldl_cons, f.frameLine_line]
    by_cases hf : f.key = ascii "transfer-encoding"
    · have hno : containsChunked (trim f.value) = false :=
        Bool.eq_false_iff.mpr fun h => hte f (by simp) hf (f.containsChunked_iff.mp h)
      rw [if_pos hf, hno, Bool.or_self]
      refine hrest k (hk.imp_right ?_)
      rintro ⟨g, hg, hkey⟩
      rcases List.mem_cons.mp hg with rfl | hg
      · rw [hf] at hkey
        exact absurd hkey (by decide)
      · exact ⟨g, hg, hkey⟩
    · rw [if_neg hf]
      by_cases hc : f.key = ascii "content-length"
      · obtain ⟨hne, hdigits, hvalue⟩ := hcl f (by simp) hc
        have hstoul := stoul_digits hne hdigits (by rw [hvalue]; exact hn)
        rw [if_pos hc, hstoul, hvalue]
        exact hrest n (.inl rfl)
      · rw [if_neg hc]
        refine hrest k (hk.imp_right ?_)
        rintro ⟨g, hg, hkey⟩
        rcases List.mem_cons.mp hg with rfl | hg
        · exact absurd hkey hc
        · exact ⟨g, hg, hkey⟩

/-- A field that lists `chunked` announces chunks, whatever the others say. -/
theorem foldl_fields_chunked {fields : List Field} (acc : Bool × ℕ)
    (h : acc.1 = true ∨ ∃ f ∈ fields, f.key = ascii "transfer-encoding" ∧ f.ListsChunked) :
    ((fields.map Field.line).foldl frameLine acc).1 = true := by
  induction fields generalizing acc with
  | nil => simpa using h
  | cons f fields ih =>
    rw [List.map_cons, List.foldl_cons]
    apply ih _
    rcases h with h | ⟨g, hg, hkey, hlists⟩
    · left
      rw [f.frameLine_line]
      split
      · simp [h]
      · split <;> exact h
    · rcases List.mem_cons.mp hg with rfl | hg
      · left
        rw [g.frameLine_line, if_pos hkey, g.containsChunked_iff.mpr hlists, Bool.or_true]
      · exact .inr ⟨g, hg, hkey, hlists⟩

/-- What a header block has to announce in front of a body. -/
def Body.AnnouncedBy (body : Body) (framing : Bool × ℕ) : Prop :=
  match body with
  | .sized content => framing = (false, content.length)
  | .chunked _ => framing.1 = true

/-- The framing that is read from the lines of a message announces its body. -/
theorem HttpMessage.framing_lines (m : HttpMessage) (hlen : m.body.content.length < 2 ^ 64) :
    m.body.AnnouncedBy (framing m.lines) := by
  have hframed := m.framed
  change m.body.AnnouncedBy ((m.fields.map Field.line).foldl frameLine (false, 0))
  cases hb : m.body with
  | sized content =>
    rw [hb] at hframed hlen
    obtain ⟨hte, hcl, hex⟩ := hframed
    apply foldl_fields_sized hlen hte hcl 0
    by_cases hnil : content = []
    · exact .inl (by simp [Body.content, hnil])
    · exact .inr (hex hnil)
  | chunked chunks =>
    rw [hb] at hframed
    exact foldl_fields_chunked _ (.inr hframed)

end PkuyoProxy.Interface
