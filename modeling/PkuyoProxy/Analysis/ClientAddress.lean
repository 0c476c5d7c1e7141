import PkuyoProxy.Analysis.HeaderRewriting
import PkuyoProxy.Lib.FirstMatch

/-!
# The client's address in a forwarded request

`process_http_headers` remembers the first line of each forwarding field in its first pass
and edits that line in its second.  So the first `X-Real-IP` value and the end of the first
`X-Forwarded-For` value are the proxy's, and every further line is forwarded as the client
sent it (`rewriteLines_values`).  The address is therefore not spoofed exactly if these further
values are the address itself (`not_spoofed_iff`).
-/

set_option autoImplicit false

namespace PkuyoProxy.Analysis

open PkuyoProxy.Lib PkuyoProxy.Model PkuyoProxy.Interface

/-! ## Reading a block -/

/-- The value of a line of the field `name`, which is in lower case. -/
def valueOf (name line : Bytes) : Option Bytes :=
  (fieldOf line).bind fun field => if field.1 = name then some field.2 else none

/-- The values of the field lines called `name`, in order. -/
def fieldValues (name : Bytes) (lines : List Bytes) : List Bytes :=
  (lines.drop 1).filterMap (valueOf name)

/-- The elements of a list given in several values, as if these were joined by commas. -/
def listElements (values : List Bytes) : List Bytes :=
  values.flatMap fun value => (value.splitOn 44).map trim

/-- The name of the client's address, in lower case. -/
def xRealIp : Bytes := ascii "x-real-ip"

/-- The name of the list of addresses, in lower case. -/
def xForwardedFor : Bytes := ascii "x-forwarded-for"

/-- An IPv4 address in text form: four runs of digits. -/
structure DottedQuad where
  first : Bytes
  second : Bytes
  third : Bytes
  fourth : Bytes
  octet_ne : first ≠ [] ∧ second ≠ [] ∧ third ≠ [] ∧ fourth ≠ []
  digits : ∀ c ∈ first ++ second ++ third ++ fourth, isDigit 10 c = true

/-- Its text, with the dots. -/
def DottedQuad.text (q : DottedQuad) : Bytes :=
  q.first ++ ascii "." ++ q.second ++ ascii "." ++ q.third ++ ascii "." ++ q.fourth

/-- The client address cannot be spoofed: in the block that is forwarded, every `X-Real-IP`
line has the address, there is one, and the `X-Forwarded-For` list is the client's own with
the address behind it. -/
structure NotSpoofed (addr head : Bytes) : Prop where
  realIp_ne : fieldValues xRealIp (splitHeaders (rewritten addr true head)) ≠ []
  realIp : ∀ v ∈ fieldValues xRealIp (splitHeaders (rewritten addr true head)), v = addr
  forwardedFor :
    listElements (fieldValues xForwardedFor (splitHeaders (rewritten addr true head))) =
      listElements (fieldValues xForwardedFor (splitHeaders (head ++ crlf))) ++ [addr]

/-! ## Trimming -/

/-- No blank at either end. -/
def Trimmed (s : Bytes) : Prop :=
  (∀ c, s.head? = some c → isBlank c = false) ∧ ∀ c, s.getLast? = some c → isBlank c = false

/-- Trimming changes nothing that is trimmed. -/
theorem trim_of_trimmed {s : Bytes} (h : Trimmed s) : trim s = s := by
  have hdrop : s.dropWhile isBlank = s := by
    cases s with
    | nil => rfl
    | cons c s => simp [h.1 c rfl]
  have hrdrop : s.rdropWhile isBlank = s := by
    apply List.rdropWhile_eq_self_iff.mpr
    intro hl
    simp [h.2 _ (List.getLast?_eq_some_getLast hl)]
  rw [trim, hdrop, hrdrop]

/-- What was trimmed is. -/
theorem trimmed_trim (s : Bytes) : Trimmed (trim s) := by
  constructor
  · intro c hc
    obtain ⟨rest, hrest⟩ : trim s <+: s.dropWhile isBlank := List.rdropWhile_prefix isBlank _
    have hhead : (s.dropWhile isBlank).head? = some c := by
      rw [← hrest, List.head?_append, hc]
      rfl
    have hnot := List.head?_dropWhile_not isBlank s
    rw [hhead] at hnot
    simpa using hnot
  · intro c hc
    have hne : trim s ≠ [] := by
      rintro hnil
      rw [hnil] at hc
      cases hc
    have hlast := List.rdropWhile_last_not isBlank (s.dropWhile isBlank) hne
    rw [List.getLast?_eq_some_getLast hne] at hc
    rw [← Option.some.inj hc]
    exact Bool.eq_false_iff.mpr hlast

/-- Two trimmed texts make one. -/
theorem Trimmed.append {s t : Bytes} (hs : Trimmed s) (ht : Trimmed t) : Trimmed (s ++ t) := by
  constructor
  · intro c hc
    rw [List.head?_append] at hc
    cases hsc : s.head? with
    | none =>
      rw [hsc] at hc
      exact ht.1 c hc
    | some x =>
      rw [hsc] at hc
      cases hc
      exact hs.1 c hsc
  · intro c hc
    rw [List.getLast?_append] at hc
    cases htc : t.getLast? with
    | none =>
      rw [htc] at hc
      exact hs.2 c hc
    | some x =>
      rw [htc] at hc
      cases hc
      exact ht.2 c htc

/-- Trimming drops a blank at the start. -/
theorem trim_blank_cons {c : UInt8} (hc : isBlank c = true) (s : Bytes) :
    trim (c :: s) = trim s := by
  rw [trim, List.dropWhile_cons_of_pos hc, trim]

/-- A text that can stand as an element of the list: not empty, no blank at its ends, no
comma and no line end. -/
structure IsElement (addr : Bytes) : Prop where
  ne : addr ≠ []
  trimmed : Trimmed addr
  no_comma : 44 ∉ addr
  no_cr : 13 ∉ addr
  no_lf : 10 ∉ addr

/-- The element with the separator the proxy puts in front of it. -/
theorem IsElement.trimmed_appended {addr value : Bytes} (h : IsElement addr)
    (hvalue : Trimmed value) : Trimmed (value ++ ascii ", " ++ addr) := by
  obtain ⟨c, hc⟩ := Option.ne_none_iff_exists'.mp (mt List.getLast?_eq_none_iff.mp h.ne)
  have htail : Trimmed (ascii ", " ++ addr) := by
    constructor
    · intro x hx
      cases hx
      decide
    · intro x hx
      rw [List.getLast?_append, hc] at hx
      cases hx
      exact h.trimmed.2 c hc
  rw [List.append_assoc]
  exact hvalue.append htail

/-- An address that is appended to a list behind a comma is its last element. -/
theorem listElements_appended {addr : Bytes} (h : IsElement addr) (value : Bytes) :
    listElements [value ++ ascii ", " ++ addr] = listElements [value] ++ [addr] := by
  have hcomma : (44 : UInt8) ∉ 32 :: addr := by simp [h.no_comma]
  have hsplit : (value ++ ascii ", " ++ addr).splitOn 44 = value.splitOn 44 ++ [32 :: addr] := by
    rw [show value ++ ascii ", " ++ addr = value ++ 44 :: 32 :: addr by simp [ascii],
      List.splitOn_append_cons_self, List.splitOn_eq_singleton hcomma]
  have htrim : trim (32 :: addr) = addr :=
    (trim_blank_cons (by decide) addr).trans (trim_of_trimmed h.trimmed)
  simp only [listElements, List.flatMap_singleton, hsplit, List.map_append, List.map_singleton,
    htrim]

/-- The text of a dotted quad is made of digits and dots. -/
theorem DottedQuad.byte {q : DottedQuad} {c : UInt8} (h : c ∈ q.text) :
    isDigit 10 c = true ∨ c = 46 := by
  simp only [text, List.mem_append, ascii] at h
  have hdigit := q.digits c
  simp only [List.mem_append] at hdigit
  have hdot : c ∈ List.map (fun c => UInt8.ofNat c.toNat) ".".toList → c = 46 := by
    intro hc
    simpa using hc
  grind

/-- The text of a dotted quad can be an element of a list. -/
theorem DottedQuad.isElement (q : DottedQuad) : IsElement q.text := by
  have hno {c : UInt8} (hc : isDigit 10 c = false) (hdot : c ≠ 46) : c ∉ q.text := by
    intro h
    rcases q.byte h with hd | hd
    · rw [hc] at hd
      cases hd
    · exact hdot hd
  have hblank (c : UInt8) (h : c ∈ q.text) : isBlank c = false := by
    by_contra hb
    have hc : c = 32 ∨ c = 9 := by simpa [isBlank, or_iff_not_imp_left] using hb
    rcases hc with rfl | rfl
    · exact hno (by decide) (by decide) h
    · exact hno (by decide) (by decide) h
  refine ⟨by simp [text, ascii], ⟨?_, ?_⟩, ?_, ?_, ?_⟩
  · exact fun c hc => hblank c (List.mem_of_head? hc)
  · exact fun c hc => hblank c (List.mem_of_getLast? hc)
  · exact hno (by decide) (by decide)
  · exact hno (by decide) (by decide)
  · exact hno (by decide) (by decide)

/-! ## What the first pass remembers -/

/-- A line is kept as the first list of addresses if there was none before it and it is one. -/
theorem scanLine_forwardedFor (acc : HeaderScan) (entry : Bytes × ℕ) :
    (scanLine true acc entry).xffIdx.map (·, (scanLine true acc entry).xffValue) =
      (acc.xffIdx.map (·, acc.xffValue)).or
        (((valueOf xForwardedFor entry.1).map (entry.2, ·)).map id) := by
  unfold scanLine valueOf
  cases fieldOf entry.1 with
  | none => simp
  | some field =>
    obtain ⟨name, value⟩ := field
    simp only [Option.bind_some]
    by_cases hxff : name = xForwardedFor
    · subst hxff
      rw [if_neg (by decide), if_neg (by decide), if_pos ⟨trivial, rfl⟩, if_pos rfl]
      cases hidx : acc.xffIdx <;> simp [hidx]
    · rw [if_neg hxff, Option.map_none, Option.map_none, Option.or_none]
      repeat' split
      all_goals first
        | rfl
        | exact absurd (And.right ‹_›) hxff

/-- A line is kept as the first client's address if there was none before it and it is one. -/
theorem scanLine_realIp (acc : HeaderScan) (entry : Bytes × ℕ) :
    (scanLine true acc entry).xriIdx =
      acc.xriIdx.or (((valueOf xRealIp entry.1).map (entry.2, ·)).map Prod.fst) := by
  unfold scanLine valueOf
  cases fieldOf entry.1 with
  | none => simp
  | some field =>
    obtain ⟨name, value⟩ := field
    simp only [Option.bind_some]
    by_cases hxri : name = xRealIp
    · subst hxri
      rw [if_neg (by decide), if_neg (by decide), if_neg (by decide), if_pos ⟨trivial, rfl⟩,
        if_pos rfl]
      cases hidx : acc.xriIdx <;> simp [hidx]
    · rw [if_neg hxri, Option.map_none, Option.map_none, Option.or_none]
      repeat' split
      all_goals first
        | rfl
        | exact absurd (And.right ‹_›) hxri

section Scan

variable (start : Bytes) (fields : List Bytes)

/-- The scan finds the first list of addresses, and its index. -/
theorem scan_forwardedFor :
    (scanHeaders true (start :: fields)).xffIdx.map
        (·, (scanHeaders true (start :: fields)).xffValue) =
      firstMatch (valueOf xForwardedFor) 1 fields := by
  have h := @foldl_firstMatch _ _ _ _ _ (scanLine true)
    (fun s => s.xffIdx.map (·, s.xffValue)) id scanLine_forwardedFor {} 1 fields
  rwa [Option.map_id, id] at h

/-- The scan finds the index of the first client's address. -/
theorem scan_realIp :
    (scanHeaders true (start :: fields)).xriIdx =
      (firstMatch (valueOf xRealIp) 1 fields).map Prod.fst :=
  @foldl_firstMatch _ _ _ _ _ (scanLine true) HeaderScan.xriIdx Prod.fst scanLine_realIp {} 1
    fields

end Scan

/-! ## The values of the lines written back -/

/-- The value of a line under a name is the one of its field, if this is its name. -/
theorem valueOf_of_field {name name' line value : Bytes}
    (h : fieldOf line = some (name', value)) :
    valueOf name line = if name' = name then some value else none := by
  simp [valueOf, h]

/-- A line belongs to one field. -/
theorem valueOf_other {name name' line value : Bytes} (h : valueOf name line = some value)
    (hne : name ≠ name') : valueOf name' line = none := by
  unfold valueOf at h ⊢
  cases hf : fieldOf line with
  | none => rfl
  | some field =>
    rw [hf, Option.bind_some] at h
    rw [Option.bind_some]
    split at h
    · rename_i hname
      exact if_neg fun hname' => hne (hname.symm.trans hname')
    · cases h

/-- The value of a field is trimmed. -/
theorem trimmed_of_field {name line value : Bytes} (h : fieldOf line = some (name, value)) :
    Trimmed value := by
  unfold fieldOf at h
  obtain ⟨colon, -, hfield⟩ := Option.map_eq_some_iff.mp h
  injection hfield with _ hvalue
  rw [← hvalue]
  exact trimmed_trim _

section Values

variable {start : Bytes} {fields fields' : List Bytes} {addr : Bytes}

/-- `setRealIp` on lines that have the values of the scanned ones: the first value becomes
the address, and the other field is not touched. -/
theorem setRealIp_values (haddr : IsElement addr) {more : List (Option Bytes)}
    (hmore : ∀ x ∈ more, x = none)
    (hfields : fields'.map (valueOf xRealIp) = fields.map (valueOf xRealIp) ++ more) :
    fieldValues xRealIp
        (setRealIp (scanHeaders true (start :: fields)) addr (start :: fields')) =
      addr :: (fieldValues xRealIp (start :: fields)).drop 1 ∧
    fieldValues xForwardedFor
        (setRealIp (scanHeaders true (start :: fields)) addr (start :: fields')) =
      fieldValues xForwardedFor (start :: fields') := by
  have hnew : valueOf xRealIp (ascii "X-Real-IP: " ++ addr) = some addr := by
    rw [valueOf_of_field (fieldOf_realIp addr), if_pos (by decide),
      trim_blank_cons (by decide), trim_of_trimmed haddr.trimmed]
  have hother := valueOf_other hnew (show xRealIp ≠ xForwardedFor by decide)
  have hscan := scan_realIp start fields
  unfold setRealIp fieldValues
  cases hfirst : firstMatch (valueOf xRealIp) 1 fields with
  | none =>
    rw [hfirst] at hscan
    have hnone := firstMatch_eq_none_iff.mp hfirst
    have hnone' : fields'.filterMap (valueOf xRealIp) = [] := by
      rw [filterMap_eq_reduceOption, hfields, List.reduceOption_append,
        ← filterMap_eq_reduceOption, hnone, reduceOption_eq_nil hmore]
      rfl
    exact ⟨by simp [hscan, hnone, hnone', hnew], by simp [hscan, hother]⟩
  | some entry =>
    obtain ⟨i, v⟩ := entry
    rw [hfirst] at hscan
    obtain ⟨pre, post, hl, hpre, rfl⟩ := exists_of_firstMatch hfirst
    have hl' : fields'.map (valueOf xRealIp) = pre ++ some v :: (post ++ more) := by
      rw [hfields, hl]
      simp
    obtain ⟨hold, -⟩ := filterMap_set_first hl hpre hnew
    obtain ⟨-, hset⟩ := filterMap_set_first hl' hpre hnew
    rw [List.reduceOption_append, reduceOption_eq_nil hmore, List.append_nil] at hset
    simp only [hscan, Option.map_some, Nat.add_comm 1, List.set_cons_succ, List.drop_one,
      List.tail_cons, hold, hset, true_and]
    -- the line that is replaced is one of the same field
    rw [filterMap_eq_reduceOption, filterMap_eq_reduceOption, map_set_same]
    intro line hline
    have hv : valueOf xRealIp line = some v := by
      have hget := congrArg (·[pre.length]?) hl'
      simpa [hline] using hget
    rw [valueOf_other hv (by decide), hother]

/-- The value of an `X-Forwarded-For` line that was there, and what it becomes. -/
def appended (addr : Bytes) : List Bytes → List Bytes
  | [] => [addr]
  | value :: values => (value ++ ascii ", " ++ addr) :: values

/-- Behind the rewriting the address stands at the end of the first list of addresses, or is the
only one. -/
theorem setForwardedFor_values (haddr : IsElement addr) :
    fieldValues xForwardedFor
        (setForwardedFor (scanHeaders true (start :: fields)) addr (start :: fields)) =
      appended addr (fieldValues xForwardedFor (start :: fields)) := by
  have hscan := scan_forwardedFor start fields
  have hok := scanHeaders_ok true (start :: fields)
  unfold setForwardedFor fieldValues
  cases hidx : (scanHeaders true (start :: fields)).xffIdx with
  | none =>
    rw [hidx, Option.map_none, eq_comm] at hscan
    have hnone := firstMatch_eq_none_iff.mp hscan
    have hnew : valueOf xForwardedFor (ascii "X-Forwarded-For: " ++ addr) = some addr := by
      rw [valueOf_of_field (fieldOf_forwardedFor addr), if_pos (by decide),
        trim_blank_cons (by decide), trim_of_trimmed haddr.trimmed]
    simp [hnone, hnew, appended]
  | some i =>
    rw [hidx, Option.map_some, eq_comm] at hscan
    obtain ⟨pre, post, hl, hpre, rfl⟩ := exists_of_firstMatch hscan
    obtain ⟨-, line, hget, hfield⟩ := hok.forwardedFor _ hidx
    generalize (scanHeaders true (start :: fields)).xffValue = value at hl hfield ⊢
    have hline : (start :: fields).getD (1 + pre.length) [] = line := by
      rw [List.getD, hget, Option.getD_some]
    have hnew : valueOf xForwardedFor
        (uptoColon line ++ ascii " " ++ value ++ ascii ", " ++ addr) =
          some (value ++ ascii ", " ++ addr) := by
      have htrimmed := haddr.trimmed_appended (trimmed_of_field hfield)
      simp only [List.append_assoc] at htrimmed ⊢
      rw [valueOf_of_field (fieldOf_uptoColon hfield _), if_pos (by decide)]
      exact congrArg some ((trim_blank_cons (by decide) _).trans (trim_of_trimmed htrimmed))
    obtain ⟨hold, hset⟩ := filterMap_set_first hl hpre hnew
    dsimp only
    rw [hline]
    simp only [Nat.add_comm 1, List.set_cons_succ, List.drop_one, List.tail_cons, hold, hset,
      appended]

/-- The lines in which `X-Forwarded-For` has been set have the `X-Real-IP` values they had. -/
theorem setForwardedFor_fields :
    ∃ fields' more, setForwardedFor (scanHeaders true (start :: fields)) addr (start :: fields) =
        start :: fields' ∧
      fields'.map (valueOf xRealIp) = fields.map (valueOf xRealIp) ++ more ∧
      ∀ x ∈ more, x = none := by
  have hok := scanHeaders_ok true (start :: fields)
  unfold setForwardedFor
  cases hidx : (scanHeaders true (start :: fields)).xffIdx with
  | none =>
    refine ⟨fields ++ [ascii "X-Forwarded-For: " ++ addr], [none], rfl, ?_, by simp⟩
    have hnew : valueOf xRealIp (ascii "X-Forwarded-For: " ++ addr) = none := by
      rw [valueOf_of_field (fieldOf_forwardedFor addr), if_neg (by decide)]
    simp [hnew]
  | some i =>
    obtain ⟨hpos, line, hget, hfield⟩ := hok.forwardedFor i hidx
    obtain ⟨j, rfl⟩ : ∃ j, i = j + 1 := ⟨i - 1, by omega⟩
    have hline : (start :: fields).getD (j + 1) [] = line := by
      rw [List.getD, hget, Option.getD_some]
    dsimp only
    rw [hline, List.set_cons_succ]
    refine ⟨_, [], rfl, ?_, by simp⟩
    rw [List.append_nil]
    apply map_set_same
    intro old hold
    obtain rfl : old = line := Option.some.inj (hold.symm.trans hget)
    simp only [List.append_assoc]
    rw [valueOf_of_field hfield, valueOf_of_field (fieldOf_uptoColon hfield _),
      if_neg (by decide), if_neg (by decide)]

end Values

/-- **What the second pass makes of the two fields.** -/
theorem rewriteLines_values {lines : List Bytes} (hne : lines ≠ []) {addr : Bytes}
    (haddr : IsElement addr) :
    fieldValues xRealIp (rewriteLines true addr lines) =
        addr :: (fieldValues xRealIp lines).drop 1 ∧
      fieldValues xForwardedFor (rewriteLines true addr lines) =
        appended addr (fieldValues xForwardedFor lines) := by
  obtain ⟨start, fields, rfl⟩ := List.exists_cons_of_ne_nil hne
  obtain ⟨fields', more, hset, hfields, hmore⟩ :=
    @setForwardedFor_fields start fields addr
  have hxff := @setForwardedFor_values start fields addr haddr
  obtain ⟨hreal, hsame⟩ := @setRealIp_values start fields fields' addr haddr more hmore hfields
  simp only [rewriteLines, if_true]
  rw [hset] at hxff ⊢
  exact ⟨hreal, hsame.trans hxff⟩

/-! ## Whole blocks -/

/-- An empty line behind the others adds no value. -/
theorem fieldValues_blank {lines : List Bytes} (hne : lines ≠ []) (name : Bytes) :
    fieldValues name (lines ++ [[]]) = fieldValues name lines := by
  obtain ⟨start, fields, rfl⟩ := List.exists_cons_of_ne_nil hne
  have hblank : valueOf name [] = none := rfl
  simp [fieldValues, hblank]

/-- The lines of the block that is forwarded are the ones written back, and the blank one. -/
theorem splitHeaders_rewritten {head addr : Bytes} {lines : List Bytes} (h : HeaderLines lines)
    (hhead : head ++ crlf = joinLines crlf lines) (haddr : IsElement addr) :
    splitHeaders (rewritten addr true head) = rewriteLines true addr lines ++ [[]] ∧
      rewriteLines true addr lines ≠ [] := by
  have hcrlf : ¬ crlf <:+: addr := fun hin => haddr.no_cr (hin.subset (by simp [crlf]))
  have hlf : addr.head? ≠ some 10 := fun hh => haddr.no_lf (List.mem_of_head? hh)
  have hconveys := @rewriteLines_conveys true addr lines h hcrlf hlf
  refine ⟨?_, hconveys.lines.ne⟩
  have hjoin : rewritten addr true head =
      joinLines crlf (rewriteLines true addr lines ++ [[]]) := by
    rw [rewritten_eq h hhead, joinLines_append]
    simp
  rw [hjoin]
  refine splitLines_joinLines (by decide) fun l hl => ?_
  rcases List.mem_append.mp hl with hl | hl
  · exact hconveys.lines.line l hl
  · rw [List.mem_singleton.mp hl]
    decide

/-- A list that may begin or end with the same element consists of it. -/
theorem cons_eq_concat_iff {α : Type} (x : α) (l : List α) :
    x :: l = l ++ [x] ↔ ∀ y ∈ l, y = x := by
  induction l with
  | nil => simp
  | cons y l ih =>
    rw [List.cons_append, List.cons.injEq, List.forall_mem_cons]
    constructor
    · rintro ⟨rfl, h⟩
      exact ⟨rfl, ih.mp h⟩
    · rintro ⟨rfl, h⟩
      exact ⟨rfl, ih.mpr h⟩

/-- The elements of more lists are those of the first ones and those of the others. -/
theorem listElements_append (vs ws : List Bytes) :
    listElements (vs ++ ws) = listElements vs ++ listElements ws := by
  simp [listElements]

/-- The client's list with the address behind it, as far as the first line goes. -/
theorem listElements_appended_iff {addr : Bytes} (haddr : IsElement addr) (values : List Bytes) :
    listElements (appended addr values) = listElements values ++ [addr] ↔
      ∀ e ∈ listElements (values.drop 1), e = addr := by
  cases values with
  | nil =>
    have hcomma : addr.splitOn 44 = [addr] := List.splitOn_eq_singleton haddr.no_comma
    simp [appended, listElements, hcomma, trim_of_trimmed haddr.trimmed]
  | cons value values =>
    have hfirst := listElements_appended haddr value
    have hcons (v : Bytes) (vs : List Bytes) :
        listElements (v :: vs) = listElements [v] ++ listElements vs :=
      listElements_append [v] vs
    rw [appended, hcons _ values, hfirst, hcons value values, List.append_assoc,
      List.append_assoc, List.append_cancel_left_eq, List.drop_one, List.tail_cons]
    exact cons_eq_concat_iff addr (listElements values)

/-- **Client address headers.**  They cannot be spoofed exactly when every `X-Real-IP` value
behind the client's first, and every element of its `X-Forwarded-For` lines behind the
first, is the address itself. -/
theorem not_spoofed_iff (q : DottedQuad) (head : Bytes) (h : Delimited head) :
    NotSpoofed q.text head ↔
      (∀ v ∈ (fieldValues xRealIp (splitHeaders (head ++ crlf))).drop 1, v = q.text) ∧
      ∀ e ∈ listElements ((fieldValues xForwardedFor (splitHeaders (head ++ crlf))).drop 1),
        e = q.text := by
  obtain ⟨lines, hlines, hhead⟩ := exists_headerLines h
  have haddr := q.isElement
  obtain ⟨hsplit, hne⟩ := splitHeaders_rewritten hlines hhead haddr
  obtain ⟨hreal, hxff⟩ := rewriteLines_values hlines.ne haddr
  have hin : splitHeaders (head ++ crlf) = lines := by
    rw [hhead, splitHeaders_joinLines hlines]
  have hiff := listElements_appended_iff haddr (fieldValues xForwardedFor lines)
  have houtReal : fieldValues xRealIp (splitHeaders (rewritten q.text true head)) =
      q.text :: (fieldValues xRealIp lines).drop 1 := by
    rw [hsplit, fieldValues_blank hne, hreal]
  have houtXff : fieldValues xForwardedFor (splitHeaders (rewritten q.text true head)) =
      appended q.text (fieldValues xForwardedFor lines) := by
    rw [hsplit, fieldValues_blank hne, hxff]
  rw [hin]
  constructor
  · rintro ⟨-, hall, hlist⟩
    rw [houtReal] at hall
    rw [houtXff, hin] at hlist
    exact ⟨fun v hv => hall v (List.mem_cons_of_mem _ hv), hiff.mp hlist⟩
  · rintro ⟨hall, hlist⟩
    refine ⟨by simp [houtReal], ?_, ?_⟩
    · rw [houtReal]
      intro v hv
      rcases List.mem_cons.mp hv with rfl | hv
      · rfl
      · exact hall v hv
    · rw [houtXff, hin]
      exact hiff.mpr hlist

/-- The address of a client. -/
def clientAddress : DottedQuad where
  first := ascii "10"
  second := ascii "0"
  third := ascii "0"
  fourth := ascii "1"
  octet_ne := by decide
  digits := by decide

/-- A request with one line of each field. -/
def oneLineEach : Bytes :=
  ascii "GET / H\r\nX-Real-IP: 6.6.6.6\r\nx-forwarded-for: 6.6.6.6, 7.7.7.7"

/-- The equivalence for a block with one line of each field. -/
theorem not_spoofed_iff_oneLineEach :
    NotSpoofed clientAddress.text oneLineEach ↔
      (∀ v ∈ (fieldValues xRealIp (splitHeaders (oneLineEach ++ crlf))).drop 1,
        v = clientAddress.text) ∧
      ∀ e ∈ listElements ((fieldValues xForwardedFor (splitHeaders (oneLineEach ++ crlf))).drop 1),
        e = clientAddress.text :=
  not_spoofed_iff clientAddress oneLineEach (by decide)

/-- A request with two `X-Real-IP` lines: the second is forwarded as it came. -/
theorem spoofed_realIp :
    ¬ ∀ (q : DottedQuad) (head : Bytes), Delimited head → NotSpoofed q.text head := by
  intro h
  have hsafe := h clientAddress (ascii "GET / H\r\nX-Real-IP: 1\r\nX-Real-IP: 6.6.6.6") (by decide)
  have hvalue := hsafe.realIp (ascii "6.6.6.6") (by decide)
  revert hvalue
  decide

end PkuyoProxy.Analysis
