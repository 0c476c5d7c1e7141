import PkuyoProxy.Interface.HeaderBlock

/-!
# `process_http_headers` forwards what it read

The first pass reads the framing off the field lines (`scan_framing`) and remembers where
the forwarding fields are (`scanHeaders_ok`).  The lines it writes back begin with the same
start line (`rewriteLines_head?`) and announce the same body, and none of them is empty or
contains a line end, provided the peer address contains none (`rewriteLines_conveys`).
-/

set_option autoImplicit false

namespace PkuyoProxy.Analysis

open PkuyoProxy.Lib PkuyoProxy.Model PkuyoProxy.Interface

variable {isRequest : Bool} {addr : Bytes}

/-! ## The first pass -/

/-- A line adds the same to the scan as to the framing. -/
theorem scanLine_framing (acc : HeaderScan) (entry : Bytes × ℕ) :
    ((scanLine isRequest acc entry).chunked, (scanLine isRequest acc entry).contentLength) =
      frameLine (acc.chunked, acc.contentLength) entry.1 := by
  unfold scanLine frameLine
  cases fieldOf entry.1 with
  | none => rfl
  | some field =>
    obtain ⟨name, value⟩ := field
    dsimp only
    by_cases hte : name = ascii "transfer-encoding"
    · cases containsChunked value <;> simp [hte]
    · by_cases hcl : name = ascii "content-length"
      · rw [if_neg hte, if_neg hte, if_pos hcl, if_pos hcl]
        cases hs : stoul 10 value <;> simp [Except.toOption]
      · simp only [hte, hcl, if_false]
        repeat' split
        all_goals rfl

/-- The scan reads the framing of the lines. -/
theorem scan_framing (isRequest : Bool) (lines : List Bytes) :
    ((scanHeaders isRequest lines).chunked, (scanHeaders isRequest lines).contentLength) =
      framing lines := by
  have hfold (entries : List (Bytes × ℕ)) (acc : HeaderScan) :
      ((entries.foldl (scanLine isRequest) acc).chunked,
        (entries.foldl (scanLine isRequest) acc).contentLength) =
      (entries.map Prod.fst).foldl frameLine (acc.chunked, acc.contentLength) := by
    induction entries generalizing acc with
    | nil => rfl
    | cons entry entries ih =>
      rw [List.foldl_cons, ih, List.map_cons, List.foldl_cons, scanLine_framing]
  have hlines : (lines.zipIdx.drop 1).map Prod.fst = lines.drop 1 := by
    rw [List.map_drop, List.zipIdx_map_fst]
  rw [scanHeaders, hfold, hlines]
  rfl

/-- The lines the first pass remembers. -/
structure ScanOk (lines : List Bytes) (scan : HeaderScan) : Prop where
  forwardedFor : ∀ i, scan.xffIdx = some i → 1 ≤ i ∧ ∃ line, lines[i]? = some line ∧
    fieldOf line = some (ascii "x-forwarded-for", scan.xffValue)
  realIp : ∀ i, scan.xriIdx = some i → 1 ≤ i ∧ ∃ line value, lines[i]? = some line ∧
    fieldOf line = some (ascii "x-real-ip", value)

/-- What the scan remembers of a line is in the block. -/
theorem scanLine_ok {lines : List Bytes} {acc : HeaderScan} (h : ScanOk lines acc)
    {entry : Bytes × ℕ} (hentry : entry ∈ lines.zipIdx.drop 1) :
    ScanOk lines (scanLine isRequest acc entry) := by
  have hline : 1 ≤ entry.2 ∧ lines[entry.2]? = some entry.1 := by
    cases lines with
    | nil => simp at hentry
    | cons l ls =>
      rw [List.zipIdx_cons, List.drop_one, List.tail_cons] at hentry
      obtain ⟨hle, hget⟩ := List.mem_zipIdx_iff_le_and_getElem?_sub.mp hentry
      obtain ⟨line, i⟩ := entry
      obtain ⟨j, rfl⟩ : ∃ j, i = j + 1 := ⟨i - 1, by simp at hle; omega⟩
      exact ⟨by omega, by simpa using hget⟩
  unfold scanLine
  cases hf : fieldOf entry.1 with
  | none => exact h
  | some field =>
    obtain ⟨name, value⟩ := field
    dsimp only
    split
    · split
      · exact ⟨h.forwardedFor, h.realIp⟩
      · exact h
    · split
      · split
        · exact ⟨h.forwardedFor, h.realIp⟩
        · exact h
      · split
        · rename_i hxff
          split
          · refine ⟨?_, h.realIp⟩
            rintro i ⟨⟩
            exact ⟨hline.1, entry.1, hline.2, by rw [hf, hxff.2]⟩
          · exact h
        · split
          · rename_i hxri
            split
            · refine ⟨h.forwardedFor, ?_⟩
              rintro i ⟨⟩
              exact ⟨hline.1, entry.1, value, hline.2, by rw [hf, hxri.2]⟩
            · exact h
          · exact h

/-- What the scan remembers of all the lines is in the block. -/
theorem scanHeaders_ok (isRequest : Bool) (lines : List Bytes) :
    ScanOk lines (scanHeaders isRequest lines) :=
  List.foldlRecOn _ _ ⟨by simp, by simp⟩ fun _ hacc _ hentry => scanLine_ok hacc hentry

/-! ## The lines written back -/

/-- Only lines behind the first are replaced. -/
theorem head?_set_of_pos {ls : List Bytes} {i : ℕ} (hi : 1 ≤ i) (line : Bytes) :
    (ls.set i line).head? = ls.head? := by
  obtain ⟨j, rfl⟩ : ∃ j, i = j + 1 := ⟨i - 1, by omega⟩
  cases ls <;> rfl

/-- Rewriting the list of addresses leaves the start line. -/
theorem setForwardedFor_head? {lines : List Bytes} {scan : HeaderScan} (hne : lines ≠ [])
    (hscan : ScanOk lines scan) : (setForwardedFor scan addr lines).head? = lines.head? := by
  unfold setForwardedFor
  cases hi : scan.xffIdx with
  | none => exact List.head?_append_of_ne_nil _ hne
  | some i => exact head?_set_of_pos (hscan.forwardedFor i hi).1 _

/-- The whole rewriting leaves the start line. -/
theorem rewriteLines_head? {lines : List Bytes} (hne : lines ≠ []) :
    (rewriteLines isRequest addr lines).head? = lines.head? := by
  unfold rewriteLines
  cases isRequest with
  | false => rfl
  | true =>
    have hscan := scanHeaders_ok true lines
    have hxff := @setForwardedFor_head? addr _ _ hne hscan
    refine Eq.trans ?_ hxff
    simp only [if_true, setRealIp]
    cases hi : (scanHeaders true lines).xriIdx with
    | none =>
      apply List.head?_append_of_ne_nil
      intro hnil
      apply hne
      rw [hnil] at hxff
      exact List.head?_eq_none_iff.mp hxff.symm
    | some i => exact head?_set_of_pos (hscan.realIp i hi).1 _

/-- A part of a text without line ends has none. -/
theorem not_crlf_of_isInfix {s t : Bytes} (h : ¬ crlf <:+: t) (hs : s <:+: t) : ¬ crlf <:+: s :=
  fun hc => h (hc.trans hs)

/-- A trimmed text is a part of the text. -/
theorem trim_isInfix (s : Bytes) : trim s <:+: s := by
  have hback : trim s <+: s.dropWhile isBlank := List.rdropWhile_prefix isBlank _
  apply hback.isInfix.trans
  exact (List.dropWhile_suffix isBlank).isInfix

/-- A line that is cut behind its colon keeps its name, and has the value that is put behind it. -/
theorem fieldOf_uptoColon {line name value : Bytes} (h : fieldOf line = some (name, value))
    (t : Bytes) : fieldOf (uptoColon line ++ t) = some (name, trim t) := by
  unfold fieldOf at h ⊢
  obtain ⟨colon, hcolon, hfield⟩ := Option.map_eq_some_iff.mp h
  injection hfield with hname _
  have hlen := find_add_length_le hcolon
  rw [List.length_singleton] at hlen
  have hupto : uptoColon line = line.take (colon + 1) := by rw [uptoColon, hcolon]
  have hfind : find [58] (uptoColon line ++ t) = some colon := by
    rw [hupto]
    exact find_append t (find_take_of_le hcolon le_rfl)
  have htake : (uptoColon line ++ t).take colon = line.take colon := by
    rw [hupto, List.take_append_of_le_length (by simp; omega), List.take_take]
    congr 1
    omega
  have hdrop : (uptoColon line ++ t).drop (colon + 1) = t := by
    rw [hupto]
    exact List.drop_left' (by simp; omega)
  rw [hfind, Option.map_some, htake, hdrop, hname]

/-- The value of a field is a part of its line. -/
theorem value_isInfix {line name value : Bytes} (h : fieldOf line = some (name, value)) :
    value <:+: line := by
  unfold fieldOf at h
  obtain ⟨colon, -, hfield⟩ := Option.map_eq_some_iff.mp h
  injection hfield with _ hvalue
  rw [← hvalue]
  exact (trim_isInfix _).trans (List.drop_suffix _ _).isInfix

/-- What stands up to the colon is a part of the line. -/
theorem uptoColon_isInfix (line : Bytes) : uptoColon line <:+: line := by
  unfold uptoColon
  split
  · exact List.nil_infix
  · exact (List.take_prefix _ _).isInfix

/-- Parts without a line end, the second of which starts with another byte than LF. -/
theorem not_crlf_append {s t : Bytes} (hs : ¬ crlf <:+: s) (ht : ¬ crlf <:+: t)
    (hhead : t.head? ≠ some 10) : ¬ crlf <:+: s ++ t :=
  not_infix_append hs ht (.inr hhead)

/-- The line that is added with the client's address is read as this field. -/
theorem fieldOf_realIp (addr : Bytes) :
    fieldOf (ascii "X-Real-IP: " ++ addr) = some (ascii "x-real-ip", trim (32 :: addr)) := by
  have hfind : find [58] (ascii "X-Real-IP: " ++ addr) = some 9 := find_append addr (by decide)
  rw [fieldOf, hfind]
  rfl

/-- The line that is added with a list of addresses is read as this field. -/
theorem fieldOf_forwardedFor (addr : Bytes) :
    fieldOf (ascii "X-Forwarded-For: " ++ addr) =
      some (ascii "x-forwarded-for", trim (32 :: addr)) := by
  have hfind : find [58] (ascii "X-Forwarded-For: " ++ addr) = some 15 :=
    find_append addr (by decide)
  rw [fieldOf, hfind]
  rfl

/-- A list of addresses is neutral. -/
theorem neutral_forwardedFor {line value : Bytes}
    (h : fieldOf line = some (ascii "x-forwarded-for", value)) : Neutral line :=
  neutral_of_field h (by decide) (by decide)

/-- A client's address is neutral. -/
theorem neutral_realIp {line value : Bytes}
    (h : fieldOf line = some (ascii "x-real-ip", value)) : Neutral line :=
  neutral_of_field h (by decide) (by decide)

/-- The line with the address behind its value, which is written back. -/
theorem not_crlf_appended {line name value : Bytes} (hfield : fieldOf line = some (name, value))
    (hline : ¬ crlf <:+: line) (haddr : ¬ crlf <:+: addr) (hhead : addr.head? ≠ some 10) :
    ¬ crlf <:+: uptoColon line ++ ascii " " ++ value ++ ascii ", " ++ addr := by
  have hvalue := not_crlf_of_isInfix hline (value_isInfix hfield)
  have hcomma : ¬ crlf <:+: ascii ", " ++ addr := not_crlf_append (by decide) haddr hhead
  have hlist : ¬ crlf <:+: value ++ (ascii ", " ++ addr) :=
    not_crlf_append hvalue hcomma (by simp [ascii])
  have hspace : ¬ crlf <:+: ascii " " ++ (value ++ (ascii ", " ++ addr)) :=
    not_infix_append (by decide) hlist (.inl (by decide))
  simp only [List.append_assoc]
  exact not_crlf_append (not_crlf_of_isInfix hline (uptoColon_isInfix line)) hspace
    (by simp [ascii])

/-- Behind the rewriting of the list the lines convey what they did. -/
theorem setForwardedFor_conveys {lines : List Bytes} {scan : HeaderScan} (h : HeaderLines lines)
    (hscan : ScanOk lines scan) (haddr : ¬ crlf <:+: addr) (hhead : addr.head? ≠ some 10) :
    Conveys lines (setForwardedFor scan addr lines) := by
  unfold setForwardedFor
  cases hi : scan.xffIdx with
  | none =>
    have hline := neutral_forwardedFor (fieldOf_forwardedFor addr)
    exact conveys_append h hline (not_crlf_append (by decide) haddr hhead) (by simp [ascii])
  | some i =>
    obtain ⟨hpos, line, hget, hfield⟩ := hscan.forwardedFor i hi
    have hline : ¬ crlf <:+: line := h.line line (List.mem_of_getElem? hget)
    have hgetD : lines.getD i [] = line := by simp [List.getD, hget]
    dsimp only
    rw [hgetD]
    refine conveys_set h hpos ?_ ?_ ?_ (by simp [ascii])
    · intro old hold
      obtain rfl : line = old := Option.some.inj (hget.symm.trans hold)
      exact neutral_forwardedFor hfield
    · simp only [List.append_assoc]
      exact neutral_forwardedFor (fieldOf_uptoColon hfield _)
    · exact not_crlf_appended hfield hline haddr hhead

/-- The line at the index of the address field is still neutral when the other forwarding
field has been written. -/
theorem neutral_setForwardedFor {lines : List Bytes} {scan : HeaderScan}
    (hscan : ScanOk lines scan) {i : ℕ} (hi : scan.xriIdx = some i) {old : Bytes}
    (hold : (setForwardedFor scan addr lines)[i]? = some old) : Neutral old := by
  obtain ⟨-, line, value, hget, hfield⟩ := hscan.realIp i hi
  have hlt : i < lines.length := by
    by_contra hge
    rw [List.getElem?_eq_none (by omega)] at hget
    cases hget
  unfold setForwardedFor at hold
  cases hj : scan.xffIdx with
  | none =>
    simp only [hj, List.getElem?_append_left hlt, hget] at hold
    cases hold
    exact neutral_realIp hfield
  | some j =>
    obtain ⟨-, line', hget', hfield'⟩ := hscan.forwardedFor j hj
    have hne : j ≠ i := by
      rintro rfl
      obtain rfl : line = line' := Option.some.inj (hget.symm.trans hget')
      rw [hfield] at hfield'
      injection hfield' with hpair
      injection hpair with hname _
      revert hname
      decide
    simp only [hj, List.getElem?_set_ne hne, hget] at hold
    cases hold
    exact neutral_realIp hfield

/-- **The rewritten block conveys the message it was read from.** -/
theorem rewriteLines_conveys {lines : List Bytes} (h : HeaderLines lines)
    (haddr : ¬ crlf <:+: addr) (hhead : addr.head? ≠ some 10) :
    Conveys lines (rewriteLines isRequest addr lines) := by
  unfold rewriteLines
  cases isRequest with
  | false => exact Conveys.refl h
  | true =>
    have hscan := scanHeaders_ok true lines
    have hxff := setForwardedFor_conveys h hscan haddr hhead
    have hline := neutral_realIp (fieldOf_realIp addr)
    have hcrlf : ¬ crlf <:+: ascii "X-Real-IP: " ++ addr := not_crlf_append (by decide) haddr hhead
    have hne : ascii "X-Real-IP: " ++ addr ≠ [] := by simp [ascii]
    apply hxff.trans
    simp only [if_true, setRealIp]
    cases hi : (scanHeaders true lines).xriIdx with
    | none => exact conveys_append hxff.lines hline hcrlf hne
    | some i =>
      exact conveys_set hxff.lines (hscan.realIp i hi).1
        (fun old hold => neutral_setForwardedFor hscan hi hold) hline hcrlf hne

/-! ## Whole blocks -/

/-- The code reads the framing of the lines of its header. -/
theorem processHttpHeaders_framing (context : HttpContext) (addr : Bytes) (isRequest : Bool) :
    (processHttpHeaders context addr isRequest).2 = framing (splitHeaders context.header) :=
  scan_framing isRequest (splitHeaders context.header)

/-- What a block announces is the framing of its lines. -/
theorem announced_eq {head : Bytes} {ls : List Bytes} (h : HeaderLines ls)
    (hhead : head ++ crlf = joinLines crlf ls) (ip : Bytes) (isRequest : Bool) :
    announced ip isRequest head = framing ls := by
  unfold announced processHttpHeaders
  dsimp only
  rw [hhead, splitHeaders_joinLines h, scan_framing]

/-- What is made of a block are its rewritten lines and an empty one. -/
theorem rewritten_eq {head : Bytes} {ls : List Bytes} (h : HeaderLines ls)
    (hhead : head ++ crlf = joinLines crlf ls) (ip : Bytes) (isRequest : Bool) :
    rewritten ip isRequest head = joinLines crlf (rewriteLines isRequest ip ls) ++ crlf := by
  unfold rewritten processHttpHeaders
  dsimp only
  rw [hhead, splitHeaders_joinLines h]

end PkuyoProxy.Analysis
