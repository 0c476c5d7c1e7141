import PkuyoProxy.Analysis.ClientAddress

/-!
# What rewriting leaves alone

`process_http_headers` splits a block, edits or appends the two forwarding lines, and joins the
lines again.  With at most one line of each forwarding field this is a map over the lines behind
the first, which changes no other line and nothing that frames the body (`header_frame`).
-/

set_option autoImplicit false

namespace PkuyoProxy.Analysis

open PkuyoProxy.Lib PkuyoProxy.Model PkuyoProxy.Interface

variable {addr : Bytes}

/-! ## The lines that are expected -/

/-- The line of the field `X-Forwarded-For` with the address behind its value. -/
def withForwardedFor (addr line : Bytes) : Bytes :=
  match valueOf xForwardedFor line with
  | some value => uptoColon line ++ ascii " " ++ value ++ ascii ", " ++ addr
  | none => line

/-- The line of the field `X-Real-IP` with the address for its value. -/
def withRealIp (addr line : Bytes) : Bytes :=
  match valueOf xRealIp line with
  | some _ => ascii "X-Real-IP: " ++ addr
  | none => line

/-- The first line, the others with the two fields edited, and the fields that are absent. -/
def framedLines (addr : Bytes) (lines : List Bytes) : List Bytes :=
  lines.take 1 ++ (lines.drop 1).map (fun line => withForwardedFor addr (withRealIp addr line)) ++
    (if fieldValues xForwardedFor lines = [] then [ascii "X-Forwarded-For: " ++ addr] else []) ++
    (if fieldValues xRealIp lines = [] then [ascii "X-Real-IP: " ++ addr] else [])

/-- A line that is no list of addresses stays. -/
theorem withForwardedFor_other {line : Bytes} (h : valueOf xForwardedFor line = none) :
    withForwardedFor addr line = line := by
  rw [withForwardedFor, h]

/-- A line that is no client's address stays. -/
theorem withRealIp_other {line : Bytes} (h : valueOf xRealIp line = none) :
    withRealIp addr line = line := by
  rw [withRealIp, h]

/-- A line of the field `name` has its value. -/
theorem field_of_valueOf {name line value : Bytes} (h : valueOf name line = some value) :
    fieldOf line = some (name, value) := by
  unfold valueOf at h
  obtain ⟨⟨name', value'⟩, hfield, hname⟩ := Option.bind_eq_some_iff.mp h
  dsimp only at hname
  split at hname
  · rename_i heq
    cases hname
    rw [hfield, heq]
  · cases hname

/-- The line of the client's address is no list of addresses. -/
theorem valueOf_realIpLine (addr : Bytes) :
    valueOf xForwardedFor (ascii "X-Real-IP: " ++ addr) = none := by
  rw [valueOf_of_field (fieldOf_realIp addr), if_neg (by decide)]

/-! ## The second pass -/

section Passes

variable {start : Bytes} {fields : List Bytes}

/-- The values of a field are those of the lines behind the start line. -/
theorem fieldValues_cons (name : Bytes) :
    fieldValues name (start :: fields) = fields.filterMap (valueOf name) := rfl

/-- With at most one list of addresses the first pass rewrites it, or adds a line. -/
theorem setForwardedFor_eq (hone : (fieldValues xForwardedFor (start :: fields)).length ≤ 1) :
    setForwardedFor (scanHeaders true (start :: fields)) addr (start :: fields) =
      start :: (fields.map (withForwardedFor addr) ++
        if fieldValues xForwardedFor (start :: fields) = [] then
          [ascii "X-Forwarded-For: " ++ addr] else []) := by
  rw [fieldValues_cons] at hone ⊢
  have hscan := scan_forwardedFor start fields
  have hother := fun line => @withForwardedFor_other addr line
  unfold setForwardedFor
  cases hidx : (scanHeaders true (start :: fields)).xffIdx with
  | none =>
    rw [hidx, Option.map_none, eq_comm] at hscan
    have hnone := firstMatch_eq_none_iff.mp hscan
    rw [if_pos hnone, map_eq_self_of_no_match hother hnone]
    rfl
  | some i =>
    rw [hidx, Option.map_some, eq_comm] at hscan
    obtain ⟨pre, post, -, -, hi⟩ := exists_of_firstMatch hscan
    obtain ⟨line, hget, hvalue, hset⟩ := set_only_match hother hscan hone
    obtain ⟨j, rfl⟩ : ∃ j, i = j + 1 := ⟨i - 1, by omega⟩
    rw [Nat.add_sub_cancel] at hget hset
    have hsome : fields.filterMap (valueOf xForwardedFor) ≠ [] := by
      intro hnil
      rw [firstMatch_eq_none_iff.mpr hnil] at hscan
      cases hscan
    have hline : (start :: fields).getD (j + 1) [] = line := by
      rw [List.getD_cons_succ, List.getD, hget, Option.getD_some]
    rw [withForwardedFor, hvalue] at hset
    dsimp only at hset ⊢
    rw [if_neg hsome, List.append_nil, hline, List.set_cons_succ, hset]

/-- With at most one client's address the second pass rewrites it, or adds a line. -/
theorem setRealIp_eq (hone : (fieldValues xRealIp (start :: fields)).length ≤ 1)
    (f : Bytes → Bytes) (hf : f (ascii "X-Real-IP: " ++ addr) = ascii "X-Real-IP: " ++ addr)
    (more : List Bytes) :
    setRealIp (scanHeaders true (start :: fields)) addr (start :: (fields.map f ++ more)) =
      start :: (fields.map (fun line => f (withRealIp addr line)) ++ more ++
        if fieldValues xRealIp (start :: fields) = [] then [ascii "X-Real-IP: " ++ addr]
        else []) := by
  rw [fieldValues_cons] at hone ⊢
  have hscan := scan_realIp start fields
  have hother := fun line => @withRealIp_other addr line
  have hmap : fields.map (fun line => f (withRealIp addr line)) =
      (fields.map (withRealIp addr)).map f := by
    rw [List.map_map]
    rfl
  unfold setRealIp
  cases hfirst : firstMatch (valueOf xRealIp) 1 fields with
  | none =>
    rw [hfirst] at hscan
    have hnone := firstMatch_eq_none_iff.mp hfirst
    rw [hscan, if_pos hnone, hmap, map_eq_self_of_no_match hother hnone]
    simp
  | some entry =>
    obtain ⟨i, v⟩ := entry
    rw [hfirst] at hscan
    obtain ⟨pre, post, -, -, hi⟩ := exists_of_firstMatch hfirst
    obtain ⟨line, hget, hvalue, hset⟩ := set_only_match hother hfirst hone
    obtain ⟨j, rfl⟩ : ∃ j, i = j + 1 := ⟨i - 1, by omega⟩
    rw [Nat.add_sub_cancel] at hget hset
    have hlt : j < (fields.map f).length := by
      rw [List.length_map]
      exact (List.getElem?_eq_some_iff.mp hget).1
    have hsome : fields.filterMap (valueOf xRealIp) ≠ [] := by
      intro hnil
      rw [firstMatch_eq_none_iff.mpr hnil] at hfirst
      cases hfirst
    rw [withRealIp, hvalue] at hset
    simp only [hscan, Option.map_some, List.set_cons_succ]
    rw [List.set_append_left _ _ hlt, ← hf, ← List.map_set, hset, ← hmap, if_neg hsome,
      List.append_nil]

/-- With at most one line of each field the two passes rewrite the lines as the frame says. -/
theorem rewriteLines_eq (hxff : (fieldValues xForwardedFor (start :: fields)).length ≤ 1)
    (hxri : (fieldValues xRealIp (start :: fields)).length ≤ 1) :
    rewriteLines true addr (start :: fields) = framedLines addr (start :: fields) := by
  have hother := @withForwardedFor_other addr _ (valueOf_realIpLine addr)
  simp only [rewriteLines, if_true]
  rw [setForwardedFor_eq hxff, setRealIp_eq hxri _ hother]
  simp [framedLines]

end Passes

/-! ## Framing -/

/-- The address goes behind the value of a line. -/
theorem neutral_uptoColon {line value : Bytes}
    (h : fieldOf line = some (xForwardedFor, value)) (t : Bytes) : Neutral (uptoColon line ++ t) :=
  neutral_forwardedFor (fieldOf_uptoColon h t)

/-- A rewritten list of addresses does not matter for the framing. -/
theorem frameLine_withForwardedFor (acc : Bool × ℕ) (line : Bytes) :
    frameLine acc (withForwardedFor addr line) = frameLine acc line := by
  unfold withForwardedFor
  split
  · rename_i value hvalue
    have hfield := field_of_valueOf hvalue
    have hnew := neutral_uptoColon hfield (ascii " " ++ value ++ ascii ", " ++ addr)
    simp only [List.append_assoc] at hnew ⊢
    exact (hnew acc).trans (neutral_forwardedFor hfield acc).symm
  · rfl

/-- A rewritten client's address does not matter for the framing. -/
theorem frameLine_withRealIp (acc : Bool × ℕ) (line : Bytes) :
    frameLine acc (withRealIp addr line) = frameLine acc line := by
  unfold withRealIp
  split
  · rename_i value hvalue
    have hnew := neutral_realIp (fieldOf_realIp addr)
    exact (hnew acc).trans (neutral_realIp (field_of_valueOf hvalue) acc).symm
  · rfl

/-- Neutral lines behind the others do not matter for the framing. -/
theorem foldl_frameLine_neutral {more : List Bytes} (h : ∀ l ∈ more, Neutral l)
    (acc : Bool × ℕ) : more.foldl frameLine acc = acc := by
  induction more with
  | nil => rfl
  | cons l more ih =>
    rw [List.foldl_cons, h l List.mem_cons_self acc]
    exact ih fun l' hl' => h l' (List.mem_cons_of_mem l hl')

/-- A property of the lines that are expected. -/
theorem forall_framedLines {P : Bytes → Prop} {lines : List Bytes}
    (hfirst : ∀ l ∈ lines.take 1, P l)
    (hmap : ∀ l ∈ lines.drop 1, P (withForwardedFor addr (withRealIp addr l)))
    (hxff : P (ascii "X-Forwarded-For: " ++ addr)) (hxri : P (ascii "X-Real-IP: " ++ addr)) :
    ∀ l ∈ framedLines addr lines, P l := by
  intro l hl
  simp only [framedLines, List.mem_append, List.mem_map] at hl
  rcases hl with ((hl | ⟨line, hline, rfl⟩) | hl) | hl
  · exact hfirst l hl
  · exact hmap line hline
  · split at hl
    · rw [List.mem_singleton.mp hl]
      exact hxff
    · cases hl
  · split at hl
    · rw [List.mem_singleton.mp hl]
      exact hxri
    · cases hl

/-- The lines that are expected announce the same body. -/
theorem framing_framedLines (start : Bytes) (fields : List Bytes) :
    framing (framedLines addr (start :: fields) ++ [[]]) = framing (start :: fields) := by
  have hblank : Neutral [] := fun acc => rfl
  have hxff := neutral_forwardedFor (fieldOf_forwardedFor addr)
  have hxri := neutral_realIp (fieldOf_realIp addr)
  simp only [framing, framedLines, List.take_succ_cons, List.take_zero, List.cons_append,
    List.nil_append, List.drop_succ_cons, List.drop_zero, List.foldl_append, List.foldl_map,
    frameLine_withForwardedFor, frameLine_withRealIp]
  rw [@foldl_frameLine_neutral [[]], foldl_frameLine_neutral, foldl_frameLine_neutral]
  · intro l hl
    split at hl
    · rw [List.mem_singleton.mp hl]
      exact hxff
    · cases hl
  · intro l hl
    split at hl
    · rw [List.mem_singleton.mp hl]
      exact hxri
    · cases hl
  · intro l hl
    rw [List.mem_singleton.mp hl]
    exact hblank

/-! ## Line ends -/

/-- A rewritten list of addresses contains no line end. -/
theorem not_crlf_withForwardedFor (haddr : ¬ crlf <:+: addr) (hhead : addr.head? ≠ some 10)
    {line : Bytes} (hline : ¬ crlf <:+: line) : ¬ crlf <:+: withForwardedFor addr line := by
  unfold withForwardedFor
  split
  · rename_i value hvalue
    exact not_crlf_appended (field_of_valueOf hvalue) hline haddr hhead
  · exact hline

/-- A rewritten client's address contains no line end. -/
theorem not_crlf_withRealIp (haddr : ¬ crlf <:+: addr) (hhead : addr.head? ≠ some 10)
    {line : Bytes} (hline : ¬ crlf <:+: line) : ¬ crlf <:+: withRealIp addr line := by
  unfold withRealIp
  split
  · exact not_crlf_append (by decide) haddr hhead
  · exact hline

/-! ## The frame -/

/-- A response keeps its bytes and gets a line end; a request keeps its lines but for the two
fields; and read again, as a response is, the result is framed as the block was. -/
structure HeaderFrame (context : HttpContext) (addr : Bytes) : Prop where
  lines : context.header = joinLines crlf (splitHeaders context.header)
  response : (processHttpHeaders context addr false).1.header = context.header ++ crlf
  request : (processHttpHeaders context addr true).1.header =
    joinLines crlf (framedLines addr (splitHeaders context.header)) ++ crlf
  requestLines : splitHeaders (processHttpHeaders context addr true).1.header =
    framedLines addr (splitHeaders context.header) ++ [[]]
  framing : ∀ isRequest addr',
    (processHttpHeaders (processHttpHeaders context addr isRequest).1 addr' false).2 =
      (processHttpHeaders context addr isRequest).2

/-- Splitting gives back lines without a line end, and a blank one behind them. -/
theorem splitHeaders_blank {lines : List Bytes} (h : ∀ l ∈ lines, ¬ crlf <:+: l) :
    splitHeaders (joinLines crlf lines ++ crlf) = lines ++ [[]] := by
  have hjoin : joinLines crlf lines ++ crlf = joinLines crlf (lines ++ [[]]) := by
    rw [joinLines_append]
    simp
  rw [hjoin]
  refine splitLines_joinLines (by decide) fun l hl => ?_
  rcases List.mem_append.mp hl with hl | hl
  · exact h l hl
  · rw [List.mem_singleton.mp hl]
    decide

/-- **Frame of the rewriting**, for a block with at most one line of each forwarding field. -/
theorem header_frame (context : HttpContext) (addr s : Bytes) (hblock : context.header = s ++ crlf)
    (hxff : (fieldValues xForwardedFor (splitHeaders context.header)).length ≤ 1)
    (hxri : (fieldValues xRealIp (splitHeaders context.header)).length ≤ 1)
    (hcr : 13 ∉ addr) (hlf : 10 ∉ addr) : HeaderFrame context addr := by
  obtain ⟨start, fields, hline, hjoin⟩ := exists_joinLines (13 : UInt8) 10 s
  have hsplit : splitHeaders context.header = start :: fields := by
    rw [hblock]
    exact (congrArg splitHeaders hjoin).trans (splitLines_joinLines (by decide) hline)
  have hlines : context.header = joinLines crlf (start :: fields) := hblock.trans hjoin
  have hcrlf : ¬ crlf <:+: addr := fun hin => hcr (hin.subset (by simp [crlf]))
  have hhead : addr.head? ≠ some 10 := fun hh => hlf (List.mem_of_head? hh)
  rw [hsplit] at hxff hxri
  have hrequest : (processHttpHeaders context addr true).1.header =
      joinLines crlf (framedLines addr (start :: fields)) ++ crlf := by
    simp only [processHttpHeaders, hsplit, rewriteLines_eq hxff hxri]
  have hresponse : (processHttpHeaders context addr false).1.header = context.header ++ crlf := by
    show joinLines crlf (rewriteLines false addr (splitHeaders context.header)) ++ crlf = _
    rw [hsplit, hlines]
    rfl
  have hnew : ∀ l ∈ framedLines addr (start :: fields), ¬ crlf <:+: l := by
    apply forall_framedLines
    · intro l hl
      exact hline l (List.mem_of_mem_take hl)
    · intro l hl
      have hold := not_crlf_withRealIp hcrlf hhead (hline l (List.mem_of_mem_drop hl))
      exact not_crlf_withForwardedFor hcrlf hhead hold
    · exact not_crlf_append (by decide) hcrlf hhead
    · exact not_crlf_append (by decide) hcrlf hhead
  refine ⟨by rw [hsplit]; exact hlines, hresponse, by rw [hsplit]; exact hrequest, ?_, ?_⟩
  · rw [hsplit, hrequest]
    exact splitHeaders_blank hnew
  · intro isRequest addr'
    rw [processHttpHeaders_framing, processHttpHeaders_framing, hsplit]
    cases isRequest with
    | true =>
      rw [hrequest, splitHeaders_blank hnew]
      exact framing_framedLines start fields
    | false =>
      rw [hresponse, hlines, splitHeaders_blank hline]
      simp [framing, frameLine, fieldOf, find]

/-- A block with one line of each field has the frame. -/
theorem header_frame_oneLineEach :
    HeaderFrame { header := oneLineEach ++ crlf } clientAddress.text :=
  header_frame _ clientAddress.text oneLineEach rfl (by decide) (by decide) (by decide) (by decide)

end PkuyoProxy.Analysis
