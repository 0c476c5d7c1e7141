import PkuyoProxy.Lib.Mealy
import PkuyoProxy.Model.Headers

/-!
# Reading a connection byte by byte

The framing the parser implements, as a machine that is handed one byte at a time and so
cannot depend on how the bytes arrive: header block up to the blank line, body of the
announced length, or chunks.  Behind the data of a chunk (`chunkEnd`) it always looks at
two bytes before it decides whether they are the chunk's terminator.
-/

set_option autoImplicit false

namespace PkuyoProxy.Interface

open PkuyoProxy.Lib PkuyoProxy.Model

/-- What the framer reads next. -/
inductive Phase
  | headers
  | body
  | chunkSize
  | chunkData
  | chunkEnd
  | failed (e : Exn)
  deriving DecidableEq, Repr

/-- Where the reader is, the message under construction, and the bytes of an incomplete
header block, size line or chunk terminator. -/
structure Framer where
  phase : Phase
  tmp : HttpContext
  pending : Bytes := []
  deriving DecidableEq, Repr

namespace Framer

/-- The message is complete and the next one may begin. -/
def emit (tmp : HttpContext) : Framer × List HttpContext :=
  (⟨.headers, tmp.complete, []⟩, [tmp.complete])

/-- The header block `head ++ crlf` is complete. -/
def openMessage (maxSize : ℕ) (ip : Bytes) (isRequest : Bool) (head : Bytes) :
    Framer × List HttpContext :=
  let (tmp, isChunk, contentLength) :=
    processHttpHeaders { header := head ++ crlf } ip isRequest
  if isChunk then (⟨.chunkSize, extractHead isRequest tmp, []⟩, [])
  else if contentLength = npos then (⟨.headers, { tmp with data := contentLength }, []⟩, [])
  else
    let tmp := extractHead isRequest { tmp with data := contentLength }
    if contentLength = 0 then emit tmp
    else if maxSize < contentLength then (⟨.failed (reserveExn contentLength), tmp, []⟩, [])
    else (⟨.body, tmp, []⟩, [])

/-- The chunk-size line is complete. -/
def openChunk (tmp : HttpContext) (line : Bytes) : Framer × List HttpContext :=
  match stoul 16 line with
  | .error e => (⟨.failed e, tmp, []⟩, [])
  | .ok chunkSize =>
    if chunkSize = 0 then emit tmp else (⟨.chunkData, { tmp with data := chunkSize }, []⟩, [])

/-- `n` bytes of data are missing and `acc` is what has been received. -/
def withContent (tmp : HttpContext) (n : ℕ) (acc : Bytes) : HttpContext :=
  { tmp with content := acc, data := n }

/-- The framer takes a byte. -/
def step (maxSize : ℕ) (ip : Bytes) (isRequest : Bool) (f : Framer) (x : UInt8) :
    Framer × List HttpContext :=
  match f.phase with
  | .headers =>
    match find (crlf ++ crlf) (f.pending ++ [x]) with
    | none => (⟨.headers, f.tmp, f.pending ++ [x]⟩, [])
    | some e => openMessage maxSize ip isRequest ((f.pending ++ [x]).take e)
  | .body =>
    let tmp := withContent f.tmp (f.tmp.data - 1) (f.tmp.content ++ [x])
    if tmp.data = 0 then emit tmp else (⟨.body, tmp, []⟩, [])
  | .chunkSize =>
    match find crlf (f.pending ++ [x]) with
    | none => (⟨.chunkSize, f.tmp, f.pending ++ [x]⟩, [])
    | some e => openChunk f.tmp ((f.pending ++ [x]).take e)
  | .chunkData =>
    let tmp := withContent f.tmp (f.tmp.data - 1) (f.tmp.content ++ [x])
    if tmp.data = 0 then (⟨.chunkEnd, tmp, []⟩, []) else (⟨.chunkData, tmp, []⟩, [])
  | .chunkEnd =>
    match f.pending ++ [x] with
    | [y] => (⟨.chunkEnd, f.tmp, [y]⟩, [])
    | bytes => (⟨.chunkSize, f.tmp, if bytes = crlf then [] else bytes⟩, [])
  | .failed _ => (f, [])

/-- The reader as a machine. -/
def machine (maxSize : ℕ) (ip : Bytes) (isRequest : Bool) : Mealy Framer UInt8 HttpContext :=
  ⟨step maxSize ip isRequest⟩

/-- The reader of a new connection. -/
def fresh : Framer := ⟨.headers, {}, []⟩

variable {maxSize : ℕ} {ip : Bytes} {isRequest : Bool}

/-- Run the rest of the input behind a completed element. -/
def continueWith (maxSize : ℕ) (ip : Bytes) (isRequest : Bool) (r : Framer × List HttpContext)
    (rest : Bytes) : Framer × List HttpContext :=
  (((machine maxSize ip isRequest).run r.1 rest).1,
    r.2 ++ ((machine maxSize ip isRequest).run r.1 rest).2)

/-! ## Runs of whole elements -/

/-- Without an end of the header block every byte is pending. -/
theorem run_headers_none {tmp : HttpContext} {xs : Bytes} (h : find (crlf ++ crlf) xs = none) :
    (machine maxSize ip isRequest).run ⟨.headers, tmp, []⟩ xs = (⟨.headers, tmp, xs⟩, []) :=
  Mealy.run_scan_none _ (fun acc => ⟨.headers, tmp, acc⟩)
    (openMessage maxSize ip isRequest) (fun _ _ => rfl) [] xs h

/-- A header block that ends opens its message, and the rest is read from there. -/
theorem run_headers_some {tmp : HttpContext} {xs : Bytes} {e : ℕ}
    (h : find (crlf ++ crlf) xs = some e) :
    (machine maxSize ip isRequest).run ⟨.headers, tmp, []⟩ xs =
      continueWith maxSize ip isRequest (openMessage maxSize ip isRequest (xs.take e))
        (xs.drop (e + 4)) :=
  Mealy.run_scan_some _ (fun acc => ⟨.headers, tmp, acc⟩)
    (openMessage maxSize ip isRequest) (fun _ _ => rfl) [] xs rfl h

/-- Without an end of the size line every byte is pending. -/
theorem run_chunkSize_none {tmp : HttpContext} {xs : Bytes} (h : find crlf xs = none) :
    (machine maxSize ip isRequest).run ⟨.chunkSize, tmp, []⟩ xs = (⟨.chunkSize, tmp, xs⟩, []) :=
  Mealy.run_scan_none _ (fun acc => ⟨.chunkSize, tmp, acc⟩) (openChunk tmp)
    (fun _ _ => rfl) [] xs h

/-- A size line that ends opens its chunk, and the rest is read from there. -/
theorem run_chunkSize_some {tmp : HttpContext} {xs : Bytes} {e : ℕ} (h : find crlf xs = some e) :
    (machine maxSize ip isRequest).run ⟨.chunkSize, tmp, []⟩ xs =
      continueWith maxSize ip isRequest (openChunk tmp (xs.take e)) (xs.drop (e + 2)) :=
  Mealy.run_scan_some _ (fun acc => ⟨.chunkSize, tmp, acc⟩) (openChunk tmp)
    (fun _ _ => rfl) [] xs rfl h

/-- One byte of a body is kept, and the last one emits the message. -/
theorem step_body (tmp : HttpContext) (n : ℕ) (acc : Bytes) (x : UInt8) :
    (machine maxSize ip isRequest).step ⟨.body, withContent tmp (n + 1) acc, []⟩ x =
      if n = 0 then emit (withContent tmp 0 (acc ++ [x]))
      else (⟨.body, withContent tmp n (acc ++ [x]), []⟩, []) := by
  by_cases hn : n = 0 <;> simp [machine, step, withContent, hn]

/-- One byte of a chunk is kept, and the last one goes to the end of the chunk. -/
theorem step_chunkData (tmp : HttpContext) (n : ℕ) (acc : Bytes) (x : UInt8) :
    (machine maxSize ip isRequest).step ⟨.chunkData, withContent tmp (n + 1) acc, []⟩ x =
      if n = 0 then (⟨.chunkEnd, withContent tmp 0 (acc ++ [x]), []⟩, [])
      else (⟨.chunkData, withContent tmp n (acc ++ [x]), []⟩, []) := by
  by_cases hn : n = 0 <;> simp [machine, step, withContent, hn]

/-- A part of a body is kept, and the framer waits for the rest. -/
theorem run_body_lt {tmp : HttpContext} {xs : Bytes} (h : xs.length < tmp.data) :
    (machine maxSize ip isRequest).run ⟨.body, tmp, []⟩ xs =
      (⟨.body, withContent tmp (tmp.data - xs.length) (tmp.content ++ xs), []⟩, []) :=
  Mealy.run_count_lt (machine maxSize ip isRequest)
    (fun n acc => ⟨.body, withContent tmp n acc, []⟩)
    (fun acc => emit (withContent tmp 0 acc)) (step_body tmp) tmp.data tmp.content xs h

/-- A whole body emits its message, and the bytes behind it are read from there. -/
theorem run_body_le {tmp : HttpContext} {xs : Bytes} (hpos : 0 < tmp.data)
    (h : tmp.data ≤ xs.length) :
    (machine maxSize ip isRequest).run ⟨.body, tmp, []⟩ xs =
      continueWith maxSize ip isRequest
        (emit (withContent tmp 0 (tmp.content ++ xs.take tmp.data))) (xs.drop tmp.data) :=
  Mealy.run_count_le (machine maxSize ip isRequest)
    (fun n acc => ⟨.body, withContent tmp n acc, []⟩)
    (fun acc => emit (withContent tmp 0 acc)) (step_body tmp) tmp.data tmp.content xs hpos h

/-- A part of a chunk is kept, and the framer waits for the rest. -/
theorem run_chunkData_lt {tmp : HttpContext} {xs : Bytes} (h : xs.length < tmp.data) :
    (machine maxSize ip isRequest).run ⟨.chunkData, tmp, []⟩ xs =
      (⟨.chunkData, withContent tmp (tmp.data - xs.length) (tmp.content ++ xs), []⟩, []) :=
  Mealy.run_count_lt (machine maxSize ip isRequest)
    (fun n acc => ⟨.chunkData, withContent tmp n acc, []⟩)
    (fun acc => (⟨.chunkEnd, withContent tmp 0 acc, []⟩, [])) (step_chunkData tmp)
    tmp.data tmp.content xs h

/-- Behind a filled chunk its terminator is expected. -/
theorem run_chunkData_le {tmp : HttpContext} {xs : Bytes} (hpos : 0 < tmp.data)
    (h : tmp.data ≤ xs.length) :
    (machine maxSize ip isRequest).run ⟨.chunkData, tmp, []⟩ xs =
      (machine maxSize ip isRequest).run
        ⟨.chunkEnd, withContent tmp 0 (tmp.content ++ xs.take tmp.data), []⟩
        (xs.drop tmp.data) :=
  Mealy.run_count_le (machine maxSize ip isRequest)
    (fun n acc => ⟨.chunkData, withContent tmp n acc, []⟩)
    (fun acc => (⟨.chunkEnd, withContent tmp 0 acc, []⟩, [])) (step_chunkData tmp)
    tmp.data tmp.content xs hpos h

/-- The line end behind a chunk goes to the next size line. -/
theorem run_chunkEnd_crlf {tmp : HttpContext} {xs : Bytes} :
    (machine maxSize ip isRequest).run ⟨.chunkEnd, tmp, []⟩ (crlf ++ xs) =
      (machine maxSize ip isRequest).run ⟨.chunkSize, tmp, []⟩ xs := rfl

/-- Without a terminator behind a chunk the next size line begins at once; fewer than two
bytes leave it open whether there is one. -/
theorem run_chunkEnd_other {tmp : HttpContext} {xs : Bytes} (h : ¬ crlf <+: xs) :
    (machine maxSize ip isRequest).run ⟨.chunkEnd, tmp, []⟩ xs =
      if xs.length < 2 then (⟨.chunkEnd, tmp, xs⟩, [])
      else (machine maxSize ip isRequest).run ⟨.chunkSize, tmp, []⟩ xs := by
  match xs with
  | [] => rfl
  | [y] => rfl
  | y :: z :: xs =>
    have hyz : ¬ [y, z] = crlf := by
      intro heq
      exact h (by rw [← heq]; simp)
    have hnone : find crlf [y, z] = none :=
      (find_eq_none_iff _ _).mpr fun hi => hyz (hi.eq_of_length rfl).symm
    have hscan : (machine maxSize ip isRequest).run ⟨.chunkSize, tmp, []⟩ [y, z] =
        (⟨.chunkSize, tmp, [y, z]⟩, []) := run_chunkSize_none hnone
    have hsplit : (machine maxSize ip isRequest).run ⟨.chunkSize, tmp, []⟩ (y :: z :: xs) =
        (machine maxSize ip isRequest).run ⟨.chunkSize, tmp, [y, z]⟩ xs := by
      rw [show y :: z :: xs = [y, z] ++ xs from rfl, Mealy.run_append, hscan]
      simp
    have hstep : (machine maxSize ip isRequest).run ⟨.chunkEnd, tmp, []⟩ (y :: z :: xs) =
        (machine maxSize ip isRequest).run
          ⟨.chunkSize, tmp, if [y, z] = crlf then [] else [y, z]⟩ xs := rfl
    rw [hstep, hsplit, if_neg hyz, if_neg (by simp)]

/-- A framer that has failed reads nothing any more. -/
theorem run_failed {e : Exn} {tmp : HttpContext} {pending xs : Bytes} :
    (machine maxSize ip isRequest).run ⟨.failed e, tmp, pending⟩ xs =
      (⟨.failed e, tmp, pending⟩, []) := by
  induction xs with
  | nil => rfl
  | cons x xs ih =>
    have hstep : (machine maxSize ip isRequest).step ⟨.failed e, tmp, pending⟩ x =
        (⟨.failed e, tmp, pending⟩, []) := rfl
    simp [Mealy.run_cons, hstep, ih]

/-! ## What may be pending -/

/-- The bytes a reader may hold in each phase, and that a body or chunk under way lacks at
least one byte. -/
def Wf (f : Framer) : Prop :=
  match f.phase with
  | .headers => find (crlf ++ crlf) f.pending = none
  | .body | .chunkData => f.pending = [] ∧ 0 < f.tmp.data
  | .chunkSize => find crlf f.pending = none
  | .chunkEnd => f.pending.length < 2
  | .failed _ => f.pending = []

/-- The fresh framer is well formed. -/
theorem wf_fresh : Wf fresh := rfl

/-- A framer behind a header block is well formed. -/
theorem wf_openMessage (head : Bytes) : Wf (openMessage maxSize ip isRequest head).1 := by
  unfold openMessage
  generalize processHttpHeaders { header := head ++ crlf } ip isRequest = parsed
  obtain ⟨tmp, isChunk, len⟩ := parsed
  dsimp only
  split
  · exact rfl
  · split
    · exact rfl
    · split
      · exact rfl
      · split
        · exact rfl
        · refine ⟨rfl, ?_⟩
          rw [extractHead_data]
          dsimp only
          omega

/-- A framer behind a size line is well formed. -/
theorem wf_openChunk (tmp : HttpContext) (line : Bytes) : Wf (openChunk tmp line).1 := by
  unfold openChunk
  split
  · exact rfl
  · split
    · exact rfl
    · exact ⟨rfl, Nat.pos_of_ne_zero ‹_›⟩

/-- A step keeps a framer well formed. -/
theorem wf_step {f : Framer} (h : Wf f) (x : UInt8) :
    Wf (step maxSize ip isRequest f x).1 := by
  obtain ⟨phase, tmp, pending⟩ := f
  cases phase with
  | headers =>
    simp only [step]
    split
    · assumption
    · exact wf_openMessage _
  | body =>
    simp only [step]
    split
    · exact rfl
    · exact ⟨rfl, Nat.pos_of_ne_zero ‹_›⟩
  | chunkSize =>
    simp only [step]
    split
    · assumption
    · exact wf_openChunk _ _
  | chunkData =>
    simp only [step]
    split
    · exact Nat.zero_lt_two
    · exact ⟨rfl, Nat.pos_of_ne_zero ‹_›⟩
  | chunkEnd =>
    have hlen : pending.length < 2 := h
    rcases pending with _ | ⟨y, _ | ⟨z, rest⟩⟩
    · exact Nat.one_lt_two
    · by_cases hyx : [y, x] = crlf
      · simp [step, hyx, Wf, find, crlf]
      · simp only [step, List.cons_append, List.nil_append, if_neg hyx]
        exact (find_eq_none_iff _ _).mpr fun hi => hyx (hi.eq_of_length rfl).symm
    · simp only [List.length_cons] at hlen
      omega
  | failed e => exact h

/-- A run keeps a framer well formed. -/
theorem wf_run {f : Framer} (h : Wf f) (xs : Bytes) :
    Wf ((machine maxSize ip isRequest).run f xs).1 := by
  induction xs generalizing f with
  | nil => exact h
  | cons x xs ih => exact ih (wf_step h x)

/-- The pending bytes bring the start of the phase back to the reader. -/
theorem run_pending {f : Framer} (h : Wf f) :
    (machine maxSize ip isRequest).run ⟨f.phase, f.tmp, []⟩ f.pending = (f, []) := by
  obtain ⟨phase, tmp, pending⟩ := f
  cases phase with
  | headers => exact run_headers_none h
  | body => obtain ⟨rfl, -⟩ := h; rfl
  | chunkSize => exact run_chunkSize_none h
  | chunkData => obtain ⟨rfl, -⟩ := h; rfl
  | chunkEnd =>
    have hlen : pending.length < 2 := h
    match pending with
    | [] => rfl
    | [y] => rfl
  | failed e =>
    obtain rfl : pending = [] := h
    rfl

end Framer

end PkuyoProxy.Interface
