import PkuyoProxy.Model.Sender

/-!
# What is on the wire

As long as no write of a content is accepted in part, what the kernel has accepted and what
the queue still has to send make up the stream of the messages taken on (`Carrying`), at
every moment of every run.  A content that is accepted in part is loaded into the send
buffer again and its beginning sent twice.
-/

set_option autoImplicit false

namespace PkuyoProxy.Analysis

open PkuyoProxy.Model

/-- The bytes of the messages, one after the other. -/
def stream (cs : List HttpContext) : Bytes := cs.flatMap fun c => c.header ++ c.content

/-- What a queued context still has to send. -/
def remaining (c : HttpContext) : Bytes :=
  match c.state with
  | .sendHeader => c.header ++ c.content
  | .sendContent => c.content

/-- A complete context whose current part is not empty. -/
structure Sendable (c : HttpContext) : Prop where
  completed : c.isCompleted = true
  header : c.state = .sendHeader → c.header ≠ []
  content : c.state = .sendContent → c.content ≠ []

/-- The wire and the queue make up `bytes`. -/
structure Carrying (s : SendRun) (bytes : Bytes) : Prop where
  wire : s.wire ++ s.handler.queue.flatMap remaining = bytes
  sendable : ∀ c ∈ s.handler.queue, Sendable c

/-- The kernel reports an error, that it would block, or a count within what it was
offered. -/
def Legal (answer : WriteAnswer) : Prop :=
  ∀ b : Bytes, -1 ≤ (answer b).byteCount ∧ (answer b).byteCount ≤ b.length ∧
    (answer b).byteCount < 2 ^ 63

/-- A part of the offered bytes was accepted. -/
def Partial (w : WriteRecord) : Prop :=
  0 < w.answer.byteCount ∧ w.answer.byteCount < w.offered.length

/-- Writes of a content were accepted whole or not at all. -/
def ContentWhole (writes : List WriteRecord) : Prop :=
  ∀ w ∈ writes, w.part = .sendContent → ¬ Partial w

/-! ## One write -/

/-- Loading the buffer does not change what is being sent. -/
theorem loadBuffer_state (c : HttpContext) : (loadBuffer c).state = c.state := by
  unfold loadBuffer
  split <;> rfl

/-- Where no content is being sent a header is. -/
theorem state_of_ne {c : HttpContext} (h : c.state ≠ .sendContent) : c.state = .sendHeader := by
  cases hc : c.state with
  | sendHeader => rfl
  | sendContent => exact absurd hc h

/-- Loading the buffer does not change what is still to be sent. -/
theorem loadBuffer_remaining (c : HttpContext) : remaining (loadBuffer c) = remaining c := by
  unfold loadBuffer
  split
  · rename_i hs
    simp [remaining, hs]
  · rfl

/-- Loading the buffer leaves a context that can be sent one that can be. -/
theorem loadBuffer_sendable {c : HttpContext} (h : Sendable c) : Sendable (loadBuffer c) := by
  unfold loadBuffer
  split
  · exact ⟨h.completed, fun hs => by simp_all, h.content⟩
  · exact h

/-- The buffer of what can be sent is not empty. -/
theorem loadBuffer_header_ne {c : HttpContext} (h : Sendable c) : (loadBuffer c).header ≠ [] := by
  unfold loadBuffer
  split
  · rename_i hs
    exact h.content hs
  · rename_i hs
    exact h.header (state_of_ne hs)

/-- The buffer of a content is the content. -/
theorem loadBuffer_content {c : HttpContext} (hs : c.state = .sendContent) :
    (loadBuffer c).header = (loadBuffer c).content := by
  simp [loadBuffer, hs]

/-- A positive count is converted to `size_t` unchanged. -/
theorem sizeT_of_pos {n : ℤ} (hpos : 0 < n) (hlt : n < 2 ^ 63) : sizeT n = n.toNat := by
  unfold sizeT
  rw [Int.emod_eq_of_lt (by omega) (by omega)]

/-- A write that is not a part of a content takes from the queue what it puts on the
wire. -/
theorem afterWrite_remaining {c : HttpContext} (hc : Sendable c)
    (hload : c.state = .sendContent → c.header = c.content) (rest : List HttpContext) {n : ℤ}
    (hpos : 0 < n) (hle : n ≤ c.header.length) (hlt : n < 2 ^ 63)
    (hwhole : c.state = .sendContent → ¬ n < c.header.length) :
    c.header.take n.toNat ++ (afterWrite c rest n).flatMap remaining =
        remaining c ++ rest.flatMap remaining ∧
      ∀ c' ∈ afterWrite c rest n, c' ∈ rest ∨ Sendable c' := by
  unfold afterWrite
  by_cases hpart : n ≠ c.header.length
  · have hstate : c.state = .sendHeader := by
      cases hs : c.state with
      | sendHeader => rfl
      | sendContent => exact absurd (by omega) (hwhole hs)
    rw [if_pos hpart, sizeT_of_pos hpos hlt]
    refine ⟨by simp [remaining, hstate, ← List.append_assoc], ?_⟩
    intro c' hc'
    rcases List.mem_cons.mp hc' with rfl | hc'
    · refine .inr ⟨hc.completed, ?_, by simp [hstate]⟩
      intro _ hnil
      have hdrop := List.drop_eq_nil_iff.mp hnil
      omega
    · exact .inl hc'
  · have hn : n.toNat = c.header.length := by omega
    rw [if_neg hpart, hn, List.take_length]
    by_cases hlast : c.state = .sendContent ∨ c.content = []
    · rw [if_pos hlast]
      refine ⟨?_, fun c' hc' => .inl hc'⟩
      cases hs : c.state with
      | sendHeader =>
        have hnil : c.content = [] := hlast.resolve_left (by simp [hs])
        simp [remaining, hs, hnil]
      | sendContent => simp [remaining, hs, hload hs]
    · rw [if_neg hlast]
      obtain ⟨hstate, hne⟩ := not_or.mp hlast
      have hs := state_of_ne hstate
      refine ⟨by simp [remaining, hs], ?_⟩
      intro c' hc'
      rcases List.mem_cons.mp hc' with rfl | hc'
      · exact .inr ⟨hc.completed, by simp, fun _ => hne⟩
      · exact .inl hc'

/-! ## The loop -/

/-- The handler and record behind a write with answer `e` for the context `c`. -/
def SendRun.wrote (s : SendRun) (c : HttpContext) (e : EventState) (queue : List HttpContext) :
    SendRun :=
  { handler := { s.handler with queue }, writes := s.writes ++ [⟨c.state, c.header, e⟩] }

/-- Writes are only added, and the side of the connection does not change. -/
structure Extends (s s' : SendRun) : Prop where
  writes : s.writes <+: s'.writes
  isRequest : s'.handler.isRequest = s.handler.isRequest

/-- What extends an extension extends. -/
theorem Extends.trans {s s' s'' : SendRun} (h : Extends s s') (h' : Extends s' s'') :
    Extends s s'' :=
  ⟨h.writes.trans h'.writes, h'.isRequest.trans h.isRequest⟩

/-- A write extends the run. -/
theorem extends_wrote (s : SendRun) (c : HttpContext) (e : EventState)
    (queue : List HttpContext) : Extends s (SendRun.wrote s c e queue) :=
  ⟨List.prefix_append _ _, rfl⟩

/-- A write is among the writes behind it. -/
theorem mem_wrote_writes (s : SendRun) (c : HttpContext) (e : EventState)
    (queue : List HttpContext) :
    (⟨c.state, c.header, e⟩ : WriteRecord) ∈ (SendRun.wrote s c e queue).writes :=
  List.mem_append_right _ (List.mem_singleton_self _)

/-- What one round of the loop can do: nothing; load the front context and leave, without a
write or behind one that put nothing on the wire; or write and go on. -/
theorem writeLoop_cases (answers : List WriteAnswer) (s : SendRun) :
    (writeLoop answers s).2 = s ∨
    (∃ front rest ws, s.handler.queue = front :: rest ∧
      (∀ w ∈ ws, w.accepted = []) ∧
      (writeLoop answers s).2 =
        { handler := { s.handler with queue := loadBuffer front :: rest }
          writes := s.writes ++ ws }) ∨
    (∃ front rest answer answers', s.handler.queue = front :: rest ∧
      answers = answer :: answers' ∧
      (answer (loadBuffer front).header).byteCount ≠ -1 ∧
      (answer (loadBuffer front).header).byteCount ≠ 0 ∧
      writeLoop answers s = writeLoop answers' (SendRun.wrote s (loadBuffer front)
        (answer (loadBuffer front).header) (afterWrite (loadBuffer front) rest
          (answer (loadBuffer front).header).byteCount))) := by
  unfold writeLoop
  cases hqueue : s.handler.queue with
  | nil => exact .inl rfl
  | cons front rest =>
    by_cases hcomplete : front.isCompleted = true
    · simp only [hcomplete, if_true]
      cases answers with
      | nil => exact .inr (.inl ⟨front, rest, [], rfl, by simp, by simp⟩)
      | cons answer answers =>
        by_cases hblock : (answer (loadBuffer front).header).byteCount = -1
        · refine .inr (.inl ⟨front, rest, [⟨(loadBuffer front).state, (loadBuffer front).header,
            answer (loadBuffer front).header⟩], rfl, ?_, by simp [hblock]⟩)
          simp [WriteRecord.accepted, hblock]
        · by_cases hzero : (answer (loadBuffer front).header).byteCount = 0
          · refine .inr (.inl ⟨front, rest, [⟨(loadBuffer front).state, (loadBuffer front).header,
              answer (loadBuffer front).header⟩], rfl, ?_, by simp [hzero]⟩)
            simp [WriteRecord.accepted, hzero]
          · refine .inr (.inr ⟨front, rest, answer, answers, rfl, rfl, hblock, hzero, ?_⟩)
            simp only [hblock, hzero, if_false, SendRun.wrote]
            conv_lhs => unfold writeLoop
    · exact .inl (by simp [hcomplete])

/-- The loop of `handle_write_event` extends the run. -/
theorem writeLoop_extends (answers : List WriteAnswer) (s : SendRun) :
    Extends s (writeLoop answers s).2 := by
  induction answers generalizing s with
  | nil =>
    rcases writeLoop_cases [] s with h | ⟨_, _, ws, -, -, h⟩ | ⟨_, _, _, _, -, h, -⟩
    · rw [h]
      exact ⟨List.prefix_rfl, rfl⟩
    · rw [h]
      exact ⟨List.prefix_append _ _, rfl⟩
    · cases h
  | cons answer answers ih =>
    rcases writeLoop_cases (answer :: answers) s with
      h | ⟨_, _, ws, -, -, h⟩ | ⟨_, _, _, _, -, hcons, -, -, h⟩
    · rw [h]
      exact ⟨List.prefix_rfl, rfl⟩
    · rw [h]
      exact ⟨List.prefix_append _ _, rfl⟩
    · cases hcons
      rw [h]
      exact (extends_wrote s _ _ _).trans (ih _)

section Rounds

variable {s : SendRun} {front : HttpContext} {rest : List HttpContext}

/-- Loading the front context, with writes that put nothing on the wire, keeps what wire and
queue make up. -/
theorem loaded_bytes (hqueue : s.handler.queue = front :: rest) {ws : List WriteRecord}
    (hws : ∀ w ∈ ws, w.accepted = []) :
    ({ handler := { s.handler with queue := loadBuffer front :: rest }
       writes := s.writes ++ ws } : SendRun).wire ++
        (loadBuffer front :: rest).flatMap remaining =
      s.wire ++ s.handler.queue.flatMap remaining := by
  have hnone : ws.flatMap WriteRecord.accepted = [] := by simpa using hws
  rw [hqueue]
  simp [SendRun.wire, loadBuffer_remaining, hnone]

/-- With the buffer of its front loaded the queue can still be sent. -/
theorem loaded_sendable (h : ∀ c ∈ s.handler.queue, Sendable c)
    (hqueue : s.handler.queue = front :: rest) : ∀ c ∈ loadBuffer front :: rest, Sendable c := by
  intro c hc
  rcases List.mem_cons.mp hc with rfl | hc
  · exact loadBuffer_sendable (h front (by simp [hqueue]))
  · exact h c (by simp [hqueue, hc])

/-- A write puts what it took on the wire. -/
theorem wrote_wire (c : HttpContext) (e : EventState) (queue : List HttpContext) :
    (SendRun.wrote s c e queue).wire = s.wire ++ c.header.take e.byteCount.toNat := by
  simp [SendRun.wrote, SendRun.wire, WriteRecord.accepted]

/-- Behind a write the queue holds what could be sent before. -/
theorem wrote_sendable (h : ∀ c ∈ s.handler.queue, Sendable c)
    (hqueue : s.handler.queue = front :: rest) {queue : List HttpContext}
    (hmem : ∀ c ∈ queue, c ∈ rest ∨ Sendable c) : ∀ c ∈ queue, Sendable c := by
  intro c hc
  rcases hmem c hc with hc | hc
  · exact h c (by simp [hqueue, hc])
  · exact hc

/-- Loading the buffer of the front, and writes that take nothing, keep wire and queue. -/
theorem loaded_carrying {bytes : Bytes} (h : Carrying s bytes)
    (hqueue : s.handler.queue = front :: rest) {ws : List WriteRecord}
    (hws : ∀ w ∈ ws, w.accepted = []) :
    Carrying { handler := { s.handler with queue := loadBuffer front :: rest }
               writes := s.writes ++ ws } bytes :=
  ⟨(loaded_bytes hqueue hws).trans h.wire, loaded_sendable h.sendable hqueue⟩

/-- A write keeps wire and queue, unless it takes a part of a content. -/
theorem wrote_carrying {bytes : Bytes} (h : Carrying s bytes)
    (hqueue : s.handler.queue = front :: rest) {e : EventState} (hpos : 0 < e.byteCount)
    (hle : e.byteCount ≤ (loadBuffer front).header.length) (hlt : e.byteCount < 2 ^ 63)
    (hwhole : (loadBuffer front).state = .sendContent →
      ¬ e.byteCount < (loadBuffer front).header.length) :
    Carrying (SendRun.wrote s (loadBuffer front) e
      (afterWrite (loadBuffer front) rest e.byteCount)) bytes := by
  have hwire := h.wire
  rw [hqueue, List.flatMap_cons, ← loadBuffer_remaining front] at hwire
  obtain ⟨hnext, hmem⟩ := afterWrite_remaining
    (loadBuffer_sendable (h.sendable front (by simp [hqueue])))
    (fun hs => loadBuffer_content (by rwa [loadBuffer_state] at hs)) rest hpos hle hlt hwhole
  refine ⟨?_, wrote_sendable h.sendable hqueue hmem⟩
  rw [wrote_wire, ← hwire, ← hnext]
  simp [SendRun.wrote]

end Rounds

/-- The loop keeps wire and queue, unless it writes a part of a content. -/
theorem writeLoop_carrying {answers : List WriteAnswer} (hlegal : ∀ a ∈ answers, Legal a)
    {s : SendRun} {bytes : Bytes} (h : Carrying s bytes)
    (hwhole : ContentWhole (writeLoop answers s).2.writes) :
    Carrying (writeLoop answers s).2 bytes := by
  induction answers generalizing s with
  | nil =>
    rcases writeLoop_cases [] s with hs | ⟨_, _, ws, hqueue, hws, hs⟩ | ⟨_, _, _, _, -, hcons, -⟩
    · rwa [hs]
    · rw [hs]
      exact loaded_carrying h hqueue hws
    · cases hcons
  | cons answer answers ih =>
    rcases writeLoop_cases (answer :: answers) s with
      hs | ⟨_, _, ws, hqueue, hws, hs⟩ | ⟨front, rest, _, _, hqueue, hcons, hblock, hzero, hs⟩
    · rwa [hs]
    · rw [hs]
      exact loaded_carrying h hqueue hws
    · cases hcons
      rw [hs] at hwhole ⊢
      obtain ⟨hlow, hhigh, hlt⟩ := hlegal answer (by simp) (loadBuffer front).header
      have hpos : 0 < (answer (loadBuffer front).header).byteCount := by omega
      -- the record of this write is among those of the whole run
      have hmem := (writeLoop_extends answers _).writes.subset
        (mem_wrote_writes s (loadBuffer front) (answer (loadBuffer front).header)
          (afterWrite (loadBuffer front) rest (answer (loadBuffer front).header).byteCount))
      refine ih (fun a ha => hlegal a (by simp [ha])) ?_ hwhole
      exact wrote_carrying h hqueue hpos hhigh hlt
        fun hstate hpart => hwhole _ hmem hstate ⟨hpos, hpart⟩

/-! ## Events -/

/-- What wire and queue make up depends on the queue and the writes only. -/
theorem Carrying.congr {s s' : SendRun} {bytes : Bytes} (h : Carrying s bytes)
    (hqueue : s'.handler.queue = s.handler.queue) (hwrites : s'.writes = s.writes) :
    Carrying s' bytes :=
  ⟨by rw [SendRun.wire, hwrites, hqueue]; exact h.wire, by rw [hqueue]; exact h.sendable⟩

/-- Only the queue of the handler changes in the loop. -/
theorem writeLoop_handler (answers : List WriteAnswer) (s : SendRun) :
    (writeLoop answers s).2.handler =
      { s.handler with queue := (writeLoop answers s).2.handler.queue } := by
  fun_induction writeLoop answers s with
  | case1 => rfl
  | case2 => rfl
  | case3 => rfl
  | case4 => rfl
  | case5 _ _ _ _ _ _ _ _ _ _ _ _ ih => exact ih
  | case6 => rfl

/-- Setting the interest changes the sending flag and the interest only. -/
theorem updateListening_eq (flags : SendFlags) (h : NormalConnHandler) :
    ∃ conn, conn.ip = h.connHandler.ip ∧ conn.handshakeDone = h.connHandler.handshakeDone ∧
      updateListening flags h = { h with
        connHandler := conn
        isSending := if flags.result then h.isSending else flags.needListen } := by
  obtain ⟨result, needListen⟩ := flags
  obtain ⟨queue, tmp, raw, state, isSending, isRequest, conn⟩ := h
  unfold updateListening
  cases result
  · cases needListen <;> cases isSending <;> refine ⟨_, ?_, ?_, rfl⟩ <;> rfl
  · exact ⟨conn, rfl, rfl, rfl⟩

/-- Setting the interest changes neither the queue nor the side. -/
theorem updateListening_frame (flags : SendFlags) (h : NormalConnHandler) :
    (updateListening flags h).queue = h.queue ∧
      (updateListening flags h).isRequest = h.isRequest := by
  obtain ⟨conn, -, -, heq⟩ := updateListening_eq flags h
  rw [heq]
  exact ⟨rfl, rfl⟩

/-- **What a call of `handle_write_event` does**: it goes on with the handshake, or runs the loop
and sets the interest by the way that ended. -/
inductive WriteCall (answer : Handshake) (answers : List WriteAnswer) (s : SendRun) :
    Bool → SendRun → Prop
  | handshaking {conn : ConnHandler} {result : Bool}
      (hbefore : s.handler.connHandler.handshakeDone = false) (hdone : conn.handshakeDone = false)
      (hip : conn.ip = s.handler.connHandler.ip) :
      WriteCall answer answers s result
        { s with handler := { s.handler with connHandler := conn } }
  | sending {conn : ConnHandler} (hdone : conn.handshakeDone = true)
      (hip : conn.ip = s.handler.connHandler.ip)
      (hready : (s.handler.ensureHandshake answer).1 = none)
      (hconn : conn = s.handler.connHandler ∨
        s.handler.connHandler.handshakeDone = false ∧ conn.events.epollOut = false)
      {flags : SendFlags} {s' : SendRun}
      (hloop : writeLoop answers { s with handler := { s.handler with connHandler := conn } } =
        (flags, s')) :
      WriteCall answer answers s flags.result
        { s' with handler := updateListening flags s'.handler }

/-- `handle_write_event` does what `WriteCall` says. -/
theorem handleWriteEvent_call (answer : Handshake) (answers : List WriteAnswer) (s : SendRun) :
    WriteCall answer answers s (handleWriteEvent answer answers s).1
      (handleWriteEvent answer answers s).2 := by
  unfold handleWriteEvent
  cases hdone : s.handler.connHandler.handshakeDone with
  | true =>
    have heq : s.handler.ensureHandshake answer = (none, s.handler) := if_pos hdone
    rw [heq]
    exact .sending hdone rfl (by rw [heq]) (.inl rfl) rfl
  | false =>
    have hnot : ¬ s.handler.connHandler.handshakeDone = true := by simp [hdone]
    cases answer with
    | finished =>
      have heq : s.handler.ensureHandshake .finished = (none, { s.handler with
          connHandler := (s.handler.connHandler.handshake .finished).2 }) := if_neg hnot
      have hip : (s.handler.connHandler.handshake .finished).2.ip = s.handler.connHandler.ip := rfl
      rw [heq]
      exact .sending rfl hip (by rw [heq]) (.inr ⟨hdone, rfl⟩) rfl
    | wantRead | wantWrite =>
      simp only [NormalConnHandler.ensureHandshake, ConnHandler.handshake,
        ConnHandler.modifyEvent, hdone]
      exact .handshaking hdone rfl rfl
    | fatal =>
      simp only [NormalConnHandler.ensureHandshake, ConnHandler.handshake, hdone]
      exact .handshaking hdone hdone rfl

/-- A call of `handle_write_event` extends the run. -/
theorem WriteCall.extends {answer : Handshake} {answers : List WriteAnswer} {s s' : SendRun}
    {result : Bool} (hcall : WriteCall answer answers s result s') : Extends s s' := by
  cases hcall with
  | handshaking => exact ⟨List.prefix_rfl, rfl⟩
  | @sending conn _ _ _ _ flags s₁ hloop =>
    have hextends := writeLoop_extends answers
      { s with handler := { s.handler with connHandler := conn } }
    rw [hloop] at hextends
    exact ⟨hextends.writes, (updateListening_frame flags _).2.trans hextends.isRequest⟩

/-- A call of `handle_write_event` keeps wire and queue, unless it writes a part of a content. -/
theorem WriteCall.carrying {answer : Handshake} {answers : List WriteAnswer} {s s' : SendRun}
    {result : Bool} (hcall : WriteCall answer answers s result s')
    (hlegal : ∀ a ∈ answers, Legal a) {bytes : Bytes} (h : Carrying s bytes)
    (hwhole : ContentWhole s'.writes) : Carrying s' bytes := by
  cases hcall with
  | handshaking => exact h.congr rfl rfl
  | @sending conn _ _ _ _ flags s₁ hloop =>
    have hstart : Carrying { s with handler := { s.handler with connHandler := conn } } bytes :=
      h.congr rfl rfl
    have hcarrying := writeLoop_carrying hlegal hstart
    rw [hloop] at hcarrying
    exact (hcarrying hwhole).congr (updateListening_frame flags _).1 rfl

/-- A context at the end of the queue. -/
def pushed (s : SendRun) (c : HttpContext) : SendRun :=
  { s with handler := { s.handler with queue := s.handler.queue ++ [c.moved] } }

/-- **What `recv_content` does**: it sends a response back, or queues what it was given, and
writes unless the connection waits. -/
inductive RecvCall (content : HttpContext) (answer : Handshake) (answers : List WriteAnswer)
    (s : SendRun) : SendRun → Prop
  | sentBack {response : HttpContext} (hc : takeOn s.handler.isRequest content = .inr response) :
      RecvCall content answer answers s s
  | queued {c : HttpContext} (hc : takeOn s.handler.isRequest content = .inl c)
      (hs : s.handler.isSending = true) : RecvCall content answer answers s (pushed s c)
  | written {c : HttpContext} (hc : takeOn s.handler.isRequest content = .inl c)
      (hs : s.handler.isSending = false) {result : Bool} {s' : SendRun}
      (hcall : WriteCall answer answers (pushed s c) result s') :
      RecvCall content answer answers s s'

/-- `recv_content` does what `RecvCall` says. -/
theorem recvContent_call (answer : Handshake) (answers : List WriteAnswer) (content : HttpContext)
    (s : SendRun) :
    RecvCall content answer answers s (recvContent answer answers content s).1 := by
  unfold recvContent
  cases hc : takeOn s.handler.isRequest content with
  | inr response => exact .sentBack hc
  | inl c =>
    dsimp only
    by_cases hs : s.handler.isSending = true
    · rw [if_pos hs]
      exact .queued hc hs
    · rw [if_neg hs]
      have hcall := handleWriteEvent_call answer answers (pushed s c)
      exact .written hc (by simpa using hs) hcall

/-- A call of `recv_content` extends the run. -/
theorem RecvCall.extends {content : HttpContext} {answer : Handshake} {answers : List WriteAnswer}
    {s s' : SendRun} (hcall : RecvCall content answer answers s s') : Extends s s' := by
  cases hcall with
  | sentBack | queued => exact ⟨List.prefix_rfl, rfl⟩
  | written _ _ hcall =>
    have hextends := hcall.extends
    exact ⟨hextends.writes, hextends.isRequest⟩

/-! ## Messages -/

/-- A complete message with a header, ready to be sent from its beginning. -/
structure Fresh (c : HttpContext) : Prop where
  completed : c.isCompleted = true
  state : c.state = .sendHeader
  header : c.header ≠ []

/-- Extracting a response's start line changes this part of the context only. -/
theorem getResponseHead_eq (c : HttpContext) :
    ∃ response, (getResponseHead c).2 = { c with response := response } := by
  unfold getResponseHead
  dsimp only
  split
  · exact ⟨c.response, rfl⟩
  · split
    · exact ⟨_, rfl⟩
    · exact ⟨c.response, rfl⟩

/-- Extracting the status code leaves a message as it is. -/
theorem Fresh.responseHead {c : HttpContext} (h : Fresh c) : Fresh (getResponseHead c).2 := by
  obtain ⟨response, heq⟩ := getResponseHead_eq c
  rw [heq]
  exact ⟨h.completed, h.state, h.header⟩

/-- The header of a page is not empty. -/
theorem genHttpHeader_ne (content : Bytes) (errorCode : ℕ) :
    genHttpHeader content errorCode ≠ [] := by
  simp [genHttpHeader, ascii]

/-- What is queued in place of a fresh message is fresh. -/
theorem takeOn_fresh {isRequest : Bool} {content c : HttpContext} (h : Fresh content)
    (hc : takeOn isRequest content = .inl c) : Fresh c := by
  unfold takeOn at hc
  split at hc
  · cases hc
  · split at hc
    · cases hc
      exact Fresh.responseHead ⟨h.completed, h.state, genHttpHeader_ne _ _⟩
    · cases hc
      exact h

/-- The start line was understood: that of a response on the client's side, that of a
request on the backend's. -/
def ValidFor (isRequest : Bool) (c : HttpContext) : Prop :=
  if isRequest then c.response.isValid = true else c.request.isValid = true

/-- A valid message is queued as it is. -/
theorem takeOn_valid {isRequest : Bool} {content : HttpContext} (h : ValidFor isRequest content) :
    takeOn isRequest content = .inl content := by
  cases isRequest with
  | false =>
    have hrequest : content.request.isValid = true := h
    simp [takeOn, hrequest]
  | true =>
    have hresponse : content.response.isValid = true := h
    simp [takeOn, hresponse]

/-- What an event adds to the stream. -/
def takenOn (isRequest : Bool) : SendInput → List HttpContext
  | .recv content _ _ =>
    match takeOn isRequest content with
    | .inl c => [c]
    | .inr _ => []
  | .writable _ _ => []

/-- The message an event hands over. -/
def handed : SendInput → List HttpContext
  | .recv content _ _ => [content]
  | .writable _ _ => []

/-- Valid messages add what was handed over. -/
theorem takenOn_eq_handed {isRequest : Bool} {inputs : List SendInput}
    (h : ∀ c ∈ inputs.flatMap handed, ValidFor isRequest c) :
    inputs.flatMap (takenOn isRequest) = inputs.flatMap handed := by
  induction inputs with
  | nil => rfl
  | cons input inputs ih =>
    rw [List.flatMap_cons, List.flatMap_cons, ih fun c hc => h c (by simp [hc])]
    cases input with
    | recv content answer answers =>
      have hvalid := takeOn_valid (h content (by simp [handed]))
      simp [takenOn, handed, hvalid]
    | writable answer answers => rfl

/-- Messages handed over are fresh, and the kernel keeps to its contract. -/
def Proper : SendInput → Prop
  | .recv content _ answers => Fresh content ∧ ∀ a ∈ answers, Legal a
  | .writable _ answers => ∀ a ∈ answers, Legal a

/-- Every event extends the run. -/
theorem sendStep_extends (s : SendRun) (input : SendInput) : Extends s (sendStep s input) := by
  cases input with
  | recv content answer answers => exact (recvContent_call answer answers content s).extends
  | writable answer answers => exact (handleWriteEvent_call answer answers s).extends

/-- A fresh message behind the queue can be sent. -/
theorem sendable_push {queue : List HttpContext} (h : ∀ c ∈ queue, Sendable c) {c : HttpContext}
    (hc : Fresh c) : ∀ c' ∈ queue ++ [c.moved], Sendable c' := by
  intro c' hc'
  rcases List.mem_append.mp hc' with hc' | hc'
  · exact h c' hc'
  · rw [List.mem_singleton.mp hc']
    exact ⟨hc.completed, fun _ => hc.header, by simp [HttpContext.moved, hc.state]⟩

/-- A fresh message behind the queue adds its bytes to what wire and queue make up. -/
theorem Carrying.push {s : SendRun} {bytes : Bytes} (h : Carrying s bytes) {c : HttpContext}
    (hc : Fresh c) : Carrying (pushed s c) (bytes ++ stream [c]) := by
  refine ⟨?_, sendable_push h.sendable hc⟩
  rw [← h.wire]
  simp [pushed, SendRun.wire, stream, remaining, HttpContext.moved, hc.state]

/-- An event adds the bytes of what it takes on to what wire and queue make up, unless it writes a
part of a content. -/
theorem sendStep_carrying {s : SendRun} {bytes : Bytes} (h : Carrying s bytes) {input : SendInput}
    (hinput : Proper input) (hwhole : ContentWhole (sendStep s input).writes) :
    Carrying (sendStep s input) (bytes ++ stream (takenOn s.handler.isRequest input)) := by
  cases input with
  | writable answer answers =>
    have hcall := handleWriteEvent_call answer answers s
    simpa [sendStep, takenOn, stream] using hcall.carrying hinput h hwhole
  | recv content answer answers =>
    obtain ⟨hfresh, hlegal⟩ := hinput
    have hcall := recvContent_call answer answers content s
    simp only [sendStep, takenOn] at hwhole ⊢
    generalize (recvContent answer answers content s).1 = s' at hcall hwhole ⊢
    cases hcall with
    | sentBack hc => simpa [hc, stream] using h
    | queued hc hs =>
      rw [hc]
      exact h.push (takeOn_fresh hfresh hc)
    | written hc hs hcall =>
      rw [hc]
      exact hcall.carrying hlegal (h.push (takeOn_fresh hfresh hc)) hwhole

/-! ## Runs -/

/-- Every run of events extends the one before it. -/
theorem sendRun_extends (s : SendRun) (inputs : List SendInput) : Extends s (sendRun s inputs) := by
  induction inputs generalizing s with
  | nil => exact ⟨List.prefix_rfl, rfl⟩
  | cons input inputs ih => exact (sendStep_extends s input).trans (ih _)

/-- Every run keeps what wire and queue make up and adds what it takes on. -/
theorem sendRun_carrying {s : SendRun} {bytes : Bytes} (h : Carrying s bytes)
    {inputs : List SendInput} (hinputs : ∀ input ∈ inputs, Proper input)
    (hwhole : ContentWhole (sendRun s inputs).writes) :
    Carrying (sendRun s inputs)
      (bytes ++ stream (inputs.flatMap (takenOn s.handler.isRequest))) := by
  induction inputs generalizing s bytes with
  | nil => simpa [sendRun, stream] using h
  | cons input inputs ih =>
    have hlater := (sendRun_extends (sendStep s input) inputs).writes
    have hstep := sendStep_carrying h (hinputs input (by simp))
      fun w hw => hwhole w (hlater.subset hw)
    have hrest := ih hstep (fun i hi => hinputs i (by simp [hi])) hwhole
    rw [(sendStep_extends s input).isRequest] at hrest
    simpa [sendRun, stream, List.append_assoc] using hrest

/-- **Output stream fidelity.**  In a run in which no content is accepted in part, the wire
always carries a prefix of the messages taken on, and all of them when the queue is empty.
Messages whose start line was understood are taken on as they are. -/
theorem wire_prefix_stream (h : NormalConnHandler) (hqueue : h.queue = [])
    (inputs : List SendInput) (hinputs : ∀ input ∈ inputs, Proper input)
    (hwhole : ContentWhole (sendRun { handler := h } inputs).writes) :
    (sendRun { handler := h } inputs).wire <+:
        stream (inputs.flatMap (takenOn h.isRequest)) ∧
      ((sendRun { handler := h } inputs).handler.queue = [] →
        (sendRun { handler := h } inputs).wire =
          stream (inputs.flatMap (takenOn h.isRequest))) ∧
      ((∀ c ∈ inputs.flatMap handed, ValidFor h.isRequest c) →
        inputs.flatMap (takenOn h.isRequest) = inputs.flatMap handed) := by
  have hstart : Carrying { handler := h } [] :=
    ⟨by simp [SendRun.wire, hqueue], by simp [hqueue]⟩
  have hrun := (sendRun_carrying hstart hinputs hwhole).wire
  rw [List.nil_append] at hrun
  refine ⟨⟨_, hrun⟩, fun hempty => ?_, takenOn_eq_handed⟩
  rwa [hempty, List.flatMap_nil, List.append_nil] at hrun

/-- The kernel accepts at most `n` bytes. -/
def acceptUpTo (n : ℕ) : WriteAnswer := fun b => { byteCount := min n b.length }

/-- A kernel that takes at most so many bytes is legal. -/
theorem acceptUpTo_legal {n : ℕ} (h : n < 2 ^ 63) : Legal (acceptUpTo n) := by
  intro b
  simp only [acceptUpTo]
  omega

/-- A backend connection, and a request with a body for it. -/
def backendEnd : NormalConnHandler :=
  { isRequest := false, connHandler := { handshakeDone := true } }

/-- A request with a body of two bytes. -/
def smallRequest : HttpContext :=
  { isCompleted := true
    request := { urlPath := ascii "/", method := ascii "P" }
    header := ascii "P / H\r\n\r\n"
    content := ascii "ab" }

/-- The request has not been sent. -/
theorem smallRequest_fresh : Fresh smallRequest := ⟨rfl, rfl, by decide⟩

/-- The header is accepted in two parts and the content whole. -/
def partialHeader : List SendInput :=
  [.recv smallRequest .finished [acceptUpTo 4], .writable .finished [acceptUpTo 20, acceptUpTo 20]]

/-- A run in which the header is taken in two parts and the content whole. -/
theorem wire_prefix_stream_partialHeader :
    (sendRun { handler := backendEnd } partialHeader).wire <+:
        stream (partialHeader.flatMap (takenOn false)) ∧
      ((sendRun { handler := backendEnd } partialHeader).handler.queue = [] →
        (sendRun { handler := backendEnd } partialHeader).wire =
          stream (partialHeader.flatMap (takenOn false))) ∧
      ((∀ c ∈ partialHeader.flatMap handed, ValidFor false c) →
        partialHeader.flatMap (takenOn false) = partialHeader.flatMap handed) := by
  apply wire_prefix_stream backendEnd rfl partialHeader
  · intro input hinput
    rcases List.mem_cons.mp hinput with rfl | hinput
    · refine ⟨smallRequest_fresh, fun a ha => ?_⟩
      rw [List.mem_singleton.mp ha]
      exact acceptUpTo_legal (by decide)
    · rw [List.mem_singleton.mp hinput]
      intro a ha
      obtain rfl : a = acceptUpTo 20 := by simpa using ha
      exact acceptUpTo_legal (by decide)
  · have hwrites : (sendRun { handler := backendEnd } partialHeader).writes =
        [⟨.sendHeader, ascii "P / H\r\n\r\n", ⟨false, 4⟩⟩,
          ⟨.sendHeader, ascii "H\r\n\r\n", ⟨false, 5⟩⟩,
          ⟨.sendContent, ascii "ab", ⟨false, 2⟩⟩] := by decide
    rw [hwrites]
    simp [ContentWhole, Partial, ascii]

/-- The content `ab` is accepted in part, and sent from its beginning again: the wire carries
`aab` behind the header. -/
theorem wire_not_prefix_stream :
    ¬ ∀ (h : NormalConnHandler) (inputs : List SendInput), h.queue = [] →
      (∀ input ∈ inputs, Proper input) →
      (∀ c ∈ inputs.flatMap handed, ValidFor h.isRequest c) →
      (sendRun { handler := h } inputs).wire <+: stream (inputs.flatMap handed) := by
  intro hall
  have hwire := hall backendEnd
    [.recv smallRequest .finished [acceptUpTo 20, acceptUpTo 1, acceptUpTo 20]] rfl ?_ ?_
  · revert hwire
    decide
  · intro input hinput
    rw [List.mem_singleton.mp hinput]
    refine ⟨smallRequest_fresh, fun a ha => ?_⟩
    obtain rfl | rfl : a = acceptUpTo 20 ∨ a = acceptUpTo 1 := by
      simp at ha
      tauto
    · exact acceptUpTo_legal (by decide)
    · exact acceptUpTo_legal (by decide)
  · intro c hc
    obtain rfl : c = smallRequest := by simpa [handed] using hc
    change smallRequest.request.isValid = true
    decide

end PkuyoProxy.Analysis
