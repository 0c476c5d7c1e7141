import PkuyoProxy.Analysis.PairEvents

/-!
# Responses under way when the backend closes

A disconnect of the backend destroys the pair, whatever waits in the client's queue.  The queue
is empty exactly when the client's handler does not wait for its descriptor and the last write
to it took all it was offered (`Sound`), and then all that was handed over is on the wire.  So
no response is lost in a run exactly as long as every backend closes in such a state
(`backend_close_delivers_iff`).
-/

set_option autoImplicit false

namespace PkuyoProxy.Analysis

open PkuyoProxy.Lib PkuyoProxy.Model

variable {maxSize fuel : ℕ}

/-- The last write took all it was offered. -/
def LastWhole (writes : List WriteRecord) : Prop :=
  ∃ ws w, writes = ws ++ [w] ∧ w.answer.byteCount = w.offered.length

/-- The handler does not wait for its descriptor, and nothing was handed to it or the last write
took all it was offered. -/
structure Flushed (c : Conn) : Prop where
  isSending : c.handler.isSending = false
  settled : c.pushed = [] ∨ LastWhole c.writes

/-- The queue is empty and the bytes of all that was handed over are on the wire. -/
structure Delivered (c : Conn) : Prop where
  queue : c.handler.queue = []
  wire : (stream c.pushed).Sublist c.wire

/-! ## The loop -/

/-- A write that takes less than it was offered is no whole one. -/
theorem not_lastWhole {writes : List WriteRecord} {w : WriteRecord}
    (h : w.answer.byteCount ≠ w.offered.length) : ¬ LastWhole (writes ++ [w]) := by
  rintro ⟨ws, w', heq, hwhole⟩
  obtain ⟨-, hlast⟩ := List.append_inj' heq rfl
  cases hlast
  exact h hwhole

/-- Whatever part of the buffer a write takes, nothing is lost: a content that is taken in part
stays in the queue as a whole. -/
theorem afterWrite_sublist {c : HttpContext} (hc : Sendable c)
    (hload : c.state = .sendContent → c.header = c.content) (rest : List HttpContext) {n : ℤ}
    (hpos : 0 < n) (hle : n ≤ c.header.length) (hlt : n < 2 ^ 63) :
    (remaining c ++ rest.flatMap remaining).Sublist
        (c.header.take n.toNat ++ (afterWrite c rest n).flatMap remaining) ∧
      ∀ c' ∈ afterWrite c rest n, c' ∈ rest ∨ Sendable c' := by
  by_cases hwhole : c.state = .sendContent → ¬ n < c.header.length
  · obtain ⟨heq, hmem⟩ := afterWrite_remaining hc hload rest hpos hle hlt hwhole
    exact ⟨heq ▸ List.Sublist.refl _, hmem⟩
  · push Not at hwhole
    obtain ⟨hs, hpart⟩ := hwhole
    have hafter : afterWrite c rest n = { c with header := c.header.drop (sizeT n) } :: rest :=
      if_pos (by omega)
    have hremaining : remaining { c with header := c.header.drop (sizeT n) } = remaining c := by
      simp [remaining, hs]
    rw [hafter, List.flatMap_cons, hremaining]
    refine ⟨List.sublist_append_right _ _, ?_⟩
    intro c' hc'
    rcases List.mem_cons.mp hc' with rfl | hc'
    · exact .inr ⟨hc.completed, fun hheader => by simp [hs] at hheader, hc.content⟩
    · exact .inl hc'

/-- Wire and queue hold the bytes, in order; the queue can be sent. -/
structure Kept (s : SendRun) (bytes : Bytes) : Prop where
  bytes : bytes.Sublist (s.wire ++ s.handler.queue.flatMap remaining)
  sendable : ∀ c ∈ s.handler.queue, Sendable c

/-- How the loop ends: with nothing to send, behind a write that took all if there was one; in
front of a descriptor that would block; or behind a write that failed. -/
def LoopEnd (s : SendRun) (out : SendFlags × SendRun) : Prop :=
  (out.2.handler.queue = [] ∧ out.1 = ⟨false, false⟩ ∧
      (s.handler.queue = [] ∧ out.2.writes = s.writes ∨ LastWhole out.2.writes)) ∨
    (s.handler.queue ≠ [] ∧ out.2.handler.queue ≠ [] ∧
      (out.1 = ⟨false, true⟩ ∨ out.1.result = true ∧ ¬ LastWhole out.2.writes))

/-- A write that takes at most what it was offered keeps the bytes on the wire and in the queue. -/
theorem Kept.wrote {s : SendRun} {bytes : Bytes} (h : Kept s bytes) {front : HttpContext}
    {rest : List HttpContext} (hqueue : s.handler.queue = front :: rest) {e : EventState}
    (hpos : 0 < e.byteCount) (hle : e.byteCount ≤ (loadBuffer front).header.length)
    (hlt : e.byteCount < 2 ^ 63) :
    Kept (SendRun.wrote s (loadBuffer front) e
      (afterWrite (loadBuffer front) rest e.byteCount)) bytes := by
  have hbytes := h.bytes
  rw [hqueue, List.flatMap_cons, ← loadBuffer_remaining front] at hbytes
  obtain ⟨hsub, hmem⟩ := afterWrite_sublist
    (loadBuffer_sendable (h.sendable front (by simp [hqueue])))
    (fun hs => loadBuffer_content (by rwa [loadBuffer_state] at hs)) rest hpos hle hlt
  refine ⟨?_, wrote_sendable h.sendable hqueue hmem⟩
  rw [wrote_wire, List.append_assoc]
  exact hbytes.trans ((List.Sublist.refl _).append hsub)

/-- Loading the front context puts nothing on the wire and loses nothing. -/
theorem Kept.loaded {s : SendRun} {bytes : Bytes} (h : Kept s bytes) {front : HttpContext}
    {rest : List HttpContext} (hqueue : s.handler.queue = front :: rest) {ws : List WriteRecord}
    (hws : ∀ w ∈ ws, w.accepted = []) :
    Kept { handler := { s.handler with queue := loadBuffer front :: rest }
           writes := s.writes ++ ws } bytes :=
  ⟨(loaded_bytes hqueue hws).symm ▸ h.bytes, loaded_sendable h.sendable hqueue⟩

/-- The write loop keeps the bytes on the wire and in the queue, and ends in one of its three
ways. -/
theorem writeLoop_kept {answers : List WriteAnswer} (hlegal : ∀ a ∈ answers, Legal a)
    {s : SendRun} {bytes : Bytes} (h : Kept s bytes) :
    Kept (writeLoop answers s).2 bytes ∧ LoopEnd s (writeLoop answers s) := by
  fun_induction writeLoop answers s with
  | case1 answers s hqueue => exact ⟨h, .inl ⟨hqueue, rfl, .inl ⟨hqueue, rfl⟩⟩⟩
  | case2 s front rest hqueue =>
    refine ⟨?_, .inr ⟨by simp [hqueue], by simp, .inl rfl⟩⟩
    have hnone : ∀ w ∈ ([] : List WriteRecord), w.accepted = [] := by simp
    simpa using h.loaded hqueue hnone
  | case3 s front rest hqueue _ c answer answers e record hblock =>
    refine ⟨h.loaded hqueue ?_, .inr ⟨by simp [hqueue], by simp [record], ?_⟩⟩
    · simp [WriteRecord.accepted, hblock]
    · cases herror : e.isError with
      | false => exact .inl rfl
      | true =>
        refine .inr ⟨rfl, not_lastWhole ?_⟩
        show e.byteCount ≠ c.header.length
        omega
  | case4 s front rest hqueue _ c answer answers e record hblock hzero =>
    refine ⟨h.loaded hqueue ?_, .inr ⟨by simp [hqueue], by simp [record], .inr ⟨rfl, ?_⟩⟩⟩
    · simp [WriteRecord.accepted, hzero]
    · apply not_lastWhole
      show e.byteCount ≠ c.header.length
      have hne : c.header ≠ [] := loadBuffer_header_ne (h.sendable front (by simp [hqueue]))
      have hpos := List.length_pos_of_ne_nil hne
      omega
  | case5 s front rest hqueue _ c answer answers e record hblock hzero ih =>
    obtain ⟨hlow, hhigh, hlt⟩ : -1 ≤ e.byteCount ∧ e.byteCount ≤ c.header.length ∧
      e.byteCount < 2 ^ 63 := hlegal answer (by simp) c.header
    have hpos : 0 < e.byteCount := by omega
    obtain ⟨hkept, hend⟩ := ih (fun a ha => hlegal a (by simp [ha]))
      (h.wrote hqueue hpos hhigh hlt)
    refine ⟨hkept, ?_⟩
    rcases hend with ⟨hempty, hflags, hlast⟩ | ⟨-, hmore, hflags⟩
    · refine .inl ⟨hempty, hflags, .inr ?_⟩
      rcases hlast with ⟨hdone, hwrites⟩ | hlast
      · -- the queue was emptied by this write
        rw [hwrites]
        refine ⟨s.writes, _, rfl, ?_⟩
        by_contra hpart
        have hleft : afterWrite c rest e.byteCount ≠ [] := by
          unfold afterWrite
          rw [if_pos hpart]
          simp
        exact hleft hdone
      · exact hlast
    · exact .inr ⟨by simp [hqueue], hmore, hflags⟩
  | case6 answers s front rest hqueue hcompleted =>
    exact absurd (h.sendable front (by simp [hqueue])).completed hcompleted

/-! ## One connection -/

/-- What was handed over is on the wire or in the queue, and an empty queue is a flushed one. -/
structure Bound (c : Conn) : Prop where
  kept : Kept c.toSendRun (stream c.pushed)
  early : c.handler.connHandler.handshakeDone = false → c.writes = [] ∧ c.handler.isSending = false
  unpushed : c.pushed = [] → c.handler.queue = []
  settled : c.handler.queue = [] → Flushed c

/-- Between events a flushed connection has an empty queue. -/
structure Sound (c : Conn) : Prop extends Bound c where
  flushed : Flushed c → c.handler.queue = []

/-- Without writes the last one was not whole. -/
theorem not_lastWhole_nil : ¬ LastWhole [] := by
  rintro ⟨ws, w, heq, -⟩
  simp at heq

/-- What wire and queue hold depends on the queue and on the writes only. -/
theorem Kept.congr {s s' : SendRun} {bytes : Bytes} (h : Kept s bytes)
    (hqueue : s'.handler.queue = s.handler.queue) (hwrites : s'.writes = s.writes) :
    Kept s' bytes :=
  ⟨by rw [SendRun.wire, hwrites, hqueue]; exact h.bytes, by rw [hqueue]; exact h.sendable⟩

/-- That everything is flushed depends on the sending flag, the pushes and the writes only. -/
theorem Flushed.congr {c c' : Conn} (h : Flushed c)
    (hsending : c'.handler.isSending = c.handler.isSending) (hpushed : c'.pushed = c.pushed)
    (hwrites : c'.writes = c.writes) : Flushed c' :=
  ⟨hsending.trans h.isSending, by rw [hpushed, hwrites]; exact h.settled⟩

/-- A write event makes a bound connection sound. -/
theorem handleWriteEvent_sound {io : WriteEvent} (hlegal : ∀ a ∈ io.writes, Legal a) {c : Conn}
    (h : Bound c) : Sound (c.handleWriteEvent io).2 := by
  have hafter := handleWriteEvent_after io c
  generalize (c.handleWriteEvent io).2 = c' at hafter
  rcases hafter.sending with hwaiting | hsent
  · -- the handshake is not done, so nothing was ever written
    obtain ⟨hnone, hidle⟩ := h.early hwaiting.handshake
    refine ⟨⟨?_, fun _ => ?_, fun hp => ?_, fun hq => ?_⟩, fun hflushed => ?_⟩
    · rw [hafter.pushed]
      exact h.kept.congr hwaiting.queue hwaiting.writes
    · rw [hwaiting.writes, hwaiting.isSending]
      exact ⟨hnone, hidle⟩
    · rw [hafter.pushed] at hp
      exact hwaiting.queue.trans (h.unpushed hp)
    · rw [hwaiting.queue] at hq
      exact (h.settled hq).congr hwaiting.isSending hafter.pushed hwaiting.writes
    · rcases hflushed.settled with hp | hlast
      · rw [hafter.pushed] at hp
        exact hwaiting.queue.trans (h.unpushed hp)
      · rw [hwaiting.writes, hnone] at hlast
        exact absurd hlast not_lastWhole_nil
  · obtain ⟨s, hqueue, hwrites, hqueue', hwrites', hflag⟩ := hsent.loop
    obtain ⟨hkept, hend⟩ := writeLoop_kept hlegal (h.kept.congr hqueue hwrites)
    have hempty (hp : c'.pushed = []) : s.handler.queue = [] := by
      rw [hafter.pushed] at hp
      exact hqueue.trans (h.unpushed hp)
    refine ⟨⟨?_, fun hdone => ?_, fun hp => ?_, fun hq => ?_⟩, fun hflushed => ?_⟩
    · rw [hafter.pushed]
      exact hkept.congr hqueue' hwrites'
    · rw [hsent.handshake'] at hdone
      cases hdone
    · rcases hend with ⟨hdone, -⟩ | ⟨hmore, -⟩
      · exact hqueue'.trans hdone
      · exact absurd (hempty hp) hmore
    · rcases hend with ⟨-, hflags, hlast⟩ | ⟨-, hmore, -⟩
      · refine ⟨by rw [hflag, hflags]; rfl, ?_⟩
        rcases hlast with ⟨hdone, hsame⟩ | hlast
        · rw [hafter.pushed, hwrites', hsame, hwrites]
          exact (h.settled (hqueue.symm.trans hdone)).settled
        · exact .inr (by rwa [hwrites'])
      · exact absurd (hqueue'.symm.trans hq) hmore
    · rcases hend with ⟨hdone, -⟩ | ⟨hmore, -, hflags⟩
      · exact hqueue'.trans hdone
      · have hidle := hflushed.isSending
        rcases hflags with hflags | ⟨-, hnot⟩
        · rw [hflag, hflags] at hidle
          cases hidle
        · rcases hflushed.settled with hp | hlast
          · exact absurd (hempty hp) hmore
          · exact absurd (hwrites' ▸ hlast) hnot

/-- A push on a sound connection leaves it bound. -/
theorem push_bound {c : Conn} (h : Sound c) {content : HttpContext} (hfresh : Fresh content) :
    Bound (c.push content) := by
  refine ⟨⟨?_, ?_⟩, h.early, fun hp => ?_, fun hq => ?_⟩
  · have hremaining : remaining content.moved = content.moved.header ++ content.moved.content := by
      simp [remaining, HttpContext.moved, hfresh.state]
    have hwire : (c.push content).wire = c.wire := rfl
    have hsum := h.kept.bytes.append (List.Sublist.refl (remaining content.moved))
    rw [hwire]
    simpa [Conn.push, stream, hremaining, List.append_assoc] using hsum
  · exact sendable_push h.kept.sendable hfresh
  · simp [Conn.push] at hp
  · simp [Conn.push] at hq

/-- A connection that waits only queues; it is not flushed before and behind. -/
theorem push_sound {c : Conn} (h : Sound c) (hsending : c.handler.isSending = true)
    {content : HttpContext} (hfresh : Fresh content) : Sound (c.push content) := by
  refine ⟨push_bound h hfresh, fun hflushed => ?_⟩
  have hidle : c.handler.isSending = false := hflushed.isSending
  rw [hsending] at hidle
  cases hidle

/-- What the kernel answers to the writes keeps to its contract. -/
def LegalWrites (io : WriteEvent) : Prop := ∀ a ∈ io.writes, Legal a

/-- `recv_content` keeps a connection sound. -/
theorem sound_kept : KeptByRecv Sound Fresh LegalWrites := by
  intro io content c hlegal hfresh h
  have hreceived := recvContent_received io content c
  generalize c.recvContent io content = x at hreceived ⊢
  cases hreceived with
  | sentBack => exact h
  | queued hc hs => exact push_sound h hs (takeOn_fresh hfresh hc)
  | written hc hs => exact handleWriteEvent_sound hlegal (push_bound h (takeOn_fresh hfresh hc))

/-- A connection that was just opened is sound. -/
theorem sound_opened (isRequest : Bool) (connHandler : ConnHandler) :
    Sound (.opened isRequest connHandler) :=
  ⟨⟨⟨List.Sublist.refl [], by simp [Conn.opened]⟩, fun _ => ⟨rfl, rfl⟩, fun _ => rfl,
    fun _ => ⟨rfl, .inl rfl⟩⟩, fun _ => rfl⟩

/-- A read event leaves what was sent and what is queued alone. -/
theorem Sound.read {c : Conn} (h : Sound c) {ev : ReadEvent} {result : Bool}
    {exit : Exit Exn ParseRun} (hafter : AfterRead maxSize c.handler ev result exit) :
    Sound { c with handler := exit.state.handler } := by
  refine ⟨⟨h.kept.congr hafter.queue rfl, fun hdone => ?_, fun hp => ?_, fun hq => ?_⟩,
    fun hflushed => ?_⟩
  · have hbefore : c.handler.connHandler.handshakeDone = false := by
      have hready := hafter.handshake.symm.trans hdone
      exact (Bool.or_eq_false_iff.mp hready).1
    exact ⟨(h.early hbefore).1, hafter.isSending.trans (h.early hbefore).2⟩
  · exact hafter.queue.trans (h.unpushed hp)
  · exact (h.settled (hafter.queue.symm.trans hq)).congr hafter.isSending rfl rfl
  · exact hafter.queue.trans (h.flushed (hflushed.congr hafter.isSending.symm rfl rfl))

/-! ## The responses that are handed over -/

/-- The response for an error has not been sent. -/
theorem staticError_fresh (code : ℕ) : Fresh (staticError code) :=
  Fresh.responseHead ⟨rfl, rfl, genHttpHeader_ne _ _⟩

/-- The response with a file has not been sent. -/
theorem fileResponse_fresh (fullPath content : Bytes) : Fresh (fileResponse fullPath content) :=
  Fresh.responseHead ⟨rfl, rfl, by simp [ascii]⟩

/-- No response of the file handler has been sent when it is made. -/
theorem serveFile_fresh (fs : FileSystem) (fullPath : Bytes) :
    Fresh (serveFile fs fullPath).response := by
  unfold serveFile
  split
  · exact staticError_fresh 404
  · cases fs.read fullPath with
    | none => exact staticError_fresh 500
    | some content =>
      dsimp only
      exact fileResponse_fresh fullPath content

/-- What the file handler answers has not been sent. -/
theorem staticRecvContent_fresh {fs : FileSystem} {rootDir : Bytes} {content : HttpContext}
    {answer : StaticAnswer} (h : staticRecvContent fs rootDir content = .ok answer) :
    Fresh answer.response := by
  unfold staticRecvContent at h
  split at h
  · rw [← Except.ok.inj h]
    exact staticError_fresh 405
  · obtain ⟨⟨resolved, fullPath⟩, -, hanswer⟩ := bind_eq_ok_iff.mp h
    rw [← Except.ok.inj hanswer]
    cases resolved with
    | true => exact serveFile_fresh fs fullPath
    | false => exact staticError_fresh 404

/-- A response of the proxy's own has not been sent. -/
theorem ownResponse_fresh {content : HttpContext} (h : OwnResponse content) : Fresh content := by
  cases h with
  | badRequest => exact ⟨rfl, rfl, genHttpHeader_ne _ _⟩
  | badGateway => exact staticError_fresh 502
  | static h => exact staticRecvContent_fresh h

/-! ## Events -/

/-- The client's side is sound, and the backend's parser is between two rounds. -/
def SoundPair (maxSize : ℕ) : ProxyPair → Prop :=
  Sides Sound fun c => UnderWay maxSize c.handler

/-- What the kernel answers to all writes of an event keeps to its contract. -/
structure LegalEvent (ev : LoopEvent) : Prop where
  write : LegalWrites ev.write
  handOvers : ∀ io ∈ ev.handOvers, Within LegalWrites io

/-- A write event without answers of the kernel is legal. -/
theorem legalWrites_silent : LegalWrites {} := by
  intro a ha
  cases ha

/-- A write event leaves the parser under way. -/
theorem AfterWrite.underWay {io : WriteEvent} {c c' : Conn} (h : AfterWrite io c c')
    (hunder : UnderWay maxSize c.handler) : UnderWay maxSize c'.handler :=
  hunder.congr h.state h.tmp h.isRequest h.ip

/-- `recv_content` leaves the parser under way. -/
theorem underWay_kept :
    KeptByRecv (fun c => UnderWay maxSize c.handler) (fun _ => True) LegalWrites := by
  intro io content c _ _ h
  have hpush (content : HttpContext) : UnderWay maxSize (c.push content).handler :=
    h.congr rfl rfl rfl rfl
  have hreceived := recvContent_received io content c
  generalize c.recvContent io content = x at hreceived ⊢
  cases hreceived with
  | sentBack => exact h
  | queued => exact hpush _
  | written => exact (handleWriteEvent_after io (c.push _)).underWay (hpush _)

/-- Delivering an event keeps a connection sound. -/
theorem Sound.deliver {c : Conn} (h : Sound c) (epollOut : Bool) : Sound (c.deliver epollOut) :=
  ⟨⟨h.kept, h.early, h.unpushed, fun hq => ⟨(h.settled hq).isSending, (h.settled hq).settled⟩⟩,
    fun hflushed => h.flushed ⟨hflushed.isSending, hflushed.settled⟩⟩

/-- An event of a pair keeps it sound. -/
theorem handleEvent_sound {p p' : ProxyPair} (h : SoundPair maxSize p) {ev : LoopEvent}
    (hlegal : LegalEvent ev) {side : Side} {result : Bool}
    (hcall : p.handleEvent maxSize fuel ev side = .ok (result, p')) : SoundPair maxSize p' := by
  cases handleEvent_call hcall with
  | clientRead _ hafter hrecv =>
    have hread : SoundPair maxSize { p with
        client := { p.client.deliver ev.epollOut with handler := _ } } :=
      ⟨(h.client.deliver ev.epollOut).read hafter, h.backend⟩
    exact recvRequests_keep sound_kept underWay_kept (fun _ hown => ownResponse_fresh hown)
      legalWrites_silent hlegal.handOvers (fun _ _ => trivial) hread hrecv
  | clientWrite =>
    exact ⟨handleWriteEvent_sound hlegal.write (h.client.deliver ev.epollOut).toBound, h.backend⟩
  | backendRead _ hconn hafter =>
    obtain ⟨hfresh, hunder⟩ := hafter.parsed (h.backend _ (conn_backend_eq_some.mp hconn))
    refine recvResponses_keep sound_kept legalWrites_silent hlegal.handOvers hfresh ⟨h.client, ?_⟩
    rintro conn' ⟨⟩
    exact hunder _ rfl
  | @backendWrite conn _ _ hconn =>
    refine ⟨h.client, ?_⟩
    rintro conn' ⟨⟩
    exact (handleWriteEvent_after ev.write (conn.deliver ev.epollOut)).underWay
      (h.backend conn (conn_backend_eq_some.mp hconn))
  | unconnected => exact h

/-! ## Closes -/

/-- The step handles an event of a descriptor that is no client's, and destroys the pair at the
address: a backend's connection has ended. -/
structure BackendCloses (maxSize fuel : ℕ) (s : EventLoop) (ev : LoopEvent) (s' : EventLoop)
    (a : Addr) : Prop where
  step : s.processEvent maxSize fuel ev = .ok s'
  notListen : ev.fd ≠ s.worker.listenFd
  notClient : s.worker.clientToBackend ev.fd = none
  owned : (s.worker.heap a).isSome = true
  destroyed : s'.worker.heap a = none

/-- The pair that a backend's close destroys has delivered all it was handed for its client. -/
def ClosesDelivered (maxSize fuel : ℕ) (s : EventLoop) (ev : LoopEvent) : Prop :=
  ∀ s' a, BackendCloses maxSize fuel s ev s' a → Delivered (s'.pairs a).client

/-- The client of the pair that a backend's close is about to destroy is flushed. -/
def ClosesFlushed (maxSize fuel : ℕ) (s : EventLoop) (ev : LoopEvent) : Prop :=
  ∀ s' a, BackendCloses maxSize fuel s ev s' a → Flushed (s.pairs a).client

/-- On a sound connection everything is delivered exactly if everything is flushed. -/
theorem Sound.delivered_iff {c : Conn} (h : Sound c) : Delivered c ↔ Flushed c := by
  constructor
  · exact fun hdelivered => h.settled hdelivered.queue
  · intro hflushed
    have hqueue := h.flushed hflushed
    have hbytes := h.kept.bytes
    rw [hqueue, List.flatMap_nil, List.append_nil] at hbytes
    exact ⟨hqueue, hbytes⟩

/-- The event that ends a backend's connection does nothing on the client's side. -/
theorem handleEvent_closing {p p' : ProxyPair} {ev : LoopEvent}
    (hcall : p.handleEvent maxSize fuel ev .backend = .ok (true, p')) : p'.client = p.client := by
  cases handleEvent_call hcall with
  | @backendRead _ _ r _ _ hafter =>
    have hnone : r.passed = [] := hafter.closing rfl
    rw [hnone]
    rfl
  | backendWrite => rfl

/-- The pair a backend's close destroys is the one its descriptor leads to. -/
theorem BackendCloses.client {s s' : EventLoop} {ev : LoopEvent} {a : Addr} (howns : Owns s.worker)
    (h : BackendCloses maxSize fuel s ev s' a) : (s'.pairs a).client = (s.pairs a).client := by
  rcases EventLoop.processEvent_cases h.step with
    ⟨hfd, -⟩ | ⟨-, rfl, -⟩ | ⟨-, -, side, b, result, hhandled⟩
  · exact absurd hfd h.notListen
  · rfl
  · obtain ⟨rfl, rfl⟩ := handled_destroys howns hhandled h.owned h.destroyed
    have hentry := hhandled.leads.entry
    cases side with
    | client =>
      have hclient : s.worker.clientToBackend ev.fd = some a := hentry
      rw [h.notClient] at hclient
      cases hclient
    | backend => exact handleEvent_closing hhandled.call

/-- On sound pairs a close delivers everything exactly if it happens when everything is flushed. -/
theorem closes_iff {s : EventLoop} (h : LiveInv (SoundPair maxSize) s) (ev : LoopEvent) :
    ClosesDelivered maxSize fuel s ev ↔ ClosesFlushed maxSize fuel s ev := by
  have hpair {s' : EventLoop} {a : Addr} (hclose : BackendCloses maxSize fuel s ev s' a) :
      Delivered (s'.pairs a).client ↔ Flushed (s.pairs a).client := by
    rw [hclose.client h.owns]
    exact (h.pairs a hclose.owned).client.delivered_iff
  exact ⟨fun hall s' a hclose => (hpair hclose).mp (hall s' a hclose),
    fun hall s' a hclose => (hpair hclose).mpr (hall s' a hclose)⟩

/-! ## Runs -/

/-- A new pair is sound. -/
theorem newPair_sound (s : EventLoop) (a : NewConn) : SoundPair maxSize (s.newPair a) := by
  refine ⟨sound_opened true a.client, fun conn hconn => ?_⟩
  simp only [EventLoop.newPair] at hconn
  split at hconn
  · cases hconn
    trivial
  · cases hconn
  · cases hconn

/-- An event of the loop keeps all live pairs sound. -/
theorem processEvent_sound {s s' : EventLoop} {ev : LoopEvent} (h : LiveInv (SoundPair maxSize) s)
    (hlegal : FreshEvent s ev ∧ LegalEvent ev) (hs' : s.processEvent maxSize fuel ev = .ok s') :
    LiveInv (SoundPair maxSize) s' := by
  refine h.step hlegal.1 (newPair_sound s) ?_ hs'
  intro side a p _ _ hpair hcall
  exact handleEvent_sound hpair hlegal.2 hcall

/-- **Closing a backend destroys no undelivered response** exactly when the client of each pair
that is destroyed so is flushed: its handler does not wait for its descriptor, and the last
write to it took all it was offered. -/
theorem backend_close_delivers_iff (maxSize fuel : ℕ) (listenFd : Fd) (backendType : BackendType)
    (rootPath : Bytes) (events : List LoopEvent)
    (hlegal : EveryStep (EventLoop.processEvent maxSize fuel)
      (fun s ev => FreshEvent s ev ∧ LegalEvent ev)
      { worker := { listenFd, backendType }, rootPath } events) :
    EveryStep (EventLoop.processEvent maxSize fuel) (ClosesDelivered maxSize fuel)
        { worker := { listenFd, backendType }, rootPath } events ↔
      EveryStep (EventLoop.processEvent maxSize fuel) (ClosesFlushed maxSize fuel)
        { worker := { listenFd, backendType }, rootPath } events :=
  (everyReached_inv (fun _ _ _ h hl hs' => processEvent_sound h hl hs')
    (liveInv_new (SoundPair maxSize) listenFd backendType rootPath) hlegal).everyStep_iff
    fun _ ev h => closes_iff h ev

/-- The response is taken by the client's socket at once. -/
def sentResponse : LoopEvent :=
  { blockedResponse with handOvers := [{ client := { writes := [acceptUpTo 20] } }] }

/-- The end of the backend's stream. -/
def backendGone : LoopEvent := { fd := 6, epollIn := true, read := { reads := [.bytes []] } }

/-- The runs of the small loop that begin with its first connection are legal. -/
theorem legal_smallLoop {events : List LoopEvent}
    (h : ∀ ev ∈ events, ev.accepted = none ∧ LegalEvent ev) :
    EveryStep (EventLoop.processEvent maxSize fuel) (fun s ev => FreshEvent s ev ∧ LegalEvent ev)
      smallLoop (firstConn :: events) := by
  have hfresh := @fresh_smallLoop maxSize fuel events fun ev hev => (h ev hev).1
  intro pre ev hpre s hrun
  refine ⟨hfresh pre ev hpre s hrun, ?_⟩
  rcases List.mem_cons.mp (hpre.subset (List.mem_append_right pre (List.mem_singleton_self ev)))
    with rfl | hev
  · exact ⟨legalWrites_silent, by simp [firstConn]⟩
  · exact (h ev hev).2

/-- The close of the backend is a legal event. -/
theorem legalEvent_backendGone : LegalEvent backendGone :=
  ⟨legalWrites_silent, by simp [backendGone]⟩

/-- The response that is written at once is a legal event. -/
theorem legalEvent_sentResponse : LegalEvent sentResponse := by
  refine ⟨legalWrites_silent, fun io hio => ?_⟩
  rw [List.mem_singleton.mp hio]
  refine ⟨fun a ha => ?_, legalWrites_silent⟩
  rw [List.mem_singleton.mp ha]
  exact acceptUpTo_legal (by decide)

/-- The equivalence for a backend that closes behind a response that has been sent. -/
theorem backend_close_delivers_iff_sent :
    EveryStep (EventLoop.processEvent (2 ^ 62) 10) (ClosesDelivered (2 ^ 62) 10) smallLoop
        [firstConn, sentResponse, backendGone] ↔
      EveryStep (EventLoop.processEvent (2 ^ 62) 10) (ClosesFlushed (2 ^ 62) 10) smallLoop
        [firstConn, sentResponse, backendGone] := by
  apply backend_close_delivers_iff
  apply legal_smallLoop
  intro ev hev
  rcases List.mem_cons.mp hev with rfl | hev
  · exact ⟨rfl, legalEvent_sentResponse⟩
  · rw [List.mem_singleton.mp hev]
    exact ⟨rfl, legalEvent_backendGone⟩

/-- The response waits for the client's socket when the backend closes. -/
theorem close_drops_response :
    ¬ ∀ (maxSize fuel : ℕ) (listenFd : Fd) (backendType : BackendType) (rootPath : Bytes)
      (events : List LoopEvent),
      EveryStep (EventLoop.processEvent maxSize fuel) (fun s ev => FreshEvent s ev ∧ LegalEvent ev)
        { worker := { listenFd, backendType }, rootPath } events →
      EveryStep (EventLoop.processEvent maxSize fuel) (ClosesDelivered maxSize fuel)
        { worker := { listenFd, backendType }, rootPath } events := by
  intro hall
  have hlegal : ∀ ev ∈ [blockedResponse, backendGone], ev.accepted = none ∧ LegalEvent ev := by
    intro ev hev
    rcases List.mem_cons.mp hev with rfl | hev
    · exact ⟨rfl, legalWrites_silent, by simp [blockedResponse]⟩
    · rw [List.mem_singleton.mp hev]
      exact ⟨rfl, legalEvent_backendGone⟩
  have hdelivered := hall (2 ^ 62) 10 3 .loadBalancer [] [firstConn, blockedResponse, backendGone]
    (legal_smallLoop hlegal) [firstConn, blockedResponse] backendGone List.prefix_rfl _ rfl _ 0
    ⟨rfl, by decide, rfl, rfl, rfl⟩
  have hqueue := hdelivered.queue
  cases hqueue

end PkuyoProxy.Analysis
