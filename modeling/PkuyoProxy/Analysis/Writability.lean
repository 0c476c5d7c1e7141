import PkuyoProxy.Analysis.PairEvents

/-!
# Writability notifications

A connection that waits for its descriptor to become writable is told so once.  An event that
carries `EPOLLIN` too is handled as a read event only, and if the connection stays open the
notification is used up without an attempt to write.  So no connection stalls exactly as long
as no such event reaches one that waits (`none_stalled_iff`).
-/

set_option autoImplicit false

namespace PkuyoProxy.Analysis

open PkuyoProxy.Lib PkuyoProxy.Model

variable {maxSize fuel : ℕ}

/-- A message is queued and waits for the descriptor, which was reported writable since the last
attempt to write. -/
structure Stalled (c : Conn) : Prop where
  queued : FrontReady c.handler
  isSending : c.handler.isSending = true
  notified : c.notified = true

/-- No connection of an owned pair is stalled. -/
def NoneStalled (s : EventLoop) : Prop :=
  ∀ a, (s.worker.heap a).isSome = true → Sides (¬ Stalled ·) (¬ Stalled ·) (s.pairs a)

/-- An event that says both readable and writable does not reach a connection that waits to
write, unless its reads close it. -/
def NotMasked (s : EventLoop) (ev : LoopEvent) : Prop :=
  ev.fd ≠ s.worker.listenFd → ev.epollIn = true → ev.epollOut = true →
    ∀ side a c, s.LeadsTo ev.fd side a → (s.pairs a).conn side = some c →
      c.handler.isSending = true → reports c.handler.connHandler.handshakeDone ev.read = true

/-! ## Connections that wait -/

/-- A connection that waits has made its handshake and has something to send, and was not
reported writable since it last tried. -/
structure Attentive (c : Conn) : Prop where
  handshake : c.handler.isSending = true → c.handler.connHandler.handshakeDone = true
  queued : c.handler.isSending = true → FrontReady c.handler
  unnoticed : c.handler.isSending = true → c.notified = false

/-- An attentive connection is not stalled. -/
theorem Attentive.not_stalled {c : Conn} (h : Attentive c) : ¬ Stalled c := by
  intro hstalled
  have hnot := h.unnoticed hstalled.isSending
  rw [hstalled.notified] at hnot
  cases hnot

/-- A connection that does not wait is attentive. -/
theorem attentive_of_not_sending {c : Conn} (h : c.handler.isSending = false) : Attentive c :=
  ⟨fun hs => by simp [h] at hs, fun hs => by simp [h] at hs, fun hs => by simp [h] at hs⟩

/-- **An attempt to write uses up the notification**; it does not matter whether there was one. -/
theorem handleWriteEvent_attentive (io : WriteEvent) {c : Conn}
    (h : c.handler.isSending = true → c.handler.connHandler.handshakeDone = true) :
    Attentive (c.handleWriteEvent io).2 := by
  have hafter := handleWriteEvent_after io c
  rcases hafter.sending with hwaiting | hsent
  · apply attentive_of_not_sending
    rw [hwaiting.isSending]
    cases hs : c.handler.isSending with
    | false => rfl
    | true => exact absurd (h hs) (by simp [hwaiting.handshake])
  · obtain ⟨s, hqueue, -, hqueue', -, hflag⟩ := hsent.loop
    have hfront (hs : (c.handleWriteEvent io).2.handler.isSending = true) :
        FrontReady (c.handleWriteEvent io).2.handler ∧ FrontReady c.handler := by
      have hsame : FrontReady c.handler ↔ FrontReady s.handler := by
        unfold FrontReady
        rw [hqueue]
      by_cases hready : FrontReady c.handler
      · refine ⟨?_, hready⟩
        have hend : FrontReady (writeLoop io.writes s).2.handler := by
          apply writeLoop_frontReady
          rw [hflag] at hs
          cases hresult : (writeLoop io.writes s).1.result with
          | true => exact .inl rfl
          | false => exact .inr (by simpa [hresult] using hs)
        unfold FrontReady at hend ⊢
        rwa [hqueue']
      · -- nothing to send: the loop clears the interest in writing
        rw [hflag, writeLoop_idle fun hf => hready (hsame.mpr hf)] at hs
        cases hs
    refine ⟨fun _ => hsent.handshake', fun hs => (hfront hs).1, fun hs => ?_⟩
    rw [hafter.notified, hsent.attempted.mpr (hfront hs).2]
    simp

/-- A push leaves the front as it was. -/
theorem frontReady_push {c : Conn} (h : FrontReady c.handler) (content : HttpContext) :
    FrontReady (c.push content).handler := by
  obtain ⟨front, rest, hqueue, hcompleted⟩ := h
  exact ⟨front, rest ++ [content.moved], by simp [Conn.push, hqueue], hcompleted⟩

/-- `recv_content` keeps a connection attentive. -/
theorem attentive_kept : KeptByRecv Attentive (fun _ => True) fun _ => True := by
  intro io content c _ _ h
  have hreceived := recvContent_received io content c
  generalize c.recvContent io content = x at hreceived ⊢
  cases hreceived with
  | sentBack => exact h
  | @queued content' =>
    exact ⟨h.handshake, fun hs => frontReady_push (h.queued hs) content', h.unnoticed⟩
  | written => exact handleWriteEvent_attentive io h.handshake

/-- A stalled connection is not helped by what is handed over to it. -/
theorem stalled_kept : KeptByRecv Stalled (fun _ => True) fun _ => True := by
  intro io content c _ _ h
  have hreceived := recvContent_received io content c
  generalize c.recvContent io content = x at hreceived ⊢
  cases hreceived with
  | sentBack => exact h
  | @queued content' => exact ⟨frontReady_push h.queued content', h.isSending, h.notified⟩
  | written _ hs =>
    rw [h.isSending] at hs
    cases hs

/-! ## Events -/

/-- The notification counts only for a connection that waits. -/
theorem Attentive.deliver {c : Conn} (h : Attentive c) {epollOut : Bool}
    (hidle : epollOut = true → c.handler.isSending = false) : Attentive (c.deliver epollOut) := by
  refine ⟨h.handshake, h.queued, fun hs => ?_⟩
  have hsending : c.handler.isSending = true := hs
  cases epollOut with
  | false => simpa [Conn.deliver] using h.unnoticed hsending
  | true =>
    rw [hidle rfl] at hsending
    cases hsending

/-- A read event keeps a connection attentive. -/
theorem Attentive.read {c : Conn} (h : Attentive c) {ev : ReadEvent} {result : Bool}
    {exit : Exit Exn ParseRun} (hafter : AfterRead maxSize c.handler ev result exit) :
    Attentive { c with handler := exit.state.handler } := by
  have hsame (hs : exit.state.handler.isSending = true) : c.handler.isSending = true := by
    rwa [← hafter.isSending]
  refine ⟨fun hs => ?_, fun hs => (h.queued (hsame hs)).congr hafter.queue,
    fun hs => h.unnoticed (hsame hs)⟩
  show exit.state.handler.connHandler.handshakeDone = true
  rw [hafter.handshake, ready, h.handshake (hsame hs), Bool.true_or]

/-- A read event leaves a stalled connection stalled. -/
theorem Stalled.read {c : Conn} (h : Stalled c) {ev : ReadEvent} {result : Bool}
    {exit : Exit Exn ParseRun} (hafter : AfterRead maxSize c.handler ev result exit) :
    Stalled { c with handler := exit.state.handler } :=
  ⟨h.queued.congr hafter.queue, hafter.isSending.trans h.isSending, h.notified⟩

/-- An event that closes nothing and masks no notification keeps the connections of its pair
attentive. -/
theorem handleEvent_attentive {p p' : ProxyPair} (h : Sides Attentive Attentive p) {ev : LoopEvent}
    {side : Side} (hmask : ev.epollIn = true → ev.epollOut = true → ∀ c,
      p.conn side = some c → c.handler.isSending = true →
        reports c.handler.connHandler.handshakeDone ev.read = true)
    (hcall : p.handleEvent maxSize fuel ev side = .ok (false, p')) :
    Sides Attentive Attentive p' := by
  have hidle {c : Conn} {exit : Exit Exn ParseRun} (hc : p.conn side = some c)
      (hin : ev.epollIn = true) (hafter : AfterRead maxSize c.handler ev.read false exit)
      (hout : ev.epollOut = true) : c.handler.isSending = false := by
    by_contra hs
    have hreports := hmask hin hout c hc (by simpa using hs)
    rw [← hafter.reported] at hreports
    cases hreports
  cases handleEvent_call hcall with
  | clientRead hin hafter hrecv =>
    have hread : Sides Attentive Attentive { p with
        client := { p.client.deliver ev.epollOut with handler := _ } } :=
      ⟨(h.client.deliver (hidle rfl hin hafter)).read hafter, h.backend⟩
    exact recvRequests_keep attentive_kept attentive_kept (fun _ _ => trivial) trivial
      (fun _ _ => ⟨trivial, trivial⟩) (fun _ _ => trivial) hread hrecv
  | clientWrite hin => exact ⟨handleWriteEvent_attentive ev.write h.client.handshake, h.backend⟩
  | backendRead hin hconn hafter =>
    have hattentive := h.backend _ (conn_backend_eq_some.mp hconn)
    refine recvResponses_keep attentive_kept trivial (fun _ _ => ⟨trivial, trivial⟩)
      (fun _ _ => trivial) ⟨h.client, ?_⟩
    rintro conn' ⟨⟩
    exact (hattentive.deliver (hidle hconn hin hafter)).read hafter
  | backendWrite hin hconn =>
    have hattentive := h.backend _ (conn_backend_eq_some.mp hconn)
    refine ⟨h.client, ?_⟩
    rintro conn' ⟨⟩
    exact handleWriteEvent_attentive ev.write hattentive.handshake
  | unconnected => exact h

/-- **A notification that comes with `EPOLLIN` is lost** on a connection that waits. -/
theorem handleEvent_stalls {p p' : ProxyPair} (h : Sides Attentive Attentive p) {ev : LoopEvent}
    {side : Side} {c : Conn} (hc : p.conn side = some c)
    (hsending : c.handler.isSending = true) (hin : ev.epollIn = true) (hout : ev.epollOut = true)
    (hopen : ¬ reports c.handler.connHandler.handshakeDone ev.read = true) {result : Bool}
    (hcall : p.handleEvent maxSize fuel ev side = .ok (result, p')) :
    result = false ∧ ¬ Sides (¬ Stalled ·) (¬ Stalled ·) p' := by
  have hnotified : (c.deliver ev.epollOut).notified = true := by simp [Conn.deliver, hout]
  have hnot : reports c.handler.connHandler.handshakeDone ev.read = false := by simpa using hopen
  cases handleEvent_call hcall with
  | clientRead _ hafter hrecv =>
    cases hc
    have hstalled : Stalled (p.client.deliver ev.epollOut) :=
      ⟨h.client.queued hsending, hsending, hnotified⟩
    have hread : Sides Stalled (fun _ => True) { p with
        client := { p.client.deliver ev.epollOut with handler := _ } } :=
      ⟨hstalled.read hafter, fun _ _ => trivial⟩
    have hend := recvRequests_keep stalled_kept (fun _ _ _ _ _ _ => trivial) (fun _ _ => trivial)
      trivial (fun _ _ => ⟨trivial, trivial⟩) (fun _ _ => trivial) hread hrecv
    exact ⟨hafter.reported.trans hnot, fun hnone => hnone.client hend.client⟩
  | backendRead _ hconn hafter =>
    cases hconn.symm.trans hc
    have hattentive := h.backend c (conn_backend_eq_some.mp hconn)
    have hstalled : Stalled (c.deliver ev.epollOut) :=
      ⟨hattentive.queued hsending, hsending, hnotified⟩
    refine ⟨hafter.reported.trans hnot, fun hnone => ?_⟩
    exact hnone.backend _ (recvResponses_backend _ _ _) (hstalled.read hafter)
  | clientWrite hnotIn | backendWrite hnotIn => exact absurd hin hnotIn
  | unconnected hconn => cases hconn.symm.trans hc

/-! ## Runs -/

/-- A connection that was just opened is attentive. -/
theorem attentive_opened (isRequest : Bool) (connHandler : ConnHandler) :
    Attentive (.opened isRequest connHandler) := attentive_of_not_sending rfl

/-- Both sides of a new pair are attentive. -/
theorem newPair_attentive (s : EventLoop) (a : NewConn) :
    Sides Attentive Attentive (s.newPair a) := by
  refine ⟨attentive_opened true a.client, fun conn hconn => ?_⟩
  simp only [EventLoop.newPair] at hconn
  split at hconn
  · cases hconn
    exact attentive_opened false _
  · cases hconn
  · cases hconn

/-- If all live pairs are attentive, none is stalled. -/
theorem LiveInv.noneStalled {s : EventLoop} (h : LiveInv (Sides Attentive Attentive) s) :
    NoneStalled s := fun a hlive =>
  ⟨(h.pairs a hlive).client.not_stalled, fun conn hconn =>
    ((h.pairs a hlive).backend conn hconn).not_stalled⟩

/-- An event that masks no notification keeps them attentive. -/
theorem processEvent_attentive {s s' : EventLoop} {ev : LoopEvent}
    (h : LiveInv (Sides Attentive Attentive) s) (hfresh : FreshEvent s ev) (hmask : NotMasked s ev)
    (hs' : s.processEvent maxSize fuel ev = .ok s') : LiveInv (Sides Attentive Attentive) s' := by
  refine h.step hfresh (newPair_attentive s) ?_ hs'
  intro side a p hfd hleads hpair hcall
  exact handleEvent_attentive hpair (fun hin hout c => hmask hfd hin hout side a c hleads) hcall

/-- An event that masks a notification leaves a connection stalled. -/
theorem processEvent_stalls {s s' : EventLoop} {ev : LoopEvent}
    (h : LiveInv (Sides Attentive Attentive) s) (hmask : ¬ NotMasked s ev)
    (hs' : s.processEvent maxSize fuel ev = .ok s') : ¬ NoneStalled s' := by
  unfold NotMasked at hmask
  push Not at hmask
  obtain ⟨hfd, hin, hout, side, a, c, hleads, hc, hsending, hopen⟩ := hmask
  rcases EventLoop.processEvent_cases hs' with
    ⟨hfd', -⟩ | ⟨-, -, hnone⟩ | ⟨-, -, side', a', result, hhandled⟩
  · exact absurd hfd' hfd
  · rcases hnone with ⟨hin', -⟩ | hunknown
    · rw [hin] at hin'
      cases hin'
    · exact absurd hunknown hleads.not_unknown
  · obtain ⟨rfl, rfl⟩ := hleads.unique hhandled.leads
    obtain ⟨rfl, hstalled⟩ := handleEvent_stalls (h.pairs a hleads.live) hc hsending hin hout hopen
      hhandled.call
    obtain ⟨-, hheap⟩ := handled_heap h.owns hhandled
    intro hnone
    apply hstalled
    apply hnone a
    rw [hheap]
    exact hleads.live

/-- **No writability notification is lost** exactly when none comes together with `EPOLLIN` for
a connection that waits to write and stays open; then none is lost behind any batch. -/
theorem none_stalled_iff (maxSize fuel : ℕ) (listenFd : Fd) (backendType : BackendType)
    (rootPath : Bytes) (batches : List (List LoopEvent))
    (hfresh : EveryStep (EventLoop.processEvent maxSize fuel) FreshEvent
      { worker := { listenFd, backendType }, rootPath } batches.flatten) :
    (EveryReached (EventLoop.processEvent maxSize fuel) NoneStalled
        { worker := { listenFd, backendType }, rootPath } batches.flatten ↔
      EveryTaken (EventLoop.processEvent maxSize fuel) NotMasked
        { worker := { listenFd, backendType }, rootPath } batches.flatten) ∧
      (EveryTaken (EventLoop.processEvent maxSize fuel) NotMasked
        { worker := { listenFd, backendType }, rootPath } batches.flatten →
      EveryReached (EventLoop.processEvents maxSize fuel) NoneStalled
        { worker := { listenFd, backendType }, rootPath } batches) := by
  have hiff := everyReached_iff (fun _ h => LiveInv.noneStalled h)
    (fun _ _ _ h hfresh hmask hs' => processEvent_attentive h hfresh hmask hs')
    (fun _ _ _ h _ hmask hs' => processEvent_stalls h hmask hs')
    (liveInv_new (Sides Attentive Attentive) listenFd backendType rootPath) hfresh
  exact ⟨hiff, fun htaken => (hiff.mpr htaken).batches⟩

/-- The equivalence and the statement on batches for a response that waits for the client's
descriptor, which is writable then. -/
theorem none_stalled_iff_written :
    (EveryReached (EventLoop.processEvent (2 ^ 62) 10) NoneStalled smallLoop
        [[firstConn], [blockedResponse], [{ fd := 5, epollOut := true }]].flatten ↔
      EveryTaken (EventLoop.processEvent (2 ^ 62) 10) NotMasked smallLoop
        [[firstConn], [blockedResponse], [{ fd := 5, epollOut := true }]].flatten) ∧
      (EveryTaken (EventLoop.processEvent (2 ^ 62) 10) NotMasked smallLoop
        [[firstConn], [blockedResponse], [{ fd := 5, epollOut := true }]].flatten →
      EveryReached (EventLoop.processEvents (2 ^ 62) 10) NoneStalled smallLoop
        [[firstConn], [blockedResponse], [{ fd := 5, epollOut := true }]]) :=
  none_stalled_iff (2 ^ 62) 10 3 .loadBalancer [] _ (fresh_smallLoop (by simp [blockedResponse]))

/-- The client's next bytes and the writability of its descriptor are reported in one event. -/
theorem masked_stalls :
    ¬ ∀ (maxSize fuel : ℕ) (listenFd : Fd) (backendType : BackendType) (rootPath : Bytes)
      (batches : List (List LoopEvent)),
      EveryStep (EventLoop.processEvent maxSize fuel) FreshEvent
        { worker := { listenFd, backendType }, rootPath } batches.flatten →
      EveryReached (EventLoop.processEvents maxSize fuel) NoneStalled
        { worker := { listenFd, backendType }, rootPath } batches := by
  intro hall
  have hnone := hall (2 ^ 62) 10 3 .loadBalancer [] [[firstConn], [blockedResponse],
    [{ fd := 5, epollIn := true, epollOut := true, read := { reads := [.bytes (ascii "G")] } }]]
    (fresh_smallLoop (by simp [blockedResponse])) _ List.prefix_rfl _ rfl
  exact (hnone 0 rfl).client ⟨⟨_, _, rfl, rfl⟩, rfl, rfl⟩

end PkuyoProxy.Analysis
