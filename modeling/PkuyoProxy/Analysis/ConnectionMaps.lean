import PkuyoProxy.Lib.SecondaryIndex
import PkuyoProxy.Model.Worker

/-!
# The connection maps are coherent

Both maps are indexes of the live `ProxyHandler`s: by the client's descriptor, and by the
backend's if the backend is connected (`WorkerInv`).  Accepting keeps both, and so does a
disconnect, except when it hits the client of a pair with a connected backend: that erases
the pair and leaves the backend's entry behind.  Along runs the maps are coherent exactly
as long as this does not happen (`coherent_iff_spared`).
-/

set_option autoImplicit false

namespace PkuyoProxy.Analysis

open PkuyoProxy.Lib PkuyoProxy.Model

/-- The descriptor of a connected backend. -/
def backendFd (h : ProxyHandler) : Option Fd :=
  match h.backend with
  | .normal fd => some fd
  | _ => none

/-- A handler has a backend's descriptor exactly if it is connected to one. -/
theorem backendFd_eq_some {h : ProxyHandler} {fd : Fd} :
    backendFd h = some fd ↔ h.backend = .normal fd := by
  unfold backendFd
  cases h.backend <;> simp

/-- A handler has no backend's descriptor exactly if it is connected to no backend. -/
theorem backendFd_eq_none {h : ProxyHandler} :
    backendFd h = none ↔ ∀ fd, h.backend ≠ .normal fd := by
  unfold backendFd
  cases h.backend <;> simp

/-- Both maps index the live handlers. -/
structure WorkerInv (w : Worker) : Prop where
  owners : Indexes (fun h : ProxyHandler => some h.client) w.heap w.clientToBackend
  borrowers : Indexes backendFd w.heap w.backendToClient

/-- Every entry of `backend_to_client` points to a live handler, owned under its client's
descriptor, whose backend has the entry's descriptor; every owned pair with a connected
backend has its entry. -/
structure Coherent (w : Worker) : Prop where
  entries : ∀ fd p, w.backendToClient fd = some p →
    ∃ h, w.heap p = some h ∧ w.clientToBackend h.client = some p ∧ h.backend.id = fd
  pairs : ∀ clientFd p h fd, w.clientToBackend clientFd = some p → w.heap p = some h →
    h.backend = .normal fd → w.backendToClient fd = some p

/-- With both maps as indexes the worker is coherent. -/
theorem WorkerInv.coherent {w : Worker} (h : WorkerInv w) : Coherent w := by
  constructor
  · intro fd p hentry
    obtain ⟨ph, hlive, hbackend⟩ := (h.borrowers fd p).mp hentry
    refine ⟨ph, hlive, (h.owners ph.client p).mpr ⟨ph, hlive, rfl⟩, ?_⟩
    rw [backendFd_eq_some.mp hbackend]
    rfl
  · intro clientFd p ph fd _ hlive hbackend
    exact (h.borrowers fd p).mpr ⟨ph, hlive, backendFd_eq_some.mpr hbackend⟩

/-- The maps of a new worker are indexes. -/
theorem workerInv_new (listenFd : Fd) (backendType : BackendType) :
    WorkerInv { listenFd, backendType } := ⟨indexes_empty, indexes_empty⟩

/-! ## What the kernel and the allocator may choose -/

/-- The descriptor belongs to the listening socket or to a live pair. -/
def IsOpen (w : Worker) (fd : Fd) : Prop :=
  fd = w.listenFd ∨ ∃ p h, w.heap p = some h ∧ (h.client = fd ∨ h.backend = .normal fd)

/-- New descriptors are not open, and a new object is not allocated over a live one. -/
structure FreshFor (w : Worker) (a : Accepted) : Prop where
  clientFd : ¬ IsOpen w a.clientFd
  addr : w.heap a.addr = none
  backendFd : ∀ fd, a.backendFd = some fd → ¬ IsOpen w fd ∧ fd ≠ a.clientFd

/-- Closed descriptors may be given out again; open ones are not. -/
def LegalInput (w : Worker) : WorkerInput → Prop
  | .accept (some a) => FreshFor w a
  | .event ev => ∀ a, ev.fd = w.listenFd → ev.accepted = some a → FreshFor w a
  | _ => True

/-! ## The owning map -/

/-- `client_to_backend` is the index of the live handlers by their clients' descriptors.  Unlike
`WorkerInv` this survives every step. -/
def Owns (w : Worker) : Prop :=
  Indexes (fun h : ProxyHandler => some h.client) w.heap w.clientToBackend

/-- A descriptor that is not open owns nothing. -/
theorem Owns.clientToBackend_none {w : Worker} (h : Owns w) {fd : Fd} (hfd : ¬ IsOpen w fd) :
    w.clientToBackend fd = none := by
  cases hentry : w.clientToBackend fd with
  | none => rfl
  | some p =>
    obtain ⟨ph, hlive, hclient⟩ := (h fd p).mp hentry
    exact absurd (.inr ⟨p, ph, hlive, .inl (Option.some.inj hclient)⟩) hfd

/-- A new descriptor owns nothing that its assignment could destroy. -/
theorem Owns.eraseClient_eq {w : Worker} (h : Owns w) {fd : Fd} (hfd : ¬ IsOpen w fd) :
    w.eraseClient fd = w := by
  unfold Worker.eraseClient
  rw [h.clientToBackend_none hfd]

/-- An accept allocates its pair, and destroys none. -/
theorem Owns.accept_heap {w : Worker} (h : Owns w) {a : Accepted} (hfd : ¬ IsOpen w a.clientFd) :
    (w.acceptNewConn (some a)).heap =
      Function.update w.heap a.addr (some ⟨a.clientFd, w.newBackend a⟩) := by
  show Function.update (w.eraseClient a.clientFd).heap a.addr _ = _
  rw [h.eraseClient_eq hfd]

/-- An accept keeps the owning map an index. -/
theorem Owns.accept {w : Worker} (h : Owns w) {a : Accepted} (hfd : ¬ IsOpen w a.clientFd)
    (haddr : w.heap a.addr = none) : Owns (w.acceptNewConn (some a)) := by
  unfold Worker.acceptNewConn
  dsimp only
  rw [h.eraseClient_eq hfd]
  exact h.insert haddr rfl (h.clientToBackend_none hfd)

/-- Erasing a client keeps the owning map an index. -/
theorem Owns.erase {w : Worker} (h : Owns w) (fd : Fd) : Owns (w.eraseClient fd) := by
  unfold Worker.eraseClient
  cases hentry : w.clientToBackend fd with
  | none => exact h
  | some p =>
    obtain ⟨ph, hlive, hclient⟩ := (h fd p).mp hentry
    exact h.remove hlive hclient

/-- A disconnect destroys the pair its descriptor leads to, and no other. -/
theorem Owns.disconnect {w w' : Worker} (h : Owns w) {fd : Fd} (hw' : w.disconnect fd = .ok w') :
    Owns w' ∧ ∀ p, ((w.clientToBackend fd).or (w.backendToClient fd) = some p) →
      w'.heap = Function.update w.heap p none := by
  unfold Worker.disconnect at hw'
  cases hclient : w.clientToBackend fd with
  | some p =>
    simp only [hclient, Option.isSome_some, if_true, Except.ok.injEq] at hw'
    rw [← hw']
    refine ⟨h.erase fd, ?_⟩
    rintro p' ⟨⟩
    simp [Worker.eraseClient, hclient]
  | none =>
    simp only [hclient, Option.isSome_none, Bool.false_eq_true, if_false] at hw'
    cases hbackend : w.backendToClient fd with
    | none =>
      rw [hbackend] at hw'
      cases hw'
      exact ⟨h, by simp⟩
    | some p =>
      simp only [hbackend] at hw'
      cases hlive : w.heap p with
      | none =>
        rw [hlive] at hw'
        cases hw'
      | some ph =>
        simp only [hlive, Except.ok.injEq] at hw'
        have howner := (h ph.client p).mpr ⟨ph, hlive, rfl⟩
        rw [← hw']
        have hnext :
            Owns { w with backendToClient := Function.update w.backendToClient fd none } := h
        refine ⟨hnext.erase ph.client, ?_⟩
        rintro p' ⟨⟩
        simp [Worker.eraseClient, howner]

/-- What a disconnect that succeeds leads to was alive. -/
theorem Owns.disconnect_live {w w' : Worker} (h : Owns w) {fd : Fd}
    (hw' : w.disconnect fd = .ok w') {p : Addr}
    (hentry : (w.clientToBackend fd).or (w.backendToClient fd) = some p) :
    ∃ ph, w.heap p = some ph := by
  rcases Option.or_eq_some_iff.mp hentry with hclient | ⟨hclient, hbackend⟩
  · obtain ⟨ph, hlive, -⟩ := (h fd p).mp hclient
    exact ⟨ph, hlive⟩
  · cases hlive : w.heap p with
    | none => simp [Worker.disconnect, hclient, hbackend, hlive] at hw'
    | some ph => exact ⟨ph, rfl⟩

/-! ## Accepting -/

/-- A descriptor that is not open is no backend's. -/
theorem WorkerInv.backendToClient_none {w : Worker} (h : WorkerInv w) {fd : Fd}
    (hfd : ¬ IsOpen w fd) : w.backendToClient fd = none := by
  cases hentry : w.backendToClient fd with
  | none => rfl
  | some p =>
    obtain ⟨ph, hlive, hbackend⟩ := (h.borrowers fd p).mp hentry
    exact absurd (.inr ⟨p, ph, hlive, .inr (backendFd_eq_some.mp hbackend)⟩) hfd

/-- An accept with new descriptors keeps both maps indexes. -/
theorem acceptNewConn_inv {w : Worker} (h : WorkerInv w) (accepted : Option Accepted)
    (hfresh : ∀ a, accepted = some a → FreshFor w a) : WorkerInv (w.acceptNewConn accepted) := by
  cases accepted with
  | none => exact h
  | some a =>
    have ha := hfresh a rfl
    refine ⟨Owns.accept h.owners ha.clientFd ha.addr, ?_⟩
    unfold Worker.acceptNewConn
    dsimp only
    rw [Owns.eraseClient_eq h.owners ha.clientFd]
    cases hbackend : w.newBackend a with
    | normal fd =>
      have hfd : a.backendFd = some fd := by
        unfold Worker.newBackend at hbackend
        split at hbackend <;> simp_all
      exact h.borrowers.insert ha.addr rfl (h.backendToClient_none (ha.backendFd fd hfd).1)
    | failed => exact h.borrowers.insert_none ha.addr rfl
    | staticFile => exact h.borrowers.insert_none ha.addr rfl

/-! ## Disconnecting -/

/-- The descriptor is not that of the client of a pair with a connected backend. -/
def Spared (w : Worker) (fd : Fd) : Prop :=
  ∀ p h, w.clientToBackend fd = some p → w.heap p = some h → ∀ b, h.backend ≠ .normal b

/-- Erasing a client whose pair has no connected backend keeps both maps indexes. -/
theorem eraseClient_inv {w : Worker} (h : WorkerInv w) {fd : Fd} (hspared : Spared w fd) :
    WorkerInv (w.eraseClient fd) := by
  unfold Worker.eraseClient
  cases hentry : w.clientToBackend fd with
  | none => exact h
  | some p =>
    obtain ⟨ph, hlive, hclient⟩ := (h.owners fd p).mp hentry
    have hnone := backendFd_eq_none.mpr (hspared p ph hentry hlive)
    exact ⟨h.owners.remove hlive hclient, h.borrowers.remove_none hlive hnone⟩

/-- A disconnect that spares the clients of connected backends never touches a destroyed
handler. -/
theorem disconnect_inv {w : Worker} (h : WorkerInv w) {fd : Fd} (hspared : Spared w fd) :
    ∃ w', w.disconnect fd = .ok w' ∧ WorkerInv w' := by
  unfold Worker.disconnect
  split
  · exact ⟨_, rfl, eraseClient_inv h hspared⟩
  · cases hentry : w.backendToClient fd with
    | none => exact ⟨w, rfl, h⟩
    | some p =>
      obtain ⟨ph, hlive, hbackend⟩ := (h.borrowers fd p).mp hentry
      have howner := (h.owners ph.client p).mpr ⟨ph, hlive, rfl⟩
      simp only [hlive, Worker.eraseClient, howner]
      exact ⟨_, rfl, h.owners.remove hlive rfl, h.borrowers.remove hlive hbackend⟩

/-- A disconnect of the client of a connected backend destroys the pair and leaves the
backend's entry. -/
theorem disconnect_not_coherent {w w' : Worker} (h : WorkerInv w) {fd : Fd}
    (hspared : ¬ Spared w fd) (hw' : w.disconnect fd = .ok w') : ¬ Coherent w' := by
  unfold Spared at hspared
  push Not at hspared
  obtain ⟨p, ph, hentry, hlive, b, hbackend⟩ := hspared
  unfold Worker.disconnect Worker.eraseClient at hw'
  simp only [hentry, Option.isSome_some, if_true, Except.ok.injEq] at hw'
  intro hcoherent
  have hstale : w'.backendToClient b = some p := by
    rw [← hw']
    exact (h.borrowers b p).mpr ⟨ph, hlive, backendFd_eq_some.mpr hbackend⟩
  obtain ⟨ph', hlive', -⟩ := hcoherent.entries b p hstale
  rw [← hw'] at hlive'
  simp at hlive'

/-! ## Steps and runs -/

/-- The step does not disconnect the client of a pair with a connected backend. -/
def SparedInput (w : Worker) : WorkerInput → Prop
  | .accept _ => True
  | .disconnect fd => Spared w fd
  | .event ev => ev.fd ≠ w.listenFd → ev.epollIn ∨ ev.epollOut → ev.result = true → Spared w ev.fd

/-- A dispatch finds only live handlers. -/
theorem dispatch_ok {w : Worker} (h : WorkerInv w) (fd : Fd) (result : Bool) :
    w.dispatch fd result =
      .ok (if (w.clientToBackend fd).or (w.backendToClient fd) = none then true else result) := by
  unfold Worker.dispatch
  cases hp : (w.clientToBackend fd).or (w.backendToClient fd) with
  | none => rfl
  | some p =>
    have hlive : ∃ ph, w.heap p = some ph := by
      rcases Option.or_eq_some_iff.mp hp with hentry | ⟨-, hentry⟩
      · obtain ⟨ph, hlive, -⟩ := (h.owners fd p).mp hentry
        exact ⟨ph, hlive⟩
      · obtain ⟨ph, hlive, -⟩ := (h.borrowers fd p).mp hentry
        exact ⟨ph, hlive⟩
    obtain ⟨ph, hlive⟩ := hlive
    simp [hlive]

/-- An event disconnects its descriptor if it finds no handler or the handler says so. -/
theorem processEvent_eq {w : Worker} (h : WorkerInv w) {ev : Worker.Event}
    (hfd : ev.fd ≠ w.listenFd) (hflag : ev.epollIn ∨ ev.epollOut) :
    w.processEvent ev =
      if (if (w.clientToBackend ev.fd).or (w.backendToClient ev.fd) = none then true
        else ev.result) = true then w.disconnect ev.fd else .ok w := by
  rw [Worker.processEvent_flagged hfd hflag, dispatch_ok h]
  rfl

/-- A descriptor without handler is spared. -/
theorem spared_of_none {w : Worker} {fd : Fd}
    (hnone : (w.clientToBackend fd).or (w.backendToClient fd) = none) : Spared w fd := by
  intro p h hentry
  rw [hentry] at hnone
  cases hnone

/-- A step that spares its client returns, and keeps both maps indexes. -/
theorem workerStep_keeps {w : Worker} {i : WorkerInput} (h : WorkerInv w) (hlegal : LegalInput w i)
    (hspared : SparedInput w i) : ∃ w', workerStep w i = .ok w' ∧ WorkerInv w' := by
  cases i with
  | accept accepted =>
    refine ⟨_, rfl, acceptNewConn_inv h accepted ?_⟩
    rintro a rfl
    exact hlegal
  | disconnect fd => exact disconnect_inv h hspared
  | event ev =>
    by_cases hfd : ev.fd = w.listenFd
    · exact ⟨_, by rw [workerStep, Worker.processEvent, if_pos hfd],
        acceptNewConn_inv h ev.accepted fun a => hlegal a hfd⟩
    · by_cases hflag : ev.epollIn ∨ ev.epollOut
      · rw [workerStep, processEvent_eq h hfd hflag]
        by_cases hnone : (w.clientToBackend ev.fd).or (w.backendToClient ev.fd) = none
        · simpa [hnone] using disconnect_inv h (spared_of_none hnone)
        · by_cases hresult : ev.result = true
          · simpa [hnone, hresult] using disconnect_inv h (hspared hfd hflag hresult)
          · exact ⟨w, by simp [hnone, hresult], h⟩
      · exact ⟨w, Worker.processEvent_unflagged hfd hflag, h⟩

/-- Behind a step that does not, the maps are not coherent. -/
theorem workerStep_breaks {w w' : Worker} {i : WorkerInput} (h : WorkerInv w)
    (hspared : ¬ SparedInput w i) (hw' : workerStep w i = .ok w') : ¬ Coherent w' := by
  cases i with
  | accept accepted => exact absurd trivial hspared
  | disconnect fd => exact disconnect_not_coherent h hspared hw'
  | event ev =>
    unfold SparedInput at hspared
    push Not at hspared
    obtain ⟨hfd, hflag, hresult, hnot⟩ := hspared
    have hsome : (w.clientToBackend ev.fd).or (w.backendToClient ev.fd) ≠ none :=
      fun hnone => hnot (spared_of_none hnone)
    rw [workerStep, processEvent_eq h hfd hflag, if_neg hsome, if_pos hresult] at hw'
    exact disconnect_not_coherent h hnot hw'

/-- From a state with both indexes, a legal run stays coherent exactly if it spares its clients. -/
theorem coherent_iff_of_inv {w : Worker} (h : WorkerInv w) {inputs : List WorkerInput}
    (hlegal : EveryStep workerStep LegalInput w inputs) :
    EveryState workerStep Coherent w inputs ↔ EveryStep workerStep SparedInput w inputs :=
  everyState_iff (fun _ h => h.coherent) (fun _ _ h hl hs => workerStep_keeps h hl hs)
    (fun _ _ _ h _ hs hw' => workerStep_breaks h hs hw') h hlegal

/-- A batch whose events, in the order they come in, spare the clients of connected backends
is processed to its end. -/
theorem processEvents_coherent {w : Worker} (h : WorkerInv w) {events : List Worker.Event}
    (hlegal : EveryStep workerStep LegalInput w (events.map .event))
    (hspared : EveryStep workerStep SparedInput w (events.map .event)) :
    ∃ w', w.processEvents events = .ok w' ∧ Coherent w' := by
  rw [processEvents_eq]
  exact ((coherent_iff_of_inv h hlegal).mpr hspared).run

/-- **Connection-map coherence.**  The maps are coherent in every state of a run, and no event
of it is dispatched to a destroyed handler, exactly when no step disconnects the client of a
pair with a connected backend. -/
theorem coherent_iff_spared (listenFd : Fd) (backendType : BackendType)
    (inputs : List WorkerInput)
    (hlegal : EveryStep workerStep LegalInput { listenFd, backendType } inputs) :
    EveryState workerStep Coherent { listenFd, backendType } inputs ↔
      EveryStep workerStep SparedInput { listenFd, backendType } inputs :=
  coherent_iff_of_inv (workerInv_new listenFd backendType) hlegal

/-- A connection from descriptor 5 for which descriptor 6 was connected to a backend. -/
def firstAccepted : Accepted := ⟨5, 0, some 6⟩

/-- A readable descriptor whose handler asks for the connection to be closed. -/
def closingEvent (fd : Fd) : WorkerInput := .event ⟨fd, true, false, true, none⟩

/-- The first connection is given new descriptors. -/
theorem freshFor_firstAccepted :
    FreshFor { listenFd := 3, backendType := .loadBalancer } firstAccepted := by
  refine ⟨?_, rfl, ?_⟩
  · simp [IsOpen, firstAccepted]
  · rintro fd ⟨⟩
    simp [IsOpen, firstAccepted]

/-- A connection and two events are legal: nothing else is accepted. -/
theorem legal_firstAccepted (fd fd' : Fd) :
    EveryStep workerStep LegalInput { listenFd := 3, backendType := .loadBalancer }
      [.accept (some firstAccepted), closingEvent fd, closingEvent fd'] := by
  have hclosing (w : Worker) (fd : Fd) : LegalInput w (closingEvent fd) := by
    rintro a - ⟨⟩
  change EveryStep workerStep LegalInput _
    ([] ++ [.accept (some firstAccepted)] ++ [closingEvent fd] ++ [closingEvent fd'])
  refine everyStep_concat.mpr ⟨everyStep_concat.mpr ⟨everyStep_concat.mpr ⟨everyStep_nil, ?_⟩,
    fun w _ => hclosing w fd⟩, fun w _ => hclosing w fd'⟩
  rintro w ⟨⟩
  exact freshFor_firstAccepted

/-- The equivalence for a run in which the backend closes. -/
theorem coherent_iff_spared_backendClosed :
    EveryState workerStep Coherent { listenFd := 3, backendType := .loadBalancer }
        [.accept (some firstAccepted), closingEvent 6, closingEvent 5] ↔
      EveryStep workerStep SparedInput { listenFd := 3, backendType := .loadBalancer }
        [.accept (some firstAccepted), closingEvent 6, closingEvent 5] :=
  coherent_iff_spared 3 .loadBalancer _ (legal_firstAccepted 6 5)

/-- Client and backend close in one batch, the client's event first: the backend's event is
dispatched through an entry whose pair is destroyed. -/
theorem not_coherent_clientClosed :
    ¬ ∀ (listenFd : Fd) (backendType : BackendType) (inputs : List WorkerInput),
      EveryStep workerStep LegalInput { listenFd, backendType } inputs →
      EveryState workerStep Coherent { listenFd, backendType } inputs := by
  intro hall
  obtain ⟨w, hrun, -⟩ := (hall 3 .loadBalancer _ (legal_firstAccepted 5 6)).run
  have hfault : runSteps workerStep { listenFd := 3, backendType := .loadBalancer }
      [.accept (some firstAccepted), closingEvent 5, closingEvent 6] = .error .destroyed := rfl
  rw [hfault] at hrun
  cases hrun

end PkuyoProxy.Analysis
