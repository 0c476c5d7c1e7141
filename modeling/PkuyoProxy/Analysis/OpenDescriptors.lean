import PkuyoProxy.Analysis.ConnectionMaps
import PkuyoProxy.Lib.Outcomes
import PkuyoProxy.Lib.OwnedHandles
import PkuyoProxy.Model.Descriptors

/-!
# The descriptors a worker has open

In every state of a worker its open descriptors are those it was started with, the two of its
listening handler, and those of its live pairs, each of one pair (`ProcessInv`).  So no descriptor
leaks and none is closed twice, whatever the kernel answers and however the maps have gone stale.
An event of a descriptor that is still open reaches the pair of the descriptor: what a stale entry
of `backend_to_client` leads to is used only when a batch holds an event of a descriptor that was
closed earlier in the batch.
-/

set_option autoImplicit false

namespace PkuyoProxy.Analysis

open PkuyoProxy.Lib PkuyoProxy.Model

variable {d d' d₁ d₂ : Descriptors} {fds fds' : List Fd} {fd : Fd}

/-- The descriptors that are open. -/
def openFds (d : Descriptors) : Set Fd := {fd | d.isOpen fd = true}

/-- A descriptor is among the open ones exactly if the table says so. -/
theorem mem_openFds : fd ∈ openFds d ↔ d.isOpen fd = true := Iff.rfl

/-- The descriptors a pair closes when it is destroyed. -/
def pairFds (h : ProxyHandler) : List Fd := h.client :: (backendFd h).toList

/-- What the kernel may give out. -/
structure UnusedFd (d : Descriptors) (fd : Fd) : Prop where
  nonneg : 0 ≤ fd
  closed : fd ∉ openFds d

/-! ## Opening and closing -/

/-- Descriptors were opened, and the epoll instance watches them. -/
structure Opened (d : Descriptors) (fds : List Fd) (d' : Descriptors) : Prop where
  table : openFds d' = openFds d ∪ {fd | fd ∈ fds}
  watched : ∀ fd ∈ fds, d'.epoll fd = some .events
  frame : ∀ fd ∉ fds, d'.epoll fd = d.epoll fd

/-- Descriptors were closed. -/
structure Closed (d : Descriptors) (fds : List Fd) (d' : Descriptors) : Prop where
  table : openFds d' = openFds d \ {fd | fd ∈ fds}
  frame : ∀ fd ∉ fds, d'.epoll fd = d.epoll fd

/-- Nothing is opened by doing nothing. -/
theorem Opened.refl (d : Descriptors) : Opened d [] d := ⟨by simp, by simp, fun _ _ => rfl⟩

/-- What is opened twice is opened together. -/
theorem Opened.trans (h : Opened d fds d₁) (h' : Opened d₁ fds' d₂) :
    Opened d (fds ++ fds') d₂ := by
  refine ⟨?_, fun fd hfd => ?_, fun fd hfd => ?_⟩
  · rw [h'.table, h.table, Set.union_assoc]
    congr 1
    ext fd
    simp
  · by_cases hfd' : fd ∈ fds'
    · exact h'.watched fd hfd'
    · rw [h'.frame fd hfd']
      exact h.watched fd ((List.mem_append.mp hfd).resolve_right hfd')
  · obtain ⟨hfirst, hsecond⟩ := not_or.mp (List.mem_append.not.mp hfd)
    rw [h'.frame fd hsecond, h.frame fd hfirst]

/-- What is closed twice is closed together. -/
theorem Closed.trans (h : Closed d fds d₁) (h' : Closed d₁ fds' d₂) :
    Closed d (fds ++ fds') d₂ := by
  refine ⟨?_, fun fd hfd => ?_⟩
  · rw [h'.table, h.table, Set.sdiff_sdiff]
    congr 1
    ext fd
    simp
  · obtain ⟨hfirst, hsecond⟩ := not_or.mp (List.mem_append.not.mp hfd)
    rw [h'.frame fd hsecond, h.frame fd hfirst]

/-- A closed descriptor is not watched. -/
theorem epoll_none (hfd : fd ∉ openFds d) : d.epoll fd = none :=
  d.closed fd (Bool.eq_false_iff.mpr hfd)

/-- A descriptor that is given out is open from then on. -/
theorem give_table (d : Descriptors) {fd : Fd} (hfd : 0 ≤ fd) :
    openFds (d.give fd) = openFds d ∪ {fd} := by
  ext fd'
  by_cases heq : fd' = fd
  · simp [openFds, Descriptors.give, heq, hfd]
  · simp [openFds, Descriptors.give, heq]

/-- A negative number is not open, so closing it does nothing. -/
theorem close_negative (d : Descriptors) {fd : Fd} (hfd : fd < 0) : d.close fd = .ok d := by
  have hclosed : ¬ d.isOpen fd = true := fun hopen => absurd (d.nonneg fd hopen) (not_le.mpr hfd)
  unfold Descriptors.close
  rw [if_neg hclosed, if_pos hfd]

/-- Closing an open descriptor closes it and no other one. -/
theorem close_spec (hfd : fd ∈ openFds d) : ∃ d', d.close fd = .ok d' ∧ Closed d [fd] d' := by
  unfold Descriptors.close
  rw [if_pos (mem_openFds.mp hfd)]
  refine ⟨_, rfl, ?_, fun fd' hfd' => Function.update_of_ne (by simpa using hfd') _ _⟩
  ext fd'
  by_cases hfd' : fd' = fd <;> simp [openFds, hfd']

/-- Behind a descriptor that was given out and closed again everything is as it was. -/
theorem Closed.given (h : Closed d₁ [fd] d₂) (hfd : UnusedFd d fd)
    (htable : openFds d₁ = openFds d ∪ {fd}) (hframe : ∀ fd' ≠ fd, d₁.epoll fd' = d.epoll fd') :
    Opened d [] d₂ := by
  refine ⟨?_, by simp, fun fd' _ => ?_⟩
  · rw [h.table, htable]
    ext fd'
    by_cases hfd' : fd' = fd
    · simpa [hfd'] using hfd.closed
    · simp [hfd']
  · by_cases hfd' : fd' = fd
    · have hclosed : fd ∉ openFds d₂ := by simp [h.table]
      rw [hfd', epoll_none hclosed, epoll_none hfd.closed]
    · rw [h.frame fd' (by simpa using hfd'), hframe fd' hfd']

/-- Adding a descriptor that was given opens it watched, or fails. -/
theorem addEpollFd_spec (d : Descriptors) {fd : Fd} (hfd : 0 ≤ fd) (added : Bool) :
    EndsIn (· = .runtimeError) (Opened d [fd]) ((d.give fd).addEpollFd fd added) := by
  unfold Descriptors.addEpollFd
  split
  · refine ⟨?_, ?_, fun fd' hfd' => Function.update_of_ne (by simpa using hfd') _ _⟩
    · show openFds (d.give fd) = _
      rw [give_table d hfd]
      ext fd'
      simp
    · rintro fd' hfd'
      obtain rfl := List.mem_singleton.mp hfd'
      exact Function.update_self _ _ _
  · rfl

/-- A pair that is destroyed closes what it has open. -/
theorem destroy_spec {h : ProxyHandler} (hopen : ∀ fd ∈ pairFds h, fd ∈ openFds d)
    (hnodup : (pairFds h).Nodup) : ∃ d', d.destroy h = .ok d' ∧ Closed d (pairFds h) d' := by
  have hclient : h.client ∈ openFds d := hopen _ (by simp [pairFds])
  cases hbackend : h.backend with
  | normal fd =>
    have hfds : pairFds h = [h.client, fd] := by simp [pairFds, backendFd, hbackend]
    rw [hfds] at hopen hnodup ⊢
    obtain ⟨d₁, hfirst, hclosed₁⟩ := close_spec (hopen fd (by simp))
    have hstill : h.client ∈ openFds d₁ := by
      rw [hclosed₁.table]
      refine ⟨hclient, ?_⟩
      simpa using hnodup
    obtain ⟨d₂, hsecond, hclosed₂⟩ := close_spec hstill
    refine ⟨d₂, ?_, ?_⟩
    · unfold Descriptors.destroy
      rw [hbackend]
      exact bind_eq_ok_iff.mpr ⟨d₁, hfirst, hsecond⟩
    · have hboth := hclosed₁.trans hclosed₂
      refine ⟨?_, fun fd' hfd' => hboth.frame fd' (by simpa [and_comm] using hfd')⟩
      rw [hboth.table]
      ext fd'
      simp [or_comm]
  | failed | staticFile =>
    have hfds : pairFds h = [h.client] := by simp [pairFds, backendFd, hbackend]
    obtain ⟨d₁, hclose, hclosed⟩ := close_spec hclient
    refine ⟨d₁, ?_, hfds ▸ hclosed⟩
    unfold Descriptors.destroy
    rw [hbackend]
    exact hclose

/-- A descriptor that is handed to the worker is the one the kernel gave, and is watched; one that
is not is closed. -/
def Obtained (d : Descriptors) (given : Option Fd) (out : Option Fd × Descriptors) : Prop :=
  Opened d out.1.toList out.2 ∧ ∀ fd, out.1 = some fd → given = some fd

/-- An accept hands over what the kernel gave, or closes it, or fails. -/
theorem accept_spec (isSsl : Bool) {io : AcceptAnswer}
    (hunused : ∀ fd, io.fd = some fd → UnusedFd d fd) :
    EndsIn (· = .runtimeError) (Obtained d io.fd) (d.accept isSsl io) := by
  unfold Descriptors.accept
  cases hfd : io.fd with
  | none => exact ⟨Opened.refl d, fun _ h => h⟩
  | some fd =>
    apply (addEpollFd_spec d (hunused fd hfd).nonneg io.added).bind
    intro d₁ hopened
    split
    · have hopen : fd ∈ openFds d₁ := by simp [hopened.table]
      obtain ⟨d₂, hclose, hclosed⟩ := close_spec hopen
      rw [hclose]
      refine ⟨hclosed.given (hunused fd hfd) ?_ fun fd' hfd' => ?_, by rintro fd' ⟨⟩⟩
      · rw [hopened.table]
        ext fd'
        simp
      · exact hopened.frame fd' (by simpa using hfd')
    · exact ⟨hopened, fun _ h => h⟩

/-- A connect hands over what the kernel gave, or closes it, or fails. -/
theorem connect_spec {io : ConnectAnswer} (hunused : ∀ fd, io.fd = some fd → UnusedFd d fd) :
    EndsIn (· = .runtimeError) (Obtained d io.fd) (d.connect io) := by
  cases io with
  | noSocket =>
    have hminus := close_negative d (show (-1 : Fd) < 0 by decide)
    simp only [Descriptors.connect, hminus, bind, Except.bind, pure, Except.pure]
    exact ⟨Opened.refl d, fun _ h => h⟩
  | refused fd =>
    have htable := give_table d (hunused fd rfl).nonneg
    have hopen : fd ∈ openFds (d.give fd) := by simp [htable]
    obtain ⟨d₂, hclose, hclosed⟩ := close_spec hopen
    simp only [Descriptors.connect, hclose]
    exact ⟨hclosed.given (hunused fd rfl) htable fun _ _ => rfl, by rintro fd' ⟨⟩⟩
  | connected fd added =>
    exact (addEpollFd_spec d (hunused fd rfl).nonneg added).bind
      fun d₁ hopened => ⟨hopened, fun _ h => h⟩

/-! ## What the kernel promises -/

variable {inherited : Set Fd} {s s' : WorkerProcess}

/-- New descriptors are not open, and a new object is not allocated over a live one. -/
structure LegalArrival (s : WorkerProcess) (a : Arrival) : Prop where
  client : ∀ fd, a.client.fd = some fd → UnusedFd s.descriptors fd
  addr : s.worker.heap a.addr = none
  backend : ∀ fd, a.client.fd = some fd → ∀ b, a.backend.fd = some b →
    UnusedFd (s.descriptors.give fd) b

/-- A batch has at most one event of each descriptor, and of watched ones only; a paused listening
socket has none. -/
structure LegalBatch (d : Descriptors) (events : List ProcessEvent) : Prop where
  nodup : (events.map (·.fd)).Nodup
  watched : ∀ ev ∈ events, d.epoll ev.fd = some .events

/-- The kernel keeps to its contract in the step. -/
def LegalProcess (s : WorkerProcess) : ProcessInput → Prop
  | .hangUp => True
  | .wait _ events => LegalBatch s.descriptors events
  | .event => ∀ ev, s.batch.head? = some ev → ev.fd = s.worker.listenFd →
      LegalArrival s ev.arrival

/-! ## The invariant -/

/-- The descriptors that belong to no pair. -/
def base (inherited : Set Fd) (s : WorkerProcess) : Set Fd :=
  inherited ∪ {s.worker.listenFd, s.epollFd}

/-- The two descriptors of the listening handler. -/
structure ListenerInv (inherited : Set Fd) (s : WorkerProcess) : Prop where
  listenFd : 0 ≤ s.worker.listenFd ∧ s.worker.listenFd ∉ inherited
  epollFd : 0 ≤ s.epollFd ∧ s.epollFd ∉ inherited
  ne : s.worker.listenFd ≠ s.epollFd

/-- **The account of a worker's process**: what is open is what it inherited, its own two
descriptors and those of its live pairs, and what is open of these is watched. -/
structure ProcessInv (inherited : Set Fd) (s : WorkerProcess) : Prop where
  listener : ListenerInv inherited s
  owners : Owns s.worker
  accounts : Accounts pairFds (base inherited s) s.worker.heap (openFds s.descriptors)
  /-- The entry of a live pair's backend leads to the pair. -/
  routed : ∀ p h fd, s.worker.heap p = some h → backendFd h = some fd →
    s.worker.backendToClient fd = some p
  watched : ∀ fd ∈ owned pairFds s.worker.heap, s.descriptors.epoll fd = some .events
  registered : ∀ fd, s.descriptors.epoll fd ≠ none →
    fd = s.worker.listenFd ∨ fd ∈ owned pairFds s.worker.heap
  nodup : (s.batch.map (·.fd)).Nodup
  /-- The other events of the batch were those of pairs. -/
  batch : ∀ ev ∈ s.batch, ev.fd ∈ base inherited s →
    ev.fd = s.worker.listenFd ∧ s.descriptors.epoll ev.fd = some .events

/-- A pair is destroyed, and its descriptors are closed. -/
structure Removes (s : WorkerProcess) (p : Addr) (h : ProxyHandler) (w : Worker)
    (d : Descriptors) : Prop where
  live : s.worker.heap p = some h
  closed : Closed s.descriptors (pairFds h) d
  heap : w.heap = Function.update s.worker.heap p none
  owners : Owns w
  borrowers : ∀ fd q, s.worker.backendToClient fd = some q → q ≠ p →
    w.backendToClient fd = some q
  listenFd : w.listenFd = s.worker.listenFd

/-- A pair is stored with the descriptors that were opened for it. -/
structure Adds (s : WorkerProcess) (p : Addr) (h : ProxyHandler) (w : Worker)
    (d : Descriptors) : Prop where
  free : s.worker.heap p = none
  unused : ∀ fd ∈ pairFds h, fd ∉ openFds s.descriptors
  nodup : (pairFds h).Nodup
  opened : Opened s.descriptors (pairFds h) d
  heap : w.heap = Function.update s.worker.heap p (some h)
  owners : Owns w
  borrowers : ∀ fd, w.backendToClient fd =
    if backendFd h = some fd then some p else s.worker.backendToClient fd
  listenFd : w.listenFd = s.worker.listenFd

/-- An open descriptor outside of the base is one of a live pair. -/
theorem ProcessInv.owner (h : ProcessInv inherited s) (hopen : fd ∈ openFds s.descriptors)
    (hbase : fd ∉ base inherited s) : fd ∈ owned pairFds s.worker.heap := by
  rw [h.accounts.table] at hopen
  exact hopen.resolve_left hbase

/-- The listening socket is open. -/
theorem ProcessInv.listenFd_open (h : ProcessInv inherited s) :
    s.worker.listenFd ∈ openFds s.descriptors := by
  rw [h.accounts.table]
  exact .inl (.inr (.inl rfl))

/-- The listening socket belongs to no pair. -/
theorem listenFd_mem_base (inherited : Set Fd) (s : WorkerProcess) :
    s.worker.listenFd ∈ base inherited s := .inr (.inl rfl)

/-- Removing a pair with its descriptors keeps the account. -/
theorem ProcessInv.removes (hinv : ProcessInv inherited s) {p : Addr} {h : ProxyHandler}
    {w : Worker} {d : Descriptors} (hr : Removes s p h w d) :
    ProcessInv inherited { s with worker := w, descriptors := d } := by
  have hbase : base inherited { s with worker := w, descriptors := d } = base inherited s := by
    simp [base, hr.listenFd]
  have haccounts := hinv.accounts.remove hr.live
  have howned := hinv.accounts.owned_remove hr.live
  have hkept (fd : Fd) (hfd : fd ∈ base inherited s) :
      d.epoll fd = s.descriptors.epoll fd := by
    apply hr.closed.frame
    exact fun hmem => hinv.accounts.apart fd ⟨p, h, hr.live, hmem⟩ hfd
  refine ⟨?_, hr.owners, ?_, ?_, ?_, ?_, hinv.nodup, ?_⟩
  · exact ⟨hr.listenFd ▸ hinv.listener.listenFd, hinv.listener.epollFd,
      hr.listenFd ▸ hinv.listener.ne⟩
  · rw [hbase]
    show Accounts pairFds _ w.heap (openFds d)
    rwa [hr.heap, hr.closed.table]
  · intro q hq fd hlive hbackend
    have hlive : w.heap q = some hq := hlive
    rw [hr.heap] at hlive
    have hne : q ≠ p := by
      rintro rfl
      rw [Function.update_self] at hlive
      cases hlive
    rw [Function.update_of_ne hne] at hlive
    exact hr.borrowers fd q (hinv.routed q hq fd hlive hbackend) hne
  · intro fd hfd
    have hfd : fd ∈ owned pairFds w.heap := hfd
    rw [hr.heap, howned] at hfd
    show d.epoll fd = _
    rw [hr.closed.frame fd hfd.2]
    exact hinv.watched fd hfd.1
  · intro fd hfd
    have hfd : d.epoll fd ≠ none := hfd
    have hopen : fd ∈ openFds d := by
      by_contra hclosed
      exact hfd (epoll_none hclosed)
    rw [hr.closed.table] at hopen
    rw [hr.closed.frame fd hopen.2] at hfd
    show fd = w.listenFd ∨ fd ∈ owned pairFds w.heap
    rw [hr.listenFd, hr.heap, howned]
    exact (hinv.registered fd hfd).imp_right fun hmem => ⟨hmem, hopen.2⟩
  · intro ev hev hfd
    rw [hbase] at hfd
    obtain ⟨hlisten, hevents⟩ := hinv.batch ev hev hfd
    exact ⟨hlisten.trans hr.listenFd.symm, (hkept _ hfd).trans hevents⟩

/-- Adding a pair with its descriptors keeps the account. -/
theorem ProcessInv.adds (hinv : ProcessInv inherited s) {p : Addr} {h : ProxyHandler} {w : Worker}
    {d : Descriptors} (ha : Adds s p h w d) :
    ProcessInv inherited { s with worker := w, descriptors := d } := by
  have hbase : base inherited { s with worker := w, descriptors := d } = base inherited s := by
    simp [base, ha.listenFd]
  have haccounts := hinv.accounts.insert ha.free ha.nodup ha.unused
  have howned : owned pairFds (Function.update s.worker.heap p (some h)) =
      owned pairFds s.worker.heap ∪ {fd | fd ∈ pairFds h} := owned_insert ha.free h
  have hkept (fd : Fd) (hfd : fd ∈ openFds s.descriptors) :
      d.epoll fd = s.descriptors.epoll fd :=
    ha.opened.frame fd fun hmem => ha.unused fd hmem hfd
  have hopen (fd : Fd) (hfd : fd ∈ owned pairFds s.worker.heap) : fd ∈ openFds s.descriptors := by
    rw [hinv.accounts.table]
    exact .inr hfd
  refine ⟨?_, ha.owners, ?_, ?_, ?_, ?_, hinv.nodup, ?_⟩
  · exact ⟨ha.listenFd ▸ hinv.listener.listenFd, hinv.listener.epollFd,
      ha.listenFd ▸ hinv.listener.ne⟩
  · rw [hbase]
    show Accounts pairFds _ w.heap (openFds d)
    rwa [ha.heap, ha.opened.table]
  · intro q hq fd hlive hbackend
    have hlive : w.heap q = some hq := hlive
    show w.backendToClient fd = some q
    rw [ha.heap] at hlive
    rw [ha.borrowers]
    by_cases hqp : q = p
    · rw [hqp, Function.update_self] at hlive
      cases hlive
      rw [if_pos hbackend, hqp]
    · rw [Function.update_of_ne hqp] at hlive
      have hmem : fd ∈ pairFds hq := by simp [pairFds, hbackend]
      rw [if_neg, hinv.routed q hq fd hlive hbackend]
      -- the descriptor is that of a live pair, so it was not given out
      intro hnew
      exact ha.unused fd (by simp [pairFds, hnew]) (hopen fd ⟨q, hq, hlive, hmem⟩)
  · intro fd hfd
    have hfd : fd ∈ owned pairFds w.heap := hfd
    rw [ha.heap, howned] at hfd
    show d.epoll fd = _
    rcases hfd with hold | hnew
    · rw [hkept fd (hopen fd hold)]
      exact hinv.watched fd hold
    · exact ha.opened.watched fd hnew
  · intro fd hfd
    have hfd : d.epoll fd ≠ none := hfd
    show fd = w.listenFd ∨ fd ∈ owned pairFds w.heap
    rw [ha.listenFd, ha.heap, howned]
    by_cases hnew : fd ∈ pairFds h
    · exact .inr (.inr hnew)
    · rw [ha.opened.frame fd hnew] at hfd
      exact (hinv.registered fd hfd).imp_right .inl
  · intro ev hev hfd
    rw [hbase] at hfd
    obtain ⟨hlisten, hevents⟩ := hinv.batch ev hev hfd
    refine ⟨hlisten.trans ha.listenFd.symm, (hkept _ ?_).trans hevents⟩
    rw [hlisten]
    exact hinv.listenFd_open

/-- Pausing closes nothing. -/
theorem pause_table (d : Descriptors) (fd : Fd) : openFds (d.pause fd) = openFds d := by
  unfold Descriptors.pause
  split <;> rfl

/-- The paused descriptor is registered without events. -/
theorem pause_epoll (hfd : fd ∈ openFds d) :
    (d.pause fd).epoll = Function.update d.epoll fd (some .nothing) := by
  unfold Descriptors.pause
  rw [dif_pos (mem_openFds.mp hfd)]
  rfl

/-- Nothing was opened for good. -/
theorem ProcessInv.unchanged (hinv : ProcessInv inherited s) (h : Opened s.descriptors [] d) :
    ProcessInv inherited { s with descriptors := d } := by
  have htable : openFds d = openFds s.descriptors := by simp [h.table]
  have hepoll (fd : Fd) : d.epoll fd = s.descriptors.epoll fd := h.frame fd (by simp)
  refine ⟨⟨hinv.listener.listenFd, hinv.listener.epollFd, hinv.listener.ne⟩, hinv.owners, ?_,
    hinv.routed, ?_, ?_, hinv.nodup, ?_⟩
  · show Accounts pairFds (base inherited s) _ (openFds d)
    rw [htable]
    exact hinv.accounts
  · exact fun fd hfd => (hepoll fd).trans (hinv.watched fd hfd)
  · intro fd hfd
    have hfd : d.epoll fd ≠ none := hfd
    rw [hepoll] at hfd
    exact hinv.registered fd hfd
  · intro ev hev hfd
    obtain ⟨hlisten, hevents⟩ := hinv.batch ev hev hfd
    exact ⟨hlisten, (hepoll _).trans hevents⟩

/-- Pausing the listening socket keeps the account, if the batch has no event of it any more. -/
theorem ProcessInv.pauses (hinv : ProcessInv inherited s)
    (hbatch : ∀ ev ∈ s.batch, ev.fd ≠ s.worker.listenFd) :
    ProcessInv inherited { s with descriptors := s.descriptors.pause s.worker.listenFd } := by
  have hepoll := pause_epoll hinv.listenFd_open
  have hother (fd : Fd) (hfd : fd ≠ s.worker.listenFd) :
      (s.descriptors.pause s.worker.listenFd).epoll fd = s.descriptors.epoll fd := by
    rw [hepoll, Function.update_of_ne hfd]
  refine ⟨⟨hinv.listener.listenFd, hinv.listener.epollFd, hinv.listener.ne⟩, hinv.owners, ?_,
    hinv.routed, ?_, ?_, hinv.nodup, ?_⟩
  · show Accounts pairFds (base inherited s) _ (openFds (s.descriptors.pause s.worker.listenFd))
    rw [pause_table]
    exact hinv.accounts
  · intro fd hfd
    have hne : fd ≠ s.worker.listenFd := by
      rintro rfl
      exact hinv.accounts.apart _ hfd (listenFd_mem_base inherited s)
    exact (hother fd hne).trans (hinv.watched fd hfd)
  · intro fd hfd
    by_cases hne : fd = s.worker.listenFd
    · exact .inl hne
    · have hfd : (s.descriptors.pause s.worker.listenFd).epoll fd ≠ none := hfd
      rw [hother fd hne] at hfd
      exact hinv.registered fd hfd
  · intro ev hev hfd
    exact absurd (hinv.batch ev hev hfd).1 (hbatch ev hev)

/-! ## Disconnecting -/

/-- The descriptor has an entry that leads to a destroyed pair. -/
def Dangling (w : Worker) (fd : Fd) : Prop :=
  ∃ p, (w.clientToBackend fd).or (w.backendToClient fd) = some p ∧ w.heap p = none

/-- At most one pair is destroyed, with its descriptors. -/
inductive Disconnected (s : WorkerProcess) : WorkerProcess → Prop
  | nothing : Disconnected s s
  | pair {p : Addr} {h : ProxyHandler} {w : Worker} {d : Descriptors} (hr : Removes s p h w d) :
      Disconnected s { s with worker := w, descriptors := d }

/-- Erasing a client removes its pair. -/
theorem eraseClient_some {w : Worker} {p : Addr} (h : w.clientToBackend fd = some p) :
    w.eraseClient fd = { w with
      clientToBackend := Function.update w.clientToBackend fd none
      heap := Function.update w.heap p none } := by
  unfold Worker.eraseClient
  rw [h]

/-- Erasing a descriptor without pair changes nothing. -/
theorem eraseClient_none (hfd : s.worker.clientToBackend fd = none) :
    s.eraseClient fd = .ok s := by
  simp [WorkerProcess.eraseClient, Worker.eraseClient, hfd]

/-- Erasing a client closes the descriptors of its pair. -/
theorem eraseClient_live {p : Addr} {h : ProxyHandler}
    (howner : s.worker.clientToBackend fd = some p) (hlive : s.worker.heap p = some h)
    (hopen : ∀ fd ∈ pairFds h, fd ∈ openFds s.descriptors) (hnodup : (pairFds h).Nodup) :
    ∃ d, Closed s.descriptors (pairFds h) d ∧ s.eraseClient fd =
      .ok { s with worker := s.worker.eraseClient fd, descriptors := d } := by
  obtain ⟨d, hdestroy, hclosed⟩ := destroy_spec hopen hnodup
  refine ⟨d, hclosed, ?_⟩
  unfold WorkerProcess.eraseClient
  simp only [howner, Option.bind_some, hlive, hdestroy]
  rfl

/-- The descriptors of a live pair are open. -/
theorem ProcessInv.pair_open (hinv : ProcessInv inherited s) {p : Addr} {h : ProxyHandler}
    (hlive : s.worker.heap p = some h) : ∀ fd ∈ pairFds h, fd ∈ openFds s.descriptors :=
  fun _ hfd => hinv.accounts.mem_of_owned hlive hfd

/-- A disconnect removes at most one pair, or is dispatched to a destroyed one. -/
theorem disconnect_spec (hinv : ProcessInv inherited s) (fd : Fd) :
    EndsIn (fun e => e = .destroyed ∧ Dangling s.worker fd) (Disconnected s) (s.disconnect fd) := by
  unfold WorkerProcess.disconnect
  cases hclient : s.worker.clientToBackend fd with
  | some p =>
    obtain ⟨h, hlive, -⟩ := (hinv.owners fd p).mp hclient
    obtain ⟨d, hclosed, herase⟩ := eraseClient_live hclient hlive (hinv.pair_open hlive)
      (hinv.accounts.nodup p h hlive)
    rw [if_pos (by simp), herase]
    refine .pair ⟨hlive, hclosed, ?_, hinv.owners.erase fd, fun fd' q hq _ => ?_,
      Worker.eraseClient_listenFd s.worker fd⟩
    · rw [eraseClient_some hclient]
    · rwa [eraseClient_some hclient]
  | none =>
    rw [if_neg (by simp)]
    cases hbackend : s.worker.backendToClient fd with
    | none => exact .nothing
    | some p =>
      cases hlive : s.worker.heap p with
      | none =>
        simp only [hlive]
        exact ⟨rfl, p, by simp [hclient, hbackend], hlive⟩
      | some h =>
        simp only [hlive]
        have howner : s.worker.clientToBackend h.client = some p :=
          (hinv.owners h.client p).mpr ⟨h, hlive, rfl⟩
        let w : Worker := { s.worker with
          backendToClient := Function.update s.worker.backendToClient fd none }
        have hw : Owns w := hinv.owners
        obtain ⟨d, hclosed, herase⟩ := eraseClient_live (s := { s with worker := w }) howner hlive
          (hinv.pair_open hlive) (hinv.accounts.nodup p h hlive)
        rw [herase]
        have howner' : w.clientToBackend h.client = some p := howner
        refine .pair (s := s) (p := p) (h := h) ⟨hlive, hclosed, ?_, hw.erase h.client,
          fun fd' q hq hne => ?_, Worker.eraseClient_listenFd w h.client⟩
        · rw [eraseClient_some howner']
        · have hfd' : fd' ≠ fd := by
            rintro rfl
            rw [hbackend] at hq
            exact hne (Option.some.inj hq).symm
          rw [eraseClient_some howner']
          exact (Function.update_of_ne hfd' _ _).trans hq

/-! ## Accepting -/

/-- The pair that `accept_new_conn` stores. -/
def newPair (w : Worker) (a : Accepted) : ProxyHandler := ⟨a.clientFd, w.newBackend a⟩

/-- No pair is stored, and the listening socket may be paused; or one is, with what was opened for
it. -/
inductive Arrived (s : WorkerProcess) : WorkerProcess → Prop
  | refused {d : Descriptors} (h : Opened s.descriptors [] d) :
      Arrived s { s with descriptors := d }
  | paused {d : Descriptors} (h : Opened s.descriptors [] d) :
      Arrived s { s with descriptors := d.pause s.worker.listenFd }
  | pair {a : Accepted} {d : Descriptors} (hfresh : FreshFor s.worker a)
      (ha : Adds s a.addr (newPair s.worker a) (s.worker.acceptNewConn (some a)) d) :
      Arrived s { s with worker := s.worker.acceptNewConn (some a), descriptors := d }

/-- What the worker knows as open is open. -/
theorem ProcessInv.isOpen (hinv : ProcessInv inherited s) (h : IsOpen s.worker fd) :
    fd ∈ openFds s.descriptors := by
  rcases h with rfl | ⟨p, h, hlive, hfd⟩
  · exact hinv.listenFd_open
  · apply hinv.pair_open hlive
    rcases hfd with rfl | hbackend
    · simp [pairFds]
    · simp [pairFds, backendFd, hbackend]

/-- What a backend is connected for is a connection of a balancer. -/
theorem backendFd_newPair {w : Worker} {a : Accepted}
    (hstatic : w.backendType = .static → a.backendFd = none) :
    backendFd (newPair w a) = a.backendFd := by
  cases hbackend : a.backendFd <;> cases htype : w.backendType <;>
    simp_all [newPair, backendFd, Worker.newBackend]

/-- What is not open is fresh. -/
theorem ProcessInv.freshFor (hinv : ProcessInv inherited s) {a : Accepted}
    (hclient : UnusedFd s.descriptors a.clientFd) (haddr : s.worker.heap a.addr = none)
    (hbackend : ∀ b, a.backendFd = some b → UnusedFd (s.descriptors.give a.clientFd) b) :
    FreshFor s.worker a := by
  refine ⟨fun h => hclient.closed (hinv.isOpen h), haddr, fun b hb => ?_⟩
  have hclosed := (hbackend b hb).closed
  rw [give_table _ hclient.nonneg] at hclosed
  obtain ⟨hold, hne⟩ := not_or.mp hclosed
  exact ⟨fun h => hold (hinv.isOpen h), hne⟩

/-- An accept adds the pair of the descriptors that were opened for it. -/
theorem ProcessInv.adds_newPair (hinv : ProcessInv inherited s) {a : Accepted} {d : Descriptors}
    (hclient : UnusedFd s.descriptors a.clientFd) (haddr : s.worker.heap a.addr = none)
    (hbackend : ∀ b, a.backendFd = some b → UnusedFd (s.descriptors.give a.clientFd) b)
    (hstatic : s.worker.backendType = .static → a.backendFd = none)
    (hopened : Opened s.descriptors (a.clientFd :: a.backendFd.toList) d) :
    Adds s a.addr (newPair s.worker a) (s.worker.acceptNewConn (some a)) d := by
  have hclosed : ¬ IsOpen s.worker a.clientFd := fun h => hclient.closed (hinv.isOpen h)
  have hfds : pairFds (newPair s.worker a) = a.clientFd :: a.backendFd.toList := by
    unfold pairFds
    rw [backendFd_newPair hstatic]
    rfl
  have hfresh (b : Fd) (hb : a.backendFd = some b) :
      b ∉ openFds s.descriptors ∧ b ≠ a.clientFd := by
    have hb := (hbackend b hb).closed
    rw [give_table _ hclient.nonneg] at hb
    exact not_or.mp hb
  refine ⟨haddr, ?_, ?_, hfds ▸ hopened, hinv.owners.accept_heap hclosed,
    hinv.owners.accept hclosed haddr, fun fd => ?_, ?_⟩
  · rw [hfds]
    intro fd hfd
    rcases List.mem_cons.mp hfd with rfl | hfd
    · exact hclient.closed
    · exact (hfresh fd (by simpa using hfd)).1
  · rw [hfds]
    cases hb : a.backendFd with
    | none => simp
    | some b => simpa using (hfresh b hb).2.symm
  · unfold Worker.acceptNewConn
    dsimp only
    rw [hinv.owners.eraseClient_eq hclosed]
    cases hnew : s.worker.newBackend a with
    | normal b =>
      have hb : backendFd (newPair s.worker a) = some b := by simp [newPair, backendFd, hnew]
      rw [hb]
      by_cases hfd : fd = b
      · simp [hfd]
      · simp [hfd, Ne.symm hfd]
    | failed | staticFile =>
      have hb : backendFd (newPair s.worker a) = none := by simp [newPair, backendFd, hnew]
      rw [hb]
      simp
  · exact Worker.eraseClient_listenFd s.worker a.clientFd

/-- A connection to a backend hands over what the kernel gave, or closes it, or fails. -/
theorem newBackendFd_spec {a : Arrival} (hunused : ∀ b, a.backend.fd = some b → UnusedFd d b) :
    EndsIn (· = .runtimeError) (Obtained d a.backend.fd) (WorkerProcess.newBackendFd a d) := by
  unfold WorkerProcess.newBackendFd
  split
  · exact connect_spec hunused
  · exact ⟨Opened.refl d, by rintro fd ⟨⟩⟩

/-- An accept stores a pair with what was opened for it, or nothing, or fails. -/
theorem acceptNewConn_spec (hinv : ProcessInv inherited s) {a : Arrival}
    (hlegal : LegalArrival s a) :
    EndsIn (· = .runtimeError) (Arrived s) (s.acceptNewConn a) := by
  apply (accept_spec s.isSsl hlegal.client).bind
  rintro ⟨client, d₁⟩ ⟨hopened, hgiven⟩
  cases client with
  | none =>
    dsimp only
    split
    · exact .paused hopened
    · exact .refused hopened
  | some fd =>
    have hfd := hgiven fd rfl
    have hunused := hlegal.client fd hfd
    have hclosed : ¬ IsOpen s.worker fd := fun h => hunused.closed (hinv.isOpen h)
    have herase : WorkerProcess.eraseClient { s with descriptors := d₁ } fd =
        .ok { s with descriptors := d₁ } :=
      eraseClient_none (hinv.owners.clientToBackend_none hclosed)
    dsimp only
    rw [herase]
    cases htype : s.worker.backendType with
    | loadBalancer =>
      have hbackend (b : Fd) (hb : a.backend.fd = some b) : UnusedFd d₁ b := by
        have hb := hlegal.backend fd hfd b hb
        refine ⟨hb.nonneg, ?_⟩
        have hclosed := hb.closed
        rw [give_table _ hunused.nonneg] at hclosed
        simpa [hopened.table] using hclosed
      simp only [bind, Except.bind, htype]
      apply (newBackendFd_spec hbackend).bind
      rintro ⟨backend, d₂⟩ ⟨hopened₂, hgiven₂⟩
      have hbackend₂ (b : Fd) (hb : backend = some b) : UnusedFd (s.descriptors.give fd) b :=
        hlegal.backend fd hfd b (hgiven₂ b hb)
      exact .pair (hinv.freshFor (a := ⟨fd, a.addr, backend⟩) hunused hlegal.addr hbackend₂)
        (hinv.adds_newPair hunused hlegal.addr hbackend₂ (by simp [htype])
          (hopened.trans hopened₂))
    | static =>
      simp only [bind, Except.bind, htype]
      have hnone (b : Fd) (hb : none = some b) : UnusedFd (s.descriptors.give fd) b := by cases hb
      exact .pair (hinv.freshFor (a := ⟨fd, a.addr, none⟩) hunused hlegal.addr hnone)
        (hinv.adds_newPair hunused hlegal.addr hnone (fun _ => rfl) hopened)

/-! ## Steps -/

/-- A disconnect keeps the account. -/
theorem ProcessInv.disconnected (hinv : ProcessInv inherited s) (h : Disconnected s s') :
    ProcessInv inherited s' := by
  cases h with
  | nothing => exact hinv
  | pair hr => exact hinv.removes hr

/-- An accept keeps the account. -/
theorem ProcessInv.arrived (hinv : ProcessInv inherited s) (h : Arrived s s')
    (hbatch : ∀ ev ∈ s.batch, ev.fd ≠ s.worker.listenFd) : ProcessInv inherited s' := by
  cases h with
  | refused h => exact hinv.unchanged h
  | paused h => exact (hinv.unchanged h).pauses hbatch
  | pair _ ha => exact hinv.adds ha

/-- The batch and the flag are of no account. -/
theorem ProcessInv.withBatch (hinv : ProcessInv inherited s) (needExit : Bool)
    {events : List ProcessEvent} (hnodup : (events.map (·.fd)).Nodup)
    (hbatch : ∀ ev ∈ events, ev.fd ∈ base inherited s →
      ev.fd = s.worker.listenFd ∧ s.descriptors.epoll ev.fd = some .events) :
    ProcessInv inherited { s with needExit, batch := events } :=
  ⟨⟨hinv.listener.listenFd, hinv.listener.epollFd, hinv.listener.ne⟩, hinv.owners, hinv.accounts,
    hinv.routed, hinv.watched, hinv.registered, hnodup, hbatch⟩

/-- The next event is taken from the batch. -/
theorem ProcessInv.pop (hinv : ProcessInv inherited s) {ev : ProcessEvent}
    {events : List ProcessEvent} (hbatch : s.batch = ev :: events) :
    ProcessInv inherited { s with batch := events } ∧ ∀ ev' ∈ events, ev'.fd ≠ ev.fd := by
  have hnodup := hinv.nodup
  rw [hbatch, List.map_cons, List.nodup_cons] at hnodup
  refine ⟨hinv.withBatch s.needExit hnodup.2 fun ev' hev' => ?_, fun ev' hev' heq => hnodup.1 ?_⟩
  · exact hinv.batch ev' (by simp [hbatch, hev'])
  · exact heq ▸ List.mem_map_of_mem hev'

/-- What a round may fail with: there is nothing to do, a descriptor cannot be added, or the event
is dispatched to a destroyed pair. -/
def Excused (s : WorkerProcess) : DescriptorFault → Prop
  | .notWaiting | .runtimeError => True
  | .destroyed => ∃ ev, s.batch.head? = some ev ∧ ev.fd ≠ s.worker.listenFd ∧
      Dangling s.worker ev.fd
  | .badDescriptor => False

/-- A dispatch fails only at a destroyed pair. -/
theorem dispatch_spec (w : Worker) (fd : Fd) (result : Bool) :
    EndsIn (fun e => e = .destroyed ∧ Dangling w fd) (fun _ => True)
      (WorkerProcess.lift (w.dispatch fd result)) := by
  unfold Worker.dispatch
  cases hentry : (w.clientToBackend fd).or (w.backendToClient fd) with
  | none => trivial
  | some p =>
    cases hlive : w.heap p with
    | none =>
      simp only [hlive]
      exact ⟨rfl, p, hentry, hlive⟩
    | some h =>
      simp only [hlive]
      trivial

/-- One round of the loop of `process_events`. -/
theorem processEvent_spec (hinv : ProcessInv inherited s) {ev : ProcessEvent}
    {events : List ProcessEvent} (hbatch : s.batch = ev :: events)
    (hlegal : LegalProcess s .event) :
    EndsIn (Excused s)
      (fun s' => if ev.fd = s.worker.listenFd then Arrived { s with batch := events } s'
        else Disconnected { s with batch := events } s') s.processEvent := by
  obtain ⟨hpop, -⟩ := hinv.pop hbatch
  have hhead : s.batch.head? = some ev := by rw [hbatch]; rfl
  unfold WorkerProcess.processEvent
  rw [hbatch]
  dsimp only
  by_cases hfd : ev.fd = s.worker.listenFd
  · rw [if_pos hfd]
    obtain ⟨hclient, haddr, hbackend⟩ := hlegal ev hhead hfd
    apply (acceptNewConn_spec hpop ⟨hclient, haddr, hbackend⟩).mono
    · rintro e rfl
      trivial
    · intro s' h
      rwa [if_pos hfd]
  · have hexcuse (e : DescriptorFault) (he : e = .destroyed ∧ Dangling s.worker ev.fd) :
        Excused s e := by
      obtain ⟨rfl, hdangling⟩ := he
      exact ⟨ev, hhead, hfd, hdangling⟩
    have hdisconnect := (disconnect_spec hpop ev.fd).mono hexcuse (fun _ h => h)
    have hdispatch := (dispatch_spec s.worker ev.fd ev.result).mono hexcuse (fun _ h => h)
    simp only [if_neg hfd]
    split
    · refine hdispatch.bind fun result _ => ?_
      split
      · exact hdisconnect
      · exact .nothing
    · split
      · refine hdispatch.bind fun result _ => ?_
        split
        · exact hdisconnect
        · exact .nothing
      · exact .nothing

/-- Whatever happens keeps the account, and fails for no other reason than `Excused` gives. -/
theorem processStep_spec (hinv : ProcessInv inherited s) {input : ProcessInput}
    (hlegal : LegalProcess s input) :
    EndsIn (Excused s) (ProcessInv inherited) (processStep s input) := by
  cases input with
  | hangUp => exact hinv.withBatch true hinv.nodup hinv.batch
  | wait client events =>
    show EndsIn _ _ (s.wait client events)
    unfold WorkerProcess.wait
    split
    · refine hinv.withBatch s.needExit hlegal.nodup fun ev hev hfd => ?_
      have hevents := hlegal.watched ev hev
      refine ⟨?_, hevents⟩
      refine (hinv.registered ev.fd (by rw [hevents]; simp)).resolve_right fun howned => ?_
      exact hinv.accounts.apart ev.fd howned hfd
    · trivial
  | event =>
    cases hbatch : s.batch with
    | nil =>
      simp only [processStep, WorkerProcess.processEvent, hbatch]
      trivial
    | cons ev events =>
      obtain ⟨hpop, hothers⟩ := hinv.pop hbatch
      apply (processEvent_spec hinv hbatch hlegal).mono (fun _ h => h)
      intro s' h
      split at h
      · rename_i hfd
        exact hpop.arrived h fun ev' hev' => hfd ▸ hothers ev' hev'
      · exact hpop.disconnected h

end PkuyoProxy.Analysis
