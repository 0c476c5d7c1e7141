import PkuyoProxy.Analysis.PairEvents

/-!
# Output that waits

`is_sending`, the interest in writing and the queue change together in `handle_write_event`: when
the loop ends, the queue is empty, or the connection waits for its descriptor, or a write has
failed.  The worker learns of a failure from a write event only, since `recv_content` drops the
value of its call; so no output is left behind exactly as long as no write of a `recv_content`
fails (`awake_iff_noneDropped`).
-/

set_option autoImplicit false

namespace PkuyoProxy.Analysis

open PkuyoProxy.Lib PkuyoProxy.Model

/-- The flag is the interest in writing, and what is queued is waited for or given up. -/
structure Awake (s : Reporting) : Prop where
  interest : s.run.handler.isSending = s.run.handler.connHandler.events.epollOut
  pending : s.run.handler.queue ≠ [] → s.run.handler.isSending = true ∨ s.reported = true

/-- A connection whose handshake is done has output only if it waits or was reported. -/
def AwakeWhenReady (s : Reporting) : Prop :=
  s.run.handler.connHandler.handshakeDone = true → Awake s

/-- The kernel reports an error, or takes nothing. -/
def FailedWrite (w : WriteRecord) : Prop :=
  w.answer.byteCount = 0 ∨ w.answer.byteCount = -1 ∧ w.answer.isError = true

instance : DecidablePred FailedWrite := fun w =>
  inferInstanceAs (Decidable (w.answer.byteCount = 0 ∨ _))

/-- The writes of a step. -/
def newWrites (s : Reporting) (input : SendInput) : List WriteRecord :=
  (reportStep s input).run.writes.drop s.run.writes.length

/-- No write that `recv_content` makes fails, unless the connection was reported before. -/
def NoneDropped (s : Reporting) : SendInput → Prop
  | .recv content answer answers => s.reported = false →
      ∀ w ∈ newWrites s (.recv content answer answers), ¬ FailedWrite w
  | .writable _ _ => True

/-- Contexts are handed over when they are complete (`Genuine`, `ownResponse_fresh`). -/
def Completed : SendInput → Prop
  | .recv content _ _ => content.isCompleted = true
  | .writable _ _ => True

/-! ## The loop -/

/-- Everything queued can be sent. -/
def AllCompleted (h : NormalConnHandler) : Prop := ∀ c ∈ h.queue, c.isCompleted = true

/-- Behind a write the queue is made of complete contexts. -/
theorem afterWrite_completed {c : HttpContext} {rest : List HttpContext} (byteSend : ℤ)
    (hc : c.isCompleted = true) (hrest : ∀ c' ∈ rest, c'.isCompleted = true) :
    ∀ c' ∈ afterWrite c rest byteSend, c'.isCompleted = true := by
  unfold afterWrite
  split
  · simpa [hc] using hrest
  · split
    · exact hrest
    · simpa [hc] using hrest

/-- How the loop ends: it has sent everything, or a write has failed, or it has to wait. -/
structure SendEnd (s : SendRun) (flags : SendFlags) (s' : SendRun) : Prop where
  completed : AllCompleted s'.handler
  sent : flags.result = false → flags.needListen = false → s'.handler.queue = []
  writes : ∃ ws, s'.writes = s.writes ++ ws ∧ (flags.result = true ↔ ∃ w ∈ ws, FailedWrite w)

/-- With the buffer of its front loaded the queue is made of complete contexts. -/
theorem loaded_completed {front : HttpContext} {rest : List HttpContext}
    (hfront : front.isCompleted = true) (hrest : ∀ c ∈ rest, c.isCompleted = true) :
    ∀ c ∈ loadBuffer front :: rest, c.isCompleted = true := by
  intro c hc
  rcases List.mem_cons.mp hc with rfl | hc
  · rwa [loadBuffer_isCompleted]
  · exact hrest c hc

/-- The loop ends as `SendEnd` says. -/
theorem writeLoop_end (answers : List WriteAnswer) (s : SendRun) (h : AllCompleted s.handler) :
    SendEnd s (writeLoop answers s).1 (writeLoop answers s).2 := by
  have htail {s : SendRun} {front : HttpContext} {rest : List HttpContext}
      (hqueue : s.handler.queue = front :: rest) (h : AllCompleted s.handler) :
      ∀ c ∈ rest, c.isCompleted = true := by
    intro c hc
    apply h c
    rw [hqueue]
    exact List.mem_cons_of_mem front hc
  fun_induction writeLoop answers s with
  | case1 answers s hqueue => exact ⟨h, fun _ _ => hqueue, [], by simp, by simp⟩
  | case2 s front rest hqueue hcompleted =>
    exact ⟨loaded_completed hcompleted (htail hqueue h), by simp, [], (List.append_nil _).symm,
      by simp⟩
  | case3 s front rest hqueue hcompleted c answer answers e record hblock =>
    refine ⟨loaded_completed hcompleted (htail hqueue h), ?_, _, rfl, ?_⟩
    · intro hresult hlisten
      have hquiet : e.isError = false := hresult
      simp [hquiet] at hlisten
    · simp [FailedWrite, e, hblock]
  | case4 s front rest hqueue hcompleted c answer answers e record hblock hzero =>
    refine ⟨loaded_completed hcompleted (htail hqueue h), by simp, _, rfl, ?_⟩
    simp [FailedWrite, e, hzero]
  | case5 s front rest hqueue hcompleted c answer answers e record hblock hzero ih =>
    have hloaded : c.isCompleted = true := (loadBuffer_isCompleted front).trans hcompleted
    obtain ⟨hcomplete, hsent, ws, hws, hfailed⟩ :=
      ih (afterWrite_completed e.byteCount hloaded (htail hqueue h))
    refine ⟨hcomplete, hsent, ⟨c.state, c.header, e⟩ :: ws, ?_, ?_⟩
    · rw [hws]
      simp [record]
    · rw [hfailed]
      simp [FailedWrite, hblock, hzero]
  | case6 answers s front rest hqueue hcompleted =>
    exact absurd (h front (by simp [hqueue])) hcompleted

/-! ## A write event -/

/-- The interest follows the flag. -/
theorem updateListening_interest (flags : SendFlags) {h : NormalConnHandler}
    (hh : h.isSending = h.connHandler.events.epollOut) :
    (updateListening flags h).isSending =
      (updateListening flags h).connHandler.events.epollOut := by
  unfold updateListening
  split
  · exact hh
  · split
    · rfl
    · split
      · rfl
      · exact hh

/-- What holds of a handler between two calls. -/
structure SendInv (h : NormalConnHandler) : Prop where
  completed : AllCompleted h
  waiting : h.connHandler.handshakeDone = false → h.isSending = false
  interest : h.connHandler.handshakeDone = true → h.isSending = h.connHandler.events.epollOut

/-- How a call ends.  A connection that is left with output waits, unless a write has failed; then
the call says so and the flag is as it was. -/
structure CallEnd (s : SendRun) (result : Bool) (s' : SendRun) : Prop where
  inv : SendInv s'.handler
  pending : s'.handler.connHandler.handshakeDone = true → result = false →
    s'.handler.queue ≠ [] → s'.handler.isSending = true
  stuck : s'.handler.connHandler.handshakeDone = true → result = true →
    s'.handler.queue ≠ [] ∧ s'.handler.isSending = s.handler.isSending
  writes : ∃ ws, s'.writes = s.writes ++ ws ∧
    ((∃ w ∈ ws, FailedWrite w) ↔ s'.handler.connHandler.handshakeDone = true ∧ result = true)

/-- A call of `handle_write_event` ends as `CallEnd` says. -/
theorem WriteCall.ends {answer : Handshake} {answers : List WriteAnswer} {s s' : SendRun}
    {result : Bool} (hcall : WriteCall answer answers s result s') (h : SendInv s.handler) :
    CallEnd s result s' := by
  cases hcall with
  | handshaking hbefore hdone hip =>
    refine ⟨⟨h.completed, fun _ => h.waiting hbefore, ?_⟩, ?_, ?_, [], by simp, ?_⟩
    all_goals simp [hdone]
  | @sending conn hdone hip hready hconn flags s₁ hloop =>
    have hend := writeLoop_end answers { s with handler := { s.handler with connHandler := conn } }
      h.completed
    have hready := writeLoop_frontReady answers
      { s with handler := { s.handler with connHandler := conn } }
    have hframe := writeLoop_handler answers
      { s with handler := { s.handler with connHandler := conn } }
    rw [hloop] at hend hready hframe
    dsimp only at hend hready hframe
    have hsending : s₁.handler.isSending = s.handler.isSending := by rw [hframe]
    have hsame : s₁.handler.connHandler = conn := by rw [hframe]
    have hinterest : s₁.handler.isSending = s₁.handler.connHandler.events.epollOut := by
      rw [hsending, hsame]
      rcases hconn with rfl | ⟨hbefore, hout⟩
      · exact h.interest hdone
      · rw [h.waiting hbefore, hout]
    obtain ⟨conn', -, hdone', hlisten⟩ := updateListening_eq flags s₁.handler
    have hflag := updateListening_interest flags hinterest
    rw [hlisten] at hflag ⊢
    rw [hsame, hdone] at hdone'
    obtain ⟨ws, hws, hfailed⟩ := hend.writes
    refine ⟨⟨hend.completed, ?_, fun _ => hflag⟩, ?_, ?_, ws, hws, ?_⟩
    · intro hnot
      simp [hdone'] at hnot
    · intro _ hresult hqueue
      have hlistening : flags.needListen = true := by
        by_contra hnot
        exact hqueue (hend.sent hresult (by simpa using hnot))
      simp [hresult, hlistening]
    · intro _ hresult
      obtain ⟨front, rest, hqueue, -⟩ := hready (.inl hresult)
      exact ⟨by simp [hqueue], by simp [hresult, hsending]⟩
    · simp [hfailed, hdone']

/-! ## A context that is handed over -/

/-- What replaces a context is complete if the context is. -/
theorem substitute_isCompleted (content : HttpContext) :
    (substitute content).isCompleted = content.isCompleted := by
  obtain ⟨response, heq⟩ := getResponseHead_eq
    { content with
      content := backendErrorResponse 500
      header := genHttpHeader (backendErrorResponse 500) 500 }
  rw [substitute, heq]

/-- What is queued in place of a complete context is complete. -/
theorem takeOn_isCompleted {isRequest : Bool} {content c : HttpContext}
    (h : content.isCompleted = true) (hc : takeOn isRequest content = .inl c) :
    c.isCompleted = true := by
  unfold takeOn at hc
  split at hc
  · cases hc
  · split at hc
    · cases hc
      rwa [substitute_isCompleted]
    · cases hc
      exact h

/-- A complete context behind the queue keeps the invariant. -/
theorem SendInv.push {s : SendRun} (h : SendInv s.handler) {c : HttpContext}
    (hc : c.isCompleted = true) : SendInv (pushed s c).handler := by
  refine ⟨?_, h.waiting, h.interest⟩
  intro c' hmem
  rcases List.mem_append.mp hmem with hmem | hmem
  · exact h.completed c' hmem
  · rw [List.mem_singleton.mp hmem]
    exact hc

/-! ## Runs -/

/-- The invariant of a connection and its reports. -/
structure ReportInv (s : Reporting) : Prop where
  inv : SendInv s.run.handler
  awake : AwakeWhenReady s

/-- The steps never fail. -/
def reporting (s : Reporting) (input : SendInput) : Except Empty Reporting :=
  .ok (reportStep s input)

/-- Behind a call, what is left waits, or its failure was reported. -/
theorem reportInv_of_end {s : SendRun} {s' : Reporting} {result : Bool}
    (hend : CallEnd s result s'.run)
    (hreported : s'.run.handler.connHandler.handshakeDone = true → result = true →
      s'.reported = true) : ReportInv s' := by
  refine ⟨hend.inv, fun hdone => ⟨hend.inv.interest hdone, fun hqueue => ?_⟩⟩
  cases hresult : result with
  | false => exact .inl (hend.pending hdone hresult hqueue)
  | true => exact .inr (hreported hdone hresult)

/-- A step whose writes do not fail keeps the invariant. -/
theorem reportStep_keeps {s : Reporting} (h : ReportInv s) {input : SendInput}
    (hinput : Completed input) (hnone : NoneDropped s input) : ReportInv (reportStep s input) := by
  cases input with
  | writable answer answers =>
    have hend := (handleWriteEvent_call answer answers s.run).ends h.inv
    apply reportInv_of_end hend
    intro _ hresult
    simp [reportStep, hresult]
  | recv content answer answers =>
    have hcall := recvContent_call answer answers content s.run
    unfold NoneDropped newWrites at hnone
    simp only [reportStep] at hnone ⊢
    generalize (recvContent answer answers content s.run).1 = s' at hcall hnone ⊢
    cases hcall with
    | sentBack => exact h
    | @queued c hc hs =>
      refine ⟨h.inv.push (takeOn_isCompleted hinput hc), fun hdone => ?_⟩
      exact ⟨(h.awake hdone).interest, fun _ => .inl hs⟩
    | @written c hc hs result s' hcall =>
      have hend := hcall.ends (h.inv.push (takeOn_isCompleted hinput hc))
      apply reportInv_of_end hend
      intro hdone hresult
      obtain ⟨ws, hws, hfailed⟩ := hend.writes
      obtain ⟨w, hw, hwfailed⟩ := hfailed.mpr ⟨hdone, hresult⟩
      by_contra hnot
      apply hnone (by simpa using hnot) w _ hwfailed
      rw [hws]
      simpa [pushed] using hw

/-- A write that fails behind `recv_content` leaves output that nobody waits for. -/
theorem reportStep_breaks {s : Reporting} (h : ReportInv s) {input : SendInput}
    (hinput : Completed input) (hdropped : ¬ NoneDropped s input) :
    ¬ AwakeWhenReady (reportStep s input) := by
  cases input with
  | writable answer answers => exact absurd trivial hdropped
  | recv content answer answers =>
    have hcall := recvContent_call answer answers content s.run
    unfold NoneDropped newWrites at hdropped
    push Not at hdropped
    obtain ⟨hreported, w, hw, hwfailed⟩ := hdropped
    unfold AwakeWhenReady
    simp only [reportStep] at hw ⊢
    generalize (recvContent answer answers content s.run).1 = s' at hcall hw ⊢
    cases hcall with
    | sentBack => simp at hw
    | queued hc hs => simp [pushed] at hw
    | @written c hc hs result s' hcall =>
      have hend := hcall.ends (h.inv.push (takeOn_isCompleted hinput hc))
      obtain ⟨ws, hws, hfailed⟩ := hend.writes
      have hmem : w ∈ ws := by
        rw [hws] at hw
        simpa [pushed] using hw
      obtain ⟨hdone, hresult⟩ := hfailed.mp ⟨w, hmem, hwfailed⟩
      obtain ⟨hqueue, hsame⟩ := hend.stuck hdone hresult
      intro hawake
      rcases (hawake hdone).pending hqueue with hsending | hrep
      · have hidle : s'.handler.isSending = false := hsame.trans hs
        simp [hidle] at hsending
      · simp [hreported] at hrep

/-- A handler as its constructor leaves it, whatever the handshake has done. -/
structure NewHandler (h : NormalConnHandler) : Prop where
  queue : h.queue = []
  isSending : h.isSending = false
  interest : h.connHandler.handshakeDone = true → h.connHandler.events.epollOut = false

/-- A new handler has the invariant. -/
theorem reportInv_new {h : NormalConnHandler} (hnew : NewHandler h) :
    ReportInv { run := { handler := h } } := by
  have hinterest (hdone : h.connHandler.handshakeDone = true) :
      h.isSending = h.connHandler.events.epollOut := by
    rw [hnew.isSending, hnew.interest hdone]
  refine ⟨⟨?_, fun _ => hnew.isSending, hinterest⟩, fun hdone => ⟨hinterest hdone, ?_⟩⟩
  · intro c hc
    simp [hnew.queue] at hc
  · intro hqueue
    exact absurd hnew.queue hqueue

/-- **In every state of a run whose handshake is done the flag is the interest in writing, and
output waits or its failure was reported, if and only if no write of a `recv_content` fails on a
connection that was not reported.** -/
theorem awake_iff_noneDropped {h : NormalConnHandler} (hnew : NewHandler h)
    {inputs : List SendInput} (hinputs : ∀ input ∈ inputs, Completed input) :
    EveryState reporting AwakeWhenReady { run := { handler := h } } inputs ↔
      EveryStep reporting NoneDropped { run := { handler := h } } inputs := by
  have hlegal : EveryStep reporting (fun _ input => Completed input)
      { run := { handler := h } } inputs :=
    everyStep_of_mem fun input hinput _ => hinputs input hinput
  refine everyState_iff (fun s hs => hs.awake) ?_ ?_ (reportInv_new hnew) hlegal
  · intro s input hs hinput hnone
    exact ⟨_, rfl, reportStep_keeps hs hinput hnone⟩
  · intro s input s' hs hinput hdropped hstep
    cases hstep
    exact reportStep_breaks hs hinput hdropped

/-! ## One request -/

/-- The handler of the backend's side is new. -/
theorem newHandler_backendEnd : NewHandler backendEnd := ⟨rfl, rfl, fun _ => rfl⟩

/-- The contexts of this run are complete. -/
theorem completed_partialHeader : ∀ input ∈ partialHeader, Completed input := by
  intro input hinput
  rcases List.mem_cons.mp hinput with rfl | hinput
  · exact smallRequest_fresh.completed
  · rw [List.mem_singleton.mp hinput]
    trivial

/-- The equivalence for a header that the kernel takes in two parts. -/
theorem awake_iff_noneDropped_partialHeader :
    EveryState reporting AwakeWhenReady { run := { handler := backendEnd } } partialHeader := by
  rw [awake_iff_noneDropped newHandler_backendEnd completed_partialHeader]
  refine everyStep_cons.mpr ⟨fun _ => by decide, fun s _ => ?_⟩
  exact everyStep_of_mem fun input hinput _ => by
    rw [List.mem_singleton.mp hinput]
    trivial

/-- The kernel reports an error to the write that `recv_content` makes. -/
theorem error_not_awake :
    ¬ ∀ (h : NormalConnHandler) (inputs : List SendInput), NewHandler h →
      (∀ input ∈ inputs, Completed input) →
      EveryState reporting AwakeWhenReady { run := { handler := h } } inputs := by
  intro hall
  have hcompleted : ∀ input ∈ [SendInput.recv smallRequest .finished [fun _ => ⟨true, -1⟩]],
      Completed input := by
    intro input hinput
    rw [List.mem_singleton.mp hinput]
    exact smallRequest_fresh.completed
  obtain ⟨s, hrun, hawake⟩ := (hall backendEnd _ newHandler_backendEnd hcompleted).run
  cases hrun
  have hpending := (hawake (by decide)).pending (by decide)
  revert hpending
  decide

end PkuyoProxy.Analysis
