import Yaar.Net.ReactorViews

/-! The stages of a task. -/
namespace Yaar.Net.Reactor

open Machine PollIo AtomicWaker Yaar.Runtime Yaar.Runtime.TaskState

variable {T V D E : Type*}

/-- Where a caller stands for the waker of its slot. -/
def poller : Caller T → AtomicWaker.Poller T
  | .call _ _ _ line => line.poller
  | _ => .idle false

/-- A task that has got `Pending` and has not been woken since, with its state. -/
inductive Stopped (x : SocketId × WakerKind) (t : T) : Caller T → Phase → TaskState → Prop where
  | begin : Stopped x t (.call x.1 x.2 (some t) .begin) .inside TASK_RUNNING
  | storePending : Stopped x t (.call x.1 x.2 (some t) .storePending) .inside TASK_RUNNING
  | pending : Stopped x t .idle .pending TASK_RUNNING
  | away : Stopped x t .idle .away TASK_IDLE

/-- The stages of a task: its waker is due, has been called, or it is being polled. -/
inductive Fits (x : SocketId × WakerKind) (t : T) (v : View (V ⊕ SocketId) T) : Prop where
  | resting (stopped : Stopped x t v.caller v.phase v.state) (counted : v.caller = .idle → v.flag = true)
      (rests : Resting v.cell t v.wakes)
  | woken (state : TaskState) (stopped : Stopped x t v.caller v.phase state)
      (scheduled : v.state = (transitionToScheduled state).1) (awake : Awake v.cell t (.idle false) v.wakes)
  | between (caller : v.caller = .idle) (phase : v.phase = .inside) (running : v.state = TASK_RUNNING)
      (awake : Awake v.cell t (.idle false) v.wakes)
  | calling (line : Line T) (caller : v.caller = .call x.1 x.2 (some t) line)
      (runs : line ≠ .begin ∧ line ≠ .storePending) (phase : v.phase = .inside)
      (running : v.state = TASK_RUNNING) (awake : Awake v.cell t line.poller v.wakes)
  | finished (caller : v.caller = .idle) (phase : v.phase = .done)
      (awake : Awake v.cell t (.idle false) v.wakes)

variable {x : SocketId × WakerKind} {t : T} {v : View (V ⊕ SocketId) T}

section Stopped

variable {caller : Caller T} {state : TaskState}

/-- A task that no thread holds is idle, unless it has been woken. -/
theorem Stopped.of_away (stopped : Stopped x t caller .away state) :
    caller = .idle ∧ state = TASK_IDLE := by
  cases stopped
  exact ⟨rfl, rfl⟩

theorem Stopped.of_pending (stopped : Stopped x t caller .pending state) :
    caller = .idle ∧ state = TASK_RUNNING := by
  cases stopped
  exact ⟨rfl, rfl⟩

/-- A task stops inside its call once the waker is stored: only the pending I/O has
still to be counted. -/
theorem Stopped.of_inside (stopped : Stopped x t caller .inside state) : state = TASK_RUNNING ∧
    ∃ line, caller = .call x.1 x.2 (some t) line ∧ (line = .begin ∨ line = .storePending) := by
  cases stopped
  · exact ⟨rfl, _, rfl, .inl rfl⟩
  · exact ⟨rfl, _, rfl, .inr rfl⟩

/-- The call of a stopped task is its own, with its own waker. -/
theorem Stopped.of_call {phase : Phase} {id : SocketId} {kind : WakerKind} {ctx : Option T}
    {line : Line T} (stopped : Stopped x t (.call id kind ctx line) phase state) :
    phase = .inside ∧ id = x.1 ∧ kind = x.2 ∧ ctx = some t ∧ (line = .begin ∨ line = .storePending) := by
  cases stopped
  · exact ⟨rfl, rfl, rfl, rfl, .inl rfl⟩
  · exact ⟨rfl, rfl, rfl, rfl, .inr rfl⟩

end Stopped

/-! ## The executor -/

/-- A scheduled task that is run has been woken; it is then between two calls. -/
theorem Fits.run (fits : Fits x t v) (hPhase : v.phase = .away)
    (h : transitionToRunning v.state = some true) :
    Fits x t { v with state := TASK_RUNNING, phase := .inside } := by
  cases fits with
  | resting stopped counted rests =>
      rw [hPhase] at stopped
      simp [stopped.of_away.2, transitionToRunning] at h
  | woken state stopped scheduled awake =>
      rw [hPhase] at stopped
      exact .between stopped.of_away.1 rfl rfl awake
  | between caller phase running awake => simp [hPhase] at phase
  | calling line caller runs phase running awake => simp [hPhase] at phase
  | finished caller phase awake => simp [hPhase] at phase

/-- What `run` does after a `Pending`. It never comes to the unreachable branch. -/
theorem Fits.leave (fits : Fits x t v) (hPhase : v.phase = .pending) :
    ∃ state answer, transitionToIdle v.state = some (state, answer) ∧
      Fits x t { v with state := if answer then state else TASK_SCHEDULED, phase := .away } := by
  cases fits with
  | resting stopped counted rests =>
      rw [hPhase] at stopped
      obtain ⟨hCaller, hState⟩ := stopped.of_pending
      refine ⟨TASK_IDLE, true, by simp [hState, transitionToIdle], ?_⟩
      exact .resting (by simpa [hCaller] using Stopped.away) counted rests
  | woken state stopped scheduled awake =>
      rw [hPhase] at stopped
      obtain ⟨hCaller, rfl⟩ := stopped.of_pending
      refine ⟨TASK_NOTIFIED, false, by simp [scheduled, transitionToScheduled, transitionToIdle], ?_⟩
      exact .woken TASK_IDLE (by simpa [hCaller] using Stopped.away) (by simp [transitionToScheduled])
        awake
  | between caller phase running awake => simp [hPhase] at phase
  | calling line caller runs phase running awake => simp [hPhase] at phase
  | finished caller phase awake => simp [hPhase] at phase

theorem Fits.idle_of_away (fits : Fits x t v) (hPhase : v.phase = .away) : v.caller = .idle := by
  cases fits with
  | resting stopped counted rests =>
      rw [hPhase] at stopped
      exact stopped.of_away.1
  | woken state stopped scheduled awake =>
      rw [hPhase] at stopped
      exact stopped.of_away.1
  | calling line caller runs phase running awake => simp [hPhase] at phase
  | between caller | finished caller => exact caller

/-! ## The task -/

/-- A task that is polled and in no call has not been stopped: a call that gets
`Pending` ends the poll. -/
theorem Fits.between_of_inside (fits : Fits x t v) (hPhase : v.phase = .inside)
    (hCaller : v.caller = .idle) :
    v.state = TASK_RUNNING ∧ Awake v.cell t (.idle false) v.wakes := by
  have hNot {state : TaskState} : ¬Stopped x t v.caller v.phase state := by
    intro stopped
    rw [hPhase] at stopped
    obtain ⟨-, line, hCall, -⟩ := stopped.of_inside
    simp [hCaller] at hCall
  cases fits with
  | resting stopped counted rests => exact absurd stopped hNot
  | woken state stopped scheduled awake => exact absurd stopped hNot
  | between caller phase running awake => exact ⟨running, awake⟩
  | calling line caller runs phase running awake => simp [hCaller] at caller
  | finished caller phase awake => simp [hPhase] at phase

/-- A call begins with the load of the flag. The waker of the slot is not yet touched. -/
theorem Fits.call (fits : Fits x t v) (hPhase : v.phase = .inside) (hCaller : v.caller = .idle) :
    Fits x t { v with caller := .call x.1 x.2 (some t) .load } :=
  have ⟨running, awake⟩ := fits.between_of_inside hPhase hCaller
  .calling .load rfl (by simp) hPhase running awake

/-- A task that returns needs no wake any more, so nothing is left to show but its slot. -/
theorem Fits.finish (fits : Fits x t v) (hPhase : v.phase = .inside) (hCaller : v.caller = .idle) :
    Fits x t { v with phase := .done } :=
  .finished hCaller rfl (fits.between_of_inside hPhase hCaller).2

/-- The call of a task is for its own pair and has its own waker. -/
theorem Fits.of_call {id : SocketId} {kind : WakerKind} {ctx : Option T} {line : Line T}
    (fits : Fits x t v) (hCaller : v.caller = .call id kind ctx line) :
    v.phase = .inside ∧ id = x.1 ∧ kind = x.2 ∧ ctx = some t := by
  have hStopped {state : TaskState} (stopped : Stopped x t v.caller v.phase state) :
      v.phase = .inside ∧ id = x.1 ∧ kind = x.2 ∧ ctx = some t := by
    rw [hCaller] at stopped
    obtain ⟨hPhase, hId, hKind, hCtx, -⟩ := stopped.of_call
    exact ⟨hPhase, hId, hKind, hCtx⟩
  cases fits with
  | resting stopped counted rests => exact hStopped stopped
  | woken state stopped scheduled awake => exact hStopped stopped
  | between caller phase running awake => simp [hCaller] at caller
  | calling line' caller runs phase running awake =>
      obtain ⟨rfl, rfl, rfl, -⟩ : id = x.1 ∧ kind = x.2 ∧ ctx = some t ∧ line = line' := by
        simpa [hCaller] using caller
      exact ⟨phase, rfl, rfl, rfl⟩
  | finished caller phase awake => simp [hCaller] at caller

/-- A call that has not stored its waker is awake. The two operations after the store
are the stages of a stopped task. -/
theorem Fits.awake_of_call {line : Line T} (fits : Fits x t v)
    (hCaller : v.caller = .call x.1 x.2 (some t) line) (runs : line ≠ .begin ∧ line ≠ .storePending) :
    v.state = TASK_RUNNING ∧ Awake v.cell t line.poller v.wakes := by
  have hNot {state : TaskState} : ¬Stopped x t v.caller v.phase state := by
    intro stopped
    rw [hCaller] at stopped
    obtain ⟨-, -, -, -, hLine⟩ := stopped.of_call
    exact hLine.elim runs.1 runs.2
  cases fits with
  | resting stopped counted rests => exact absurd stopped hNot
  | woken state stopped scheduled awake => exact absurd stopped hNot
  | between caller phase running awake => simp [hCaller] at caller
  | calling line' caller runs phase running awake =>
      obtain rfl : line = line' := by simpa [hCaller] using caller
      exact ⟨running, awake⟩
  | finished caller phase awake => simp [hCaller] at caller

/-- A call that is over has returned `Pending`. -/
def View.stepped (v : View (V ⊕ SocketId) T) (caller : Caller T) (c : Cell (V ⊕ SocketId) T)
    (b : UInt8) (f : Bool) : View (V ⊕ SocketId) T :=
  match caller with
  | .idle => ⟨.idle, .pending,
      if yields v.caller then (transitionToScheduled v.state).1 else v.state, c, b, f, v.wakes⟩
  | caller => ⟨caller, v.phase, v.state, c, b, f, v.wakes⟩

theorem View.stepped_call {v : View (V ⊕ SocketId) T} {line : Line T} {c : Cell (V ⊕ SocketId) T}
    {b : UInt8} {f : Bool} : v.stepped (.call x.1 x.2 (some t) line) c b f =
      ⟨.call x.1 x.2 (some t) line, v.phase, v.state, c, b, f, v.wakes⟩ := rfl

/-- A call that is over without a yield has returned `Pending` and woken nobody. -/
theorem View.stepped_idle {v : View (V ⊕ SocketId) T} {line : Line T} {c : Cell (V ⊕ SocketId) T}
    {b : UInt8} {f : Bool} (hCaller : v.caller = .call x.1 x.2 (some t) line) (hLine : line ≠ .yield) :
    v.stepped .idle c b f = ⟨.idle, .pending, v.state, c, b, f, v.wakes⟩ := by
  have hYields : yields v.caller = false := by
    rw [hCaller]
    cases line with
    | yield => exact absurd rfl hLine
    | _ => rfl
  simp [View.stepped, hYields]

variable [DecidableEq T] {line : Line T} {caller : Caller T} {c : Cell (V ⊕ SocketId) T} {b : UInt8}
  {f : Bool}

/-- An operation inside `poll`: where it gets `Pending` the task comes to rest. -/
theorem Fits.poll {isPending : Bool} {at_ at_' : AtomicWaker.Poller T} (fits : Fits x t v)
    (hCaller : v.caller = .call x.1 x.2 (some t) (.poll isPending at_))
    (finds : Finds v.cell (.poll isPending at_)) (agrees : isPending = v.flag)
    (hStep : pollerStep v.cell at_ = some (c, at_'))
    (hFine : ∀ failure, Caller.polled x.1 x.2 (some t) isPending at_' ≠ .panicked failure) :
    Fits x t (v.stepped (.polled x.1 x.2 (some t) isPending at_') c v.budget v.flag) := by
  obtain ⟨hPhase, -⟩ := fits.of_call hCaller
  obtain ⟨hRunning, awake⟩ := fits.awake_of_call hCaller (by simp)
  have hUnread : ∀ w, at_ = .swapWaiting w → v.cell.notified = false := by
    rintro w rfl
    exact finds.unread trivial
  obtain ⟨-, rfl, rests⟩ | ⟨hIdle, awake'⟩ := awake.poll finds.facts hUnread hStep
  · cases isPending with
    | true =>
        rw [Caller.polled, if_pos rfl, View.stepped_idle hCaller (by simp)]
        exact .resting (by simpa [hRunning] using Stopped.pending) (fun _ => agrees.symm) rests
    | false =>
        refine .resting ?_ (fun h => absurd h (by simp [Caller.polled, View.stepped])) rests
        simpa [Caller.polled, View.stepped, hPhase, hRunning] using Stopped.begin
  · have hGoes (line : Line T) (runs : line ≠ .begin ∧ line ≠ .storePending)
        (awake : Awake c t line.poller v.wakes) :
        Fits x t (v.stepped (.call x.1 x.2 (some t) line) c v.budget v.flag) :=
      .calling line rfl runs hPhase hRunning awake
    cases at_' with
    | idle ready =>
        cases ready with
        | true =>
            cases isPending with
            | true => exact hGoes .complete (by simp) awake'
            | false => exact hGoes .loadBudget (by simp) awake'
        | false =>
            have hShaped : Polling at_ := finds.shaped
            obtain rfl := hIdle rfl
            exact hShaped.elim
    | panicked failure => exact absurd rfl (hFine _)
    | _ => exact hGoes (.poll isPending _) (by simp) awake'

/-- An operation inside `reset`. -/
theorem Fits.reset {at_ at_' : AtomicWaker.Poller T} (fits : Fits x t v)
    (hCaller : v.caller = .call x.1 x.2 (some t) (.reset at_)) (finds : Finds v.cell (.reset at_))
    (hStep : pollerStep v.cell at_ = some (c, at_'))
    (hFine : ∀ failure, Caller.resetting x.1 x.2 (some t) at_' ≠ .panicked failure) :
    Fits x t (v.stepped (.resetting x.1 x.2 (some t) at_') c v.budget v.flag) := by
  obtain ⟨hPhase, -⟩ := fits.of_call hCaller
  obtain ⟨hRunning, awake⟩ := fits.awake_of_call hCaller (by simp)
  have hShaped : at_ = .resetLoad ∨ at_ = .resetStore := finds.shaped
  have hUnread : ∀ w, at_ = .swapWaiting w → v.cell.notified = false := by
    rintro w rfl
    simp at hShaped
  obtain ⟨rfl, -⟩ | ⟨-, awake'⟩ := awake.poll finds.facts hUnread hStep
  · simp at hShaped
  · have hGoes (line : Line T) (runs : line ≠ .begin ∧ line ≠ .storePending)
        (awake : Awake c t line.poller v.wakes) :
        Fits x t (v.stepped (.call x.1 x.2 (some t) line) c v.budget v.flag) :=
      .calling line rfl runs hPhase hRunning awake
    cases at_' with
    | idle ready => exact hGoes .load (by simp) ⟨awake'.state, awake'.early, awake'.holds⟩
    | panicked failure => exact absurd rfl (hFine _)
    | _ => exact hGoes (.reset _) (by simp) awake'

/-- Every operation of a call leads from a stage to a stage. Those of `poll` and `reset`
are the lemmas above. -/
theorem Fits.step (fits : Fits x t v) (hCaller : v.caller = .call x.1 x.2 (some t) line)
    (finds : Finds v.cell line) (agrees : line.Agrees v.flag)
    (goes : Goes x (some t) v.cell v.budget v.flag line c b f caller)
    (hFine : ∀ failure, caller ≠ .panicked failure) : Fits x t (v.stepped caller c b f) := by
  obtain ⟨hPhase, -⟩ := fits.of_call hCaller
  -- an operation outside the waker's methods, at which a task does not rest
  have hGoes {line' : Line T} (runs : line ≠ .begin ∧ line ≠ .storePending)
      (runs' : line' ≠ .begin ∧ line' ≠ .storePending)
      (hAwake : ∀ wakes, Awake v.cell t line.poller wakes → Awake v.cell t line'.poller wakes) :
      Fits x t ⟨.call x.1 x.2 (some t) line', v.phase, v.state, v.cell, b, f, v.wakes⟩ :=
    have ⟨hRunning, awake⟩ := fits.awake_of_call hCaller runs
    .calling line' rfl runs' hPhase hRunning (hAwake _ awake)
  have hStopped {state : TaskState} (stopped : Stopped x t v.caller v.phase state) :
      state = TASK_RUNNING := by
    rw [hPhase] at stopped
    exact stopped.of_inside.1
  cases goes with
  | load => exact hGoes (by simp) (by simp) fun _ awake => ⟨awake.state, awake.early, rfl, awake.holds⟩
  | poll isPending hStep => exact fits.poll hCaller finds agrees hStep hFine
  | reset hStep => exact fits.reset hCaller finds hStep hFine
  | complete | loadBudget | doIo | storeCompleted => exact hGoes (by simp) (by simp [Line.spend]) fun _ => id
  | spends hSpent => exact hGoes (by simp) (by simp) fun _ => id
  | yields hEmpty => exact hGoes (by simp) (by simp) fun _ => id
  | yield =>
      obtain ⟨hRunning, awake⟩ := fits.awake_of_call hCaller (by simp)
      refine .woken TASK_RUNNING .pending ?_ ⟨awake.state, awake.early, awake.holds⟩
      simp [View.stepped, hCaller, yields, hRunning]
  | begin =>
      cases fits with
      | resting stopped counted rests =>
          refine .resting ?_ (fun h => by simp [View.stepped] at h) rests
          rw [View.stepped_call, hPhase, hStopped stopped]
          exact .storePending
      | woken state stopped scheduled awake =>
          refine .woken TASK_RUNNING ?_ ((hStopped stopped) ▸ scheduled) awake
          rw [View.stepped_call, hPhase]
          exact .storePending
      | between caller phase running awake => simp [hCaller] at caller
      | calling line' caller runs phase running awake =>
          obtain rfl : .begin = line' := by simpa [hCaller] using caller
          exact absurd rfl runs.1
      | finished caller phase awake => simp [hCaller] at caller
  | storePending =>
      rw [View.stepped_idle hCaller (by simp)]
      cases fits with
      | resting stopped counted rests =>
          refine .resting ?_ (fun _ => rfl) rests
          rw [hStopped stopped]
          exact .pending
      | woken state stopped scheduled awake =>
          exact .woken TASK_RUNNING .pending ((hStopped stopped) ▸ scheduled) awake
      | between caller phase running awake => simp [hCaller] at caller
      | calling line' caller runs phase running awake =>
          obtain rfl : .storePending = line' := by simpa [hCaller] using caller
          exact absurd rfl runs.2
      | finished caller phase awake => simp [hCaller] at caller

omit [DecidableEq T] in
/-- `do_io` returns. -/
theorem Fits.doIo (fits : Fits x t v) (hCaller : v.caller = .call x.1 x.2 (some t) .inIo)
    (result : IoResult) : Fits x t { v with caller := .returned x.1 x.2 (some t) result } := by
  obtain ⟨hPhase, -⟩ := fits.of_call hCaller
  obtain ⟨hRunning, awake⟩ := fits.awake_of_call hCaller (by simp)
  cases result with
  | interrupted => exact .calling .doIo rfl (by simp) hPhase hRunning awake
  | wouldBlock =>
      exact .calling (.reset .resetLoad) rfl (by simp) hPhase hRunning ⟨awake.state, awake.early, awake.holds⟩
  | other => exact .between rfl hPhase hRunning ⟨awake.state, awake.early, awake.holds⟩

/-! ## The wakes -/

section Wakes

variable [DecidableEq V] {u : V ⊕ SocketId} {a a' : Waking T}

omit [DecidableEq T] in
/-- A wake that begins changes nothing for the task yet. It is one more wake that will
be noticed. -/
theorem Fits.begin (fits : Fits x t v) (hNone : v.wakes u = none) :
    Fits x t { v with wakes := Function.update v.wakes u (some .update) } := by
  cases fits with
  | resting stopped counted rests => exact .resting stopped counted (rests.begin hNone)
  | woken state stopped scheduled awake => exact .woken state stopped scheduled awake.begin
  | between caller phase running awake => exact .between caller phase running awake.begin
  | calling line caller runs phase running awake =>
      exact .calling line caller runs phase running awake.begin
  | finished caller phase awake => exact .finished caller phase awake.begin

omit [DecidableEq T] [DecidableEq V] in
/-- A wake can always go on. The thread that has the lock is itself a wake with an
operation ahead. -/
theorem Fits.wake_enabled (fits : Fits x t v) (hWake : v.wakes u = some a) :
    ∃ r, wakerStep v.cell u a = some r := by
  cases fits with
  | resting stopped counted rests => exact rests.enabled hWake
  | woken state stopped scheduled awake => exact awake.enabled hWake
  | between caller phase running awake => exact awake.enabled hWake
  | calling line caller runs phase running awake => exact awake.enabled hWake
  | finished caller phase awake => exact awake.enabled hWake

/-- What an operation of a wake comes to for the task of the slot: the wake calls the waker of
the task and is over, or the task stays where it is. -/
inductive Wakes (x : SocketId × WakerKind) (t : T) (v : View (V ⊕ SocketId) T) (u : V ⊕ SocketId)
    (a : Waking T) (c : Cell (V ⊕ SocketId) T) : Waking T → Prop where
  | invoked (operation : a = .invoke t) (cell : c = v.cell)
      (fits : Fits x t { v with
        state := (transitionToScheduled v.state).1
        wakes := Function.update v.wakes u none }) : Wakes x t v u a c .idle
  | other (a' : Waking T) (operation : ∀ w, a ≠ .invoke w)
      (fits : Fits x t { v with
        cell := c
        wakes := Function.update v.wakes u (if a' = .idle then none else some a') }) :
      Wakes x t v u a c a'

/-- An operation of a wake: the slot is marked as notified, and the task is either told
by its waker or finds the mark by itself. -/
theorem Fits.wake (fits : Fits x t v)
    (valid : v.cell.state = EMPTY ∨ v.cell.state = UPDATING ∨ v.cell.state = WAITING ∨
      v.cell.state = NOTIFIED)
    (hWake : v.wakes u = some a) (h : wakerStep v.cell u a = some (c, a')) :
    c.state = NOTIFIED ∧ Wakes x t v u a c a' := by
  have hAwake {at_ : AtomicWaker.Poller T} (awake : Awake v.cell t at_ v.wakes)
      (hFits : ∀ wakes, Awake c t at_ wakes → Fits x t { v with cell := c, wakes := wakes }) :
      c.state = NOTIFIED ∧ Wakes x t v u a c a' := by
    obtain ⟨rfl, rfl, hState, awake'⟩ := awake.wake valid hWake h
    exact ⟨hState, .other .idle (by simp) (by simpa using hFits _ awake')⟩
  cases fits with
  | resting stopped counted rests =>
      cases rests.wake hWake h with
      | invoked operation cell state awake =>
          exact ⟨cell ▸ state, .invoked operation cell (.woken v.state stopped rfl awake)⟩
      | resting a' operation state rests' =>
          exact ⟨state, .other a' operation (.resting stopped counted rests')⟩
  | woken state stopped scheduled awake =>
      exact hAwake awake fun _ awake' => .woken state stopped scheduled awake'
  | between caller phase running awake =>
      exact hAwake awake fun _ awake' => .between caller phase running awake'
  | calling line caller runs phase running awake =>
      exact hAwake awake fun _ awake' => .calling line caller runs phase running awake'
  | finished caller phase awake =>
      exact hAwake awake fun _ awake' => .finished caller phase awake'

end Wakes

/-! ## A wake is heard -/

/-- A wake of the slot has not been answered by a `do_io` yet. -/
def View.Hears (v : View (V ⊕ SocketId) T) : Prop :=
  (∃ u, v.wakes u = some .update) ∨ v.cell.Hears (poller v.caller)

/-- A call that goes on does not lose a wake it has not answered, until it reaches
`do_io`. -/
theorem Goes.hears (goes : Goes x (some t) v.cell b f line c b' f' caller)
    (finds : Finds v.cell line) (hears : v.cell.Hears line.poller) : c.Hears (poller caller) := by
  cases goes with
  | load | begin | storePending | complete | storeCompleted | loadBudget | spends | yields | yield | doIo =>
      exact hears.elsewhere (by simp [poller, Line.poller, Line.spend])
  | poll isPending hStep =>
      have hears' := hears.poll finds.facts hStep
      unfold Caller.polled
      split
      · exact hears'.elsewhere (by split <;> simp [poller, Line.poller, Line.spend])
      · exact hears'.elsewhere (by split <;> simp [poller, Line.poller])
      · exact hears'.elsewhere (by simp [poller])
      · exact hears'
  | reset hStep =>
      have hears' := hears.poll finds.facts hStep
      unfold Caller.resetting
      split
      · exact hears'.elsewhere (by simp [poller, Line.poller])
      · exact hears'.elsewhere (by simp [poller])
      · exact hears'

end Yaar.Net.Reactor
