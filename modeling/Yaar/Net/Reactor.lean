import Yaar.Net.PollIoBudget
import Yaar.Runtime.TaskState

/-! Tasks that operate on sockets by `poll_io`: each of them uses one kind of a socket, and is
polled by the executor when its waker has been called. The selector is edge-triggered: it has
an event for a task from when the operation of the task comes to be possible on, until a
thread polls it. -/
namespace Yaar.Net.Reactor

open Machine Yaar.Runtime Yaar.Runtime.TaskState

/-- The operating system's side of the sockets, with what the tasks have still to do. The
sizes of reads and writes are its choice. -/
structure Device (T D E : Type*) where
  /-- an operation of the task does not block -/
  ready : D → T → Bool
  /-- the task has another operation to do -/
  goesOn : D → T → Bool
  operate : D → T → Nat → Option D
  /-- the task has no operation left and returns -/
  finish : D → T → D
  /-- what the network does by itself -/
  outside : D → E → Option D
  able : ∀ d t, goesOn d t = true → ready d t = true → ∃ n, (operate d t n).isSome
  operate_others : ∀ d t n d' u, operate d t n = some d' → u ≠ t → goesOn d' u = goesOn d u
  finish_others : ∀ d t u, u ≠ t → goesOn (finish d t) u = goesOn d u
  outside_others : ∀ d e d' u, outside d e = some d' → goesOn d' u = goesOn d u

/-- The tasks, with the socket and the kind that each of them uses. -/
structure Program (T D E : Type*) where
  pair : T → SocketId × WakerKind
  apart : Function.Injective pair
  device : Device T D E

/-- Where a task stands for the thread that polls it. -/
inductive Phase where
  /-- nobody polls it -/
  | away
  | inside
  /-- its future has returned `Pending` -/
  | pending
  | done
  deriving DecidableEq

/-- The events that the selector has are `raised`; threads `V` take them in batches and
process these one by one. `failed` is an unreachable branch of a task's state. -/
structure State (T V D : Type*) where
  io : PollIo.State T V T
  tasks : T → TaskState
  phases : T → Phase
  device : D
  raised : T → Bool
  batches : V → List T
  failed : Bool

inductive Event (T V E : Type*) where
  /-- a worker takes the scheduled task and polls it -/
  | run (t : T)
  /-- the task calls `poll_io` -/
  | call (t : T)
  /-- the task returns -/
  | finish (t : T)
  /-- the next operation of its `poll_io` -/
  | step (t : T)
  /-- what `run` does after a `Pending` -/
  | leave (t : T)
  /-- `do_io` succeeds, or fails but for the reasons below -/
  | operate (t : T) (n : Nat)
  | wouldBlock (t : T)
  | interrupt (t : T)
  /-- a thread polls the selector -/
  | select (v : V) (ts : List T)
  /-- a thread gets an event for which nothing has happened -/
  | spurious (v : V) (t : T)
  /-- the next event of the thread's batch -/
  | process (v : V)
  /-- the next operation of a wake -/
  | waker (v : V)
  | outside (e : E)
  deriving DecidableEq

variable {T V D E : Type*}

/-- A call that is about to `wake_by_ref` and return. -/
def yields : PollIo.Caller T → Bool
  | .call _ _ _ .yield => true
  | _ => false

namespace State

variable [DecidableEq T]

def setPhase (s : State T V D) (t : T) (phase : Phase) : State T V D :=
  { s with phases := Function.update s.phases t phase }

def setTask (s : State T V D) (t : T) (state : TaskState) : State T V D :=
  { s with tasks := Function.update s.tasks t state }

/-- `Wake` of a task. A task that is scheduled waits to be run. -/
def wakeTask (s : State T V D) (t : T) : State T V D :=
  s.setTask t (transitionToScheduled (s.tasks t)).1

def setBatch [DecidableEq V] (s : State T V D) (v : V) (batch : List T) : State T V D :=
  { s with batches := Function.update s.batches v batch }

omit [DecidableEq T] in
/-- The edges of a change. -/
def post (s : State T V D) (device : Device T D E) (d : D) : State T V D :=
  { s with
    device := d
    raised := fun t => s.raised t || device.ready d t && !device.ready s.device t }

/-- A call that is over has returned `Pending`. -/
def stepped (s : State T V D) (t : T) (io : PollIo.State T V T) : State T V D :=
  match io.callers t with
  | .idle => (if yields (s.io.callers t) then { s with io := io }.wakeTask t
      else { s with io := io }).setPhase t .pending
  | _ => { s with io := io }

/-- A wake that has called its waker. -/
def woken (s : State T V D) (wake : Option (PollIo.Wake T)) (io : PollIo.State T V T) : State T V D :=
  match wake with
  | some ⟨_, _, .invoke t⟩ => { s with io := io }.wakeTask t
  | _ => { s with io := io }

end State

section Machine

variable [Fintype T] [DecidableEq T] [DecidableEq V]

def next (L : Layout) (prog : Program T D E) (s : State T V D) : Event T V E → Option (State T V D)
  | .run t =>
      match s.phases t, transitionToRunning (s.tasks t) with
      | .away, some true => some ((s.setTask t TASK_RUNNING).setPhase t .inside)
      | _, _ => none
  | .call t =>
      if s.phases t = .inside ∧ prog.device.goesOn s.device t = true then
        (PollIo.next L s.io (.call t (prog.pair t).1 (prog.pair t).2 (some t))).map
          fun io => { s with io := io }
      else none
  | .finish t =>
      if s.phases t = .inside ∧ s.io.callers t = .idle ∧ prog.device.goesOn s.device t = false then
        some ((s.post prog.device (prog.device.finish s.device t)).setPhase t .done)
      else none
  | .step t => (PollIo.next L s.io (.step t)).map (s.stepped t)
  | .leave t =>
      match s.phases t, transitionToIdle (s.tasks t) with
      | .pending, some (state, true) => some ((s.setTask t state).setPhase t .away)
      | .pending, some (_, false) => some ((s.setTask t TASK_SCHEDULED).setPhase t .away)
      | .pending, none => some { s with failed := true }
      | _, _ => none
  | .operate t n =>
      (prog.device.operate s.device t n).bind fun d =>
        (PollIo.next L s.io (.doIo t .other)).map fun io => { s with io := io }.post prog.device d
  | .wouldBlock t =>
      if prog.device.ready s.device t = false then
        (PollIo.next L s.io (.doIo t .wouldBlock)).map fun io => { s with io := io }
      else none
  | .interrupt t => (PollIo.next L s.io (.doIo t .interrupted)).map fun io => { s with io := io }
  | .select v ts =>
      -- `try_poll` looks at the count of pending I/O.
      if s.io.pending ≠ 0 ∧ s.batches v = [] ∧ (s.io.wakes (.inl v)).isNone ∧ ts ≠ [] ∧ ts.Nodup ∧
          ∀ t ∈ ts, s.raised t = true then
        some ({ s with raised := fun t => s.raised t && decide (t ∉ ts) }.setBatch v ts)
      else none
  | .spurious v t => some (s.setBatch v (s.batches v ++ [t]))
  | .process v =>
      match s.batches v with
      | [] => none
      | t :: rest =>
          match s.io.sockets (prog.pair t).1 with
          | .live p => (PollIo.next L s.io (.wake v p.index (prog.pair t).2)).map
              fun io => { s with io := io }.setBatch v rest
          | _ => none
  | .waker v => (PollIo.next L s.io (.waker (.inl v))).map (s.woken (s.io.wakes (.inl v)))
  | .outside e => (prog.device.outside s.device e).map (s.post prog.device)

def system (L : Layout) (prog : Program T D E) (start : State T V D) :
    System (State T V D) (Event T V E) where
  initial := start
  next := next L prog

variable {L : Layout} {prog : Program T D E} {s s' : State T V D} {t : T} {v : V}

/-- A task that is run was scheduled and with no thread. Its state is not `Completed`,
so the unreachable branch of `transition_to_running` is not taken. -/
theorem next_run (h : next L prog s (.run t) = some s') :
    s.phases t = .away ∧ transitionToRunning (s.tasks t) = some true ∧
      s' = (s.setTask t TASK_RUNNING).setPhase t .inside := by
  simp only [next] at h
  split at h
  · next hPhase hRunning => exact ⟨hPhase, hRunning, (Option.some.inj h).symm⟩
  · cases h

/-- A task calls `poll_io` where it is polled and has an operation to do. It passes its
own waker. -/
theorem next_call (h : next L prog s (.call t) = some s') :
    s.phases t = .inside ∧ prog.device.goesOn s.device t = true ∧
      ∃ io, PollIo.next L s.io (.call t (prog.pair t).1 (prog.pair t).2 (some t)) = some io ∧
        s' = { s with io := io } := by
  simp only [next] at h
  split at h
  · next hGuard =>
      obtain ⟨io, hIo, rfl⟩ := Option.map_eq_some_iff.mp h
      exact ⟨hGuard.1, hGuard.2, io, hIo, rfl⟩
  · cases h

/-- A task returns between two calls, when it has no operation left. What it does then
may let others go on. -/
theorem next_finish (h : next L prog s (.finish t) = some s') :
    s.phases t = .inside ∧ s.io.callers t = .idle ∧ prog.device.goesOn s.device t = false ∧
      s' = (s.post prog.device (prog.device.finish s.device t)).setPhase t .done := by
  simp only [next] at h
  split at h
  · next hGuard => exact ⟨hGuard.1, hGuard.2.1, hGuard.2.2, (Option.some.inj h).symm⟩
  · cases h

theorem next_step (h : next L prog s (.step t) = some s') :
    ∃ io, PollIo.next L s.io (.step t) = some io ∧ s' = s.stepped t io := by
  obtain ⟨io, hIo, rfl⟩ := Option.map_eq_some_iff.mp h
  exact ⟨io, hIo, rfl⟩

/-- After a `Pending` the task comes to be idle, or is scheduled again if it has been
woken. The third case is the unreachable branch. -/
theorem next_leave (h : next L prog s (.leave t) = some s') : s.phases t = .pending ∧
    ((∃ state answer, transitionToIdle (s.tasks t) = some (state, answer) ∧
        s' = (s.setTask t (if answer then state else TASK_SCHEDULED)).setPhase t .away) ∨
      transitionToIdle (s.tasks t) = none ∧ s' = { s with failed := true }) := by
  cases hPhase : s.phases t with
  | pending =>
      refine ⟨rfl, ?_⟩
      cases hIdle : transitionToIdle (s.tasks t) with
      | none =>
          simp only [next, hPhase, hIdle] at h
          exact .inr ⟨rfl, (Option.some.inj h).symm⟩
      | some r =>
          obtain ⟨state, answer⟩ := r
          refine .inl ⟨state, answer, rfl, ?_⟩
          cases answer <;>
          · simp only [next, hPhase, hIdle] at h
            exact (Option.some.inj h).symm
  | away | inside | done => simp [next, hPhase] at h

/-- The operating system does the operation, and the edges that it makes are posted to
the selector. -/
theorem next_operate {n : Nat} (h : next L prog s (.operate t n) = some s') :
    ∃ d io, prog.device.operate s.device t n = some d ∧
      PollIo.next L s.io (.doIo t .other) = some io ∧
      s' = { s with io := io }.post prog.device d := by
  obtain ⟨d, hDevice, h⟩ := Option.bind_eq_some_iff.mp h
  obtain ⟨io, hIo, rfl⟩ := Option.map_eq_some_iff.mp h
  exact ⟨d, io, hDevice, hIo, rfl⟩

/-- The operation would block only where the task is not ready. No edge can be lost
between the two. -/
theorem next_wouldBlock (h : next L prog s (.wouldBlock t) = some s') :
    prog.device.ready s.device t = false ∧
      ∃ io, PollIo.next L s.io (.doIo t .wouldBlock) = some io ∧ s' = { s with io := io } := by
  simp only [next] at h
  split at h
  · next hReady =>
      obtain ⟨io, hIo, rfl⟩ := Option.map_eq_some_iff.mp h
      exact ⟨hReady, io, hIo, rfl⟩
  · cases h

theorem next_interrupt (h : next L prog s (.interrupt t) = some s') :
    ∃ io, PollIo.next L s.io (.doIo t .interrupted) = some io ∧ s' = { s with io := io } := by
  obtain ⟨io, hIo, rfl⟩ := Option.map_eq_some_iff.mp h
  exact ⟨io, hIo, rfl⟩

/-- A thread takes events that have been raised, and it has dealt with those it took
before. -/
theorem next_select {ts : List T} (h : next L prog s (.select v ts) = some s') :
    s.batches v = [] ∧ ts ≠ [] ∧ ts.Nodup ∧ (∀ t ∈ ts, s.raised t = true) ∧
      s' = { s with raised := fun t => s.raised t && decide (t ∉ ts) }.setBatch v ts := by
  simp only [next] at h
  split at h
  · next hGuard =>
      obtain ⟨-, hEmpty, -, hSome, hNodup, hRaised⟩ := hGuard
      exact ⟨hEmpty, hSome, hNodup, hRaised, (Option.some.inj h).symm⟩
  · cases h

/-- The first event of the batch is dealt with: its wake begins in the slot that the
socket of the task has now. -/
theorem next_process (h : next L prog s (.process v) = some s') :
    ∃ t rest p io, s.batches v = t :: rest ∧ s.io.sockets (prog.pair t).1 = .live p ∧
      PollIo.next L s.io (.wake v p.index (prog.pair t).2) = some io ∧
      s' = { s with io := io }.setBatch v rest := by
  simp only [next] at h
  split at h
  · cases h
  · next t rest hBatch =>
      split at h
      · next p hLive =>
          obtain ⟨io, hIo, rfl⟩ := Option.map_eq_some_iff.mp h
          exact ⟨t, rest, p, io, hBatch, hLive, hIo, rfl⟩
      · cases h

/-- An operation of a wake. If it calls the waker, the task is scheduled in the same
step. -/
theorem next_waker (h : next L prog s (.waker v) = some s') :
    ∃ io, PollIo.next L s.io (.waker (.inl v)) = some io ∧ s' = s.woken (s.io.wakes (.inl v)) io := by
  obtain ⟨io, hIo, rfl⟩ := Option.map_eq_some_iff.mp h
  exact ⟨io, hIo, rfl⟩

/-- What the network does is seen in the device and in the edges only. -/
theorem next_outside {e : E} (h : next L prog s (.outside e) = some s') :
    ∃ d, prog.device.outside s.device e = some d ∧ s' = s.post prog.device d := by
  obtain ⟨d, hDevice, rfl⟩ := Option.map_eq_some_iff.mp h
  exact ⟨d, hDevice, rfl⟩

end Machine

end Yaar.Net.Reactor
