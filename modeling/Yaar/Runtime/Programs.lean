import Yaar.Machine.Execution
import Yaar.Runtime.TaskState
import Yaar.Sync.AtomicWaker

/-! `spawn`, `yield_now` and `JoinHandle` of `task.rs` over `runtime/internal/task.rs`:
tasks that bring about and await one another, on the threads of one runtime. The threads
take scheduled tasks in any order. A transition of a task's state with what is scheduled
by it, and a section under the lock of its data, are one step; its `AtomicWaker` takes
one atomic operation at a time. -/
namespace Yaar.Runtime.Programs

open Machine TaskState

abbrev TaskId := Nat

inductive TaskError (E : Type) where
  | payload (e : E)
  /-- the assertion in `Task::spawn` -/
  | assertion
  /-- the `expect` of `JoinHandle::poll` -/
  | polledAfterCompletion
  /-- an `unreachable` or a lock that is taken, in `poll_join` -/
  | unreachable
  deriving DecidableEq

/-- `Result<F::Output, TaskError>` -/
abbrev Output (E V : Type) := Except (TaskError E) V

/-- The code of a future. It has its handles in a list with the newest first. -/
inductive Future (E V : Type) where
  | ready (value : V)
  | panic (payload : E)
  | yieldNow (next : Future E V)
  /-- a `spawn` that moves some of the newest handles into the new future -/
  | spawn (future : Future E V) (moved : Nat) (next : Future E V)
  /-- the `await` of a handle -/
  | join (handle : Nat) (next : V → Future E V)

/-- A future between two operations: the code that is left, and the `joinable` of each of
its handles. A number without a handle is as one that has been joined. -/
structure Body (E V : Type) where
  future : Future E V
  handles : List (Option TaskId)

/-- A future inside the poll of a handle. -/
structure Await (E V : Type) where
  task : TaskId
  handle : Nat
  next : V → Future E V
  handles : List (Option TaskId)

variable {T E V : Type}

def Await.body (await : Await E V) : Body E V := ⟨.join await.handle await.next, await.handles⟩

/-- `JoinHandle::poll` leaves `None` behind when it returns. -/
def Await.resume (await : Await E V) (value : V) : Body E V :=
  ⟨await.next value, await.handles.set await.handle none⟩

/-- It is locked as long as it is `polling`. -/
inductive TaskData (E V : Type) where
  | pending (body : Body E V)
  | polling
  | ready (output : Output E V)
  | joined

structure Task (E V : Type) where
  state : TaskState
  waker : AtomicWaker.Cell Unit TaskId
  data : TaskData E V

/-- Where a thread stands in `Task::run`. -/
inductive Line (E V : Type) where
  | toRunning
  | takeFuture
  | poll (body : Body E V)
  /-- `wake_by_ref` in the poll of `yield_now` -/
  | wakeByRef (body : Body E V)
  /-- `poll_join`: its poll of the waker, and what comes after it -/
  | pollJoin (await : Await E V) (at_ : AtomicWaker.Poller TaskId)
  | replaceData (await : Await E V)
  | storePending (body : Body E V)
  | toIdle
  | toScheduled
  | storeReady (output : Output E V)
  | wake (at_ : AtomicWaker.Waking TaskId)
  | taskComplete
  | panicked

/-- `poll_join` after an operation of its poll. -/
def Line.afterPoll (await : Await E V) : AtomicWaker.Poller TaskId → Line E V
  | .idle true => .replaceData await
  | .idle false => .storePending await.body
  | .panicked _ => .storeReady (.error .unreachable)
  | at_ => .pollJoin await at_

/-- `Task::run` after an operation of the wake. -/
def Line.afterWake : AtomicWaker.Waking TaskId → Line E V
  | .idle => .taskComplete
  | .panicked => .panicked
  | at_ => .wake at_

/-- The tasks that have been spawned, those that are scheduled, and the threads with the
task that each of them runs. -/
structure State (T E V : Type) where
  tasks : TaskId → Task E V
  count : Nat
  runnables : List TaskId
  threads : T → Option (TaskId × Line E V)

inductive Event (T : Type) where
  /-- a thread without a task takes one that is scheduled -/
  | take (t : T) (id : TaskId)
  | step (t : T)
  deriving DecidableEq

namespace State

def setTask (s : State T E V) (id : TaskId) (task : Task E V) : State T E V :=
  { s with tasks := Function.update s.tasks id task }

/-- `Wake` of a task, and `schedule`. -/
def wakeTask (s : State T E V) (id : TaskId) : State T E V :=
  let (state, scheduled) := transitionToScheduled (s.tasks id).state
  let s := s.setTask id { s.tasks id with state }
  if scheduled then { s with runnables := id :: s.runnables } else s

/-- `Task::spawn`, with what its assertion is about. -/
def spawn (s : State T E V) (body : Body E V) : State T E V × Bool :=
  let (state, scheduled) := transitionToScheduled TASK_IDLE
  let s := s.setTask s.count { state, waker := ⟨AtomicWaker.new, none⟩, data := .pending body }
  ({ s with count := s.count + 1, runnables := s.count :: s.runnables }, scheduled)

variable [DecidableEq T]

def goto (s : State T E V) (t : T) (id : TaskId) (line : Line E V) : State T E V :=
  { s with threads := Function.update s.threads t (some (id, line)) }

/-- `Task::run` returns. -/
def leave (s : State T E V) (t : T) : State T E V :=
  { s with threads := Function.update s.threads t none }

/-- The next operation of a future in its poll. -/
def pollBody (s : State T E V) (t : T) (id : TaskId) (body : Body E V) : State T E V :=
  match body.future with
  | .ready value => s.goto t id (.storeReady (.ok value))
  | .panic payload => s.goto t id (.storeReady (.error (.payload payload)))
  | .yieldNow next => s.goto t id (.wakeByRef ⟨next, body.handles⟩)
  | .spawn future moved next =>
      let (s', scheduled) := s.spawn ⟨future, body.handles.take moved⟩
      if scheduled then s'.goto t id (.poll ⟨next, some s.count :: body.handles.drop moved⟩)
      else s'.goto t id (.storeReady (.error .assertion))
  | .join handle next =>
      match body.handles.getD handle none with
      | none => s.goto t id (.storeReady (.error .polledAfterCompletion))
      | some task => s.goto t id (.pollJoin ⟨task, handle, next, body.handles⟩ (.loadNotified (some id)))

/-- The next operation of `Task::run`. -/
def step (s : State T E V) (t : T) (id : TaskId) : Line E V → Option (State T E V)
  | .toRunning =>
      match transitionToRunning (s.tasks id).state with
      | some true => some ((s.setTask id { s.tasks id with state := TASK_RUNNING }).goto t id .takeFuture)
      | _ => some (s.goto t id .panicked)
  | .takeFuture =>
      match (s.tasks id).data with
      | .pending body => some ((s.setTask id { s.tasks id with data := .polling }).goto t id (.poll body))
      | _ => some (s.goto t id .panicked)
  | .poll body => some (s.pollBody t id body)
  | .wakeByRef body => some ((s.wakeTask id).goto t id (.storePending body))
  | .pollJoin await at_ =>
      (AtomicWaker.pollerStep (s.tasks await.task).waker at_).map fun (waker, at_) =>
        (s.setTask await.task { s.tasks await.task with waker }).goto t id (.afterPoll await at_)
  | .replaceData await =>
      let s' := s.setTask await.task { s.tasks await.task with data := .joined }
      match (s.tasks await.task).data with
      | .ready (.ok value) => some (s'.goto t id (.poll (await.resume value)))
      -- `resume_unwind`, which `catch_unwind` around the poll gets hold of
      | .ready (.error error) => some (s'.goto t id (.storeReady (.error error)))
      | .polling => some (s.goto t id (.storeReady (.error .unreachable)))
      | _ => some (s'.goto t id (.storeReady (.error .unreachable)))
  | .storePending body =>
      some ((s.setTask id { s.tasks id with data := .pending body }).goto t id .toIdle)
  | .toIdle =>
      match transitionToIdle (s.tasks id).state with
      | some (state, true) => some ((s.setTask id { s.tasks id with state }).leave t)
      | some (state, false) => some ((s.setTask id { s.tasks id with state }).goto t id .toScheduled)
      | none => some (s.goto t id .panicked)
  | .toScheduled =>
      if (s.tasks id).state = TASK_NOTIFIED then
        let s := s.setTask id { s.tasks id with state := TASK_SCHEDULED }
        some ({ s with runnables := id :: s.runnables }.leave t)
      else some (s.goto t id .panicked)
  | .storeReady output =>
      some ((s.setTask id { s.tasks id with data := .ready output }).goto t id (.wake .update))
  | .wake (.invoke woken) => some ((s.wakeTask woken).goto t id .taskComplete)
  | .wake at_ =>
      (AtomicWaker.wakerStep (s.tasks id).waker () at_).map fun (waker, at_) =>
        (s.setTask id { s.tasks id with waker }).goto t id (.afterWake at_)
  | .taskComplete => some (s.leave t)
  | .panicked => none

end State

variable [DecidableEq T]

def next (s : State T E V) : Event T → Option (State T E V)
  | .take t id =>
      if (s.threads t).isNone ∧ id ∈ s.runnables then
        some ({ s with runnables := s.runnables.erase id }.goto t id .toRunning)
      else none
  | .step t => (s.threads t).bind fun (id, line) => s.step t id line

/-- A runtime that has spawned one future. -/
def system (T : Type) [DecidableEq T] (main : Future E V) : System (State T E V) (Event T) where
  initial := (State.spawn ⟨fun _ => ⟨TASK_IDLE, ⟨AtomicWaker.new, none⟩, .joined⟩, 0, [], fun _ => none⟩
    ⟨main, []⟩).1
  next := next

/-- What a future comes to when each task it spawns is run to its end at once. It has what
the tasks of its handles come to. -/
def Future.meaning : Future E V → List (Option (Output E V)) → Output E V
  | .ready value, _ => .ok value
  | .panic payload, _ => .error (.payload payload)
  | .yieldNow next, outputs => next.meaning outputs
  | .spawn future moved next, outputs =>
      next.meaning (some (future.meaning (outputs.take moved)) :: outputs.drop moved)
  | .join handle next, outputs =>
      match outputs.getD handle none with
      | none => .error .polledAfterCompletion
      | some (.error error) => .error error
      | some (.ok value) => (next value).meaning (outputs.set handle none)

end Yaar.Runtime.Programs
