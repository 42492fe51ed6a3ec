import Mathlib.Logic.Function.Basic
import Yaar.Machine.Execution
import Yaar.Runtime.TaskState

/-! One task of `runtime/internal/task.rs`: its spawn, its runs, the wake calls
made for it and its join handle, one atomic operation or lock operation at a
time. The runtime around it moves the task's runnable between the queues as its
workers do. Failing assertions of the runtime outside `task.rs` are left out. -/
namespace Yaar.Runtime.Task

open Machine TaskState

/-- Where a runnable of the task can be: in a queue of the runtime, or in the
hands of a thread that has taken it to run it or has still to push it. -/
inductive Place (T K : Type*) where
  | injector
  | runQueue (workerIndex : Nat)
  | intercept (t : T)
  | ready (t : T)
  | runner (t : T)
  | waker (k : K)
  | spawner
  deriving DecidableEq

inductive TaskData where
  | pending
  | polling
  /-- the result of the future, or the error of its panic -/
  | ready (error : Bool)
  | joined
  deriving DecidableEq

/-- Where a thread stands in `Task::run`. -/
inductive Runner where
  | idle
  | loadState
  | storeRunning
  | tryLock
  | takeFuture
  | pollFuture
  | storePending
  | unlockPending
  | swapIdle
  | assertNotified
  | storeScheduled
  | push
  | notify
  | storeReady (error : Bool)
  | unlockReady
  | wakeJoin
  | taskComplete
  | panicked
  deriving DecidableEq

/-- Where a call of `wake` or `wake_by_ref` stands, and the thread whose context
it finds. -/
inductive Waking (T : Type*) where
  | idle
  | transition (context : Option T)
  | push (context : Option T)
  | notify
  deriving DecidableEq

inductive Spawner (T : Type*) where
  | transition (context : Option T)
  | push (context : Option T)
  | notify
  | returned
  | panicked
  deriving DecidableEq

/-- Where `poll_join` stands. -/
inductive Joiner where
  | waiting
  | tryLock
  | replaceData
  | unlock (result : Option Bool)
  | joined
  | panicked
  deriving DecidableEq

inductive Holder (T : Type*) where
  | runner (t : T)
  | joiner
  deriving DecidableEq

/-- The task with its runnables, and of each thread's context the intercept
buffer's presence and the producer's worker. `shared` tells whether a waker of
the task exists, `woken` whether `waker.wake()` has taken effect. -/
structure State (T K : Type*) where
  task : TaskState
  data : TaskData
  lock : Option (Holder T)
  refs : List (Place T K)
  intercept : T → Bool
  producer : T → Option Nat
  shared : Bool
  completed : Bool
  woken : Bool
  spawner : Spawner T
  runners : T → Runner
  wakers : K → Waking T
  joiner : Joiner

/-- What a poll of the future returns, a panic included. -/
inductive Outcome where
  | pending
  | ready (error : Bool)
  deriving DecidableEq

inductive Event (T K : Type*) where
  | spawn
  | run (t : T)
  | poll (t : T) (outcome : Outcome)
  | callWake (k : K) (context : Option T)
  | wake (k : K)
  /-- a thread takes a runnable to run it -/
  | take (t : T) (place : Place T K)
  /-- a runnable goes from one queue to another -/
  | move (source target : Place T K)
  | setProducer (t : T) (workerIndex : Option Nat)
  /-- the two ends of `Poller` processing expired timers or events -/
  | beginIntercept (t : T)
  | endIntercept (t : T)
  | join
  deriving DecidableEq

variable {T K : Type*}

/-- The queues a thread takes runnables from. -/
def Place.Serves (t : T) : Place T K → Prop
  | .injector | .runQueue _ => True
  | .ready u => u = t
  | _ => False

/-- `Producer::consume`, `Producer::steal` and `Poller::inject`. -/
def Place.Moves : Place T K → Place T K → Prop
  | .injector, .runQueue _ | .runQueue _, .runQueue _ | .ready _, .injector => True
  | _, _ => False

instance [DecidableEq T] (t : T) (place : Place T K) : Decidable (place.Serves t) := by
  cases place <;> unfold Place.Serves <;> infer_instance

instance (source target : Place T K) : Decidable (source.Moves target) := by
  cases source <;> cases target <;> unfold Place.Moves <;> infer_instance

/-- Where `Executor::schedule` pushes a runnable, given the caller's context. -/
def State.scheduleTarget (s : State T K) : Option T → Place T K
  | none => .injector
  | some t =>
      if s.intercept t then .intercept t
      else match s.producer t with
        | some workerIndex => .runQueue workerIndex
        | none => .injector

section
variable [DecidableEq T] [DecidableEq K]

def State.setRunner (s : State T K) (t : T) (runner : Runner) : State T K :=
  { s with runners := Function.update s.runners t runner }

def State.setWaking (s : State T K) (k : K) (waking : Waking T) : State T K :=
  { s with wakers := Function.update s.wakers k waking }

/-- Move one runnable. -/
def State.move (s : State T K) (source target : Place T K) : State T K :=
  { s with refs := s.refs.replace source target }

def spawnStep (s : State T K) : Option (State T K) :=
  match s.spawner with
  | .transition context =>
      let (task, scheduled) := transitionToScheduled s.task
      if scheduled then
        some { s with task := task, refs := .spawner :: s.refs, spawner := .push context }
      else some { s with task := task, spawner := .panicked }
  | .push context =>
      some { s.move .spawner (s.scheduleTarget context) with spawner := .notify }
  | .notify => some { s with spawner := .returned }
  | .returned | .panicked => none

/-- The next operation of `Task::run`, but for the poll of the future. -/
def runStep (s : State T K) (t : T) : Option (State T K) :=
  match s.runners t with
  | .loadState =>
      match transitionToRunning s.task with
      | some true => some (s.setRunner t .storeRunning)
      -- `assert!(is_running)` and the unreachable branch
      | some false | none => some (s.setRunner t .panicked)
  | .storeRunning =>
      some ({ s with
        task := TASK_RUNNING
        refs := s.refs.erase (.runner t) }.setRunner t .tryLock)
  | .tryLock =>
      if s.lock = none then some ({ s with lock := some (.runner t) }.setRunner t .takeFuture)
      else some (s.setRunner t .panicked)
  | .takeFuture =>
      if s.data = .pending then
        some ({ s with data := .polling, shared := true }.setRunner t .pollFuture)
      else some (s.setRunner t .panicked)
  | .storePending => some ({ s with data := .pending }.setRunner t .unlockPending)
  | .unlockPending => some ({ s with lock := none }.setRunner t .swapIdle)
  | .swapIdle =>
      match transitionToIdle s.task with
      | some (task, true) => some ({ s with task := task }.setRunner t .idle)
      | some (task, false) => some ({ s with task := task }.setRunner t .assertNotified)
      | none => some (s.setRunner t .panicked)
  | .assertNotified =>
      if s.task = TASK_NOTIFIED then some (s.setRunner t .storeScheduled)
      else some (s.setRunner t .panicked)
  | .storeScheduled =>
      some ({ s with task := TASK_SCHEDULED, refs := .runner t :: s.refs }.setRunner t .push)
  | .push => some ((s.move (.runner t) (s.scheduleTarget (some t))).setRunner t .notify)
  | .notify => some (s.setRunner t .idle)
  | .storeReady error => some ({ s with data := .ready error }.setRunner t .unlockReady)
  | .unlockReady => some ({ s with lock := none }.setRunner t .wakeJoin)
  | .wakeJoin => some ({ s with woken := true }.setRunner t .taskComplete)
  | .taskComplete => some (s.setRunner t .idle)
  | .idle | .pollFuture | .panicked => none

def wakeStep (s : State T K) (k : K) : Option (State T K) :=
  match s.wakers k with
  | .idle => none
  | .transition context =>
      let (task, scheduled) := transitionToScheduled s.task
      if scheduled then
        some ({ s with task := task, refs := .waker k :: s.refs }.setWaking k (.push context))
      else some ({ s with task := task }.setWaking k .idle)
  | .push context => some ((s.move (.waker k) (s.scheduleTarget context)).setWaking k .notify)
  | .notify => some (s.setWaking k .idle)

end

/-- `poll_join` once the join waker's `poll` is `Ready`. -/
def joinStep (s : State T K) : Option (State T K) :=
  match s.joiner with
  | .waiting =>
      match s.woken, s.spawner with
      | true, .returned => some { s with joiner := .tryLock }
      | _, _ => none
  | .tryLock =>
      if s.lock = none then some { s with lock := some .joiner, joiner := .replaceData }
      else some { s with joiner := .panicked }
  | .replaceData =>
      let result := match s.data with
        | .ready error => some error
        | _ => none
      some { s with data := .joined, joiner := .unlock result }
  | .unlock result =>
      let joiner := match result with
        | some false => Joiner.joined
        -- `resume_unwind` leaves the handle in place.
        | some true => .waiting
        | none => .panicked
      some { s with lock := none, joiner := joiner }
  | .joined | .panicked => none

variable [DecidableEq T] [DecidableEq K]

def next (s : State T K) : Event T K → Option (State T K)
  | .spawn => spawnStep s
  | .run t => runStep s t
  | .poll t outcome =>
      if s.runners t = .pollFuture then
        match outcome with
        | .pending => some (s.setRunner t .storePending)
        | .ready error => some ({ s with completed := true }.setRunner t (.storeReady error))
      else none
  | .callWake k context =>
      if s.shared ∧ s.wakers k = .idle then some (s.setWaking k (.transition context)) else none
  | .wake k => wakeStep s k
  | .take t place =>
      if s.runners t = .idle ∧ place.Serves t ∧ place ∈ s.refs then
        some ((s.move place (.runner t)).setRunner t .loadState)
      else none
  | .move source target =>
      if source.Moves target ∧ source ∈ s.refs then some (s.move source target) else none
  | .setProducer t workerIndex =>
      some { s with producer := Function.update s.producer t workerIndex }
  | .beginIntercept t =>
      if s.intercept t then none
      else some { s with
        intercept := Function.update s.intercept t true
        refs := s.refs.map fun p => if p = .ready t then .intercept t else p }
  | .endIntercept t =>
      if s.intercept t then
        some { s with
          intercept := Function.update s.intercept t false
          refs := s.refs.map fun p => if p = .intercept t then .ready t else p }
      else none
  | .join => joinStep s

/-- A task from the call of `Task::spawn` on, once `task_begin` has counted it. -/
def system (T K : Type*) [DecidableEq T] [DecidableEq K] (context : Option T) :
    System (State T K) (Event T K) where
  initial := {
    task := TASK_IDLE
    data := .pending
    lock := none
    refs := []
    intercept := fun _ => false
    producer := fun _ => none
    shared := false
    completed := false
    woken := false
    spawner := .transition context
    runners := fun _ => .idle
    wakers := fun _ => .idle
    joiner := .waiting }
  next := next

end Yaar.Runtime.Task
