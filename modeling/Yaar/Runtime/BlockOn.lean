import Mathlib.Logic.Function.Basic
import Yaar.Machine.Execution
import Yaar.Runtime.Parker
import Yaar.Runtime.TaskState

/-! One thread in `WorkerContext::block_on` and the threads that wake its future
or give it a worker, one atomic operation or lock operation at a time. What the
thread finds in the run queues, the timers and the network is left open. -/
namespace Yaar.Runtime.BlockOn

open Machine TaskState

/-- Where a call of `poll_unparked` that saw a notification returns to: the
first check of `wait`, the one under the lock of the pool, or a later one. -/
inductive Check where
  | first
  | locked
  | parked
  deriving DecidableEq

/-- Where the thread stands. From `turn` to the end of `park`, `rescheduled`
tells whether `poll_future` found the future notified in this turn. -/
inductive Owner where
  /-- `run`: the first `transition_to_scheduled` -/
  | start
  /-- `poll_future` -/
  | loadState
  | storeRunning
  | pollFuture
  | swapIdle
  | assertNotified
  | storeScheduled
  /-- the rest of `poll`, up to `wait` -/
  | turn (rescheduled : Bool)
  | runTask
  /-- `wait` -/
  | checkFirst (rescheduled : Bool)
  | lockPool (rescheduled : Bool)
  | checkLocked (rescheduled : Bool)
  | pushIdle (rescheduled : Bool)
  | checkThird (rescheduled : Bool)
  /-- `park` -/
  | tryPoll (rescheduled : Bool)
  | swapParked (rescheduled isPolling : Bool)
  | lockMutex (rescheduled : Bool)
  | checkWaiting (rescheduled : Bool)
  | waitFor (rescheduled : Bool)
  | asleep (rescheduled : Bool)
  | relockMutex (rescheduled : Bool)
  | recheckWaiting (rescheduled : Bool)
  | unlockMutex (rescheduled : Bool)
  | select (rescheduled : Bool)
  | swapEmpty (rescheduled isPolling : Bool)
  | unwrapUnparked
  /-- `poll_unparked`: the store of `Empty` -/
  | storeEmpty (check : Check) (workerIndex : Option Nat)
  /-- the end of `wait` -/
  | lockRemove
  | removeIdle
  | woken (workerIndex : Option Nat)
  /-- the last `transition_to_scheduled` of a turn -/
  | schedule
  | finished
  | panicked
  deriving DecidableEq

/-- Where another thread stands: in `wake`, which schedules and then unparks with
no worker, or in `ThreadPool::spawn`, which unparks with one. -/
inductive Waking where
  | idle
  | schedule
  | lockPool (workerIndex : Nat)
  | takeIdle (workerIndex : Nat)
  | unpark (workerIndex : Option Nat)
  | notify (workerIndex : Option Nat)
  | lockMutex (workerIndex : Option Nat)
  | unlockMutex (workerIndex : Option Nat)
  | signal (workerIndex : Option Nat)
  deriving DecidableEq

inductive Holder (T : Type*) where
  | owner
  | waker (t : T)
  deriving DecidableEq

/-- The words and locks of the parker, how often it is in the pool's idle list,
the worker in the thread's context, and whether a waker has been handed out. -/
structure State (T : Type*) where
  task : TaskState
  park : ParkState
  mutex : Option (Holder T)
  pool : Option (Holder T)
  idle : Nat
  worker : Option Nat
  waker : Bool
  owner : Owner
  wakers : T → Waking

/-- What the thread meets where its way depends on more than this state. -/
inductive Choice where
  | ready
  | pending
  | runnable
  | reacquired (workerIndex : Nat)
  | nothing
  | notified
  | network (isPolling : Bool)
  deriving DecidableEq

inductive Event (T : Type*) where
  | owner
  | choose (choice : Choice)
  | wake (t : T)
  | give (t : T) (workerIndex : Nat)
  | waker (t : T)
  deriving DecidableEq

variable {T : Type*}

/-- `poll_unparked` at one of its places: on a notification go on to the store,
else to the given step. -/
def State.pollUnparked (s : State T) (check : Check) (otherwise : Owner) : State T :=
  match s.park with
  | .notified workerIndex => { s with owner := .storeEmpty check workerIndex }
  | _ => { s with owner := otherwise }

/-- The load of `park_waiting`, under the mutex. -/
def State.loadWaiting (s : State T) (waiting notified : Owner) : State T :=
  match s.park with
  | .waiting => { s with owner := waiting }
  | .notified _ => { s with owner := notified }
  | _ => { s with owner := .panicked }

/-- The next operation of the thread, where it does not depend on a choice. -/
def ownerStep (s : State T) : Option (State T) :=
  match s.owner with
  | .start =>
      let (task, scheduled) := transitionToScheduled s.task
      some { s with task := task, owner := if scheduled then .loadState else .panicked }
  | .loadState =>
      match transitionToRunning s.task with
      | some true => some { s with owner := .storeRunning }
      | some false => some { s with owner := .turn false }
      | none => some { s with owner := .panicked }
  | .storeRunning => some { s with task := TASK_RUNNING, waker := true, owner := .pollFuture }
  | .swapIdle =>
      match transitionToIdle s.task with
      | some (task, true) => some { s with task := task, owner := .turn false }
      | some (task, false) => some { s with task := task, owner := .assertNotified }
      | none => some { s with owner := .panicked }
  | .assertNotified =>
      some { s with owner := if s.task = TASK_NOTIFIED then .storeScheduled else .panicked }
  | .storeScheduled => some { s with task := TASK_SCHEDULED, owner := .turn true }
  | .runTask => some { s with owner := .loadState }
  | .checkFirst r => some (s.pollUnparked .first (.lockPool r))
  | .lockPool r =>
      if s.pool = none then some { s with pool := some .owner, owner := .checkLocked r } else none
  | .checkLocked r => some (s.pollUnparked .locked (.pushIdle r))
  | .pushIdle r => some { s with idle := s.idle + 1, pool := none, owner := .checkThird r }
  | .checkThird r => some (s.pollUnparked .parked (.tryPoll r))
  | .swapParked r isPolling =>
      if s.park = .empty then
        some { s with
          park := .parked isPolling
          owner := if isPolling then .select r else .lockMutex r }
      else some { s with owner := .unwrapUnparked }
  | .lockMutex r =>
      if s.mutex = none then some { s with mutex := some .owner, owner := .checkWaiting r } else none
  | .checkWaiting r => some (s.loadWaiting (.waitFor r) (.unlockMutex r))
  | .waitFor r => some { s with mutex := none, owner := .asleep r }
  -- A signal, a timeout or a spurious wakeup; the mutex is taken again.
  | .asleep r => some { s with owner := .relockMutex r }
  | .relockMutex r =>
      if s.mutex = none then some { s with mutex := some .owner, owner := .recheckWaiting r }
      else none
  | .recheckWaiting r => some (s.loadWaiting (.unlockMutex r) (.unlockMutex r))
  | .unlockMutex r => some { s with mutex := none, owner := .swapEmpty r false }
  | .select r => some { s with owner := .swapEmpty r true }
  | .swapEmpty _ isPolling =>
      if s.park = .parked isPolling then some { s with park := .empty, owner := .lockRemove }
      else some { s with owner := .unwrapUnparked }
  | .unwrapUnparked => some (s.pollUnparked .parked .panicked)
  | .storeEmpty check workerIndex =>
      let s := { s with park := .empty }
      match check, workerIndex with
      | .first, _ => some { s with owner := .woken workerIndex }
      | .locked, _ => some { s with pool := none, owner := .woken workerIndex }
      | .parked, some _ => some { s with owner := .woken workerIndex }
      | .parked, none => some { s with owner := .lockRemove }
  | .lockRemove =>
      if s.pool = none then some { s with pool := some .owner, owner := .removeIdle } else none
  | .removeIdle => some { s with idle := s.idle - 1, pool := none, owner := .woken none }
  | .schedule => some { s with task := (transitionToScheduled s.task).1, owner := .loadState }
  | _ => none

/-- A step whose outcome the rest of the runtime decides. -/
def chooseStep (s : State T) (choice : Choice) : Option (State T) :=
  match s.owner, choice with
  | .pollFuture, .ready => some { s with owner := .finished }
  | .pollFuture, .pending => some { s with owner := .swapIdle }
  -- `poll_worker` finds a runnable, or the worker is given back for another one.
  | .turn _, .runnable => if s.worker.isSome then some { s with owner := .runTask } else none
  | .turn _, .reacquired workerIndex =>
      if s.worker.isSome then some { s with worker := some workerIndex, owner := .loadState }
      else none
  | .turn r, .nothing => some { s with worker := none, owner := .checkFirst r }
  | .tryPoll r, .network isPolling => some { s with owner := .swapParked r isPolling }
  | .woken (some workerIndex), .runnable =>
      some { s with worker := some workerIndex, owner := .runTask }
  | .woken (some workerIndex), .nothing =>
      some { s with worker := some workerIndex, owner := .loadState }
  | .woken none, .reacquired workerIndex =>
      some { s with worker := some workerIndex, owner := .woken (some workerIndex) }
  | .woken none, .notified => some { s with owner := .loadState }
  | .woken none, .nothing => some { s with owner := .schedule }
  | _, _ => none

variable [DecidableEq T]

def State.setWaking (s : State T) (t : T) (waking : Waking) : State T :=
  { s with wakers := Function.update s.wakers t waking }

/-- The next operation of another thread. -/
def wakerStep (s : State T) (t : T) : Option (State T) :=
  match s.wakers t with
  | .idle => none
  | .schedule =>
      let (task, scheduled) := transitionToScheduled s.task
      some ({ s with task := task }.setWaking t (if scheduled then .unpark none else .idle))
  | .lockPool workerIndex =>
      if s.pool = none then
        some ({ s with pool := some (.waker t) }.setWaking t (.takeIdle workerIndex))
      else none
  | .takeIdle workerIndex =>
      if 0 < s.idle then
        some ({ s with idle := s.idle - 1, pool := none }.setWaking t (.unpark (some workerIndex)))
      else some ({ s with pool := none }.setWaking t .idle)
  | .unpark workerIndex =>
      match s.park.unpark workerIndex with
      | none => some (s.setWaking t .idle)
      | some park =>
          let waking := match s.park with
            | .polling => Waking.notify workerIndex
            | .waiting => .lockMutex workerIndex
            | _ => .idle
          some ({ s with park := park }.setWaking t waking)
  | .notify _ => some (s.setWaking t .idle)
  | .lockMutex workerIndex =>
      if s.mutex = none then
        some ({ s with mutex := some (.waker t) }.setWaking t (.unlockMutex workerIndex))
      else none
  | .unlockMutex workerIndex => some ({ s with mutex := none }.setWaking t (.signal workerIndex))
  | .signal _ => some (s.setWaking t .idle)

def next (s : State T) : Event T → Option (State T)
  | .owner => ownerStep s
  | .choose choice => chooseStep s choice
  | .wake t =>
      if s.waker ∧ s.wakers t = .idle then some (s.setWaking t .schedule) else none
  | .give t workerIndex =>
      if s.wakers t = .idle then some (s.setWaking t (.lockPool workerIndex)) else none
  | .waker t => wakerStep s t

/-- `block_on` from its call of `run`, with or without a worker. -/
def system (T : Type*) [DecidableEq T] (worker : Option Nat) : System (State T) (Event T) where
  initial := ⟨TASK_IDLE, .empty, none, none, 0, worker, false, .start, fun _ => .idle⟩
  next := next

end Yaar.Runtime.BlockOn
