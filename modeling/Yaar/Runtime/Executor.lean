import Mathlib.Logic.Function.Basic
import Yaar.Data.SwapRemove
import Yaar.Machine.Execution
import Yaar.Runtime.Parker

/-! The threads of one runtime: `runtime/internal/executor.rs`, the loop of
`worker.rs` and `thread_pool.rs`, one atomic operation or lock section at a
time. Runnables and the deadlines of timers are counted, and what a future, a
task or the network does is left open. `block_on` is not called from within the
runtime, and `running` stays `true`: `task_complete` tests the count its
assertion has just found non-zero. -/
namespace Yaar.Runtime.Executor

open Machine

/-- The callers of `search_retry`: `block_on`, the recheck after
`transition_to_idle`, and the end of `wait`, with the runnables found in it. -/
inductive Caller where
  | entry
  | recheck
  | woken (ready : Nat)
  deriving DecidableEq

/-- Where a thread stands. A line inside `inject` or `notify` carries the line to
return to. -/
inductive Pc (T : Type*) where
  | outside
  /-- `search_retry` -/
  | retryLoad (caller : Caller)
  | retryPop (caller : Caller)
  | retryAdd (caller : Caller) (workerIndex : Nat)
  | retryAdded (caller : Caller) (workerIndex searching : Nat)
  /-- `transition_to_running` -/
  | resume (workerIndex : Nat) (next : Pc T)
  | lockTake (workerIndex : Nat) (next : Pc T)
  | swapTake (workerIndex : Nat) (next : Pc T)
  /-- a turn of the loop in `poll` -/
  | turn
  | future
  | rest
  /-- `poll_worker` -/
  | work
  | pollIo (next : Pc T)
  | lockIo (next : Pc T)
  | polling (next : Pc T)
  | ownTimers
  | expire (queue : Nat) (next : Pc T)
  | popLocal
  | beginLoad
  | beginAdd
  | beginAdded (searching : Nat)
  | search
  /-- `transition_to_idle` and `search_failed` -/
  | giveBack (ended : Bool)
  | lockPut (workerIndex : Nat) (ended : Bool)
  | swapPut (workerIndex : Nat) (ended : Bool)
  | failPush (workerIndex : Nat) (wasSearching ended : Bool)
  | failSub (ended : Bool)
  | failCheck (ended : Bool)
  /-- `run`, with what `poll` has returned -/
  | found
  | finish
  | discover (next : Pc T)
  | task
  | ending
  | leave
  /-- `inject` and `notify` -/
  | push (ready : Nat) (next : Pc T)
  | notifyLoad (next : Pc T)
  | notifySearching (next : Pc T)
  | notifySwap (next : Pc T)
  | notifyPending (next : Pc T)
  | notifyPop (next : Pc T)
  | spawn (workerIndex : Nat) (next : Pc T)
  | unpark (workerIndex : Nat) (parker : T) (next : Pc T)
  | create (workerIndex : Nat) (next : Pc T)
  | spawnFailed (workerIndex : Nat) (next : Pc T)
  | notifyPush (workerIndex : Nat) (next : Pc T)
  | notifySub (next : Pc T)
  /-- `wait` and `park` -/
  | waitFirst
  | waitLocked
  | waitThird
  | tryPoll
  | lockPoll
  | swapParked (isPolling : Bool)
  | parked (isPolling : Bool)
  | swapEmpty (isPolling : Bool) (ready : Nat)
  | unwrapUnparked (ready : Nat) (guarded : Bool)
  | dropGuard (next : Pc T)
  | remove (ready : Nat)
  | woken (ready : Nat)
  | taken (workerIndex ready : Nat)
  | alone (ready : Nat)
  /-- a failed assertion, with the line it unwinds from -/
  | panicked (line : Pc T)
  deriving DecidableEq

/-- A thread with its context's worker and whether its context has a producer, the
flag of its `WorkerContext`, the state of its parker, and the clock and timeout of
its turn. `pooled` threads are those of the pool. -/
structure Thread (T : Type*) where
  pc : Pc T
  worker : Option Nat
  producer : Bool
  searching : Bool
  park : ParkState
  now : Option Nat
  timeout : Option Nat
  pooled : Bool
  deriving DecidableEq

/-- The idle queue with its last index first; of each worker the number of its
runnables, whether its run queue has the producer, the lock around that, and the
deadlines and current time of its timer queue; and of the network the count of
pending operations and the lock of the selector. -/
structure State (T : Type*) where
  pending : Bool
  idle : List Nat
  searching : Nat
  injector : Nat
  queues : Nat → Nat
  producers : Nat → Bool
  locks : Nat → Bool
  timers : Nat → List Nat
  currents : Nat → Nat
  clock : Nat
  ioPending : Nat
  selector : Bool
  parkers : List T
  spawned : Nat
  threads : T → Thread T

/-- What the rest of the program and the operating system decide. -/
inductive Choice (T : Type*) where
  /-- `poll_future` polls, or finds the future not scheduled -/
  | poll
  | skip
  /-- the outcome of the poll of the future, or the end of the task -/
  | pending
  | ready
  /-- user code schedules a runnable, sets a timer or drops one, or has an
  operation of the network become pending or complete -/
  | schedule
  | sleep (queue deadline : Nat)
  | drop (queue deadline : Nat)
  | ioBegin
  | ioComplete
  /-- `poll_worker` -/
  | io
  | polled (ready : Nat)
  | consume (batch : Nat)
  | steal (queue batch : Nat)
  | timers (queue : Nat)
  | expired (ready : Nat)
  | next
  /-- the new thread, or the error of its creation -/
  | create (t : T)
  | error
  /-- a parked thread wakes up -/
  | wake (ready : Nat)
  deriving DecidableEq

inductive Event (T : Type*) where
  | step (t : T)
  | choose (t : T) (choice : Choice T)
  | blockOn (t : T)
  /-- `wake` of the parker of a future -/
  | wake (t : T)
  | tick (milliseconds : Nat)
  deriving DecidableEq

variable {T : Type*}

/-- Where `search_retry` returns `None` to, and where `Some`. -/
def Caller.none : Caller → Pc T
  | .entry => .turn
  | .recheck => .waitFirst
  | .woken ready => .alone ready

def Caller.some (workerIndex : Nat) : Caller → Pc T
  | .entry | .recheck => .resume workerIndex .turn
  | .woken ready => .taken workerIndex ready

/-- `pop_and_inject`: with a runnable in the buffer go on with it, once the
others are injected. -/
def popAndInject (ready : Nat) (none some : Pc T) : Pc T :=
  match ready with
  | 0 => none
  | 1 => some
  | ready + 2 => .push (ready + 1) some

/-- The earliest deadline of a timer queue. -/
def earliest (deadlines : List Nat) : Option Nat := deadlines.min?

/-- The update of `timeout` in `poll_timers`. -/
def Thread.wait (th : Thread T) (duration : Nat) : Thread T :=
  { th with timeout := some (th.timeout.elim duration (min duration)) }

section
variable [DecidableEq T]

def State.setThread (s : State T) (t : T) (th : Thread T) : State T :=
  { s with threads := Function.update s.threads t th }

def State.goto (s : State T) (t : T) (pc : Pc T) : State T :=
  s.setThread t { s.threads t with pc := pc }

/-- `poll_unparked` at one of its places: with a notification go to one of two
lines, else to a third. -/
def State.pollUnparked (s : State T) (t : T) (taken : Nat → Pc T) (woken otherwise : Pc T) :
    State T :=
  let th := s.threads t
  match th.park with
  | .notified (some workerIndex) => s.setThread t { th with park := .empty, pc := taken workerIndex }
  | .notified none => s.setThread t { th with park := .empty, pc := woken }
  | _ => s.goto t otherwise

/-- `Poller::poll_timers` on one queue, up to `timer_queue.poll`. -/
def State.pollTimers (s : State T) (t : T) (queue : Nat) (next : Pc T) : State T :=
  let th := s.threads t
  match earliest (s.timers queue) with
  | none => s.goto t next
  | some expires =>
      let now := th.now.getD s.clock
      let th := { th with now := some now }
      if now < expires then s.setThread t { th.wait (expires - now) with pc := next }
      else s.setThread t { th with pc := .expire queue next }

/-- `fetch_sub` of the counter with its assertions, and where to go on from the
last token and from another. -/
def State.fetchSub (s : State T) (W : Nat) (t : T) (last other panic : Pc T) : State T :=
  { s with searching := s.searching - 1 }.goto t
    (if W < s.searching ∨ s.searching = 0 then .panicked panic
    else if s.searching = 1 then last else other)

/-- `try_lock().unwrap()` of a run queue's producer. -/
def State.lockProducer (s : State T) (t : T) (workerIndex : Nat) (next : Pc T) : State T :=
  if s.locks workerIndex then s.goto t (.panicked next)
  else { s with locks := Function.update s.locks workerIndex true }.goto t next

/-- `swap_producer(None)` under the lock: the producer goes to the context. -/
def State.takeProducer (s : State T) (t : T) (workerIndex : Nat) (next : Pc T) : State T :=
  let th := s.threads t
  { s with
    producers := Function.update s.producers workerIndex false
    locks := Function.update s.locks workerIndex false }.setThread t
      (if s.producers workerIndex ∧ th.producer = false then { th with producer := true, pc := next }
      else { th with pc := .panicked next })

/-- `swap_producer(Some(producer))` under the lock, and the rest of
`transition_to_idle` up to `search_failed`. -/
def State.putProducer (s : State T) (t : T) (workerIndex : Nat) (ended : Bool) : State T :=
  let th := s.threads t
  { s with
    producers := Function.update s.producers workerIndex true
    locks := Function.update s.locks workerIndex false }.setThread t
      (if s.producers workerIndex = false ∧ th.worker = some workerIndex then
        { th with
          worker := none
          searching := false
          pc := .failPush workerIndex th.searching ended }
      else { th with pc := .panicked (.swapPut workerIndex ended) })

/-- `IdleQueue::push`. -/
def State.pushIdle (s : State T) (workerIndex : Nat) : State T :=
  { s with idle := workerIndex :: s.idle, pending := true }

/-- The lock section of `IdleQueue::pop`, and where to go on without and with a
worker. -/
def State.popIdle (s : State T) (t : T) (none : Pc T) (some : Nat → Pc T) : State T :=
  match s.idle with
  | [] => s.goto t none
  | [workerIndex] => { s with idle := [], pending := false }.goto t (some workerIndex)
  | workerIndex :: rest => { s with idle := rest }.goto t (some workerIndex)

/-- `unpark(Some(worker_index))`, tried again with another parker when the
thread was not parked. -/
def State.unpark (s : State T) (t u : T) (workerIndex : Nat) (next : Pc T) : State T :=
  match (s.threads u).park.unpark (some workerIndex) with
  | none => s.goto t (.spawn workerIndex next)
  | some park => (s.setThread u { s.threads u with park := park }).goto t next

/-- The next operation of a thread, where nothing outside decides it. -/
def step (W maxThreads : Nat) (s : State T) (t : T) : Option (State T) :=
  let th := s.threads t
  match th.pc with
  | .retryLoad caller => some (s.goto t (if s.pending then .retryPop caller else caller.none))
  | .retryPop caller => some (s.popIdle t caller.none (.retryAdd caller))
  | .retryAdd caller i =>
      some ({ s with searching := s.searching + 1 }.goto t (.retryAdded caller i s.searching))
  | .retryAdded caller i searching =>
      some (s.goto t (if searching < W then caller.some i
        else .panicked (.retryAdded caller i searching)))
  | .resume i next =>
      some (s.setThread t (if th.worker = none ∧ th.searching = false then
        { th with worker := some i, searching := true, pc := .lockTake i next }
        else { th with pc := .panicked (.resume i next) }))
  | .lockTake i next => some (s.lockProducer t i (.swapTake i next))
  | .swapTake i next => some (s.takeProducer t i next)
  | .rest =>
      some (s.goto t (if th.worker.isSome then if th.producer then .work else .panicked .rest
        else .waitFirst))
  | .pollIo next => some (s.goto t (if s.ioPending = 0 then next else .lockIo next))
  | .lockIo next =>
      some (if s.selector then s.goto t next else { s with selector := true }.goto t (.polling next))
  | .ownTimers => th.worker.map fun i => s.pollTimers t i .popLocal
  | .popLocal =>
      th.worker.map fun i =>
        if 0 < s.queues i then
          { s with queues := Function.update s.queues i (s.queues i - 1) }.goto t .found
        else s.goto t (if th.searching then .search else .beginLoad)
  | .beginLoad =>
      some (s.goto t (if W < s.searching then .panicked .beginLoad
        else if W ≤ 2 * s.searching then .giveBack false else .beginAdd))
  | .beginAdd =>
      some ({ s with searching := s.searching + 1 }.goto t (.beginAdded s.searching))
  | .beginAdded searching =>
      some (if searching < W then s.setThread t { th with searching := true, pc := .search }
        else s.goto t (.panicked (.beginAdded searching)))
  | .giveBack ended =>
      th.worker.map fun i =>
        if th.producer then s.setThread t { th with producer := false, pc := .lockPut i ended }
        else s.goto t (.panicked (.giveBack ended))
  | .lockPut i ended => some (s.lockProducer t i (.swapPut i ended))
  | .swapPut i ended => some (s.putProducer t i ended)
  | .failPush i wasSearching ended =>
      some (if W < i then s.goto t (.panicked (.failPush i wasSearching ended))
        else (s.pushIdle i).goto t (if wasSearching then .failSub ended
          else if ended then .leave else .waitFirst))
  | .failSub ended =>
      some (s.fetchSub W t (.failCheck ended) (if ended then .leave else .waitFirst) .leave)
  | .failCheck ended =>
      some (s.goto t (if 0 < s.injector then
        if ended then .notifyLoad .leave else .retryLoad .recheck
        else if ended then .leave else .waitFirst))
  | .found =>
      some (if th.searching then s.setThread t { th with searching := false, pc := .discover .task }
        else s.goto t .task)
  | .finish =>
      some (if th.searching then
        s.setThread t { th with searching := false, pc := .discover .ending }
        else s.goto t .ending)
  | .discover next => some (s.fetchSub W t (.notifyLoad next) next next)
  | .ending => some (s.goto t (if th.worker.isSome then .giveBack true else .leave))
  | .leave =>
      let s := if th.pooled then { s with spawned := s.spawned - 1 } else s
      some (s.setThread t { th with pc := .outside, pooled := false, park := .empty })
  | .push ready next =>
      match ready with
      | 0 => some (s.goto t (.notifyLoad next))
      | ready + 1 => some ({ s with injector := s.injector + 1 }.goto t (.push ready next))
  | .notifyLoad next => some (s.goto t (if s.pending then .notifySearching next else next))
  | .notifySearching next =>
      some (s.goto t (if W < s.searching then .panicked next
        else if 0 < s.searching then next else .notifySwap next))
  | .notifySwap next =>
      if s.searching = 0 then some ({ s with searching := 1 }.goto t (.notifyPending next))
      else some (s.goto t (if W < s.searching then .panicked next else next))
  | .notifyPending next =>
      some (s.goto t (if s.pending then .notifyPop next else .notifySub next))
  | .notifyPop next => some (s.popIdle t (.notifySub next) (.spawn · next))
  | .spawn i next =>
      match s.parkers with
      | u :: _ => some ({ s with parkers := swapRemove s.parkers 0 }.goto t (.unpark i u next))
      | [] =>
          if maxThreads < s.spawned then some (s.goto t (.panicked (.spawn i next)))
          else if s.spawned = maxThreads then some (s.goto t (.notifyPush i next))
          else some ({ s with spawned := s.spawned + 1 }.goto t (.create i next))
  | .unpark i u next => some (s.unpark t u i next)
  | .spawnFailed i next =>
      some ({ s with spawned := s.spawned - 1 }.goto t (.notifyPush i next))
  | .notifyPush i next => some ((s.pushIdle i).goto t (.notifySub next))
  | .notifySub next => some (s.fetchSub W t next next next)
  | .waitFirst => some (s.pollUnparked t (.taken · 0) (.woken 0) .waitLocked)
  | .waitLocked =>
      match th.park with
      | .notified _ => some (s.pollUnparked t (.taken · 0) (.woken 0) .waitThird)
      | _ => some ({ s with parkers := s.parkers ++ [t] }.goto t .waitThird)
  | .waitThird => some (s.pollUnparked t (.taken · 0) (.remove 0) .tryPoll)
  | .tryPoll => some (s.goto t (if s.ioPending = 0 then .swapParked false else .lockPoll))
  | .lockPoll =>
      some (if s.selector then s.goto t (.swapParked false)
        else { s with selector := true }.goto t (.swapParked true))
  | .swapParked isPolling =>
      if th.park = .empty then
        some (s.setThread t { th with park := .parked isPolling, pc := .parked isPolling })
      else some (s.goto t (.unwrapUnparked 0 isPolling))
  | .swapEmpty isPolling ready =>
      if th.park = .parked isPolling then
        some (s.setThread t { th with park := .empty, pc := .remove ready })
      else some (s.goto t (.unwrapUnparked ready false))
  | .unwrapUnparked ready guarded =>
      let drop := fun next => if guarded then Pc.dropGuard next else next
      some (s.pollUnparked t (fun i => drop (.taken i ready)) (drop (.remove ready))
        (.panicked (.unwrapUnparked ready guarded)))
  | .dropGuard next => some ({ s with selector := false }.goto t next)
  | .remove ready =>
      let parkers := if t ∈ s.parkers then swapRemove s.parkers (s.parkers.idxOf t) else s.parkers
      some ({ s with parkers := parkers }.goto t (.woken ready))
  | .woken ready =>
      some (s.goto t (if 0 < ready ∨ th.timeout.isSome then .retryLoad (.woken ready)
        else .alone ready))
  | .taken i ready => some (s.goto t (popAndInject ready (.resume i .turn) (.resume i .found)))
  | .alone ready => some (s.goto t (if ready = 0 then .turn else .push ready .turn))
  | _ => none

/-- The worker whose queue the context's producer pushes to. -/
def Thread.produces (th : Thread T) : Option Nat :=
  if th.producer then th.worker else none

/-- `Executor::schedule` in user code. -/
def State.schedule (s : State T) (t : T) : State T :=
  match (s.threads t).produces with
  | some i =>
      { s with queues := Function.update s.queues i (s.queues i + 1) }.goto t
        (.notifyLoad (s.threads t).pc)
  | none => s.goto t (.push 1 (s.threads t).pc)

/-- The queue of the thread's own worker, or any queue without one. -/
def Thread.schedules (th : Thread T) (W queue : Nat) : Bool :=
  match th.worker with
  | some i => i == queue
  | none => queue < W

/-- A step that something outside of the executor decides. -/
def choose (W : Nat) (s : State T) (t : T) (choice : Choice T) : Option (State T) :=
  let th := s.threads t
  match th.pc, choice with
  | .turn, .poll => some (s.setThread t { th with now := none, timeout := none, pc := .future })
  | .turn, .skip => some (s.setThread t { th with now := none, timeout := none, pc := .rest })
  | .future, .pending => some (s.goto t .rest)
  | .future, .ready => some (s.goto t .finish)
  | .task, .ready => some (s.goto t .turn)
  | .outside, .schedule | .future, .schedule | .task, .schedule => some (s.schedule t)
  | .outside, .sleep queue deadline | .future, .sleep queue deadline
  | .task, .sleep queue deadline =>
      if th.schedules W queue then
        some { s with
          timers := if s.clock < deadline then
            Function.update s.timers queue (deadline :: s.timers queue) else s.timers
          currents := Function.update s.currents queue s.clock }
      else none
  | .outside, .drop queue deadline | .future, .drop queue deadline
  | .task, .drop queue deadline =>
      some { s with timers := Function.update s.timers queue ((s.timers queue).erase deadline) }
  | .future, .ioBegin | .task, .ioBegin => some { s with ioPending := s.ioPending + 1 }
  | .outside, .ioComplete | .future, .ioComplete | .task, .ioComplete =>
      if 0 < s.ioPending then some { s with ioPending := s.ioPending - 1 } else none
  | .work, .io | .search, .io => some (s.goto t (.pollIo th.pc))
  -- The guard is dropped before the events are processed.
  | .polling next, .polled ready =>
      some ({ s with selector := false }.goto t (popAndInject ready next .found))
  | .work, .consume batch | .search, .consume batch =>
      th.worker.bind fun i =>
        if batch < s.injector then
          some ({ s with
            injector := s.injector - (batch + 1)
            queues := Function.update s.queues i (s.queues i + batch) }.goto t .found)
        else none
  | .work, .next => some (s.goto t .ownTimers)
  | .search, .steal queue batch =>
      th.worker.bind fun i =>
        if queue ≠ i ∧ batch < s.queues queue then
          let queues := Function.update s.queues queue (s.queues queue - (batch + 1))
          some ({ s with queues := Function.update queues i (queues i + batch) }.goto t .found)
        else none
  | .search, .timers queue =>
      if queue < W ∧ th.worker ≠ some queue then some (s.pollTimers t queue .search) else none
  | .search, .next => some (s.goto t (.giveBack false))
  | .expire queue next, .expired ready =>
      let current := max (s.currents queue) (th.now.getD 0)
      some ({ s with
        timers := Function.update s.timers queue ((s.timers queue).filter (current < ·))
        currents := Function.update s.currents queue current }.goto t
          (popAndInject ready next .found))
  | .create i next, .create u =>
      if (s.threads u).pc = .outside then
        let thread := { s.threads u with pc := .resume i .turn, pooled := true, park := .empty }
        some ((s.setThread u thread).goto t next)
      else none
  | .create i next, .error => some (s.goto t (.spawnFailed i next))
  | .parked true, .wake ready =>
      some ({ s with selector := false }.goto t (.swapEmpty true ready))
  | .parked false, .wake ready => if ready = 0 then some (s.goto t (.swapEmpty false 0)) else none
  | _, _ => none

def next (W maxThreads : Nat) (s : State T) : Event T → Option (State T)
  | .step t => step W maxThreads s t
  | .choose t choice => choose W s t choice
  | .blockOn t =>
      if (s.threads t).pc = .outside then some (s.goto t (.retryLoad .entry)) else none
  | .wake t =>
      if (s.threads t).pc = .outside then none
      else (s.threads t).park.unpark none |>.map fun park =>
        s.setThread t { s.threads t with park := park }
  | .tick milliseconds => some { s with clock := s.clock + milliseconds }

/-- A new runtime with `W` workers, and any number of threads outside of it. -/
def system (T : Type*) [DecidableEq T] (W maxThreads : Nat) : System (State T) (Event T) where
  initial := {
    pending := true
    idle := (List.range W).reverse
    searching := 0
    injector := 0
    queues := fun _ => 0
    producers := fun _ => true
    locks := fun _ => false
    timers := fun _ => []
    currents := fun _ => 0
    clock := 0
    ioPending := 0
    selector := false
    parkers := []
    spawned := 0
    threads := fun _ => ⟨.outside, none, false, false, .empty, none, none, false⟩ }
  next := next W maxThreads

end

end Yaar.Runtime.Executor
