import Yaar.Data.Tally
import Yaar.Runtime.Random
import Yaar.Runtime.Task

/-! Several runtimes in one program: which executor `handle.rs`, `task.rs` and
`worker.rs` take from a handle, from a task and from the `Context` of a thread. A
call of `spawn` or `wake`, the start and the end of a run and each change of a
counter `searching` are one step each; threads run their code in any order, and
`notify` and `search_retry` are called at any time. Assertions on other things are
left out. -/
namespace Yaar.Runtime.Runtimes

open Machine TaskState
open Yaar.Runtime.Task (TaskData)

/-- `Context`, with the worker whose index and producer it has. -/
structure Context (R K : Type*) where
  executor : R
  producer : Option Nat
  intercept : Option (List K)
  deriving DecidableEq

/-- A call of `block_on`: its executor, its `context_ref`, whether it is searching, the
buffer of its poller, the runnable that its poll has returned and the task it runs. -/
structure Call (R C K : Type*) where
  executor : R
  context : C
  owned : Bool
  searching : Bool
  ready : List K
  taken : Option K
  running : Option K
  deriving DecidableEq

/-- A thread with its current context, its calls of `block_on` from the innermost
on, and whether `spawn` has failed on it. -/
structure Thread (R C K : Type*) where
  current : Option C
  calls : List (Call R C K)
  refused : Bool
  deriving DecidableEq

structure TaskCell (R : Type*) where
  executor : R
  state : TaskState
  data : TaskData
  deriving DecidableEq

structure State (T R C K : Type*) where
  injectors : R → List K
  queues : R → Nat → List K
  producers : R → Nat → Bool
  pending : R → Nat
  searching : R → Nat
  /-- The units of `searching` that no call of `block_on` has: they are on their way to
  a thread, or lost. -/
  tokens : R → Nat
  tasks : K → Option (TaskCell R)
  contexts : C → Option (Context R K)
  threads : T → Thread R C K

/-- What an assertion of `notify` or `search_retry` that fails ends: a call of `spawn`,
the loop of a worker, or other code. -/
inductive Caller where
  | spawn | worker | other
  deriving DecidableEq

inductive Event (T R C K : Type*) where
  /-- `Handle::enter` and the drop of its guard, where that owns the context -/
  | enter (t : T) (executor : R) (context : C)
  | exit (t : T)
  /-- up to `task_begin`, with the worker index that `block_on` was given or that its
  `search_retry` has returned -/
  | blockOn (t : T) (executor : R) (context : C) (workerIndex : Option Nat)
  | blockOnEnd (t : T)
  /-- `transition_to_running` and `transition_to_idle` of the worker loop -/
  | acquire (t : T) (workerIndex : Nat)
  | release (t : T)
  /-- the load and the `compare_exchange` of `notify`, or a load of `search_begin` whose
  assertion fails, and the `fetch_sub` of `notify` -/
  | notify (t : T) (executor : R) (caller : Caller)
  | notifyEnd (t : T) (executor : R) (caller : Caller)
  | searchRetry (t : T) (executor : R) (caller : Caller)
  | searchBegin (t : T)
  | searchDiscovered (t : T)
  | spawn (t : T) (executor : R) (task : K)
  | wake (t : T) (task : K)
  /-- timers or events of the network are processed -/
  | intercept (t : T)
  | collect (t : T)
  | inject (t : T)
  /-- a runnable moves to the thread's own queue -/
  | consume (t : T) (task : K)
  | steal (t : T) (workerIndex : Nat) (task : K)
  /-- the poll of the worker returns a runnable of the own queue, or the first in the
  buffer -/
  | pop (t : T) (task : K)
  | popAndInject (t : T)
  /-- `run` of that runnable -/
  | run (t : T)
  /-- the poll of the task returns -/
  | pending (t : T)
  | ready (t : T) (error : Bool)
  deriving DecidableEq

variable {T R C K : Type*} [DecidableEq T] [DecidableEq R] [DecidableEq C] [DecidableEq K]

def State.setThread (s : State T R C K) (t : T) (th : Thread R C K) : State T R C K :=
  { s with threads := Function.update s.threads t th }

def State.setContext (s : State T R C K) (c : C) (context : Context R K) : State T R C K :=
  { s with contexts := Function.update s.contexts c (some context) }

def State.setTask (s : State T R C K) (k : K) (task : TaskCell R) : State T R C K :=
  { s with tasks := Function.update s.tasks k (some task) }

def State.setQueue (s : State T R C K) (executor : R) (i : Nat) (queue : List K) :
    State T R C K :=
  { s with
    queues := Function.update s.queues executor (Function.update (s.queues executor) i queue) }

def State.setProducer (s : State T R C K) (executor : R) (i : Nat) (present : Bool) :
    State T R C K :=
  { s with
    producers :=
      Function.update s.producers executor (Function.update (s.producers executor) i present) }

def State.setPending (s : State T R C K) (executor : R) (pending : Nat) : State T R C K :=
  { s with pending := Function.update s.pending executor pending }

def State.setSearching (s : State T R C K) (executor : R) (searching : Nat) : State T R C K :=
  { s with searching := Function.update s.searching executor searching }

def State.setTokens (s : State T R C K) (executor : R) (tokens : Nat) : State T R C K :=
  { s with tokens := Function.update s.tokens executor tokens }

/-- `Executor::inject` -/
def State.inject (s : State T R C K) (executor : R) (runnables : List K) : State T R C K :=
  { s with
    injectors := Function.update s.injectors executor (s.injectors executor ++ runnables) }

/-- `Executor::schedule`, without a result when its assertion fails. -/
def State.schedule (s : State T R C K) (executor : R) (k : K) (context : Option C) :
    Option (State T R C K) :=
  match context with
  | none => some (s.inject executor [k])
  | some c => (s.contexts c).bind fun context =>
      if executor ≠ context.executor then none
      else match context.intercept, context.producer with
        | some ready, _ => some (s.setContext c { context with intercept := some (ready ++ [k]) })
        | none, some i => some (s.setQueue executor i (s.queues executor i ++ [k]))
        | none, none => some (s.inject executor [k])

/-- `Task::schedule` -/
def State.scheduleTask (s : State T R C K) (t : T) (k : K) (task : TaskCell R) :
    Option (State T R C K) :=
  match (s.threads t).current with
  | some c => (s.contexts c).bind fun context => s.schedule context.executor k (some c)
  | none => s.schedule task.executor k none

/-- The `fetch_sub` of a counter. -/
def fetchSub (n : Nat) : Nat := if n = 0 then 2 ^ 64 - 1 else n - 1

/-- The innermost call of a thread and its context. -/
def State.inCall (s : State T R C K) (t : T)
    (f : Call R C K → List (Call R C K) → Context R K → Option (State T R C K)) :
    Option (State T R C K) :=
  match (s.threads t).calls with
  | [] => none
  | call :: rest => (s.contexts call.context).bind (f call rest)

def State.setCall (s : State T R C K) (t : T) (call : Call R C K) (rest : List (Call R C K)) :
    State T R C K :=
  s.setThread t { s.threads t with calls := call :: rest }

/-- A call of `block_on` returns or unwinds. -/
def State.leave (s : State T R C K) (t : T) (call : Call R C K) (rest : List (Call R C K)) :
    State T R C K :=
  let th := s.threads t
  s.setThread t { th with current := if call.owned then none else th.current, calls := rest }

/-- A call of `block_on` unwinds in the loop of its worker: without `task_complete`, and
with its unit of `searching` lost. -/
def State.unwind (s : State T R C K) (t : T) (call : Call R C K) (rest : List (Call R C K))
    (context : Context R K) : State T R C K :=
  let s' := s.setTokens context.executor (s.tokens context.executor + 1)
  (if call.searching then s' else s).leave t call rest

/-- An assertion of `notify` or `search_retry` fails. -/
def State.fail (s : State T R C K) (t : T) : Caller → Option (State T R C K)
  | .spawn => some (s.setThread t { s.threads t with refused := true })
  | .worker => s.inCall t fun call rest context => some (s.unwind t call rest context)
  | .other => some s

/-- `Context::enter`, with the context and whether the reference to it is owned. -/
def State.enter (s : State T R C K) (t : T) (executor : R) (c : C) :
    Option (State T R C K × C × Bool) :=
  match (s.threads t).current with
  | some d => some (s, d, false)
  | none =>
      if s.contexts c = none then
        some ((s.setContext c ⟨executor, none, none⟩).setThread t
          { s.threads t with current := some c }, c, true)
      else none

/-- `transition_to_running`, without a result when one of its assertions fails. -/
def State.transitionToRunning (s : State T R C K) (call : Call R C K) (i : Nat) :
    Option (State T R C K × Call R C K) :=
  (s.contexts call.context).bind fun context =>
    if context.producer = none ∧ call.searching = false ∧ s.producers context.executor i then
      some ((s.setProducer context.executor i false).setContext call.context
        { context with producer := some i }, { call with searching := true })
    else none

/-- `swap_producer(Some(producer))` for the worker of a context. -/
def State.release (s : State T R C K) (c : C) (context : Context R K) : State T R C K :=
  match context.producer with
  | none => s
  | some i => (s.setProducer context.executor i true).setContext c { context with producer := none }

/-- `task_begin`, and then the loop of the worker. -/
def State.begin (s : State T R C K) (t : T) (call : Call R C K) : State T R C K :=
  (s.setPending call.executor (s.pending call.executor + 1)).setCall t call (s.threads t).calls

/-- The start of `run`. -/
def State.run (s : State T R C K) (t : T) (call : Call R C K) (rest : List (Call R C K))
    (k : K) : Option (State T R C K) :=
  (s.tasks k).bind fun task =>
    if task.data = .pending then
      some ((s.setTask k { task with state := TASK_RUNNING, data := .polling }).setCall t
        { call with running := some k } rest)
    else none

variable (workers : R → NonZero Nat)

/-- The `fetch_sub` of `search_discovered` and `search_failed`, for a call that is
searching. -/
def State.searchEnd (s : State T R C K) (t : T) (call : Call R C K) (rest : List (Call R C K))
    (executor : R) : State T R C K :=
  let searching := s.searching executor
  let s := s.setSearching executor (fetchSub searching)
  if searching ≤ (workers executor).get ∧ searching ≠ 0 then
    s.setCall t { call with searching := false } rest
  else s.leave t call rest

def next (s : State T R C K) : Event T R C K → Option (State T R C K)
  | .enter t executor c => (s.enter t executor c).map (·.1)
  | .exit t =>
      if (s.threads t).current ≠ none ∧ ∀ call ∈ (s.threads t).calls, call.owned = false then
        some (s.setThread t { s.threads t with current := none })
      else none
  | .blockOn t executor c none => (s.enter t executor c).map fun (s, c, owned) =>
      s.begin t ⟨executor, c, owned, false, [], none, none⟩
  | .blockOn t executor c (some i) =>
      -- The index is of a worker of `executor`, whose context may be of another one.
      if s.tokens executor ≠ 0 ∧ s.producers executor i then
        (s.enter t executor c).map fun (entered, c, owned) =>
          match entered.transitionToRunning ⟨executor, c, owned, false, [], none, none⟩ i with
          | some (s, call) => (s.setTokens executor (s.tokens executor - 1)).begin t call
          | none => s
      else none
  | .blockOnEnd t => s.inCall t fun call rest context =>
      if call.searching = false ∧ call.running = none ∧ call.taken = none ∧ call.ready = [] then
        let s' := s.setPending call.executor (fetchSub (s.pending call.executor))
        some ((if s.pending call.executor = 0 then s' else s'.release call.context context).leave
          t call rest)
      else none
  | .acquire t i => s.inCall t fun call rest context =>
      let executor := context.executor
      if context.producer = none ∧ s.tokens executor ≠ 0 ∧ s.producers executor i then
        match s.transitionToRunning call i with
        | some (s, call) =>
            some ((s.setTokens executor (s.tokens executor - 1)).setCall t call rest)
        | none => some (s.unwind t call rest context)
      else none
  | .release t => s.inCall t fun call rest context =>
      if context.producer ≠ none then
        let s := s.release call.context context
        some (if call.searching then s.searchEnd workers t call rest context.executor else s)
      else none
  | .notify t executor caller =>
      if (workers executor).get < s.searching executor then s.fail t caller
      else if s.searching executor = 0 then
        some ((s.setSearching executor 1).setTokens executor (s.tokens executor + 1))
      else some s
  | .notifyEnd t executor caller =>
      let searching := s.searching executor
      let s' := (s.setSearching executor (fetchSub searching)).setTokens executor
        (s.tokens executor - 1)
      if s.tokens executor = 0 then none
      else if searching ≤ (workers executor).get ∧ searching ≠ 0 then some s'
      else s'.fail t caller
  | .searchRetry t executor caller =>
      let searching := s.searching executor
      let s := (s.setSearching executor (searching + 1)).setTokens executor (s.tokens executor + 1)
      if searching < (workers executor).get then some s else s.fail t caller
  | .searchBegin t => s.inCall t fun call rest context =>
      let executor := context.executor
      let searching := s.searching executor
      let s := s.setSearching executor (searching + 1)
      if call.searching = false ∧ context.producer ≠ none then
        some (if searching < (workers executor).get then
          s.setCall t { call with searching := true } rest
        else (s.setTokens executor (s.tokens executor + 1)).leave t call rest)
      else none
  | .searchDiscovered t => s.inCall t fun call rest context =>
      if call.searching then some (s.searchEnd workers t call rest context.executor) else none
  | .spawn t executor k =>
      if s.tasks k = none then
        let s := (s.setPending executor (s.pending executor + 1)).setTask k
          ⟨executor, TASK_SCHEDULED, .pending⟩
        some ((s.schedule executor k (s.threads t).current).getD
          (s.setThread t { s.threads t with refused := true }))
      else none
  | .wake t k => (s.tasks k).bind fun task =>
      let transition := transitionToScheduled task.state
      let s := s.setTask k { task with state := transition.1 }
      if transition.2 then s.scheduleTask t k task else some s
  | .intercept t => s.inCall t fun call rest context =>
      if context.intercept = none then
        some ((s.setContext call.context { context with intercept := some call.ready }).setCall t
          { call with ready := [] } rest)
      else none
  | .collect t => s.inCall t fun call rest context =>
      context.intercept.map fun ready =>
        (s.setContext call.context { context with intercept := none }).setCall t
          { call with ready := ready } rest
  | .inject t => s.inCall t fun call rest context =>
      some ((s.inject context.executor call.ready).setCall t { call with ready := [] } rest)
  | .consume t k => s.inCall t fun _ _ context => context.producer.bind fun i =>
      let injector := s.injectors context.executor
      if k ∈ injector then
        let s := s.setQueue context.executor i (s.queues context.executor i ++ [k])
        some { s with injectors := Function.update s.injectors context.executor (injector.erase k) }
      else none
  | .steal t j k => s.inCall t fun _ _ context => context.producer.bind fun i =>
      let queue := s.queues context.executor j
      if j ≠ i ∧ k ∈ queue then
        some ((s.setQueue context.executor j (queue.erase k)).setQueue context.executor i
          (s.queues context.executor i ++ [k]))
      else none
  | .pop t k => s.inCall t fun call rest context => context.producer.bind fun i =>
      let queue := s.queues context.executor i
      if call.running = none ∧ call.taken = none ∧ k ∈ queue then
        some ((s.setQueue context.executor i (queue.erase k)).setCall t
          { call with taken := some k } rest)
      else none
  | .popAndInject t => s.inCall t fun call rest context =>
      match call.running, call.taken, call.ready with
      | none, none, k :: ready =>
          some ((s.inject context.executor ready).setCall t
            { call with ready := [], taken := some k } rest)
      | _, _, _ => none
  | .run t => s.inCall t fun call rest _ => call.taken.bind fun k =>
      if call.searching = false ∧ call.running = none then
        s.run t { call with taken := none } rest k
      else none
  | .pending t => s.inCall t fun call rest context => call.running.bind fun k =>
      (s.tasks k).bind fun task =>
        let s := s.setCall t { call with running := none } rest
        match transitionToIdle task.state with
        | some (state, true) => some (s.setTask k { task with state := state, data := .pending })
        | some (_, false) =>
            (s.setTask k { task with state := TASK_SCHEDULED, data := .pending }).schedule
              context.executor k (some call.context)
        | none => none
  | .ready t error => s.inCall t fun call rest context => call.running.bind fun k =>
      (s.tasks k).map fun task =>
        let pending := s.pending context.executor
        let s := (s.setTask k { task with data := .ready error }).setPending context.executor
          (fetchSub pending)
        if pending = 0 then s.unwind t call rest context
        else s.setCall t { call with running := none } rest

/-- Any number of new runtimes, each with its number of workers, and of threads outside
of them. -/
def system (T C K : Type*) {R : Type*} [DecidableEq T] [DecidableEq R] [DecidableEq C]
    [DecidableEq K] (workers : R → NonZero Nat) : System (State T R C K) (Event T R C K) where
  initial := {
    injectors := fun _ => []
    queues := fun _ _ => []
    producers := fun executor i => i < (workers executor).get
    pending := fun _ => 0
    searching := fun _ => 0
    tokens := fun _ => 0
    tasks := fun _ => none
    contexts := fun _ => none
    threads := fun _ => ⟨none, [], false⟩ }
  next := next workers

end Yaar.Runtime.Runtimes
