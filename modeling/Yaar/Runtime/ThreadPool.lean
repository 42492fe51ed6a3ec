import Mathlib.Logic.Function.Basic
import Yaar.Data.SwapRemove
import Yaar.Machine.Execution
import Yaar.Runtime.Parker

/-! `runtime/internal/thread_pool.rs`: threads in `wait`, callers of `spawn`,
`shutdown`, `task_begin` and `task_complete`, and the threads of the pool, one
atomic operation or lock section at a time. A thread stands for one call of
`block_on`, with its parker. What ends a wait in `park` is left open. -/
namespace Yaar.Runtime.ThreadPool

open Machine

inductive Pc (T : Type*) where
  | outside
  /-- `spawn`, with the worker to hand over -/
  | spawnLoad (workerIndex : Nat)
  | spawnLock (workerIndex : Nat)
  | spawnUnpark (workerIndex : Nat) (parker : T)
  | create (workerIndex : Nat)
  | createFailed (workerIndex : Nat)
  | spawned (workerIndex : Nat) (ok : Bool)
  /-- `wait` and `park` -/
  | waitFirst
  | waitLock
  | waitThird
  | waitPoll
  | waitPark (isPolling : Bool)
  | parked (isPolling : Bool)
  | waitEmpty (isPolling : Bool)
  | waitUnwrap
  | waitRemove
  /-- `shutdown`, with the parkers still to unpark -/
  | shutdownLoad
  | shutdownLock
  | shutdownUnpark (idle : List T)
  /-- `task_complete`, with what its `fetch_sub` has found -/
  | completed (pending : Nat)
  | panicked
  deriving DecidableEq

/-- A thread of the pool is `pooled` until it has called `finish`. -/
structure Thread (T : Type*) where
  pc : Pc T
  park : ParkState
  pooled : Bool
  deriving DecidableEq

/-- A task, or a call of `block_on`. -/
inductive Job where
  | fresh
  | unfinished
  | finished
  deriving DecidableEq

structure State (T K : Type*) where
  running : Bool
  pending : Nat
  spawned : Nat
  idle : List T
  jobs : K → Job
  threads : T → Thread T

inductive Event (T K : Type*) where
  | step (t : T)
  /-- a thread calls a function of the pool -/
  | spawn (t : T) (workerIndex : Nat)
  | wait (t : T)
  | shutdown (t : T)
  | taskBegin (t : T) (job : K)
  | taskComplete (t : T) (job : K)
  | finish (t : T)
  /-- the outcome of `try_poll_network` -/
  | poll (t : T) (isPolling : Bool)
  /-- a thread in `park` wakes up -/
  | wakeUp (t : T)
  /-- the operating system starts the new thread, or does not -/
  | start (t u : T)
  | error (t : T)
  /-- `unpark(None)` by a waker -/
  | wake (t : T)
  deriving DecidableEq

variable {T K : Type*}

section
variable [DecidableEq T] [DecidableEq K]

def State.setThread (s : State T K) (t : T) (th : Thread T) : State T K :=
  { s with threads := Function.update s.threads t th }

def State.goto (s : State T K) (t : T) (pc : Pc T) : State T K :=
  s.setThread t { s.threads t with pc := pc }

/-- `poll_unparked`: no one changes the word between its load of a notification and
its store. -/
def State.pollUnparked (s : State T K) (t : T) (some none otherwise : Pc T) : State T K :=
  let th := s.threads t
  match th.park with
  | .notified (.some _) => s.setThread t { th with park := .empty, pc := some }
  | .notified .none => s.setThread t { th with park := .empty, pc := none }
  | _ => s.goto t otherwise

/-- The `fetch_update` of `unpark`. -/
def State.unpark (s : State T K) (u : T) (workerIndex : Option Nat) : Option (State T K) :=
  ((s.threads u).park.unpark workerIndex).map fun park =>
    s.setThread u { s.threads u with park := park }

/-- The lock section of `finish`. -/
def State.finish (maxThreads : Nat) (s : State T K) (t : T) (th : Thread T) : State T K :=
  if s.spawned ≤ maxThreads ∧ s.spawned ≠ 0 then
    { s with spawned := s.spawned - 1 }.setThread t th
  else s.goto t .panicked

def step (maxThreads : Nat) (s : State T K) (t : T) : Option (State T K) :=
  let th := s.threads t
  match th.pc with
  | .spawnLoad i => some (s.goto t (if s.running then .spawnLock i else .spawned i false))
  | .spawnLock i =>
      some (if s.running = false then s.goto t (.spawned i false)
        else match s.idle with
        | parker :: _ =>
            { s with idle := swapRemove s.idle 0 }.goto t (.spawnUnpark i parker)
        | [] =>
            if maxThreads < s.spawned then s.goto t .panicked
            else if s.spawned = maxThreads then s.goto t (.spawned i false)
            else { s with spawned := s.spawned + 1 }.goto t (.create i))
  | .spawnUnpark i parker =>
      match s.unpark parker (some i) with
      | some s => some (s.goto t (.spawned i true))
      | none => some (s.goto t (.spawnLoad i))
  | .createFailed i => some (s.finish maxThreads t { th with pc := .spawned i false })
  | .spawned _ _ => some (s.goto t .outside)
  | .waitFirst => some (s.pollUnparked t .outside .outside .waitLock)
  | .waitLock =>
      match th.park with
      | .notified _ => some (s.pollUnparked t .outside .outside .waitThird)
      | _ => some ({ s with idle := s.idle ++ [t] }.goto t .waitThird)
  | .waitThird => some (s.pollUnparked t .outside .waitRemove .waitPoll)
  | .waitPark isPolling =>
      if th.park = .empty then
        some (s.setThread t { th with park := .parked isPolling, pc := .parked isPolling })
      else some (s.goto t .waitUnwrap)
  | .waitEmpty isPolling =>
      if th.park = .parked isPolling then
        some (s.setThread t { th with park := .empty, pc := .waitRemove })
      else some (s.goto t .waitUnwrap)
  | .waitUnwrap => some (s.pollUnparked t .outside .waitRemove .panicked)
  | .waitRemove =>
      let idle := if t ∈ s.idle then swapRemove s.idle (s.idle.idxOf t) else s.idle
      some ({ s with idle := idle }.goto t .outside)
  | .shutdownLoad => some (s.goto t (if s.running then .shutdownLock else .outside))
  | .shutdownLock =>
      some (if s.running then
        { s with idle := [], running := false }.goto t (.shutdownUnpark s.idle)
        else s.goto t .outside)
  | .shutdownUnpark (parker :: idle) =>
      some (((s.unpark parker none).getD s).goto t (.shutdownUnpark idle))
  | .shutdownUnpark [] => some (s.goto t .outside)
  | .completed pending =>
      some (s.goto t (if pending = 0 then .panicked
        -- The assertion has just excluded this case.
        else if pending = 0 then .shutdownLoad
        else .outside))
  | _ => none

/-- A call of a function of the pool. -/
def State.call (s : State T K) (t : T) (pc : Pc T) : Option (State T K) :=
  if (s.threads t).pc = .outside then some (s.goto t pc) else none

def next (maxThreads : Nat) (s : State T K) : Event T K → Option (State T K)
  | .step t => step maxThreads s t
  | .spawn t workerIndex => s.call t (.spawnLoad workerIndex)
  | .wait t => s.call t .waitFirst
  | .shutdown t => s.call t .shutdownLoad
  | .taskBegin t job =>
      if s.jobs job = .fresh then
        { s with
          pending := s.pending + 1
          jobs := Function.update s.jobs job .unfinished }.call t .outside
      else none
  | .taskComplete t job =>
      if s.jobs job = .unfinished then
        { s with
          pending := s.pending - 1
          jobs := Function.update s.jobs job .finished }.call t (.completed s.pending)
      else none
  | .finish t =>
      let th := s.threads t
      if th.pooled ∧ th.pc = .outside then
        some (s.finish maxThreads t { th with pooled := false })
      else none
  | .poll t isPolling =>
      if (s.threads t).pc = .waitPoll then some (s.goto t (.waitPark isPolling)) else none
  | .wakeUp t =>
      match (s.threads t).pc with
      | .parked isPolling => some (s.goto t (.waitEmpty isPolling))
      | _ => none
  | .start t u =>
      match (s.threads t).pc with
      | .create i =>
          if (s.threads u).pc = .outside ∧ (s.threads u).pooled = false then
            some ((s.setThread u { s.threads u with pooled := true }).goto t (.spawned i true))
          else none
      | _ => none
  | .error t =>
      match (s.threads t).pc with
      | .create i => some (s.goto t (.createFailed i))
      | _ => none
  | .wake t => s.unpark t none

/-- A new pool. -/
def system (T K : Type*) [DecidableEq T] [DecidableEq K] (maxThreads : Nat) :
    System (State T K) (Event T K) where
  initial := {
    running := true
    pending := 0
    spawned := 0
    idle := []
    jobs := fun _ => .fresh
    threads := fun _ => ⟨.outside, .empty, false⟩ }
  next := next maxThreads

end

/-- The lines of `shutdown`. -/
def Pc.shuts : Pc T → Bool
  | .shutdownLoad | .shutdownLock | .shutdownUnpark _ => true
  | _ => false

variable [DecidableEq T]

@[simp] theorem setThread_self (s : State T K) (t : T) (th : Thread T) :
    (s.setThread t th).threads t = th := by
  simp [State.setThread]

theorem setThread_of_ne (s : State T K) {t u : T} (th : Thread T) (hNe : u ≠ t) :
    (s.setThread t th).threads u = s.threads u :=
  Function.update_of_ne hNe _ _

@[simp] theorem goto_self (s : State T K) (t : T) (pc : Pc T) :
    (s.goto t pc).threads t = { s.threads t with pc := pc } := by
  simp [State.goto]

theorem goto_of_ne (s : State T K) {t u : T} (pc : Pc T) (hNe : u ≠ t) :
    (s.goto t pc).threads u = s.threads u :=
  setThread_of_ne s _ hNe

/-- `unpark` changes the word of the parker only. -/
theorem unpark_eq {s s' : State T K} {u : T} {workerIndex : Option Nat}
    (h : s.unpark u workerIndex = some s') :
    ∃ park, (s.threads u).park.unpark workerIndex = some park ∧
      s' = s.setThread u { s.threads u with park := park } := by
  obtain ⟨park, hPark, rfl⟩ := Option.map_eq_some_iff.mp h
  exact ⟨park, hPark, rfl⟩

theorem unpark_pc {s s' : State T K} {u : T} {workerIndex : Option Nat}
    (h : s.unpark u workerIndex = some s') (v : T) :
    (s'.threads v).pc = (s.threads v).pc := by
  obtain ⟨park, -, rfl⟩ := unpark_eq h
  by_cases hEq : v = u
  · rw [hEq, setThread_self]
  · rw [setThread_of_ne s _ hEq]

/-- After the state of the parker is polled the thread is at one of the three lines. -/
theorem pollUnparked_eq (s : State T K) (t : T) (some none otherwise : Pc T) :
    ∃ th, s.pollUnparked t some none otherwise = s.setThread t th ∧
      (th.pc = some ∨ th.pc = none ∨ th.pc = otherwise) := by
  simp only [State.pollUnparked]
  split
  · exact ⟨_, rfl, Or.inl rfl⟩
  · exact ⟨_, rfl, Or.inr (Or.inl rfl)⟩
  · exact ⟨_, rfl, Or.inr (Or.inr rfl)⟩

/-- A call puts its thread on the first line of a function. -/
theorem call_eq {s s' : State T K} {t : T} {pc : Pc T} (h : s.call t pc = some s') :
    (s.threads t).pc = .outside ∧ s' = s.goto t pc := by
  unfold State.call at h
  split at h
  · next hOutside => exact ⟨hOutside, (Option.some.inj h).symm⟩
  · simp at h

/-- A step that leaves the counts, the jobs and the lines of other threads. -/
structure Frame (s s' : State T K) (t : T) : Prop where
  pending : s'.pending = s.pending
  jobs : s'.jobs = s.jobs
  running : s'.running = s.running
  others : ∀ u, u ≠ t → (s'.threads u).pc = (s.threads u).pc

/-- A step that replaces one thread and touches only the idle list or the number of
threads. -/
theorem Frame.of {s s' : State T K} {t : T} {th : Thread T}
    (hThreads : s'.threads = Function.update s.threads t th) (hPending : s'.pending = s.pending)
    (hJobs : s'.jobs = s.jobs) (hRunning : s'.running = s.running) : Frame s s' t :=
  ⟨hPending, hJobs, hRunning, fun u hNe => by rw [hThreads, Function.update_of_ne hNe]⟩

theorem frame_pollUnparked (s : State T K) (t : T) (some none otherwise : Pc T) :
    Frame s (s.pollUnparked t some none otherwise) t := by
  obtain ⟨th, hEq, -⟩ := pollUnparked_eq s t some none otherwise
  rw [hEq]
  exact .of rfl rfl rfl rfl

theorem frame_finish (maxThreads : Nat) (s : State T K) (t : T) (th : Thread T) :
    Frame s (s.finish maxThreads t th) t := by
  unfold State.finish
  split
  · exact .of rfl rfl rfl rfl
  · exact .of rfl rfl rfl rfl

/-- Only `shutdown` stops the pool. -/
theorem frame_step {maxThreads : Nat} {s s' : State T K} {t : T}
    (hShuts : (s.threads t).pc ≠ .shutdownLock ∨ s.running = false)
    (h : step maxThreads s t = some s') : Frame s s' t := by
  cases hp : (s.threads t).pc <;> simp only [step, hp, reduceCtorEq] at h
  case spawnUnpark i parker =>
    split at h
    · next s'' hUnpark =>
        obtain rfl := Option.some.inj h
        have hPc := unpark_pc hUnpark
        obtain ⟨park, -, rfl⟩ := unpark_eq hUnpark
        exact ⟨rfl, rfl, rfl, fun u hNe => by rw [goto_of_ne _ _ hNe, hPc]⟩
    · obtain rfl := Option.some.inj h
      exact .of rfl rfl rfl rfl
  case shutdownUnpark idle =>
    cases idle with
    | nil =>
        obtain rfl := Option.some.inj h
        exact .of rfl rfl rfl rfl
    | cons parker idle =>
        obtain rfl := Option.some.inj h
        cases hUnpark : s.unpark parker none with
        | none => exact .of rfl rfl rfl rfl
        | some s'' =>
            have hPc := unpark_pc hUnpark
            obtain ⟨park, -, rfl⟩ := unpark_eq hUnpark
            exact ⟨rfl, rfl, rfl, fun u hNe => by rw [Option.getD_some, goto_of_ne _ _ hNe, hPc]⟩
  case waitFirst | waitThird | waitUnwrap =>
    obtain rfl := Option.some.inj h
    exact frame_pollUnparked _ _ _ _ _
  case waitLock =>
    split at h
    · obtain rfl := Option.some.inj h
      exact frame_pollUnparked _ _ _ _ _
    · obtain rfl := Option.some.inj h
      exact .of rfl rfl rfl rfl
  case createFailed i =>
    obtain rfl := Option.some.inj h
    exact frame_finish _ _ _ _
  case shutdownLock =>
    obtain rfl := Option.some.inj h
    have hRunning : s.running = false := hShuts.resolve_left (by simp [hp])
    rw [if_neg (by simp [hRunning])]
    exact .of rfl rfl rfl rfl
  case waitPark | waitEmpty =>
    split at h <;> obtain rfl := Option.some.inj h <;> exact .of rfl rfl rfl rfl
  case spawnLock i =>
    obtain rfl := Option.some.inj h
    split
    · exact .of rfl rfl rfl rfl
    · split
      · exact .of rfl rfl rfl rfl
      · repeat' split
        all_goals exact .of rfl rfl rfl rfl
  all_goals
    obtain rfl := Option.some.inj h
    exact .of rfl rfl rfl rfl

/-- No step of a function gets to `shutdown` or to the result of a `fetch_sub`: what
`task_complete` tests for is what it has asserted not to be. -/
theorem line_step {maxThreads : Nat} {s s' : State T K} {t : T}
    (hShuts : (s.threads t).pc.shuts = false) (h : step maxThreads s t = some s') :
    (s'.threads t).pc.shuts = false ∧ ∀ n, (s'.threads t).pc ≠ .completed n := by
  cases hp : (s.threads t).pc <;> simp only [step, hp, reduceCtorEq] at h <;>
    simp only [hp, Pc.shuts, reduceCtorEq] at hShuts
  case spawnUnpark i parker =>
    split at h <;> obtain rfl := Option.some.inj h <;> simp [Pc.shuts]
  case waitFirst | waitThird | waitUnwrap =>
    obtain rfl := Option.some.inj h
    obtain ⟨th, hEq, hPc⟩ := pollUnparked_eq s t _ _ _
    rw [hEq, setThread_self]
    rcases hPc with h | h | h <;> simp [h, Pc.shuts]
  case waitLock =>
    split at h
    · obtain rfl := Option.some.inj h
      obtain ⟨th, hEq, hPc⟩ := pollUnparked_eq s t _ _ _
      rw [hEq, setThread_self]
      rcases hPc with h | h | h <;> simp [h, Pc.shuts]
    · obtain rfl := Option.some.inj h
      simp [Pc.shuts]
  case createFailed i =>
    obtain rfl := Option.some.inj h
    unfold State.finish
    split <;> simp [Pc.shuts]
  case waitPark | waitEmpty =>
    split at h <;> obtain rfl := Option.some.inj h <;> simp [Pc.shuts]
  case spawnLock i =>
    obtain rfl := Option.some.inj h
    split
    · simp [Pc.shuts]
    · split
      · simp [Pc.shuts]
      · repeat' split
        all_goals simp [Pc.shuts]
  case completed pending =>
    obtain rfl := Option.some.inj h
    by_cases hZero : pending = 0 <;> simp [hZero, Pc.shuts]
  all_goals
    obtain rfl := Option.some.inj h
    simp only [goto_self]
    (try split) <;> simp [Pc.shuts]

end Yaar.Runtime.ThreadPool
