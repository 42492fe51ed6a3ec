import Yaar.Runtime.ExecutorNetwork

/-! `block_on` called from within its own runtime. Every call is a thread of the
executor of its own, with its `WorkerContext` and its parker, and the one context of
the calling thread is with the innermost call that has come past its start. -/
namespace Yaar.Runtime.NestedBlockOn

open Machine Executor

variable {T : Type*}

/-- A call before `task_begin`, from there to `task_complete`, and after it. -/
inductive Phase where
  | starting
  | counted
  | completed
  deriving DecidableEq

/-- The calls of `block_on` on one runtime, with the call that each was made from,
and `pending`, which counts the unfinished tasks and the calls. -/
structure State (T : Type*) where
  executor : Executor.State T
  outer : T → Option T
  phase : T → Phase
  tasks : Nat
  pending : Nat

inductive Event (T : Type*) where
  | executor (e : Executor.Event T)
  /-- a task or the future of `t` makes the call `u` -/
  | nest (t u : T)
  | taskBegin (u : T)
  | taskComplete (u : T)
  /-- the panic of a nested call is caught in `Task::run` or `poll_future` -/
  | unwind (u : T)
  /-- `task_begin` and `task_complete` of a task -/
  | spawned
  | finished

/-- A thread outside of the runtime. -/
def away : Thread T := ⟨.outside, none, false, false, .empty, none, none, false⟩

section
variable [DecidableEq T]

/-- The context of `t` goes to `u`. -/
def handContext (s : Executor.State T) (t u : T) : Executor.State T :=
  (s.setThread u { s.threads u with
      worker := (s.threads t).worker, producer := (s.threads t).producer }).setThread t
    { s.threads t with worker := none, producer := false }

namespace State

/-- The worker of the context that a nested call finds at its start. -/
def enclosing (s : State T) (u : T) : Option Nat :=
  (s.outer u).bind fun t => (s.executor.threads t).worker

def setPhase (s : State T) (u : T) (phase : Phase) : State T :=
  { s with phase := Function.update s.phase u phase }

/-- The call `u` returns to the one it was made from. -/
def setOuter (s : State T) (u : T) (outer : Option T) : State T :=
  { s with outer := Function.update s.outer u outer }

/-- `task_begin`, after which the call has the context. -/
def begin (s : State T) (u : T) : State T :=
  let executor := match s.outer u with
    | some t => if (s.executor.threads u).worker = none then handContext s.executor t u
        else s.executor
    | none => s.executor
  { s with executor := executor, pending := s.pending + 1 }.setPhase u .counted

/-- `task_complete` with its assertion. -/
def complete (s : State T) (u : T) : State T :=
  { s with
    executor := if s.pending = 0 then s.executor.goto u (.panicked .ending) else s.executor
    pending := s.pending - 1 }.setPhase u .completed

/-- What a panicked call leaves behind: the context is left as it is, and what the
call had in its own hands is lost. -/
def unwound (s : State T) (t u : T) : State T :=
  let executor := if (s.executor.threads u).worker = none then s.executor
    else handContext s.executor u t
  ({ s with executor := executor.setThread u away }.setPhase u .starting).setOuter u none

end State

variable [Fintype T]

/-- A call waits for the one made from it. -/
def State.suspended (s : State T) (t : T) : Prop := ∃ u, s.outer u = some t

instance (s : State T) (t : T) : Decidable (s.suspended t) :=
  inferInstanceAs (Decidable (∃ u, s.outer u = some t))

/-- A step of the executor, inside a call. -/
def execute (W maxThreads : Nat) (s : State T) (e : Executor.Event T) : Option (State T) :=
  let inner := (Executor.next W maxThreads s.executor e).map fun executor =>
    { s with executor := executor }
  match e with
  | .step u =>
      match (s.executor.threads u).pc with
      -- `assert!(context.worker_index.get().is_none())`
      | .resume i next =>
          if (s.enclosing u).isSome then
            some { s with executor := s.executor.goto u (.panicked (.resume i next)) }
          else inner
      | .ending => if s.phase u = .counted then none else inner
      | .leave => inner.map fun s => (s.setPhase u .starting).setOuter u none
      | _ => inner
  | .choose t _ =>
      if (s.executor.threads t).pc = .turn ∧ s.phase t ≠ .counted then none else inner
  | _ => inner

/-- The call that a step of the executor belongs to. -/
def actor : Executor.Event T → Option T
  | .step t | .choose t _ => some t
  | _ => none

def next (W maxThreads : Nat) (s : State T) : Event T → Option (State T)
  | .executor e =>
      if ∀ t, actor e = some t → ¬s.suspended t then execute W maxThreads s e else none
  | .nest t u =>
      if ((s.executor.threads t).pc = .task ∨ (s.executor.threads t).pc = .future) ∧
          ¬s.suspended t ∧ (s.executor.threads u).pc = .outside then
        some ({ s with executor := s.executor.goto u (.retryLoad .entry) }.setOuter u (some t))
      else none
  | .taskBegin u =>
      if (s.executor.threads u).pc = .turn ∧ s.phase u = .starting then some (s.begin u) else none
  | .taskComplete u =>
      if (s.executor.threads u).pc = .ending ∧ s.phase u = .counted then some (s.complete u)
      else none
  | .unwind u =>
      match s.outer u, (s.executor.threads u).pc with
      | some t, .panicked _ => if ¬s.suspended u then some (s.unwound t u) else none
      | _, _ => none
  | .spawned => some { s with tasks := s.tasks + 1, pending := s.pending + 1 }
  | .finished =>
      if 0 < s.tasks then some { s with tasks := s.tasks - 1, pending := s.pending - 1 } else none

variable (T) in
def system (W maxThreads : Nat) : System (State T) (Event T) where
  initial := ⟨(Executor.system T W maxThreads).initial, fun _ => none, fun _ => .starting, 0, 0⟩
  next := next W maxThreads

end

/-! ## The stand of a call -/

inductive Stand where
  | outside
  | running
  /-- past the end of `run` -/
  | closing
  | failed
  deriving DecidableEq

/-- What a line is part of. `inject` and `notify` are part of what they return to. -/
def stand : Pc T → Stand
  | .outside => .outside
  | .panicked _ => .failed
  | .giveBack true | .lockPut _ true | .swapPut _ true | .failPush _ _ true | .failSub true
  | .failCheck true | .leave => .closing
  | .push _ next | .notifyLoad next | .notifySearching next | .notifySwap next
  | .notifyPending next | .notifyPop next | .spawn _ next | .unpark _ _ next | .create _ next
  | .spawnFailed _ next | .notifyPush _ next | .notifySub next => stand next
  | _ => .running

theorem stand_polls {pc : Pc T} (h : pc.Polls) : stand pc = .running := by
  cases pc <;> simp_all [Pc.Polls, stand]

section Stand
variable [DecidableEq T]

/-- After the state of the parker is polled a call stands where its lines do, unless it
has failed. -/
theorem stand_pollUnparked {s : Executor.State T} {t : T} {taken : Nat → Pc T}
    {woken otherwise : Pc T} (hTaken : ∀ i, stand (taken i) = .running)
    (hWoken : stand woken = .running) (hOtherwise : otherwise.live → stand otherwise = .running)
    (hLive : ((s.pollUnparked t taken woken otherwise).threads t).pc.live) :
    stand ((s.pollUnparked t taken woken otherwise).threads t).pc = .running := by
  simp only [State.pollUnparked] at hLive ⊢
  split <;> simp_all

/-- To poll the timers does not end the run of a call. -/
theorem stand_pollTimers {s : Executor.State T} {t : T} {queue : Nat} {next : Pc T}
    (hNext : stand next = .running) :
    stand ((s.pollTimers t queue next).threads t).pc = .running := by
  unfold State.pollTimers
  split
  · simp [hNext]
  · simp only
    split
    · simp [Thread.wait, hNext]
    · simp [stand]

/-- Nor does a pop of the idle queue change where it stands. -/
theorem stand_popIdle {s : Executor.State T} {t : T} {none : Pc T} {some : Nat → Pc T}
    {at_ : Stand} (hNone : stand none = at_) (hSome : ∀ i, stand (some i) = at_) :
    stand ((s.popIdle t none some).threads t).pc = at_ := by
  unfold State.popIdle
  split <;> simp_all

theorem stand_fetchSub {W : Nat} {s : Executor.State T} {t : T} {last other panic : Pc T}
    {at_ : Stand} (hLast : stand last = at_) (hOther : stand other = at_)
    (hLive : ((s.fetchSub W t last other panic).threads t).pc.live) :
    stand ((s.fetchSub W t last other panic).threads t).pc = at_ := by
  simp only [State.fetchSub, goto_self] at hLive ⊢
  split at hLive
  · simp [Pc.live] at hLive
  · next hBound =>
      rw [if_neg hBound]
      split <;> assumption

/-- A step leaves a call where it stands, but for the end of `run` and for the end of
the call. -/
theorem stand_step {W maxThreads : Nat} {s s' : Executor.State T} {t : T}
    (shape : (s.threads t).pc.Shape) (hLive : (s'.threads t).pc.live)
    (h : step W maxThreads s t = some s') :
    stand (s'.threads t).pc = stand (s.threads t).pc ∨ (s.threads t).pc = .ending ∨
      (s.threads t).pc = .leave := by
  cases hp : (s.threads t).pc <;> simp only [step, hp, reduceCtorEq] at h <;>
    simp only [hp, Pc.Shape] at shape
  case ending | leave => simp
  case waitFirst | waitThird =>
    obtain rfl := Option.some.inj h
    exact .inl (stand_pollUnparked (fun _ => rfl) rfl (fun _ => rfl) hLive)
  case unwrapUnparked ready guarded =>
    obtain rfl := Option.some.inj h
    cases guarded <;>
      exact .inl (stand_pollUnparked (fun _ => rfl) rfl (fun h => by simp [Pc.live] at h) hLive)
  case waitLocked =>
    split at h
    · obtain rfl := Option.some.inj h
      exact .inl (stand_pollUnparked (fun _ => rfl) rfl (fun _ => rfl) hLive)
    · obtain rfl := Option.some.inj h
      simp [stand]
  case ownTimers =>
    obtain ⟨i, _, rfl⟩ := Option.map_eq_some_iff.mp h
    exact .inl (stand_pollTimers rfl)
  case retryPop caller =>
    obtain rfl := Option.some.inj h
    exact .inl (stand_popIdle (by cases caller <;> rfl) fun _ => rfl)
  case notifyPop next =>
    obtain rfl := Option.some.inj h
    exact .inl (stand_popIdle rfl fun _ => rfl)
  case failSub ended =>
    obtain rfl := Option.some.inj h
    cases ended <;> exact .inl (stand_fetchSub rfl rfl hLive)
  case discover next =>
    obtain rfl := Option.some.inj h
    rcases shape with rfl | rfl <;> exact .inl (stand_fetchSub rfl rfl hLive)
  case notifySub next =>
    obtain rfl := Option.some.inj h
    exact .inl (stand_fetchSub rfl rfl hLive)
  case unpark i u next =>
    obtain rfl := Option.some.inj h
    left
    unfold State.unpark
    split <;> simp [stand]
  case popLocal =>
    obtain ⟨i, _, rfl⟩ := Option.map_eq_some_iff.mp h
    left
    (repeat' split) <;> simp [stand]
  case giveBack ended =>
    obtain ⟨i, _, rfl⟩ := Option.map_eq_some_iff.mp h
    split at hLive
    · next hProducer => cases ended <;> simp [hProducer, stand]
    · simp [Pc.live] at hLive
  case dropGuard next =>
    obtain rfl := Option.some.inj h
    rcases shape with ⟨ready, rfl⟩ | ⟨i, ready, rfl⟩ <;> simp [stand]
  case pollIo next | lockIo next =>
    obtain rfl := Option.some.inj h
    left
    split <;> simp [stand, stand_polls shape]
  case swapTake i next =>
    obtain rfl := Option.some.inj h
    simp only [State.takeProducer, setThread_self] at hLive ⊢
    split at hLive
    · next hTaken =>
        rw [if_pos hTaken]
        rcases shape with rfl | rfl <;> exact .inl rfl
    · simp [Pc.live] at hLive
  case taken i ready =>
    obtain rfl := Option.some.inj h
    rcases ready with _ | _ | ready <;> simp [popAndInject, stand]
  case swapPut i ended =>
    obtain rfl := Option.some.inj h
    simp only [State.putProducer, setThread_self] at hLive ⊢
    split at hLive
    · next hPut => cases ended <;> simp [hPut, stand]
    · simp [Pc.live] at hLive
  case retryLoad caller =>
    obtain rfl := Option.some.inj h
    cases caller <;> simp only [goto_self, Caller.none] <;> split <;> simp [stand]
  case retryAdded caller i searching =>
    obtain rfl := Option.some.inj h
    simp only [goto_self] at hLive ⊢
    split at hLive
    · next hLt => cases caller <;> simp [hLt, Caller.some, stand]
    · simp [Pc.live] at hLive
  case push ready next =>
    split at h <;> obtain rfl := Option.some.inj h <;> simp [stand]
  case spawn i next =>
    (repeat' split at h) <;> obtain rfl := Option.some.inj h <;> simp_all [Pc.live, stand]
  case alone ready =>
    obtain rfl := Option.some.inj h
    simp only [goto_self]
    split <;> simp [stand]
  case lockTake i next =>
    obtain rfl := Option.some.inj h
    unfold State.lockProducer at hLive ⊢
    split at hLive
    · simp [Pc.live] at hLive
    · next hLock => simp [hLock, stand]
  case lockPut i ended =>
    obtain rfl := Option.some.inj h
    unfold State.lockProducer at hLive ⊢
    split at hLive
    · simp [Pc.live] at hLive
    · next hLock => cases ended <;> simp [hLock, stand]
  case failPush i wasSearching ended =>
    obtain rfl := Option.some.inj h
    split at hLive
    · simp [Pc.live] at hLive
    · next hBound => cases wasSearching <;> cases ended <;> simp [hBound, stand]
  case failCheck ended =>
    obtain rfl := Option.some.inj h
    cases ended <;> simp only [goto_self] <;> (repeat' split) <;> simp_all [stand]
  all_goals
    first
    | obtain rfl := Option.some.inj h
    | (split at h <;> obtain rfl := Option.some.inj h)
  all_goals
    revert hLive
    (repeat' split) <;> intro hLive <;> simp_all [Pc.live, stand]

/-- A choice leaves a call where it stands: only steps end it. -/
theorem stand_choose {W : Nat} {s s' : Executor.State T} {t : T} {choice : Choice T}
    (shape : (s.threads t).pc.Shape) (hCreate : ∀ u, choice ≠ .create u)
    (h : choose W s t choice = some s') :
    stand (s'.threads t).pc = stand (s.threads t).pc := by
  simp only [choose] at h
  split at h <;> rename_i hp <;> (try simp only [hp, Pc.Shape] at shape)
  case h_6 | h_7 | h_8 =>
    obtain rfl := Option.some.inj h
    unfold State.schedule
    split <;> simp [hp, stand]
  case h_9 | h_10 | h_11 | h_17 | h_18 | h_19 =>
    split at h
    · obtain rfl := Option.some.inj h
      simp [hp, stand]
    · simp at h
  case h_12 | h_13 | h_14 | h_15 | h_16 =>
    obtain rfl := Option.some.inj h
    simp [hp, stand]
  case h_22 next ready | h_29 next ready =>
    obtain rfl := Option.some.inj h
    rcases ready with _ | _ | ready <;> simp [hp, popAndInject, stand, stand_polls shape]
  case h_23 | h_24 | h_26 =>
    obtain ⟨i, hWorker, h⟩ := Option.bind_eq_some_iff.mp h
    split at h
    · obtain rfl := Option.some.inj h
      simp [hp, stand]
    · simp at h
  case h_27 =>
    split at h
    · obtain rfl := Option.some.inj h
      rw [hp]
      exact stand_pollTimers rfl
    · simp at h
  case h_30 u => exact (hCreate u rfl).elim
  case h_33 =>
    split at h
    · obtain rfl := Option.some.inj h
      simp [hp, stand]
    · simp at h
  case h_34 => simp at h
  all_goals
    obtain rfl := Option.some.inj h
    simp [hp, stand]

end Stand

/-! ## Steps of the executor -/

section Executor
variable [DecidableEq T] [Fintype T] {W maxThreads : Nat} {x x' : Executor.State T}

omit [Fintype T] in
/-- A call of `block_on` begins on a thread outside, with the entry of `search_retry`. -/
theorem next_outside {t : T} (h : Executor.next W maxThreads x (.blockOn t) = some x') :
    (x.threads t).pc = .outside ∧ x' = x.goto t (.retryLoad .entry) := by
  simp only [Executor.next] at h
  split at h
  · next hOutside => exact ⟨hOutside, (Option.some.inj h).symm⟩
  · simp at h

/-- A call that does not act itself keeps its line and its context. -/
theorem others_next {e : Executor.Event T} {v : T} (accounts : Accounts W x)
    (hActor : actor e ≠ some v) (hOutside : (x.threads v).pc ≠ .outside)
    (h : Executor.next W maxThreads x e = some x') :
    (x'.threads v).pc = (x.threads v).pc ∧ (x'.threads v).worker = (x.threads v).worker := by
  have hReacts : (x.threads v).Reacts (x'.threads v) := by
    cases e with
    | step t => exact accounts.reacts_step (fun hEq => hActor (hEq ▸ rfl)) h
    | choose t choice => exact accounts.reacts_choose (fun hEq => hActor (hEq ▸ rfl)) h
    | blockOn t =>
        obtain ⟨hHere, rfl⟩ := next_outside h
        have hNe : v ≠ t := by
          rintro rfl
          exact hOutside hHere
        simpa [State.goto, State.setThread, Function.update_of_ne hNe] using .same
    | wake t =>
        simp only [Executor.next] at h
        split at h
        · simp at h
        · obtain ⟨park, hPark, rfl⟩ := Option.map_eq_some_iff.mp h
          exact reacts_wake hPark v
    | tick milliseconds =>
        obtain rfl := Option.some.inj h
        exact .same
  revert hReacts
  generalize x'.threads v = th'
  rintro (_ | ⟨i, _⟩ | ⟨i, hHere⟩)
  · exact ⟨rfl, rfl⟩
  · exact ⟨rfl, rfl⟩
  · exact absurd hHere hOutside

/-- Where the acting call stands after its step. -/
theorem stand_next {e : Executor.Event T} {t : T} (shape : (x.threads t).pc.Shape)
    (hLive : (x'.threads t).pc.live) (hActor : actor e = some t)
    (h : Executor.next W maxThreads x e = some x') :
    stand (x'.threads t).pc = stand (x.threads t).pc ∨
      e = .step t ∧ ((x.threads t).pc = .ending ∧ stand (x'.threads t).pc = .closing ∨
        (x.threads t).pc = .leave) := by
  cases e with
  | blockOn | wake | tick => simp [actor] at hActor
  | step u =>
      obtain rfl : u = t := Option.some.inj hActor
      obtain hSame | hEnding | hLeave := stand_step shape hLive h
      · exact .inl hSame
      · refine .inr ⟨rfl, .inl ⟨hEnding, ?_⟩⟩
        simp only [Executor.next, step, hEnding] at h
        obtain rfl := Option.some.inj h
        simp only [goto_self]
        split <;> rfl
      · exact .inr ⟨rfl, .inr hLeave⟩
  | choose u choice =>
      obtain rfl : u = t := Option.some.inj hActor
      by_cases hCreate : ∃ v, choice = .create v
      · obtain ⟨v, rfl⟩ := hCreate
        cases hp : (x.threads u).pc
        case create i next =>
          simp only [Executor.next, choose, hp] at h
          split at h
          · obtain rfl := Option.some.inj h
            simp [stand]
          · simp at h
        all_goals simp [Executor.next, choose, hp] at h
      · push Not at hCreate
        exact .inl (stand_choose shape hCreate h)

omit [Fintype T] in
/-- The context of one thread is now that of the other. All other threads are as they
were. -/
theorem threads_handContext (t u v : T) :
    (handContext x t u).threads v =
      if v = t then { x.threads t with worker := none, producer := false }
      else if v = u then { x.threads u with
        worker := (x.threads t).worker, producer := (x.threads t).producer }
      else x.threads v := by
  simp only [handContext, State.setThread, Function.update_apply]

/-- A call that waits in a task or in a poll hands its context to one without any. -/
structure Hands (x : Executor.State T) (t u : T) : Prop where
  caller : (x.threads t).pc = .task ∨ (x.threads t).pc = .future
  turn : (x.threads u).pc = .turn
  none : (x.threads u).worker = none

omit [Fintype T] [DecidableEq T] in
/-- The two are not the same call, as one is in a task or a poll and the other at the
start of a turn. -/
theorem Hands.ne {t u : T} (hands : Hands x t u) : u ≠ t := by
  rintro rfl
  have hCaller := hands.caller
  simp [hands.turn] at hCaller

/-- No worker and no unit is lost where a context is handed on: the flag of the search
stays. -/
theorem accounts_handContext {t u : T} (accounts : Accounts W x) (hands : Hands x t u) :
    Accounts W (handContext x t u) := by
  have hOk := accounts.ok t
  have hOk' := accounts.ok u
  simp only [Thread.Ok, hands.turn, Pc.Ok] at hOk'
  refine accounts.handOver { x.threads t with worker := none, producer := false }
    { x.threads u with worker := (x.threads t).worker, producer := (x.threads t).producer }
    hands.ne rfl rfl rfl ?_ ?_ rfl fun i => ?_
  · rcases hands.caller with hp | hp <;> simp only [Thread.Ok, hp, Pc.Ok] at hOk ⊢ <;> exact hOk
  · simpa [Thread.Ok, hands.turn, Pc.Ok] using hOk'
  · simp only [Thread.holds, hands.none, held]
    omega

omit [Fintype T] in
theorem slots_handContext {t u : T} (slots : Slots x) (hands : Hands x t u) :
    Slots (handContext x t u) := by
  have hStocked := slots.stocked t
  have hStocked' := slots.stocked u
  have hProducer : (x.threads t).producer = (x.threads t).worker.isSome := by
    rcases hands.caller with hp | hp <;> simpa [Thread.Stocked, hp, Pc.Stocked] using hStocked
  have hNone : (x.threads u).producer = false := by
    simpa [Thread.Stocked, hands.turn, Pc.Stocked, hands.none] using hStocked'
  have hPuts : (x.threads t).pc.puts = false := by
    rcases hands.caller with hp | hp <;> rw [hp] <;> rfl
  have hKeeps : (x.threads u).keeps = none := by simp [Thread.keeps, hands.none]
  refine ⟨fun v => ?_, fun i h => ?_, fun i => ?_⟩
  · rw [threads_handContext]
    split
    · rcases hands.caller with hp | hp <;> simp [Thread.Stocked, hp, Pc.Stocked]
    · split
      · simp [Thread.Stocked, hands.turn, Pc.Stocked, hProducer]
      · exact slots.stocked v
  · obtain ⟨v, hv⟩ := slots.locks i h
    refine ⟨v, ?_⟩
    rw [threads_handContext]
    split
    · next hEq => exact hEq ▸ hv
    · split
      · next hEq => exact hEq ▸ hv
      · exact hv
  · have hProducers := slots.producers i
    change x.producers i = false ↔ _
    rw [hProducers]
    constructor
    · rintro ⟨v, hv⟩
      by_cases hEq : v = t
      · subst hEq
        refine ⟨u, ?_⟩
        rw [threads_handContext, if_neg hands.ne, if_pos rfl]
        have hWorker := Thread.keeps_worker hv
        simp [Thread.keeps, hProducer, hWorker]
      · have hOther : v ≠ u := by
          rintro rfl
          simp [hKeeps] at hv
        exact ⟨v, by rw [threads_handContext, if_neg hEq, if_neg hOther, hv]⟩
    · rintro ⟨v, hv⟩
      rw [threads_handContext] at hv
      split at hv
      · simp [Thread.keeps] at hv
      · split at hv
        · refine ⟨t, ?_⟩
          have hWorker := Thread.keeps_worker hv
          have hSome : (x.threads t).worker = some i := hWorker
          simp [Thread.keeps, hProducer, hSome]
        · exact ⟨v, hv⟩

/-- The invariants of the executor hold with the context handed on. -/
theorem inv_handContext {t u : T} (inv : Inv W maxThreads x) (hands : Hands x t u) :
    Inv W maxThreads (handContext x t u) :=
  ⟨accounts_handContext inv.accounts hands, slots_handContext inv.slots hands,
    inv.bounds.same rfl rfl le_rfl⟩

end Executor

/-! ## Runs without a loss -/

section Runs
variable [DecidableEq T] [Fintype T] {W maxThreads : Nat} {s s' : State T}

/-- The lines of a nested call that has not popped a worker. -/
def AtEntry (pc : Pc T) : Prop := pc = .retryLoad .entry ∨ pc = .retryPop .entry ∨ pc = .turn

/-- What a call that takes no second worker leaves alone. -/
structure Sound (W maxThreads : Nat) (s : State T) : Prop where
  inv : Inv W maxThreads s.executor
  shape : ∀ t, (s.executor.threads t).pc.Shape
  live : ∀ t, (s.executor.threads t).pc.live
  caller : ∀ u t, s.outer u = some t →
    (s.executor.threads t).pc = .task ∨ (s.executor.threads t).pc = .future
  inside : ∀ u t, s.outer u = some t → stand (s.executor.threads u).pc ≠ .outside
  unique : ∀ u v t, s.outer u = some t → s.outer v = some t → u = v
  entry : ∀ u t, s.outer u = some t → (s.executor.threads t).worker ≠ none →
    s.phase u = .starting ∧ AtEntry (s.executor.threads u).pc ∧ (s.executor.threads u).worker = none
  counted : ∀ t, s.phase t = .counted → stand (s.executor.threads t).pc = .running
  away : ∀ t, stand (s.executor.threads t).pc = .outside → s.phase t = .starting
  pending : s.pending = s.tasks +
    Tally.total (fun phase => if phase = Phase.counted then 1 else 0) s.phase

/-- A step of the executor that may be taken in a call. -/
structure Allowed (W : Nat) (s : State T) (e : Executor.Event T) : Prop where
  active : ∀ t, actor e = some t → ¬s.suspended t
  holds : CounterHolds W s.executor e
  cleared : FlagCleared s.executor e
  spares : ∀ u, e = .step u → (s.executor.threads u).pc = .retryPop .entry →
    (s.enclosing u).isSome → s.executor.idle = []
  turn : ∀ t choice, e = .choose t choice → (s.executor.threads t).pc = .turn → s.phase t = .counted
  ending : ∀ t, e = .step t → (s.executor.threads t).pc = .ending → s.phase t ≠ .counted
  leave : ∀ t, e = .step t → (s.executor.threads t).pc = .leave →
    s.outer t = none ∧ s.phase t = .starting

/-- A nested call at its entry finds no worker. -/
theorem entry_next {e : Executor.Event T} {x : Executor.State T} {u t : T}
    (sound : Sound W maxThreads s) (allowed : Allowed W s e)
    (h : Executor.next W maxThreads s.executor e = some x) (hActor : actor e = some u)
    (hOuter : s.outer u = some t) (hWorker : (s.executor.threads t).worker ≠ none) :
    AtEntry (x.threads u).pc ∧ (x.threads u).worker = none := by
  obtain ⟨hPhase, hEntry, hNone⟩ := sound.entry u t hOuter hWorker
  cases e with
  | blockOn | wake | tick => simp [actor] at hActor
  | choose v choice =>
      obtain rfl : v = u := Option.some.inj hActor
      rcases hEntry with hp | hp | hp
      · simp [Executor.next, choose, hp] at h
      · simp [Executor.next, choose, hp] at h
      · have hCounted := allowed.turn v choice rfl hp
        simp [hPhase] at hCounted
  | step v =>
      obtain rfl : v = u := Option.some.inj hActor
      rcases hEntry with hp | hp | hp
      · simp only [Executor.next, step, hp] at h
        obtain rfl := Option.some.inj h
        refine ⟨?_, by simpa using hNone⟩
        simp only [goto_self]
        split
        · exact .inr (.inl rfl)
        · exact .inr (.inr rfl)
      · have hEnclosing : (s.enclosing v).isSome := by
          simpa [State.enclosing, hOuter, Option.isSome_iff_ne_none] using hWorker
        have hIdle := allowed.spares v rfl hp hEnclosing
        simp only [Executor.next, step, hp, State.popIdle, hIdle] at h
        obtain rfl := Option.some.inj h
        exact ⟨.inr (.inr (by simp [Caller.none])), by simpa using hNone⟩
      · simp [Executor.next, step, hp] at h

/-- A step of the executor that is allowed keeps everything. A call that waits for
another takes no step meanwhile. -/
theorem Sound.execute {e : Executor.Event T} {x : Executor.State T} (sound : Sound W maxThreads s)
    (allowed : Allowed W s e) (h : Executor.next W maxThreads s.executor e = some x) :
    Sound W maxThreads { s with executor := x } := by
  have hShape := sound.inv.accounts.shape_next sound.shape h
  have hLive := sound.inv.live_next sound.live allowed.holds allowed.cleared h
  have hOther := fun v hActor hOutside =>
    others_next (e := e) (v := v) sound.inv.accounts hActor hOutside h
  have hCaller : ∀ u t, s.outer u = some t → (x.threads t).pc = (s.executor.threads t).pc ∧
      (x.threads t).worker = (s.executor.threads t).worker := by
    intro u t hOuter
    refine hOther t (fun hActor => allowed.active t hActor ⟨u, hOuter⟩) ?_
    rcases sound.caller u t hOuter with hp | hp <;> simp [hp]
  -- Only the last step of a call leads outside, and only the end of `run` to the end.
  have hStand : ∀ t, stand (x.threads t).pc = stand (s.executor.threads t).pc ∨
      stand (s.executor.threads t).pc = .outside ∨
      actor e = some t ∧ ((s.executor.threads t).pc = .ending ∧ stand (x.threads t).pc = .closing ∨
        (s.executor.threads t).pc = .leave) ∧ e = .step t := by
    intro t
    by_cases hActor : actor e = some t
    · obtain hSame | ⟨hStep, hEnd⟩ := stand_next (sound.shape t) (hLive t) hActor h
      · exact .inl hSame
      · exact .inr (.inr ⟨hActor, hEnd, hStep⟩)
    · by_cases hOutside : (s.executor.threads t).pc = .outside
      · exact .inr (.inl (by rw [hOutside]; rfl))
      · exact .inl (congrArg stand (hOther t hActor hOutside).1)
  refine ⟨sound.inv.next h, hShape, hLive, fun u t hOuter => ?_, fun u t hOuter => ?_, sound.unique,
    fun u t hOuter hWorker => ?_, fun t hCounted => ?_, fun t hAway => ?_, sound.pending⟩
  · have hBefore := sound.caller u t hOuter
    rwa [← (hCaller u t hOuter).1] at hBefore
  · have hBefore := sound.inside u t hOuter
    obtain hSame | hOutside | ⟨-, ⟨-, hClosing⟩ | hLeave, rfl⟩ := hStand u
    · rwa [hSame]
    · exact absurd hOutside hBefore
    · simp [hClosing]
    · simp [(allowed.leave u rfl hLeave).1] at hOuter
  · obtain ⟨-, hSame⟩ := hCaller u t hOuter
    have hBefore : (s.executor.threads t).worker ≠ none := by rwa [← hSame]
    obtain ⟨hPhase, hEntry, hNone⟩ := sound.entry u t hOuter hBefore
    by_cases hActor : actor e = some u
    · exact ⟨hPhase, entry_next sound allowed h hActor hOuter hBefore⟩
    · have hInside : (s.executor.threads u).pc ≠ .outside := by
        rcases hEntry with hp | hp | hp <;> simp [hp]
      obtain ⟨hPc, hWorker'⟩ := hOther u hActor hInside
      exact ⟨hPhase, by rwa [hPc], by rwa [hWorker']⟩
  · have hBefore := sound.counted t hCounted
    obtain hSame | hOutside | ⟨-, ⟨hEnding, -⟩ | hLeave, rfl⟩ := hStand t
    · rwa [hSame]
    · simp [hBefore] at hOutside
    · exact absurd hCounted (allowed.ending t rfl hEnding)
    · rw [hLeave] at hBefore
      simp [stand] at hBefore
  · obtain hSame | hOutside | ⟨-, ⟨-, hClosing⟩ | hLeave, rfl⟩ := hStand t
    · exact sound.away t (hSame ▸ hAway)
    · exact sound.away t hOutside
    · simp [hClosing] at hAway
    · exact (allowed.leave t rfl hLeave).2

/-- A call that is past its count returns. -/
theorem Sound.returns {u : T} (sound : Sound W maxThreads s)
    (hLeave : (s.executor.threads u).pc = .leave) :
    Sound W maxThreads ((s.setPhase u .starting).setOuter u none) := by
  have hNot : s.phase u ≠ .counted := by
    intro hCounted
    have hRunning := sound.counted u hCounted
    simp [hLeave, stand] at hRunning
  have hOuter : ∀ {v t}, Function.update s.outer u none v = some t → v ≠ u ∧ s.outer v = some t := by
    intro v t hv
    by_cases hEq : v = u
    · simp [hEq] at hv
    · exact ⟨hEq, by rwa [Function.update_of_ne hEq] at hv⟩
  refine ⟨sound.inv, sound.shape, sound.live, fun v t hv => sound.caller v t (hOuter hv).2,
    fun v t hv => sound.inside v t (hOuter hv).2,
    fun v w t hv hw => sound.unique v w t (hOuter hv).2 (hOuter hw).2, fun v t hv hWorker => ?_,
    fun t hCounted => ?_, fun t hAway => ?_, ?_⟩
  · obtain ⟨hNe, hBefore⟩ := hOuter hv
    have hEntry := sound.entry v t hBefore hWorker
    simpa [State.setOuter, State.setPhase, hNe] using hEntry
  · by_cases hEq : t = u
    · simp [State.setOuter, State.setPhase, hEq] at hCounted
    · exact sound.counted t (by simpa [State.setOuter, State.setPhase, hEq] using hCounted)
  · by_cases hEq : t = u
    · simp [State.setOuter, State.setPhase, hEq]
    · simpa [State.setOuter, State.setPhase, hEq] using sound.away t hAway
  · have hTotal := Tally.total_update (fun phase => if phase = Phase.counted then 1 else 0) s.phase u
      .starting
    have hPending := sound.pending
    simp only [if_neg hNot] at hTotal
    simp only [State.setOuter, State.setPhase]
    simpa [hPending] using hTotal.symm

/-- A call is made from within a task or a poll. -/
theorem Sound.nest {t u : T} (sound : Sound W maxThreads s)
    (hCaller : (s.executor.threads t).pc = .task ∨ (s.executor.threads t).pc = .future)
    (hFree : ¬s.suspended t) (hOutside : (s.executor.threads u).pc = .outside) :
    Sound W maxThreads
      ({ s with executor := s.executor.goto u (.retryLoad .entry) }.setOuter u (some t)) := by
  have hNext : Executor.next W maxThreads s.executor (.blockOn u) =
      some (s.executor.goto u (.retryLoad .entry)) := by
    simp [Executor.next, hOutside]
  have allowed : Allowed W s (.blockOn u) :=
    ⟨by simp [actor], trivial, trivial, by simp, by simp, by simp, by simp⟩
  have started := sound.execute allowed hNext
  have hNe : t ≠ u := by
    rintro rfl
    simp [hOutside] at hCaller
  have hHere : (s.executor.goto u (.retryLoad .entry)).threads t = s.executor.threads t := by
    simp [State.goto, State.setThread, hNe]
  have hOuter : ∀ {v w}, Function.update s.outer u (some t) v = some w →
      v = u ∧ w = t ∨ v ≠ u ∧ s.outer v = some w := by
    intro v w hv
    by_cases hEq : v = u
    · subst hEq
      exact .inl ⟨rfl, by simpa [eq_comm] using hv⟩
    · exact .inr ⟨hEq, by rwa [Function.update_of_ne hEq] at hv⟩
  refine ⟨started.inv, started.shape, started.live, fun v w hv => ?_, fun v w hv => ?_,
    fun v v' w hv hv' => ?_, fun v w hv hWorker => ?_, started.counted, started.away,
    started.pending⟩
  · obtain ⟨rfl, rfl⟩ | ⟨-, hBefore⟩ := hOuter hv
    · simp only [State.setOuter, hHere]
      exact hCaller
    · exact started.caller v w hBefore
  · obtain ⟨rfl, rfl⟩ | ⟨-, hBefore⟩ := hOuter hv
    · simp [State.setOuter, stand]
    · exact started.inside v w hBefore
  · obtain ⟨rfl, rfl⟩ | ⟨-, hBefore⟩ := hOuter hv
    · obtain ⟨rfl, -⟩ | ⟨-, hBefore'⟩ := hOuter hv'
      · rfl
      · exact (hFree ⟨v', hBefore'⟩).elim
    · obtain ⟨rfl, rfl⟩ | ⟨-, hBefore'⟩ := hOuter hv'
      · exact (hFree ⟨v, hBefore⟩).elim
      · exact started.unique v v' w hBefore hBefore'
  · obtain ⟨rfl, rfl⟩ | ⟨-, hBefore⟩ := hOuter hv
    · have hOk := sound.inv.accounts.ok v
      simp only [Thread.Ok, hOutside, Pc.Ok] at hOk
      refine ⟨sound.away v (by rw [hOutside]; rfl), ?_, ?_⟩
      · simp [State.setOuter, AtEntry]
      · simpa [State.setOuter] using hOk.1
    · exact started.entry v w hBefore hWorker

theorem total_counted {phase : T → Phase} {u : T} (h : phase u ≠ .counted) :
    Tally.total (fun phase => if phase = Phase.counted then 1 else 0)
        (Function.update phase u .counted) =
      Tally.total (fun phase => if phase = Phase.counted then 1 else 0) phase + 1 := by
  have hTotal := Tally.total_update (fun phase => if phase = Phase.counted then 1 else 0) phase u
    .counted
  simp only [if_neg h] at hTotal
  simpa [Nat.add_comm] using hTotal

theorem total_completed {phase : T → Phase} {u : T} (h : phase u = .counted) :
    Tally.total (fun phase => if phase = Phase.counted then 1 else 0)
        (Function.update phase u .completed) + 1 =
      Tally.total (fun phase => if phase = Phase.counted then 1 else 0) phase := by
  have hTotal := Tally.total_update (fun phase => if phase = Phase.counted then 1 else 0) phase u
    .completed
  simp only [h] at hTotal
  simpa [Nat.add_comm] using hTotal

/-- A call that begins has the context of the thread to itself. -/
theorem Sound.context {u : T} (sound : Sound W maxThreads s)
    (hTurn : (s.executor.threads u).pc = .turn) : ∃ x,
      s.begin u = { s with executor := x, pending := s.pending + 1 }.setPhase u .counted ∧
      Inv W maxThreads x ∧
      (∀ v, (x.threads v).pc = (s.executor.threads v).pc) ∧
      ∀ v w, s.outer v = some w → (x.threads w).worker ≠ none → v ≠ u ∧
        (s.executor.threads w).worker ≠ none ∧
        (x.threads v).worker = (s.executor.threads v).worker := by
  have hEntry : ∀ v w, s.outer v = some w → (s.executor.threads w).worker ≠ none →
      (s.executor.threads v).pc ≠ .task ∧ (s.executor.threads v).pc ≠ .future := by
    intro v w hv hWorker
    rcases (sound.entry v w hv hWorker).2.1 with hp | hp | hp <;> simp [hp]
  cases hOuter : s.outer u with
  | none =>
      refine ⟨s.executor, by simp [State.begin, hOuter], sound.inv, fun v => rfl,
        fun v w hv hWorker => ⟨?_, hWorker, rfl⟩⟩
      rintro rfl
      simp [hOuter] at hv
  | some t =>
      by_cases hNone : (s.executor.threads u).worker = none
      · have hCaller := sound.caller u t hOuter
        have hands : Hands s.executor t u := ⟨hCaller, hTurn, hNone⟩
        refine ⟨handContext s.executor t u, by simp [State.begin, hOuter, hNone],
          inv_handContext sound.inv hands, fun v => ?_, fun v w hv hWorker => ?_⟩
        · rw [threads_handContext]
          split
          · next hEq => rw [hEq]
          · split
            · next hEq => rw [hEq]
            · rfl
        · have hOther : w ≠ t := by
            rintro rfl
            simp [threads_handContext] at hWorker
          have hOther' : w ≠ u := by
            rintro rfl
            have hWaits := sound.caller v w hv
            simp [hTurn] at hWaits
          rw [threads_handContext, if_neg hOther, if_neg hOther'] at hWorker
          have hNe : v ≠ u := by
            rintro rfl
            exact hOther (Option.some.inj (hv.symm.trans hOuter))
          have hNe' : v ≠ t := by
            rintro rfl
            have hNot := hEntry v w hv hWorker
            exact hCaller.elim hNot.1 hNot.2
          exact ⟨hNe, hWorker, by rw [threads_handContext, if_neg hNe', if_neg hNe]⟩
      · refine ⟨s.executor, by simp [State.begin, hOuter, hNone], sound.inv, fun v => rfl,
          fun v w hv hWorker => ⟨?_, hWorker, rfl⟩⟩
        rintro rfl
        exact hNone (sound.entry v w hv hWorker).2.2

theorem Sound.begin {u : T} (sound : Sound W maxThreads s)
    (hTurn : (s.executor.threads u).pc = .turn) (hPhase : s.phase u = .starting) :
    Sound W maxThreads (s.begin u) := by
  obtain ⟨x, hBegin, inv, hSame, hContext⟩ := sound.context hTurn
  have hTotal := total_counted (show s.phase u ≠ .counted by simp [hPhase])
  have hPending := sound.pending
  have hOther : ∀ {t}, t ≠ u → Function.update s.phase u .counted t = s.phase t := fun hNe =>
    Function.update_of_ne hNe ..
  rw [hBegin]
  refine ⟨inv, fun t => ?_, fun t => ?_, fun v t hv => ?_, fun v t hv => ?_, sound.unique,
    fun v t hv hWorker => ?_, fun t hCounted => ?_, fun t hAway => ?_, ?_⟩
  · simpa only [State.setPhase, hSame t] using sound.shape t
  · simpa only [State.setPhase, hSame t] using sound.live t
  · simpa only [State.setPhase, hSame t] using sound.caller v t hv
  · simpa only [State.setPhase, hSame v] using sound.inside v t hv
  · obtain ⟨hNe, hBefore, hWorker'⟩ := hContext v t hv hWorker
    have hEntry := sound.entry v t hv hBefore
    simpa only [State.setPhase, hOther hNe, hSame v, hWorker'] using hEntry
  · by_cases hEq : t = u
    · subst hEq
      simp [State.setPhase, hSame t, hTurn, stand]
    · have hBefore : s.phase t = .counted := (hOther hEq).symm.trans hCounted
      simpa only [State.setPhase, hSame t] using sound.counted t hBefore
  · have hBefore : stand (s.executor.threads t).pc = .outside := by
      simpa only [State.setPhase, hSame t] using hAway
    have hNe : t ≠ u := by
      rintro rfl
      simp [hTurn, stand] at hBefore
    exact (hOther hNe).trans (sound.away t hBefore)
  · simp only [State.setPhase]
    omega

/-- `task_complete` finds itself counted. -/
theorem Sound.complete {u : T} (sound : Sound W maxThreads s)
    (hEnding : (s.executor.threads u).pc = .ending) (hPhase : s.phase u = .counted) :
    Sound W maxThreads (s.complete u) := by
  have hTotal := total_completed hPhase
  have hPending := sound.pending
  have hSome : s.pending ≠ 0 := by omega
  have hOther : ∀ {t}, t ≠ u → Function.update s.phase u .completed t = s.phase t := fun hNe =>
    Function.update_of_ne hNe ..
  unfold State.complete
  rw [if_neg hSome]
  refine ⟨sound.inv, sound.shape, sound.live, sound.caller, sound.inside, sound.unique,
    fun v t hv hWorker => ?_, fun t hCounted => ?_, fun t hAway => ?_, ?_⟩
  · obtain ⟨hStarting, hEntry⟩ := sound.entry v t hv hWorker
    have hNe : v ≠ u := by
      rintro rfl
      simp [hPhase] at hStarting
    exact ⟨(hOther hNe).trans hStarting, hEntry⟩
  · have hNe : t ≠ u := by
      rintro rfl
      simp [State.setPhase] at hCounted
    exact sound.counted t ((hOther hNe).symm.trans hCounted)
  · have hNe : t ≠ u := by
      rintro rfl
      have hAway : stand (s.executor.threads t).pc = .outside := hAway
      simp [hEnding, stand] at hAway
    exact (hOther hNe).trans (sound.away t hAway)
  · simp only [State.setPhase]
    omega

/-- The condition on a step: the searching counter keeps its bounds, no call comes to
`transition_to_running` with its search flag set, and a nested call pops no worker for
a thread that has one. -/
def Spares (W : Nat) (s : State T) : Event T → Prop
  | .executor e => CounterHolds W s.executor e ∧ FlagCleared s.executor e ∧
      ∀ u, e = .step u → (s.executor.threads u).pc = .retryPop .entry →
        (s.enclosing u).isSome → s.executor.idle = []
  | _ => True

/-- Inside the calls each step of the executor is as in a runtime without nesting. The
assertion of `transition_to_running` holds, as no worker is popped for a thread that has
one. -/
theorem sound_execute {e : Executor.Event T} (sound : Sound W maxThreads s)
    (spares : Spares W s (.executor e)) (hActive : ∀ t, actor e = some t → ¬s.suspended t)
    (h : execute W maxThreads s e = some s') : Sound W maxThreads s' := by
  have hPlain : (∀ t choice, e = .choose t choice → (s.executor.threads t).pc = .turn →
        s.phase t = .counted) →
      (∀ t, e = .step t → (s.executor.threads t).pc = .ending → s.phase t ≠ .counted) →
      (∀ t, e = .step t → (s.executor.threads t).pc ≠ .leave) →
      (Executor.next W maxThreads s.executor e).map (fun x => { s with executor := x }) = some s' →
      Sound W maxThreads s' := by
    intro hTurn hEnding hLeave hNext
    obtain ⟨x, hx, rfl⟩ := Option.map_eq_some_iff.mp hNext
    exact sound.execute ⟨hActive, spares.1, spares.2.1, spares.2.2, hTurn, hEnding, fun t hStep hp =>
      (hLeave t hStep hp).elim⟩ hx
  cases e with
  | blockOn | wake | tick => exact hPlain (by simp) (by simp) (by simp) h
  | choose t choice =>
      simp only [execute] at h
      split at h
      · simp at h
      · next hTurn =>
          refine hPlain (fun u c hEq hp => ?_) (by simp) (by simp) h
          obtain ⟨rfl, -⟩ : t = u ∧ choice = c := by simpa using hEq
          by_contra hNot
          exact hTurn ⟨hp, hNot⟩
  | step u =>
      simp only [execute] at h
      have hStep : ∀ {t}, Executor.Event.step u = .step t → t = u := fun hEq => by
        simpa [eq_comm] using hEq
      split at h
      · next i next hp =>
          split at h
          · next hSome =>
              obtain ⟨j, hWorker⟩ := Option.isSome_iff_exists.mp hSome
              obtain ⟨t, hOuter, hWorker⟩ := Option.bind_eq_some_iff.mp hWorker
              have hEntry := (sound.entry u t hOuter (by simp [hWorker])).2.1
              simp [AtEntry, hp] at hEntry
          · exact hPlain (by simp) (fun t hEq hEnding => by simp [hStep hEq, hp] at hEnding)
              (fun t hEq hLeave => by simp [hStep hEq, hp] at hLeave) h
      · next hp =>
          split at h
          · simp at h
          · next hPhase =>
              exact hPlain (by simp) (fun t hEq _ => hStep hEq ▸ hPhase)
                (fun t hEq hLeave => by simp [hStep hEq, hp] at hLeave) h
      · next hp =>
          obtain ⟨inner, hInner, rfl⟩ := Option.map_eq_some_iff.mp h
          obtain ⟨x, hx, rfl⟩ := Option.map_eq_some_iff.mp hInner
          have returned := sound.returns hp
          refine returned.execute ⟨fun t hActor => ?_, spares.1, spares.2.1, fun t hEq hEntry => ?_, by simp,
            fun t hEq hEnding => ?_, fun t hEq _ => ?_⟩ hx
          · rintro ⟨v, hv⟩
            by_cases hEq : v = u
            · simp [State.setOuter, hEq] at hv
            · exact hActive t hActor ⟨v, by simpa [State.setOuter, State.setPhase, hEq] using hv⟩
          · simp [State.setOuter, State.setPhase, hStep hEq, hp] at hEntry
          · simp [State.setOuter, State.setPhase, hStep hEq, hp] at hEnding
          · simp [State.setOuter, State.setPhase, hStep hEq]
      · next hNotResume hNotEnding hNotLeave =>
          exact hPlain (by simp) (fun t hEq hEnding => (hNotEnding (hStep hEq ▸ hEnding)).elim)
            (fun t hEq hLeave => hNotLeave (hStep hEq ▸ hLeave)) h

/-- Every step that meets the condition keeps the invariant. A nested call never panics,
so there is nothing to unwind. -/
theorem sound_next {e : Event T} (sound : Sound W maxThreads s) (spares : Spares W s e)
    (h : next W maxThreads s e = some s') : Sound W maxThreads s' := by
  cases e with
  | executor e =>
      simp only [next] at h
      split at h
      · next hActive => exact sound_execute sound spares hActive h
      · simp at h
  | nest t u =>
      simp only [next] at h
      split at h
      · next hNest =>
          obtain rfl := Option.some.inj h
          exact sound.nest hNest.1 hNest.2.1 hNest.2.2
      · simp at h
  | taskBegin u =>
      simp only [next] at h
      split at h
      · next hBegin =>
          obtain rfl := Option.some.inj h
          exact sound.begin hBegin.1 hBegin.2
      · simp at h
  | taskComplete u =>
      simp only [next] at h
      split at h
      · next hComplete =>
          obtain rfl := Option.some.inj h
          exact sound.complete hComplete.1 hComplete.2
      · simp at h
  | unwind u =>
      simp only [next] at h
      split at h
      · next t line _ hPanicked =>
          have hLive := sound.live u
          simp [hPanicked, Pc.live] at hLive
      · simp at h
  | spawned =>
      obtain rfl := Option.some.inj h
      have hPending := sound.pending
      exact ⟨sound.inv, sound.shape, sound.live, sound.caller, sound.inside, sound.unique,
        sound.entry, sound.counted, sound.away, by simp only [hPending]; omega⟩
  | finished =>
      simp only [next] at h
      split at h
      · obtain rfl := Option.some.inj h
        have hPending := sound.pending
        exact ⟨sound.inv, sound.shape, sound.live, sound.caller, sound.inside, sound.unique,
          sound.entry, sound.counted, sound.away, by simp only [hPending]; omega⟩
      · simp at h

/-- At the start no call is in progress. -/
theorem sound_initial (hW : 0 < W) (maxThreads : Nat) :
    Sound W maxThreads (system T W maxThreads).initial := by
  refine ⟨inv_initial hW maxThreads, fun _ => trivial, fun _ => rfl, ?_, ?_, ?_, ?_, ?_, fun _ _ => rfl,
    ?_⟩
  · simp [system]
  · simp [system]
  · simp [system]
  · simp [system]
  · simp [system]
  · simp [system, Tally.total]

/-- Every worker is idle or with a call in progress, every unit of the searching counter
is with such a call, and `pending` counts the unfinished tasks and the calls that have
begun and not ended. -/
structure Undamaged (W : Nat) (s : State T) : Prop where
  workers : ∀ i < W, i ∈ s.executor.idle ∨
    ∃ t, (s.executor.threads t).pc ≠ .outside ∧ (s.executor.threads t).pc.live ∧
      0 < (s.executor.threads t).holds i
  searching : s.executor.searching =
    Tally.total (fun th => if th.pc.live then th.tokens else 0) s.executor.threads
  pending : s.pending = s.tasks + (Finset.univ.filter fun t =>
    s.phase t = .counted ∧ stand (s.executor.threads t).pc = .running).card

/-- What the invariant says of the workers, the searching counter and `pending`. -/
theorem Sound.undamaged (sound : Sound W maxThreads s) : Undamaged W s := by
  have accounts := sound.inv.accounts
  refine ⟨fun i hi => ?_, ?_, ?_⟩
  · have hHolds := accounts.holds i
    rw [if_pos hi] at hHolds
    by_cases hIdle : i ∈ s.executor.idle
    · exact .inl hIdle
    · right
      rw [List.count_eq_zero_of_not_mem hIdle] at hHolds
      obtain ⟨t, ht⟩ := Tally.exists_of_total_pos (f := Thread.holds i) (g := s.executor.threads)
        (by omega)
      refine ⟨t, fun hOutside => ?_, sound.live t, ht⟩
      have hNone := ((sound.inv.conserved sound.live).outside t hOutside).2.2 i
      omega
  · rw [accounts.tokens]
    unfold Tally.total
    refine Finset.sum_congr rfl fun t _ => ?_
    simp [sound.live t]
  · rw [sound.pending]
    congr 1
    rw [Tally.total, Finset.card_filter]
    refine Finset.sum_congr rfl fun t _ => ?_
    by_cases hCounted : s.phase t = .counted
    · simp [hCounted, sound.counted t hCounted]
    · simp [hCounted]

/-- In a run of which every step meets the condition a nested call damages nothing. -/
theorem undamaged_of_spares (hW : 0 < W) {steps : List (State T × Event T)}
    (run : (system T W maxThreads).Run steps s) (spares : Meets (Spares W) steps) :
    Undamaged W s :=
  (System.Path.keeps_of_meets run (Spares W) spares (sound_initial hW maxThreads)
    fun _ _ _ sound spares h => sound_next sound spares h).undamaged

end Runs

/-- A task whose nested call finds no worker, since a thread is started for the other
one, and has the worker of the task. -/
def nestedBegins : List (Event (Fin 3)) :=
  List.flatten [[.executor (.blockOn 0)], List.replicate 7 (.executor (.step 0)),
    [.taskBegin 0, .executor (.choose 0 .poll), .executor (.choose 0 .schedule)],
    List.replicate 2 (.executor (.step 0)),
    [.executor (.choose 0 .pending), .executor (.step 0), .executor (.choose 0 .next)],
    List.replicate 10 (.executor (.step 0)),
    [.executor (.choose 0 (.create 2)), .nest 0 1, .executor (.step 1), .taskBegin 1]]

instance (W : Nat) (s : State (Fin 3)) : (e : Event (Fin 3)) → Decidable (Spares W s e)
  | .executor (.step u) => decidable_of_iff (CounterHolds W s.executor (.step u) ∧
      FlagCleared s.executor (.step u) ∧ ((s.executor.threads u).pc = .retryPop .entry → (s.enclosing u).isSome →
        s.executor.idle = [])) (by simp [Spares])
  | .executor (.choose _ _) | .executor (.blockOn _) | .executor (.wake _) | .executor (.tick _) =>
      .isTrue ⟨trivial, trivial, by simp⟩
  | .nest _ _ | .taskBegin _ | .taskComplete _ | .unwind _ | .spawned | .finished => .isTrue trivial

/-- The future of a call makes another one in its first poll, while the call is still
searching. The nested one has the worker, gives it back and returns, and leaves the flag
set without a worker. -/
def nestedReturns : List (Event (Fin 3)) :=
  List.flatten [[.executor (.blockOn 0)], List.replicate 7 (.executor (.step 0)),
    [.taskBegin 0, .executor (.choose 0 .poll), .nest 0 1, .executor (.step 1), .taskBegin 1,
      .executor (.choose 1 .poll), .executor (.choose 1 .ready), .executor (.step 1),
      .taskComplete 1], List.replicate 6 (.executor (.step 1))]

/-- Two runs that meet the condition: a nested call which has the worker of its task,
and one that has returned and left the search flag without a worker. Neither has damaged
anything. -/
theorem undamaged_of_spares_nestedBegins :
    (∃ s, (system (Fin 3) 2 4).Reachable s ∧ (s.executor.threads 1).worker = some 1 ∧
      Undamaged 2 s) ∧
    ∃ s, (system (Fin 3) 1 4).Reachable s ∧ (s.executor.threads 1).pc = .outside ∧
      (s.executor.threads 0).searching = true ∧ (s.executor.threads 0).worker = none ∧
      Undamaged 1 s := by
  constructor
  · obtain ⟨s, run, hWorker⟩ := (system (Fin 3) 2 4).exists_run_of_replay nestedBegins
      (fun s => (s.executor.threads 1).worker) (some 1) (by decide)
    have spares : Meets (Spares 2) ((system (Fin 3) 2 4).trace (system (Fin 3) 2 4).initial
        nestedBegins) := fun x hx => (show ∀ x ∈ _, Spares 2 x.1 x.2 by decide) x hx
    exact ⟨s, run.reachable, hWorker, undamaged_of_spares (by decide) run spares⟩
  · obtain ⟨s, run, hEnd⟩ := (system (Fin 3) 1 4).exists_run_of_replay nestedReturns
      (fun s => ((s.executor.threads 1).pc, (s.executor.threads 0).searching,
        (s.executor.threads 0).worker)) (.outside, true, none) (by decide)
    simp only [Prod.mk.injEq] at hEnd
    have spares : Meets (Spares 1) ((system (Fin 3) 1 4).trace (system (Fin 3) 1 4).initial
        nestedReturns) := fun x hx => (show ∀ x ∈ _, Spares 1 x.1 x.2 by decide) x hx
    exact ⟨s, run.reachable, hEnd.1, hEnd.2.1, hEnd.2.2,
      undamaged_of_spares (by decide) run spares⟩

/-- `block_on` gets a worker, runs a task on it and wakes a thread for another worker. -/
def taskRuns : List (Event (Fin 3)) :=
  List.flatten [[.executor (.blockOn 0)], List.replicate 7 (.executor (.step 0)),
    [.taskBegin 0, .executor (.choose 0 .poll), .executor (.choose 0 .schedule)],
    List.replicate 2 (.executor (.step 0)),
    [.executor (.choose 0 .pending), .executor (.step 0), .executor (.choose 0 .next)],
    List.replicate 10 (.executor (.step 0)), [.executor (.choose 0 (.create 1))]]

/-- The task calls `block_on` while a third worker is idle. -/
def nestedCall : List (Event (Fin 3)) :=
  List.flatten [taskRuns, [.nest 0 2], List.replicate 5 (.executor (.step 2)), [.unwind 2]]

/-- The nested call has popped the third worker and taken a unit of the counter, and its
panic has lost both. -/
theorem nestedCall_damages : ∃ s, (system (Fin 3) 3 4).Reachable s ∧
    (∀ t, (s.executor.threads t).pc.live) ∧ ¬Undamaged 3 s := by
  obtain ⟨s, run, hEnd⟩ := (system (Fin 3) 3 4).exists_run_of_replay nestedCall
    (fun s => (s.executor.idle, (List.finRange 3).map fun t =>
      ((s.executor.threads t).pc.live, (s.executor.threads t).holds 0)))
    ([], List.replicate 3 (true, 0)) (by decide)
  have hIdle : s.executor.idle = [] := congrArg Prod.fst hEnd
  have hAll : (List.finRange 3).map (fun t => ((s.executor.threads t).pc.live,
      (s.executor.threads t).holds 0)) = List.replicate 3 (true, 0) := congrArg Prod.snd hEnd
  have hThreads : ∀ t, (s.executor.threads t).pc.live = true ∧
      (s.executor.threads t).holds 0 = 0 := by
    intro t
    have hMem := List.mem_map_of_mem (f := fun t => ((s.executor.threads t).pc.live,
      (s.executor.threads t).holds 0)) (List.mem_finRange t)
    rw [hAll] at hMem
    exact Prod.ext_iff.mp (List.eq_of_mem_replicate hMem)
  refine ⟨s, run.reachable, fun t => (hThreads t).1, fun undamaged => ?_⟩
  obtain hQueued | ⟨t, -, -, hHolds⟩ := undamaged.workers 0 (by decide)
  · simp [hIdle] at hQueued
  · simp [(hThreads t).2] at hHolds

end Yaar.Runtime.NestedBlockOn
