import Yaar.Runtime.ExecutorLines

/-! Which thread has a worker, and where the producer of its run queue is. -/
namespace Yaar.Runtime.Executor

open Machine

variable {T : Type*}

/-- The lines at which the context's worker is set while its producer is not. -/
def Pc.swaps : Pc T → Bool
  | .lockTake _ _ | .swapTake _ _ | .lockPut _ _ | .swapPut _ _ => true
  | _ => false

/-- The lines of `transition_to_idle` that have the producer at hand. -/
def Pc.puts : Pc T → Bool
  | .lockPut _ _ | .swapPut _ _ => true
  | _ => false

/-- The run queue whose lock a thread at a line holds. -/
def Pc.locks : Pc T → Option Nat
  | .swapTake i _ | .swapPut i _ => some i
  | _ => none

def Pc.live : Pc T → Bool
  | .panicked _ => false
  | _ => true

/-- The lines that compare the searching counter with its bounds, and the one that
finds the search flag cleared. -/
def Pc.checks : Pc T → Bool
  | .resume _ _ | .retryAdded _ _ _ | .beginLoad | .beginAdded _ | .failSub _ | .discover _ | .notifySearching _
  | .notifySwap _ | .notifySub _ => true
  | _ => false

/-- A context has the producer of its worker, but for the lines that swap it. -/
def Pc.Stocked (worker : Option Nat) (producer : Bool) : Pc T → Prop
  | .lockTake i next | .swapTake i next => producer = false ∧ next.live ∧ next.Stocked (some i) true
  | .lockPut _ _ | .swapPut _ _ => producer = false
  | .resume i next =>
      producer = false ∧ worker = none ∧ next.live ∧ next.Stocked (some i) true
  | .discover next | .expire _ next | .pollIo next | .lockIo next | .polling next | .push _ next
  | .notifyLoad next | .notifySearching next | .notifySwap next | .notifyPending next
  | .notifyPop next | .spawn _ next | .unpark _ _ next | .create _ next | .spawnFailed _ next
  | .notifyPush _ next | .notifySub next | .dropGuard next =>
      producer = worker.isSome ∧ next.live ∧ next.Stocked worker producer
  | _ => producer = worker.isSome

def Thread.Stocked (th : Thread T) : Prop := th.pc.Stocked th.worker th.producer

/-- The worker whose producer a thread has, in its context or at hand. -/
def Thread.keeps (th : Thread T) : Option Nat :=
  if th.producer ∨ th.pc.puts then th.worker else none

/-- Outside of the swaps a context has the producer exactly if it has a worker. -/
theorem Thread.Stocked.producer {th : Thread T} (h : th.Stocked) (hSwaps : th.pc.swaps = false) :
    th.producer = th.worker.isSome := by
  unfold Thread.Stocked at h
  cases hp : th.pc <;> simp_all [Pc.Stocked, Pc.swaps]

theorem Thread.Stocked.keeps {th : Thread T} (h : th.Stocked) (hSwaps : th.pc.swaps = false) :
    th.keeps = th.worker := by
  have hProducer := h.producer hSwaps
  unfold Thread.keeps
  split
  · rfl
  · next hNot =>
      cases hWorker : th.worker with
      | none => rfl
      | some i => simp_all

/-- What a thread keeps or holds a lock on is its worker. -/
theorem Thread.keeps_worker {th : Thread T} {i : Nat} (h : th.keeps = some i) :
    th.worker = some i := by
  unfold Thread.keeps at h
  split at h
  · exact h
  · simp at h

theorem Thread.locks_worker {th : Thread T} {i : Nat} (ok : th.Ok) (h : th.pc.locks = some i) :
    th.worker = some i := by
  unfold Thread.Ok at ok
  cases hp : th.pc <;> simp_all [Pc.locks, Pc.Ok]

theorem Thread.holds_worker {th : Thread T} {i : Nat} (h : th.worker = some i) :
    0 < th.holds i := by
  simp [Thread.holds, h, held]

variable [DecidableEq T]

/-- A step that swaps no producer, and fails only where it checks the counter or the
search flag. -/
structure Steady (s s' : State T) (t : T) (th : Thread T) : Prop where
  threads : s'.threads = Function.update s.threads t th
  producers : s'.producers = s.producers
  locks : s'.locks = s.locks
  stocked : th.Stocked
  keeps : th.keeps = (s.threads t).keeps
  swaps : (s.threads t).pc.swaps = false
  live : th.pc.live ∨ (s.threads t).pc.checks

/-- A step that leaves worker and producer of the context in place is steady. -/
theorem Steady.of {s s' : State T} {t : T} {th : Thread T} (stocked : (s.threads t).Stocked)
    (hSwaps : (s.threads t).pc.swaps = false)
    (hThreads : s'.threads = Function.update s.threads t th)
    (hProducers : s'.producers = s.producers) (hLocks : s'.locks = s.locks)
    (hWorker : th.worker = (s.threads t).worker) (hProducer : th.producer = (s.threads t).producer)
    (hStocked : th.pc.Stocked (s.threads t).worker (s.threads t).producer)
    (hLive : th.pc.live ∨ (s.threads t).pc.checks) : Steady s s' t th := by
  refine ⟨hThreads, hProducers, hLocks, ?_, ?_, hSwaps, hLive⟩
  · rw [Thread.Stocked, hWorker, hProducer]
    exact hStocked
  · have hOld := stocked.keeps hSwaps
    have hEq := stocked.producer hSwaps
    unfold Thread.keeps at hOld ⊢
    rw [hWorker, hProducer]
    cases hNone : (s.threads t).worker with
    | none => simp
    | some i => simp_all

/-- The thread of a step goes on to a line that suits its context. -/
theorem Steady.goto {s s' : State T} {t : T} {pc : Pc T} (stocked : (s.threads t).Stocked)
    (hSwaps : (s.threads t).pc.swaps = false)
    (hThreads : s'.threads = Function.update s.threads t { s.threads t with pc := pc })
    (hProducers : s'.producers = s.producers) (hLocks : s'.locks = s.locks)
    (hStocked : pc.Stocked (s.threads t).worker (s.threads t).producer)
    (hLive : pc.live ∨ (s.threads t).pc.checks) :
    Steady s s' t { s.threads t with pc := pc } :=
  .of stocked hSwaps hThreads hProducers hLocks rfl rfl hStocked hLive

/-- To poll the state of the parker is steady, if the three lines are. A worker that is
taken from there is not in the context yet. -/
theorem steady_pollUnparked {s : State T} {t : T} {taken : Nat → Pc T} {woken otherwise : Pc T}
    (stocked : (s.threads t).Stocked) (hSwaps : (s.threads t).pc.swaps = false)
    (hTaken : ∀ i, (taken i).Stocked (s.threads t).worker (s.threads t).producer ∧ (taken i).live)
    (hWoken : woken.Stocked (s.threads t).worker (s.threads t).producer ∧ woken.live)
    (hOtherwise : (∀ w, (s.threads t).park ≠ .notified w) →
      otherwise.Stocked (s.threads t).worker (s.threads t).producer ∧ otherwise.live) :
    ∃ th, Steady s (s.pollUnparked t taken woken otherwise) t th := by
  simp only [State.pollUnparked]
  split
  · next i _ =>
      exact ⟨_, .of stocked hSwaps rfl rfl rfl rfl rfl (hTaken i).1 (Or.inl (hTaken i).2)⟩
  · exact ⟨_, .of stocked hSwaps rfl rfl rfl rfl rfl hWoken.1 (Or.inl hWoken.2)⟩
  · next hSome hNone =>
      have hNot : ∀ w, (s.threads t).park ≠ .notified w := by
        intro w hPark
        cases w with
        | none => exact hNone hPark
        | some i => exact hSome i hPark
      exact ⟨_, .goto stocked hSwaps rfl rfl rfl (hOtherwise hNot).1 (Or.inl (hOtherwise hNot).2)⟩

/-- To poll the timers is steady: the context stays as it is. -/
theorem steady_pollTimers {s : State T} {t : T} {queue : Nat} {next : Pc T}
    (stocked : (s.threads t).Stocked) (hSwaps : (s.threads t).pc.swaps = false)
    (hNext : next.Stocked (s.threads t).worker (s.threads t).producer) (hLive : next.live) :
    ∃ th, Steady s (s.pollTimers t queue next) t th := by
  simp only [State.pollTimers]
  split
  · exact ⟨_, .goto stocked hSwaps rfl rfl rfl hNext (Or.inl hLive)⟩
  · split
    · exact ⟨_, .of stocked hSwaps rfl rfl rfl rfl rfl hNext (Or.inl hLive)⟩
    · exact ⟨_, .of stocked hSwaps rfl rfl rfl rfl rfl
        ⟨stocked.producer hSwaps, hLive, hNext⟩ (Or.inl rfl)⟩

theorem steady_popIdle {s : State T} {t : T} {none : Pc T} {some : Nat → Pc T}
    (stocked : (s.threads t).Stocked) (hSwaps : (s.threads t).pc.swaps = false)
    (hNone : none.Stocked (s.threads t).worker (s.threads t).producer ∧ none.live)
    (hSome : ∀ i, (some i).Stocked (s.threads t).worker (s.threads t).producer ∧ (some i).live) :
    ∃ th, Steady s (s.popIdle t none some) t th := by
  unfold State.popIdle
  split
  · exact ⟨_, .goto stocked hSwaps rfl rfl rfl hNone.1 (Or.inl hNone.2)⟩
  · exact ⟨_, .goto stocked hSwaps rfl rfl rfl (hSome _).1 (Or.inl (hSome _).2)⟩
  · exact ⟨_, .goto stocked hSwaps rfl rfl rfl (hSome _).1 (Or.inl (hSome _).2)⟩

/-- To subtract a unit is steady up to its check, which may fail. -/
theorem steady_fetchSub {W : Nat} {s : State T} {t : T} {last other panic : Pc T}
    (stocked : (s.threads t).Stocked) (hSwaps : (s.threads t).pc.swaps = false)
    (hChecks : (s.threads t).pc.checks)
    (hLast : last.Stocked (s.threads t).worker (s.threads t).producer)
    (hOther : other.Stocked (s.threads t).worker (s.threads t).producer) :
    ∃ th, Steady s (s.fetchSub W t last other panic) t th := by
  unfold State.fetchSub
  split
  · exact ⟨_, .goto stocked hSwaps rfl rfl rfl (stocked.producer hSwaps) (Or.inr hChecks)⟩
  · split
    · exact ⟨_, .goto stocked hSwaps rfl rfl rfl hLast (Or.inr hChecks)⟩
    · exact ⟨_, .goto stocked hSwaps rfl rfl rfl hOther (Or.inr hChecks)⟩

/-- The lines of `Parker::park` are steady: the thread has neither worker nor producer
there. -/
theorem steady_wait {W maxThreads : Nat} {s s' : State T} {t : T} (ok : (s.threads t).Ok)
    (stocked : (s.threads t).Stocked) (hStage : (s.threads t).pc.stage = .wait)
    (h : step W maxThreads s t = some s') : ∃ th, Steady s s' t th := by
  have hStocked := stocked
  unfold Thread.Ok at ok
  unfold Thread.Stocked at hStocked
  have hSwaps : (s.threads t).pc.swaps = false := by
    cases hp : (s.threads t).pc <;> simp_all [Pc.stage, Pc.swaps]
  cases hp : (s.threads t).pc <;> simp only [hp, Pc.stage, reduceCtorEq] at hStage <;>
    simp only [hp, step, Pc.Ok, Pc.Stocked] at h ok hStocked
  case waitFirst | waitThird =>
    obtain rfl := Option.some.inj h
    refine steady_pollUnparked stocked hSwaps ?_ ?_ ?_ <;> simp_all [Pc.Stocked, Pc.live]
  case unwrapUnparked ready guarded =>
    obtain rfl := Option.some.inj h
    cases guarded <;>
      refine steady_pollUnparked stocked hSwaps ?_ ?_ ?_ <;> simp_all [Pc.Stocked, Pc.live]
  case waitLocked =>
    split at h
    · obtain rfl := Option.some.inj h
      refine steady_pollUnparked stocked hSwaps ?_ ?_ ?_ <;> simp_all [Pc.Stocked, Pc.live]
    · obtain rfl := Option.some.inj h
      exact ⟨_, .goto stocked hSwaps rfl rfl rfl hStocked (Or.inl rfl)⟩
  case lockPoll =>
    split at h
    all_goals
      obtain rfl := Option.some.inj h
      exact ⟨_, .goto stocked hSwaps rfl rfl rfl hStocked (Or.inl rfl)⟩
  case dropGuard next =>
    obtain rfl := Option.some.inj h
    exact ⟨_, .goto stocked hSwaps rfl rfl rfl hStocked.2.2 (Or.inl hStocked.2.1)⟩
  case swapParked isPolling | swapEmpty isPolling ready =>
    split at h
    all_goals
      obtain rfl := Option.some.inj h
      exact ⟨_, .of stocked hSwaps rfl rfl rfl rfl rfl hStocked (Or.inl rfl)⟩
  case taken i ready =>
    obtain rfl := Option.some.inj h
    refine ⟨_, .goto stocked hSwaps rfl rfl rfl ?_ ?_⟩ <;> rcases ready with _ | _ | ready <;>
      simp_all [popAndInject, Pc.Stocked, Pc.live]
  all_goals
    obtain rfl := Option.some.inj h
    refine ⟨_, .goto stocked hSwaps rfl rfl rfl ?_ ?_⟩ <;> (repeat' split) <;>
      simp_all [Pc.Stocked, Pc.live]

/-- The lines of `inject` and `notify` are steady. The assertion of `spawn` holds as the
pool keeps to its limit. -/
theorem steady_notify {W maxThreads : Nat} {s s' : State T} {t : T}
    (stocked : (s.threads t).Stocked) (hStage : (s.threads t).pc.stage = .notify)
    (hUnpark : ∀ i u next, (s.threads t).pc ≠ .unpark i u next)
    (hSpawned : s.spawned ≤ maxThreads)
    (h : step W maxThreads s t = some s') : ∃ th, Steady s s' t th := by
  have hStocked := stocked
  unfold Thread.Stocked at hStocked
  have hSwaps : (s.threads t).pc.swaps = false := by
    cases hp : (s.threads t).pc <;> simp_all [Pc.stage, Pc.swaps]
  cases hp : (s.threads t).pc <;> simp only [hp, Pc.stage, reduceCtorEq] at hStage <;>
    simp only [hp, step, Pc.Stocked] at h hStocked
  case unpark i u next => exact (hUnpark i u next hp).elim
  case notifyPop next =>
    obtain rfl := Option.some.inj h
    exact steady_popIdle stocked hSwaps ⟨hStocked, rfl⟩ fun _ => ⟨hStocked, rfl⟩
  case notifySub next =>
    obtain rfl := Option.some.inj h
    exact steady_fetchSub stocked hSwaps (by rw [hp]; rfl) hStocked.2.2 hStocked.2.2
  case notifySwap next =>
    split at h
    · obtain rfl := Option.some.inj h
      exact ⟨_, .goto stocked hSwaps rfl rfl rfl hStocked (Or.inl rfl)⟩
    · obtain rfl := Option.some.inj h
      refine ⟨_, .goto stocked hSwaps rfl rfl rfl ?_ (Or.inr (by rw [hp]; rfl))⟩
      split
      · exact hStocked.1
      · exact hStocked.2.2
  case notifySearching next =>
    obtain rfl := Option.some.inj h
    refine ⟨_, .goto stocked hSwaps rfl rfl rfl ?_ (Or.inr (by rw [hp]; rfl))⟩
    split
    · exact hStocked.1
    · split
      · exact hStocked.2.2
      · exact hStocked
  case spawn i next =>
    split at h
    · obtain rfl := Option.some.inj h
      exact ⟨_, .goto stocked hSwaps rfl rfl rfl hStocked (Or.inl rfl)⟩
    · rw [if_neg (by omega)] at h
      split at h
      all_goals
        obtain rfl := Option.some.inj h
        exact ⟨_, .goto stocked hSwaps rfl rfl rfl hStocked (Or.inl rfl)⟩
  case push ready next =>
    split at h
    all_goals
      obtain rfl := Option.some.inj h
      exact ⟨_, .goto stocked hSwaps rfl rfl rfl hStocked (Or.inl rfl)⟩
  all_goals
    obtain ⟨hProducer, hLive, hNext⟩ := hStocked
    obtain rfl := Option.some.inj h
    refine ⟨_, .goto stocked hSwaps rfl rfl rfl ?_ ?_⟩ <;> (repeat' split) <;>
      first
      | exact ⟨hProducer, hLive, hNext⟩
      | exact hNext
      | exact Or.inl hLive
      | exact Or.inl rfl

/-- The lines of `search_retry` and `transition_to_running` are steady, but for those
that swap the producer. -/
theorem steady_retry {W maxThreads : Nat} {s s' : State T} {t : T} (ok : (s.threads t).Ok)
    (stocked : (s.threads t).Stocked) (hStage : (s.threads t).pc.stage = .retry)
    (hSwaps : (s.threads t).pc.swaps = false)
    (h : step W maxThreads s t = some s') : ∃ th, Steady s s' t th := by
  have hStocked := stocked
  unfold Thread.Ok at ok
  unfold Thread.Stocked at hStocked
  cases hp : (s.threads t).pc <;> simp only [hp, Pc.stage, reduceCtorEq] at hStage <;>
    simp only [hp, Pc.swaps, reduceCtorEq] at hSwaps <;>
    simp only [hp, step, Pc.Ok, Pc.Stocked] at h ok hStocked
  case retryPop caller =>
    obtain rfl := Option.some.inj h
    refine steady_popIdle stocked (by rw [hp]; rfl) ?_ ?_ <;> cases caller <;>
      simp_all [Pc.Stocked, Pc.live, Caller.none]
  case resume i next =>
    obtain rfl := Option.some.inj h
    split
    · refine ⟨_, rfl, rfl, rfl, ⟨hStocked.1, hStocked.2.2⟩, ?_, by rw [hp]; rfl, Or.inl rfl⟩
      simp [Thread.keeps, hStocked.1, Pc.puts, hp]
    · have hNone : (s.threads t).producer = (s.threads t).worker.isSome := by
        simp [hStocked.1, hStocked.2.1]
      exact ⟨_, .goto stocked (by rw [hp]; rfl) rfl rfl rfl hNone (Or.inr (by rw [hp]; rfl))⟩
  case retryAdded caller i searching =>
    obtain rfl := Option.some.inj h
    refine ⟨_, .goto stocked (by rw [hp]; rfl) rfl rfl rfl ?_ (Or.inr (by rw [hp]; rfl))⟩
    split <;> cases caller <;> simp_all [Pc.Stocked, Pc.live, Caller.some]
  case retryLoad caller =>
    obtain rfl := Option.some.inj h
    refine ⟨_, .goto stocked (by rw [hp]; rfl) rfl rfl rfl ?_ ?_⟩ <;> split <;> cases caller <;>
      simp_all [Pc.Stocked, Pc.live, Caller.none]
  case retryAdd caller i =>
    obtain rfl := Option.some.inj h
    exact ⟨_, .goto stocked (by rw [hp]; rfl) rfl rfl rfl hStocked (Or.inl rfl)⟩

theorem steady_work {W maxThreads : Nat} {s s' : State T} {t : T}
    (stocked : (s.threads t).Stocked) (hStage : (s.threads t).pc.stage = .work)
    (h : step W maxThreads s t = some s') : ∃ th, Steady s s' t th := by
  have hStocked := stocked
  unfold Thread.Stocked at hStocked
  have hSwaps : (s.threads t).pc.swaps = false := by
    cases hp : (s.threads t).pc <;> simp_all [Pc.stage, Pc.swaps]
  cases hp : (s.threads t).pc <;> simp only [hp, Pc.stage, reduceCtorEq] at hStage <;>
    simp only [hp, step, Pc.Stocked] at h hStocked
  case ownTimers =>
    obtain ⟨i, _, rfl⟩ := Option.map_eq_some_iff.mp h
    exact steady_pollTimers stocked hSwaps hStocked rfl
  case popLocal =>
    obtain ⟨i, _, rfl⟩ := Option.map_eq_some_iff.mp h
    split
    · exact ⟨_, .goto stocked hSwaps rfl rfl rfl hStocked (Or.inl rfl)⟩
    · refine ⟨_, .goto stocked hSwaps rfl rfl rfl ?_ ?_⟩ <;> split <;>
        simp_all [Pc.Stocked, Pc.live]
  case pollIo next =>
    obtain rfl := Option.some.inj h
    refine ⟨_, .goto stocked hSwaps rfl rfl rfl ?_ ?_⟩ <;> split
    · exact hStocked.2.2
    · exact hStocked
    · exact Or.inl hStocked.2.1
    · exact Or.inl rfl
  case lockIo next =>
    split at h
    · obtain rfl := Option.some.inj h
      exact ⟨_, .goto stocked hSwaps rfl rfl rfl hStocked.2.2 (Or.inl hStocked.2.1)⟩
    · obtain rfl := Option.some.inj h
      exact ⟨_, .goto stocked hSwaps rfl rfl rfl hStocked (Or.inl rfl)⟩
  case beginAdded searching =>
    split at h
    · obtain rfl := Option.some.inj h
      exact ⟨_, .of stocked hSwaps rfl rfl rfl rfl rfl hStocked (Or.inl rfl)⟩
    · obtain rfl := Option.some.inj h
      exact ⟨_, .goto stocked hSwaps rfl rfl rfl hStocked (Or.inr (by rw [hp]; rfl))⟩
  case beginLoad =>
    obtain rfl := Option.some.inj h
    refine ⟨_, .goto stocked hSwaps rfl rfl rfl ?_ (Or.inr (by rw [hp]; rfl))⟩
    split
    · exact hStocked
    · split <;> exact hStocked
  all_goals
    obtain rfl := Option.some.inj h
    refine ⟨_, .goto stocked hSwaps rfl rfl rfl ?_ ?_⟩ <;> (repeat' split) <;>
      simp_all [Pc.Stocked, Pc.live]

/-- The lines of `block_on` around a task are steady. -/
theorem steady_run {W maxThreads : Nat} {s s' : State T} {t : T}
    (stocked : (s.threads t).Stocked) (hStage : (s.threads t).pc.stage = .run)
    (h : step W maxThreads s t = some s') : ∃ th, Steady s s' t th := by
  have hStocked := stocked
  unfold Thread.Stocked at hStocked
  have hSwaps : (s.threads t).pc.swaps = false := by
    cases hp : (s.threads t).pc <;> simp_all [Pc.stage, Pc.swaps]
  cases hp : (s.threads t).pc <;> simp only [hp, Pc.stage, reduceCtorEq] at hStage <;>
    simp only [hp, step, Pc.Stocked] at h hStocked
  case found | finish =>
    split at h
    · obtain rfl := Option.some.inj h
      exact ⟨_, .of stocked hSwaps rfl rfl rfl rfl rfl ⟨hStocked, rfl, hStocked⟩ (Or.inl rfl)⟩
    · obtain rfl := Option.some.inj h
      exact ⟨_, .goto stocked hSwaps rfl rfl rfl hStocked (Or.inl rfl)⟩
  case discover next =>
    obtain rfl := Option.some.inj h
    exact steady_fetchSub stocked hSwaps (by rw [hp]; rfl) hStocked hStocked.2.2
  case ending =>
    obtain rfl := Option.some.inj h
    refine ⟨_, .goto stocked hSwaps rfl rfl rfl ?_ ?_⟩ <;> split <;>
      simp_all [Pc.Stocked, Pc.live]
  case leave =>
    obtain rfl := Option.some.inj h
    refine ⟨{ s.threads t with pc := .outside, pooled := false, park := .empty },
      .of stocked hSwaps ?_ ?_ ?_ rfl rfl hStocked (Or.inl rfl)⟩ <;> split <;> rfl

/-- The lines of `transition_to_idle` and `search_failed` are steady, but for the swap.
The index of the worker is in bounds there. -/
theorem steady_idle {W maxThreads : Nat} {s s' : State T} {t : T} (ok : (s.threads t).Ok)
    (stocked : (s.threads t).Stocked) (hStage : (s.threads t).pc.stage = .idle)
    (hSwaps : (s.threads t).pc.swaps = false)
    (hIndex : ∀ i, 0 < (s.threads t).holds i → i < W)
    (h : step W maxThreads s t = some s') : ∃ th, Steady s s' t th := by
  have hStocked := stocked
  unfold Thread.Ok at ok
  unfold Thread.Stocked at hStocked
  cases hp : (s.threads t).pc <;> simp only [hp, Pc.stage, reduceCtorEq] at hStage <;>
    simp only [hp, Pc.swaps, reduceCtorEq] at hSwaps <;>
    simp only [hp, step, Pc.Ok, Pc.Stocked] at h ok hStocked
  case giveBack ended =>
    obtain ⟨i, hWorker, rfl⟩ := Option.map_eq_some_iff.mp h
    have hProducer : (s.threads t).producer = true := by simp [hStocked, hWorker]
    rw [if_pos hProducer]
    refine ⟨_, rfl, rfl, rfl, rfl, ?_, by rw [hp]; rfl, Or.inl rfl⟩
    simp [Thread.keeps, Pc.puts, hProducer]
  case failPush i wasSearching ended =>
    have hBound : i < W := hIndex i (by simp [Thread.holds, hp, Pc.holds])
    rw [if_neg (by omega)] at h
    obtain rfl := Option.some.inj h
    refine ⟨_, .goto stocked (by rw [hp]; rfl) rfl rfl rfl ?_ (Or.inl ?_)⟩ <;>
      cases wasSearching <;> cases ended <;> simp [Pc.Stocked, Pc.live, hStocked]
  case failSub ended =>
    obtain rfl := Option.some.inj h
    refine steady_fetchSub stocked (by rw [hp]; rfl) (by rw [hp]; rfl) hStocked ?_
    cases ended <;> exact hStocked
  case failCheck ended =>
    obtain rfl := Option.some.inj h
    refine ⟨_, .goto stocked (by rw [hp]; rfl) rfl rfl rfl ?_ (Or.inl ?_)⟩ <;> (repeat' split) <;>
      simp_all [Pc.Stocked, Pc.live]

/-- Every step is steady that neither swaps a producer nor changes two threads. -/
theorem steady_step {W maxThreads : Nat} {s s' : State T} {t : T} (ok : (s.threads t).Ok)
    (stocked : (s.threads t).Stocked) (hSwaps : (s.threads t).pc.swaps = false)
    (hIndex : ∀ i, 0 < (s.threads t).holds i → i < W) (hSpawned : s.spawned ≤ maxThreads)
    (hUnpark : ∀ i u next, (s.threads t).pc ≠ .unpark i u next)
    (h : step W maxThreads s t = some s') : ∃ th, Steady s s' t th := by
  cases hStage : (s.threads t).pc.stage with
  | user =>
      cases hp : (s.threads t).pc <;> simp only [hp, Pc.stage, reduceCtorEq] at hStage <;>
        simp [step, hp] at h
  | retry => exact steady_retry ok stocked hStage hSwaps h
  | work => exact steady_work stocked hStage h
  | idle => exact steady_idle ok stocked hStage hSwaps hIndex h
  | run => exact steady_run stocked hStage h
  | notify => exact steady_notify stocked hStage hUnpark hSpawned h
  | wait => exact steady_wait ok stocked hStage h

theorem steady_schedule {s : State T} {t : T} (stocked : (s.threads t).Stocked)
    (hSwaps : (s.threads t).pc.swaps = false) (hLive : (s.threads t).pc.live) :
    ∃ th, Steady s (s.schedule t) t th := by
  unfold State.schedule
  split
  · exact ⟨{ s.threads t with pc := .notifyLoad (s.threads t).pc },
      .goto stocked hSwaps rfl rfl rfl ⟨stocked.producer hSwaps, hLive, stocked⟩ (Or.inl rfl)⟩
  · exact ⟨{ s.threads t with pc := .push 1 (s.threads t).pc },
      .goto stocked hSwaps rfl rfl rfl ⟨stocked.producer hSwaps, hLive, stocked⟩ (Or.inl rfl)⟩

/-- What is decided outside of the executor swaps no producer. -/
theorem steady_choose {W : Nat} {s s' : State T} {t : T} {choice : Choice T}
    (stocked : (s.threads t).Stocked) (hCreate : ∀ u, choice ≠ .create u)
    (h : choose W s t choice = some s') : ∃ th, Steady s s' t th := by
  have hStay : ∀ s' : State T, (s.threads t).pc.swaps = false → s'.threads = s.threads →
      s'.producers = s.producers → s'.locks = s.locks → (s.threads t).pc.live →
      ∃ th, Steady s s' t th := fun s' hSwaps hThreads hProducers hLocks hLive =>
    ⟨s.threads t, by rw [hThreads, Function.update_eq_self], hProducers, hLocks, stocked, rfl,
      hSwaps, Or.inl hLive⟩
  have hStocked := stocked
  unfold Thread.Stocked at hStocked
  simp only [choose] at h
  split at h <;> rename_i hp <;> (try simp only [hp, Pc.Stocked] at hStocked)
  case h_1 | h_2 =>
    obtain rfl := Option.some.inj h
    exact ⟨_, .of stocked (by rw [hp]; rfl) rfl rfl rfl rfl rfl hStocked (Or.inl rfl)⟩
  case h_3 | h_4 | h_5 | h_25 | h_28 | h_32 =>
    obtain rfl := Option.some.inj h
    exact ⟨_, .goto stocked (by rw [hp]; rfl) rfl rfl rfl hStocked (Or.inl rfl)⟩
  case h_20 | h_21 =>
    obtain rfl := Option.some.inj h
    exact ⟨_, .goto stocked (by rw [hp]; rfl) rfl rfl rfl (by simp_all [Pc.Stocked, Pc.live])
      (Or.inl rfl)⟩
  case h_6 | h_7 | h_8 =>
    obtain rfl := Option.some.inj h
    exact steady_schedule stocked (by rw [hp]; rfl) (by rw [hp]; rfl)
  case h_9 | h_10 | h_11 | h_17 | h_18 | h_19 =>
    split at h
    · obtain rfl := Option.some.inj h
      exact hStay _ (by rw [hp]; rfl) rfl rfl rfl (by rw [hp]; rfl)
    · simp at h
  case h_12 | h_13 | h_14 | h_15 | h_16 =>
    obtain rfl := Option.some.inj h
    exact hStay _ (by rw [hp]; rfl) rfl rfl rfl (by rw [hp]; rfl)
  case h_22 next ready | h_29 next ready =>
    obtain ⟨hProducer, hLive, hNext⟩ := hStocked
    obtain rfl := Option.some.inj h
    refine ⟨_, .goto stocked (by rw [hp]; rfl) rfl rfl rfl ?_ (Or.inl ?_)⟩ <;>
      rcases ready with _ | _ | ready
    · exact hNext
    · exact hProducer
    · exact ⟨hProducer, rfl, hProducer⟩
    · exact hLive
    · rfl
    · rfl
  case h_23 | h_24 | h_26 =>
    obtain ⟨i, hWorker, h⟩ := Option.bind_eq_some_iff.mp h
    split at h
    · obtain rfl := Option.some.inj h
      exact ⟨_, .goto stocked (by rw [hp]; rfl) rfl rfl rfl hStocked (Or.inl rfl)⟩
    · simp at h
  case h_27 =>
    split at h
    · obtain rfl := Option.some.inj h
      exact steady_pollTimers stocked (by rw [hp]; rfl) hStocked rfl
    · simp at h
  case h_30 u => exact (hCreate u rfl).elim
  case h_31 =>
    obtain rfl := Option.some.inj h
    exact ⟨_, .goto stocked (by rw [hp]; rfl) rfl rfl rfl hStocked (Or.inl rfl)⟩
  case h_33 =>
    split at h
    · obtain rfl := Option.some.inj h
      exact ⟨_, .goto stocked (by rw [hp]; rfl) rfl rfl rfl hStocked (Or.inl rfl)⟩
    · simp at h
  case h_34 => simp at h

/-- The producer of a run queue is in the context, or in the hands, of the thread
that has its worker, or else in the queue; only that thread locks it. -/
structure Slots (s : State T) : Prop where
  stocked : ∀ t, (s.threads t).Stocked
  locks : ∀ i, s.locks i = true → ∃ t, (s.threads t).pc.locks = some i
  producers : ∀ i, s.producers i = false ↔ ∃ t, (s.threads t).keeps = some i

omit [DecidableEq T] in
/-- Parkers, clocks and the like do not matter. -/
theorem Slots.same {s s' : State T} (slots : Slots s)
    (hSame : ∀ t, (s'.threads t).pc = (s.threads t).pc ∧
      (s'.threads t).worker = (s.threads t).worker ∧
      (s'.threads t).producer = (s.threads t).producer)
    (hProducers : s'.producers = s.producers) (hLocks : s'.locks = s.locks) : Slots s' := by
  refine ⟨fun t => ?_, fun i h => ?_, fun i => ?_⟩
  · obtain ⟨hPc, hWorker, hProducer⟩ := hSame t
    have hStocked := slots.stocked t
    unfold Thread.Stocked at hStocked ⊢
    rwa [hPc, hWorker, hProducer]
  · rw [hLocks] at h
    obtain ⟨t, ht⟩ := slots.locks i h
    exact ⟨t, by rw [(hSame t).1, ht]⟩
  · rw [hProducers, slots.producers]
    refine exists_congr fun t => ?_
    obtain ⟨hPc, hWorker, hProducer⟩ := hSame t
    unfold Thread.keeps
    rw [hPc, hWorker, hProducer]

/-- It is enough to follow the locks and the producers of the thread that takes the
step. -/
theorem Slots.update {s s' : State T} {t : T} {th : Thread T} (slots : Slots s)
    (hThreads : s'.threads = Function.update s.threads t th) (hStocked : th.Stocked)
    (hLocks : ∀ i, s'.locks i = true → th.pc.locks = some i ∨
      s.locks i = true ∧ (s.threads t).pc.locks ≠ some i)
    (hProducers : ∀ i, s'.producers i = false ↔ th.keeps = some i ∨
      ∃ u, u ≠ t ∧ (s.threads u).keeps = some i) : Slots s' := by
  refine ⟨fun u => ?_, fun i h => ?_, fun i => ?_⟩
  · rw [hThreads, Function.update_apply]
    split
    · exact hStocked
    · exact slots.stocked u
  · rcases hLocks i h with hLine | ⟨hLock, hNot⟩
    · exact ⟨t, by rw [hThreads, Function.update_self, hLine]⟩
    · obtain ⟨u, hu⟩ := slots.locks i hLock
      have hNe : u ≠ t := by
        rintro rfl
        exact hNot hu
      exact ⟨u, by rw [hThreads, Function.update_of_ne hNe, hu]⟩
  · rw [hProducers, hThreads]
    constructor
    · rintro (hKeeps | ⟨u, hNe, hKeeps⟩)
      · exact ⟨t, by rw [Function.update_self, hKeeps]⟩
      · exact ⟨u, by rw [Function.update_of_ne hNe, hKeeps]⟩
    · rintro ⟨u, hKeeps⟩
      by_cases hEq : u = t
      · rw [hEq, Function.update_self] at hKeeps
        exact Or.inl hKeeps
      · rw [Function.update_of_ne hEq] at hKeeps
        exact Or.inr ⟨u, hEq, hKeeps⟩

/-- A producer that is not in its queue is kept by this thread or by another. -/
theorem Slots.keeps_iff {s : State T} (slots : Slots s) (t : T) (i : Nat) :
    s.producers i = false ↔ (s.threads t).keeps = some i ∨
      ∃ u, u ≠ t ∧ (s.threads u).keeps = some i := by
  rw [slots.producers]
  constructor
  · rintro ⟨u, hKeeps⟩
    by_cases hEq : u = t
    · exact Or.inl (hEq ▸ hKeeps)
    · exact Or.inr ⟨u, hEq, hKeeps⟩
  · rintro (hKeeps | ⟨u, -, hKeeps⟩)
    · exact ⟨t, hKeeps⟩
    · exact ⟨u, hKeeps⟩

theorem Slots.steady {s s' : State T} {t : T} {th : Thread T} (slots : Slots s)
    (steady : Steady s s' t th) : Slots s' := by
  refine slots.update steady.threads steady.stocked (fun i h => Or.inr ?_) fun i => ?_
  · rw [steady.locks] at h
    refine ⟨h, fun hLocks => ?_⟩
    have hSwaps := steady.swaps
    cases hp : (s.threads t).pc <;> simp_all [Pc.locks, Pc.swaps]
  · rw [steady.producers, steady.keeps]
    exact slots.keeps_iff t i

variable [Fintype T]

/-- A worker is in one context only. -/
theorem Accounts.exclusive {W : Nat} {s : State T} (accounts : Accounts W s) {t u : T} {i : Nat}
    (ht : (s.threads t).worker = some i) (hu : (s.threads u).worker = some i) : t = u := by
  by_contra hNe
  have hBoth := Tally.add_le_total (Thread.holds i) s.threads hNe
  have hAll := accounts.holds i
  have hFirst := Thread.holds_worker ht
  have hSecond := Thread.holds_worker hu
  split at hAll <;> omega

omit [DecidableEq T] in
theorem Accounts.lt_of_holds {W : Nat} {s : State T} (accounts : Accounts W s) {t : T} {i : Nat}
    (h : 0 < (s.threads t).holds i) : i < W := by
  have hLe := Tally.le_total (Thread.holds i) s.threads t
  have hAll := accounts.holds i
  by_contra hNot
  rw [if_neg hNot] at hAll
  omega

/-- Another thread keeps or locks other workers than that of a context. -/
theorem Accounts.others {W : Nat} {s : State T} (accounts : Accounts W s) {t : T} {i : Nat}
    (ht : (s.threads t).worker = some i) {u : T} (hNe : u ≠ t) :
    (s.threads u).keeps ≠ some i ∧ (s.threads u).pc.locks ≠ some i := by
  constructor
  · intro hKeeps
    exact hNe (accounts.exclusive (Thread.keeps_worker hKeeps) ht)
  · intro hLocks
    exact hNe (accounts.exclusive (Thread.locks_worker (accounts.ok u) hLocks) ht)

/-- `try_lock` finds the lock free. -/
theorem Slots.lock {W : Nat} {s : State T} {t : T} {i : Nat} {next : Pc T} (slots : Slots s)
    (accounts : Accounts W s) (hWorker : (s.threads t).worker = some i)
    (hLocks : (s.threads t).pc.locks = none) (hNext : next.locks = some i)
    (hStocked : next.Stocked (s.threads t).worker (s.threads t).producer)
    (hPuts : next.puts = (s.threads t).pc.puts) :
    Slots (s.lockProducer t i next) ∧ ((s.lockProducer t i next).threads t).pc = next := by
  have hFree : s.locks i = false := by
    by_contra hLock
    obtain ⟨u, hu⟩ := slots.locks i (by simpa using hLock)
    by_cases hEq : u = t
    · rw [hEq, hLocks] at hu
      simp at hu
    · exact (accounts.others hWorker hEq).2 hu
  simp only [State.lockProducer, hFree, Bool.false_eq_true, if_false]
  refine ⟨slots.update rfl hStocked (fun j h => ?_) fun j => ?_, by
    simp [State.goto, State.setThread]⟩
  · simp only [State.goto, State.setThread, Function.update_apply] at h
    split at h
    · next hEq => exact Or.inl (hEq ▸ hNext)
    · exact Or.inr ⟨h, by simp [hLocks]⟩
  · have hKeeps : Thread.keeps { s.threads t with pc := next } = (s.threads t).keeps := by
      simp [Thread.keeps, hPuts]
    rw [hKeeps]
    exact slots.keeps_iff t j

/-- The swap of `transition_to_running` finds the producer in the queue, as nobody else
has the worker. So its `unwrap` does not fail. -/
theorem Slots.take {W : Nat} {s : State T} {t : T} {i : Nat} {next : Pc T} (slots : Slots s)
    (accounts : Accounts W s) (hp : (s.threads t).pc = .swapTake i next) :
    Slots (s.takeProducer t i next) ∧ ((s.takeProducer t i next).threads t).pc.live := by
  have hOk := accounts.ok t
  have hStocked := slots.stocked t
  unfold Thread.Ok at hOk
  unfold Thread.Stocked at hStocked
  rw [hp] at hOk hStocked
  obtain ⟨hWorker, -⟩ := hOk
  obtain ⟨hProducer, hLive, hNext⟩ := hStocked
  have hHere : s.producers i = true := by
    by_contra hNot
    obtain ⟨u, hu⟩ := (slots.producers i).mp (by simpa using hNot)
    by_cases hEq : u = t
    · rw [hEq] at hu
      simp [Thread.keeps, hProducer, hp, Pc.puts] at hu
    · exact (accounts.others hWorker hEq).1 hu
  simp only [State.takeProducer, hHere, hProducer, and_self, if_true]
  refine ⟨slots.update rfl (by rw [Thread.Stocked, hWorker]; exact hNext) (fun j h => ?_)
    fun j => ?_, by simpa [State.setThread] using hLive⟩
  · simp only [State.setThread, Function.update_apply] at h
    split at h
    · simp at h
    · next hNe => exact Or.inr ⟨h, by simpa [hp, Pc.locks] using Ne.symm hNe⟩
  · simp only [State.setThread, Function.update_apply, Thread.keeps, hWorker, true_or, if_true,
      Option.some.injEq]
    split
    · next hEq => simp [hEq]
    · next hNe =>
        rw [slots.keeps_iff t j]
        simp [Thread.keeps, hProducer, hp, Pc.puts, Ne.symm hNe]

/-- The swap of `transition_to_idle` puts the producer back where there is none, so its
assertion does not fail. -/
theorem Slots.put {W : Nat} {s : State T} {t : T} {i : Nat} {ended : Bool} (slots : Slots s)
    (accounts : Accounts W s) (hp : (s.threads t).pc = .swapPut i ended) :
    Slots (s.putProducer t i ended) ∧ ((s.putProducer t i ended).threads t).pc.live := by
  have hOk := accounts.ok t
  have hStocked := slots.stocked t
  unfold Thread.Ok at hOk
  unfold Thread.Stocked at hStocked
  rw [hp] at hOk hStocked
  obtain ⟨hWorker, -⟩ := hOk
  have hKeeps : (s.threads t).keeps = some i := by
    simp [Thread.keeps, hp, Pc.puts, hWorker]
  have hGone : s.producers i = false := (slots.producers i).mpr ⟨t, hKeeps⟩
  simp only [State.putProducer, hGone, hWorker, and_self, if_true]
  refine ⟨slots.update rfl hStocked (fun j h => ?_) fun j => ?_, by simp [State.setThread, Pc.live]⟩
  · simp only [State.setThread, Function.update_apply] at h
    split at h
    · simp at h
    · next hNe => exact Or.inr ⟨h, by simpa [hp, Pc.locks] using Ne.symm hNe⟩
  · simp only [State.setThread, Function.update_apply]
    split
    · next hEq =>
        have hNone : ∀ u, u ≠ t → (s.threads u).keeps ≠ some j := fun u hNe =>
          hEq ▸ (accounts.others hWorker hNe).1
        simp only [Bool.true_eq_false, false_iff, not_or, not_exists, not_and]
        exact ⟨by simp [Thread.keeps], hNone⟩
    · next hNe =>
        rw [slots.keeps_iff t j, hKeeps]
        simp [Thread.keeps, Ne.symm hNe]

omit [Fintype T] in
theorem pollUnparked_eq (s : State T) (t : T) (taken : Nat → Pc T) (woken otherwise : Pc T) :
    ∃ th, s.pollUnparked t taken woken otherwise = s.setThread t th := by
  simp only [State.pollUnparked]
  split
  · exact ⟨_, rfl⟩
  · exact ⟨_, rfl⟩
  · exact ⟨_, rfl⟩

omit [Fintype T] in
/-- To poll the timers of a queue changes the thread and not the queue. -/
theorem pollTimers_eq (s : State T) (t : T) (queue : Nat) (next : Pc T) :
    ∃ th, s.pollTimers t queue next = s.setThread t th := by
  unfold State.pollTimers
  split
  · exact ⟨_, rfl⟩
  · simp only
    split
    · exact ⟨_, rfl⟩
    · exact ⟨_, rfl⟩

/-- The flag of the idle queue is exact and the pool keeps to its limit. -/
structure Bounds (maxThreads : Nat) (s : State T) : Prop where
  pending : s.pending = !s.idle.isEmpty
  spawned : s.spawned ≤ maxThreads

omit [DecidableEq T] [Fintype T] in
/-- The bounds depend on the idle queue, its flag and the number of threads. -/
theorem Bounds.same {maxThreads : Nat} {s s' : State T} (bounds : Bounds maxThreads s)
    (hPending : s'.pending = s.pending) (hIdle : s'.idle = s.idle)
    (hSpawned : s'.spawned ≤ s.spawned) : Bounds maxThreads s' :=
  ⟨by rw [hPending, hIdle, bounds.pending], hSpawned.trans bounds.spawned⟩

omit [Fintype T] in
/-- A pop sets the flag by what is left in the queue. -/
theorem Bounds.popIdle {maxThreads : Nat} {s : State T} (bounds : Bounds maxThreads s) {t : T}
    {none : Pc T} {some : Nat → Pc T} : Bounds maxThreads (s.popIdle t none some) := by
  unfold State.popIdle
  split
  · exact bounds.same rfl rfl le_rfl
  · exact ⟨rfl, bounds.spawned⟩
  · next i rest hRest hIdle =>
      refine ⟨?_, bounds.spawned⟩
      have hPending := bounds.pending
      rw [hIdle] at hPending
      cases rest with
      | nil => exact (hRest rfl).elim
      | cons j rest => exact hPending

omit [Fintype T] in
/-- Every step keeps the flag of the idle queue exact and the pool within its limit. -/
theorem Bounds.step {W maxThreads : Nat} {s s' : State T} {t : T} (bounds : Bounds maxThreads s)
    (h : step W maxThreads s t = some s') : Bounds maxThreads s' := by
  cases hp : (s.threads t).pc <;> simp only [Executor.step, hp, reduceCtorEq] at h
  case retryPop | notifyPop =>
    obtain rfl := Option.some.inj h
    exact bounds.popIdle
  case waitFirst | waitThird | unwrapUnparked =>
    obtain rfl := Option.some.inj h
    obtain ⟨th, hEq⟩ := pollUnparked_eq s t _ _ _
    rw [hEq]
    exact bounds.same rfl rfl le_rfl
  case waitLocked =>
    split at h
    · obtain rfl := Option.some.inj h
      obtain ⟨th, hEq⟩ := pollUnparked_eq s t _ _ _
      rw [hEq]
      exact bounds.same rfl rfl le_rfl
    · obtain rfl := Option.some.inj h
      exact bounds.same rfl rfl le_rfl
  case ownTimers =>
    obtain ⟨i, _, rfl⟩ := Option.map_eq_some_iff.mp h
    obtain ⟨th, hEq⟩ := pollTimers_eq s t i .popLocal
    rw [hEq]
    exact bounds.same rfl rfl le_rfl
  case popLocal | giveBack =>
    obtain ⟨i, _, rfl⟩ := Option.map_eq_some_iff.mp h
    split <;> exact bounds.same rfl rfl le_rfl
  case failPush i wasSearching ended =>
    obtain rfl := Option.some.inj h
    split
    · exact bounds.same rfl rfl le_rfl
    · exact ⟨rfl, bounds.spawned⟩
  case notifyPush =>
    obtain rfl := Option.some.inj h
    exact ⟨rfl, bounds.spawned⟩
  case spawn i next =>
    have hSpawned := bounds.spawned
    split at h
    · obtain rfl := Option.some.inj h
      exact bounds.same rfl rfl le_rfl
    · rw [if_neg (by omega)] at h
      split at h
      · obtain rfl := Option.some.inj h
        exact bounds.same rfl rfl le_rfl
      · obtain rfl := Option.some.inj h
        refine ⟨bounds.pending, ?_⟩
        change s.spawned + 1 ≤ maxThreads
        omega
  case spawnFailed i next =>
    obtain rfl := Option.some.inj h
    exact bounds.same rfl rfl (Nat.sub_le _ _)
  case leave =>
    obtain rfl := Option.some.inj h
    split
    · exact bounds.same rfl rfl (Nat.sub_le _ _)
    · exact bounds.same rfl rfl le_rfl
  case unpark i u next =>
    obtain rfl := Option.some.inj h
    unfold State.unpark
    split <;> exact bounds.same rfl rfl le_rfl
  case lockTake | lockPut =>
    obtain rfl := Option.some.inj h
    unfold State.lockProducer
    split <;> exact bounds.same rfl rfl le_rfl
  case push | lockIo | found | finish | notifySwap | lockPoll | swapParked | swapEmpty
    | beginAdded =>
    split at h <;> obtain rfl := Option.some.inj h <;> exact bounds.same rfl rfl le_rfl
  all_goals
    obtain rfl := Option.some.inj h
    exact bounds.same rfl rfl le_rfl

omit [Fintype T] in
theorem Bounds.choose {W maxThreads : Nat} {s s' : State T} {t : T} {choice : Choice T}
    (bounds : Bounds maxThreads s) (h : choose W s t choice = some s') : Bounds maxThreads s' := by
  simp only [Executor.choose] at h
  split at h
  case h_6 | h_7 | h_8 =>
    obtain rfl := Option.some.inj h
    unfold State.schedule
    split <;> exact bounds.same rfl rfl le_rfl
  case h_9 | h_10 | h_11 | h_17 | h_18 | h_19 | h_30 | h_33 =>
    split at h
    · obtain rfl := Option.some.inj h
      exact bounds.same rfl rfl le_rfl
    · simp at h
  case h_23 | h_24 | h_26 =>
    obtain ⟨i, hWorker, h⟩ := Option.bind_eq_some_iff.mp h
    split at h
    · obtain rfl := Option.some.inj h
      exact bounds.same rfl rfl le_rfl
    · simp at h
  case h_27 =>
    split at h
    · obtain rfl := Option.some.inj h
      rw [(pollTimers_eq s t _ .search).choose_spec]
      exact bounds.same rfl rfl le_rfl
    · simp at h
  case h_34 => simp at h
  all_goals
    obtain rfl := Option.some.inj h
    exact bounds.same rfl rfl le_rfl

omit [Fintype T] in
theorem Bounds.next {W maxThreads : Nat} {s s' : State T} {e : Event T}
    (bounds : Bounds maxThreads s) (h : next W maxThreads s e = some s') :
    Bounds maxThreads s' := by
  cases e with
  | step t => exact bounds.step h
  | choose t choice => exact bounds.choose h
  | blockOn t =>
      simp only [Executor.next] at h
      split at h
      · obtain rfl := Option.some.inj h
        exact bounds.same rfl rfl le_rfl
      · simp at h
  | wake t =>
      simp only [Executor.next] at h
      split at h
      · simp at h
      · obtain ⟨park, _, rfl⟩ := Option.map_eq_some_iff.mp h
        exact bounds.same rfl rfl le_rfl
  | tick milliseconds =>
      obtain rfl := Option.some.inj h
      exact bounds.same rfl rfl le_rfl

/-- A step keeps the slots, and makes a thread fail only where it checks the
searching counter. -/
theorem Slots.step {W maxThreads : Nat} {s s' : State T} {t : T} (slots : Slots s)
    (accounts : Accounts W s) (bounds : Bounds maxThreads s)
    (h : step W maxThreads s t = some s') :
    Slots s' ∧ ((s'.threads t).pc.live ∨ (s.threads t).pc.checks) := by
  have hOk := accounts.ok t
  have hStocked := slots.stocked t
  unfold Thread.Ok at hOk
  unfold Thread.Stocked at hStocked
  by_cases hSwaps : (s.threads t).pc.swaps
  · cases hp : (s.threads t).pc <;> simp only [hp, Pc.swaps, reduceCtorEq] at hSwaps <;>
      simp only [Executor.step, hp] at h <;> obtain rfl := Option.some.inj h <;>
      simp only [hp, Pc.Ok, Pc.Stocked] at hOk hStocked
    case lockTake i next =>
      obtain ⟨hSlots, hPc⟩ : Slots (s.lockProducer t i (.swapTake i next)) ∧
          ((s.lockProducer t i (.swapTake i next)).threads t).pc = .swapTake i next :=
        slots.lock accounts hOk.1 (by rw [hp]; rfl) rfl hStocked (by rw [hp]; rfl)
      exact ⟨hSlots, Or.inl (by rw [hPc]; rfl)⟩
    case lockPut i ended =>
      obtain ⟨hSlots, hPc⟩ : Slots (s.lockProducer t i (.swapPut i ended)) ∧
          ((s.lockProducer t i (.swapPut i ended)).threads t).pc = .swapPut i ended :=
        slots.lock accounts hOk.1 (by rw [hp]; rfl) rfl hStocked (by rw [hp]; rfl)
      exact ⟨hSlots, Or.inl (by rw [hPc]; rfl)⟩
    case swapTake i next =>
      obtain ⟨hSlots, hLive⟩ := slots.take accounts hp
      exact ⟨hSlots, Or.inl hLive⟩
    case swapPut i ended =>
      obtain ⟨hSlots, hLive⟩ := slots.put accounts hp
      exact ⟨hSlots, Or.inl hLive⟩
  · by_cases hUnpark : ∃ i u next, (s.threads t).pc = .unpark i u next
    · obtain ⟨i, u, next, hp⟩ := hUnpark
      simp only [Executor.step, hp] at h
      obtain rfl := Option.some.inj h
      simp only [hp, Pc.Stocked] at hStocked
      have hHere : ∀ s' : State T, Slots s' → s'.threads t = s.threads t →
          Slots (s'.goto t next) ∧ ((s'.goto t next).threads t).pc.live := by
        intro s' slots' hSame
        refine ⟨slots'.steady (.goto (slots'.stocked t) (by rw [hSame, hp]; rfl) rfl rfl rfl
          (by rw [hSame]; exact hStocked.2.2) (Or.inl hStocked.2.1)), ?_⟩
        simpa [State.goto, State.setThread] using hStocked.2.1
      unfold State.unpark
      split
      · refine ⟨slots.steady (.goto (slots.stocked t) (by rw [hp]; rfl) rfl rfl rfl hStocked
          (Or.inl rfl)), Or.inl ?_⟩
        simp [State.goto, State.setThread, Pc.live]
      · next park hPark =>
          obtain ⟨-, -, hLine⟩ := ok_unparked (accounts.ok u) hPark
          have hNe : t ≠ u := by
            rintro rfl
            rcases hLine with ⟨b, hb⟩ | ⟨b, n, hb⟩ <;> simp [hp] at hb
          obtain ⟨hSlots, hLive⟩ := hHere (s.setThread u { s.threads u with park := park })
            (slots.same (fun v => by
              simp only [State.setThread, Function.update_apply]
              split
              · next hEq => simp [hEq]
              · simp) rfl rfl)
            (Function.update_of_ne hNe _ _)
          exact ⟨hSlots, Or.inl hLive⟩
    · push Not at hUnpark
      obtain ⟨th, steady⟩ := steady_step (accounts.ok t) (slots.stocked t) (by simpa using hSwaps)
        (fun i => accounts.lt_of_holds) bounds.spawned hUnpark h
      refine ⟨slots.steady steady, ?_⟩
      rw [steady.threads, Function.update_self]
      exact steady.live

/-- A choice moves no producer. A thread that is created starts without one. -/
theorem Slots.choose {W : Nat} {s s' : State T} {t : T} {choice : Choice T} (slots : Slots s)
    (accounts : Accounts W s) (h : choose W s t choice = some s') : Slots s' := by
  by_cases hCreate : ∃ u, choice = .create u
  · obtain ⟨u, rfl⟩ := hCreate
    cases hp : (s.threads t).pc
    case create i next =>
      simp only [Executor.choose, hp] at h
      split at h
      · next hOutside =>
          obtain rfl := Option.some.inj h
          have hNe : t ≠ u := by
            rintro rfl
            simp [hp] at hOutside
          have hStocked := slots.stocked t
          have hOther := slots.stocked u
          have hOk := accounts.ok u
          simp only [Thread.Stocked, hp, Pc.Stocked] at hStocked
          simp only [Thread.Stocked, hOutside, Pc.Stocked] at hOther
          simp only [Thread.Ok, hOutside, Pc.Ok] at hOk
          have hNone : (s.threads u).producer = false := by rw [hOther, hOk.1]; rfl
          have started : Slots (s.setThread u { s.threads u with
              pc := .resume i .turn, pooled := true, park := .empty }) :=
            slots.steady (.of (slots.stocked u) (by rw [hOutside]; rfl) rfl rfl rfl rfl rfl
              ⟨hNone, hOk.1, rfl, rfl⟩ (Or.inl rfl))
          have hSelf := Function.update_of_ne hNe { s.threads u with
            pc := .resume i .turn, pooled := true, park := .empty } s.threads
          refine started.steady (.goto (started.stocked t) ?_ rfl rfl rfl ?_ (Or.inl hStocked.2.1))
          · simp only [State.setThread, hSelf, hp]
            rfl
          · simp only [State.setThread, hSelf]
            exact hStocked.2.2
      · simp at h
    all_goals simp [Executor.choose, hp] at h
  · push Not at hCreate
    obtain ⟨th, steady⟩ := steady_choose (slots.stocked t) hCreate h
    exact slots.steady steady

/-- The producers keep their places in every event. -/
theorem Slots.next {W maxThreads : Nat} {s s' : State T} {e : Event T} (slots : Slots s)
    (accounts : Accounts W s) (bounds : Bounds maxThreads s)
    (h : next W maxThreads s e = some s') : Slots s' := by
  cases e with
  | step t => exact (slots.step accounts bounds h).1
  | choose t choice => exact slots.choose accounts h
  | blockOn t =>
      simp only [Executor.next] at h
      split at h
      · next hOutside =>
          obtain rfl := Option.some.inj h
          have hStocked := slots.stocked t
          rw [Thread.Stocked, hOutside] at hStocked
          exact slots.steady (.goto (slots.stocked t) (by rw [hOutside]; rfl) rfl rfl rfl hStocked
            (Or.inl rfl))
      · simp at h
  | wake t =>
      simp only [Executor.next] at h
      split at h
      · simp at h
      · obtain ⟨park, _, rfl⟩ := Option.map_eq_some_iff.mp h
        refine slots.same (fun u => ?_) rfl rfl
        simp only [State.setThread, Function.update_apply]
        split
        · next hEq => simp [hEq]
        · simp
  | tick milliseconds =>
      obtain rfl := Option.some.inj h
      exact slots.same (fun _ => ⟨rfl, rfl, rfl⟩) rfl rfl

/-- The invariants of the workers, of their producers and of the idle queue. -/
structure Inv (W maxThreads : Nat) (s : State T) : Prop where
  accounts : Accounts W s
  slots : Slots s
  bounds : Bounds maxThreads s

/-- At the start each queue has its producer and no thread has a worker. -/
theorem inv_initial {W : Nat} (hW : 0 < W) (maxThreads : Nat) :
    Inv W maxThreads (system T W maxThreads).initial := by
  refine ⟨accounts_initial W maxThreads, ⟨fun _ => rfl, fun i h => ?_, fun i => ?_⟩, ?_, ?_⟩
  · simp [system] at h
  · simp [system, Thread.keeps, Pc.puts]
  · obtain ⟨n, rfl⟩ := Nat.exists_eq_succ_of_ne_zero hW.ne'
    simp [system, List.range_succ]
  · exact Nat.zero_le _

/-- The three invariants are kept together, as each rests on the others. -/
theorem Inv.next {W maxThreads : Nat} {s s' : State T} {e : Event T} (inv : Inv W maxThreads s)
    (h : next W maxThreads s e = some s') : Inv W maxThreads s' :=
  ⟨inv.accounts.next h, inv.slots.next inv.accounts inv.bounds h, inv.bounds.next h⟩

/-- They hold in every reachable state of a runtime with a worker. -/
theorem inv_reachable {W maxThreads : Nat} {s : State T} (hW : 0 < W)
    (h : (system T W maxThreads).Reachable s) : Inv W maxThreads s :=
  h.keeps (inv_initial hW maxThreads) fun _ _ _ inv hNext => inv.next hNext

/-- The upper bounds asserted of the searching counter hold at a line. -/
def Pc.Bounded (W searching : Nat) : Pc T → Bool
  | .retryAdded _ _ before | .beginAdded before => before < W
  | .beginLoad | .failSub _ | .discover _ | .notifySearching _ | .notifySwap _ | .notifySub _ =>
      searching ≤ W
  | _ => true

def CounterHolds (W : Nat) (s : State T) : Event T → Prop
  | .step t => (s.threads t).pc.Bounded W s.searching
  | _ => True

instance (W : Nat) (s : State T) : (e : Event T) → Decidable (CounterHolds W s e)
  | .step t => inferInstanceAs (Decidable ((s.threads t).pc.Bounded W s.searching = true))
  | .choose _ _ | .blockOn _ | .wake _ | .tick _ => .isTrue trivial

/-- The start of `transition_to_running`. -/
def Pc.resumes : Pc T → Bool
  | .resume _ _ => true
  | _ => false

/-- A thread that comes to `transition_to_running` is not searching. -/
def FlagCleared (s : State T) : Event T → Prop
  | .step t => (s.threads t).pc.resumes → (s.threads t).searching = false
  | _ => True

instance (s : State T) : (e : Event T) → Decidable (FlagCleared s e)
  | .step t => inferInstanceAs (Decidable
      ((s.threads t).pc.resumes = true → (s.threads t).searching = false))
  | .choose _ _ | .blockOn _ | .wake _ | .tick _ => .isTrue trivial

/-- In this executor a thread never comes to `transition_to_running` with its flag set:
it has no worker there. -/
theorem flagCleared_reachable {W maxThreads : Nat} {s : State T}
    (h : (system T W maxThreads).Reachable s) (e : Event T) : FlagCleared s e := by
  cases e with
  | step t =>
      intro hResumes
      have hOk := (accounts_reachable h).ok t
      unfold Thread.Ok at hOk
      cases hp : (s.threads t).pc <;> simp only [hp, Pc.resumes, reduceCtorEq] at hResumes
      rw [hp] at hOk
      exact (staffed_reachable h t).searching hOk.1
  | _ => trivial

omit [Fintype T] in
/-- The checks of the counter hold where it is within its bounds. -/
theorem live_fetchSub {W : Nat} {s : State T} {t : T} {last other panic : Pc T}
    (hBound : s.searching ≤ W) (hSome : 0 < s.searching) (hLast : last.live) (hOther : other.live) :
    ((s.fetchSub W t last other panic).threads t).pc.live := by
  simp only [State.fetchSub, State.goto, State.setThread, Function.update_self]
  rw [if_neg (by omega)]
  split
  · exact hLast
  · exact hOther

/-- A step at which the bounds hold makes no thread fail. -/
theorem Inv.live {W maxThreads : Nat} {s s' : State T} {t : T} (inv : Inv W maxThreads s)
    (holds : CounterHolds W s (.step t)) (cleared : FlagCleared s (.step t)) (h : step W maxThreads s t = some s') :
    (s'.threads t).pc.live := by
  refine (inv.slots.step inv.accounts inv.bounds h).2.elim id fun hChecks => ?_
  have hStocked := inv.slots.stocked t
  have hSome := inv.accounts.le_searching t
  unfold Thread.Stocked at hStocked
  unfold Thread.tokens at hSome
  simp only [CounterHolds] at holds
  cases hp : (s.threads t).pc <;> simp only [hp, Pc.checks, reduceCtorEq] at hChecks <;>
    simp only [step, hp] at h <;>
    simp only [hp, Pc.Stocked, Pc.tokens, Pc.Bounded, decide_eq_true_eq] at holds hStocked hSome
  case notifySwap next =>
    split at h
    · obtain rfl := Option.some.inj h
      simp [State.goto, State.setThread, Pc.live]
    · rw [if_neg (by omega)] at h
      obtain rfl := Option.some.inj h
      simpa [State.goto, State.setThread] using hStocked.2.1
  all_goals obtain rfl := Option.some.inj h
  case resume i next =>
    rw [if_pos ⟨hStocked.2.1, cleared (by rw [hp]; rfl)⟩]
    simp [State.setThread, Pc.live]
  case retryAdded caller i searching =>
    rw [if_pos holds]
    cases caller <;> simp [State.goto, State.setThread, Caller.some, Pc.live]
  case beginAdded searching =>
    rw [if_pos holds]
    simp [State.setThread, Pc.live]
  case beginLoad =>
    rw [if_neg (by omega)]
    split <;> simp [State.goto, State.setThread, Pc.live]
  case failSub ended => exact live_fetchSub holds (by omega) rfl (by cases ended <;> rfl)
  case discover next => exact live_fetchSub holds (by omega) rfl hStocked.2.1
  case notifySub next => exact live_fetchSub holds (by omega) hStocked.2.1 hStocked.2.1
  case notifySearching next =>
    rw [if_neg (by omega)]
    split
    · simpa [State.goto, State.setThread] using hStocked.2.1
    · simp [State.goto, State.setThread, Pc.live]

theorem Inv.live_choose {W maxThreads : Nat} {s s' : State T} {t : T} {choice : Choice T}
    (inv : Inv W maxThreads s) (hLive : ∀ u, (s.threads u).pc.live)
    (h : choose W s t choice = some s') (u : T) : (s'.threads u).pc.live := by
  by_cases hCreate : ∃ v, choice = .create v
  · obtain ⟨v, rfl⟩ := hCreate
    have hStocked := inv.slots.stocked t
    unfold Thread.Stocked at hStocked
    cases hp : (s.threads t).pc
    case create i next =>
      simp only [choose, hp] at h
      rw [hp] at hStocked
      split at h
      · obtain rfl := Option.some.inj h
        simp only [State.goto, State.setThread, Function.update_apply]
        split
        · exact hStocked.2.1
        · split
          · rfl
          · exact hLive u
      · simp at h
    all_goals simp [choose, hp] at h
  · push Not at hCreate
    obtain ⟨th, steady⟩ := steady_choose (inv.slots.stocked t) hCreate h
    rw [steady.threads, Function.update_apply]
    split
    · refine steady.live.elim id fun hChecks => ?_
      cases hp : (s.threads t).pc <;> simp only [hp, Pc.checks, reduceCtorEq] at hChecks <;>
        simp [choose, hp] at h
    · exact hLive u

/-- No step fails, where the bounds of the counter hold and the flag has been cleared.
All other assertions and unreachable branches are covered by the invariants. -/
theorem Inv.live_next {W maxThreads : Nat} {s s' : State T} {e : Event T}
    (inv : Inv W maxThreads s) (hLive : ∀ u, (s.threads u).pc.live) (holds : CounterHolds W s e)
    (cleared : FlagCleared s e) (h : Executor.next W maxThreads s e = some s') (u : T) : (s'.threads u).pc.live := by
  cases e with
  | step t =>
      have hHere := inv.live holds cleared h
      by_cases hEq : u = t
      · rwa [hEq]
      · rw [inv.accounts.step_pc hEq h]
        exact hLive u
  | choose t choice => exact inv.live_choose hLive h u
  | blockOn t =>
      simp only [Executor.next] at h
      split at h
      · obtain rfl := Option.some.inj h
        simp only [State.goto, State.setThread, Function.update_apply]
        split
        · rfl
        · exact hLive u
      · simp at h
  | wake t =>
      simp only [Executor.next] at h
      split at h
      · simp at h
      · obtain ⟨park, _, rfl⟩ := Option.map_eq_some_iff.mp h
        simp only [State.setThread, Function.update_apply]
        split
        · exact hLive t
        · exact hLive u
  | tick milliseconds =>
      obtain rfl := Option.some.inj h
      exact hLive u

/-- What the workers of a runtime keep to. -/
structure Conserved (W maxThreads : Nat) (s : State T) : Prop where
  once : ∀ i < W, s.idle.count i + Tally.total (Thread.holds i) s.threads = 1
  producer : ∀ i < W, (∀ t, (s.threads t).pc.swaps → (s.threads t).worker ≠ some i) →
    (s.producers i = true ↔ ∀ t, (s.threads t).worker ≠ some i)
  pending : s.pending = true ↔ s.idle ≠ []
  /-- a `spawn` that fails goes on to push the worker -/
  failed : ∀ t i next, (s.threads t).pc = .spawnFailed i next ∨
      (s.threads t).pc = .spawn i next ∧ s.parkers = [] ∧ s.spawned = maxThreads →
    ∃ s', step W maxThreads s t = some s' ∧ (s'.threads t).pc = .notifyPush i next
  pushed : ∀ t i next, (s.threads t).pc = .notifyPush i next →
    ∃ s', step W maxThreads s t = some s' ∧ s'.idle = i :: s.idle
  outside : ∀ t, (s.threads t).pc = .outside → (s.threads t).worker = none ∧
    (s.threads t).producer = false ∧ ∀ i, (s.threads t).holds i = 0
  /-- no thread has failed at an assertion, an `unwrap` or in an unreachable branch -/
  live : ∀ t, (s.threads t).pc.live

/-- What the invariants say of workers, producers and the idle queue, as long as no
thread has failed. -/
theorem Inv.conserved {W maxThreads : Nat} {s : State T} (inv : Inv W maxThreads s)
    (hLive : ∀ t, (s.threads t).pc.live) : Conserved W maxThreads s := by
  refine ⟨fun i hi => ?_, fun i _ hNone => ?_, ?_, ?_, fun t i next hp => ?_, fun t hp => ?_, hLive⟩
  · rw [inv.accounts.holds, if_pos hi]
  · have hKeeps : (∃ t, (s.threads t).keeps = some i) ↔ ∃ t, (s.threads t).worker = some i := by
      refine ⟨fun ⟨t, ht⟩ => ⟨t, Thread.keeps_worker ht⟩, fun ⟨t, ht⟩ => ⟨t, ?_⟩⟩
      have hSwaps : (s.threads t).pc.swaps = false := by
        by_contra hNot
        exact hNone t (by simpa using hNot) ht
      rw [(inv.slots.stocked t).keeps hSwaps, ht]
    rw [← not_iff_not, Bool.not_eq_true, inv.slots.producers, hKeeps]
    push Not
    rfl
  · rw [inv.bounds.pending]
    simp
  · rintro t i next (hp | ⟨hp, hParkers, hSpawned⟩)
    · refine ⟨{ s with spawned := s.spawned - 1 }.goto t (.notifyPush i next), ?_, ?_⟩
      · simp [step, hp]
      · simp [State.goto, State.setThread]
    · refine ⟨s.goto t (.notifyPush i next), ?_, ?_⟩
      · simp [step, hp, hParkers, hSpawned]
      · simp [State.goto, State.setThread]
  · exact ⟨(s.pushIdle i).goto t (.notifySub next), by simp [step, hp], rfl⟩
  · have hOk := inv.accounts.ok t
    have hStocked := inv.slots.stocked t
    rw [Thread.Ok, hp] at hOk
    rw [Thread.Stocked, hp] at hStocked
    obtain ⟨hWorker, -, hPark⟩ := hOk
    refine ⟨hWorker, by rw [show (s.threads t).producer = _ from hStocked, hWorker]; rfl,
      fun i => ?_⟩
    simp [Thread.holds, hp, Pc.holds, hWorker, held, hPark.holds]

/-- In every run in which the bounds asserted of the searching counter hold, each
worker is in one place, its producer in one, and nothing else fails. -/
theorem slots_conserved (W maxThreads : Nat) (hW : 0 < W)
    (steps : List (State T × Event T)) (s : State T)
    (run : (system T W maxThreads).Run steps s) (holds : Meets (CounterHolds W) steps) :
    Conserved W maxThreads s := by
  refine (inv_reachable hW run.reachable).conserved ?_
  induction run with
  | refl => exact fun _ => rfl
  | step prior last ih =>
      rw [meets_append, meets_singleton] at holds
      have reached := System.Run.reachable prior
      exact (inv_reachable hW reached).live_next (ih holds.1) holds.2
        (flagCleared_reachable reached _) last

/-- A call of `block_on` that is about to take the producer of its worker. -/
theorem slots_conserved_swapTake : ∃ steps s, (system (Fin 2) 2 4).Run steps s ∧
    (s.threads 0).pc = .swapTake 1 .turn ∧ Conserved 2 4 s := by
  obtain ⟨s, run, hp⟩ := (system (Fin 2) 2 4).exists_run_of_replay
    [.blockOn 0, .step 0, .step 0, .step 0, .step 0, .step 0, .step 0]
    (fun s => (s.threads 0).pc) (.swapTake 1 .turn) (by decide)
  exact ⟨_, s, run, hp, slots_conserved 2 4 (by decide) _ s run
    (fun x hx => (show ∀ x ∈ _, CounterHolds 2 x.1 x.2 by decide) x hx)⟩

end Yaar.Runtime.Executor
