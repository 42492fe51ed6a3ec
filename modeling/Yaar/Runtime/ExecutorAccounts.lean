import Yaar.Data.Tally
import Yaar.Runtime.Executor

/-! Where the units of the searching counter and the worker indices are. -/
namespace Yaar.Runtime.Executor

open Machine

variable {T : Type*}

/-- No worker has been put into the state of the parker. -/
def Unparked (park : ParkState) : Prop :=
  park = .empty ∨ park = .notified none

/-- The lines of `poll_worker` that poll timers and the network. -/
def Pc.Polls : Pc T → Prop
  | .work | .popLocal | .search => True
  | _ => False

/-- The worker, flag and parker of a thread as they are at a line. -/
def Pc.Ok (worker : Option Nat) (searching : Bool) (park : ParkState) : Pc T → Prop
  | .outside | .failPush _ _ _ | .failSub _ | .failCheck _ | .leave =>
      worker = none ∧ searching = false ∧ Unparked park
  | .retryLoad _ | .retryPop _ | .retryAdd _ _ | .retryAdded _ _ _ | .waitFirst | .waitLocked
  | .waitThird | .tryPoll | .lockPoll | .swapParked _ | .remove _ | .woken _ | .taken _ _
  | .alone _ => worker = none ∧ Unparked park
  | .parked isPolling | .swapEmpty isPolling _ =>
      worker = none ∧ (park = .parked isPolling ∨ ∃ w, park = .notified w)
  | .unwrapUnparked _ _ => worker = none ∧ ∃ w, park = .notified w
  | .work | .ownTimers | .popLocal | .giveBack _ | .found => worker ≠ none ∧ Unparked park
  | .lockPut i _ | .swapPut i _ => worker = some i ∧ Unparked park
  | .lockTake i next | .swapTake i next =>
      worker = some i ∧ searching = true ∧ Unparked park ∧ next.Ok (some i) true park
  | .search => worker ≠ none ∧ searching = true ∧ Unparked park
  | .beginLoad | .beginAdd | .beginAdded _ => worker ≠ none ∧ searching = false ∧ Unparked park
  | .turn | .future | .rest | .finish | .panicked _ => Unparked park
  | .task | .ending => searching = false ∧ Unparked park
  | .resume i next => worker = none ∧ Unparked park ∧ next.Ok (some i) true park
  | .discover next => searching = false ∧ Unparked park ∧ next.Ok worker false park
  | .expire _ next | .pollIo next | .lockIo next | .polling next =>
      worker ≠ none ∧ Unparked park ∧ next.Polls ∧ next.Ok worker searching park
  | .push _ next | .notifyLoad next | .notifySearching next | .notifySwap next
  | .notifyPending next | .notifyPop next | .spawn _ next | .unpark _ _ next | .create _ next
  | .spawnFailed _ next | .notifyPush _ next | .notifySub next | .dropGuard next =>
      Unparked park ∧ next.Ok worker searching park

def Thread.Ok (th : Thread T) : Prop := th.pc.Ok th.worker th.searching th.park

/-- The units of the counter in the hands of a thread at a line. -/
def Pc.tokens : Pc T → Nat
  | .retryAdded _ _ _ | .beginAdded _ | .failSub _ | .taken _ _ => 1
  | .failPush _ wasSearching _ => wasSearching.toNat
  | .resume _ next | .discover next | .notifyPending next | .notifyPop next | .spawn _ next
  | .unpark _ _ next | .create _ next | .spawnFailed _ next | .notifyPush _ next
  | .notifySub next => 1 + next.tokens
  | .push _ next | .notifyLoad next | .notifySearching next | .notifySwap next | .expire _ next
  | .lockTake _ next | .swapTake _ next | .pollIo next | .lockIo next | .polling next
  | .dropGuard next | .panicked next => next.tokens
  | _ => 0

/-- How often a thread at a line has a worker in its hands. -/
def Pc.holds (i : Nat) : Pc T → Nat
  | .retryAdd _ j | .retryAdded _ j _ | .failPush j _ _ | .taken j _ => if j = i then 1 else 0
  | .resume j next | .spawn j next | .unpark j _ next | .create j next | .spawnFailed j next
  | .notifyPush j next => (if j = i then 1 else 0) + next.holds i
  | .discover next | .notifyPending next | .notifyPop next | .notifySub next | .push _ next
  | .notifyLoad next | .notifySearching next | .notifySwap next | .expire _ next
  | .lockTake _ next | .swapTake _ next | .pollIo next | .lockIo next | .polling next
  | .dropGuard next | .panicked next => next.holds i
  | _ => 0

def held (i : Nat) : Option Nat → Nat
  | some j => if j = i then 1 else 0
  | none => 0

def given (i : Nat) : ParkState → Nat
  | .notified workerIndex => held i workerIndex
  | _ => 0

/-- A notification with a worker hands on a unit of the counter, too. -/
def givenTokens : ParkState → Nat
  | .notified (some _) => 1
  | _ => 0

def Thread.tokens (th : Thread T) : Nat :=
  th.pc.tokens + th.searching.toNat + givenTokens th.park

def Thread.holds (i : Nat) (th : Thread T) : Nat :=
  th.pc.holds i + held i th.worker + given i th.park

theorem Pc.Polls.tokens {pc : Pc T} (h : pc.Polls) : pc.tokens = 0 := by
  cases pc <;> simp_all [Pc.Polls, Pc.tokens]

theorem Pc.Polls.holds {pc : Pc T} (h : pc.Polls) (i : Nat) : pc.holds i = 0 := by
  cases pc <;> simp_all [Pc.Polls, Pc.holds]

theorem Unparked.tokens {park : ParkState} (h : Unparked park) : givenTokens park = 0 := by
  rcases h with rfl | rfl <;> rfl

theorem Unparked.holds {park : ParkState} (h : Unparked park) (i : Nat) : given i park = 0 := by
  rcases h with rfl | rfl <;> rfl

/-- A notification without a worker changes nothing at any line. -/
theorem ok_notified {worker : Option Nat} {searching : Bool} {park : ParkState} {pc : Pc T}
    (h : pc.Ok worker searching park) : pc.Ok worker searching (.notified none) := by
  have hUnparked : Unparked (.notified none) := Or.inr rfl
  induction pc generalizing worker searching <;> simp only [Pc.Ok] at h ⊢
  case parked | swapEmpty => exact ⟨h.1, Or.inr ⟨_, rfl⟩⟩
  case unwrapUnparked => exact ⟨h.1, _, rfl⟩
  case resume next ih | discover next ih => exact ⟨h.1, hUnparked, ih h.2.2⟩
  case lockTake next ih | swapTake next ih => exact ⟨h.1, h.2.1, hUnparked, ih h.2.2.2⟩
  case pollIo next ih | lockIo next ih | polling next ih | expire next ih =>
    exact ⟨h.1, hUnparked, h.2.2.1, ih h.2.2.2⟩
  case push next ih | notifyLoad next ih | notifySearching next ih | notifySwap next ih
    | notifyPending next ih | notifyPop next ih | spawn next ih | unpark next ih | create next ih
    | spawnFailed next ih | notifyPush next ih | notifySub next ih | dropGuard next ih =>
    exact ⟨hUnparked, ih h.2⟩
  all_goals
    first
    | exact hUnparked
    | exact ⟨h.1, hUnparked⟩
    | exact ⟨h.1, h.2.1, hUnparked⟩

variable [DecidableEq T]

/-- A step of one thread accounts for the units and the workers it moves. -/
structure Moves (s s' : State T) (t : T) (th : Thread T) : Prop where
  threads : s'.threads = Function.update s.threads t th
  ok : th.Ok
  tokens : s'.searching + (s.threads t).tokens = s.searching + th.tokens
  holds : ∀ i, s'.idle.count i + th.holds i = s.idle.count i + (s.threads t).holds i

/-- A thread that goes on with what it has. -/
theorem moves_goto {s s' : State T} {t : T} {pc : Pc T}
    (hThreads : s'.threads = Function.update s.threads t { s.threads t with pc := pc })
    (hSearching : s'.searching = s.searching) (hIdle : s'.idle = s.idle)
    (hOk : pc.Ok (s.threads t).worker (s.threads t).searching (s.threads t).park)
    (hTokens : pc.tokens = (s.threads t).pc.tokens)
    (hHolds : ∀ i, pc.holds i = (s.threads t).pc.holds i) :
    Moves s s' t { s.threads t with pc := pc } := by
  refine ⟨hThreads, hOk, ?_, fun i => ?_⟩
  · simp [hSearching, Thread.tokens, hTokens]
  · simp [hIdle, Thread.holds, hHolds]

/-- `poll_unparked` passes on what the notification holds. -/
theorem moves_pollUnparked {s : State T} {t : T} {taken : Nat → Pc T} {woken otherwise : Pc T}
    (hTaken : ∀ i, (s.threads t).park = .notified (some i) →
      (taken i).Ok (s.threads t).worker (s.threads t).searching .empty ∧
      (taken i).tokens = (s.threads t).pc.tokens + 1 ∧
      ∀ j, (taken i).holds j = (s.threads t).pc.holds j + if i = j then 1 else 0)
    (hWoken : (s.threads t).park = .notified none →
      woken.Ok (s.threads t).worker (s.threads t).searching .empty ∧
      woken.tokens = (s.threads t).pc.tokens ∧
      ∀ j, woken.holds j = (s.threads t).pc.holds j)
    (hOtherwise : (∀ w, (s.threads t).park ≠ .notified w) →
      otherwise.Ok (s.threads t).worker (s.threads t).searching (s.threads t).park ∧
      otherwise.tokens = (s.threads t).pc.tokens ∧
      ∀ j, otherwise.holds j = (s.threads t).pc.holds j) :
    ∃ th, Moves s (s.pollUnparked t taken woken otherwise) t th := by
  have hRest : (∀ w, (s.threads t).park ≠ .notified w) →
      ∃ th, Moves s (s.goto t otherwise) t th := fun hNot =>
    have ⟨hOk, hTokens, hHolds⟩ := hOtherwise hNot
    ⟨_, moves_goto rfl rfl rfl hOk hTokens hHolds⟩
  cases hPark : (s.threads t).park with
  | notified w =>
      cases w with
      | some i =>
          obtain ⟨hOk, hTokens, hHolds⟩ := hTaken i hPark
          simp only [State.pollUnparked, hPark]
          refine ⟨_, rfl, hOk, ?_, fun j => ?_⟩
          · simp only [State.setThread, Thread.tokens, hTokens, hPark, givenTokens]
            omega
          · simp only [State.setThread, Thread.holds, hHolds, hPark, given, held]
            omega
      | none =>
          obtain ⟨hOk, hTokens, hHolds⟩ := hWoken hPark
          simp only [State.pollUnparked, hPark]
          refine ⟨_, rfl, hOk, ?_, fun j => ?_⟩
          · simp only [State.setThread, Thread.tokens, hTokens, hPark, givenTokens]
          · simp only [State.setThread, Thread.holds, hHolds, hPark, given, held]
  | _ =>
      simp only [State.pollUnparked, hPark]
      exact hRest (by simp [hPark])

/-- `poll_timers` touches the thread's clock and timeout only. -/
theorem moves_pollTimers {s : State T} {t : T} {queue : Nat} {next : Pc T}
    (hOk : next.Ok (s.threads t).worker (s.threads t).searching (s.threads t).park)
    (hPolls : next.Polls) (hOwns : (s.threads t).worker ≠ none ∧ Unparked (s.threads t).park)
    (hTokens : next.tokens = (s.threads t).pc.tokens)
    (hHolds : ∀ i, next.holds i = (s.threads t).pc.holds i) :
    ∃ th, Moves s (s.pollTimers t queue next) t th := by
  unfold State.pollTimers
  split
  · exact ⟨_, moves_goto rfl rfl rfl hOk hTokens hHolds⟩
  · simp only
    split
    · refine ⟨_, rfl, hOk, ?_, fun i => ?_⟩
      · simp only [State.setThread, Thread.wait, Thread.tokens, hTokens]
      · simp only [State.setThread, Thread.wait, Thread.holds, hHolds]
    · refine ⟨_, rfl, ⟨hOwns.1, hOwns.2, hPolls, hOk⟩, ?_, fun i => ?_⟩
      · simp [State.setThread, Thread.tokens, Pc.tokens, hTokens]
      · simp [State.setThread, Thread.holds, Pc.holds, hHolds]

/-- A pop of the idle queue puts the worker in the hands of the thread, or finds none. -/
theorem moves_popIdle {s : State T} {t : T} {none : Pc T} {some : Nat → Pc T}
    (hNone : none.Ok (s.threads t).worker (s.threads t).searching (s.threads t).park ∧
      none.tokens = (s.threads t).pc.tokens ∧ ∀ i, none.holds i = (s.threads t).pc.holds i)
    (hSome : ∀ j, (some j).Ok (s.threads t).worker (s.threads t).searching (s.threads t).park ∧
      (some j).tokens = (s.threads t).pc.tokens ∧
      ∀ i, (some j).holds i = (s.threads t).pc.holds i + if j = i then 1 else 0) :
    ∃ th, Moves s (s.popIdle t none some) t th := by
  have hPop : ∀ (s' : State T) j rest, s.idle = j :: rest → s'.idle = rest →
      s'.searching = s.searching →
      s'.threads = Function.update s.threads t { s.threads t with pc := some j } →
      Moves s s' t { s.threads t with pc := some j } := by
    intro s' j rest hIdle hRest hSearching hThreads
    obtain ⟨hOk, hTokens, hHolds⟩ := hSome j
    refine ⟨hThreads, hOk, by simp [hSearching, Thread.tokens, hTokens], fun i => ?_⟩
    simp only [hRest, hIdle, Thread.holds, hHolds, List.count_cons, beq_iff_eq]
    omega
  unfold State.popIdle
  split
  · exact ⟨_, moves_goto rfl rfl rfl hNone.1 hNone.2.1 hNone.2.2⟩
  · next j hIdle => exact ⟨_, hPop _ j [] hIdle rfl rfl rfl⟩
  · next j rest _ hIdle => exact ⟨_, hPop _ j rest hIdle rfl rfl rfl⟩

/-- The unit that is subtracted is one that the thread has had. If the check of the
counter fails the unit is gone all the same. -/
theorem moves_fetchSub {W : Nat} {s : State T} {t : T} {last other panic : Pc T}
    (hSome : 0 < s.searching)
    (hNext : ∀ pc ∈ [last, other, .panicked panic],
      pc.Ok (s.threads t).worker (s.threads t).searching (s.threads t).park ∧
      pc.tokens + 1 = (s.threads t).pc.tokens ∧ ∀ i, pc.holds i = (s.threads t).pc.holds i) :
    ∃ th, Moves s (s.fetchSub W t last other panic) t th := by
  have hGoto : ∀ pc ∈ [last, other, .panicked panic],
      Moves s ({ s with searching := s.searching - 1 }.goto t pc) t { s.threads t with pc := pc } := by
    intro pc hMem
    obtain ⟨hOk, hTokens, hHolds⟩ := hNext pc hMem
    refine ⟨rfl, hOk, ?_, fun i => ?_⟩
    · simp only [State.goto, State.setThread, Thread.tokens, ← hTokens]
      omega
    · simp [State.goto, State.setThread, Thread.holds, hHolds]
  unfold State.fetchSub
  split
  · exact ⟨_, hGoto _ (by simp)⟩
  · split
    · exact ⟨_, hGoto _ (by simp)⟩
    · exact ⟨_, hGoto _ (by simp)⟩

/-- To lock the producer of a run queue moves no unit and no worker. -/
theorem moves_lockProducer {s : State T} {t : T} {i : Nat} {next : Pc T}
    (hOk : next.Ok (s.threads t).worker (s.threads t).searching (s.threads t).park)
    (hPark : Unparked (s.threads t).park) (hTokens : next.tokens = (s.threads t).pc.tokens)
    (hHolds : ∀ i, next.holds i = (s.threads t).pc.holds i) :
    ∃ th, Moves s (s.lockProducer t i next) t th := by
  unfold State.lockProducer
  split
  · exact ⟨_, moves_goto rfl rfl rfl hPark hTokens hHolds⟩
  · exact ⟨_, moves_goto rfl rfl rfl hOk hTokens hHolds⟩

/-- The functions a line belongs to. -/
inductive Stage where
  | user
  | retry
  | work
  | idle
  | run
  | notify
  | wait
  deriving DecidableEq

def Pc.stage : Pc T → Stage
  | .outside | .turn | .future | .search | .task | .parked _ | .work | .expire _ _ | .polling _
  | .create _ _ | .panicked _ => .user
  | .retryLoad _ | .retryPop _ | .retryAdd _ _ | .retryAdded _ _ _ | .resume _ _ | .lockTake _ _
  | .swapTake _ _ => .retry
  | .rest | .pollIo _ | .lockIo _ | .ownTimers | .popLocal | .beginLoad | .beginAdd | .beginAdded _ => .work
  | .giveBack _ | .lockPut _ _ | .swapPut _ _ | .failPush _ _ _ | .failSub _ | .failCheck _ => .idle
  | .found | .finish | .discover _ | .ending | .leave => .run
  | .push _ _ | .notifyLoad _ | .notifySearching _ | .notifySwap _ | .notifyPending _ | .notifyPop _
  | .spawn _ _ | .unpark _ _ _ | .spawnFailed _ _ | .notifyPush _ _ | .notifySub _ => .notify
  | .waitFirst | .waitLocked | .waitThird | .tryPoll | .lockPoll | .swapParked _ | .swapEmpty _ _
  | .unwrapUnparked _ _ | .dropGuard _ | .remove _ | .woken _ | .taken _ _ | .alone _ => .wait

/-- The lines of `Parker::park`. A worker comes out of the state of the parker along
with its unit. -/
theorem moves_wait {W maxThreads : Nat} {s s' : State T} {t : T} (ok : (s.threads t).Ok)
    (hStage : (s.threads t).pc.stage = .wait)
    (h : step W maxThreads s t = some s') : ∃ th, Moves s s' t th := by
  unfold Thread.Ok at ok
  have hEmpty : Unparked (s.threads t).park → (∀ w, (s.threads t).park ≠ .notified w) →
      (s.threads t).park = .empty := fun hUnparked hNot => hUnparked.resolve_right (hNot _)
  cases hp : (s.threads t).pc <;> simp only [hp, Pc.stage, reduceCtorEq] at hStage <;>
    simp only [hp, step, Pc.Ok] at h ok
  case waitFirst | waitThird =>
    obtain rfl := Option.some.inj h
    refine moves_pollUnparked ?_ ?_ ?_ <;> simp_all [Pc.Ok, Pc.tokens, Pc.holds, Unparked]
  case unwrapUnparked ready guarded =>
    obtain rfl := Option.some.inj h
    cases guarded <;>
      refine moves_pollUnparked ?_ ?_ ?_ <;> simp_all [Pc.Ok, Pc.tokens, Pc.holds, Unparked]
  case lockPoll =>
    split at h
    all_goals
      obtain rfl := Option.some.inj h
      exact ⟨_, moves_goto rfl rfl rfl ok (by simp [hp, Pc.tokens]) (by simp [hp, Pc.holds])⟩
  case dropGuard next =>
    obtain rfl := Option.some.inj h
    exact ⟨_, moves_goto rfl rfl rfl ok.2 (by simp [hp, Pc.tokens]) (by simp [hp, Pc.holds])⟩
  case waitLocked =>
    split at h
    · obtain rfl := Option.some.inj h
      refine moves_pollUnparked ?_ ?_ ?_ <;> simp_all [Pc.Ok, Pc.tokens, Pc.holds, Unparked]
    · obtain rfl := Option.some.inj h
      exact ⟨_, moves_goto rfl rfl rfl ok (by simp [hp, Pc.tokens]) (by simp [hp, Pc.holds])⟩
  case swapParked isPolling =>
    split at h
    · next hPark =>
        obtain rfl := Option.some.inj h
        refine ⟨_, rfl, ⟨ok.1, Or.inl rfl⟩, ?_, fun i => ?_⟩
        · cases isPolling <;> simp [State.setThread, Thread.tokens, hp, Pc.tokens, hPark, givenTokens, ParkState.parked]
        · cases isPolling <;> simp [State.setThread, Thread.holds, hp, Pc.holds, hPark, given, ParkState.parked]
    · next hPark =>
        obtain rfl := Option.some.inj h
        exact ⟨_, moves_goto rfl rfl rfl ⟨ok.1, _, ok.2.resolve_left hPark⟩
          (by simp [hp, Pc.tokens]) (by simp [hp, Pc.holds])⟩
  case swapEmpty isPolling ready =>
    split at h
    · next hPark =>
        obtain rfl := Option.some.inj h
        refine ⟨_, rfl, ⟨ok.1, Or.inl rfl⟩, ?_, fun i => ?_⟩
        · cases isPolling <;> simp [State.setThread, Thread.tokens, hp, Pc.tokens, hPark, givenTokens, ParkState.parked]
        · cases isPolling <;> simp [State.setThread, Thread.holds, hp, Pc.holds, hPark, given, ParkState.parked]
    · next hPark =>
        obtain rfl := Option.some.inj h
        exact ⟨_, moves_goto rfl rfl rfl ⟨ok.1, ok.2.resolve_left hPark⟩
          (by simp [hp, Pc.tokens]) (by simp [hp, Pc.holds])⟩
  case taken i ready =>
    obtain rfl := Option.some.inj h
    refine ⟨_, moves_goto rfl rfl rfl ?_ ?_ ?_⟩ <;>
      rcases ready with _ | _ | ready <;>
      simp_all [Pc.Ok, Pc.tokens, Pc.holds, popAndInject]
  all_goals
    obtain rfl := Option.some.inj h
    refine ⟨_, moves_goto rfl rfl rfl ?_ ?_ ?_⟩ <;> (repeat' split) <;>
      simp_all [Pc.Ok, Pc.tokens, Pc.holds]

/-- The lines of `inject` and `notify`, up to `unpark`: the unit is taken by the
exchange and given back if no worker or no thread is found. -/
theorem moves_notify {W maxThreads : Nat} {s s' : State T} {t : T} (ok : (s.threads t).Ok)
    (hTokens : (s.threads t).tokens ≤ s.searching) (hStage : (s.threads t).pc.stage = .notify)
    (hUnpark : ∀ i u next, (s.threads t).pc ≠ .unpark i u next)
    (h : step W maxThreads s t = some s') : ∃ th, Moves s s' t th := by
  unfold Thread.Ok at ok
  unfold Thread.tokens at hTokens
  cases hp : (s.threads t).pc <;> simp only [hp, Pc.stage, reduceCtorEq] at hStage <;>
    simp only [hp, step, Pc.Ok, Pc.tokens] at h ok hTokens
  case unpark i u next => exact (hUnpark i u next hp).elim
  case notifyPop next =>
    obtain rfl := Option.some.inj h
    refine moves_popIdle ?_ ?_ <;> simp_all [Pc.Ok, Pc.tokens, Pc.holds]
    omega
  case notifySub next =>
    obtain rfl := Option.some.inj h
    refine moves_fetchSub (by omega) ?_
    simp_all [Pc.Ok, Pc.tokens, Pc.holds]
    omega
  case notifySwap next =>
    split at h
    · next hZero =>
        obtain rfl := Option.some.inj h
        refine ⟨_, rfl, ok, ?_, fun i => ?_⟩
        · simp only [State.goto, State.setThread, Thread.tokens, hp, Pc.tokens]
          omega
        · simp only [State.goto, State.setThread, Thread.holds, hp, Pc.holds]
    · obtain rfl := Option.some.inj h
      refine ⟨_, moves_goto rfl rfl rfl ?_ ?_ ?_⟩ <;> (repeat' split) <;>
        simp_all [Pc.Ok, Pc.tokens, Pc.holds]
  case notifyPush i next =>
    obtain rfl := Option.some.inj h
    refine ⟨_, rfl, ok, ?_, fun j => ?_⟩
    · simp only [State.goto, State.setThread, State.pushIdle, Thread.tokens, hp, Pc.tokens]
    · simp only [State.goto, State.setThread, State.pushIdle, Thread.holds, hp, Pc.holds,
        List.count_cons, beq_iff_eq]
      omega
  case spawn i next =>
    split at h
    · obtain rfl := Option.some.inj h
      exact ⟨_, moves_goto rfl rfl rfl ok (by simp [hp, Pc.tokens]) (by simp [hp, Pc.holds])⟩
    · split at h
      · obtain rfl := Option.some.inj h
        exact ⟨_, moves_goto rfl rfl rfl ok.1 (by simp [hp, Pc.tokens]) (by simp [hp, Pc.holds])⟩
      · split at h
        all_goals
          obtain rfl := Option.some.inj h
          exact ⟨_, moves_goto rfl rfl rfl ok (by simp [hp, Pc.tokens]) (by simp [hp, Pc.holds])⟩
  case push ready next =>
    split at h
    all_goals
      obtain rfl := Option.some.inj h
      exact ⟨_, moves_goto rfl rfl rfl ok (by simp [hp, Pc.tokens]) (by simp [hp, Pc.holds])⟩
  all_goals
    obtain rfl := Option.some.inj h
    refine ⟨_, moves_goto rfl rfl rfl ?_ ?_ ?_⟩ <;> (repeat' split) <;>
      simp_all [Pc.Ok, Pc.tokens, Pc.holds]

/-- The lines of `search_retry` and `transition_to_running`, at which the unit and the
worker come into the context. -/
theorem moves_retry {W maxThreads : Nat} {s s' : State T} {t : T} (ok : (s.threads t).Ok)
    (hStage : (s.threads t).pc.stage = .retry)
    (h : step W maxThreads s t = some s') : ∃ th, Moves s s' t th := by
  unfold Thread.Ok at ok
  cases hp : (s.threads t).pc <;> simp only [hp, Pc.stage, reduceCtorEq] at hStage <;>
    simp only [hp, step, Pc.Ok] at h ok
  case retryPop caller =>
    obtain rfl := Option.some.inj h
    refine moves_popIdle ?_ ?_ <;> cases caller <;>
      simp_all [Pc.Ok, Pc.tokens, Pc.holds, Caller.none]
  case retryAdd caller i =>
    obtain rfl := Option.some.inj h
    refine ⟨_, rfl, ok, ?_, fun j => ?_⟩
    · simp only [State.goto, State.setThread, Thread.tokens, hp, Pc.tokens]
      omega
    · simp only [State.goto, State.setThread, Thread.holds, hp, Pc.holds]
  case lockTake i next =>
    obtain rfl := Option.some.inj h
    exact moves_lockProducer ok ok.2.2.1 (by simp [hp, Pc.tokens]) (by simp [hp, Pc.holds])
  case swapTake i next =>
    obtain ⟨hWorker, hSearching, hPark, hNext⟩ := ok
    obtain rfl := Option.some.inj h
    simp only [State.takeProducer]
    split
    · refine ⟨_, rfl, by simpa [Thread.Ok, hWorker, hSearching] using hNext, ?_, fun j => ?_⟩
      · simp only [State.setThread, Thread.tokens, hp, Pc.tokens]
      · simp only [State.setThread, Thread.holds, hp, Pc.holds]
    · exact ⟨_, moves_goto rfl rfl rfl hPark (by simp [hp, Pc.tokens]) (by simp [hp, Pc.holds])⟩
  case resume i next =>
    obtain ⟨hWorker, hPark, hNext⟩ := ok
    obtain rfl := Option.some.inj h
    split
    · next hIdle =>
        refine ⟨_, rfl, ⟨rfl, rfl, hPark, hNext⟩, ?_, fun j => ?_⟩
        · simp only [State.setThread, Thread.tokens, hp, Pc.tokens, hIdle.2, Bool.toNat_true,
            Bool.toNat_false]
          omega
        · simp only [State.setThread, Thread.holds, hp, Pc.holds, hWorker, held]
          omega
    · exact ⟨_, moves_goto rfl rfl rfl hPark (by simp [hp, Pc.tokens]) (by simp [hp, Pc.holds])⟩
  case retryLoad caller | retryAdded caller _ _ =>
    obtain rfl := Option.some.inj h
    refine ⟨_, moves_goto rfl rfl rfl ?_ ?_ ?_⟩ <;> split <;> cases caller <;>
      simp_all [Pc.Ok, Pc.tokens, Pc.holds, Caller.none, Caller.some]

/-- Every unit of the searching counter and every worker index is in one place. -/
structure Accounts [Fintype T] (W : Nat) (s : State T) : Prop where
  ok : ∀ t, (s.threads t).Ok
  tokens : s.searching = Tally.total Thread.tokens s.threads
  holds : ∀ i, s.idle.count i + Tally.total (Thread.holds i) s.threads = if i < W then 1 else 0

omit [DecidableEq T] in
/-- A thread that subtracts a unit from the counter finds it there. -/
theorem Accounts.le_searching [Fintype T] {W : Nat} {s : State T} (accounts : Accounts W s) (t : T) :
    (s.threads t).tokens ≤ s.searching := by
  rw [accounts.tokens]
  exact Tally.le_total Thread.tokens s.threads t

/-- The lines of `poll_worker` and of `search_begin`, whose unit becomes the flag of the
context. -/
theorem moves_work {W maxThreads : Nat} {s s' : State T} {t : T} (ok : (s.threads t).Ok)
    (hStage : (s.threads t).pc.stage = .work)
    (h : step W maxThreads s t = some s') : ∃ th, Moves s s' t th := by
  unfold Thread.Ok at ok
  cases hp : (s.threads t).pc <;> simp only [hp, Pc.stage, reduceCtorEq] at hStage <;>
    simp only [hp, step, Pc.Ok] at h ok
  case ownTimers =>
    obtain ⟨i, _, rfl⟩ := Option.map_eq_some_iff.mp h
    refine moves_pollTimers ?_ ?_ ?_ ?_ ?_ <;> simp_all [Pc.Ok, Pc.tokens, Pc.holds, Pc.Polls]
  case popLocal =>
    obtain ⟨i, _, rfl⟩ := Option.map_eq_some_iff.mp h
    split
    · exact ⟨_, moves_goto rfl rfl rfl ok (by simp [hp, Pc.tokens]) (by simp [hp, Pc.holds])⟩
    · refine ⟨_, moves_goto rfl rfl rfl ?_ ?_ ?_⟩ <;> split <;>
        simp_all [Pc.Ok, Pc.tokens, Pc.holds]
  case pollIo next =>
    obtain rfl := Option.some.inj h
    refine ⟨_, moves_goto rfl rfl rfl ?_ ?_ ?_⟩ <;> split <;>
      simp_all [Pc.Ok, Pc.tokens, Pc.holds]
  case lockIo next =>
    split at h
    · obtain rfl := Option.some.inj h
      exact ⟨_, moves_goto rfl rfl rfl ok.2.2.2 (by simp [hp, Pc.tokens]) (by simp [hp, Pc.holds])⟩
    · obtain rfl := Option.some.inj h
      exact ⟨_, moves_goto rfl rfl rfl ok (by simp [hp, Pc.tokens]) (by simp [hp, Pc.holds])⟩
  case beginAdd =>
    obtain rfl := Option.some.inj h
    refine ⟨_, rfl, ok, ?_, fun j => ?_⟩
    · simp only [State.goto, State.setThread, Thread.tokens, hp, Pc.tokens]
      omega
    · simp only [State.goto, State.setThread, Thread.holds, hp, Pc.holds]
  case beginAdded searching =>
    obtain ⟨hWorker, hSearching, hPark⟩ := ok
    split at h
    · obtain rfl := Option.some.inj h
      refine ⟨_, rfl, ⟨hWorker, rfl, hPark⟩, ?_, fun j => ?_⟩
      · simp only [State.setThread, Thread.tokens, hp, Pc.tokens, hSearching, Bool.toNat_true,
          Bool.toNat_false]
      · simp only [State.setThread, Thread.holds, hp, Pc.holds]
    · obtain rfl := Option.some.inj h
      exact ⟨_, moves_goto rfl rfl rfl hPark (by simp [hp, Pc.tokens]) (by simp [hp, Pc.holds])⟩
  all_goals
    obtain rfl := Option.some.inj h
    refine ⟨_, moves_goto rfl rfl rfl ?_ ?_ ?_⟩ <;> (repeat' split) <;>
      simp_all [Pc.Ok, Pc.tokens, Pc.holds, Option.isSome_iff_ne_none]

/-- The lines of `transition_to_idle` and `search_failed`. The worker goes first and its
unit after it. -/
theorem moves_idle {W maxThreads : Nat} {s s' : State T} {t : T} (ok : (s.threads t).Ok)
    (hTokens : (s.threads t).tokens ≤ s.searching) (hStage : (s.threads t).pc.stage = .idle)
    (h : step W maxThreads s t = some s') : ∃ th, Moves s s' t th := by
  unfold Thread.Ok at ok
  unfold Thread.tokens at hTokens
  cases hp : (s.threads t).pc <;> simp only [hp, Pc.stage, reduceCtorEq] at hStage <;>
    simp only [hp, step, Pc.Ok, Pc.tokens] at h ok hTokens
  case giveBack ended =>
    obtain ⟨i, hWorker, rfl⟩ := Option.map_eq_some_iff.mp h
    split
    · refine ⟨_, rfl, ⟨hWorker, ok.2⟩, ?_, fun j => ?_⟩
      · simp only [State.setThread, Thread.tokens, hp, Pc.tokens]
      · simp only [State.setThread, Thread.holds, hp, Pc.holds]
    · exact ⟨_, moves_goto rfl rfl rfl ok.2 (by simp [hp, Pc.tokens]) (by simp [hp, Pc.holds])⟩
  case lockPut i ended =>
    obtain rfl := Option.some.inj h
    exact moves_lockProducer ok ok.2 (by simp [hp, Pc.tokens]) (by simp [hp, Pc.holds])
  case swapPut i ended =>
    obtain ⟨hWorker, hPark⟩ := ok
    obtain rfl := Option.some.inj h
    simp only [State.putProducer]
    split
    · refine ⟨_, rfl, ⟨rfl, rfl, hPark⟩, ?_, fun j => ?_⟩
      · simp only [State.setThread, Thread.tokens, hp, Pc.tokens, Bool.toNat_false]
        omega
      · simp only [State.setThread, Thread.holds, hp, Pc.holds, hWorker, held]
        omega
    · exact ⟨_, moves_goto rfl rfl rfl hPark (by simp [hp, Pc.tokens]) (by simp [hp, Pc.holds])⟩
  case failPush i wasSearching ended =>
    obtain ⟨hWorker, hSearching, hPark⟩ := ok
    split at h
    · obtain rfl := Option.some.inj h
      exact ⟨_, moves_goto rfl rfl rfl hPark (by simp [hp, Pc.tokens]) (by simp [hp, Pc.holds])⟩
    · obtain rfl := Option.some.inj h
      refine ⟨_, rfl, ?_, ?_, fun j => ?_⟩
      · cases wasSearching <;> cases ended <;>
          first | exact ⟨hWorker, hPark⟩ | exact ⟨hWorker, hSearching, hPark⟩
      · cases wasSearching <;> cases ended <;>
          simp [State.goto, State.setThread, State.pushIdle, Thread.tokens, hp, Pc.tokens]
      · have hNext : ∀ pc : Pc T, pc ∈ [Pc.failSub ended, .leave, .waitFirst] → pc.holds j = 0 := by
          simp [Pc.holds]
        simp only [State.goto, State.setThread, State.pushIdle, Thread.holds, hp, Pc.holds,
          List.count_cons, beq_iff_eq]
        rw [hNext _ (by cases wasSearching <;> cases ended <;> simp)]
        omega
  case failSub ended =>
    obtain rfl := Option.some.inj h
    refine moves_fetchSub (by omega) ?_
    cases ended <;> simp_all [Pc.Ok, Pc.tokens, Pc.holds]
  case failCheck ended =>
    obtain rfl := Option.some.inj h
    refine ⟨_, moves_goto rfl rfl rfl ?_ ?_ ?_⟩ <;> (repeat' split) <;>
      simp_all [Pc.Ok, Pc.tokens, Pc.holds]

/-- The lines of `block_on` around a task that is run. -/
theorem moves_run {W maxThreads : Nat} {s s' : State T} {t : T} (ok : (s.threads t).Ok)
    (hTokens : (s.threads t).tokens ≤ s.searching) (hStage : (s.threads t).pc.stage = .run)
    (h : step W maxThreads s t = some s') : ∃ th, Moves s s' t th := by
  unfold Thread.Ok at ok
  unfold Thread.tokens at hTokens
  cases hp : (s.threads t).pc <;> simp only [hp, Pc.stage, reduceCtorEq] at hStage <;>
    simp only [hp, step, Pc.Ok, Pc.tokens] at h ok hTokens
  case found =>
    obtain ⟨hWorker, hPark⟩ := ok
    split at h
    · next hSearching =>
        obtain rfl := Option.some.inj h
        refine ⟨_, rfl, ⟨rfl, hPark, rfl, hPark⟩, ?_, fun j => ?_⟩
        · simp [State.setThread, Thread.tokens, hp, Pc.tokens, hSearching]
        · simp [State.setThread, Thread.holds, hp, Pc.holds]
    · obtain rfl := Option.some.inj h
      exact ⟨_, moves_goto rfl rfl rfl ⟨by simp_all, hPark⟩ (by simp [hp, Pc.tokens])
        (by simp [hp, Pc.holds])⟩
  case finish =>
    split at h
    · next hSearching =>
        obtain rfl := Option.some.inj h
        refine ⟨_, rfl, ⟨rfl, ok, rfl, ok⟩, ?_, fun j => ?_⟩
        · simp [State.setThread, Thread.tokens, hp, Pc.tokens, hSearching]
        · simp [State.setThread, Thread.holds, hp, Pc.holds]
    · obtain rfl := Option.some.inj h
      exact ⟨_, moves_goto rfl rfl rfl ⟨by simp_all, ok⟩ (by simp [hp, Pc.tokens])
        (by simp [hp, Pc.holds])⟩
  case discover next =>
    obtain rfl := Option.some.inj h
    obtain ⟨hSearching, hPark, hNext⟩ := ok
    rw [← hSearching] at hNext
    refine moves_fetchSub (by omega) ?_
    simp_all [Pc.Ok, Pc.tokens, Pc.holds]
    omega
  case ending =>
    obtain ⟨hSearching, hPark⟩ := ok
    obtain rfl := Option.some.inj h
    refine ⟨_, moves_goto rfl rfl rfl ?_ ?_ ?_⟩ <;> split <;>
      simp_all [Pc.Ok, Pc.tokens, Pc.holds, Option.isSome_iff_ne_none]
  case leave =>
    obtain ⟨hWorker, hSearching, hPark⟩ := ok
    obtain rfl := Option.some.inj h
    refine ⟨{ s.threads t with pc := .outside, pooled := false, park := .empty },
      by split <;> rfl, ⟨hWorker, hSearching, Or.inl rfl⟩, ?_, fun j => ?_⟩
    · have hGiven := hPark.tokens
      split <;> simp only [State.setThread, Thread.tokens, hp, Pc.tokens, hGiven] <;> rfl
    · have hGiven := hPark.holds j
      split <;> simp only [State.setThread, Thread.holds, hp, Pc.holds, hGiven] <;> rfl

/-- Every step accounts for what it moves. An `unpark` is left out, as it changes two
threads. -/
theorem moves_step {W maxThreads : Nat} {s s' : State T} {t : T} (ok : (s.threads t).Ok)
    (hTokens : (s.threads t).tokens ≤ s.searching)
    (hUnpark : ∀ i u next, (s.threads t).pc ≠ .unpark i u next)
    (h : step W maxThreads s t = some s') : ∃ th, Moves s s' t th := by
  cases hStage : (s.threads t).pc.stage with
  | user =>
      cases hp : (s.threads t).pc <;> simp only [hp, Pc.stage, reduceCtorEq] at hStage <;>
        simp [step, hp] at h
  | retry => exact moves_retry ok hStage h
  | work => exact moves_work ok hStage h
  | idle => exact moves_idle ok hTokens hStage h
  | run => exact moves_run ok hTokens hStage h
  | notify => exact moves_notify ok hTokens hStage hUnpark h
  | wait => exact moves_wait ok hStage h

/-- A task that is scheduled goes to the injector or to the run queue of the thread.
Neither is part of the accounts. -/
theorem moves_schedule {s : State T} {t : T} (ok : (s.threads t).Ok)
    (hPark : Unparked (s.threads t).park) : ∃ th, Moves s (s.schedule t) t th := by
  unfold State.schedule
  split
  · exact ⟨{ s.threads t with pc := .notifyLoad (s.threads t).pc },
      moves_goto rfl rfl rfl ⟨hPark, ok⟩ rfl fun _ => rfl⟩
  · exact ⟨{ s.threads t with pc := .push 1 (s.threads t).pc },
      moves_goto rfl rfl rfl ⟨hPark, ok⟩ rfl fun _ => rfl⟩

/-- Steps outside of the executor, but for the start of a thread. -/
theorem moves_choose {W : Nat} {s s' : State T} {t : T} {choice : Choice T}
    (ok : (s.threads t).Ok) (hCreate : ∀ u, choice ≠ .create u)
    (h : choose W s t choice = some s') : ∃ th, Moves s s' t th := by
  have hStay : ∀ s' : State T, s'.threads = s.threads → s'.searching = s.searching →
      s'.idle = s.idle → ∃ th, Moves s s' t th := fun s' hThreads hSearching hIdle =>
    ⟨s.threads t, by rw [hThreads, Function.update_eq_self], ok, by rw [hSearching],
      fun i => by rw [hIdle]⟩
  have hKeep : ∀ (s' : State T) th, s'.threads = Function.update s.threads t th →
      s'.searching = s.searching → s'.idle = s.idle → th.Ok →
      th.tokens = (s.threads t).tokens → (∀ i, th.holds i = (s.threads t).holds i) →
      ∃ th, Moves s s' t th := fun s' th hThreads hSearching hIdle hOk hTokens hHolds =>
    ⟨th, hThreads, hOk, by rw [hSearching, hTokens], fun i => by rw [hIdle, hHolds]⟩
  have hOk := ok
  unfold Thread.Ok at hOk
  simp only [choose] at h
  split at h <;> rename_i hp <;> (try simp only [hp, Pc.Ok] at hOk)
  case h_1 | h_2 =>
    obtain rfl := Option.some.inj h
    exact hKeep _ _ rfl rfl rfl hOk (by simp [Thread.tokens, hp, Pc.tokens])
      fun i => by simp [Thread.holds, hp, Pc.holds]
  case h_3 | h_4 | h_5 | h_20 | h_21 | h_25 | h_28 =>
    obtain rfl := Option.some.inj h
    refine ⟨_, moves_goto rfl rfl rfl ?_ ?_ ?_⟩ <;> simp_all [Pc.Ok, Pc.Polls, Pc.tokens, Pc.holds]
  case h_6 | h_7 | h_8 =>
    obtain rfl := Option.some.inj h
    exact moves_schedule ok (by simp_all)
  case h_9 | h_10 | h_11 | h_17 | h_18 | h_19 =>
    split at h
    · obtain rfl := Option.some.inj h
      exact hStay _ rfl rfl rfl
    · simp at h
  case h_12 | h_13 | h_14 | h_15 | h_16 =>
    obtain rfl := Option.some.inj h
    exact hStay _ rfl rfl rfl
  case h_22 next ready | h_29 next ready =>
    obtain rfl := Option.some.inj h
    have hTokens := hOk.2.2.1.tokens
    have hHolds := hOk.2.2.1.holds
    refine ⟨_, moves_goto rfl rfl rfl ?_ ?_ ?_⟩ <;> rcases ready with _ | _ | ready <;>
      simp_all [Pc.Ok, Pc.tokens, Pc.holds, popAndInject]
  case h_23 | h_24 | h_26 =>
    obtain ⟨i, hWorker, h⟩ := Option.bind_eq_some_iff.mp h
    split at h
    · obtain rfl := Option.some.inj h
      refine ⟨_, moves_goto rfl rfl rfl ?_ ?_ ?_⟩ <;> simp_all [Pc.Ok, Pc.tokens, Pc.holds]
    · simp at h
  case h_27 =>
    split at h
    · obtain rfl := Option.some.inj h
      refine moves_pollTimers ?_ ?_ ?_ ?_ ?_ <;> simp_all [Pc.Ok, Pc.tokens, Pc.holds, Pc.Polls]
    · simp at h
  case h_30 u => exact (hCreate u rfl).elim
  case h_31 =>
    obtain rfl := Option.some.inj h
    refine ⟨_, moves_goto rfl rfl rfl ?_ ?_ ?_⟩ <;> simp_all [Pc.Ok, Pc.tokens, Pc.holds]
  case h_32 =>
    obtain rfl := Option.some.inj h
    refine ⟨_, moves_goto rfl rfl rfl ?_ ?_ ?_⟩ <;> simp_all [Pc.Ok, Pc.tokens, Pc.holds]
  case h_33 =>
    split at h
    · obtain rfl := Option.some.inj h
      refine ⟨_, moves_goto rfl rfl rfl ?_ ?_ ?_⟩ <;> simp_all [Pc.Ok, Pc.tokens, Pc.holds]
    · simp at h
  case h_34 => simp at h

/-- A wake leaves a notification without a worker, and none where there is one. -/
theorem moves_wake {s : State T} {t : T} {park : ParkState} (ok : (s.threads t).Ok)
    (h : (s.threads t).park.unpark none = some park) :
    Moves s (s.setThread t { s.threads t with park := park }) t
      { s.threads t with park := park } := by
  have hPark : park = .notified none ∧ givenTokens (s.threads t).park = 0 ∧
      ∀ i, given i (s.threads t).park = 0 := by
    unfold ParkState.unpark at h
    split at h <;> simp_all [givenTokens, given]
  obtain ⟨rfl, hTokens, hHolds⟩ := hPark
  refine ⟨rfl, ?_, ?_, fun i => ?_⟩
  · unfold Thread.Ok at ok ⊢
    exact ok_notified ok
  · simp only [State.setThread, Thread.tokens, hTokens]
    rfl
  · simp only [State.setThread, Thread.holds, hHolds]
    rfl

variable [Fintype T]

omit [Fintype T] in
theorem ok_update {s s' : State T} {t : T} {th : Thread T} (ok : ∀ t, (s.threads t).Ok)
    (hThreads : s'.threads = Function.update s.threads t th) (hOk : th.Ok) (u : T) :
    (s'.threads u).Ok := by
  rw [hThreads, Function.update_apply]
  split
  · exact hOk
  · exact ok u

/-- A step that accounts for what it moves keeps the accounts: the sums over all threads
change by one thread's share. -/
theorem Accounts.moves {W : Nat} {s s' : State T} {t : T} {th : Thread T}
    (accounts : Accounts W s) (moves : Moves s s' t th) : Accounts W s' := by
  refine ⟨ok_update accounts.ok moves.threads moves.ok, ?_, fun i => ?_⟩
  · have hTotal := Tally.total_update Thread.tokens s.threads t th
    have hTokens := moves.tokens
    have hBefore := accounts.tokens
    rw [moves.threads]
    omega
  · have hTotal := Tally.total_update (Thread.holds i) s.threads t th
    have hHolds := moves.holds i
    have hBefore := accounts.holds i
    rw [moves.threads]
    omega

/-- What a thread hands over to another, the first loses and the second has. -/
theorem Accounts.handOver {W : Nat} {s s' : State T} {t u : T} (accounts : Accounts W s)
    (th th' : Thread T) (hNe : u ≠ t)
    (hThreads : s'.threads = Function.update (Function.update s.threads u th') t th)
    (hSearching : s'.searching = s.searching) (hIdle : s'.idle = s.idle)
    (hOk : th.Ok) (hOk' : th'.Ok)
    (hTokens : th.tokens + th'.tokens = (s.threads t).tokens + (s.threads u).tokens)
    (hHolds : ∀ i, th.holds i + th'.holds i = (s.threads t).holds i + (s.threads u).holds i) :
    Accounts W s' := by
  have hSelf : Function.update s.threads u th' t = s.threads t :=
    Function.update_of_ne hNe.symm _ _
  refine ⟨fun v => ?_, ?_, fun i => ?_⟩
  · rw [hThreads, Function.update_apply]
    split
    · exact hOk
    · rw [Function.update_apply]
      split
      · exact hOk'
      · exact accounts.ok v
  · have hFirst := Tally.total_update Thread.tokens s.threads u th'
    have hSecond := Tally.total_update Thread.tokens (Function.update s.threads u th') t th
    have hBefore := accounts.tokens
    rw [hSelf] at hSecond
    rw [hThreads, hSearching]
    omega
  · have hFirst := Tally.total_update (Thread.holds i) s.threads u th'
    have hSecond := Tally.total_update (Thread.holds i) (Function.update s.threads u th') t th
    have hBefore := accounts.holds i
    have hHolds := hHolds i
    rw [hSelf] at hSecond
    rw [hThreads, hIdle]
    omega

omit [Fintype T] [DecidableEq T] in
/-- A parker that takes a worker belongs to a thread that is parked. -/
theorem ok_unparked {th : Thread T} {i : Nat} {park : ParkState} (ok : th.Ok)
    (h : th.park.unpark (some i) = some park) :
    park = .notified (some i) ∧ (th.park = .waiting ∨ th.park = .polling) ∧
      ((∃ b, th.pc = .parked b) ∨ ∃ b n, th.pc = .swapEmpty b n) := by
  have hPark : (th.park = .waiting ∨ th.park = .polling) ∧ park = .notified (some i) := by
    unfold ParkState.unpark at h
    split at h <;> simp_all
  have hNot : ¬Unparked th.park := by
    rintro (hEq | hEq) <;> simp [hEq] at hPark
  refine ⟨hPark.2, hPark.1, ?_⟩
  have hNotified : ∀ w, th.park ≠ .notified w := by
    intro w hEq
    simp [hEq] at hPark
  unfold Thread.Ok at ok
  cases hp : th.pc <;> simp only [hp, Pc.Ok] at ok <;> simp_all

/-- An `unpark` hands the worker and its unit over to the state of another parker, or
starts a thread of the pool with them. -/
theorem Accounts.unpark {W maxThreads : Nat} {s s' : State T} {t u : T} {i : Nat} {next : Pc T}
    (accounts : Accounts W s) (hp : (s.threads t).pc = .unpark i u next)
    (h : step W maxThreads s t = some s') : Accounts W s' := by
  have hOk := accounts.ok t
  simp only [Thread.Ok, hp, Pc.Ok] at hOk
  simp only [step, hp, State.unpark] at h
  cases hUnpark : (s.threads u).park.unpark (some i) with
  | none =>
      rw [hUnpark] at h
      obtain rfl := Option.some.inj h
      exact accounts.moves (moves_goto rfl rfl rfl hOk (by simp [hp, Pc.tokens])
        (by simp [hp, Pc.holds]))
  | some park =>
      rw [hUnpark] at h
      obtain rfl := Option.some.inj h
      obtain ⟨rfl, hParked, hLine⟩ := ok_unparked (accounts.ok u) hUnpark
      have hNe : u ≠ t := by
        rintro rfl
        rcases hLine with ⟨b, hb⟩ | ⟨b, n, hb⟩ <;> simp [hp] at hb
      have hSelf : ((s.setThread u { s.threads u with park := .notified (some i) }).threads t) =
          s.threads t := Function.update_of_ne hNe.symm _ _
      have hEmpty : givenTokens (s.threads u).park = 0 ∧ ∀ j, given j (s.threads u).park = 0 := by
        rcases hParked with hPark | hPark <;> simp [hPark, givenTokens, given]
      refine accounts.handOver { s.threads t with pc := next }
        { s.threads u with park := .notified (some i) } hNe ?_ rfl rfl hOk.2 ?_ ?_ fun j => ?_
      · simp only [State.goto, hSelf]
        rfl
      · have hOther := accounts.ok u
        unfold Thread.Ok at hOther ⊢
        rcases hLine with ⟨b, hb⟩ | ⟨b, n, hb⟩ <;> simp only [hb, Pc.Ok] at hOther ⊢ <;>
          exact ⟨hOther.1, Or.inr ⟨_, rfl⟩⟩
      · have hTokens := hEmpty.1
        simp only [Thread.tokens, hp, Pc.tokens, hTokens]
        simp only [givenTokens]
        omega
      · have hHolds := hEmpty.2 j
        simp only [Thread.holds, hp, Pc.holds, hHolds]
        simp only [given, held]
        omega

/-- A thread that is created begins with the worker and the unit of the one that creates
it. -/
theorem Accounts.create {W : Nat} {s s' : State T} {t u : T} {i : Nat} {next : Pc T}
    (accounts : Accounts W s) (hp : (s.threads t).pc = .create i next)
    (h : choose W s t (.create u) = some s') : Accounts W s' := by
  simp only [choose, hp] at h
  split at h
  · next hOutside =>
      obtain rfl := Option.some.inj h
      have hNe : u ≠ t := by
        rintro rfl
        simp [hp] at hOutside
      have hOk := accounts.ok t
      have hOther := accounts.ok u
      simp only [Thread.Ok, hp, hOutside, Pc.Ok] at hOk hOther
      have hSelf : ((s.setThread u { s.threads u with
          pc := .resume i .turn, pooled := true, park := .empty }).threads t) = s.threads t :=
        Function.update_of_ne hNe.symm _ _
      have hTokens := hOther.2.2.tokens
      have hHolds := hOther.2.2.holds
      refine accounts.handOver { s.threads t with pc := next }
        { s.threads u with pc := .resume i .turn, pooled := true, park := .empty }
        hNe ?_ rfl rfl hOk.2 ?_ ?_ fun j => ?_
      · simp only [State.goto, hSelf]
        rfl
      · exact ⟨hOther.1, Or.inl rfl, Or.inl rfl⟩
      · simp only [Thread.tokens, hp, hOutside, Pc.tokens, hTokens]
        simp only [givenTokens]
        omega
      · simp only [Thread.holds, hp, hOutside, Pc.holds, hHolds]
        simp only [given]
        omega
  · simp at h

/-- The accounts are kept by every event of the executor. -/
theorem Accounts.next {W maxThreads : Nat} {s s' : State T} {e : Event T}
    (accounts : Accounts W s) (h : next W maxThreads s e = some s') : Accounts W s' := by
  cases e with
  | step t =>
      by_cases hUnpark : ∃ i u next, (s.threads t).pc = .unpark i u next
      · obtain ⟨i, u, next, hp⟩ := hUnpark
        exact accounts.unpark hp h
      · push Not at hUnpark
        obtain ⟨th, moves⟩ := moves_step (accounts.ok t) (accounts.le_searching t) hUnpark h
        exact accounts.moves moves
  | choose t choice =>
      by_cases hCreate : ∃ u, choice = .create u
      · obtain ⟨u, rfl⟩ := hCreate
        cases hp : (s.threads t).pc
        case create i next => exact accounts.create hp h
        all_goals simp [Executor.next, choose, hp] at h
      · push Not at hCreate
        obtain ⟨th, moves⟩ := moves_choose (accounts.ok t) hCreate h
        exact accounts.moves moves
  | blockOn t =>
      simp only [Executor.next] at h
      split at h
      · next hOutside =>
          obtain rfl := Option.some.inj h
          have hOk := accounts.ok t
          simp only [Thread.Ok, hOutside, Pc.Ok] at hOk
          exact accounts.moves (moves_goto rfl rfl rfl ⟨hOk.1, hOk.2.2⟩ (by simp [hOutside, Pc.tokens])
            (by simp [hOutside, Pc.holds]))
      · simp at h
  | wake t =>
      simp only [Executor.next] at h
      split at h
      · simp at h
      · obtain ⟨park, hUnpark, rfl⟩ := Option.map_eq_some_iff.mp h
        exact accounts.moves (moves_wake (accounts.ok t) hUnpark)
  | tick milliseconds =>
      obtain rfl := Option.some.inj h
      exact ⟨accounts.ok, accounts.tokens, accounts.holds⟩

/-- At the start all workers are in the idle queue and the counter is 0. -/
theorem accounts_initial (W maxThreads : Nat) :
    Accounts W (system T W maxThreads).initial := by
  refine ⟨fun t => ⟨rfl, rfl, Or.inl rfl⟩, ?_, fun i => ?_⟩
  · exact (Finset.sum_eq_zero fun _ _ => rfl).symm
  · have hNone : Tally.total (Thread.holds i) (system T W maxThreads).initial.threads = 0 :=
      Finset.sum_eq_zero fun _ _ => rfl
    rw [hNone]
    simp only [system, List.count_reverse, List.nodup_range.count, List.mem_range, Nat.add_zero]

/-- So they are kept in every reachable state, for any number of threads. -/
theorem accounts_reachable {W maxThreads : Nat} {s : State T}
    (h : (system T W maxThreads).Reachable s) : Accounts W s :=
  h.keeps (accounts_initial W maxThreads) fun _ _ _ accounts hNext => accounts.next hNext

/-! ## Searching threads have a worker -/

/-- The line at which a thread gives back the unit of a search that is over. -/
def Pc.retires : Pc T → Bool
  | .discover _ => true
  | .push _ next | .notifyLoad next | .notifySearching next | .notifySwap next
  | .notifyPending next | .notifyPop next | .spawn _ next | .unpark _ _ next | .create _ next
  | .spawnFailed _ next | .notifyPush _ next | .notifySub next | .dropGuard next => next.retires
  | _ => false

omit [DecidableEq T] [Fintype T] in
/-- The line after an empty recheck gives back no unit of a search that is over. -/
@[simp] theorem retires_none (caller : Caller) : (caller.none : Pc T).retires = false := by
  cases caller <;> rfl

omit [DecidableEq T] [Fintype T] in
@[simp] theorem retires_some (caller : Caller) (i : Nat) :
    (caller.some i : Pc T).retires = false := by
  cases caller <;> rfl

/-- A thread without a worker has no unit of a search. -/
structure Thread.Staffed (th : Thread T) : Prop where
  searching : th.worker = none → th.searching = false
  retires : th.worker = none → th.pc.retires = false

omit [DecidableEq T] [Fintype T] in
/-- A thread that only moves on is as it was, unless it comes to give a unit back. -/
theorem Thread.Staffed.goto {th : Thread T} {pc : Pc T} (staffed : th.Staffed)
    (hRetires : pc.retires → th.pc.retires) : Thread.Staffed { th with pc := pc } := by
  refine ⟨staffed.searching, fun hNone => ?_⟩
  have hNot := staffed.retires hNone
  simpa [hNot] using hRetires

omit [DecidableEq T] [Fintype T] in
/-- A notification of a thread leaves its line and its context alone. -/
theorem Thread.Staffed.setPark {th : Thread T} (staffed : th.Staffed) (park : ParkState) :
    Thread.Staffed { th with park := park } :=
  ⟨staffed.searching, staffed.retires⟩

omit [DecidableEq T] [Fintype T] in
/-- A thread that is started is not searching and brings no unit of its own. -/
theorem Thread.Staffed.start {th : Thread T} (staffed : th.Staffed) (i : Nat) :
    Thread.Staffed { th with pc := (.resume i .turn : Pc T), pooled := true, park := .empty } :=
  ⟨staffed.searching, fun _ => rfl⟩

omit [DecidableEq T] [Fintype T] in
theorem Thread.Staffed.of_worker {th : Thread T} (h : th.worker ≠ none) : th.Staffed :=
  ⟨fun hNone => (h hNone).elim, fun hNone => (h hNone).elim⟩

omit [Fintype T] in
/-- What is taken from the parker is the worker and its unit; the flag of the context
follows later. -/
theorem staffed_pollUnparked {s : State T} {t : T} {taken : Nat → Pc T} {woken otherwise : Pc T}
    (staffed : (s.threads t).Staffed) (hTaken : ∀ i, (taken i).retires = false)
    (hWoken : woken.retires = false) (hOtherwise : otherwise.retires = false) :
    ((s.pollUnparked t taken woken otherwise).threads t).Staffed := by
  simp only [State.pollUnparked]
  split <;> simp only [State.goto, State.setThread, Function.update_self] <;>
    exact ⟨staffed.searching, fun _ => by simp_all⟩

omit [Fintype T] in
theorem staffed_popIdle {s : State T} {t : T} {none : Pc T} {some : Nat → Pc T}
    (staffed : (s.threads t).Staffed) (hNone : none.retires → (s.threads t).pc.retires)
    (hSome : ∀ i, (some i).retires → (s.threads t).pc.retires) :
    ((s.popIdle t none some).threads t).Staffed := by
  unfold State.popIdle
  split <;> simp only [State.goto, State.setThread, Function.update_self]
  · exact staffed.goto hNone
  · exact staffed.goto (hSome _)
  · exact staffed.goto (hSome _)

omit [Fintype T] in
theorem staffed_fetchSub {W : Nat} {s : State T} {t : T} {last other panic : Pc T}
    (staffed : (s.threads t).Staffed) (hLast : last.retires → (s.threads t).pc.retires)
    (hOther : other.retires → (s.threads t).pc.retires) :
    ((s.fetchSub W t last other panic).threads t).Staffed := by
  simp only [State.fetchSub, State.goto, State.setThread, Function.update_self]
  refine staffed.goto ?_
  split
  · simp [Pc.retires]
  · split <;> assumption

omit [Fintype T] in
/-- The timers are polled with the worker of the context in place. -/
theorem worker_pollTimers (s : State T) (t : T) (queue : Nat) (next : Pc T) :
    ((s.pollTimers t queue next).threads t).worker = (s.threads t).worker := by
  unfold State.pollTimers
  split
  · simp [State.goto, State.setThread]
  · simp only
    split <;> simp [State.setThread, Thread.wait]

omit [Fintype T] in
/-- A thread sets its flag only with a worker, and gives both back together. -/
theorem staffed_step {W maxThreads : Nat} {s s' : State T} {t : T} (ok : (s.threads t).Ok)
    (staffed : (s.threads t).Staffed) (h : step W maxThreads s t = some s') :
    (s'.threads t).Staffed := by
  unfold Thread.Ok at ok
  cases hp : (s.threads t).pc <;> simp only [step, hp, reduceCtorEq] at h <;>
    simp only [hp, Pc.Ok] at ok
  case waitFirst | waitThird | unwrapUnparked =>
    obtain rfl := Option.some.inj h
    refine staffed_pollUnparked staffed ?_ ?_ ?_ <;> (repeat' split) <;> simp [Pc.retires]
  case waitLocked =>
    split at h <;> obtain rfl := Option.some.inj h
    · exact staffed_pollUnparked staffed (by simp [Pc.retires]) rfl rfl
    · simpa [State.goto, State.setThread] using staffed.goto (by simp [Pc.retires])
  case retryPop caller =>
    obtain rfl := Option.some.inj h
    exact staffed_popIdle staffed (by cases caller <;> simp [Caller.none, Pc.retires])
      (by simp [Pc.retires])
  case notifyPop next =>
    obtain rfl := Option.some.inj h
    exact staffed_popIdle staffed (by simp [hp, Pc.retires]) (by simp [hp, Pc.retires])
  case failSub ended =>
    obtain rfl := Option.some.inj h
    cases ended <;> exact staffed_fetchSub staffed (by simp [Pc.retires]) (by simp [Pc.retires])
  case notifySub next =>
    obtain rfl := Option.some.inj h
    exact staffed_fetchSub staffed (by simp [hp, Pc.retires]) (by simp [hp, Pc.retires])
  case discover next =>
    obtain rfl := Option.some.inj h
    exact staffed_fetchSub staffed (by simp [hp, Pc.retires]) (by simp [hp, Pc.retires])
  case ownTimers =>
    obtain ⟨i, hWorker, rfl⟩ := Option.map_eq_some_iff.mp h
    exact .of_worker (by simp [worker_pollTimers, hWorker])
  case popLocal =>
    obtain ⟨i, hWorker, rfl⟩ := Option.map_eq_some_iff.mp h
    refine .of_worker ?_
    split <;> simp [State.goto, State.setThread, hWorker]
  case giveBack ended =>
    obtain ⟨i, hWorker, rfl⟩ := Option.map_eq_some_iff.mp h
    refine .of_worker ?_
    split <;> simp [State.goto, State.setThread, hWorker]
  case unpark i u next =>
    obtain rfl := Option.some.inj h
    have hRetires : next.retires → (s.threads t).pc.retires := by simp [hp, Pc.retires]
    unfold State.unpark
    split
    · simp only [State.goto, State.setThread, Function.update_self]
      exact staffed.goto hRetires
    · next park hPark =>
        simp only [State.goto, State.setThread, Function.update_self, Function.update_apply]
        split
        · next hEq =>
            subst hEq
            exact (staffed.setPark park).goto hRetires
        · exact staffed.goto hRetires
  case lockTake i next =>
    obtain rfl := Option.some.inj h
    refine .of_worker ?_
    unfold State.lockProducer
    split <;> simp [State.goto, State.setThread, ok.1]
  case lockPut i ended =>
    obtain rfl := Option.some.inj h
    refine .of_worker ?_
    unfold State.lockProducer
    split <;> simp [State.goto, State.setThread, ok.1]
  case swapTake i next =>
    obtain rfl := Option.some.inj h
    refine .of_worker ?_
    simp only [State.takeProducer, State.setThread, Function.update_self]
    split <;> simp [ok.1]
  case swapPut i ended =>
    obtain rfl := Option.some.inj h
    simp only [State.putProducer, State.setThread, Function.update_self]
    split
    · exact ⟨fun _ => rfl, fun _ => rfl⟩
    · exact .of_worker (by simp [ok.1])
  case resume i next =>
    obtain rfl := Option.some.inj h
    simp only [State.setThread, Function.update_self]
    split
    · exact .of_worker (by simp)
    · exact staffed.goto (by simp [Pc.retires])
  case beginAdded before =>
    obtain rfl := Option.some.inj h
    refine .of_worker ?_
    split <;> simp [State.goto, State.setThread, ok.1]
  case found =>
    obtain rfl := Option.some.inj h
    refine .of_worker ?_
    split <;> simp [State.goto, State.setThread, ok.1]
  case finish =>
    obtain rfl := Option.some.inj h
    split
    · next hSearching =>
        refine .of_worker ?_
        simp only [State.setThread, Function.update_self]
        exact fun hNone => by simp [staffed.searching hNone] at hSearching
    · simp only [State.goto, State.setThread, Function.update_self]
      exact staffed.goto (by simp [Pc.retires])
  case swapParked isPolling =>
    split at h <;> obtain rfl := Option.some.inj h <;>
      simpa [State.goto, State.setThread] using (staffed.setPark _).goto (by simp [Pc.retires])
  case swapEmpty isPolling ready =>
    split at h <;> obtain rfl := Option.some.inj h <;>
      simpa [State.goto, State.setThread] using (staffed.setPark _).goto (by simp [Pc.retires])
  case push ready next =>
    split at h <;> obtain rfl := Option.some.inj h <;>
      simpa [State.goto, State.setThread] using staffed.goto (by simp [hp, Pc.retires])
  case notifySwap next =>
    split at h <;> obtain rfl := Option.some.inj h
    · simp only [State.goto, State.setThread, Function.update_self]
      exact staffed.goto (by simp [hp, Pc.retires])
    · simp only [State.goto, State.setThread, Function.update_self]
      exact staffed.goto (by split <;> simp [hp, Pc.retires])
  case spawn i next =>
    repeat' split at h
    all_goals
      obtain rfl := Option.some.inj h
      simpa [State.goto, State.setThread] using staffed.goto (by simp [hp, Pc.retires])
  case lockIo next | pollIo next =>
    obtain rfl := Option.some.inj h
    refine .of_worker ?_
    split <;> simp [State.goto, State.setThread, ok.1]
  case lockPoll =>
    obtain rfl := Option.some.inj h
    split <;> simpa [State.goto, State.setThread] using staffed.goto (by simp [Pc.retires])
  case leave =>
    obtain rfl := Option.some.inj h
    simp only [State.setThread, Function.update_self]
    exact ⟨staffed.searching, fun _ => rfl⟩
  case failPush i wasSearching ended =>
    obtain rfl := Option.some.inj h
    split
    · simpa [State.goto, State.setThread] using staffed.goto (by simp [Pc.retires])
    · simp only [State.goto, State.setThread, Function.update_self]
      refine staffed.goto ?_
      (repeat' split) <;> simp [Pc.retires]
  case taken i ready =>
    obtain rfl := Option.some.inj h
    rcases ready with _ | _ | ready <;>
      simpa [State.goto, State.setThread, popAndInject] using staffed.goto (by simp [Pc.retires])
  all_goals
    obtain rfl := Option.some.inj h
    simp only [State.goto, State.setThread, Function.update_self]
    refine staffed.goto ?_
    (repeat' split) <;> simp [hp, Pc.retires]

omit [Fintype T] in
/-- A choice of a thread leaves its flag alone, and takes no worker from its context. -/
theorem staffed_choose {W : Nat} {s s' : State T} {t : T} {choice : Choice T}
    (ok : (s.threads t).Ok) (staffed : (s.threads t).Staffed)
    (hCreate : ∀ u, choice ≠ .create u) (h : choose W s t choice = some s') :
    (s'.threads t).Staffed := by
  unfold Thread.Ok at ok
  simp only [choose] at h
  split at h <;> rename_i hp <;> (try simp only [hp, Pc.Ok] at ok)
  case h_1 | h_2 =>
    obtain rfl := Option.some.inj h
    simp only [State.setThread, Function.update_self]
    exact ⟨staffed.searching, fun _ => rfl⟩
  case h_6 | h_7 | h_8 =>
    obtain rfl := Option.some.inj h
    unfold State.schedule
    split <;> simpa [State.goto, State.setThread] using staffed.goto (by simp [hp, Pc.retires])
  case h_9 | h_10 | h_11 | h_17 | h_18 | h_19 =>
    split at h
    · obtain rfl := Option.some.inj h
      exact staffed
    · simp at h
  case h_12 | h_13 | h_14 | h_15 | h_16 =>
    obtain rfl := Option.some.inj h
    exact staffed
  case h_22 next ready | h_29 next ready =>
    obtain rfl := Option.some.inj h
    exact .of_worker (by simpa [State.goto, State.setThread] using ok.1)
  case h_23 | h_24 | h_26 =>
    obtain ⟨i, hWorker, h⟩ := Option.bind_eq_some_iff.mp h
    split at h
    · obtain rfl := Option.some.inj h
      exact .of_worker (by simp [State.goto, State.setThread, hWorker])
    · simp at h
  case h_27 =>
    split at h
    · obtain rfl := Option.some.inj h
      exact .of_worker (by rw [worker_pollTimers]; exact ok.1)
    · simp at h
  case h_30 u => exact (hCreate u rfl).elim
  case h_33 =>
    split at h
    · obtain rfl := Option.some.inj h
      simpa [State.goto, State.setThread] using staffed.goto (by simp [Pc.retires])
    · simp at h
  case h_34 => simp at h
  all_goals
    obtain rfl := Option.some.inj h
    simpa [State.goto, State.setThread] using staffed.goto (by simp [hp, Pc.retires])

omit [Fintype T] in
/-- A thread that is unparked or started by another keeps its context. -/
theorem staffed_update {s s' : State T} {t : T} {th : Thread T}
    (staffed : ∀ t, (s.threads t).Staffed)
    (hThreads : s'.threads = Function.update s.threads t th) (hSelf : (s'.threads t).Staffed)
    (v : T) : (s'.threads v).Staffed := by
  by_cases hEq : v = t
  · exact hEq ▸ hSelf
  · rw [hThreads, Function.update_of_ne hEq]
    exact staffed v

/-- A thread loses its worker only once its flag is cleared, so every event leaves all
threads staffed. -/
theorem staffed_next {W maxThreads : Nat} {s s' : State T} {e : Event T}
    (accounts : Accounts W s) (staffed : ∀ t, (s.threads t).Staffed)
    (h : next W maxThreads s e = some s') (v : T) : (s'.threads v).Staffed := by
  cases e with
  | step t =>
      have hSelf := staffed_step (accounts.ok t) (staffed t) h
      by_cases hUnpark : ∃ i u next, (s.threads t).pc = .unpark i u next
      · obtain ⟨i, u, next, hp⟩ := hUnpark
        by_cases hEq : v = t
        · exact hEq ▸ hSelf
        · simp only [Executor.next, step, hp] at h
          obtain rfl := Option.some.inj h
          unfold State.unpark
          split
          · simpa [State.goto, State.setThread, Function.update_of_ne hEq] using staffed v
          · next park hPark =>
              simp only [State.goto, State.setThread, Function.update_of_ne hEq,
                Function.update_apply]
              split
              · next hThere => exact hThere ▸ (staffed u).setPark park
              · exact staffed v
      · push Not at hUnpark
        obtain ⟨th, moves⟩ := moves_step (accounts.ok t) (accounts.le_searching t) hUnpark h
        exact staffed_update staffed moves.threads hSelf v
  | choose t choice =>
      by_cases hCreate : ∃ u, choice = .create u
      · obtain ⟨u, rfl⟩ := hCreate
        cases hp : (s.threads t).pc
        case create i next =>
          simp only [Executor.next, choose, hp] at h
          split at h
          · next hOutside =>
              obtain rfl := Option.some.inj h
              have hNe : t ≠ u := by
                rintro rfl
                simp [hp] at hOutside
              simp only [State.goto, State.setThread, Function.update_of_ne hNe,
                Function.update_apply]
              split
              · exact (staffed t).goto (by simp [hp, Pc.retires])
              · split
                · exact (staffed u).start i
                · exact staffed v
          · simp at h
        all_goals simp [Executor.next, choose, hp] at h
      · push Not at hCreate
        obtain ⟨th, moves⟩ := moves_choose (accounts.ok t) hCreate h
        exact staffed_update staffed moves.threads
          (staffed_choose (accounts.ok t) (staffed t) hCreate h) v
  | blockOn t =>
      simp only [Executor.next] at h
      split at h
      · obtain rfl := Option.some.inj h
        refine staffed_update staffed rfl ?_ v
        simpa [State.goto, State.setThread] using (staffed t).goto (by simp [Pc.retires])
      · simp at h
  | wake t =>
      simp only [Executor.next] at h
      split at h
      · simp at h
      · obtain ⟨park, -, rfl⟩ := Option.map_eq_some_iff.mp h
        refine staffed_update staffed rfl ?_ v
        simpa [State.setThread] using (staffed t).setPark park
  | tick milliseconds =>
      obtain rfl := Option.some.inj h
      exact staffed v

/-- Hence in every reachable state a search is that of a thread with a worker. -/
theorem staffed_reachable {W maxThreads : Nat} {s : State T}
    (h : (system T W maxThreads).Reachable s) : ∀ t, (s.threads t).Staffed := by
  obtain ⟨steps, run⟩ := h
  exact System.Path.keeps run (fun _ _ => True) (Accounts W) (fun _ _ => trivial)
    (fun _ _ path _ => accounts_reachable ⟨_, path⟩) (fun _ => ⟨fun _ => rfl, fun _ => rfl⟩)
    fun _ _ _ accounts staffed _ hNext => staffed_next accounts staffed hNext

/-- The units of the counter on their way: taken and not yet in a context or
released, cleared from a context and not yet subtracted, or in a notification. -/
def Thread.transit (th : Thread T) : Nat := th.pc.tokens + givenTokens th.park

/-- The lines that subtract a unit from the counter. -/
def Pc.subtracts : Pc T → Bool
  | .failSub _ | .discover _ | .notifySub _ => true
  | _ => false

/-- Outside of the runtime, or blocked in `park` without a notification. -/
def Thread.Inactive (th : Thread T) : Prop :=
  th.pc = .outside ∨ ∃ isPolling, th.pc = .parked isPolling ∧ th.park = .parked isPolling

omit [DecidableEq T] [Fintype T] in
theorem Pc.tokens_of_subtracts {pc : Pc T} (h : pc.subtracts) : 0 < pc.tokens := by
  cases pc <;> simp_all [Pc.subtracts, Pc.tokens]

omit [DecidableEq T] [Fintype T] in
/-- A thread that is outside, or blocked without a notification, has no unit at all. -/
theorem Thread.Inactive.tokens {th : Thread T} (h : th.Inactive) (ok : th.Ok)
    (staffed : th.Staffed) : th.tokens = 0 := by
  unfold Thread.Ok at ok
  rcases h with hp | ⟨isPolling, hp, hPark⟩
  · rw [hp] at ok
    obtain ⟨-, hSearching, hUnparked⟩ := ok
    simp [Thread.tokens, hp, Pc.tokens, hSearching, hUnparked.tokens]
  · rw [hp] at ok
    have hSearching := staffed.searching ok.1
    cases isPolling <;> simp [Thread.tokens, hp, Pc.tokens, hSearching, hPark, givenTokens,
      ParkState.parked]

/-- Every unit of the searching counter is in one context or on its way, so that
the counter does not underflow and is zero when no thread is active. -/
theorem searching_owned (W maxThreads : Nat) (s : State T)
    (h : (system T W maxThreads).Reachable s) :
    s.searching = Tally.total (fun th => th.searching.toNat) s.threads +
        Tally.total Thread.transit s.threads ∧
      (∀ t, (s.threads t).pc.subtracts → 0 < s.searching) ∧
      (∀ t i next, (s.threads t).pc = .resume i next → (s.threads t).searching = false) ∧
      ((∀ t, (s.threads t).Inactive) → s.searching = 0) := by
  have accounts := accounts_reachable h
  have staffed := staffed_reachable h
  refine ⟨?_, fun t hSubtracts => ?_, fun t i next hp => ?_, fun hInactive => ?_⟩
  · rw [accounts.tokens, ← Tally.total_add]
    refine congrArg (Tally.total · s.threads) (funext fun th => ?_)
    simp only [Thread.tokens, Thread.transit]
    omega
  · have hPos := Pc.tokens_of_subtracts hSubtracts
    have hLe := accounts.le_searching t
    unfold Thread.tokens at hLe
    omega
  · have hOk := accounts.ok t
    unfold Thread.Ok at hOk
    rw [hp] at hOk
    exact (staffed t).searching hOk.1
  · rw [accounts.tokens]
    exact Finset.sum_eq_zero fun t _ => (hInactive t).tokens (accounts.ok t) (staffed t)

/-- A call of `block_on` that has just taken its unit for the worker it popped. -/
theorem searching_owned_retryAdded : ∃ s, (system (Fin 2) 2 4).Reachable s ∧
    (s.threads 0).transit = 1 ∧ s.searching = Tally.total (fun th => th.searching.toNat) s.threads +
      Tally.total Thread.transit s.threads := by
  obtain ⟨s, run, hTransit⟩ := (system (Fin 2) 2 4).exists_run_of_replay
    [.blockOn 0, .step 0, .step 0, .step 0] (fun s => (s.threads 0).transit) 1 (by decide)
  exact ⟨s, run.reachable, hTransit, (searching_owned 2 4 s run.reachable).1⟩

end Yaar.Runtime.Executor
