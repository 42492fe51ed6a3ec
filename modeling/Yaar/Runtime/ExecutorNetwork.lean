import Mathlib.Tactic.FinCases
import Yaar.Runtime.ExecutorSlots

/-! Which thread sees to the events of the network. -/
namespace Yaar.Runtime.Executor

open Machine

variable {T : Type*}

/-- A line of a thread inside the runtime. A call of `schedule` or `wake` from
outside goes through `inject` and `notify` without entering it. -/
def Pc.inside : Pc T → Bool
  | .outside | .panicked _ => false
  | .push _ next | .notifyLoad next | .notifySearching next | .notifySwap next
  | .notifyPending next | .notifyPop next | .spawn _ next | .unpark _ _ next | .create _ next
  | .spawnFailed _ next | .notifyPush _ next | .notifySub next => next.inside
  | _ => true

/-- The lines of `park` at which a thread has decided to wait on its condvar. -/
def Pc.waits : Pc T → Bool
  | .swapParked false | .parked false => true
  | _ => false

/-- The lines of a thread that has the lock of the selector. -/
def Pc.selects : Pc T → Bool
  | .polling _ | .swapParked true | .parked true | .unwrapUnparked _ true | .dropGuard _ => true
  | _ => false

def isNotified : ParkState → Bool
  | .notified _ => true
  | _ => false

/-- A thread that polls the network or is yet to look at the count of pending
operations: it is inside and not left on its condvar without a notification. -/
def Thread.Watches (th : Thread T) : Prop :=
  th.pc.inside ∧ (th.pc.waits → isNotified th.park)

instance (th : Thread T) : Decidable th.Watches :=
  inferInstanceAs (Decidable (_ ∧ _))

theorem Pc.Returned.waits {pc : Pc T} (h : pc.Returned) : pc.waits = false := by
  cases pc <;> simp_all [Pc.Returned, Pc.waits]

theorem Pc.Polls.inside {pc : Pc T} (h : pc.Polls) : pc.inside ∧ pc.waits = false := by
  cases pc <;> simp_all [Pc.Polls, Pc.inside, Pc.waits]

/-- The holder of the selector watches. -/
theorem Thread.watches_of_selects {th : Thread T} (h : th.pc.selects) : th.Watches := by
  unfold Thread.Watches
  cases hp : th.pc <;> simp only [hp, Pc.selects, reduceCtorEq] at h
  case swapParked isPolling | parked isPolling => cases isPolling <;> simp_all [Pc.inside, Pc.waits]
  all_goals exact ⟨rfl, by simp [Pc.waits]⟩

/-- What a step of one thread does to another: nothing, a notification, or its
start in the pool. -/
inductive Thread.Reacts (th : Thread T) : Thread T → Prop where
  | same : th.Reacts th
  | notified (workerIndex : Option Nat)
      (h : th.park.unpark workerIndex = some (.notified workerIndex)) :
      th.Reacts { th with park := .notified workerIndex }
  | started (workerIndex : Nat) (h : th.pc = .outside) :
      th.Reacts { th with pc := .resume workerIndex .turn, pooled := true, park := .empty }

theorem unpark_eq {park park' : ParkState} {workerIndex : Option Nat}
    (h : park.unpark workerIndex = some park') : park' = .notified workerIndex := by
  unfold ParkState.unpark at h
  split at h
  · simp at h
  · split at h
    · simp at h
    · exact (Option.some.inj h).symm
  · exact (Option.some.inj h).symm
  · exact (Option.some.inj h).symm

/-- What other threads do to a thread leaves it watching: a notification gets it off its
condvar. -/
theorem Thread.Reacts.watches {th th' : Thread T} (h : th.Reacts th') (hWatches : th.Watches) :
    th'.Watches := by
  cases h with
  | same => exact hWatches
  | notified workerIndex => exact ⟨hWatches.1, fun _ => rfl⟩
  | started i => exact ⟨rfl, by simp [Pc.waits]⟩

/-- Nor does it take the lock of the selector from the thread. -/
theorem Thread.Reacts.selects {th th' : Thread T} (h : th.Reacts th') (hSelects : th.pc.selects) :
    th'.pc.selects := by
  cases h with
  | same => exact hSelects
  | notified workerIndex => exact hSelects
  | started i hOutside => simp [hOutside, Pc.selects] at hSelects

variable [DecidableEq T]

/-- A thread that another unparks gets the notification or is started, if it is the one
unparked at all. -/
theorem reacts_unpark {s : State T} {t u v : T} {i : Nat} {next : Pc T} (hNe : u ≠ t) :
    (s.threads u).Reacts ((s.unpark t v i next).threads u) := by
  unfold State.unpark
  split
  · simpa [State.goto, State.setThread, Function.update_of_ne hNe] using .same
  · next park hPark =>
      obtain rfl := unpark_eq hPark
      simp only [State.goto, State.setThread, Function.update_of_ne hNe, Function.update_apply]
      split
      · next hEq =>
          subst hEq
          exact .notified _ hPark
      · exact .same

/-- The wake of a task of `block_on` is a notification without a worker. -/
theorem reacts_wake {s : State T} {t : T} {park : ParkState}
    (h : (s.threads t).park.unpark none = some park) (u : T) :
    (s.threads u).Reacts ((s.setThread t { s.threads t with park := park }).threads u) := by
  obtain rfl := unpark_eq h
  simp only [State.setThread, Function.update_apply]
  split
  · next hEq =>
      subst hEq
      exact .notified _ h
  · exact .same

section
variable [Fintype T]

/-- What a step of a thread does to the others: an `unpark` notifies one or starts it,
and nothing else touches them. -/
theorem Accounts.reacts_step {W maxThreads : Nat} {s s' : State T} {t u : T}
    (accounts : Accounts W s) (hNe : u ≠ t) (h : step W maxThreads s t = some s') :
    (s.threads u).Reacts (s'.threads u) := by
  by_cases hUnpark : ∃ i v next, (s.threads t).pc = .unpark i v next
  · obtain ⟨i, v, next, hp⟩ := hUnpark
    simp only [step, hp] at h
    obtain rfl := Option.some.inj h
    exact reacts_unpark hNe
  · push Not at hUnpark
    obtain ⟨th, moves⟩ := moves_step (accounts.ok t) (accounts.le_searching t) hUnpark h
    rw [moves.threads, Function.update_of_ne hNe]
    exact .same

theorem Accounts.reacts_choose {W : Nat} {s s' : State T} {t u : T} {choice : Choice T}
    (accounts : Accounts W s) (hNe : u ≠ t) (h : choose W s t choice = some s') :
    (s.threads u).Reacts (s'.threads u) := by
  by_cases hCreate : ∃ v, choice = .create v
  · obtain ⟨v, rfl⟩ := hCreate
    cases hp : (s.threads t).pc
    case create i next =>
      simp only [choose, hp] at h
      split at h
      · next hOutside =>
          obtain rfl := Option.some.inj h
          simp only [State.goto, State.setThread, Function.update_of_ne hNe, Function.update_apply]
          split
          · next hEq =>
              subst hEq
              exact .started i hOutside
          · exact .same
      · simp at h
    all_goals simp [choose, hp] at h
  · push Not at hCreate
    obtain ⟨th, moves⟩ := moves_choose (accounts.ok t) hCreate h
    rw [moves.threads, Function.update_of_ne hNe]
    exact .same

end

/-- A thread that goes to a line inside watches, unless it is to wait on its condvar. -/
theorem watches_goto {s : State T} {t : T} {pc : Pc T} (hInside : pc.inside)
    (hWaits : pc.waits = false) : ((s.goto t pc).threads t).Watches := by
  simp [Thread.Watches, hInside, hWaits]

/-- After the state of the parker is polled the thread is still inside and off its
condvar. -/
theorem watches_pollUnparked {s : State T} {t : T} {taken : Nat → Pc T} {woken otherwise : Pc T}
    (hTaken : ∀ i, (taken i).inside ∧ (taken i).waits = false)
    (hWoken : woken.inside ∧ woken.waits = false)
    (hOtherwise : otherwise.inside ∧ otherwise.waits = false) :
    ((s.pollUnparked t taken woken otherwise).threads t).Watches := by
  simp only [State.pollUnparked]
  split <;> simp_all [Thread.Watches]

theorem watches_pollTimers {s : State T} {t : T} {queue : Nat} {next : Pc T} (hNext : next.Polls) :
    ((s.pollTimers t queue next).threads t).Watches := by
  obtain ⟨hInside, hWaits⟩ := hNext.inside
  unfold State.pollTimers
  split
  · exact watches_goto hInside hWaits
  · simp only
    split
    · simp [Thread.Watches, Thread.wait, hInside, hWaits]
    · simp [Thread.Watches, Pc.inside, Pc.waits]

theorem watches_popIdle {s : State T} {t : T} {none : Pc T} {some : Nat → Pc T}
    (hNone : none.inside ∧ none.waits = false)
    (hSome : ∀ i, (some i).inside ∧ (some i).waits = false) :
    ((s.popIdle t none some).threads t).Watches := by
  unfold State.popIdle
  split <;> first | exact watches_goto hNone.1 hNone.2 | exact watches_goto (hSome _).1 (hSome _).2

/-- After a unit is subtracted the thread is inside, unless the check of the counter
fails. -/
theorem watches_fetchSub {W : Nat} {s : State T} {t : T} {last other panic : Pc T}
    (hLive : ((s.fetchSub W t last other panic).threads t).pc.live)
    (hLast : last.inside ∧ last.waits = false) (hOther : other.inside ∧ other.waits = false) :
    ((s.fetchSub W t last other panic).threads t).Watches := by
  simp only [State.fetchSub, goto_self] at hLive
  split at hLive
  · simp [Pc.live] at hLive
  · next hBound =>
      simp only [State.fetchSub, if_neg hBound]
      split
      · exact watches_goto hLast.1 hLast.2
      · exact watches_goto hOther.1 hOther.2

/-- The thread that unparks another goes on, or takes the next parker, and never
waits on its own condvar. -/
theorem watches_unpark {s : State T} {t u : T} {i : Nat} {next : Pc T} (hInside : next.inside)
    (hReturned : next.Returned) : ((s.unpark t u i next).threads t).Watches := by
  unfold State.unpark
  split
  · exact watches_goto hInside rfl
  · exact watches_goto hInside (Pc.Returned.waits hReturned)

/-- A thread that finds the producer's lock free goes on under it, and one that
does not has panicked. -/
theorem watches_lockProducer {s : State T} {t : T} {i : Nat} {next : Pc T}
    (hNext : next.inside ∧ next.waits = false)
    (hLive : ((s.lockProducer t i next).threads t).pc.live) :
    ((s.lockProducer t i next).threads t).Watches := by
  unfold State.lockProducer at hLive ⊢
  split at hLive
  · simp [Pc.live] at hLive
  · next hLock =>
      rw [if_neg hLock]
      exact watches_goto hNext.1 hNext.2

/-- The swap at the start of a turn leads on inside, unless its `unwrap` fails. -/
theorem watches_takeProducer {s : State T} {t : T} {i : Nat} {next : Pc T}
    (hNext : next.inside ∧ next.waits = false)
    (hLive : ((s.takeProducer t i next).threads t).pc.live) :
    ((s.takeProducer t i next).threads t).Watches := by
  simp only [State.takeProducer, setThread_self] at hLive
  split at hLive
  · next hTaken => simp [State.takeProducer, if_pos hTaken, Thread.Watches, hNext]
  · simp [Pc.live] at hLive

/-- The swap at the end of a turn leads to the push of the worker. -/
theorem watches_putProducer {s : State T} {t : T} {i : Nat} {ended : Bool}
    (hLive : ((s.putProducer t i ended).threads t).pc.live) :
    ((s.putProducer t i ended).threads t).Watches := by
  simp only [State.putProducer, setThread_self] at hLive
  split at hLive
  · next hPut =>
      simp [State.putProducer, if_pos hPut, Thread.Watches, Pc.inside, Pc.waits]
  · simp [Pc.live] at hLive

/-- `ThreadPool::spawn` pops a parker, pushes the worker back to the idle queue or
creates a thread, all for the caller of `notify`. -/
theorem watches_spawn {W maxThreads : Nat} {s s' : State T} {t : T} {i : Nat} {next : Pc T}
    (hp : (s.threads t).pc = .spawn i next) (hInside : next.inside)
    (hLive : (s'.threads t).pc.live) (h : step W maxThreads s t = some s') :
    (s'.threads t).Watches := by
  simp only [step, hp] at h
  repeat' split at h
  all_goals obtain rfl := Option.some.inj h
  case h_2.isTrue => simp [Pc.live] at hLive
  all_goals exact watches_goto hInside rfl

/-- The swap of the searching counter in `notify` wins the token or returns to
the caller. -/
theorem watches_notifySwap {W maxThreads : Nat} {s s' : State T} {t : T} {next : Pc T}
    (hp : (s.threads t).pc = .notifySwap next) (hInside : next.inside)
    (hReturned : next.Returned) (hLive : (s'.threads t).pc.live)
    (h : step W maxThreads s t = some s') : (s'.threads t).Watches := by
  simp only [step, hp] at h
  split at h
  · obtain rfl := Option.some.inj h
    exact watches_goto hInside rfl
  · obtain rfl := Option.some.inj h
    split at hLive
    · simp [Pc.live] at hLive
    · next hBound =>
        rw [if_neg hBound]
        exact watches_goto hInside (Pc.Returned.waits hReturned)

/-- The loads of `notify` before its swap. -/
theorem watches_notifySearching {W maxThreads : Nat} {s s' : State T} {t : T} {next : Pc T}
    (hp : (s.threads t).pc = .notifySearching next) (hInside : next.inside)
    (hReturned : next.Returned) (hLive : (s'.threads t).pc.live)
    (h : step W maxThreads s t = some s') : (s'.threads t).Watches := by
  simp only [step, hp] at h
  obtain rfl := Option.some.inj h
  split at hLive
  · simp [Pc.live] at hLive
  · next hBound =>
      rw [if_neg hBound]
      split
      · exact watches_goto hInside (Pc.Returned.waits hReturned)
      · exact watches_goto hInside rfl

/-- The lines of `Parker::park` from the first poll of its state to the last one,
after which the thread has a worker or removes its parker. -/
def Pc.parks : Pc T → Bool
  | .waitFirst | .waitLocked | .waitThird | .tryPoll | .lockPoll | .swapParked _ | .swapEmpty _ _
  | .unwrapUnparked _ _ => true
  | _ => false

/-- A thread in `park` goes on to watch, unless it has read a count of zero or
found the selector taken. -/
theorem watches_park {W maxThreads : Nat} {s s' : State T} {t : T} (ok : (s.threads t).Ok)
    (hParks : (s.threads t).pc.parks) (hWatches : (s.threads t).Watches)
    (h : step W maxThreads s t = some s') :
    (s'.threads t).Watches ∨ (s.threads t).pc = .tryPoll ∧ s.ioPending = 0 ∨
      (s.threads t).pc = .lockPoll ∧ s.selector = true := by
  obtain ⟨-, hWaits⟩ := hWatches
  unfold Thread.Ok at ok
  cases hp : (s.threads t).pc <;> simp only [hp, Pc.parks, reduceCtorEq] at hParks <;>
    simp only [step, hp] at h <;> simp only [hp, Pc.Ok] at ok
  case waitFirst | waitThird =>
    obtain rfl := Option.some.inj h
    exact Or.inl (watches_pollUnparked (fun _ => ⟨rfl, rfl⟩) ⟨rfl, rfl⟩ ⟨rfl, rfl⟩)
  case waitLocked =>
    split at h
    · obtain rfl := Option.some.inj h
      exact Or.inl (watches_pollUnparked (fun _ => ⟨rfl, rfl⟩) ⟨rfl, rfl⟩ ⟨rfl, rfl⟩)
    · obtain rfl := Option.some.inj h
      exact Or.inl (watches_goto rfl rfl)
  case unwrapUnparked ready guarded =>
    obtain rfl := Option.some.inj h
    obtain ⟨-, w, hPark⟩ := ok
    left
    cases w <;> cases guarded <;>
      simp [State.pollUnparked, hPark, Thread.Watches, Pc.inside, Pc.waits]
  case tryPoll =>
    obtain rfl := Option.some.inj h
    by_cases hZero : s.ioPending = 0
    · simp [hZero]
    · rw [if_neg hZero]
      exact Or.inl (watches_goto rfl rfl)
  case lockPoll =>
    obtain rfl := Option.some.inj h
    by_cases hSelector : s.selector = true
    · simp [hSelector]
    · rw [if_neg hSelector]
      exact Or.inl (watches_goto rfl rfl)
  case swapParked isPolling =>
    split at h
    · next hEmpty =>
        obtain rfl := Option.some.inj h
        cases isPolling
        · simp [hp, Pc.waits, hEmpty, isNotified] at hWaits
        · exact Or.inl (by simp [Thread.Watches, Pc.inside, Pc.waits])
    · obtain rfl := Option.some.inj h
      exact Or.inl (watches_goto rfl rfl)
  case swapEmpty =>
    split at h <;> obtain rfl := Option.some.inj h <;>
      exact Or.inl (by simp [Thread.Watches, Pc.inside, Pc.waits])

/-- A thread inside goes on to watch, but for its way out of the runtime and to
its condvar. -/
theorem watches_step {W maxThreads : Nat} {s s' : State T} {t : T} (ok : (s.threads t).Ok)
    (shape : (s.threads t).pc.Shape) (hLive : (s'.threads t).pc.live)
    (hWatches : (s.threads t).Watches) (h : step W maxThreads s t = some s') :
    (s'.threads t).Watches ∨ (s.threads t).pc = .leave ∨
      (s.threads t).pc = .tryPoll ∧ s.ioPending = 0 ∨
      (s.threads t).pc = .lockPoll ∧ s.selector = true := by
  by_cases hParks : (s.threads t).pc.parks
  · exact (watches_park ok hParks hWatches h).imp id Or.inr
  by_cases hLeave : (s.threads t).pc = .leave
  · exact Or.inr (Or.inl hLeave)
  left
  obtain ⟨hInside, -⟩ := hWatches
  cases hp : (s.threads t).pc <;> simp only [hp, Pc.parks, not_true_eq_false] at hParks <;>
    simp only [hp, Pc.Shape] at shape <;>
    simp only [hp, Pc.inside, reduceCtorEq] at hInside
  case spawn => exact watches_spawn hp hInside hLive h
  case notifySwap => exact watches_notifySwap hp hInside shape hLive h
  case notifySearching => exact watches_notifySearching hp hInside shape hLive h
  all_goals simp only [step, hp, reduceCtorEq] at h
  case leave => exact absurd hp hLeave
  case ownTimers =>
    obtain ⟨i, _, rfl⟩ := Option.map_eq_some_iff.mp h
    exact watches_pollTimers trivial
  case popLocal =>
    obtain ⟨i, _, rfl⟩ := Option.map_eq_some_iff.mp h
    split
    · exact watches_goto rfl rfl
    · split <;> exact watches_goto rfl rfl
  case giveBack ended =>
    obtain ⟨i, _, rfl⟩ := Option.map_eq_some_iff.mp h
    split at hLive
    · next hProducer => simp [hProducer, Thread.Watches, Pc.inside, Pc.waits]
    · simp [Pc.live] at hLive
  case push ready next =>
    split at h <;> obtain rfl := Option.some.inj h <;> exact watches_goto hInside rfl
  all_goals obtain rfl := Option.some.inj h
  case unpark => exact watches_unpark hInside shape
  case lockTake | lockPut => exact watches_lockProducer ⟨rfl, rfl⟩ hLive
  case swapTake i next =>
    exact watches_takeProducer (by rcases shape with rfl | rfl <;> exact ⟨rfl, rfl⟩) hLive
  case swapPut => exact watches_putProducer hLive
  case retryPop caller =>
    refine watches_popIdle ?_ fun _ => ⟨rfl, rfl⟩
    cases caller <;> exact ⟨rfl, rfl⟩
  case notifyPop => exact watches_popIdle ⟨hInside, rfl⟩ fun _ => ⟨hInside, rfl⟩
  case pollIo next | lockIo next =>
    obtain ⟨hNext, hNextWaits⟩ := Pc.Polls.inside shape
    split
    · exact watches_goto hNext hNextWaits
    · exact watches_goto rfl rfl
  case failSub ended =>
    exact watches_fetchSub hLive ⟨rfl, rfl⟩ (by cases ended <;> exact ⟨rfl, rfl⟩)
  case discover next =>
    rcases shape with rfl | rfl <;> exact watches_fetchSub hLive ⟨rfl, rfl⟩ ⟨rfl, rfl⟩
  case notifySub next =>
    have hNext : next.inside ∧ next.waits = false := ⟨hInside, Pc.Returned.waits shape⟩
    exact watches_fetchSub hLive hNext hNext
  case dropGuard next =>
    rcases shape with ⟨ready, rfl⟩ | ⟨i, ready, rfl⟩ <;> exact watches_goto rfl rfl
  case retryAdded caller i searching =>
    split at hLive
    · next hLt =>
        rw [if_pos hLt]
        cases caller <;> exact watches_goto rfl rfl
    · simp [Pc.live] at hLive
  case retryLoad caller =>
    split
    · exact watches_goto rfl rfl
    · cases caller <;> exact watches_goto rfl rfl
  case taken i ready => rcases ready with _ | _ | ready <;> exact watches_goto rfl rfl
  case notifyLoad next | notifyPending next =>
    split
    · exact watches_goto hInside rfl
    · exact watches_goto hInside (by first | rfl | exact Pc.Returned.waits shape)
  case spawnFailed | notifyPush => exact watches_goto hInside rfl
  all_goals
    revert hLive
    (repeat' split) <;> intro hLive <;> simp_all [Thread.Watches, Pc.inside, Pc.waits, Pc.live]

/-- A choice leaves a thread that watches inside. A call of `block_on` ends in steps only. -/
theorem watches_choose {W : Nat} {s s' : State T} {t : T} {choice : Choice T}
    (shape : (s.threads t).pc.Shape) (hWatches : (s.threads t).Watches)
    (h : choose W s t choice = some s') : (s'.threads t).Watches := by
  obtain ⟨hInside, hWaits⟩ := hWatches
  simp only [choose] at h
  split at h <;> rename_i hp <;>
    simp only [hp, Pc.inside, Pc.waits, Pc.Shape, reduceCtorEq] at hInside hWaits shape
  case h_7 | h_8 =>
    obtain rfl := Option.some.inj h
    unfold State.schedule
    split <;> exact watches_goto (by rw [hp]; rfl) rfl
  case h_10 | h_11 | h_18 | h_19 =>
    split at h
    · obtain rfl := Option.some.inj h
      simp [Thread.Watches, hp, Pc.inside, Pc.waits]
    · simp at h
  case h_13 | h_14 | h_15 | h_16 =>
    obtain rfl := Option.some.inj h
    simp [Thread.Watches, hp, Pc.inside, Pc.waits]
  case h_22 next ready | h_29 next ready =>
    obtain rfl := Option.some.inj h
    obtain ⟨hNext, hNextWaits⟩ := Pc.Polls.inside shape
    rcases ready with _ | _ | ready
    · exact watches_goto hNext hNextWaits
    · exact watches_goto rfl rfl
    · exact watches_goto rfl rfl
  case h_23 | h_24 | h_26 =>
    obtain ⟨i, _, h⟩ := Option.bind_eq_some_iff.mp h
    split at h
    · obtain rfl := Option.some.inj h
      exact watches_goto rfl rfl
    · simp at h
  case h_27 =>
    split at h
    · obtain rfl := Option.some.inj h
      exact watches_pollTimers trivial
    · simp at h
  case h_30 u =>
    split at h
    · obtain rfl := Option.some.inj h
      exact watches_goto hInside (Pc.Returned.waits shape)
    · simp at h
  case h_31 =>
    obtain rfl := Option.some.inj h
    exact watches_goto hInside rfl
  case h_33 =>
    split at h
    · obtain rfl := Option.some.inj h
      exact watches_goto rfl rfl
    · simp at h
  case h_34 => simp at h
  all_goals
    obtain rfl := Option.some.inj h
    simp [Thread.Watches, Pc.inside, Pc.waits]

/-- The executor leaves the count of pending operations, and the selector but for
three lines. -/
theorem network_step {W maxThreads : Nat} {s s' : State T} {t : T}
    (h : step W maxThreads s t = some s') :
    s'.ioPending = s.ioPending ∧ (s'.selector = s.selector ∨ (s.threads t).pc = .lockPoll ∨
      ∃ next, (s.threads t).pc = .lockIo next ∨ (s.threads t).pc = .dropGuard next) := by
  cases hp : (s.threads t).pc <;> simp only [step, hp, reduceCtorEq] at h
  case lockIo | lockPoll =>
    obtain rfl := Option.some.inj h
    split <;> simp [State.goto, State.setThread]
  case dropGuard =>
    obtain rfl := Option.some.inj h
    simp [State.goto, State.setThread]
  all_goals refine And.imp id Or.inl ?_
  case retryPop | notifyPop =>
    obtain rfl := Option.some.inj h
    unfold State.popIdle
    split <;> exact ⟨rfl, rfl⟩
  case waitFirst | waitThird | unwrapUnparked =>
    obtain rfl := Option.some.inj h
    rw [(pollUnparked_eq s t _ _ _).choose_spec]
    exact ⟨rfl, rfl⟩
  case waitLocked =>
    split at h
    · obtain rfl := Option.some.inj h
      rw [(pollUnparked_eq s t _ _ _).choose_spec]
      exact ⟨rfl, rfl⟩
    · obtain rfl := Option.some.inj h
      exact ⟨rfl, rfl⟩
  case ownTimers =>
    obtain ⟨i, _, rfl⟩ := Option.map_eq_some_iff.mp h
    rw [(pollTimers_eq s t i .popLocal).choose_spec]
    exact ⟨rfl, rfl⟩
  case popLocal | giveBack =>
    obtain ⟨i, _, rfl⟩ := Option.map_eq_some_iff.mp h
    split <;> exact ⟨rfl, rfl⟩
  case unpark i u next =>
    obtain rfl := Option.some.inj h
    unfold State.unpark
    split <;> exact ⟨rfl, rfl⟩
  case lockTake | lockPut =>
    obtain rfl := Option.some.inj h
    unfold State.lockProducer
    split <;> exact ⟨rfl, rfl⟩
  case spawn | push | swapParked | swapEmpty | notifySwap =>
    repeat' split at h
    all_goals
      obtain rfl := Option.some.inj h
      exact ⟨rfl, rfl⟩
  all_goals
    obtain rfl := Option.some.inj h
    (try split) <;> exact ⟨rfl, rfl⟩

/-- After a step of a thread it holds the selector, or another still does. -/
theorem selects_step {W maxThreads : Nat} {s s' : State T} {t : T} (ok : (s.threads t).Ok)
    (h : step W maxThreads s t = some s') (hSelector : s'.selector = true) :
    (s'.threads t).pc.selects ∨ s.selector = true ∧ (s.threads t).pc.selects = false := by
  unfold Thread.Ok at ok
  cases hp : (s.threads t).pc
  case lockIo next | lockPoll =>
    simp only [step, hp] at h
    obtain rfl := Option.some.inj h
    split
    · next hTaken => exact Or.inr ⟨hTaken, rfl⟩
    · exact Or.inl (by simp [Pc.selects])
  case dropGuard next =>
    simp only [step, hp] at h
    obtain rfl := Option.some.inj h
    simp [State.goto, State.setThread] at hSelector
  case swapParked isPolling =>
    cases isPolling
    · rw [((network_step h).2.resolve_right (by simp [hp]))] at hSelector
      exact Or.inr ⟨hSelector, rfl⟩
    · simp only [step, hp] at h
      split at h <;> obtain rfl := Option.some.inj h <;> exact Or.inl (by simp [Pc.selects])
  case unwrapUnparked ready guarded =>
    cases guarded
    · rw [((network_step h).2.resolve_right (by simp [hp]))] at hSelector
      exact Or.inr ⟨hSelector, rfl⟩
    · simp only [step, hp] at h
      rw [hp] at ok
      obtain ⟨-, w, hPark⟩ := ok
      obtain rfl := Option.some.inj h
      left
      cases w <;> simp [State.pollUnparked, hPark, Pc.selects]
  case parked | polling => simp [step, hp] at h
  all_goals
    rw [((network_step h).2.resolve_right (by simp [hp]))] at hSelector
    exact Or.inr ⟨hSelector, rfl⟩

/-- Where the lock of the selector is held after a choice, it is held by the thread
itself, or by another as before. -/
theorem selects_choose {W : Nat} {s s' : State T} {t : T} {choice : Choice T}
    (h : choose W s t choice = some s') (hSelector : s'.selector = true) :
    (s'.threads t).pc.selects ∨ s.selector = true ∧ (s.threads t).pc.selects = false := by
  simp only [choose] at h
  split at h <;> rename_i hp
  case h_22 | h_32 =>
    obtain rfl := Option.some.inj h
    simp [State.goto, State.setThread] at hSelector
  case h_6 | h_7 | h_8 =>
    obtain rfl := Option.some.inj h
    unfold State.schedule at hSelector
    refine Or.inr ⟨?_, by rw [hp]; rfl⟩
    split at hSelector <;> exact hSelector
  case h_9 | h_10 | h_11 | h_17 | h_18 | h_19 | h_30 | h_33 =>
    split at h
    · obtain rfl := Option.some.inj h
      exact Or.inr ⟨hSelector, by rw [hp]; rfl⟩
    · simp at h
  case h_23 | h_24 | h_26 =>
    obtain ⟨i, _, h⟩ := Option.bind_eq_some_iff.mp h
    split at h
    · obtain rfl := Option.some.inj h
      exact Or.inr ⟨hSelector, by rw [hp]; rfl⟩
    · simp at h
  case h_27 queue =>
    split at h
    · obtain rfl := Option.some.inj h
      rw [(pollTimers_eq s t queue .search).choose_spec] at hSelector
      exact Or.inr ⟨hSelector, by rw [hp]; rfl⟩
    · simp at h
  case h_34 => simp at h
  all_goals
    obtain rfl := Option.some.inj h
    exact Or.inr ⟨hSelector, by rw [hp]; rfl⟩

/-- An operation becomes pending in the code of a thread inside. -/
theorem pending_choose {W : Nat} {s s' : State T} {t : T} {choice : Choice T}
    (h : choose W s t choice = some s') :
    s'.ioPending ≤ s.ioPending ∨ (s'.threads t).Watches := by
  simp only [choose] at h
  split at h <;> rename_i hp
  case h_15 | h_16 =>
    obtain rfl := Option.some.inj h
    exact Or.inr (by simp [Thread.Watches, hp, Pc.inside, Pc.waits])
  case h_6 | h_7 | h_8 =>
    obtain rfl := Option.some.inj h
    unfold State.schedule
    split <;> exact Or.inl le_rfl
  case h_9 | h_10 | h_11 | h_30 | h_33 =>
    split at h
    · obtain rfl := Option.some.inj h
      exact Or.inl le_rfl
    · simp at h
  case h_17 | h_18 | h_19 =>
    split at h
    · obtain rfl := Option.some.inj h
      exact Or.inl (Nat.sub_le _ _)
    · simp at h
  case h_23 | h_24 | h_26 =>
    obtain ⟨i, _, h⟩ := Option.bind_eq_some_iff.mp h
    split at h
    · obtain rfl := Option.some.inj h
      exact Or.inl le_rfl
    · simp at h
  case h_27 queue =>
    split at h
    · obtain rfl := Option.some.inj h
      rw [(pollTimers_eq s t queue .search).choose_spec]
      exact Or.inl le_rfl
    · simp at h
  case h_34 => simp at h
  all_goals
    obtain rfl := Option.some.inj h
    exact Or.inl le_rfl

variable [Fintype T]

/-- The lock of the selector is held by a thread, and the network is watched while
an operation is pending. -/
structure Watched (s : State T) : Prop where
  selector : s.selector = true → ∃ t, (s.threads t).pc.selects
  pending : 0 < s.ioPending → ∃ t, (s.threads t).Watches

/-- A thread leaves the runtime with its next step: `block_on` returns, or a check
of the searching counter fails. -/
def Leaves (W : Nat) (s : State T) (t : T) : Prop :=
  (s.threads t).pc = .leave ∨ (s.threads t).pc.Bounded W s.searching = false

/-- A thread that leaves while an operation is pending is replaced by another. -/
def Replaced (W : Nat) (s : State T) : Event T → Prop
  | .step t => Leaves W s t → s.ioPending = 0 ∨ ∃ u, u ≠ t ∧ (s.threads u).Watches
  | _ => True

instance (W : Nat) (s : State T) : (e : Event T) → Decidable (Replaced W s e)
  | .step t => inferInstanceAs (Decidable
      ((s.threads t).pc = .leave ∨ (s.threads t).pc.Bounded W s.searching = false →
        s.ioPending = 0 ∨ ∃ u, u ≠ t ∧ (s.threads u).Watches))
  | .choose _ _ | .blockOn _ | .wake _ | .tick _ => .isTrue trivial

omit [DecidableEq T] [Fintype T] in
/-- Other threads keep what they have when one thread takes a step. -/
theorem Watched.of {s s' : State T} {t : T} (watched : Watched s)
    (hOthers : ∀ u, u ≠ t → (s.threads u).Reacts (s'.threads u))
    (hSelects : s'.selector = true →
      (s'.threads t).pc.selects ∨ s.selector = true ∧ (s.threads t).pc.selects = false)
    (hWatches : 0 < s'.ioPending → (s'.threads t).Watches ∨ ∃ u, u ≠ t ∧ (s.threads u).Watches) :
    Watched s' := by
  refine ⟨fun hSelector => ?_, fun hPending => ?_⟩
  · rcases hSelects hSelector with hHere | ⟨hBefore, hNot⟩
    · exact ⟨t, hHere⟩
    · obtain ⟨u, hu⟩ := watched.selector hBefore
      have hNe : u ≠ t := by
        rintro rfl
        simp [hNot] at hu
      exact ⟨u, (hOthers u hNe).selects hu⟩
  · rcases hWatches hPending with hHere | ⟨u, hNe, hu⟩
    · exact ⟨t, hHere⟩
    · exact ⟨u, (hOthers u hNe).watches hu⟩

/-- A step keeps the network watched. A thread that is about to wait on its condvar has
found the lock of the selector taken, and the one that has it polls. -/
theorem Watched.step {W maxThreads : Nat} {s s' : State T} {t : T} (watched : Watched s)
    (inv : Inv W maxThreads s) (shape : (s.threads t).pc.Shape)
    (cleared : FlagCleared s (.step t)) (replaced : Replaced W s (.step t))
    (h : step W maxThreads s t = some s') : Watched s' := by
  obtain ⟨hPending, -⟩ := network_step h
  refine watched.of (fun u hNe => inv.accounts.reacts_step hNe h)
    (selects_step (inv.accounts.ok t) h) fun hSome => ?_
  rw [hPending] at hSome
  have hReplaced : Leaves W s t →
      (s'.threads t).Watches ∨ ∃ u, u ≠ t ∧ (s.threads u).Watches := fun hLeaves =>
    Or.inr ((replaced hLeaves).resolve_left hSome.ne')
  by_cases hBounded : (s.threads t).pc.Bounded W s.searching = false
  · exact hReplaced (Or.inr hBounded)
  · obtain ⟨u, hu⟩ := watched.pending hSome
    by_cases hEq : u = t
    · subst hEq
      have hLive : (s'.threads u).pc.live :=
        inv.live (by simpa [CounterHolds] using hBounded) cleared h
      rcases watches_step (inv.accounts.ok u) shape hLive hu h with
        hHere | hLeave | ⟨-, hZero⟩ | ⟨hLock, hTaken⟩
      · exact Or.inl hHere
      · exact hReplaced (Or.inl hLeave)
      · exact (hSome.ne' hZero).elim
      · obtain ⟨v, hv⟩ := watched.selector hTaken
        refine Or.inr ⟨v, ?_, Thread.watches_of_selects hv⟩
        rintro rfl
        simp [hLock, Pc.selects] at hv
    · exact Or.inr ⟨u, hEq, hu⟩

/-- A choice keeps it watched. An operation begins inside the runtime, where its own
thread watches. -/
theorem Watched.choose {W maxThreads : Nat} {s s' : State T} {t : T} {choice : Choice T}
    (watched : Watched s) (inv : Inv W maxThreads s) (shape : (s.threads t).pc.Shape)
    (h : choose W s t choice = some s') : Watched s' := by
  refine watched.of (fun u hNe => inv.accounts.reacts_choose hNe h) (selects_choose h)
    fun hSome => ?_
  rcases pending_choose h with hLe | hHere
  · obtain ⟨u, hu⟩ := watched.pending (by omega)
    by_cases hEq : u = t
    · subst hEq
      exact Or.inl (watches_choose shape hu h)
    · exact Or.inr ⟨u, hEq, hu⟩
  · exact Or.inl hHere

/-- Hence every event does, as long as a thread that leaves is replaced. -/
theorem Watched.next {W maxThreads : Nat} {s s' : State T} {e : Event T} (watched : Watched s)
    (inv : Inv W maxThreads s) (shape : ∀ t, (s.threads t).pc.Shape) (cleared : FlagCleared s e)
    (replaced : Replaced W s e) (h : Executor.next W maxThreads s e = some s') : Watched s' := by
  cases e with
  | step t => exact watched.step inv (shape t) cleared replaced h
  | choose t choice => exact watched.choose inv (shape t) h
  | blockOn t =>
      simp only [Executor.next] at h
      split at h
      · next hOutside =>
          obtain rfl := Option.some.inj h
          refine watched.of (t := t) (fun u hNe => ?_)
            (fun hSelector => Or.inr ⟨hSelector, by rw [hOutside]; rfl⟩)
            fun _ => Or.inl (watches_goto rfl rfl)
          simpa [State.goto, State.setThread, Function.update_of_ne hNe] using .same
      · simp at h
  | wake t =>
      simp only [Executor.next] at h
      split at h
      · simp at h
      · obtain ⟨park, hPark, rfl⟩ := Option.map_eq_some_iff.mp h
        have hReacts := reacts_wake hPark
        refine ⟨fun hSelector => ?_, fun hPending => ?_⟩
        · obtain ⟨u, hu⟩ := watched.selector hSelector
          exact ⟨u, (hReacts u).selects hu⟩
        · obtain ⟨u, hu⟩ := watched.pending hPending
          exact ⟨u, (hReacts u).watches hu⟩
  | tick milliseconds =>
      obtain rfl := Option.some.inj h
      exact ⟨watched.selector, watched.pending⟩

/-- Every thread inside the runtime is blocked in `park` without a notification,
and no thread is about to give it one. -/
structure Settled (s : State T) : Prop where
  blocked : ∀ t, (s.threads t).pc.inside →
    ∃ isPolling, (s.threads t).pc = .parked isPolling ∧ (s.threads t).park = .parked isPolling
  unparks : ∀ t i u next, (s.threads t).pc ≠ .unpark i u next

/-- While an operation is pending in a settled runtime, a thread polls. -/
def Polled (s : State T) : Prop :=
  Settled s → 0 < s.ioPending →
    ∃ t, (s.threads t).pc = .parked true ∧ (s.threads t).park = .polling

omit [DecidableEq T] [Fintype T] in
/-- Where all threads are blocked, the one that watches is the one that polls. -/
theorem Watched.polled {s : State T} (watched : Watched s) : Polled s := by
  intro settled hPending
  obtain ⟨t, hInside, hWaits⟩ := watched.pending hPending
  obtain ⟨isPolling, hp, hPark⟩ := settled.blocked t hInside
  cases isPolling
  · rw [hp, hPark] at hWaits
    simp [Pc.waits, ParkState.parked, isNotified] at hWaits
  · exact ⟨t, hp, hPark⟩

/-- In every run in which a thread that leaves is replaced while an operation is
pending, a settled runtime polls the network. -/
theorem network_polled (W maxThreads : Nat) (hW : 0 < W) (steps : List (State T × Event T))
    (s : State T) (run : (system T W maxThreads).Run steps s) (replaced : Meets (Replaced W) steps) :
    Polled s := by
  refine Watched.polled ?_
  induction run with
  | refl => exact ⟨by simp [system], by simp [system]⟩
  | step prior last ih =>
      rw [meets_append, meets_singleton] at replaced
      have reachable := System.Run.reachable prior
      exact (ih replaced.1).next (inv_reachable hW reachable) (shape_reachable reachable)
        (flagCleared_reachable reachable _) replaced.2 last

/-- A call of `block_on` runs a task with a pending operation and parks to poll, and the
thread created for the other worker waits on its condvar. -/
def pollerParks : List (Event (Fin 2)) :=
  List.flatten [[.blockOn 1], List.replicate 7 (.step 1),
    [.choose 1 .poll, .choose 1 .schedule, .step 1, .step 1, .choose 1 .pending, .step 1,
      .choose 1 .next], List.replicate 10 (.step 1),
    [.choose 1 (.create 0), .choose 1 .ioBegin, .choose 1 .ready, .choose 1 .skip, .step 1,
      .choose 1 .next], List.replicate 13 (.step 1),
    List.replicate 3 (.step 0), [.choose 0 .skip, .step 0, .choose 0 .next, .step 0, .step 0,
      .choose 0 .next], List.replicate 12 (.step 0)]

/-- The thread of `block_on` polls for the operation of its task, and the other waits on
its condvar. -/
theorem network_polled_parked : ∃ steps s, (system (Fin 2) 2 4).Run steps s ∧
    ((s.threads 0).pc, (s.threads 1).pc, s.ioPending) = (.parked false, .parked true, 1) ∧
    Polled s := by
  obtain ⟨s, run, hs⟩ := (system (Fin 2) 2 4).exists_run_of_replay pollerParks
    (fun s => ((s.threads 0).pc, (s.threads 1).pc, s.ioPending)) (.parked false, .parked true, 1)
    (by decide)
  have hReplaced : ∀ x ∈ (system (Fin 2) 2 4).trace (system (Fin 2) 2 4).initial pollerParks,
      Replaced 2 x.1 x.2 := by decide +kernel
  exact ⟨_, s, run, hs, network_polled 2 4 (by decide) _ s run hReplaced⟩

/-- The thread that polls is woken for its own future and returns, while the other
stays on its condvar. -/
theorem pollerLeaves_unwatched : ¬∀ W maxThreads, 0 < W → ∀ s,
    (system (Fin 2) W maxThreads).Reachable s → Polled s := by
  intro h
  obtain ⟨s, run, hs⟩ := (system (Fin 2) 2 4).exists_run_of_replay
    (pollerParks ++ [.wake 1, .choose 1 (.wake 0), .step 1, .step 1, .step 1, .step 1, .step 1,
      .choose 1 .poll, .choose 1 .ready, .step 1, .step 1, .step 1])
    (fun s => ((s.threads 0).pc, (s.threads 0).park, (s.threads 1).pc, s.ioPending))
    (.parked false, .waiting, .outside, 1) (by decide)
  simp only [Prod.mk.injEq] at hs
  obtain ⟨hFirst, hPark, hSecond, hPending⟩ := hs
  have settled : Settled s := by
    refine ⟨fun t hInside => ?_, fun t i u next hp => ?_⟩ <;> fin_cases t
    · exact ⟨false, hFirst, hPark⟩
    · simp [hSecond, Pc.inside] at hInside
    · simp [hFirst] at hp
    · simp [hSecond] at hp
  obtain ⟨t, hp, -⟩ := h 2 4 (by decide) s run.reachable settled (by omega)
  fin_cases t <;> simp_all

end Yaar.Runtime.Executor
