import Yaar.Runtime.BlockOn

/-! A parked thread and the state of the future it runs. -/
namespace Yaar.Runtime.BlockOn

open Machine TaskState

variable {T : Type*}

/-- The turn of the loop the thread is in, between `poll_future` and the end of
`park`: whether it rescheduled the future. -/
def Owner.turn? : Owner → Option Bool
  | .turn r | .checkFirst r | .lockPool r | .checkLocked r | .pushIdle r | .checkThird r
  | .tryPoll r | .swapParked r _ | .lockMutex r | .checkWaiting r | .waitFor r | .asleep r
  | .relockMutex r | .recheckWaiting r | .unlockMutex r | .select r | .swapEmpty r _ => some r
  | _ => none

/-- Inside `park`, between its two exchanges. -/
def Owner.Parking : Owner → Prop
  | .lockMutex _ | .checkWaiting _ | .waitFor _ | .asleep _ | .relockMutex _
  | .recheckWaiting _ | .unlockMutex _ | .select _ | .swapEmpty _ _ => True
  | _ => False

/-- The thread is blocked in `park` and nothing has notified it. -/
def Blocked (s : State T) : Prop :=
  s.owner.Parking ∧ (s.park = .waiting ∨ s.park = .polling)

/-- In the `unpark` of a wake that has scheduled the future. -/
def Waking.Unparking : Waking → Prop
  | .unpark none | .notify none | .lockMutex none | .unlockMutex none | .signal none => True
  | _ => False

/-- A blocked thread with a scheduled future is about to be unparked. -/
def Awaited (s : State T) : Prop :=
  Blocked s → s.task = TASK_SCHEDULED → ∃ t, (s.wakers t).Unparking

/-- The thread does not park in a turn in which `poll_future` rescheduled the
future. -/
def PolledFirst (s : State T) : Event T → Prop
  | .owner => ∀ isPolling, s.owner = .swapParked true isPolling → s.park ≠ .empty
  | _ => True

instance (s : State T) (e : Event T) : Decidable (PolledFirst s e) :=
  match e with
  | .owner => inferInstanceAs (Decidable (∀ _ : Bool, _ → _))
  | .choose _ | .wake _ | .give _ _ | .waker _ => isTrue trivial

/-- A scheduled future has a wake that will unpark, or the park state has it. -/
def Noticed (s : State T) : Prop :=
  s.task = TASK_SCHEDULED → (∃ t, s.wakers t = .unpark none) ∨ ∃ i, s.park = .notified i

structure Inv (s : State T) : Prop where
  parking : s.owner.Parking → s.owner.turn? = some false
  noticed : s.owner.turn? = some false → Noticed s

/-- What a thread step of `wait` and `park` leaves alone. -/
theorem noticed_park {s s' : State T} (noticed : Noticed s) (hTask : s'.task = s.task)
    (hWakers : s'.wakers = s.wakers) (hPark : s'.park = s.park ∨ s.park = .empty) : Noticed s' := by
  intro hScheduled
  rw [hTask] at hScheduled
  rw [hWakers]
  rcases noticed hScheduled with hWaker | ⟨i, hi⟩
  · exact Or.inl hWaker
  · rcases hPark with hPark | hPark
    · exact Or.inr ⟨i, hPark.trans hi⟩
    · simp [hPark] at hi

/-- A turn that has not rescheduled the future began with it idle, and touches
only the park state. -/
theorem turn_owner {s s' : State T} (h : ownerStep s = some s')
    (hTurn : s'.owner.turn? = some false) :
    s'.task = TASK_IDLE ∨ s.owner.turn? = some false ∧ s'.task = s.task ∧
      s'.wakers = s.wakers ∧ (s'.park = s.park ∨ s.park = .empty) := by
  cases hp : s.owner <;>
    simp only [hp, ownerStep, State.pollUnparked, State.loadWaiting] at h <;>
    grind [Owner.turn?, transitionToRunning, transitionToIdle]

/-- The thread gets into `park` by its first exchange only. -/
theorem parking_owner {s s' : State T} (h : ownerStep s = some s') (hParking : s'.owner.Parking) :
    s.owner.Parking ∧ s'.owner.turn? = s.owner.turn? ∨
      ∃ r isPolling, s.owner = .swapParked r isPolling ∧ s.park = .empty ∧
        s'.owner.turn? = some r := by
  cases hp : s.owner <;>
    simp only [hp, ownerStep, State.pollUnparked, State.loadWaiting] at h <;>
    grind [Owner.turn?, Owner.Parking]

/-- A step of the thread keeps the invariant, if it does not park in a turn that has
rescheduled the future. -/
theorem inv_owner {s s' : State T} (inv : Inv s) (hGuard : PolledFirst s .owner)
    (h : ownerStep s = some s') : Inv s' := by
  constructor
  · intro hParking
    rcases parking_owner h hParking with ⟨hBefore, hTurn⟩ | ⟨r, isPolling, hSwap, hEmpty, hTurn⟩
    · exact hTurn.trans (inv.parking hBefore)
    · cases r with
      | true => exact (hGuard isPolling hSwap hEmpty).elim
      | false => exact hTurn
  · intro hTurn
    rcases turn_owner h hTurn with hIdle | ⟨hBefore, hTask, hWakers, hPark⟩
    · intro hScheduled
      rw [hIdle] at hScheduled
      exact absurd hScheduled (by decide)
    · exact noticed_park (inv.noticed hBefore) hTask hWakers hPark

/-- A choice of the thread does not lead into `park`, and undoes nothing of what the
turn has seen. -/
theorem turn_choose {s s' : State T} {choice : Choice} (h : chooseStep s choice = some s') :
    (s'.owner.turn? = some false → s.owner.turn? = some false) ∧ ¬s'.owner.Parking ∧
      s'.task = s.task ∧ s'.wakers = s.wakers ∧ s'.park = s.park := by
  unfold chooseStep at h
  split at h <;> grind [Owner.turn?, Owner.Parking]

theorem inv_choose {s s' : State T} {choice : Choice} (inv : Inv s)
    (h : chooseStep s choice = some s') : Inv s' := by
  obtain ⟨hTurn, hParking, hTask, hWakers, hPark⟩ := turn_choose h
  exact ⟨fun hIn => (hParking hIn).elim, fun hIn =>
    noticed_park (inv.noticed (hTurn hIn)) hTask hWakers (Or.inl hPark)⟩

variable [DecidableEq T]

/-- What a step of another thread can do to the future and the park state. -/
structure WakerStep (s s' : State T) (t : T) : Prop where
  owner : s'.owner = s.owner
  others : ∀ u, u ≠ t → s'.wakers u = s.wakers u
  scheduled : s'.task = TASK_SCHEDULED → s.task = TASK_SCHEDULED ∨ s'.wakers t = .unpark none
  notified : ∀ i, s.park = .notified i → s'.park = .notified i
  unparked : s.wakers t = .unpark none → ∃ i, s'.park = .notified i

/-- A wake that has scheduled the future goes on to unpark the thread. No step of a wake
takes a notification away. -/
theorem wakerStep_spec {s s' : State T} {t : T} (h : wakerStep s t = some s') :
    WakerStep s s' t := by
  have hUnpark : ∀ park i, s.park.unpark i = some park →
      park = .notified i ∧ ∀ j, s.park ≠ .notified j := by
    intro park i
    unfold ParkState.unpark
    grind
  have hUnchanged : s.park.unpark none = none → ∃ j, s.park = .notified j := by
    unfold ParkState.unpark
    grind
  cases hp : s.wakers t <;> simp only [hp, wakerStep, State.setWaking] at h <;>
    (try split at h) <;> simp only [Option.some.injEq, reduceCtorEq] at h <;> subst h <;>
    constructor <;> simp only [Function.update_apply] <;> grind [transitionToScheduled]

theorem noticed_waker {s s' : State T} {t : T} (noticed : Noticed s) (step : WakerStep s s' t) :
    Noticed s' := by
  intro hScheduled
  rcases step.scheduled hScheduled with hBefore | hNew
  · rcases noticed hBefore with ⟨u, hu⟩ | ⟨i, hi⟩
    · by_cases hEq : u = t
      · exact Or.inr (step.unparked (hEq ▸ hu))
      · exact Or.inl ⟨u, (step.others u hEq).trans hu⟩
    · exact Or.inr ⟨i, step.notified i hi⟩
  · exact Or.inl ⟨t, hNew⟩

/-- The start of a call by another thread changes nothing else. -/
theorem inv_setWaking {s : State T} {t : T} {waking : Waking} (inv : Inv s)
    (hIdle : s.wakers t = .idle) : Inv (s.setWaking t waking) := by
  refine ⟨inv.parking, fun hTurn hScheduled => ?_⟩
  refine (inv.noticed hTurn hScheduled).imp (fun ⟨u, hu⟩ => ⟨u, ?_⟩) id
  have hNe : u ≠ t := by
    rintro rfl
    simp [hIdle] at hu
  simpa [State.setWaking, hNe] using hu

/-- Every step of any thread keeps the invariant, under the condition on the owner. -/
theorem inv_next {s s' : State T} {e : Event T} (inv : Inv s) (hGuard : PolledFirst s e)
    (h : next s e = some s') : Inv s' := by
  cases e with
  | owner => exact inv_owner inv hGuard h
  | choose choice => exact inv_choose inv h
  | wake t =>
      simp only [next] at h
      split at h
      · next hStart => exact Option.some.inj h ▸ inv_setWaking inv hStart.2
      · simp at h
  | give t i =>
      simp only [next] at h
      split at h
      · next hStart => exact Option.some.inj h ▸ inv_setWaking inv hStart
      · simp at h
  | waker t =>
      have step := wakerStep_spec h
      refine ⟨fun hParking => ?_, fun hTurn => ?_⟩
      · rw [step.owner] at hParking ⊢
        exact inv.parking hParking
      · rw [step.owner] at hTurn
        exact noticed_waker (inv.noticed hTurn) step

/-- At the start the future is scheduled, and no turn has begun. -/
theorem inv_initial (worker : Option Nat) : Inv (system T worker).initial :=
  ⟨fun h => h.elim, fun h => by simp [system, Owner.turn?] at h⟩

/-- In a run that never parks in a turn which rescheduled the future, a blocked
thread with a scheduled future is about to be unparked. -/
theorem awaited_of_polledFirst {worker : Option Nat} {steps : List (State T × Event T)}
    {s : State T} (run : (system T worker).Run steps s) (guard : Meets PolledFirst steps) :
    Awaited s := by
  have inv : Inv s := System.Path.keeps_of_meets run PolledFirst guard (inv_initial worker)
    fun _ _ _ inv hGuard h => inv_next inv hGuard h
  intro ⟨hParking, hPark⟩ hScheduled
  rcases inv.noticed (inv.parking hParking) hScheduled with ⟨t, ht⟩ | ⟨i, hi⟩
  · exact ⟨t, by simp [ht, Waking.Unparking]⟩
  · rcases hPark with hPark | hPark <;> simp [hPark] at hi

/-- The future is polled, returns `Pending` and is woken by another thread once
the thread has parked. -/
def wokenInPark : List (Event Unit) :=
  [.owner, .owner, .owner, .choose .pending, .owner,
    .choose .nothing, .owner, .owner, .owner, .owner, .owner, .choose (.network false), .owner,
    .wake (), .waker ()]

/-- The condition and its consequence when the wake has yet to unpark. -/
theorem awaited_of_polledFirst_wokenInPark : ∃ steps s, (system Unit (some 0)).Run steps s ∧
    Meets PolledFirst steps ∧ Blocked s ∧ s.task = TASK_SCHEDULED ∧ Awaited s := by
  obtain ⟨s, run, hs⟩ := (system Unit (some 0)).exists_run_of_replay wokenInPark
    (fun s => (s.owner, s.park, s.task)) (.lockMutex false, .waiting, TASK_SCHEDULED) (by decide)
  have hGuard : Meets PolledFirst ((system Unit (some 0)).trace (system Unit (some 0)).initial
      wokenInPark) := by
    unfold Meets
    decide
  simp only [Prod.mk.injEq] at hs
  obtain ⟨hOwner, hPark, hTask⟩ := hs
  exact ⟨_, s, run, hGuard, ⟨by simp [hOwner, Owner.Parking], Or.inl hPark⟩, hTask,
    awaited_of_polledFirst run hGuard⟩

/-- The future wakes itself while it is polled, and the thread finds nothing to
run. -/
def wokenInPoll : List (Event Unit) :=
  [.owner, .owner, .owner, .wake (), .waker (), .choose .pending, .owner, .owner, .owner,
    .choose .nothing, .owner, .owner, .owner, .owner, .owner, .choose (.network false), .owner]

/-- The future is left scheduled and the thread parks with no wake under way. -/
theorem wokenInPoll_blocked :
    ¬∀ steps s, (system Unit (some 0)).Run steps s → Awaited s := by
  intro h
  obtain ⟨s, run, hs⟩ := (system Unit (some 0)).exists_run_of_replay wokenInPoll
    (fun s => (s.owner, s.park, s.task, s.wakers ()))
    (.lockMutex true, .waiting, TASK_SCHEDULED, .idle) (by decide)
  simp only [Prod.mk.injEq] at hs
  obtain ⟨hOwner, hPark, hTask, hIdle⟩ := hs
  obtain ⟨t, ht⟩ := h _ s run ⟨by simp [hOwner, Owner.Parking], Or.inl hPark⟩ hTask
  simp [hIdle, Waking.Unparking] at ht

end Yaar.Runtime.BlockOn
