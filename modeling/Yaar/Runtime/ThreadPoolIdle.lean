import Mathlib.Data.Nat.Basic
import Yaar.Runtime.ThreadPool

/-! Which parkers are in the idle list, and whether `shutdown` finds them all. -/
namespace Yaar.Runtime.ThreadPool

open Machine

variable {T K : Type*}

/-- The parker of a thread as it is at a line. -/
def Pc.Ok (park : ParkState) : Pc T → Prop
  | .parked isPolling | .waitEmpty isPolling =>
      park = .parked isPolling ∨ ∃ workerIndex, park = .notified workerIndex
  | .waitUnwrap => ∃ workerIndex, park = .notified workerIndex
  | _ => park = .empty ∨ park = .notified none

/-- Between the push and the return of `wait`. -/
def Pc.between : Pc T → Bool
  | .waitThird | .waitPoll | .waitPark _ | .parked _ | .waitEmpty _ | .waitUnwrap
  | .waitRemove => true
  | _ => false

/-- Between the push of `wait` and the exchange that parks the thread. -/
def Pc.aboutToPark : Pc T → Bool
  | .waitThird | .waitPoll | .waitPark _ => true
  | _ => false

/-- The parker is in the hands of a call that is to unpark it. -/
def Pc.holds [DecidableEq T] (u : T) : Pc T → Bool
  | .spawnUnpark _ parker => parker = u
  | .shutdownUnpark idle => u ∈ idle
  | _ => false

/-- A worker has been put into the parker. -/
def Thread.given (th : Thread T) : Bool :=
  match th.park with
  | .notified (some _) => true
  | _ => false

/-- Parked, or about to be, without a notification. -/
def Thread.Asleep (th : Thread T) : Prop :=
  match th.pc with
  | .waitThird | .waitPoll | .waitPark _ => th.park = .empty
  | .parked isPolling | .waitEmpty isPolling => th.park = .parked isPolling
  | _ => False

/-- Blocked in `park` with its state still `Waiting` or `Polling`. -/
def Thread.Blocked (th : Thread T) : Prop :=
  ∃ isPolling, th.pc = .parked isPolling ∧ th.park = .parked isPolling

theorem Thread.Blocked.asleep {th : Thread T} (h : th.Blocked) : th.Asleep := by
  obtain ⟨isPolling, hp, hPark⟩ := h
  simp [Thread.Asleep, hp, hPark]

/-- A thread that is blocked is between the push of its parker and the return of `wait`. -/
theorem Thread.Blocked.between {th : Thread T} (h : th.Blocked) : th.pc.between := by
  obtain ⟨isPolling, hp, -⟩ := h
  rw [hp]
  rfl

/-- Another notification changes nothing for a line but that the thread is awake. -/
theorem ok_notified {pc : Pc T} {park : ParkState} (ok : pc.Ok park) : pc.Ok (.notified none) := by
  cases pc <;> simp_all [Pc.Ok]

theorem unpark_none {park park' : ParkState} (h : park.unpark none = some park') :
    park' = .notified none := by
  unfold ParkState.unpark at h
  split at h <;> simp_all

/-- `unpark(Some(i))` goes through for a parked thread only, and leaves the worker with
it. -/
theorem unpark_some {park park' : ParkState} {i : Nat} (h : park.unpark (some i) = some park') :
    park' = .notified (some i) ∧ ∃ isPolling, park = .parked isPolling := by
  cases park with
  | empty => simp [ParkState.unpark] at h
  | waiting => exact ⟨(Option.some.inj h).symm, false, rfl⟩
  | polling => exact ⟨(Option.some.inj h).symm, true, rfl⟩
  | notified workerIndex => simp [ParkState.unpark] at h

/-- An `unpark` fails where the parker has a notification already. With a worker it also
fails where the thread is not parked yet. -/
theorem unpark_refused {park : ParkState} {workerIndex : Option Nat}
    (h : park.unpark workerIndex = none) :
    (∃ w, park = .notified w) ∨ park = .empty ∧ workerIndex.isSome := by
  cases park with
  | empty => exact Or.inr ⟨rfl, by by_contra hNot; simp [ParkState.unpark, hNot] at h⟩
  | notified w => exact Or.inl ⟨w, rfl⟩
  | _ => simp [ParkState.unpark] at h

/-- A thread with a notification is not asleep. -/
theorem Thread.not_asleep {th : Thread T} {w : Option Nat} (h : th.park = .notified w) :
    ¬th.Asleep := by
  unfold Thread.Asleep
  rw [h]
  split <;> simp [ParkState.parked]
  all_goals
    split <;> simp

section
variable [DecidableEq T]

/-- A call of `spawn` gives up on the parker of a thread that is about to park only
while the parker is in the list, or in the hands of another call. -/
def NotLost (s : State T K) : Event T K → Prop
  | .step t => ∀ i u, (s.threads t).pc = .spawnUnpark i u → (s.threads u).park = .empty →
      (s.threads u).pc.aboutToPark → u ∈ s.idle ∨ ∃ v, v ≠ t ∧ (s.threads v).pc.holds u
  | _ => True

/-- A call of `spawn` gives no worker to a parker that is in the list again. -/
def NotStale (s : State T K) : Event T K → Prop
  | .step t => ∀ i u isPolling, (s.threads t).pc = .spawnUnpark i u →
      (s.threads u).park = .parked isPolling → u ∉ s.idle
  | _ => True

/-- The steps the two conditions are about. -/
def Unparks (s : State T K) : Event T K → Bool
  | .step t =>
      match (s.threads t).pc with
      | .spawnUnpark _ _ => true
      | _ => false
  | _ => false

theorem conditions_of_not_unparks {s : State T K} {e : Event T K} (h : Unparks s e = false) :
    NotLost s e ∧ NotStale s e := by
  cases e with
  | step t =>
      constructor
      · intro i u hp
        simp [Unparks, hp] at h
      · intro i u isPolling hp
        simp [Unparks, hp] at h
  | _ => exact ⟨trivial, trivial⟩

/-- A call of `spawn` unparks a thread that is parked and no longer in the list. -/
theorem conditions_of_parked {s : State T K} {t u : T} {i : Nat} {isPolling : Bool}
    (hp : (s.threads t).pc = .spawnUnpark i u) (hPark : (s.threads u).park = .parked isPolling)
    (hIdle : u ∉ s.idle) : NotLost s (.step t) ∧ NotStale s (.step t) := by
  constructor
  · intro j v hv hEmpty
    obtain ⟨rfl, rfl⟩ : i = j ∧ u = v := by simpa [hp] using hv
    cases isPolling <;> simp [hPark, ParkState.parked] at hEmpty
  · intro j v other hv hParked
    obtain ⟨rfl, rfl⟩ : i = j ∧ u = v := by simpa [hp] using hv
    exact hIdle

/-- No parker is pushed once the pool has stopped. -/
def NotLate (s : State T K) : Event T K → Prop
  | .step t => (s.threads t).pc = .waitLock → (∀ w, (s.threads t).park ≠ .notified w) →
      s.running = true
  | _ => True

/-- Every thread's parker is as it should be at its line. -/
def Lines (s : State T K) : Prop := ∀ t, (s.threads t).pc.Ok (s.threads t).park

/-- It is enough to look at the thread that takes the step. -/
theorem Lines.update {s s' : State T K} {t : T} {th : Thread T} (lines : Lines s)
    (hThreads : s'.threads = Function.update s.threads t th) (hOk : th.pc.Ok th.park) :
    Lines s' := by
  intro u
  rw [hThreads, Function.update_apply]
  split
  · exact hOk
  · exact lines u

/-- A thread that moves on needs its parker to be right for the new line. -/
theorem Lines.goto {s s' : State T K} {t : T} {pc : Pc T} (lines : Lines s)
    (hThreads : s'.threads = Function.update s.threads t { s.threads t with pc := pc })
    (hOk : pc.Ok (s.threads t).park) : Lines s' :=
  lines.update hThreads hOk

/-- A notification that is found is taken, so the parker is empty afterwards. -/
theorem Lines.pollUnparked {s : State T K} {t : T} {some none otherwise : Pc T} (lines : Lines s)
    (hEmpty : some.Ok .empty ∧ none.Ok .empty)
    (hOtherwise : (∀ w, (s.threads t).park ≠ .notified w) → otherwise.Ok (s.threads t).park) :
    Lines (s.pollUnparked t some none otherwise) := by
  simp only [State.pollUnparked]
  split
  · exact lines.update rfl hEmpty.1
  · exact lines.update rfl hEmpty.2
  · next hSome hNone =>
      refine lines.goto rfl (hOtherwise fun w hPark => ?_)
      cases w with
      | none => exact hNone hPark
      | some i => exact hSome i hPark

/-- An `unpark` leaves a notification, and every line is prepared for one. -/
theorem Lines.unpark {s s' : State T K} {u : T} {workerIndex : Option Nat} (lines : Lines s)
    (h : s.unpark u workerIndex = some s') : Lines s' := by
  obtain ⟨park, hPark, rfl⟩ := unpark_eq h
  refine lines.update rfl ?_
  have hOk := lines u
  cases workerIndex with
  | none =>
      rw [unpark_none hPark]
      exact ok_notified hOk
  | some i =>
      obtain ⟨rfl, isPolling, hParked⟩ := unpark_some hPark
      rw [hParked] at hOk
      cases hp : (s.threads u).pc <;> cases isPolling <;> simp_all [Pc.Ok, ParkState.parked]

theorem Lines.step {maxThreads : Nat} {s s' : State T K} {t : T} (lines : Lines s)
    (h : step maxThreads s t = some s') : Lines s' := by
  have hOk := lines t
  cases hp : (s.threads t).pc <;> simp only [ThreadPool.step, hp, reduceCtorEq] at h <;>
    simp only [hp, Pc.Ok] at hOk
  case spawnUnpark i parker =>
    split at h
    · next s'' hUnpark =>
        obtain rfl := Option.some.inj h
        have lines'' := lines.unpark hUnpark
        have hPc := unpark_pc hUnpark t
        have hOk'' := lines'' t
        rw [hPc, hp] at hOk''
        exact lines''.goto rfl hOk''
    · obtain rfl := Option.some.inj h
      exact lines.goto rfl hOk
  case shutdownUnpark idle =>
    cases idle with
    | nil =>
        obtain rfl := Option.some.inj h
        exact lines.goto rfl hOk
    | cons parker idle =>
        obtain rfl := Option.some.inj h
        cases hUnpark : s.unpark parker none with
        | none => exact lines.goto rfl hOk
        | some s'' =>
            have lines'' := lines.unpark hUnpark
            have hPc := unpark_pc hUnpark t
            have hOk'' := lines'' t
            rw [hPc, hp] at hOk''
            exact lines''.goto rfl hOk''
  case waitFirst | waitThird =>
    obtain rfl := Option.some.inj h
    exact lines.pollUnparked ⟨Or.inl rfl, Or.inl rfl⟩ fun _ => hOk
  case waitUnwrap =>
    obtain rfl := Option.some.inj h
    refine lines.pollUnparked ⟨Or.inl rfl, Or.inl rfl⟩ fun hNot => ?_
    obtain ⟨w, hw⟩ := hOk
    exact (hNot w hw).elim
  case waitLock =>
    split at h
    · obtain rfl := Option.some.inj h
      exact lines.pollUnparked ⟨Or.inl rfl, Or.inl rfl⟩ fun _ => hOk
    · obtain rfl := Option.some.inj h
      exact lines.goto rfl hOk
  case createFailed i =>
    obtain rfl := Option.some.inj h
    unfold State.finish
    split
    · exact lines.update rfl hOk
    · exact lines.goto rfl hOk
  case waitPark isPolling =>
    split at h
    · obtain rfl := Option.some.inj h
      exact lines.update rfl (Or.inl rfl)
    · next hPark =>
        obtain rfl := Option.some.inj h
        exact lines.goto rfl ⟨_, hOk.resolve_left hPark⟩
  case waitEmpty isPolling =>
    split at h
    · obtain rfl := Option.some.inj h
      exact lines.update rfl (Or.inl rfl)
    · next hPark =>
        obtain rfl := Option.some.inj h
        exact lines.goto rfl (hOk.resolve_left hPark)
  case spawnLock i =>
    obtain rfl := Option.some.inj h
    split
    · exact lines.goto rfl hOk
    · split
      · exact lines.goto rfl hOk
      · repeat' split
        all_goals exact lines.goto rfl hOk
  case shutdownLock =>
    obtain rfl := Option.some.inj h
    split <;> exact lines.goto rfl hOk
  all_goals
    obtain rfl := Option.some.inj h
    refine lines.goto rfl ?_
    (repeat' split) <;> exact hOk

/-- How often the parker of a thread may be in the idle list. -/
def Thread.lists (th : Thread T) : Nat :=
  if th.pc.between ∧ th.given = false then 1 else 0

/-- A parker is in the list at most once, and only while its thread is in `wait`. -/
def Listed (s : State T K) : Prop := ∀ u, s.idle.count u ≤ (s.threads u).lists

/-- The list may grow by the parker of the thread itself, if that has come to be between
push and return. -/
theorem Listed.update {s s' : State T K} {t : T} {th : Thread T} (listed : Listed s)
    (hThreads : s'.threads = Function.update s.threads t th)
    (hSelf : s'.idle.count t ≤ th.lists)
    (hOthers : ∀ u, u ≠ t → s'.idle.count u ≤ s.idle.count u) : Listed s' := by
  intro u
  rw [hThreads, Function.update_apply]
  split
  · next hEq =>
      rw [hEq]
      exact hSelf
  · next hNe => exact Nat.le_trans (hOthers u hNe) (listed u)

/-- A step that leaves the list. -/
theorem Listed.keep {s s' : State T K} {t : T} {th : Thread T} (listed : Listed s)
    (hThreads : s'.threads = Function.update s.threads t th) (hIdle : s'.idle = s.idle)
    (hLists : (s.threads t).lists ≤ th.lists) : Listed s' :=
  listed.update hThreads (by rw [hIdle]; exact Nat.le_trans (listed t) hLists) fun u _ => by rw [hIdle]

/-- To poll the parker keeps the list right. After a notification without a worker the
thread goes on to remove its parker, and one with a worker has removed it before. -/
theorem Listed.pollUnparked {s : State T K} {t : T} {some none otherwise : Pc T}
    (listed : Listed s)
    (hNone : (s.threads t).pc.between → none.between = true)
    (hOtherwise : (∀ w, (s.threads t).park ≠ .notified w) → (s.threads t).pc.between →
      otherwise.between = true) :
    Listed (s.pollUnparked t some none otherwise) := by
  simp only [State.pollUnparked]
  split
  · next hPark => exact listed.keep rfl rfl (by simp [Thread.lists, Thread.given, hPark])
  · next hPark =>
      refine listed.keep rfl rfl ?_
      unfold Thread.lists
      split
      · next hOld => simp [Thread.given, hNone hOld.1]
      · exact Nat.zero_le _
  · next hSome hNotified =>
      refine listed.keep rfl rfl ?_
      unfold Thread.lists
      split
      · next hOld =>
          have hNot : ∀ w, (s.threads t).park ≠ .notified w := by
            intro w hPark
            cases w with
            | none => exact hNotified hPark
            | some i => exact hSome i hPark
          rw [if_pos ⟨hOtherwise hNot hOld.1, hOld.2⟩]
      · exact Nat.zero_le _

/-- A parker that is notified without a worker may stay in the list. -/
theorem Listed.unpark_none {s s' : State T K} {u : T} (listed : Listed s)
    (h : s.unpark u none = some s') : Listed s' := by
  obtain ⟨park, hPark, rfl⟩ := unpark_eq h
  refine listed.keep rfl rfl ?_
  rw [ThreadPool.unpark_none hPark]
  unfold Thread.lists
  split
  · next hBetween => simp [Thread.given, hBetween.1]
  · exact Nat.zero_le _

/-- With a worker it must not be there, which is the second condition. -/
theorem Listed.unpark_some {s s' : State T K} {u : T} {i : Nat} (listed : Listed s)
    (hStale : ∀ isPolling, (s.threads u).park = .parked isPolling → u ∉ s.idle)
    (h : s.unpark u (some i) = some s') : Listed s' := by
  obtain ⟨park, hPark, rfl⟩ := unpark_eq h
  obtain ⟨rfl, isPolling, hParked⟩ := ThreadPool.unpark_some hPark
  refine listed.update rfl ?_ fun v _ => le_rfl
  have hNot : s.idle.count u = 0 := List.count_eq_zero.mpr (hStale isPolling hParked)
  change s.idle.count u ≤ _
  omega

/-- A step keeps the list right, if no worker is given to a parker that is in the list
again. -/
theorem Listed.step {maxThreads : Nat} {s s' : State T K} {t : T} (listed : Listed s)
    (lines : Lines s) (hStale : NotStale s (.step t)) (h : step maxThreads s t = some s') :
    Listed s' := by
  have hKeep : ∀ (s' : State T K) (pc : Pc T), s'.threads =
      Function.update s.threads t { s.threads t with pc := pc } → s'.idle = s.idle →
      ((s.threads t).pc.between → pc.between = true) → Listed s' := by
    intro s' pc hThreads hIdle hBetween
    refine listed.keep hThreads hIdle ?_
    unfold Thread.lists
    split
    · next hOld => rw [if_pos ⟨hBetween hOld.1, hOld.2⟩]
    · exact Nat.zero_le _
  cases hp : (s.threads t).pc <;> simp only [ThreadPool.step, hp, reduceCtorEq] at h
  case spawnUnpark i parker =>
    split at h
    · next s'' hUnpark =>
        obtain rfl := Option.some.inj h
        have listed'' := listed.unpark_some (fun isPolling => hStale i parker isPolling hp) hUnpark
        refine listed''.keep rfl rfl ?_
        have hPc := unpark_pc hUnpark t
        simp [Thread.lists, hPc, hp, Pc.between]
    · obtain rfl := Option.some.inj h
      exact hKeep _ _ rfl rfl (by simp [hp, Pc.between])
  case shutdownUnpark idle =>
    cases idle with
    | nil =>
        obtain rfl := Option.some.inj h
        exact hKeep _ _ rfl rfl (by simp [hp, Pc.between])
    | cons parker idle =>
        obtain rfl := Option.some.inj h
        cases hUnpark : s.unpark parker none with
        | none => exact hKeep _ _ rfl rfl (by simp [hp, Pc.between])
        | some s'' =>
            refine (listed.unpark_none hUnpark).keep rfl rfl ?_
            have hPc := unpark_pc hUnpark t
            simp [Thread.lists, hPc, hp, Pc.between]
  case waitFirst | waitThird =>
    obtain rfl := Option.some.inj h
    exact listed.pollUnparked (by simp [hp, Pc.between]) (by simp [hp, Pc.between])
  case waitUnwrap =>
    obtain rfl := Option.some.inj h
    refine listed.pollUnparked (fun _ => rfl) fun hNot _ => ?_
    have hOk := lines t
    rw [hp] at hOk
    obtain ⟨w, hw⟩ := hOk
    exact (hNot w hw).elim
  case waitLock =>
    split at h
    · obtain rfl := Option.some.inj h
      exact listed.pollUnparked (by simp [hp, Pc.between]) (by simp [hp, Pc.between])
    · next hNot =>
        obtain rfl := Option.some.inj h
        have hNone : s.idle.count t ≤ 0 := by simpa [Thread.lists, hp, Pc.between] using listed t
        have hOk := lines t
        rw [hp] at hOk
        have hGiven : (s.threads t).given = false := by
          rcases hOk with hPark | hPark <;> simp [Thread.given, hPark]
        refine listed.update rfl ?_ fun u hNe => ?_
        · have hGiven' : Thread.given { s.threads t with pc := (.waitThird : Pc T) } = false := hGiven
          simp only [State.goto, State.setThread, List.count_append, List.count_singleton_self,
            Thread.lists, hGiven', Pc.between, and_self, if_true]
          omega
        · simp [State.goto, State.setThread, List.count_append, Ne.symm hNe]
  case waitRemove =>
    obtain rfl := Option.some.inj h
    have hOne : s.idle.count t ≤ 1 := by
      have hLists := listed t
      unfold Thread.lists at hLists
      split at hLists <;> omega
    split
    · next hMem =>
        refine listed.update rfl ?_ fun u _ => ?_
        · have hCount := count_swapRemove_idxOf hMem t
          simp only [if_true] at hCount
          change (swapRemove s.idle (s.idle.idxOf t)).count t ≤ _
          omega
        · have hCount := count_swapRemove_idxOf hMem u
          change (swapRemove s.idle (s.idle.idxOf t)).count u ≤ _
          omega
    · next hMem =>
        refine listed.update rfl ?_ fun u _ => le_rfl
        change s.idle.count t ≤ _
        rw [List.count_eq_zero.mpr hMem]
        exact Nat.zero_le _
  case spawnLock i =>
    obtain rfl := Option.some.inj h
    have hNone : s.idle.count t ≤ 0 := by simpa [Thread.lists, hp, Pc.between] using listed t
    split
    · exact hKeep _ _ rfl rfl (by simp [hp, Pc.between])
    · split
      · next parker rest hIdle =>
          have hCount := count_swapRemove_cons parker rest
          refine listed.update rfl ?_ fun u _ => ?_
          · change (swapRemove s.idle 0).count t ≤ _
            have hSelf := hCount t
            rw [hIdle] at hNone ⊢
            omega
          · change (swapRemove s.idle 0).count u ≤ s.idle.count u
            have hOther := hCount u
            rw [hIdle]
            omega
      · repeat' split
        all_goals exact hKeep _ _ rfl rfl (by simp [hp, Pc.between])
  case shutdownLock =>
    obtain rfl := Option.some.inj h
    split
    · exact listed.update rfl (Nat.zero_le _) fun u _ => Nat.zero_le _
    · exact hKeep _ _ rfl rfl (by simp [hp, Pc.between])
  case createFailed i =>
    obtain rfl := Option.some.inj h
    unfold State.finish
    split <;> exact hKeep _ _ rfl rfl (by simp [hp, Pc.between])
  case waitPark isPolling =>
    split at h
    · next hPark =>
        obtain rfl := Option.some.inj h
        refine listed.keep rfl rfl ?_
        cases isPolling <;> simp [Thread.lists, Thread.given, Pc.between, hp, hPark, ParkState.parked]
    · obtain rfl := Option.some.inj h
      exact hKeep _ _ rfl rfl (by simp [hp, Pc.between])
  case waitEmpty isPolling =>
    split at h
    · next hPark =>
        obtain rfl := Option.some.inj h
        refine listed.keep rfl rfl ?_
        cases isPolling <;> simp [Thread.lists, Thread.given, Pc.between, hp, hPark, ParkState.parked]
    · obtain rfl := Option.some.inj h
      exact hKeep _ _ rfl rfl (by simp [hp, Pc.between])
  all_goals
    obtain rfl := Option.some.inj h
    exact hKeep _ _ rfl rfl (by simp [hp, Pc.between])

/-- A call of `spawn` or `shutdown` has the parker in its hands. -/
def Reached (s : State T K) (u : T) : Prop := ∃ v, (s.threads v).pc.holds u

/-- The parker of a thread asleep can be found. -/
def Found (s : State T K) : Prop := ∀ u, (s.threads u).Asleep → u ∈ s.idle ∨ Reached s u

/-- A thread asleep can still be found if its parker stays in the list or goes to the
hands of a call. -/
theorem Found.update {s s' : State T K} {t : T} {th : Thread T} (found : Found s)
    (hThreads : s'.threads = Function.update s.threads t th)
    (hList : ∀ u, u ∈ s.idle → u ∈ s'.idle ∨ th.pc.holds u ∨ u = t ∧ ¬th.Asleep)
    (hHolds : ∀ u, (s.threads t).pc.holds u → th.pc.holds u)
    (hSelf : th.Asleep → t ∈ s'.idle ∨ (s.threads t).Asleep) : Found s' := by
  have hHere : ∀ u, th.pc.holds u → Reached s' u := fun u h =>
    ⟨t, by rw [hThreads, Function.update_self]; exact h⟩
  have hReached : ∀ u, Reached s u → Reached s' u := by
    rintro u ⟨v, hv⟩
    by_cases hEq : v = t
    · exact hHere u (hHolds u (hEq ▸ hv))
    · exact ⟨v, by rw [hThreads, Function.update_of_ne hEq]; exact hv⟩
  have hFound : ∀ u, (u = t → th.Asleep) → u ∈ s.idle ∨ Reached s u → u ∈ s'.idle ∨ Reached s' u := by
    rintro u hAsleep (hMem | hOld)
    · rcases hList u hMem with hIn | hHand | ⟨hEq, hNot⟩
      · exact Or.inl hIn
      · exact Or.inr (hHere u hHand)
      · exact (hNot (hAsleep hEq)).elim
    · exact Or.inr (hReached u hOld)
  intro u hAsleep
  rw [hThreads, Function.update_apply] at hAsleep
  split at hAsleep
  · next hEq =>
      subst hEq
      rcases hSelf hAsleep with hIn | hOld
      · exact Or.inl hIn
      · exact hFound u (fun _ => hAsleep) (found u hOld)
  · next hNe => exact hFound u (fun hEq => (hNe hEq).elim) (found u hAsleep)

/-- A step that leaves the list and takes nothing out of its thread's hands. -/
theorem Found.keep {s s' : State T K} {t : T} {th : Thread T} (found : Found s)
    (hThreads : s'.threads = Function.update s.threads t th) (hIdle : s'.idle = s.idle)
    (hHolds : ∀ u, (s.threads t).pc.holds u → th.pc.holds u)
    (hSelf : th.Asleep → (s.threads t).Asleep) : Found s' :=
  found.update hThreads (fun _ hMem => Or.inl (hIdle ▸ hMem)) hHolds fun h => Or.inr (hSelf h)

/-- A thread whose parker has been polled is awake, or was asleep before. -/
theorem Found.pollUnparked {s : State T K} {t : T} {some none otherwise : Pc T} (found : Found s)
    (hHolds : ∀ u, (s.threads t).pc.holds u = false)
    (hEnds : ∀ park, ¬Thread.Asleep ⟨some, park, (s.threads t).pooled⟩ ∧
      ¬Thread.Asleep ⟨none, park, (s.threads t).pooled⟩)
    (hOtherwise : (∀ w, (s.threads t).park ≠ .notified w) →
      Thread.Asleep { s.threads t with pc := otherwise } → (s.threads t).Asleep) :
    Found (s.pollUnparked t some none otherwise) := by
  simp only [State.pollUnparked]
  split
  · exact found.keep rfl rfl (by simp [hHolds]) fun h => ((hEnds _).1 h).elim
  · exact found.keep rfl rfl (by simp [hHolds]) fun h => ((hEnds _).2 h).elim
  · next hSome hNotified =>
      refine found.keep rfl rfl (by simp [hHolds]) (hOtherwise fun w hPark => ?_)
      cases w with
      | none => exact hNotified hPark
      | some i => exact hSome i hPark

/-- A thread that has been unparked is not asleep, whoever had its parker. -/
theorem Found.unparked {s s' : State T K} {t u : T} (found : Found s)
    (hSame : ∀ v, v ≠ u → v ≠ t → s'.threads v = s.threads v)
    (hPc : ∀ v, v ≠ t → (s'.threads v).pc = (s.threads v).pc)
    (hHolds : ∀ v, v ≠ u → (s.threads t).pc.holds v → (s'.threads t).pc.holds v)
    (hAwake : ¬(s'.threads u).Asleep) (hSelf : ¬(s'.threads t).Asleep) (hIdle : s'.idle = s.idle) :
    Found s' := by
  intro v hv
  have hOther : v ≠ u := by
    rintro rfl
    exact hAwake hv
  have hNe : v ≠ t := by
    rintro rfl
    exact hSelf hv
  rw [hSame v hOther hNe] at hv
  rw [hIdle]
  refine (found v hv).imp id ?_
  rintro ⟨x, hx⟩
  by_cases hEq : x = t
  · exact ⟨t, hHolds v hOther (hEq ▸ hx)⟩
  · exact ⟨x, by rw [hPc x hEq]; exact hx⟩

/-- `spawn` wakes the thread whose parker it popped. -/
theorem Found.unpark_some {s s' : State T K} {t parker : T} {i : Nat} {next : Pc T}
    (found : Found s) (hNe : parker ≠ t) (hUnpark : s.unpark parker (some i) = some s')
    (hHolds : ∀ v, (s.threads t).pc.holds v → v = parker)
    (hSelf : ¬Thread.Asleep { s'.threads t with pc := next }) : Found (s'.goto t next) := by
  have hPc := unpark_pc hUnpark
  obtain ⟨park, hPark, rfl⟩ := unpark_eq hUnpark
  obtain ⟨rfl, -, -⟩ := ThreadPool.unpark_some hPark
  refine found.unparked (u := parker) (t := t) (fun v hv hvt => ?_) (fun v hvt => ?_)
    (fun v hv hHeld => (hv (hHolds v hHeld)).elim) ?_ ?_ rfl
  · rw [goto_of_ne _ _ hvt, setThread_of_ne _ _ hv]
  · rw [goto_of_ne _ _ hvt, hPc]
  · rw [goto_of_ne _ _ hNe, setThread_self]
    exact Thread.not_asleep rfl
  · rw [goto_self]
    exact hSelf

/-- `spawn` lets go of a parker that refused to be unparked: its thread is awake,
or about to park with its parker in the list or in another thread's hands. -/
theorem Found.unpark_refused {s : State T K} {t parker : T} {i : Nat} (found : Found s)
    (hp : (s.threads t).pc = .spawnUnpark i parker) (hLost : NotLost s (.step t))
    (hUnpark : s.unpark parker (some i) = none) : Found (s.goto t (.spawnLoad i)) := by
  have hRefused := ThreadPool.unpark_refused (Option.map_eq_none_iff.mp hUnpark)
  intro v hv
  have hNe : v ≠ t := by
    rintro rfl
    simp [Thread.Asleep] at hv
  rw [goto_of_ne _ _ hNe] at hv
  have hOther : ∀ x, x ≠ t → (s.threads x).pc.holds v → Reached (s.goto t (.spawnLoad i)) v :=
    fun x hx hHolds => ⟨x, by rw [goto_of_ne _ _ hx]; exact hHolds⟩
  by_cases hEq : v = parker
  · subst hEq
    rcases hRefused with ⟨w, hPark⟩ | ⟨hPark, -⟩
    · exact (Thread.not_asleep hPark hv).elim
    · have hAbout : (s.threads v).pc.aboutToPark := by
        unfold Thread.Asleep at hv
        cases hq : (s.threads v).pc <;> simp only [hq, hPark] at hv
        case parked isPolling | waitEmpty isPolling =>
          cases isPolling <;> simp [ParkState.parked] at hv
        all_goals rfl
      refine (hLost i v hp hPark hAbout).imp id ?_
      rintro ⟨x, hx, hHolds⟩
      exact hOther x hx hHolds
  · refine (found v hv).imp id ?_
    rintro ⟨x, hx⟩
    refine hOther x ?_ hx
    rintro rfl
    simp [hp, Pc.holds, Ne.symm hEq] at hx

/-- `shutdown` notifies the next parker it took, or finds it notified already. -/
theorem Found.shutdownUnpark {s : State T K} {t parker : T} {idle : List T} (found : Found s)
    (hp : (s.threads t).pc = .shutdownUnpark (parker :: idle)) :
    Found (((s.unpark parker none).getD s).goto t (.shutdownUnpark idle)) := by
  have hHolds : ∀ v, v ≠ parker → (s.threads t).pc.holds v →
      (Pc.shutdownUnpark idle).holds v := by
    intro v hv hHeld
    simpa [hp, Pc.holds, hv] using hHeld
  have hAwake : ∀ s' : State T K, (∃ w, (s'.threads parker).park = .notified w) →
      ¬((s'.goto t (.shutdownUnpark idle)).threads parker).Asleep := by
    rintro s' ⟨w, hPark⟩
    by_cases hEq : parker = t
    · rw [hEq, goto_self]
      simp [Thread.Asleep]
    · rw [goto_of_ne _ _ hEq]
      exact Thread.not_asleep hPark
  cases hUnpark : s.unpark parker none with
  | none =>
      have hNotified : ∃ w, (s.threads parker).park = .notified w := by
        rcases ThreadPool.unpark_refused (Option.map_eq_none_iff.mp hUnpark) with hPark | ⟨-, hSome⟩
        · exact hPark
        · simp at hSome
      rw [Option.getD_none]
      refine found.unparked (u := parker) (t := t) (fun v hv hvt => ?_) (fun v hvt => ?_)
        (fun v hv hHeld => ?_) (hAwake s hNotified) (by simp [Thread.Asleep]) rfl
      · rw [goto_of_ne _ _ hvt]
      · rw [goto_of_ne _ _ hvt]
      · rw [goto_self]
        exact hHolds v hv hHeld
  | some s'' =>
      have hPc := unpark_pc hUnpark
      obtain ⟨park, hPark, rfl⟩ := unpark_eq hUnpark
      obtain rfl := ThreadPool.unpark_none hPark
      rw [Option.getD_some]
      refine found.unparked (u := parker) (t := t) (fun v hv hvt => ?_) (fun v hvt => ?_)
        (fun v hv hHeld => ?_) (hAwake _ ⟨none, by rw [setThread_self]⟩)
        (by simp [Thread.Asleep]) rfl
      · rw [goto_of_ne _ _ hvt, setThread_of_ne _ _ hv]
      · rw [goto_of_ne _ _ hvt, hPc]
      · rw [goto_self]
        exact hHolds v hv hHeld

/-- `spawn` pops the first parker of the list into its hands. -/
theorem Found.pop {s s' : State T K} {t parker : T} {rest : List T} {i : Nat} (found : Found s)
    (hIdle : s.idle = parker :: rest) (hHolds : ∀ u, (s.threads t).pc.holds u = false)
    (hThreads : s'.threads = Function.update s.threads t
      { s.threads t with pc := .spawnUnpark i parker })
    (hIdle' : s'.idle = swapRemove s.idle 0) : Found s' := by
  refine found.update hThreads (fun u hMem => ?_) (by simp [hHolds]) (by simp [Thread.Asleep])
  by_cases hEq : parker = u
  · exact Or.inr (Or.inl (by simp [Pc.holds, hEq]))
  · refine Or.inl ?_
    have hCount := count_swapRemove_cons parker rest u
    rw [if_neg hEq, Nat.add_zero] at hCount
    rw [hIdle', hIdle]
    rw [hIdle] at hMem
    exact List.count_pos_iff.mp (by rw [hCount]; exact List.count_pos_iff.mpr hMem)

/-- A woken thread takes its own parker out of the list and leaves the others. -/
theorem mem_remove {idle : List T} {t u : T} (hNe : u ≠ t) (hMem : u ∈ idle) :
    u ∈ if t ∈ idle then swapRemove idle (idle.idxOf t) else idle := by
  split
  · next hIn =>
      have hCount := count_swapRemove_idxOf hIn u
      rw [if_neg (Ne.symm hNe), Nat.add_zero] at hCount
      exact List.count_pos_iff.mp (by rw [hCount]; exact List.count_pos_iff.mpr hMem)
  · exact hMem

/-- A step keeps every thread asleep in reach. A parker leaves the list for the hands of
a call, and that call unparks it. It gives up only where the first condition allows it. -/
theorem Found.step {maxThreads : Nat} {s s' : State T K} {t : T} (found : Found s)
    (lines : Lines s) (hLost : NotLost s (.step t)) (h : step maxThreads s t = some s') :
    Found s' := by
  have hOk := lines t
  have hKeep : ∀ (s' : State T K) (pc : Pc T), s'.threads =
      Function.update s.threads t { s.threads t with pc := pc } → s'.idle = s.idle →
      (∀ u, (s.threads t).pc.holds u = false) →
      (Thread.Asleep { s.threads t with pc := pc } → (s.threads t).Asleep) → Found s' :=
    fun s' pc hThreads hIdle hHolds hSelf =>
      found.keep hThreads hIdle (fun u hu => by simp [hHolds u] at hu) hSelf
  cases hp : (s.threads t).pc <;> simp only [ThreadPool.step, hp, reduceCtorEq] at h <;>
    simp only [hp, Pc.Ok] at hOk
  case spawnUnpark i parker =>
    split at h
    · next s'' hUnpark =>
        obtain rfl := Option.some.inj h
        obtain ⟨park, hPark, -⟩ := unpark_eq hUnpark
        obtain ⟨-, isPolling, hParked⟩ := ThreadPool.unpark_some hPark
        have hNe : parker ≠ t := by
          rintro rfl
          rw [hParked] at hOk
          cases isPolling <;> simp [ParkState.parked] at hOk
        refine found.unpark_some hNe hUnpark (fun v hHolds => ?_) (by simp [Thread.Asleep])
        simpa [hp, Pc.holds, eq_comm] using hHolds
    · next hUnpark =>
        obtain rfl := Option.some.inj h
        exact found.unpark_refused hp hLost hUnpark
  case shutdownUnpark idle =>
    cases idle with
    | nil =>
        obtain rfl := Option.some.inj h
        exact hKeep _ _ rfl rfl (by simp [hp, Pc.holds]) (by simp [Thread.Asleep])
    | cons parker idle =>
        obtain rfl := Option.some.inj h
        exact found.shutdownUnpark hp
  case waitFirst =>
    obtain rfl := Option.some.inj h
    exact found.pollUnparked (by simp [hp, Pc.holds]) (by simp [Thread.Asleep])
      (by simp [Thread.Asleep])
  case waitThird =>
    obtain rfl := Option.some.inj h
    exact found.pollUnparked (by simp [hp, Pc.holds]) (by simp [Thread.Asleep])
      (by simp [Thread.Asleep, hp])
  case waitUnwrap =>
    obtain rfl := Option.some.inj h
    exact found.pollUnparked (by simp [hp, Pc.holds]) (by simp [Thread.Asleep])
      (by simp [Thread.Asleep])
  case waitLock =>
    split at h
    · next w hPark =>
        obtain rfl := Option.some.inj h
        exact found.pollUnparked (by simp [hp, Pc.holds]) (by simp [Thread.Asleep])
          fun hNot => (hNot w hPark).elim
    · obtain rfl := Option.some.inj h
      refine found.update rfl (fun u hMem => Or.inl ?_) (by simp [hp, Pc.holds]) fun _ => Or.inl ?_
      · exact List.mem_append_left _ hMem
      · simp [State.goto, State.setThread]
  case waitRemove =>
    obtain rfl := Option.some.inj h
    refine found.update rfl (fun u hMem => ?_) (by simp [hp, Pc.holds]) (by simp [Thread.Asleep])
    by_cases hEq : u = t
    · exact Or.inr (Or.inr ⟨hEq, by simp [Thread.Asleep]⟩)
    · exact Or.inl (mem_remove hEq hMem)
  case spawnLock i =>
    obtain rfl := Option.some.inj h
    split
    · exact hKeep _ _ rfl rfl (by simp [hp, Pc.holds]) (by simp [Thread.Asleep])
    · split
      · next parker rest hIdle => exact found.pop hIdle (by simp [hp, Pc.holds]) rfl rfl
      · repeat' split
        all_goals exact hKeep _ _ rfl rfl (by simp [hp, Pc.holds]) (by simp [Thread.Asleep])
  case shutdownLock =>
    obtain rfl := Option.some.inj h
    split
    · refine found.update rfl (fun u hMem => Or.inr (Or.inl ?_)) (by simp [hp, Pc.holds])
        (by simp [Thread.Asleep])
      simpa [Pc.holds] using hMem
    · exact hKeep _ _ rfl rfl (by simp [hp, Pc.holds]) (by simp [Thread.Asleep])
  case createFailed i =>
    obtain rfl := Option.some.inj h
    unfold State.finish
    split <;> exact hKeep _ _ rfl rfl (by simp [hp, Pc.holds]) (by simp [Thread.Asleep])
  case waitPark isPolling =>
    split at h
    · next hPark =>
        obtain rfl := Option.some.inj h
        exact found.keep rfl rfl (by simp [hp, Pc.holds]) (by simp [Thread.Asleep, hp, hPark])
    · obtain rfl := Option.some.inj h
      exact hKeep _ _ rfl rfl (by simp [hp, Pc.holds]) (by simp [Thread.Asleep])
  case waitEmpty isPolling =>
    split at h
    · obtain rfl := Option.some.inj h
      exact found.keep rfl rfl (by simp [hp, Pc.holds]) (by simp [Thread.Asleep])
    · obtain rfl := Option.some.inj h
      exact hKeep _ _ rfl rfl (by simp [hp, Pc.holds]) (by simp [Thread.Asleep])
  all_goals
    obtain rfl := Option.some.inj h
    refine hKeep _ _ rfl rfl (by simp [hp, Pc.holds]) ?_
    (repeat' split) <;> simp [Thread.Asleep]

variable [DecidableEq K]

/-- Every event keeps the parkers right for their lines. Those of other kinds begin a
call or return from one. -/
theorem Lines.next {maxThreads : Nat} {s s' : State T K} {e : Event T K} (lines : Lines s)
    (h : next maxThreads s e = some s') : Lines s' := by
  cases e <;> simp only [ThreadPool.next] at h
  case step t => exact lines.step h
  case spawn t workerIndex | wait t | shutdown t =>
    obtain ⟨hOutside, rfl⟩ := call_eq h
    have hOk := lines t
    rw [hOutside] at hOk
    exact lines.goto rfl hOk
  case taskBegin t job | taskComplete t job =>
    split at h
    · obtain ⟨hOutside, rfl⟩ := call_eq h
      have hOk := lines t
      change (s.threads t).pc = .outside at hOutside
      rw [hOutside] at hOk
      exact lines.goto rfl hOk
    · simp at h
  case finish t =>
    split at h
    · next hPooled =>
        obtain rfl := Option.some.inj h
        have hOk := lines t
        unfold State.finish
        split
        · exact lines.update rfl hOk
        · rw [hPooled.2] at hOk
          exact lines.goto rfl hOk
    · simp at h
  case poll t isPolling =>
    split at h
    · next hp =>
        obtain rfl := Option.some.inj h
        have hOk := lines t
        rw [hp] at hOk
        exact lines.goto rfl hOk
    · simp at h
  case wakeUp t | error t =>
    split at h
    · next hp =>
        obtain rfl := Option.some.inj h
        have hOk := lines t
        rw [hp] at hOk
        exact lines.goto rfl hOk
    · simp at h
  case start t u =>
    split at h
    · next hp =>
        split at h
        · next hOther =>
            obtain rfl := Option.some.inj h
            have started : Lines (s.setThread u { s.threads u with pooled := true }) :=
              lines.update rfl (lines u)
            have hNe : t ≠ u := by
              rintro rfl
              simp [hp] at hOther
            have hOk := lines t
            rw [hp] at hOk
            refine started.goto rfl ?_
            rw [setThread_of_ne _ _ hNe]
            exact hOk
        · simp at h
    · simp at h
  case wake t => exact lines.unpark h

/-- Nothing has happened to the list, nor to a thread that is in it or has a parker
in its hands. -/
structure Quiet (s s' : State T K) : Prop where
  idle : s'.idle = s.idle
  running : s'.running = s.running
  lists : ∀ u, (s.threads u).lists ≤ (s'.threads u).lists
  asleep : ∀ u, (s'.threads u).Asleep → (s.threads u).Asleep
  holds : ∀ u v, (s.threads u).pc.holds v → (s'.threads u).pc.holds v
  unparks : ∀ u idle, (s'.threads u).pc = .shutdownUnpark idle →
    (s.threads u).pc = .shutdownUnpark idle
  between : ∀ u, (s'.threads u).pc.between → (s.threads u).pc.between

omit [DecidableEq K] in
/-- A step that replaces one thread and leaves the list alone is quiet, if that thread
is accounted for as before. -/
theorem Quiet.of {s s' : State T K} {t : T} {th : Thread T}
    (hThreads : s'.threads = Function.update s.threads t th) (hIdle : s'.idle = s.idle)
    (hRunning : s'.running = s.running) (hLists : (s.threads t).lists ≤ th.lists)
    (hAsleep : th.Asleep → (s.threads t).Asleep)
    (hHolds : ∀ v, (s.threads t).pc.holds v → th.pc.holds v)
    (hUnparks : ∀ idle, th.pc = .shutdownUnpark idle → (s.threads t).pc = .shutdownUnpark idle)
    (hBetween : th.pc.between → (s.threads t).pc.between) : Quiet s s' := by
  refine ⟨hIdle, hRunning, fun u => ?_, fun u => ?_, fun u => ?_, fun u => ?_, fun u => ?_⟩ <;>
    rw [hThreads, Function.update_apply] <;> split
  · next hEq => rw [hEq]; exact hLists
  · exact Nat.le_refl _
  · next hEq => rw [hEq]; exact hAsleep
  · exact id
  · next hEq => rw [hEq]; exact hHolds
  · exact fun _ => id
  · next hEq => rw [hEq]; exact hUnparks
  · exact fun _ => id
  · next hEq => rw [hEq]; exact hBetween
  · exact id

omit [DecidableEq K] in
/-- A thread that is not in `wait` and has no parker in its hands. -/
theorem Quiet.free {s s' : State T K} {t : T} {th : Thread T}
    (hThreads : s'.threads = Function.update s.threads t th) (hIdle : s'.idle = s.idle)
    (hRunning : s'.running = s.running) (hOld : (s.threads t).pc.between = false)
    (hHolds : ∀ v, (s.threads t).pc.holds v = false) (hNew : th.pc.between = false)
    (hUnparks : ∀ idle, th.pc ≠ .shutdownUnpark idle) : Quiet s s' := by
  refine .of hThreads hIdle hRunning ?_ (fun hAsleep => ?_) (fun v hv => ?_)
    (fun idle h => (hUnparks idle h).elim) fun h => ?_
  · simp [Thread.lists, hOld]
  · unfold Thread.Asleep at hAsleep
    cases hp : th.pc <;> simp [hp, Pc.between] at hAsleep hNew
  · simp [hHolds v] at hv
  · simp [hNew] at h

/-- All events but the steps inside a call are quiet. -/
theorem quiet_next {maxThreads : Nat} {s s' : State T K} {e : Event T K}
    (hStep : ∀ t, e ≠ .step t) (h : next maxThreads s e = some s') : Quiet s s' := by
  cases e <;> simp only [ThreadPool.next] at h
  case step t => exact (hStep t rfl).elim
  case spawn t workerIndex | wait t | shutdown t =>
    obtain ⟨hOutside, rfl⟩ := call_eq h
    exact .free rfl rfl rfl (by rw [hOutside]; rfl) (by simp [hOutside, Pc.holds]) rfl (by simp)
  case taskBegin t job | taskComplete t job =>
    split at h
    · obtain ⟨hOutside, rfl⟩ := call_eq h
      change (s.threads t).pc = .outside at hOutside
      exact .free rfl rfl rfl (by rw [hOutside]; rfl) (by simp [hOutside, Pc.holds]) rfl (by simp)
    · simp at h
  case finish t =>
    split at h
    · next hPooled =>
        obtain rfl := Option.some.inj h
        unfold State.finish
        split
        · exact .free rfl rfl rfl (by rw [hPooled.2]; rfl) (by simp [hPooled.2, Pc.holds])
            (by simp [hPooled.2, Pc.between]) (by simp [hPooled.2])
        · exact .free rfl rfl rfl (by rw [hPooled.2]; rfl) (by simp [hPooled.2, Pc.holds]) rfl
            (by simp)
    · simp at h
  case poll t isPolling =>
    split at h
    · next hp =>
        obtain rfl := Option.some.inj h
        exact .of rfl rfl rfl (by simp [Thread.lists, Thread.given, hp, Pc.between])
          (by simp [Thread.Asleep, hp]) (by simp [hp, Pc.holds]) (by simp) (by simp [hp, Pc.between])
    · simp at h
  case wakeUp t =>
    split at h
    · next hp =>
        obtain rfl := Option.some.inj h
        exact .of rfl rfl rfl (by simp [Thread.lists, Thread.given, hp, Pc.between])
          (by simp [Thread.Asleep, hp]) (by simp [hp, Pc.holds]) (by simp) (by simp [hp, Pc.between])
    · simp at h
  case error t =>
    split at h
    · next hp =>
        obtain rfl := Option.some.inj h
        exact .free rfl rfl rfl (by rw [hp]; rfl) (by simp [hp, Pc.holds]) rfl (by simp)
    · simp at h
  case start t u =>
    split at h
    · next i hp =>
        split at h
        · next hOther =>
            obtain rfl := Option.some.inj h
            have hNe : t ≠ u := by
              rintro rfl
              simp [hp] at hOther
            have started : Quiet s (s.setThread u { s.threads u with pooled := true }) :=
              .free rfl rfl rfl (by rw [hOther.1]; rfl) (by simp [hOther.1, Pc.holds])
                (by simp [hOther.1, Pc.between]) (by simp [hOther.1])
            have hOld : (s.setThread u { s.threads u with pooled := true }).threads t =
                s.threads t := setThread_of_ne _ _ hNe
            have called : Quiet (s.setThread u { s.threads u with pooled := true })
                ((s.setThread u { s.threads u with pooled := true }).goto t (.spawned i true)) :=
              .free rfl rfl rfl (by rw [hOld, hp]; rfl) (by simp [hOld, hp, Pc.holds]) rfl (by simp)
            exact ⟨called.idle.trans started.idle, called.running.trans started.running,
              fun v => Nat.le_trans (started.lists v) (called.lists v),
              fun v hv => started.asleep v (called.asleep v hv),
              fun v w hv => called.holds v w (started.holds v w hv),
              fun v idle hv => started.unparks v idle (called.unparks v idle hv),
              fun v hv => started.between v (called.between v hv)⟩
        · simp at h
    · simp at h
  case wake t =>
    obtain ⟨park, hPark, rfl⟩ := unpark_eq h
    obtain rfl := unpark_none hPark
    refine .of rfl rfl rfl ?_ (fun hAsleep => (Thread.not_asleep rfl hAsleep).elim)
      (fun _ => id) (fun _ => id) id
    unfold Thread.lists
    split
    · next hOld => simp [Thread.given, hOld.1]
    · exact Nat.zero_le _

omit [DecidableEq K] in
theorem Listed.quiet {s s' : State T K} (listed : Listed s) (quiet : Quiet s s') : Listed s' := by
  intro u
  rw [quiet.idle]
  exact Nat.le_trans (listed u) (quiet.lists u)

omit [DecidableEq K] in
theorem Found.quiet {s s' : State T K} (found : Found s) (quiet : Quiet s s') : Found s' := by
  intro u hu
  rw [quiet.idle]
  refine (found u (quiet.asleep u hu)).imp id ?_
  rintro ⟨v, hv⟩
  exact ⟨v, quiet.holds v u hv⟩

/-- Only a pool that has stopped is being shut down. -/
def Stopped (s : State T K) : Prop :=
  ∀ t idle, (s.threads t).pc = .shutdownUnpark idle → s.running = false

omit [DecidableEq K] in
/-- A thread goes on to unpark the list only after it has found the pool running and has
stopped it. -/
theorem Stopped.step {maxThreads : Nat} {s s' : State T K} {t : T} (stopped : Stopped s)
    (h : step maxThreads s t = some s') : Stopped s' := by
  intro u idle hu
  by_cases hLock : (s.threads t).pc = .shutdownLock ∧ s.running = true
  · simp only [ThreadPool.step, hLock.1, hLock.2, if_true] at h
    obtain rfl := Option.some.inj h
    rfl
  · have hFree : (s.threads t).pc ≠ .shutdownLock ∨ s.running = false := by
      by_cases hp : (s.threads t).pc = .shutdownLock
      · exact Or.inr (by simpa [hp] using hLock)
      · exact Or.inl hp
    have frame := frame_step hFree h
    rw [frame.running]
    by_cases hEq : u = t
    · subst hEq
      cases hShuts : (s.threads u).pc.shuts with
      | false =>
          have hLine := (line_step hShuts h).1
          simp [hu, Pc.shuts] at hLine
      | true =>
          cases hp : (s.threads u).pc <;> simp only [hp, Pc.shuts, reduceCtorEq] at hShuts
          case shutdownUnpark rest => exact stopped u rest hp
          case shutdownLoad =>
            simp only [ThreadPool.step, hp] at h
            obtain rfl := Option.some.inj h
            rw [goto_self] at hu
            cases hRunning : s.running <;> simp [hRunning] at hu
          case shutdownLock => exact hFree.resolve_left (by simp [hp])
    · rw [frame.others u hEq] at hu
      exact stopped u idle hu

omit [DecidableEq K] in
theorem Stopped.quiet {s s' : State T K} (stopped : Stopped s) (quiet : Quiet s s') :
    Stopped s' := by
  intro u idle hu
  rw [quiet.running]
  exact stopped u idle (quiet.unparks u idle hu)

/-- The parker of every thread that is blocked is in the list once, or a call of
`spawn` has removed it and not yet unparked it; no other thread's parker is in it. -/
structure Exact (s : State T K) : Prop where
  blocked : s.running = true → ∀ u, (s.threads u).Blocked →
    s.idle.count u = 1 ∨ u ∉ s.idle ∧ ∃ v i, (s.threads v).pc = .spawnUnpark i u
  between : ∀ u ∈ s.idle, (s.threads u).pc.between

/-- The parkers are right for their lines in every run, without a condition. -/
theorem run_lines {maxThreads : Nat} {steps : List (State T K × Event T K)} {s : State T K}
    (run : (system T K maxThreads).Run steps s) : Lines s :=
  run.reachable.keeps (fun _ => Or.inl rfl) fun _ _ _ lines h => lines.next h

theorem run_stopped {maxThreads : Nat} {steps : List (State T K × Event T K)} {s : State T K}
    (run : (system T K maxThreads).Run steps s) : Stopped s := by
  refine run.reachable.keeps (fun t idle h => ?_) fun u e v stopped h => ?_
  · simp [system] at h
  · by_cases hStep : ∃ t, e = .step t
    · obtain ⟨t, rfl⟩ := hStep
      exact stopped.step h
    · push Not at hStep
      exact stopped.quiet (quiet_next hStep h)

/-- The list is right along a run that meets the second condition. -/
theorem run_listed {maxThreads : Nat} {steps : List (State T K × Event T K)} {s : State T K}
    (run : (system T K maxThreads).Run steps s) (hStale : Meets NotStale steps) : Listed s := by
  refine System.Path.keeps run NotStale Lines hStale (fun _ _ path _ => run_lines path)
    (fun t => Nat.zero_le _) fun u e v lines listed hStale h => ?_
  by_cases hStep : ∃ t, e = .step t
  · obtain ⟨t, rfl⟩ := hStep
    exact listed.step lines hStale h
  · push Not at hStep
    exact listed.quiet (quiet_next hStep h)

/-- Every thread asleep is in reach along a run that meets the first condition. -/
theorem run_found {maxThreads : Nat} {steps : List (State T K × Event T K)} {s : State T K}
    (run : (system T K maxThreads).Run steps s) (hLost : Meets NotLost steps) : Found s := by
  refine System.Path.keeps run NotLost Lines hLost (fun _ _ path _ => run_lines path)
    (fun t hAsleep => hAsleep.elim) fun u e v lines found hLost h => ?_
  by_cases hStep : ∃ t, e = .step t
  · obtain ⟨t, rfl⟩ := hStep
    exact found.step lines hLost h
  · push Not at hStep
    exact found.quiet (quiet_next hStep h)

/-- In every run in which no call of `spawn` gives up on a parker whose thread is
about to park, or gives a worker to one that is in the list again, the idle list
is exact in every state. -/
theorem idle_exact (maxThreads : Nat) (steps : List (State T K × Event T K)) (s : State T K)
    (run : (system T K maxThreads).Run steps s)
    (hMeets : Meets (fun s e => NotLost s e ∧ NotStale s e) steps) : Exact s := by
  have listed := run_listed run fun x hx => (hMeets x hx).2
  have found := run_found run fun x hx => (hMeets x hx).1
  have stopped := run_stopped run
  refine ⟨fun hRunning u hBlocked => ?_, fun u hMem => ?_⟩
  · have hOne : s.idle.count u ≤ 1 := by
      have hLists := listed u
      unfold Thread.lists at hLists
      split at hLists <;> omega
    by_cases hMem : u ∈ s.idle
    · have hPos := List.count_pos_iff.mpr hMem
      exact Or.inl (by omega)
    · obtain ⟨v, hv⟩ := (found u hBlocked.asleep).resolve_left hMem
      refine Or.inr ⟨hMem, v, ?_⟩
      cases hp : (s.threads v).pc <;> simp only [hp, Pc.holds, reduceCtorEq] at hv
      case spawnUnpark i parker =>
        obtain rfl : parker = u := by simpa using hv
        exact ⟨i, rfl⟩
      case shutdownUnpark idle =>
        have hStop := stopped v idle hp
        simp [hRunning] at hStop
  · have hPos := List.count_pos_iff.mpr hMem
    have hLists := listed u
    unfold Thread.lists at hLists
    split at hLists
    · next hBetween => exact hBetween.1
    · omega

/-- A thread parks, a call of `spawn` removes its parker and gives it a worker, and the
thread parks again. -/
theorem idle_exact_unparked : ∃ steps s, (system (Fin 2) Unit 4).Run steps s ∧ s.idle = [0] ∧
    (∃ x ∈ steps, (x.1.threads 1).pc = .spawnUnpark 5 0) ∧ Exact s := by
  let parks : List (Event (Fin 2) Unit) :=
    [.wait 0, .step 0, .step 0, .step 0, .poll 0 false, .step 0]
  let events := parks ++ [.spawn 1 5, .step 1, .step 1, .step 1, .step 1, .wakeUp 0, .step 0,
    .step 0] ++ parks
  obtain ⟨s, run, hIdle⟩ := (system (Fin 2) Unit 4).exists_run_of_replay events State.idle [0]
    (by decide)
  have hUnparks : ∀ x ∈ (system (Fin 2) Unit 4).trace (system (Fin 2) Unit 4).initial events,
      Unparks x.1 x.2 = false ∨ x.2 = .step 1 ∧ (x.1.threads 1).pc = .spawnUnpark 5 0 ∧
        (x.1.threads 0).park = .parked false ∧ 0 ∉ x.1.idle := by decide
  refine ⟨_, s, run, hIdle, by decide, idle_exact 4 _ s run ?_⟩
  rintro ⟨u, e⟩ hx
  rcases hUnparks _ hx with hNone | ⟨hEvent, hp, hPark, hNot⟩
  · exact conditions_of_not_unparks hNone
  · obtain rfl : e = .step 1 := hEvent
    exact conditions_of_parked hp hPark hNot

/-- A call of `spawn` removes the parker of a thread that has pushed it and not yet
parked, finds it `Empty` and gives up on it; the thread parks. -/
theorem removedBeforePark_notExact : ¬∀ maxThreads steps s,
    (system (Fin 2) Unit maxThreads).Run steps s → Exact s := by
  intro h
  obtain ⟨s, run, hs⟩ := (system (Fin 2) Unit 4).exists_run_of_replay
    [.wait 0, .step 0, .step 0, .spawn 1 5, .step 1, .step 1, .step 1, .step 0, .poll 0 false,
      .step 0]
    (fun s => (s.running, s.idle, s.threads 0, (s.threads 1).pc))
    (true, [], ⟨.parked false, .waiting, false⟩, .spawnLoad 5) (by decide)
  simp only [Prod.mk.injEq] at hs
  obtain ⟨hRunning, hIdle, hThread, hOther⟩ := hs
  rcases (h 4 _ s run).blocked hRunning 0 ⟨false, by rw [hThread], by rw [hThread]; rfl⟩ with
    hOne | ⟨-, v, i, hp⟩
  · simp [hIdle] at hOne
  · obtain rfl | rfl : v = 0 ∨ v = 1 := by omega
    · simp [hThread] at hp
    · simp [hOther] at hp

/-- The other way: a call of `spawn` that is slow to unpark hits the next wait of the
thread, which returns while its parker stays in the list. -/
example : ((system (Fin 2) Unit 4).replay (system (Fin 2) Unit 4).initial
    [.wait 0, .step 0, .step 0, .step 0, .poll 0 false, .step 0, .spawn 1 5, .step 1, .step 1,
      .wakeUp 0, .step 0, .step 0, .wait 0, .step 0, .step 0, .step 0, .poll 0 false, .step 0,
      .step 1, .wakeUp 0, .step 0, .step 0]).map (fun s => (s.idle, (s.threads 0).pc)) =
    some ([0], .outside) := by decide

end

end Yaar.Runtime.ThreadPool
