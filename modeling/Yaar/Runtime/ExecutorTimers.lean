import Yaar.Runtime.ExecutorRunnables

/-! Which thread wakes up for the deadlines of the timer queues. -/
namespace Yaar.Runtime.Executor

open Machine

variable {T : Type*}

/-- The lines from `search_failed` to `park` and back at which the timeout of the turn
stays. -/
def Pc.timed : Pc T → Bool
  | .failSub false | .failCheck false | .waitFirst | .waitLocked | .waitThird | .tryPoll
  | .lockPoll | .swapParked _ | .parked _ | .swapEmpty _ _ | .unwrapUnparked _ _ | .dropGuard _
  | .remove _ | .woken _ => true
  | _ => false

/-- The lines of `search_retry` before its pop. -/
def Pc.retries : Pc T → Bool
  | .retryLoad _ | .retryPop _ => true
  | _ => false

/-- The lines of `notify` at which it has raised the counter. -/
def Pc.exchanges : Pc T → Bool
  | .notifyPending _ | .notifyPop _ | .spawn _ _ | .unpark _ _ _ | .create _ _ | .spawnFailed _ _
  | .notifyPush _ _ | .notifySub _ => true
  | _ => false

/-- The line after a worker is pushed to the idle queue. -/
def Pc.putsBack : Pc T → Option (Pc T)
  | .failPush _ wasSearching ended =>
      some (if wasSearching then .failSub ended else if ended then .leave else .waitFirst)
  | .notifyPush _ next => some (.notifySub next)
  | _ => none

/-- The deadline of a timer that is set. -/
def Choice.sets : Choice T → Option Nat
  | .sleep _ deadline => some deadline
  | _ => none

/-- The timeout a thread has does not go beyond a deadline, counted from the time it
has read. -/
def Thread.Times (deadline : Nat) (th : Thread T) : Prop :=
  ∃ now ∈ th.now, ∃ timeout ∈ th.timeout, now + timeout ≤ deadline

instance (deadline : Nat) (th : Thread T) : Decidable (th.Times deadline) :=
  inferInstanceAs (Decidable (∃ now ∈ th.now, ∃ timeout ∈ th.timeout, now + timeout ≤ deadline))

/-- A thread inside that has a worker or is about to get one. -/
def Thread.Polls (W : Nat) (th : Thread T) : Prop :=
  th.pc.inside ∧ ((∃ i, i < W ∧ 0 < th.holds i) ∨ th.pc.retries)

instance (W : Nat) (th : Thread T) : Decidable (th.Polls W) :=
  inferInstanceAs (Decidable (_ ∧ ((∃ i, i < W ∧ 0 < th.holds i) ∨ _)))

/-- A thread that is to poll the timers, or wakes up for the deadline. -/
def Thread.Minds (W deadline : Nat) (th : Thread T) : Prop :=
  th.Polls W ∨ th.pc.timed ∧ th.Times deadline

instance (W deadline : Nat) (th : Thread T) : Decidable (th.Minds W deadline) :=
  inferInstanceAs (Decidable (_ ∨ _ ∧ _))

theorem Pc.timed_inside {pc : Pc T} (h : pc.timed) : pc.inside := by
  cases pc <;> simp_all [Pc.timed, Pc.inside]

/-- A thread that has raised the counter in `notify` has a unit. -/
theorem Pc.tokens_of_exchanges {pc : Pc T} (h : pc.exchanges) : 0 < pc.tokens := by
  cases pc <;> simp_all [Pc.exchanges, Pc.tokens]

theorem Pc.Returned.exchanges {pc : Pc T} (h : pc.Returned) : pc.exchanges = false := by
  cases pc <;> simp_all [Pc.Returned, Pc.exchanges]

theorem Pc.Returned.outside {pc : Pc T} (h : pc.Returned) (hOutside : pc.inside = false) :
    pc = .outside := by
  cases pc <;> simp_all [Pc.Returned, Pc.inside]

theorem Pc.Polls.exchanges {pc : Pc T} (h : pc.Polls) : pc.exchanges = false := by
  cases pc <;> simp_all [Pc.Polls, Pc.exchanges]

theorem given_unpark {park park' : ParkState} {workerIndex : Option Nat}
    (h : park.unpark workerIndex = some park') (i : Nat) : given i park ≤ given i park' := by
  unfold ParkState.unpark at h
  split at h <;> simp_all [given, held]

/-- A thread that polls does so still, whatever the others do to it. -/
theorem Thread.Reacts.polls {W : Nat} {th th' : Thread T} (h : th.Reacts th')
    (polls : th.Polls W) : th'.Polls W := by
  cases h with
  | same => exact polls
  | notified workerIndex hPark =>
      obtain ⟨hInside, ⟨i, hi, hHolds⟩ | hRetries⟩ := polls
      · refine ⟨hInside, .inl ⟨i, hi, ?_⟩⟩
        have hGiven := given_unpark hPark i
        simp only [Thread.holds] at hHolds ⊢
        omega
      · exact ⟨hInside, .inr hRetries⟩
  | started i hOutside => simp [Thread.Polls, hOutside, Pc.inside] at polls

/-- One that minds a deadline does so too. Its timeout is its own. -/
theorem Thread.Reacts.minds {W deadline : Nat} {th th' : Thread T} (h : th.Reacts th')
    (minds : th.Minds W deadline) : th'.Minds W deadline := by
  obtain polls | ⟨hTimed, times⟩ := minds
  · exact .inl (h.polls polls)
  · cases h with
    | same => exact .inr ⟨hTimed, times⟩
    | notified workerIndex => exact .inr ⟨hTimed, times⟩
    | started i hOutside => simp [hOutside, Pc.timed] at hTimed

theorem Thread.Reacts.exchanges {th th' : Thread T} (h : th.Reacts th')
    (hExchanges : th'.pc.exchanges) : th.pc.exchanges := by
  cases h with
  | same => exact hExchanges
  | notified workerIndex => exact hExchanges
  | started i => simp [Pc.exchanges] at hExchanges

/-- A thread outside of the runtime has a worker in `notify` only, and only one. -/
theorem outside_holds {th : Thread T} {i : Nat} (ok : th.Ok) (shape : th.pc.Shape)
    (hLive : th.pc.live) (hOutside : th.pc.inside = false) (h : 0 < th.holds i) :
    th.pc.exchanges ∧ ∀ j, 0 < th.holds j → j = i := by
  unfold Thread.Ok at ok
  cases hp : th.pc <;>
    simp only [hp, Pc.Ok, Pc.Shape, Pc.live, Pc.inside, reduceCtorEq] at ok shape hLive hOutside
  case outside =>
    obtain ⟨hWorker, -, hPark⟩ := ok
    simp [Thread.holds, hp, Pc.holds, hWorker, held, hPark.holds] at h
  case push next | notifyLoad next | notifySearching next | notifySwap next | notifyPending next
    | notifyPop next | notifySub next =>
    obtain rfl := Pc.Returned.outside shape hOutside
    obtain ⟨hPark, hWorker, -⟩ := ok
    simp [Thread.holds, hp, Pc.holds, hWorker, held, hPark.holds] at h
  case spawn j next | unpark j _ next | create j next | spawnFailed j next | notifyPush j next =>
    obtain rfl := Pc.Returned.outside shape hOutside
    obtain ⟨hPark, hWorker, -⟩ := ok
    refine ⟨rfl, fun k hk => ?_⟩
    simp only [Thread.holds, hp, Pc.holds, hWorker, held, hPark.holds] at h hk
    grind

/-- A thread inside that has a worker is not left on its condvar. -/
theorem watches_of_holds {th : Thread T} {i : Nat} (ok : th.Ok) (hInside : th.pc.inside)
    (h : 0 < th.holds i) : th.Watches := by
  refine ⟨hInside, fun hWaits => ?_⟩
  unfold Thread.Ok at ok
  cases hp : th.pc <;> simp only [hp, Pc.waits, reduceCtorEq] at hWaits <;>
    simp only [hp, Pc.Ok] at ok
  case swapParked isPolling =>
    simp [Thread.holds, hp, Pc.holds, ok.1, held, ok.2.holds] at h
  case parked isPolling =>
    obtain ⟨hWorker, hPark | ⟨w, hPark⟩⟩ := ok
    · cases isPolling <;>
        simp [Thread.holds, hp, Pc.holds, hWorker, held, hPark, ParkState.parked, given] at h
    · rw [hPark]
      rfl

variable [DecidableEq T]

/-- One thread at a time has raised the counter in `notify`. -/
def Single (s : State T) : Prop :=
  ∀ t u, (s.threads t).pc.exchanges → (s.threads u).pc.exchanges → t = u

/-- The lines after a poll of the parker are not those of `notify`. -/
theorem exchanges_pollUnparked {s : State T} {t : T} {taken : Nat → Pc T} {woken otherwise : Pc T}
    (hTaken : ∀ i, (taken i).exchanges = false) (hWoken : woken.exchanges = false)
    (hOtherwise : otherwise.exchanges = false) :
    ((s.pollUnparked t taken woken otherwise).threads t).pc.exchanges = false := by
  simp only [State.pollUnparked]
  split <;> simp_all

/-- A thread raises the counter in `notify` only when it is zero. -/
theorem exchanges_step {W maxThreads : Nat} {s s' : State T} {t : T}
    (shape : (s.threads t).pc.Shape) (h : step W maxThreads s t = some s') :
    (s'.threads t).pc.exchanges = false ∨ (s.threads t).pc.exchanges ∨ s.searching = 0 := by
  cases hp : (s.threads t).pc <;> simp only [step, hp, reduceCtorEq] at h <;>
    simp only [hp, Pc.Shape] at shape
  case notifyPending | notifyPop | spawn | unpark | spawnFailed | notifyPush | notifySub =>
    exact .inr (.inl rfl)
  case notifySwap next =>
    split at h
    · next hZero => exact .inr (.inr hZero)
    · obtain rfl := Option.some.inj h
      left
      rw [goto_self]
      split <;> first | rfl | exact Pc.Returned.exchanges shape
  all_goals left
  case retryPop caller =>
    obtain rfl := Option.some.inj h
    unfold State.popIdle
    cases caller <;> split <;> simp [Caller.none, Pc.exchanges]
  case waitFirst | waitThird =>
    obtain rfl := Option.some.inj h
    exact exchanges_pollUnparked (fun _ => rfl) rfl rfl
  case unwrapUnparked ready guarded =>
    obtain rfl := Option.some.inj h
    cases guarded <;> exact exchanges_pollUnparked (fun _ => rfl) rfl rfl
  case waitLocked =>
    split at h
    · obtain rfl := Option.some.inj h
      exact exchanges_pollUnparked (fun _ => rfl) rfl rfl
    · obtain rfl := Option.some.inj h
      simp [Pc.exchanges]
  case ownTimers =>
    obtain ⟨i, _, rfl⟩ := Option.map_eq_some_iff.mp h
    unfold State.pollTimers
    split
    · simp [Pc.exchanges]
    · simp only
      split <;> simp [Pc.exchanges, Thread.wait]
  case popLocal =>
    obtain ⟨i, _, rfl⟩ := Option.map_eq_some_iff.mp h
    split
    · simp [Pc.exchanges]
    · simp only [goto_self]
      split <;> simp [Pc.exchanges]
  case giveBack =>
    obtain ⟨i, _, rfl⟩ := Option.map_eq_some_iff.mp h
    split <;> simp [Pc.exchanges]
  case failSub ended =>
    obtain rfl := Option.some.inj h
    simp only [State.fetchSub, goto_self]
    cases ended <;> (repeat' split) <;> simp_all [Pc.exchanges]
  case discover next =>
    obtain rfl := Option.some.inj h
    simp only [State.fetchSub, goto_self]
    rcases shape with rfl | rfl <;> (repeat' split) <;> simp_all [Pc.exchanges]
  case lockTake | lockPut =>
    obtain rfl := Option.some.inj h
    unfold State.lockProducer
    split <;> simp [Pc.exchanges]
  case swapTake i next =>
    obtain rfl := Option.some.inj h
    simp only [State.takeProducer, setThread_self]
    rcases shape with rfl | rfl <;> split <;> simp [Pc.exchanges]
  case swapPut i ended =>
    obtain rfl := Option.some.inj h
    simp only [State.putProducer, setThread_self]
    split <;> simp [Pc.exchanges]
  case retryLoad caller | retryAdded caller _ _ =>
    obtain rfl := Option.some.inj h
    cases caller <;> simp only [goto_self, Caller.none, Caller.some] <;> split <;>
      simp [Pc.exchanges]
  case taken i ready =>
    obtain rfl := Option.some.inj h
    rcases ready with _ | _ | ready <;> simp [popAndInject, Pc.exchanges]
  case dropGuard next =>
    obtain rfl := Option.some.inj h
    rcases shape with ⟨ready, rfl⟩ | ⟨i, ready, rfl⟩ <;> simp [Pc.exchanges]
  case pollIo next =>
    obtain rfl := Option.some.inj h
    rw [goto_self]
    split <;> first | rfl | exact Pc.Polls.exchanges shape
  case lockIo next =>
    obtain rfl := Option.some.inj h
    split <;> rw [goto_self] <;> first | rfl | exact Pc.Polls.exchanges shape
  case notifyLoad next | notifySearching next =>
    obtain rfl := Option.some.inj h
    rw [goto_self]
    (repeat' split) <;> first | rfl | exact Pc.Returned.exchanges shape
  case push | found | finish | swapParked | swapEmpty | lockPoll | beginAdded =>
    split at h <;> obtain rfl := Option.some.inj h <;> simp [Pc.exchanges]
  all_goals
    obtain rfl := Option.some.inj h
    (repeat' split) <;> simp [Pc.exchanges]

theorem exchanges_choose {W : Nat} {s s' : State T} {t : T} {choice : Choice T}
    (shape : (s.threads t).pc.Shape) (h : choose W s t choice = some s') :
    (s'.threads t).pc.exchanges = false ∨ (s.threads t).pc.exchanges := by
  simp only [choose] at h
  split at h <;> rename_i hp <;> simp only [hp, Pc.Shape] at shape
  case h_30 | h_31 => exact .inr (by rw [hp]; rfl)
  all_goals left
  case h_6 | h_7 | h_8 =>
    obtain rfl := Option.some.inj h
    unfold State.schedule
    split <;> simp [Pc.exchanges]
  case h_9 | h_10 | h_11 | h_17 | h_18 | h_19 =>
    split at h
    · obtain rfl := Option.some.inj h
      simp [hp, Pc.exchanges]
    · simp at h
  case h_12 | h_13 | h_14 | h_15 | h_16 =>
    obtain rfl := Option.some.inj h
    simp [hp, Pc.exchanges]
  case h_22 next ready | h_29 next ready =>
    obtain rfl := Option.some.inj h
    rw [goto_self]
    rcases ready with _ | _ | ready
    · exact Pc.Polls.exchanges shape
    · rfl
    · rfl
  case h_23 | h_24 | h_26 =>
    obtain ⟨i, _, h⟩ := Option.bind_eq_some_iff.mp h
    split at h
    · obtain rfl := Option.some.inj h
      simp [Pc.exchanges]
    · simp at h
  case h_27 =>
    split at h
    · obtain rfl := Option.some.inj h
      unfold State.pollTimers
      split
      · simp [Pc.exchanges]
      · simp only
        split <;> simp [Pc.exchanges, Thread.wait]
    · simp at h
  case h_33 =>
    split at h
    · obtain rfl := Option.some.inj h
      simp [Pc.exchanges]
    · simp at h
  case h_34 => simp at h
  all_goals
    obtain rfl := Option.some.inj h
    simp [Pc.exchanges]

/-- It is enough that the thread of the step is the only one to have raised the counter. -/
theorem Single.of {s s' : State T} {t : T} (single : Single s)
    (hOthers : ∀ u, u ≠ t → (s.threads u).Reacts (s'.threads u))
    (hSelf : (s'.threads t).pc.exchanges = false ∨ (s.threads t).pc.exchanges ∨
      ∀ u, (s.threads u).pc.exchanges = false) : Single s' := by
  have hBefore : ∀ u, u ≠ t → (s'.threads u).pc.exchanges → (s.threads u).pc.exchanges :=
    fun u hNe hu => (hOthers u hNe).exchanges hu
  have hAlone : ∀ u, u ≠ t → (s'.threads u).pc.exchanges → (s'.threads t).pc.exchanges = false := by
    intro u hNe hu
    obtain hNot | hHere | hNone := hSelf
    · exact hNot
    · exact (hNe (single u t (hBefore u hNe hu) hHere)).elim
    · simpa [hNone u] using hBefore u hNe hu
  intro u v hu hv
  by_cases hFirst : u = t <;> by_cases hSecond : v = t
  · rw [hFirst, hSecond]
  · subst hFirst
    simp [hAlone v hSecond hv] at hu
  · subst hSecond
    simp [hAlone u hFirst hu] at hv
  · exact single u v (hBefore u hFirst hu) (hBefore v hSecond hv)

variable [Fintype T]

/-- In `notify` the exchange goes through only from 0, so nobody else has a unit then. -/
theorem Accounts.single_next {W maxThreads : Nat} {s s' : State T} {e : Event T}
    (accounts : Accounts W s) (shape : ∀ t, (s.threads t).pc.Shape) (single : Single s)
    (h : Executor.next W maxThreads s e = some s') : Single s' := by
  cases e with
  | step t =>
      refine single.of (t := t) (fun u hNe => accounts.reacts_step hNe h) ?_
      obtain hNot | hHere | hZero := exchanges_step (shape t) h
      · exact .inl hNot
      · exact .inr (.inl hHere)
      · refine .inr (.inr fun u => ?_)
        by_contra hExchanges
        have hTokens := Pc.tokens_of_exchanges (by simpa using hExchanges)
        have hLe := accounts.le_searching u
        unfold Thread.tokens at hLe
        omega
  | choose t choice =>
      refine single.of (t := t) (fun u hNe => accounts.reacts_choose hNe h) ?_
      obtain hNot | hHere := exchanges_choose (shape t) h
      · exact .inl hNot
      · exact .inr (.inl hHere)
  | blockOn t =>
      simp only [Executor.next] at h
      split at h
      · obtain rfl := Option.some.inj h
        refine single.of (t := t) (fun u hNe => ?_) (.inl (by simp [Pc.exchanges]))
        simpa [State.goto, State.setThread, Function.update_of_ne hNe] using .same
      · simp at h
  | wake t =>
      simp only [Executor.next] at h
      split at h
      · simp at h
      · obtain ⟨park, hPark, rfl⟩ := Option.map_eq_some_iff.mp h
        have hReacts := reacts_wake hPark
        exact fun u v hu hv => single u v ((hReacts u).exchanges hu) ((hReacts v).exchanges hv)
  | tick milliseconds =>
      obtain rfl := Option.some.inj h
      exact single

theorem single_reachable {W maxThreads : Nat} {s : State T}
    (h : (system T W maxThreads).Reachable s) : Single s := by
  obtain ⟨steps, run⟩ := h
  induction run with
  | refl => exact fun t _ h => by simp [system, Pc.exchanges] at h
  | step prior last ih =>
      have reachable := System.Run.reachable prior
      exact (accounts_reachable reachable).single_next (shape_reachable reachable) ih last

omit [DecidableEq T] in
/-- While no worker is idle, a thread inside the runtime has one. -/
theorem Accounts.polls_idle {W : Nat} {s : State T} (accounts : Accounts W s) (single : Single s)
    (shape : ∀ t, (s.threads t).pc.Shape) (hLive : ∀ t, (s.threads t).pc.live) (hW : 1 < W)
    (h : s.idle = []) : ∃ t, (s.threads t).Polls W := by
  have hHolder : ∀ i, i < W → ∃ t, 0 < (s.threads t).holds i := by
    intro i hi
    have hHolds := accounts.holds i
    rw [if_pos hi, h, List.count_nil, Nat.zero_add] at hHolds
    exact Tally.exists_of_total_pos (hHolds ▸ Nat.one_pos)
  obtain ⟨t, ht⟩ := hHolder 0 (by omega)
  obtain ⟨u, hu⟩ := hHolder 1 hW
  by_cases hInside : (s.threads t).pc.inside = true
  · exact ⟨t, hInside, .inl ⟨0, by omega, ht⟩⟩
  · by_cases hOther : (s.threads u).pc.inside = true
    · exact ⟨u, hOther, .inl ⟨1, hW, hu⟩⟩
    · obtain ⟨hFirst, hOnly⟩ := outside_holds (accounts.ok t) (shape t) (hLive t)
        (by simpa using hInside) ht
      obtain ⟨hSecond, -⟩ := outside_holds (accounts.ok u) (shape u) (hLive u)
        (by simpa using hOther) hu
      obtain rfl := single t u hFirst hSecond
      exact absurd (hOnly 1 hu) (by decide)

/-- A worker is let go of, or a timer is set, only where another thread minds the
deadline or the same one still does. -/
def Minding (W : Nat) (s : State T) : Event T → Prop
  | .step t => CounterHolds W s (.step t) ∧ ∀ line ∈ (s.threads t).pc.putsBack,
      ∀ i, i < W → ∀ deadline ∈ s.timers i,
        ({ s.threads t with pc := line } : Thread T).Minds W deadline ∨
          ∃ u, u ≠ t ∧ (s.threads u).Minds W deadline
  | .choose _ choice =>
      ∀ deadline ∈ choice.sets, s.clock < deadline → ∃ u, (s.threads u).Minds W deadline
  | _ => True

omit [Fintype T] in
/-- A thread that goes to a line with its timeout minds the deadline. -/
theorem minds_goto {W deadline : Nat} {s : State T} {t : T} {pc : Pc T} (hTimed : pc.timed)
    (times : (s.threads t).Times deadline) : ((s.goto t pc).threads t).Minds W deadline := by
  rw [goto_self]
  exact .inr ⟨hTimed, times⟩

omit [Fintype T] in
/-- So does one that goes to a line inside with a worker in its hands. -/
theorem polls_goto {W i : Nat} {s : State T} {t : T} {pc : Pc T} (hInside : pc.inside) (hi : i < W)
    (hHolds : 0 < pc.holds i) : ((s.goto t pc).threads t).Polls W := by
  rw [goto_self]
  exact ⟨hInside, .inl ⟨i, hi, Nat.add_pos_left (Nat.add_pos_left hHolds _) _⟩⟩

omit [Fintype T] in
/-- After a poll of the parker the thread has the worker of the notification, or is on
its way with its timeout. -/
theorem minds_pollUnparked {W deadline : Nat} {s : State T} {t : T} {taken : Nat → Pc T}
    {woken otherwise : Pc T} (hIndex : ∀ i, (s.threads t).park = .notified (some i) → i < W)
    (times : (s.threads t).Times deadline)
    (hTaken : ∀ i, (taken i).inside ∧ 0 < (taken i).holds i) (hWoken : woken.timed)
    (hOtherwise : otherwise.timed) :
    ((s.pollUnparked t taken woken otherwise).threads t).Minds W deadline := by
  simp only [State.pollUnparked]
  split
  · next i hPark =>
      obtain ⟨hInside, hHolds⟩ := hTaken i
      rw [setThread_self]
      exact .inl ⟨hInside, .inl ⟨i, hIndex i hPark,
        Nat.add_pos_left (Nat.add_pos_left hHolds _) _⟩⟩
  · rw [setThread_self]
    exact .inr ⟨hWoken, times⟩
  · exact minds_goto hOtherwise times

/-- A thread keeps its timeout up to `search_retry`. -/
theorem minds_timed {W maxThreads deadline : Nat} {s s' : State T} {t : T}
    (inv : Inv W maxThreads s) (shape : (s.threads t).pc.Shape)
    (hBounded : CounterHolds W s (.step t)) (hTimed : (s.threads t).pc.timed)
    (times : (s.threads t).Times deadline) (h : step W maxThreads s t = some s') :
    (s'.threads t).Minds W deadline := by
  have hOk := inv.accounts.ok t
  have hIndex : ∀ i, (s.threads t).park = .notified (some i) → i < W := fun i hPark =>
    inv.accounts.lt_of_holds (t := t) (by simp [Thread.holds, hPark, given, held])
  unfold Thread.Ok at hOk
  cases hp : (s.threads t).pc <;> simp only [step, hp, reduceCtorEq] at h <;>
    simp only [hp, Pc.timed, reduceCtorEq] at hTimed <;> simp only [hp, Pc.Shape, Pc.Ok] at shape hOk
  case waitFirst | waitThird =>
    obtain rfl := Option.some.inj h
    exact minds_pollUnparked hIndex times (fun i => ⟨rfl, by simp [Pc.holds]⟩) rfl rfl
  case waitLocked =>
    split at h
    · obtain rfl := Option.some.inj h
      exact minds_pollUnparked hIndex times (fun i => ⟨rfl, by simp [Pc.holds]⟩) rfl rfl
    · obtain rfl := Option.some.inj h
      exact minds_goto rfl times
  case unwrapUnparked ready guarded =>
    obtain rfl := Option.some.inj h
    obtain ⟨-, w, hPark⟩ := hOk
    cases w with
    | none => cases guarded <;> simp only [State.pollUnparked, hPark] <;> rw [setThread_self] <;> exact .inr ⟨rfl, times⟩
    | some i =>
        have hi := hIndex i hPark
        cases guarded <;> simp only [State.pollUnparked, hPark] <;> rw [setThread_self] <;>
          exact .inl ⟨rfl, .inl ⟨i, hi, by simp [Thread.holds, Pc.holds]⟩⟩
  case failSub ended =>
    have hTokens := inv.accounts.le_searching t
    simp only [CounterHolds, Thread.tokens, hp, Pc.Bounded, Pc.tokens, decide_eq_true_eq] at hBounded hTokens
    obtain rfl := Option.some.inj h
    cases ended <;> simp only [reduceCtorEq] at hTimed
    simp only [State.fetchSub]
    rw [if_neg (by omega)]
    split <;> exact minds_goto rfl times
  case failCheck ended =>
    obtain rfl := Option.some.inj h
    cases ended <;> simp only [reduceCtorEq] at hTimed
    split
    · rw [goto_self]
      exact .inl ⟨rfl, .inr rfl⟩
    · exact minds_goto rfl times
  case swapParked | swapEmpty =>
    split at h
    · obtain rfl := Option.some.inj h
      rw [setThread_self]
      exact .inr ⟨rfl, times⟩
    · obtain rfl := Option.some.inj h
      exact minds_goto rfl times
  case tryPoll | lockPoll =>
    obtain rfl := Option.some.inj h
    split <;> exact minds_goto rfl times
  case dropGuard next =>
    obtain rfl := Option.some.inj h
    obtain ⟨ready, rfl⟩ | ⟨i, ready, rfl⟩ := shape
    · exact minds_goto rfl times
    · have hi : i < W := inv.accounts.lt_of_holds (t := t) (by simp [Thread.holds, hp, Pc.holds])
      exact .inl (polls_goto rfl hi (by simp [Pc.holds]))
  case remove ready =>
    obtain rfl := Option.some.inj h
    exact minds_goto rfl times
  case woken ready =>
    obtain ⟨now, hNow, timeout, hTimeout, -⟩ := times
    obtain rfl := Option.some.inj h
    rw [if_pos (.inr (by simp [Option.mem_def.mp hTimeout])), goto_self]
    exact .inl ⟨rfl, .inr rfl⟩

omit [Fintype T] in
/-- The worker that is handed over is taken to the timers by the thread that gets it, or
by the one that has failed to hand it over. -/
theorem polls_unpark {W i : Nat} {s : State T} {t u : T} {next : Pc T} (hi : i < W)
    (ok : (s.threads u).Ok) (hInside : next.inside) (hp : (s.threads t).pc = .unpark i u next) :
    ∃ v, ((s.unpark t u i next).threads v).Polls W := by
  unfold State.unpark
  split
  · exact ⟨t, polls_goto hInside hi (by simp [Pc.holds])⟩
  · next park hPark =>
      obtain ⟨rfl, -, hLine⟩ := ok_unparked ok hPark
      have hNe : u ≠ t := by
        rintro rfl
        simp [hp] at hLine
      refine ⟨u, ?_⟩
      simp only [State.goto, State.setThread, Function.update_of_ne hNe, Function.update_self]
      refine ⟨?_, .inl ⟨i, hi, by simp [Thread.holds, given, held]⟩⟩
      obtain ⟨b, hb⟩ | ⟨b, n, hb⟩ := hLine <;> rw [hb] <;> rfl

/-- A thread with a worker keeps it, gives it to another inside or pushes it to the
idle queue, and one in `search_retry` gets a worker or finds none idle. -/
theorem polls_step {W maxThreads : Nat} {s s' : State T} {t : T} (inv : Inv W maxThreads s)
    (shape : (s.threads t).pc.Shape) (hBounded : CounterHolds W s (.step t))
    (cleared : FlagCleared s (.step t)) (hEmpty : s'.idle = [] → ∃ u, (s'.threads u).Polls W) (polls : (s.threads t).Polls W)
    (hKeeps : (s.threads t).pc.putsBack = none) (h : step W maxThreads s t = some s') :
    ∃ u, (s'.threads u).Polls W := by
  have accounts : Accounts W s' := inv.accounts.next (e := .step t) h
  have hOk := inv.accounts.ok t
  obtain ⟨hInside, ⟨i, hi, hHolds⟩ | hRetries⟩ := polls
  · by_cases hUnpark : ∃ j u next, (s.threads t).pc = .unpark j u next
    · obtain ⟨j, u, next, hp⟩ := hUnpark
      have hj : j < W := inv.accounts.lt_of_holds (t := t) (by simp [Thread.holds, hp, Pc.holds])
      rw [hp] at hInside
      simp only [step, hp] at h
      obtain rfl := Option.some.inj h
      exact polls_unpark hj (inv.accounts.ok u) hInside hp
    · push Not at hUnpark
      obtain ⟨th, moves⟩ := moves_step hOk (inv.accounts.le_searching t) hUnpark h
      have hIdle : s'.idle.count i ≤ s.idle.count i := by
        obtain hLe | hPushes := (spends_step h).idle
        · exact hLe i
        · cases hp : (s.threads t).pc <;> simp [hp, Pc.pushes, Pc.putsBack] at hPushes hKeeps
      have hMoves := moves.holds i
      refine ⟨t, ?_, .inl ⟨i, hi, ?_⟩⟩
      · have hNone : (s.threads t).pc ≠ .leave ∧ (s.threads t).pc ≠ .tryPoll ∧
            (s.threads t).pc ≠ .lockPoll := by
          unfold Thread.Ok at hOk
          refine ⟨?_, ?_, ?_⟩ <;> intro hp <;> rw [hp] at hOk
          · simp [Thread.holds, hp, Pc.holds, hOk.1, held, hOk.2.2.holds] at hHolds
          · simp [Thread.holds, hp, Pc.holds, hOk.1, held, hOk.2.holds] at hHolds
          · simp [Thread.holds, hp, Pc.holds, hOk.1, held, hOk.2.holds] at hHolds
        obtain hHere | hp | ⟨hp, -⟩ | ⟨hp, -⟩ := watches_step hOk shape
          (inv.live hBounded cleared h) (watches_of_holds hOk hInside hHolds) h
        · exact hHere.1
        · exact (hNone.1 hp).elim
        · exact (hNone.2.1 hp).elim
        · exact (hNone.2.2 hp).elim
      · rw [moves.threads, Function.update_self]
        omega
  · cases hp : (s.threads t).pc <;> simp only [hp, Pc.retries, reduceCtorEq] at hRetries <;>
      simp only [step, hp] at h <;> obtain rfl := Option.some.inj h
    case retryLoad caller =>
      by_cases hPending : s.pending = true
      · rw [if_pos hPending]
        exact ⟨t, by rw [goto_self]; exact ⟨rfl, .inr rfl⟩⟩
      · exact hEmpty (inv.bounds.idle_empty (by simpa using hPending))
    case retryPop caller =>
      cases hIdle : s.idle with
      | nil => exact hEmpty (by simp [State.popIdle, hIdle, State.goto, State.setThread])
      | cons i rest =>
          have hHolds : 0 < ((s.popIdle t caller.none (.retryAdd caller)).threads t).holds i := by
            cases rest <;> simp [State.popIdle, hIdle, Thread.holds, Pc.holds]
          refine ⟨t, ?_, .inl ⟨i, accounts.lt_of_holds hHolds, hHolds⟩⟩
          cases rest <;> simp [State.popIdle, hIdle, Pc.inside]

/-- A choice takes no worker away, though it may start the thread that gets one. -/
theorem polls_choose {W : Nat} {s s' : State T} {t : T} {choice : Choice T}
    (accounts : Accounts W s) (shape : (s.threads t).pc.Shape) (polls : (s.threads t).Polls W)
    (h : choose W s t choice = some s') : ∃ u, (s'.threads u).Polls W := by
  have hOk := accounts.ok t
  obtain ⟨hInside, hHas⟩ := polls
  have hRetries : (s.threads t).pc.retries = false := by
    cases hp : (s.threads t).pc <;> first | rfl | simp [choose, hp] at h
  obtain ⟨i, hi, hHolds⟩ := hHas.resolve_right (by simp [hRetries])
  by_cases hCreate : ∃ v, choice = .create v
  · obtain ⟨v, rfl⟩ := hCreate
    cases hp : (s.threads t).pc
    case create j next =>
      have hj : j < W := accounts.lt_of_holds (t := t) (by simp [Thread.holds, hp, Pc.holds])
      simp only [choose, hp] at h
      split at h
      · next hOutside =>
          obtain rfl := Option.some.inj h
          have hNe : v ≠ t := by
            rintro rfl
            simp [hp] at hOutside
          refine ⟨v, ?_⟩
          simp only [State.goto, State.setThread, Function.update_of_ne hNe, Function.update_self]
          exact ⟨rfl, .inl ⟨j, hj, by simp [Thread.holds, Pc.holds]⟩⟩
      · simp at h
    all_goals simp [choose, hp] at h
  · push Not at hCreate
    obtain ⟨th, moves⟩ := moves_choose hOk hCreate h
    have hMoves := moves.holds i
    rw [(injector_choose h).2] at hMoves
    refine ⟨t, (watches_choose shape (watches_of_holds hOk hInside hHolds) h).1, .inl ⟨i, hi, ?_⟩⟩
    rw [moves.threads, Function.update_self]
    omega

omit [Fintype T] in
/-- The deadlines in a queue are those of before and one that is set. -/
theorem timers_choose {W : Nat} {s s' : State T} {t : T} {choice : Choice T}
    (h : choose W s t choice = some s') (i deadline : Nat) (hMem : deadline ∈ s'.timers i) :
    deadline ∈ s.timers i ∨ ∃ queue, choice = .sleep queue deadline ∧ s.clock < deadline ∧
      s'.threads = s.threads := by
  simp only [choose] at h
  split at h
  case h_6 | h_7 | h_8 =>
    obtain rfl := Option.some.inj h
    unfold State.schedule at hMem
    split at hMem <;> exact .inl hMem
  case h_9 | h_10 | h_11 =>
    split at h
    · obtain rfl := Option.some.inj h
      simp only at hMem
      split at hMem
      · next hLater =>
          simp only [Function.update_apply] at hMem
          split at hMem
          · next hEq =>
              obtain rfl | hMem := List.mem_cons.mp hMem
              · exact .inr ⟨_, rfl, hLater, rfl⟩
              · exact .inl (hEq ▸ hMem)
          · exact .inl hMem
      · exact .inl hMem
    · simp at h
  case h_12 | h_13 | h_14 =>
    obtain rfl := Option.some.inj h
    simp only [Function.update_apply] at hMem
    split at hMem
    · next hEq => exact .inl (hEq ▸ List.mem_of_mem_erase hMem)
    · exact .inl hMem
  case h_29 =>
    obtain rfl := Option.some.inj h
    simp only [State.goto, State.setThread, Function.update_apply] at hMem
    split at hMem
    · next hEq => exact .inl (hEq ▸ (List.mem_filter.mp hMem).1)
    · exact .inl hMem
  case h_17 | h_18 | h_19 | h_30 | h_33 =>
    split at h
    · obtain rfl := Option.some.inj h
      exact .inl hMem
    · simp at h
  case h_23 | h_24 | h_26 =>
    obtain ⟨j, _, h⟩ := Option.bind_eq_some_iff.mp h
    split at h
    · obtain rfl := Option.some.inj h
      exact .inl hMem
    · simp at h
  case h_27 =>
    split at h
    · obtain rfl := Option.some.inj h
      rw [(pollTimers_eq s t _ .search).choose_spec] at hMem
      exact .inl hMem
    · simp at h
  case h_34 => simp at h
  all_goals
    obtain rfl := Option.some.inj h
    exact .inl hMem

omit [Fintype T] in
/-- A parked thread that wakes up still has its timeout. -/
theorem timed_choose {W deadline : Nat} {s s' : State T} {t : T} {choice : Choice T}
    (hTimed : (s.threads t).pc.timed) (times : (s.threads t).Times deadline)
    (h : choose W s t choice = some s') : (s'.threads t).Minds W deadline := by
  cases hp : (s.threads t).pc <;> simp only [hp, Pc.timed, reduceCtorEq] at hTimed
  case parked isPolling =>
    cases isPolling <;> cases choice <;> simp only [choose, hp, reduceCtorEq] at h
    · split at h
      · obtain rfl := Option.some.inj h
        exact minds_goto rfl times
      · simp at h
    · obtain rfl := Option.some.inj h
      exact minds_goto rfl times
  all_goals simp [choose, hp] at h

/-- For each deadline in a timer queue a thread is to poll the timers or to wake up. -/
def Minded (W : Nat) (s : State T) : Prop :=
  ∀ i, i < W → ∀ deadline ∈ s.timers i, ∃ t, (s.threads t).Minds W deadline

/-- A thread goes on to the line after it has pushed a worker to the idle queue. -/
theorem putsBack_step {W maxThreads : Nat} {s s' : State T} {t : T} {line : Pc T}
    (accounts : Accounts W s) (hLine : (s.threads t).pc.putsBack = some line)
    (h : step W maxThreads s t = some s') : s'.threads t = { s.threads t with pc := line } := by
  cases hp : (s.threads t).pc <;> simp only [hp, Pc.putsBack, reduceCtorEq] at hLine <;>
    obtain rfl := Option.some.inj hLine <;> simp only [step, hp] at h <;>
    obtain rfl := Option.some.inj h
  case failPush i wasSearching ended =>
    have hi : i < W := accounts.lt_of_holds (t := t) (by simp [Thread.holds, hp, Pc.holds])
    rw [if_neg (by omega)]
    exact goto_self _ t _
  case notifyPush i next => exact goto_self _ t _

/-- A step keeps the deadlines minded. A worker goes to the idle queue only where the
condition has another thread mind its timers. -/
theorem Minded.step {W maxThreads : Nat} {s s' : State T} {t : T} (minded : Minded W s)
    (inv : Inv W maxThreads s) (shape : (s.threads t).pc.Shape) (cleared : FlagCleared s (.step t))
    (minding : Minding W s (.step t)) (hEmpty : s'.idle = [] → ∃ u, (s'.threads u).Polls W)
    (h : step W maxThreads s t = some s') : Minded W s' := by
  intro i hi deadline hMem
  rw [(spends_step h).timers] at hMem
  have hOthers : ∀ u, u ≠ t → (s.threads u).Minds W deadline →
      ∃ v, (s'.threads v).Minds W deadline := fun u hNe hu =>
    ⟨u, (inv.accounts.reacts_step hNe h).minds hu⟩
  obtain ⟨hBounded, hPutsBack⟩ := minding
  cases hLine : (s.threads t).pc.putsBack with
  | some line =>
      obtain hSelf | ⟨u, hNe, hu⟩ := hPutsBack line hLine i hi deadline hMem
      · exact ⟨t, putsBack_step inv.accounts hLine h ▸ hSelf⟩
      · exact hOthers u hNe hu
  | none =>
      obtain ⟨u, hu⟩ := minded i hi deadline hMem
      by_cases hEq : u = t
      · subst hEq
        obtain polls | ⟨hTimed, times⟩ := hu
        · obtain ⟨v, hv⟩ := polls_step inv shape hBounded cleared hEmpty polls hLine h
          exact ⟨v, .inl hv⟩
        · exact ⟨u, minds_timed inv shape hBounded hTimed times h⟩
      · exact hOthers u hEq hu

/-- So does a choice: a new deadline is minded by the condition, or has passed. -/
theorem Minded.choose {W : Nat} {s s' : State T} {t : T} {choice : Choice T}
    (minded : Minded W s) (accounts : Accounts W s) (shape : (s.threads t).pc.Shape)
    (minding : Minding W s (.choose t choice)) (h : choose W s t choice = some s') :
    Minded W s' := by
  intro i hi deadline hMem
  obtain hBefore | ⟨queue, rfl, hLater, hThreads⟩ := timers_choose h i deadline hMem
  · obtain ⟨u, hu⟩ := minded i hi deadline hBefore
    by_cases hEq : u = t
    · subst hEq
      obtain polls | ⟨hTimed, times⟩ := hu
      · obtain ⟨v, hv⟩ := polls_choose accounts shape polls h
        exact ⟨v, .inl hv⟩
      · exact ⟨u, timed_choose hTimed times h⟩
    · exact ⟨u, (accounts.reacts_choose hEq h).minds hu⟩
  · rw [hThreads]
    exact minding deadline rfl hLater

theorem Minded.next {W maxThreads : Nat} {s s' : State T} {e : Event T} (minded : Minded W s)
    (inv : Inv W maxThreads s) (shape : ∀ t, (s.threads t).pc.Shape) (cleared : FlagCleared s e)
    (minding : Minding W s e) (hEmpty : s'.idle = [] → ∃ u, (s'.threads u).Polls W)
    (h : Executor.next W maxThreads s e = some s') : Minded W s' := by
  cases e with
  | step t => exact minded.step inv (shape t) cleared minding hEmpty h
  | choose t choice => exact minded.choose inv.accounts (shape t) minding h
  | blockOn t =>
      simp only [Executor.next] at h
      split at h
      · next hOutside =>
          obtain rfl := Option.some.inj h
          intro i hi deadline hMem
          obtain ⟨u, hu⟩ := minded i hi deadline hMem
          have hNe : u ≠ t := by
            rintro rfl
            simp [Thread.Minds, Thread.Polls, hOutside, Pc.inside, Pc.timed] at hu
          exact ⟨u, by simpa [State.goto, State.setThread, Function.update_of_ne hNe] using hu⟩
      · simp at h
  | wake t =>
      simp only [Executor.next] at h
      split at h
      · simp at h
      · obtain ⟨park, hPark, rfl⟩ := Option.map_eq_some_iff.mp h
        intro i hi deadline hMem
        obtain ⟨u, hu⟩ := minded i hi deadline hMem
        exact ⟨u, (reacts_wake hPark u).minds hu⟩
  | tick milliseconds =>
      obtain rfl := Option.some.inj h
      exact minded

/-- In a settled runtime a blocked thread wakes up for the earliest deadline of each
queue. -/
def Timed (W : Nat) (s : State T) : Prop :=
  Settled s → ∀ i, i < W → ∀ deadline ∈ earliest (s.timers i),
    ∃ t isPolling, (s.threads t).pc = .parked isPolling ∧ (s.threads t).park = .parked isPolling ∧
      (s.threads t).Times deadline

omit [DecidableEq T] [Fintype T] in
/-- In a settled runtime whoever minds a deadline is blocked with a timeout that does
not go beyond it. -/
theorem Minded.timed {W : Nat} {s : State T} (minded : Minded W s) (ok : ∀ t, (s.threads t).Ok)
    (staffed : ∀ t, (s.threads t).Staffed) : Timed W s := by
  intro settled i hi deadline hEarliest
  obtain ⟨t, ht⟩ := minded i hi deadline (List.min?_mem hEarliest)
  have hInside : (s.threads t).pc.inside := ht.elim And.left fun timed => Pc.timed_inside timed.1
  obtain ⟨isPolling, hp, hPark⟩ := settled.blocked t hInside
  obtain ⟨-, hHolds | hRetries⟩ | ⟨-, times⟩ := ht
  · have hInactive : (s.threads t).Inactive := .inr ⟨isPolling, hp, hPark⟩
    exact (hInactive.not_attends (ok t) (staffed t) (.inl hHolds)).elim
  · simp [hp, Pc.retries] at hRetries
  · exact ⟨t, isPolling, hp, hPark, times⟩

omit [DecidableEq T] [Fintype T] in
theorem Minding.holds {W : Nat} {s : State T} {e : Event T} (minding : Minding W s e) :
    CounterHolds W s e := by
  cases e with
  | step t => exact minding.1
  | choose t choice => trivial
  | blockOn t => trivial
  | wake t => trivial
  | tick milliseconds => trivial

/-- In every run whose steps keep to the conditions no timer is orphaned. -/
theorem timers_minded (W maxThreads : Nat) (hW : 1 < W) (steps : List (State T × Event T))
    (s : State T) (run : (system T W maxThreads).Run steps s) (minding : Meets (Minding W) steps) :
    Timed W s := by
  suffices h : Minded W s ∧ ∀ t, (s.threads t).pc.live from
    h.1.timed (accounts_reachable run.reachable).ok (staffed_reachable run.reachable)
  induction run with
  | refl => exact ⟨fun i _ deadline hMem => by simp [system] at hMem, fun _ => rfl⟩
  | @step steps u v e prior last ih =>
      rw [meets_append, meets_singleton] at minding
      obtain ⟨minded, hLive⟩ := ih minding.1
      have reachable := System.Run.reachable prior
      have hReached : (system T W maxThreads).Reachable v := ⟨_, prior.step last⟩
      have inv := inv_reachable (by omega) reachable
      have cleared := flagCleared_reachable reachable e
      have hLive' := inv.live_next hLive minding.2.holds cleared last
      exact ⟨minded.next inv (shape_reachable reachable) cleared minding.2
        ((accounts_reachable hReached).polls_idle (single_reachable hReached)
          (shape_reachable hReached) hLive' hW) last, hLive'⟩

instance (W : Nat) (s : State T) : (e : Event T) → Decidable (Minding W s e)
  | .step t => decidable_of_iff (CounterHolds W s (.step t) ∧
      ∀ line ∈ (s.threads t).pc.putsBack, ∀ i ∈ List.range W, ∀ deadline ∈ s.timers i,
        ({ s.threads t with pc := line } : Thread T).Minds W deadline ∨
          ∃ u, u ≠ t ∧ (s.threads u).Minds W deadline) (by simp [Minding])
  | .choose _ choice => inferInstanceAs (Decidable
      (∀ deadline ∈ choice.sets, s.clock < deadline → ∃ u, (s.threads u).Minds W deadline))
  | .blockOn _ | .wake _ | .tick _ => .isTrue trivial

/-- A call of `block_on` sets a timer with its worker and parks until then. -/
theorem timers_minded_parked : ∃ steps s, (system (Fin 1) 2 4).Run steps s ∧
    ((s.threads 0).pc, (s.threads 0).timeout, s.timers 1) = (.parked false, some 5, [5]) ∧
    Timed 2 s := by
  let events : List (Event (Fin 1)) :=
    [.blockOn 0, .step 0, .step 0, .step 0, .step 0, .step 0, .step 0, .step 0,
      .choose 0 .poll, .choose 0 (.sleep 1 5), .choose 0 .pending, .step 0,
      .choose 0 .next, .step 0, .step 0, .choose 0 .next, .step 0, .step 0, .step 0, .step 0,
      .step 0, .step 0, .step 0, .step 0, .step 0, .step 0, .step 0]
  obtain ⟨s, run, hs⟩ := (system (Fin 1) 2 4).exists_run_of_replay events
    (fun s => ((s.threads 0).pc, (s.threads 0).timeout, s.timers 1)) (.parked false, some 5, [5])
    (by decide)
  have minding : ∀ x ∈ (system (Fin 1) 2 4).trace (system (Fin 1) 2 4).initial events,
      Minding 2 x.1 x.2 := by decide
  exact ⟨_, s, run, hs, timers_minded 2 4 (by decide) _ s run minding⟩

/-- A call of `block_on` without a worker sets a timer in the queue of another and parks
without a timeout. -/
theorem awayFromWorker_orphans : ¬∀ W maxThreads, 1 < W → ∀ s,
    (system (Fin 1) W maxThreads).Reachable s → Timed W s := by
  intro h
  obtain ⟨s, run, hs⟩ := (system (Fin 1) 2 4).exists_run_of_replay
    [.blockOn 0, .step 0, .step 0, .step 0, .step 0, .step 0, .step 0, .step 0,
      .choose 0 .poll, .choose 0 .pending, .step 0, .choose 0 .next, .step 0, .step 0,
      .choose 0 .next, .step 0, .step 0, .step 0, .step 0, .step 0, .step 0, .step 0, .step 0,
      .step 0, .step 0, .step 0,
      .wake 0, .choose 0 (.wake 0), .step 0, .step 0, .step 0, .step 0, .step 0,
      .choose 0 .poll, .choose 0 (.sleep 1 5), .choose 0 .pending, .step 0,
      .step 0, .step 0, .step 0, .step 0, .step 0]
    (fun s => (s.threads 0, s.timers 1))
    (⟨.parked false, none, false, false, .waiting, none, none, false⟩, [5]) (by decide)
  obtain ⟨hThread, hTimers⟩ := Prod.ext_iff.mp hs
  simp only at hThread hTimers
  have settled : Settled s := by
    refine ⟨fun t _ => ⟨false, ?_⟩, fun t i u next hp => ?_⟩ <;> fin_cases t
    · simp [hThread, ParkState.parked]
    · simp [hThread] at hp
  obtain ⟨t, -, -, -, now, hNow, -⟩ := h 2 4 (by decide) s run.reachable settled 1 (by decide) 5
    (by rw [hTimers]; rfl)
  fin_cases t
  simp [hThread] at hNow

end Yaar.Runtime.Executor
