import Yaar.Runtime.ExecutorNetwork
import Yaar.Runtime.ExecutorSearching

/-! Who takes the runnables of the injector and of the run queues. -/
namespace Yaar.Runtime.Executor

open Machine

variable {T : Type*}

/-- The lines on the way from a recheck of the injector to a worker. -/
def Pc.rechecks : Pc T → Bool
  | .retryLoad _ | .retryPop _ | .failCheck _ => true
  | _ => false

/-- The lines of `inject` and `notify` before the counter is raised. -/
def Pc.notifies : Pc T → Bool
  | .push _ _ | .notifyLoad _ | .notifySearching _ | .notifySwap _ => true
  | _ => false

/-- A thread that has a worker or a unit of the searching counter, or that looks
whether one is needed. -/
def Thread.Attends (W : Nat) (th : Thread T) : Prop :=
  (∃ i, i < W ∧ 0 < th.holds i) ∨ 0 < th.tokens ∨ th.pc.rechecks ∨ th.pc.notifies

instance (W : Nat) (th : Thread T) : Decidable (th.Attends W) :=
  inferInstanceAs (Decidable ((∃ i, i < W ∧ 0 < th.holds i) ∨ _))

/-- The lines after which the worker's own queue is not looked at again. -/
def Pc.drained : Pc T → Bool
  | .beginLoad | .beginAdd | .beginAdded _ | .search | .giveBack _ | .lockPut _ _
  | .swapPut _ _ => true
  | .expire _ next | .pollIo next | .lockIo next | .polling next => next.drained
  | _ => false

/-- A thread that is to look at the run queue of its worker. -/
def Thread.Serves (i : Nat) (th : Thread T) : Prop :=
  th.worker = some i ∧ th.pc.drained = false

/-- The lines that push a worker to the idle queue. -/
def Pc.pushes : Pc T → Bool
  | .failPush _ _ _ | .notifyPush _ _ => true
  | _ => false

/-- The line after a worker or a unit of the counter is let go of with no look at
the injector. -/
def Pc.letsGo : Pc T → Option (Pc T)
  | .failPush _ false ended => some (if ended then .leave else .waitFirst)
  | .notifySub next => some next
  | _ => none

/-- A line that `notify` returns to is before the look at the worker's own queue. -/
theorem Pc.Returned.drained {pc : Pc T} (h : pc.Returned) : pc.drained = false := by
  cases pc <;> simp_all [Pc.Returned, Pc.drained]

/-- A thread with a unit attends, whether or not it has a worker. -/
theorem Thread.Attends.of_tokens {W : Nat} {th : Thread T} (h : 0 < th.tokens) : th.Attends W :=
  .inr (.inl h)

/-- What other threads do to a thread leaves it attending. A notification may bring it a
worker only. -/
theorem Thread.Reacts.attends {W : Nat} {th th' : Thread T} (h : th.Reacts th')
    (attends : th.Attends W) : th'.Attends W := by
  cases h with
  | same => exact attends
  | notified workerIndex hPark =>
      have hGiven : givenTokens th.park ≤ givenTokens (.notified workerIndex) ∧
          ∀ i, given i th.park ≤ given i (.notified workerIndex) := by
        unfold ParkState.unpark at hPark
        split at hPark <;> simp_all [givenTokens, given, held]
      obtain ⟨i, hi, hHolds⟩ | hTokens | hLine := attends
      · refine .inl ⟨i, hi, ?_⟩
        have hLe := hGiven.2 i
        simp only [Thread.holds] at hHolds ⊢
        omega
      · refine .inr (.inl ?_)
        have hLe := hGiven.1
        simp only [Thread.tokens] at hTokens ⊢
        omega
      · exact .inr (.inr hLine)
  | started i hOutside =>
      exact .of_tokens (by simp [Thread.tokens, Pc.tokens])

theorem Thread.Reacts.serves {th th' : Thread T} {i : Nat} (h : th.Reacts th') (ok : th.Ok)
    (serves : th.Serves i) : th'.Serves i := by
  cases h with
  | same => exact serves
  | notified workerIndex => exact serves
  | started j hOutside =>
      rw [Thread.Ok, hOutside] at ok
      simp [Thread.Serves, ok.1] at serves

/-- What a step of the executor takes from the state that all threads share. -/
structure Spends (s s' : State T) (pc : Pc T) : Prop where
  searching : s.searching ≤ s'.searching ∨ pc.subtracts
  idle : (∀ i, s'.idle.count i ≤ s.idle.count i) ∨ pc.pushes
  injector : s'.injector ≤ s.injector ∨ pc.notifies
  queues : ∀ i, s'.queues i ≤ s.queues i
  timers : s'.timers = s.timers

theorem Spends.same {s s' : State T} {pc : Pc T} (hSearching : s'.searching = s.searching)
    (hIdle : s'.idle = s.idle) (hInjector : s'.injector = s.injector)
    (hQueues : s'.queues = s.queues) (hTimers : s'.timers = s.timers) : Spends s s' pc :=
  ⟨.inl hSearching.ge, .inl fun _ => by rw [hIdle], .inl hInjector.le, fun _ => by rw [hQueues],
    hTimers⟩

/-- Some thread attends to the injector. -/
def Attended (W : Nat) (s : State T) : Prop := ∃ t, (s.threads t).Attends W

variable [DecidableEq T]

/-- A pop takes one worker from the idle queue and nothing else. -/
theorem spends_popIdle {s : State T} {t : T} {none pc : Pc T} {some : Nat → Pc T} :
    Spends s (s.popIdle t none some) pc := by
  unfold State.popIdle
  split
  · exact .same rfl rfl rfl rfl rfl
  · next hIdle => exact ⟨.inl le_rfl, .inl fun _ => Nat.zero_le _, .inl le_rfl, fun _ => le_rfl, rfl⟩
  · next hIdle =>
      refine ⟨.inl le_rfl, .inl fun i => ?_, .inl le_rfl, fun _ => le_rfl, rfl⟩
      rw [hIdle]
      exact List.count_le_count_cons

/-- A step spends a unit, a worker or a runnable only at the lines that do so by their
names. -/
theorem spends_step {W maxThreads : Nat} {s s' : State T} {t : T}
    (h : step W maxThreads s t = some s') : Spends s s' (s.threads t).pc := by
  cases hp : (s.threads t).pc <;> simp only [step, hp, reduceCtorEq] at h
  case retryPop | notifyPop =>
    obtain rfl := Option.some.inj h
    exact spends_popIdle
  case waitFirst | waitThird | unwrapUnparked =>
    obtain rfl := Option.some.inj h
    rw [(pollUnparked_eq s t _ _ _).choose_spec]
    exact .same rfl rfl rfl rfl rfl
  case waitLocked =>
    split at h
    · obtain rfl := Option.some.inj h
      rw [(pollUnparked_eq s t _ _ _).choose_spec]
      exact .same rfl rfl rfl rfl rfl
    · obtain rfl := Option.some.inj h
      exact .same rfl rfl rfl rfl rfl
  case ownTimers =>
    obtain ⟨i, _, rfl⟩ := Option.map_eq_some_iff.mp h
    rw [(pollTimers_eq s t i .popLocal).choose_spec]
    exact .same rfl rfl rfl rfl rfl
  case popLocal =>
    obtain ⟨i, _, rfl⟩ := Option.map_eq_some_iff.mp h
    split
    · refine ⟨.inl le_rfl, .inl fun _ => le_rfl, .inl le_rfl, fun j => ?_, rfl⟩
      simp only [State.goto, State.setThread, Function.update_apply]
      split
      · next hEq =>
          rw [hEq]
          exact Nat.sub_le _ _
      · exact le_rfl
    · exact .same rfl rfl rfl rfl rfl
  case giveBack =>
    obtain ⟨i, _, rfl⟩ := Option.map_eq_some_iff.mp h
    split <;> exact .same rfl rfl rfl rfl rfl
  case failPush i wasSearching ended =>
    obtain rfl := Option.some.inj h
    split <;> exact ⟨.inl le_rfl, .inr rfl, .inl le_rfl, fun _ => le_rfl, rfl⟩
  case notifyPush =>
    obtain rfl := Option.some.inj h
    exact ⟨.inl le_rfl, .inr rfl, .inl le_rfl, fun _ => le_rfl, rfl⟩
  case failSub | discover | notifySub =>
    obtain rfl := Option.some.inj h
    exact ⟨.inr rfl, .inl fun _ => le_rfl, .inl le_rfl, fun _ => le_rfl, rfl⟩
  case retryAdd | beginAdd =>
    obtain rfl := Option.some.inj h
    exact ⟨.inl (Nat.le_succ _), .inl fun _ => le_rfl, .inl le_rfl, fun _ => le_rfl, rfl⟩
  case push ready next =>
    split at h <;> obtain rfl := Option.some.inj h <;>
      exact ⟨.inl le_rfl, .inl fun _ => le_rfl, .inr rfl, fun _ => le_rfl, rfl⟩
  case notifySwap next =>
    split at h
    · next hZero =>
        obtain rfl := Option.some.inj h
        exact ⟨.inl (by simp [State.goto, State.setThread, hZero]), .inl fun _ => le_rfl,
          .inl le_rfl, fun _ => le_rfl, rfl⟩
    · obtain rfl := Option.some.inj h
      exact .same rfl rfl rfl rfl rfl
  case unpark i u next =>
    obtain rfl := Option.some.inj h
    unfold State.unpark
    split <;> exact .same rfl rfl rfl rfl rfl
  case lockTake | lockPut =>
    obtain rfl := Option.some.inj h
    unfold State.lockProducer
    split <;> exact .same rfl rfl rfl rfl rfl
  case spawn | swapParked | swapEmpty =>
    repeat' split at h
    all_goals
      obtain rfl := Option.some.inj h
      exact .same rfl rfl rfl rfl rfl
  all_goals
    obtain rfl := Option.some.inj h
    (try split) <;> exact .same rfl rfl rfl rfl rfl

theorem injector_choose {W : Nat} {s s' : State T} {t : T} {choice : Choice T}
    (h : choose W s t choice = some s') : s'.injector ≤ s.injector ∧ s'.idle = s.idle := by
  simp only [choose] at h
  split at h
  case h_6 | h_7 | h_8 =>
    obtain rfl := Option.some.inj h
    unfold State.schedule
    split <;> exact ⟨le_rfl, rfl⟩
  case h_9 | h_10 | h_11 | h_17 | h_18 | h_19 | h_30 | h_33 =>
    split at h
    · obtain rfl := Option.some.inj h
      exact ⟨le_rfl, rfl⟩
    · simp at h
  case h_23 | h_24 | h_26 =>
    obtain ⟨i, _, h⟩ := Option.bind_eq_some_iff.mp h
    split at h
    · obtain rfl := Option.some.inj h
      exact ⟨by simp [State.goto, State.setThread], rfl⟩
    · simp at h
  case h_27 =>
    split at h
    · obtain rfl := Option.some.inj h
      rw [(pollTimers_eq s t _ .search).choose_spec]
      exact ⟨le_rfl, rfl⟩
    · simp at h
  case h_34 => simp at h
  all_goals
    obtain rfl := Option.some.inj h
    exact ⟨le_rfl, rfl⟩

/-- A worker or a unit of the counter that is not let go of stays. -/
theorem Moves.attends {W : Nat} {s s' : State T} {t : T} {th : Thread T} (moves : Moves s s' t th)
    (hSearching : s.searching ≤ s'.searching) (hIdle : ∀ i, s'.idle.count i ≤ s.idle.count i)
    (has : (∃ i, i < W ∧ 0 < (s.threads t).holds i) ∨ 0 < (s.threads t).tokens) :
    (s'.threads t).Attends W := by
  rw [moves.threads, Function.update_self]
  obtain ⟨i, hi, hHolds⟩ | hTokens := has
  · have hMoves := moves.holds i
    have hLe := hIdle i
    exact .inl ⟨i, hi, by omega⟩
  · have hMoves := moves.tokens
    exact .of_tokens (by omega)

/-- A thread that goes to a line attends, if the line does so. -/
theorem attends_goto {W : Nat} {s : State T} {t : T} {pc : Pc T}
    (h : ({ s.threads t with pc := pc } : Thread T).Attends W) :
    ((s.goto t pc).threads t).Attends W := by
  rwa [goto_self]

variable [Fintype T]

omit [DecidableEq T] in
/-- If the counter is not 0 some thread has a unit and attends. -/
theorem Accounts.attended_searching {W : Nat} {s : State T} (accounts : Accounts W s)
    (h : 0 < s.searching) : Attended W s := by
  rw [accounts.tokens] at h
  obtain ⟨t, ht⟩ := Tally.exists_of_total_pos h
  exact ⟨t, .of_tokens ht⟩

omit [DecidableEq T] in
/-- While no worker is idle, threads have them all. -/
theorem Accounts.attended_idle {W : Nat} {s : State T} (accounts : Accounts W s) (hW : 0 < W)
    (h : s.idle = []) : Attended W s := by
  have hHolds := accounts.holds 0
  rw [if_pos hW, h, List.count_nil, Nat.zero_add] at hHolds
  obtain ⟨t, ht⟩ := Tally.exists_of_total_pos (hHolds ▸ Nat.one_pos)
  exact ⟨t, .inl ⟨0, hW, ht⟩⟩

/-- What a step has to keep to: the bounds of the searching counter, a worker that
`block_on` gives back when it returns has an empty run queue, and where a worker or a
unit is let go of with the injector not empty, a thread still attends to it. -/
def Attending (W : Nat) (s : State T) : Event T → Prop
  | .step t => CounterHolds W s (.step t) ∧
      ((s.threads t).pc = .ending → ∀ i ∈ (s.threads t).worker, s.queues i = 0) ∧
      ∀ line ∈ (s.threads t).pc.letsGo, s.injector = 0 ∨
        ({ s.threads t with pc := line } : Thread T).Attends W ∨
        ∃ u, u ≠ t ∧ (s.threads u).Attends W
  | _ => True

omit [Fintype T] [DecidableEq T] in
/-- The flag of the idle queue is exact, so where it is clear the queue is empty. -/
theorem Bounds.idle_empty {maxThreads : Nat} {s : State T} (bounds : Bounds maxThreads s)
    (h : s.pending = false) : s.idle = [] := by
  simpa [bounds.pending] using h

omit [Fintype T] in
/-- An `unpark` hands the worker over to a thread that attends from then on. -/
theorem attended_unpark {W : Nat} {s : State T} {t u : T} {i : Nat} {next : Pc T} (hi : i < W)
    (ok : (s.threads u).Ok) (hp : (s.threads t).pc = .unpark i u next) :
    Attended W (s.unpark t u i next) := by
  unfold State.unpark
  split
  · refine ⟨t, attends_goto (.inl ⟨i, hi, ?_⟩)⟩
    simp [Thread.holds, Pc.holds]
  · next park hPark =>
      obtain ⟨rfl, -, hLine⟩ := ok_unparked ok hPark
      have hNe : u ≠ t := by
        rintro rfl
        simp [hp] at hLine
      refine ⟨u, .inl ⟨i, hi, ?_⟩⟩
      simp [State.goto, State.setThread, Function.update_of_ne hNe, Thread.holds, given, held]

/-- Where the last unit goes the injector is looked at again. -/
theorem attended_failSub {W : Nat} {s : State T} {t : T} {ended : Bool} {other panic : Pc T}
    (accounts : Accounts W (s.fetchSub W t (.failCheck ended) other panic))
    (hSome : 0 < s.searching) (hBound : s.searching ≤ W) :
    Attended W (s.fetchSub W t (.failCheck ended) other panic) := by
  by_cases hLast : s.searching = 1
  · refine ⟨t, ?_⟩
    simp only [State.fetchSub]
    rw [if_neg (by omega), if_pos hLast]
    exact attends_goto (.inr (.inr (.inl rfl)))
  · refine accounts.attended_searching ?_
    simp only [State.fetchSub, State.goto, State.setThread]
    omega

/-- A thread goes on to the line after it has let go of a worker or a unit. -/
theorem letsGo_step {W maxThreads : Nat} {s s' : State T} {t : T} {line : Pc T}
    (inv : Inv W maxThreads s) (hBounded : CounterHolds W s (.step t))
    (hLine : (s.threads t).pc.letsGo = some line) (h : step W maxThreads s t = some s') :
    s'.injector = s.injector ∧ s'.threads t = { s.threads t with pc := line } := by
  have hTokens := inv.accounts.le_searching t
  simp only [CounterHolds, Thread.tokens] at hBounded hTokens
  cases hp : (s.threads t).pc <;> simp only [hp, Pc.letsGo, reduceCtorEq] at hLine <;>
    simp only [hp, Pc.Bounded, Pc.tokens, decide_eq_true_eq] at hBounded hTokens <;>
    simp only [step, hp] at h
  case failPush i wasSearching ended =>
    have hi : i < W := inv.accounts.lt_of_holds (t := t) (by simp [Thread.holds, hp, Pc.holds])
    obtain rfl := Option.some.inj h
    rw [if_neg (by omega)]
    cases wasSearching <;> simp only [Option.some.injEq, reduceCtorEq] at hLine
    subst hLine
    exact ⟨rfl, goto_self _ t _⟩
  case notifySub next =>
    obtain rfl := Option.some.inj hLine
    obtain rfl := Option.some.inj h
    refine ⟨rfl, ?_⟩
    simp only [State.fetchSub, goto_self]
    rw [if_neg (by omega), ite_self]

/-- Where a worker or a unit is let go of, the step is one that the run has to answer
for. -/
theorem attended_letsGo {W maxThreads : Nat} {s s' : State T} {t : T} {line : Pc T}
    (inv : Inv W maxThreads s) (attending : Attending W s (.step t))
    (hLine : (s.threads t).pc.letsGo = some line) (h : step W maxThreads s t = some s') :
    s'.injector = 0 ∨ Attended W s' := by
  obtain ⟨hInjector, hThread⟩ := letsGo_step inv attending.1 hLine h
  obtain hEmpty | hSelf | ⟨u, hNe, hu⟩ := attending.2.2 line hLine
  · exact .inl (hInjector.trans hEmpty)
  · exact .inr ⟨t, hThread ▸ hSelf⟩
  · exact .inr ⟨u, (inv.accounts.reacts_step hNe h).attends hu⟩

/-- A thread that attends still does so after its step, or another does, or the injector
has been emptied. It looks at the injector once more before it gives up its last unit. -/
theorem attended_step {W maxThreads : Nat} {s s' : State T} {t : T} (hW : 0 < W)
    (inv : Inv W maxThreads s) (staffed : (s.threads t).Staffed)
    (attending : Attending W s (.step t)) (attends : (s.threads t).Attends W) (h : step W maxThreads s t = some s') :
    s'.injector = 0 ∨ Attended W s' := by
  have accounts : Accounts W s' := inv.accounts.next (e := .step t) h
  have hBounded := attending.1
  have hOk := inv.accounts.ok t
  have hTokens := inv.accounts.le_searching t
  unfold Thread.Ok at hOk
  cases hp : (s.threads t).pc <;>
    simp only [hp, CounterHolds, Pc.Bounded, Pc.Ok, Pc.tokens, Thread.tokens] at hBounded hOk hTokens
  case unpark i u next =>
    have hi : i < W := inv.accounts.lt_of_holds (t := t) (by simp [Thread.holds, hp, Pc.holds])
    simp only [step, hp] at h
    obtain rfl := Option.some.inj h
    exact .inr (attended_unpark hi (inv.accounts.ok u) hp)
  case retryLoad caller =>
    simp only [step, hp] at h
    obtain rfl := Option.some.inj h
    by_cases hPending : s.pending = true
    · rw [if_pos hPending]
      exact .inr ⟨t, attends_goto (.inr (.inr (.inl rfl)))⟩
    · exact .inr (accounts.attended_idle hW (inv.bounds.idle_empty (by simpa using hPending)))
  case retryPop caller =>
    simp only [step, hp] at h
    obtain rfl := Option.some.inj h
    cases hIdle : s.idle with
    | nil =>
        refine .inr (accounts.attended_idle hW ?_)
        simp [State.popIdle, hIdle, State.goto, State.setThread]
    | cons i rest =>
        have hHolds : 0 < ((s.popIdle t caller.none (.retryAdd caller)).threads t).holds i := by
          cases rest <;> simp [State.popIdle, hIdle, Thread.holds, Pc.holds]
        exact .inr ⟨t, .inl ⟨i, accounts.lt_of_holds hHolds, hHolds⟩⟩
  case failCheck ended =>
    simp only [step, hp] at h
    obtain rfl := Option.some.inj h
    split
    · refine .inr ⟨t, attends_goto ?_⟩
      cases ended
      · exact .inr (.inr (.inl rfl))
      · exact .inr (.inr (.inr rfl))
    · next hEmpty => exact .inl (Nat.eq_zero_of_not_pos hEmpty)
  case push ready next =>
    simp only [step, hp] at h
    split at h <;> obtain rfl := Option.some.inj h <;>
      exact .inr ⟨t, attends_goto (.inr (.inr (.inr rfl)))⟩
  case notifyLoad next =>
    simp only [step, hp] at h
    obtain rfl := Option.some.inj h
    by_cases hPending : s.pending = true
    · rw [if_pos hPending]
      exact .inr ⟨t, attends_goto (.inr (.inr (.inr rfl)))⟩
    · exact .inr (accounts.attended_idle hW (inv.bounds.idle_empty (by simpa using hPending)))
  case notifySearching next =>
    simp only [step, hp] at h
    obtain rfl := Option.some.inj h
    by_cases hSome : 0 < s.searching
    · exact .inr (accounts.attended_searching hSome)
    · rw [if_neg (by omega), if_neg hSome]
      exact .inr ⟨t, attends_goto (.inr (.inr (.inr rfl)))⟩
  case notifySwap next =>
    refine .inr (accounts.attended_searching ?_)
    simp only [step, hp] at h
    split at h
    · obtain rfl := Option.some.inj h
      exact Nat.one_pos
    · next hSome =>
        obtain rfl := Option.some.inj h
        exact Nat.pos_of_ne_zero hSome
  case failPush i wasSearching ended =>
    have hi : i < W := inv.accounts.lt_of_holds (t := t) (by simp [Thread.holds, hp, Pc.holds])
    cases wasSearching
    · exact attended_letsGo inv attending (by rw [hp]; rfl) h
    · simp only [step, hp] at h
      obtain rfl := Option.some.inj h
      rw [if_neg (by omega)]
      exact .inr ⟨t, attends_goto (.of_tokens (by simp [Thread.tokens, Pc.tokens]))⟩
  case failSub ended =>
    simp only [step, hp] at h
    obtain rfl := Option.some.inj h
    exact .inr (attended_failSub accounts (by omega) (by simpa using hBounded))
  case discover next =>
    have hSome : (s.threads t).worker ≠ none := fun hNone => by
      simpa [hp, Pc.retires] using staffed.retires hNone
    obtain ⟨i, hWorker⟩ := Option.ne_none_iff_exists'.mp hSome
    simp only [step, hp] at h
    obtain rfl := Option.some.inj h
    have hHolds : 0 < ((s.fetchSub W t (.notifyLoad next) next next).threads t).holds i :=
      Thread.holds_worker (by simp [State.fetchSub, hWorker])
    exact .inr ⟨t, .inl ⟨i, accounts.lt_of_holds hHolds, hHolds⟩⟩
  case notifyPush i next =>
    simp only [step, hp] at h
    obtain rfl := Option.some.inj h
    exact .inr ⟨t, attends_goto (.of_tokens (by simp [Thread.tokens, Pc.tokens]))⟩
  case notifySub next => exact attended_letsGo inv attending (by rw [hp]; rfl) h
  all_goals
    have hUnpark : ∀ i u next, (s.threads t).pc ≠ .unpark i u next := by simp [hp]
    obtain ⟨th, moves⟩ := moves_step (inv.accounts.ok t) (inv.accounts.le_searching t) hUnpark h
    have spends := spends_step h
    rw [hp] at spends
    refine .inr ⟨t, moves.attends (spends.searching.resolve_right (by simp [Pc.subtracts]))
      (spends.idle.resolve_right (by simp [Pc.pushes])) ?_⟩
    simpa [Thread.Attends, hp, Pc.rechecks, Pc.notifies] using attends

/-- While the injector is not empty a step leaves it attended. Whoever pushes to it goes
on to `notify`. -/
theorem Attended.step {W maxThreads : Nat} {s s' : State T} {t : T} (hW : 0 < W)
    (inv : Inv W maxThreads s) (staffed : (s.threads t).Staffed)
    (attending : Attending W s (.step t)) (attended : 0 < s.injector → Attended W s) (h : step W maxThreads s t = some s')
    (hSome : 0 < s'.injector) : Attended W s' := by
  have hHere : (s.threads t).Attends W → Attended W s' := fun attends =>
    (attended_step hW inv staffed attending attends h).resolve_left hSome.ne'
  obtain hLe | hNotifies := (spends_step h).injector
  · obtain ⟨u, hu⟩ := attended (by omega)
    by_cases hEq : u = t
    · exact hHere (hEq ▸ hu)
    · exact ⟨u, (inv.accounts.reacts_step hEq h).attends hu⟩
  · exact hHere (.inr (.inr (.inr hNotifies)))

theorem Attended.choose {W : Nat} {s s' : State T} {t : T} {choice : Choice T}
    (accounts : Accounts W s) (attended : 0 < s.injector → Attended W s)
    (h : choose W s t choice = some s') (hSome : 0 < s'.injector) : Attended W s' := by
  by_cases hCreate : ∃ v, choice = .create v
  · obtain ⟨v, rfl⟩ := hCreate
    cases hp : (s.threads t).pc
    case create i next =>
      simp only [Executor.choose, hp] at h
      split at h
      · next hOutside =>
          obtain rfl := Option.some.inj h
          have hNe : v ≠ t := by
            rintro rfl
            simp [hp] at hOutside
          refine ⟨v, .of_tokens ?_⟩
          simp [State.goto, State.setThread, Function.update_of_ne hNe, Thread.tokens, Pc.tokens]
      · simp at h
    all_goals simp [Executor.choose, hp] at h
  · push Not at hCreate
    obtain ⟨hInjector, hIdle⟩ := injector_choose h
    obtain ⟨u, hu⟩ := attended (by omega)
    by_cases hEq : u = t
    · subst hEq
      obtain ⟨th, moves⟩ := moves_choose (accounts.ok u) hCreate h
      refine ⟨u, moves.attends (searching_choose h).ge (fun _ => by rw [hIdle]) ?_⟩
      have hLine : (s.threads u).pc.rechecks = false ∧ (s.threads u).pc.notifies = false := by
        cases hp : (s.threads u).pc <;> first | exact ⟨rfl, rfl⟩ | simp [Executor.choose, hp] at h
      simpa [Thread.Attends, hLine.1, hLine.2] using hu
    · exact ⟨u, (accounts.reacts_choose hEq h).attends hu⟩

omit [Fintype T] in
/-- A thread that keeps its worker serves its queue up to the line where that has been
found empty. -/
theorem serves_goto {s : State T} {t : T} {pc : Pc T} {i : Nat}
    (hWorker : (s.threads t).worker = some i) (hDrained : pc.drained = false) :
    ((s.goto t pc).threads t).Serves i := by
  simp [Thread.Serves, hWorker, hDrained]

omit [Fintype T] in
/-- A thread looks at the queue of its worker until that is empty. -/
theorem serves_step {W maxThreads : Nat} {s s' : State T} {t : T} {i : Nat} (ok : (s.threads t).Ok)
    (shape : (s.threads t).pc.Shape)
    (hEnding : (s.threads t).pc = .ending → ∀ i ∈ (s.threads t).worker, s.queues i = 0)
    (serves : (s.threads t).Serves i) (h : step W maxThreads s t = some s') :
    s'.queues i = 0 ∨ (s'.threads t).Serves i := by
  obtain ⟨hWorker, hDrained⟩ := serves
  unfold Thread.Ok at ok
  cases hp : (s.threads t).pc <;> simp only [step, hp, reduceCtorEq] at h <;>
    simp only [hp, hWorker, Pc.Shape, Pc.Ok, reduceCtorEq, false_and, ne_eq, not_false_eq_true,
      true_and] at shape ok <;>
    simp only [hp, Pc.drained, reduceCtorEq] at hDrained
  case rest =>
    obtain rfl := Option.some.inj h
    rw [hWorker]
    exact .inr (serves_goto hWorker (by simp only [Option.isSome_some, if_true]; split <;> rfl))
  case pollIo next =>
    obtain rfl := Option.some.inj h
    exact .inr (serves_goto hWorker (by split <;> exact hDrained))
  case lockIo next =>
    obtain rfl := Option.some.inj h
    right
    split <;> exact serves_goto hWorker hDrained
  case lockTake =>
    obtain rfl := Option.some.inj h
    right
    unfold State.lockProducer
    split <;> exact serves_goto hWorker rfl
  case swapTake j next =>
    obtain rfl := Option.some.inj h
    right
    simp only [State.takeProducer]
    split
    · rcases shape with rfl | rfl <;> simp [Thread.Serves, hWorker, Pc.drained]
    · simp [Thread.Serves, hWorker, Pc.drained]
  case ownTimers =>
    obtain ⟨j, _, rfl⟩ := Option.map_eq_some_iff.mp h
    right
    unfold State.pollTimers
    split
    · exact serves_goto hWorker rfl
    · simp only
      split <;> simp [Thread.Serves, Thread.wait, hWorker, Pc.drained]
  case popLocal =>
    rw [hWorker] at h
    obtain rfl := Option.some.inj h
    by_cases hSome : 0 < s.queues i
    · simp only [if_pos hSome]
      exact .inr (serves_goto hWorker rfl)
    · simp only [if_neg hSome]
      exact .inl (Nat.eq_zero_of_not_pos hSome)
  case found | finish =>
    right
    split at h <;> obtain rfl := Option.some.inj h <;> simp [Thread.Serves, hWorker, Pc.drained]
  case ending =>
    obtain rfl := Option.some.inj h
    exact .inl (hEnding hp i hWorker)
  case discover next =>
    obtain rfl := Option.some.inj h
    refine .inr (serves_goto hWorker ?_)
    (repeat' split) <;> first | rfl | (rcases shape with rfl | rfl <;> rfl)
  case unpark j u next =>
    obtain rfl := Option.some.inj h
    right
    unfold State.unpark
    split
    · exact serves_goto hWorker rfl
    · refine serves_goto ?_ (Pc.Returned.drained shape)
      simp only [State.setThread, Function.update_apply]
      split
      · next hEq => rw [← hEq, hWorker]
      · exact hWorker
  case notifyPop next =>
    obtain rfl := Option.some.inj h
    right
    unfold State.popIdle
    split <;> exact serves_goto hWorker rfl
  case push | notifySwap | spawn =>
    right
    repeat' split at h
    all_goals
      obtain rfl := Option.some.inj h
      refine serves_goto hWorker ?_
      first | rfl | exact Pc.Returned.drained shape
  case dropGuard next => rcases shape with ⟨ready, rfl⟩ | ⟨j, ready, rfl⟩ <;> simp [Pc.Ok] at ok
  case notifyLoad | notifySearching | notifyPending | spawnFailed | notifyPush | notifySub =>
    obtain rfl := Option.some.inj h
    refine .inr (serves_goto hWorker ?_)
    (repeat' split) <;> first | rfl | exact Pc.Returned.drained shape

omit [Fintype T] in
/-- A choice keeps the worker in place, and a thread that schedules to its own queue
serves it again. -/
theorem serves_choose {W : Nat} {s s' : State T} {t : T} {choice : Choice T} {i : Nat}
    (shape : (s.threads t).pc.Shape)
    (serves : (s.threads t).Serves i) (h : choose W s t choice = some s') :
    (s'.threads t).Serves i := by
  have ⟨hWorker, hDrained⟩ := serves
  simp only [choose] at h
  split at h <;> rename_i hp <;>
    simp only [hp, Pc.drained, Pc.Shape, reduceCtorEq] at hDrained shape
  case h_6 | h_7 | h_8 =>
    obtain rfl := Option.some.inj h
    unfold State.schedule
    split <;> exact serves_goto hWorker rfl
  case h_9 | h_10 | h_11 | h_17 | h_18 | h_19 =>
    split at h
    · obtain rfl := Option.some.inj h
      exact serves
    · simp at h
  case h_12 | h_13 | h_14 | h_15 | h_16 =>
    obtain rfl := Option.some.inj h
    exact serves
  case h_22 next ready | h_29 next ready =>
    obtain rfl := Option.some.inj h
    refine serves_goto hWorker ?_
    rcases ready with _ | _ | ready
    · exact hDrained
    · rfl
    · rfl
  case h_23 =>
    obtain ⟨j, _, h⟩ := Option.bind_eq_some_iff.mp h
    split at h
    · obtain rfl := Option.some.inj h
      exact serves_goto hWorker rfl
    · simp at h
  case h_30 j next u =>
    split at h
    · next hOutside =>
        obtain rfl := Option.some.inj h
        have hNe : t ≠ u := by
          rintro rfl
          simp [hp] at hOutside
        exact serves_goto (by simp [State.setThread, Function.update_of_ne hNe, hWorker])
          (Pc.Returned.drained shape)
    · simp at h
  case h_31 =>
    obtain rfl := Option.some.inj h
    exact serves_goto hWorker rfl
  case h_33 =>
    split at h
    · obtain rfl := Option.some.inj h
      exact serves_goto hWorker rfl
    · simp at h
  case h_34 => simp at h
  all_goals
    obtain rfl := Option.some.inj h
    simp [Thread.Serves, State.goto, hWorker, hp, Pc.drained]

omit [Fintype T] in
/-- What gets into a run queue, the thread that has the worker takes out. -/
theorem queues_choose {W : Nat} {s s' : State T} {t : T} {choice : Choice T} {i : Nat}
    (h : choose W s t choice = some s') : s'.queues i ≤ s.queues i ∨ (s'.threads t).Serves i := by
  simp only [choose] at h
  split at h <;> rename_i hp
  case h_6 | h_7 | h_8 =>
    obtain rfl := Option.some.inj h
    unfold State.schedule
    split
    · next j hProduces =>
        by_cases hEq : i = j
        · subst hEq
          refine .inr (serves_goto ?_ rfl)
          unfold Thread.produces at hProduces
          split at hProduces
          · exact hProduces
          · simp at hProduces
        · exact .inl (by simp [State.goto, State.setThread, Function.update_of_ne hEq])
    · exact .inl le_rfl
  case h_9 | h_10 | h_11 | h_17 | h_18 | h_19 | h_30 | h_33 =>
    split at h
    · obtain rfl := Option.some.inj h
      exact .inl le_rfl
    · simp at h
  case h_23 | h_24 =>
    obtain ⟨j, hWorker, h⟩ := Option.bind_eq_some_iff.mp h
    split at h
    · obtain rfl := Option.some.inj h
      by_cases hEq : i = j
      · exact .inr (serves_goto (hEq ▸ hWorker) rfl)
      · exact .inl (by simp [State.goto, State.setThread, Function.update_of_ne hEq])
    · simp at h
  case h_26 queue batch =>
    obtain ⟨j, hWorker, h⟩ := Option.bind_eq_some_iff.mp h
    split at h
    · obtain rfl := Option.some.inj h
      by_cases hEq : i = j
      · exact .inr (serves_goto (hEq ▸ hWorker) rfl)
      · refine .inl ?_
        simp only [State.goto, State.setThread, Function.update_of_ne hEq, Function.update_apply]
        split
        · next hQueue =>
            rw [hQueue]
            exact Nat.sub_le _ _
        · exact le_rfl
    · simp at h
  case h_27 =>
    split at h
    · obtain rfl := Option.some.inj h
      rw [(pollTimers_eq s t _ .search).choose_spec]
      exact .inl le_rfl
    · simp at h
  case h_34 => simp at h
  all_goals
    obtain rfl := Option.some.inj h
    exact .inl le_rfl

/-- A thread attends to the injector while it is not empty, and one serves each run
queue that is not. -/
structure Tended (W : Nat) (s : State T) : Prop where
  injector : 0 < s.injector → Attended W s
  queues : ∀ i, 0 < s.queues i → ∃ t, (s.threads t).Serves i

/-- A step keeps the runnables tended. A queue is served by the thread that has its
worker, and is empty when that gives it back. -/
theorem Tended.step {W maxThreads : Nat} {s s' : State T} {t : T} (tended : Tended W s) (hW : 0 < W)
    (inv : Inv W maxThreads s) (staffed : (s.threads t).Staffed) (shape : (s.threads t).pc.Shape)
    (attending : Attending W s (.step t)) (h : step W maxThreads s t = some s') : Tended W s' := by
  refine ⟨fun hSome => Attended.step hW inv staffed attending tended.injector h hSome, fun i hSome => ?_⟩
  obtain ⟨u, hu⟩ := tended.queues i (hSome.trans_le ((spends_step h).queues i))
  by_cases hEq : u = t
  · subst hEq
    exact ⟨u, (serves_step (inv.accounts.ok u) shape attending.2.1 hu h).resolve_left hSome.ne'⟩
  · exact ⟨u, (inv.accounts.reacts_step hEq h).serves (inv.accounts.ok u) hu⟩

theorem Tended.choose {W : Nat} {s s' : State T} {t : T} {choice : Choice T} (tended : Tended W s)
    (accounts : Accounts W s) (shape : (s.threads t).pc.Shape)
    (h : choose W s t choice = some s') : Tended W s' := by
  refine ⟨fun hSome => Attended.choose accounts tended.injector h hSome, fun i hSome => ?_⟩
  obtain hLe | hHere := queues_choose (i := i) h
  · obtain ⟨u, hu⟩ := tended.queues i (hSome.trans_le hLe)
    by_cases hEq : u = t
    · subst hEq
      exact ⟨u, serves_choose shape hu h⟩
    · exact ⟨u, (accounts.reacts_choose hEq h).serves (accounts.ok u) hu⟩
  · exact ⟨t, hHere⟩

theorem Tended.next {W maxThreads : Nat} {s s' : State T} {e : Event T} (tended : Tended W s)
    (hW : 0 < W) (inv : Inv W maxThreads s) (staffed : ∀ t, (s.threads t).Staffed)
    (shape : ∀ t, (s.threads t).pc.Shape) (attending : Attending W s e) (h : Executor.next W maxThreads s e = some s') : Tended W s' := by
  cases e with
  | step t => exact tended.step hW inv (staffed t) (shape t) attending h
  | choose t choice => exact tended.choose inv.accounts (shape t) h
  | blockOn t =>
      simp only [Executor.next] at h
      split at h
      · next hOutside =>
          obtain rfl := Option.some.inj h
          refine ⟨fun _ => ⟨t, attends_goto (.inr (.inr (.inl rfl)))⟩, fun i hSome => ?_⟩
          obtain ⟨u, hu⟩ := tended.queues i hSome
          have hNe : u ≠ t := by
            rintro rfl
            have hOk := inv.accounts.ok u
            rw [Thread.Ok, hOutside] at hOk
            simp [Thread.Serves, hOk.1] at hu
          exact ⟨u, by simpa [State.goto, State.setThread, Function.update_of_ne hNe] using hu⟩
      · simp at h
  | wake t =>
      simp only [Executor.next] at h
      split at h
      · simp at h
      · obtain ⟨park, hPark, rfl⟩ := Option.map_eq_some_iff.mp h
        have hReacts := reacts_wake hPark
        refine ⟨fun hSome => ?_, fun i hSome => ?_⟩
        · obtain ⟨u, hu⟩ := tended.injector hSome
          exact ⟨u, (hReacts u).attends hu⟩
        · obtain ⟨u, hu⟩ := tended.queues i hSome
          exact ⟨u, (hReacts u).serves (inv.accounts.ok u) hu⟩
  | tick milliseconds =>
      obtain rfl := Option.some.inj h
      exact ⟨tended.injector, tended.queues⟩

omit [DecidableEq T] [Fintype T] in
theorem Thread.Inactive.not_attends {W : Nat} {th : Thread T} (h : th.Inactive) (ok : th.Ok)
    (staffed : th.Staffed) : ¬th.Attends W := by
  have hTokens := h.tokens ok staffed
  unfold Thread.Ok at ok
  rintro (⟨i, -, hHolds⟩ | hSome | hLine | hLine)
  · obtain hp | ⟨isPolling, hp, hPark⟩ := h
    · rw [hp] at ok
      simp [Thread.holds, hp, Pc.holds, ok.1, held, ok.2.2.holds] at hHolds
    · rw [hp] at ok
      cases isPolling <;>
        simp [Thread.holds, hp, Pc.holds, ok.1, held, hPark, ParkState.parked, given] at hHolds
  · exact hSome.ne' hTokens
  · obtain hp | ⟨isPolling, hp, -⟩ := h <;> simp [hp, Pc.rechecks] at hLine
  · obtain hp | ⟨isPolling, hp, -⟩ := h <;> simp [hp, Pc.notifies] at hLine

omit [DecidableEq T] [Fintype T] in
theorem Thread.Inactive.worker {th : Thread T} (h : th.Inactive) (ok : th.Ok) :
    th.worker = none := by
  unfold Thread.Ok at ok
  obtain hp | ⟨isPolling, hp, -⟩ := h <;> rw [hp] at ok <;> exact ok.1

/-- While every thread is blocked in `park` without a notification, outside of the
runtime or out of it by a panic, nothing is queued. -/
def Unstranded (W : Nat) (s : State T) : Prop :=
  (∀ t, (s.threads t).pc.live → (s.threads t).Inactive) →
    s.injector = 0 ∧ ∀ i, i < W → s.queues i = 0

omit [DecidableEq T] [Fintype T] in
theorem Tended.unstranded {W : Nat} {s : State T} (tended : Tended W s)
    (ok : ∀ t, (s.threads t).Ok) (staffed : ∀ t, (s.threads t).Staffed)
    (hLive : ∀ t, (s.threads t).pc.live) : Unstranded W s := by
  intro hInactive
  refine ⟨?_, fun i _ => ?_⟩
  · by_contra hSome
    obtain ⟨t, ht⟩ := tended.injector (Nat.pos_of_ne_zero hSome)
    exact (hInactive t (hLive t)).not_attends (ok t) (staffed t) ht
  · by_contra hSome
    obtain ⟨t, hWorker, -⟩ := tended.queues i (Nat.pos_of_ne_zero hSome)
    simp [(hInactive t (hLive t)).worker (ok t)] at hWorker

omit [DecidableEq T] [Fintype T] in
theorem Attending.holds {W : Nat} {s : State T} {e : Event T} (attending : Attending W s e) :
    CounterHolds W s e := by
  cases e with
  | step t => exact attending.1
  | choose t choice => trivial
  | blockOn t => trivial
  | wake t => trivial
  | tick milliseconds => trivial

/-- In every run whose steps keep to the conditions no runnable is stranded. -/
theorem runnables_tended (W maxThreads : Nat) (hW : 0 < W) (steps : List (State T × Event T))
    (s : State T) (run : (system T W maxThreads).Run steps s)
    (attending : Meets (Attending W) steps) : Unstranded W s := by
  suffices h : Tended W s ∧ ∀ t, (s.threads t).pc.live from
    h.1.unstranded (accounts_reachable run.reachable).ok (staffed_reachable run.reachable) h.2
  induction run with
  | refl => exact ⟨⟨by simp [system], by simp [system]⟩, fun _ => rfl⟩
  | step prior last ih =>
      rw [meets_append, meets_singleton] at attending
      obtain ⟨tended, hLive⟩ := ih attending.1
      have reachable := System.Run.reachable prior
      have inv := inv_reachable hW reachable
      exact ⟨tended.next hW inv (staffed_reachable reachable) (shape_reachable reachable)
          attending.2 last,
        inv.live_next hLive attending.2.holds (flagCleared_reachable reachable _) last⟩

instance (W : Nat) (s : State T) : (e : Event T) → Decidable (Attending W s e)
  | .step t => inferInstanceAs (Decidable (CounterHolds W s (.step t) ∧ _ ∧ _))
  | .choose _ _ | .blockOn _ | .wake _ | .tick _ => .isTrue trivial

/-- A call of `block_on` runs the task its future has scheduled, and parks as does the
thread that is created for the other worker. -/
theorem runnables_tended_parked : ∃ steps s, (system (Fin 2) 2 4).Run steps s ∧
    (∀ t, (s.threads t).pc = .parked false ∧ (s.threads t).park = .waiting) ∧ Unstranded 2 s := by
  let events : List (Event (Fin 2)) :=
    List.flatten [[.blockOn 0], List.replicate 7 (.step 0), [.choose 0 .poll, .choose 0 .schedule],
      List.replicate 2 (.step 0), [.choose 0 .pending, .step 0, .choose 0 .next],
      List.replicate 10 (.step 0), [.choose 0 (.create 1), .choose 0 .ready],
      List.replicate 3 (.step 1), [.choose 1 .skip, .step 1, .choose 1 .next, .step 1, .step 1,
      .choose 1 .next], List.replicate 11 (.step 1),
      [.choose 0 .skip, .step 0, .choose 0 .next], List.replicate 5 (.step 0),
      [.choose 0 .next], List.replicate 11 (.step 0)]
  obtain ⟨s, run, hs⟩ := (system (Fin 2) 2 4).exists_run_of_replay events
    (fun s => ((s.threads 0).pc, (s.threads 0).park, (s.threads 1).pc, (s.threads 1).park))
    (.parked false, .waiting, .parked false, .waiting) (by decide)
  have attending : ∀ x ∈ (system (Fin 2) 2 4).trace (system (Fin 2) 2 4).initial events,
      Attending 2 x.1 x.2 := by decide
  simp only [Prod.mk.injEq] at hs
  refine ⟨_, s, run, fun t => ?_, runnables_tended 2 4 (by decide) _ s run attending⟩
  fin_cases t
  · exact ⟨hs.1, hs.2.1⟩
  · exact hs.2.2

/-- No thread fails to be created and there are fewer than there may be. -/
def Created (maxThreads : Nat) (s : State T) (e : Event T) : Prop :=
  s.spawned < maxThreads ∧ ∀ t, e ≠ .choose t .error

instance (maxThreads : Nat) (s : State T) (e : Event T) : Decidable (Created maxThreads s e) :=
  inferInstanceAs (Decidable (_ ∧ _))

/-- Two calls of `block_on` have both workers and return at the first poll of their
futures, and the task that one of the polls has scheduled stays in a run queue. -/
theorem returns_stranded : ¬∀ W maxThreads, 0 < W → ∀ steps s,
    (system (Fin 2) W maxThreads).Run steps s → Meets (Created maxThreads) steps →
    Unstranded W s := by
  intro h
  let events : List (Event (Fin 2)) :=
    List.flatten [[.blockOn 0], List.replicate 7 (.step 0), [.blockOn 1],
      List.replicate 7 (.step 1), [.choose 0 .poll, .choose 0 .schedule, .step 0, .choose 0 .ready,
      .step 0, .step 0, .choose 1 .poll, .choose 1 .ready], List.replicate 3 (.step 1),
      List.replicate 6 (.step 0), List.replicate 6 (.step 1)]
  obtain ⟨s, run, hs⟩ := (system (Fin 2) 2 4).exists_run_of_replay events
    (fun s => ((s.threads 0).pc, (s.threads 1).pc, s.queues 1)) (.outside, .outside, 1) (by decide)
  have created : ∀ x ∈ (system (Fin 2) 2 4).trace (system (Fin 2) 2 4).initial events,
      Created 4 x.1 x.2 := by decide
  simp only [Prod.mk.injEq] at hs
  obtain ⟨hFirst, hSecond, hQueue⟩ := hs
  obtain ⟨-, hEmpty⟩ := h 2 4 (by decide) _ s run created fun t _ => .inl (by
    fin_cases t
    · exact hFirst
    · exact hSecond)
  exact absurd (hEmpty 1 (by decide)) (by simp [hQueue])

end Yaar.Runtime.Executor
