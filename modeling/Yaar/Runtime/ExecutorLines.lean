import Yaar.Runtime.ExecutorAccounts

/-! Which lines a line of a thread may return to. -/
namespace Yaar.Runtime.Executor

open Machine

variable {T : Type*}

/-- The lines `inject` and `notify` return to. -/
def Pc.Returned : Pc T → Prop
  | .outside | .turn | .future | .found | .task | .ending | .leave
  | .resume _ .turn | .resume _ .found => True
  | _ => False

/-- A line carries a line that its function is called at. -/
def Pc.Shape : Pc T → Prop
  | .resume _ next | .lockTake _ next | .swapTake _ next => next = .turn ∨ next = .found
  | .discover next => next = .task ∨ next = .ending
  | .expire _ next | .pollIo next | .lockIo next | .polling next => next.Polls
  | .push _ next | .notifyLoad next | .notifySearching next | .notifySwap next
  | .notifyPending next | .notifyPop next | .spawn _ next | .unpark _ _ next | .create _ next
  | .spawnFailed _ next | .notifyPush _ next | .notifySub next => next.Returned
  | .dropGuard next => (∃ ready, next = .remove ready) ∨ ∃ i ready, next = .taken i ready
  | _ => True

/-- A line that `inject` and `notify` return to carries what its own function is called
at. -/
theorem Pc.Returned.shape {pc : Pc T} (h : pc.Returned) : pc.Shape := by
  unfold Pc.Returned at h
  split at h <;> simp_all [Pc.Shape]

theorem Pc.Polls.shape {pc : Pc T} (h : pc.Polls) : pc.Shape := by
  unfold Pc.Polls at h
  split at h <;> simp_all [Pc.Shape]

variable [DecidableEq T]

@[simp] theorem setThread_self (s : State T) (t : T) (th : Thread T) :
    (s.setThread t th).threads t = th := by
  simp [State.setThread]

/-- A thread that goes to a line keeps all but the line. -/
@[simp] theorem goto_self (s : State T) (t : T) (pc : Pc T) :
    (s.goto t pc).threads t = { s.threads t with pc := pc } := by
  simp [State.goto]

/-- Where the lines of the three cases have the shape, so has the line after the state
of the parker is polled. -/
theorem shape_pollUnparked {s : State T} {t : T} {taken : Nat → Pc T} {woken otherwise : Pc T}
    (hTaken : ∀ i, (taken i).Shape) (hWoken : woken.Shape) (hOtherwise : otherwise.Shape) :
    ((s.pollUnparked t taken woken otherwise).threads t).pc.Shape := by
  simp only [State.pollUnparked]
  split <;> simp_all

/-- After the timers are polled the thread goes on with their wakers or with the line
given. -/
theorem shape_pollTimers {s : State T} {t : T} {queue : Nat} {next : Pc T} (hNext : next.Polls) :
    ((s.pollTimers t queue next).threads t).pc.Shape := by
  unfold State.pollTimers
  split
  · simp [hNext.shape]
  · simp only
    split
    · simp [Thread.wait, hNext.shape]
    · simp only [setThread_self]
      exact hNext

/-- The line after a unit is subtracted is one of the two given, or the panic of the
check. -/
theorem shape_fetchSub {W : Nat} {s : State T} {t : T} {last other panic : Pc T}
    (hLast : last.Shape) (hOther : other.Shape) :
    ((s.fetchSub W t last other panic).threads t).pc.Shape := by
  simp only [State.fetchSub, goto_self]
  split
  · trivial
  · split <;> assumption

/-- The line after a pop of the idle queue depends on what is popped. -/
theorem shape_popIdle {s : State T} {t : T} {none : Pc T} {some : Nat → Pc T}
    (hNone : none.Shape) (hSome : ∀ i, (some i).Shape) :
    ((s.popIdle t none some).threads t).pc.Shape := by
  unfold State.popIdle
  split <;> simp_all

/-- A step of a thread leads to a line of the shape. An `unpark` is left out, as it may
change the line of a thread in the pool. -/
theorem shape_step {W maxThreads : Nat} {s s' : State T} {t : T}
    (shape : (s.threads t).pc.Shape) (hUnpark : ∀ i u next, (s.threads t).pc ≠ .unpark i u next)
    (h : step W maxThreads s t = some s') : (s'.threads t).pc.Shape := by
  cases hp : (s.threads t).pc <;> simp only [step, hp, reduceCtorEq] at h <;>
    simp only [hp, Pc.Shape] at shape
  case unpark i u next => exact (hUnpark i u next hp).elim
  case retryPop caller =>
    obtain rfl := Option.some.inj h
    refine shape_popIdle ?_ fun _ => trivial
    cases caller <;> simp [Caller.none, Pc.Shape]
  case notifyPop next =>
    obtain rfl := Option.some.inj h
    exact shape_popIdle shape fun _ => shape
  case waitFirst | waitThird =>
    obtain rfl := Option.some.inj h
    exact shape_pollUnparked (fun _ => trivial) trivial trivial
  case waitLocked =>
    split at h
    · obtain rfl := Option.some.inj h
      exact shape_pollUnparked (fun _ => trivial) trivial trivial
    · obtain rfl := Option.some.inj h
      simp [Pc.Shape]
  case unwrapUnparked ready guarded =>
    obtain rfl := Option.some.inj h
    cases guarded
    · exact shape_pollUnparked (fun _ => trivial) trivial trivial
    · exact shape_pollUnparked (fun _ => Or.inr ⟨_, _, rfl⟩) (Or.inl ⟨_, rfl⟩) trivial
  case ownTimers =>
    obtain ⟨i, _, rfl⟩ := Option.map_eq_some_iff.mp h
    exact shape_pollTimers trivial
  case popLocal =>
    obtain ⟨i, _, rfl⟩ := Option.map_eq_some_iff.mp h
    split
    · simp [Pc.Shape]
    · simp only [goto_self]
      split <;> trivial
  case giveBack =>
    obtain ⟨i, _, rfl⟩ := Option.map_eq_some_iff.mp h
    split <;> simp [Pc.Shape]
  case failSub ended =>
    obtain rfl := Option.some.inj h
    refine shape_fetchSub trivial ?_
    split <;> trivial
  case discover next =>
    obtain rfl := Option.some.inj h
    rcases shape with rfl | rfl <;> exact shape_fetchSub trivial trivial
  case notifySub next =>
    obtain rfl := Option.some.inj h
    exact shape_fetchSub shape.shape shape.shape
  case lockTake | lockPut =>
    obtain rfl := Option.some.inj h
    unfold State.lockProducer
    split <;> simp_all [Pc.Shape]
  case swapTake i next =>
    obtain rfl := Option.some.inj h
    simp only [State.takeProducer, setThread_self]
    split
    · rcases shape with rfl | rfl <;> trivial
    · trivial
  case swapPut i ended =>
    obtain rfl := Option.some.inj h
    simp only [State.putProducer, setThread_self]
    split <;> trivial
  case found | finish =>
    split at h <;> obtain rfl := Option.some.inj h <;> simp [Pc.Shape]
  case notifySwap | spawn | push =>
    repeat' split at h
    all_goals
      obtain rfl := Option.some.inj h
      simp only [goto_self]
      first
      | exact shape
      | exact shape.shape
      | trivial
  case taken i ready =>
    obtain rfl := Option.some.inj h
    rcases ready with _ | _ | ready <;> simp [popAndInject, Pc.Shape, Pc.Returned]
  case alone ready =>
    obtain rfl := Option.some.inj h
    simp only [goto_self]
    split <;> trivial
  case dropGuard next =>
    obtain rfl := Option.some.inj h
    rcases shape with ⟨ready, rfl⟩ | ⟨i, ready, rfl⟩ <;> simp [Pc.Shape]
  case retryAdded caller _ _ =>
    obtain rfl := Option.some.inj h
    cases caller <;> simp only [goto_self, Caller.some] <;> split <;> simp [Pc.Shape]
  case retryLoad caller =>
    obtain rfl := Option.some.inj h
    cases caller <;> simp only [goto_self, Caller.none] <;> split <;> simp [Pc.Shape]
  case resume i next =>
    obtain rfl := Option.some.inj h
    simp only [setThread_self]
    split
    · exact shape
    · trivial
  case lockIo next =>
    obtain rfl := Option.some.inj h
    split <;> simp only [goto_self]
    · exact shape.shape
    · exact shape
  case pollIo next =>
    obtain rfl := Option.some.inj h
    simp only [goto_self]
    split
    · exact shape.shape
    · exact shape
  case notifyLoad next | notifySearching next | notifyPending next =>
    obtain rfl := Option.some.inj h
    simp only [goto_self]
    repeat' split
    all_goals
      first
      | exact shape
      | exact shape.shape
      | trivial
  case spawnFailed next | notifyPush next =>
    obtain rfl := Option.some.inj h
    simp only [goto_self]
    exact shape
  all_goals
    first
    | obtain rfl := Option.some.inj h
    | (split at h <;> obtain rfl := Option.some.inj h)
  all_goals
    (repeat' split) <;> simp [Pc.Shape, Pc.Returned]

/-- So does a choice of a thread, but for `create`, which starts another. -/
theorem shape_choose {W : Nat} {s s' : State T} {t : T} {choice : Choice T}
    (shape : (s.threads t).pc.Shape) (hCreate : ∀ u, choice ≠ .create u)
    (h : choose W s t choice = some s') : (s'.threads t).pc.Shape := by
  simp only [choose] at h
  split at h <;> rename_i hp <;> (try simp only [hp, Pc.Shape] at shape)
  case h_6 | h_7 | h_8 =>
    obtain rfl := Option.some.inj h
    unfold State.schedule
    split <;> simp [hp, Pc.Shape, Pc.Returned]
  case h_9 | h_10 | h_11 | h_17 | h_18 | h_19 =>
    split at h
    · obtain rfl := Option.some.inj h
      simp [hp, Pc.Shape]
    · simp at h
  case h_12 | h_13 | h_14 | h_15 | h_16 =>
    obtain rfl := Option.some.inj h
    simp [hp, Pc.Shape]
  case h_22 next ready | h_29 next ready =>
    obtain rfl := Option.some.inj h
    rcases ready with _ | _ | ready
    · simpa [popAndInject] using shape.shape
    · simp [popAndInject, Pc.Shape]
    · simp [popAndInject, Pc.Shape, Pc.Returned]
  case h_23 | h_24 | h_26 =>
    obtain ⟨i, hWorker, h⟩ := Option.bind_eq_some_iff.mp h
    split at h
    · obtain rfl := Option.some.inj h
      simp [Pc.Shape]
    · simp at h
  case h_27 =>
    split at h
    · obtain rfl := Option.some.inj h
      exact shape_pollTimers trivial
    · simp at h
  case h_30 u => exact (hCreate u rfl).elim
  case h_31 =>
    obtain rfl := Option.some.inj h
    simp only [goto_self]
    exact shape
  case h_33 =>
    split at h
    · obtain rfl := Option.some.inj h
      simp [Pc.Shape]
    · simp at h
  case h_34 => simp at h
  all_goals
    obtain rfl := Option.some.inj h
    simp [hp, Pc.Shape, Pc.Polls]

variable [Fintype T]

/-- A step leaves the lines of other threads. -/
theorem Accounts.step_pc {W maxThreads : Nat} {s s' : State T} {t u : T}
    (accounts : Accounts W s) (hNe : u ≠ t) (h : step W maxThreads s t = some s') :
    (s'.threads u).pc = (s.threads u).pc := by
  by_cases hUnpark : ∃ i v next, (s.threads t).pc = .unpark i v next
  · obtain ⟨i, v, next, hp⟩ := hUnpark
    simp only [step, hp] at h
    obtain rfl := Option.some.inj h
    unfold State.unpark
    split
    · simp [State.goto, State.setThread, Function.update_of_ne hNe]
    · simp only [State.goto, State.setThread, Function.update_of_ne hNe, Function.update_apply]
      split
      · next hEq => rw [hEq]
      · rfl
  · push Not at hUnpark
    obtain ⟨th, moves⟩ := moves_step (accounts.ok t) (accounts.le_searching t) hUnpark h
    rw [moves.threads, Function.update_of_ne hNe]

/-- A choice moves the line of its own thread only. What it creates was outside. -/
theorem Accounts.choose_pc {W : Nat} {s s' : State T} {t u : T} {choice : Choice T}
    (accounts : Accounts W s) (hNe : u ≠ t) (hCreate : choice ≠ .create u)
    (h : choose W s t choice = some s') : (s'.threads u).pc = (s.threads u).pc := by
  by_cases hAny : ∃ v, choice = .create v
  · obtain ⟨v, rfl⟩ := hAny
    have hOther : u ≠ v := by
      rintro rfl
      exact hCreate rfl
    cases hp : (s.threads t).pc
    case create i next =>
      simp only [choose, hp] at h
      split at h
      · obtain rfl := Option.some.inj h
        simp [State.goto, State.setThread, Function.update_of_ne hNe, Function.update_of_ne hOther]
      · simp at h
    all_goals simp [choose, hp] at h
  · push Not at hAny
    obtain ⟨th, moves⟩ := moves_choose (accounts.ok t) hAny h
    rw [moves.threads, Function.update_of_ne hNe]

/-- Every event keeps the shape of all lines. A thread that is started begins at
`transition_to_running`. -/
theorem Accounts.shape_next {W maxThreads : Nat} {s s' : State T} {e : Event T}
    (accounts : Accounts W s) (shape : ∀ t, (s.threads t).pc.Shape)
    (h : Executor.next W maxThreads s e = some s') (u : T) : (s'.threads u).pc.Shape := by
  cases e with
  | step t =>
      by_cases hEq : u = t
      · subst hEq
        by_cases hUnpark : ∃ i v next, (s.threads u).pc = .unpark i v next
        · obtain ⟨i, v, next, hp⟩ := hUnpark
          have hShape := shape u
          simp only [hp, Pc.Shape] at hShape
          simp only [Executor.next, step, hp] at h
          obtain rfl := Option.some.inj h
          unfold State.unpark
          split
          · simpa [Pc.Shape] using hShape
          · simpa using hShape.shape
        · push Not at hUnpark
          exact shape_step (shape u) hUnpark h
      · rw [accounts.step_pc hEq h]
        exact shape u
  | choose t choice =>
      by_cases hStart : choice = .create u
      · subst hStart
        cases hp : (s.threads t).pc
        case create i next =>
          have hShape := shape t
          simp only [hp, Pc.Shape] at hShape
          simp only [Executor.next, choose, hp] at h
          split at h
          · obtain rfl := Option.some.inj h
            by_cases hEq : u = t
            · subst hEq
              simpa using hShape.shape
            · simp [State.goto, State.setThread, Function.update_of_ne hEq, Pc.Shape]
          · simp at h
        all_goals simp [Executor.next, choose, hp] at h
      · by_cases hEq : u = t
        · subst hEq
          by_cases hAny : ∃ v, choice = .create v
          · obtain ⟨v, rfl⟩ := hAny
            cases hp : (s.threads u).pc
            case create i next =>
              have hShape := shape u
              simp only [hp, Pc.Shape] at hShape
              simp only [Executor.next, choose, hp] at h
              split at h
              · obtain rfl := Option.some.inj h
                simpa using hShape.shape
              · simp at h
            all_goals simp [Executor.next, choose, hp] at h
          · push Not at hAny
            exact shape_choose (shape u) hAny h
        · rw [accounts.choose_pc hEq hStart h]
          exact shape u
  | blockOn t =>
      simp only [Executor.next] at h
      split at h
      · obtain rfl := Option.some.inj h
        simp only [State.goto, State.setThread, Function.update_apply]
        split
        · trivial
        · exact shape u
      · simp at h
  | wake t =>
      simp only [Executor.next] at h
      split at h
      · simp at h
      · obtain ⟨park, _, rfl⟩ := Option.map_eq_some_iff.mp h
        simp only [State.setThread, Function.update_apply]
        split
        · exact shape t
        · exact shape u
  | tick milliseconds =>
      obtain rfl := Option.some.inj h
      exact shape u

/-- Hence each line of a run carries a line that its function is called at. -/
theorem shape_reachable {W maxThreads : Nat} {s : State T}
    (h : (system T W maxThreads).Reachable s) (t : T) : (s.threads t).pc.Shape := by
  obtain ⟨steps, run⟩ := h
  suffices hShape : ∀ t, (s.threads t).pc.Shape from hShape t
  induction run with
  | refl => exact fun _ => trivial
  | step prior last ih =>
      exact (accounts_reachable (System.Run.reachable prior)).shape_next ih last

end Yaar.Runtime.Executor
