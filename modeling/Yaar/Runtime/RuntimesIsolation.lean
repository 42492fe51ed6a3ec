import Yaar.Runtime.RuntimesInvariant

/-! When the runtimes of a program are isolated from one another. -/
namespace Yaar.Runtime.Runtimes

open Machine TaskState

variable {T R C K : Type*} [DecidableEq T] [DecidableEq R] [DecidableEq C] [DecidableEq K]

/-- A thread has no context, or one of an executor. -/
def State.AtHome (s : State T R C K) (t : T) (executor : R) : Prop :=
  ∀ current ∈ s.currentExecutor t, current = executor

instance (s : State T R C K) (t : T) (executor : R) : Decidable (s.AtHome t executor) :=
  inferInstanceAs (Decidable (∀ current ∈ s.currentExecutor t, current = executor))

variable [Fintype T] [Fintype K] {workers : R → NonZero Nat}

omit [DecidableEq T] [DecidableEq R] [DecidableEq C] [DecidableEq K] [Fintype T] [Fintype K] in
/-- A step inside a call is one of the innermost call of the thread, with its context. -/
theorem inCall_eq {s s' : State T R C K} {t : T}
    {f : Call R C K → List (Call R C K) → Context R K → Option (State T R C K)}
    (h : s.inCall t f = some s') : ∃ call rest context, (s.threads t).calls = call :: rest ∧
      s.contexts call.context = some context ∧ f call rest context = some s' := by
  unfold State.inCall at h
  split at h
  · simp at h
  · next call rest hCalls =>
      obtain ⟨context, hContext, h⟩ := Option.bind_eq_some_iff.mp h
      exact ⟨call, rest, context, hCalls, hContext, h⟩

omit [DecidableEq T] [DecidableEq C] in
/-- A step that moves no runnable to a new place keeps the invariant. -/
theorem Inv.quiet {s s' : State T R C K} (inv : Inv workers s)
    (keeps : Keeps s s' fun _ _ => False) : Inv workers s' :=
  inv.keeps keeps fun _ _ hNone => hNone.elim

omit [DecidableEq T] [DecidableEq C] [DecidableEq K] [Fintype T] [Fintype K] in
@[simp] theorem setSearching_self (s : State T R C K) (executor : R) :
    s.setSearching executor (s.searching executor) = s := by
  simp [State.setSearching]

omit [DecidableEq T] [DecidableEq C] [DecidableEq K] [Fintype T] [Fintype K] in
@[simp] theorem setTokens_self (s : State T R C K) (executor : R) :
    s.setTokens executor (s.tokens executor) = s := by
  simp [State.setTokens]

omit [DecidableEq T] [DecidableEq R] [DecidableEq C] [DecidableEq K] [Fintype T] [Fintype K] in
/-- A thread at home with a context has one of the executor. -/
theorem executor_current {s : State T R C K} {t : T} {c : C} {executor : R}
    (hCurrent : (s.threads t).current = some c) (hOpen : s.executorOf c ≠ none)
    (hHome : s.AtHome t executor) : s.executorOf c = some executor := by
  obtain ⟨other, hOther⟩ := Option.ne_none_iff_exists'.mp hOpen
  rw [hOther, hHome other (by simp [State.currentExecutor, hCurrent, hOther])]

/-- To enter a runtime gives an open context, which is the current one or a new one. -/
theorem Inv.enter {s s' : State T R C K} (inv : Inv workers s) {t : T} {executor : R} {c d : C}
    {owned : Bool} (h : s.enter t executor c = some (s', d, owned)) :
    Inv workers s' ∧ s'.executorOf d ≠ none := by
  have hInv := inv.quiet (keeps_enter inv.calls h)
  refine ⟨hInv, hInv.current t d ?_⟩
  unfold State.enter at h
  split at h
  · next e hCurrent =>
      obtain ⟨rfl, hRest⟩ := Prod.mk.inj (Option.some.inj h)
      obtain ⟨rfl, -⟩ := Prod.mk.inj hRest
      exact hCurrent
  · split at h
    · obtain ⟨rfl, hRest⟩ := Prod.mk.inj (Option.some.inj h)
      obtain ⟨rfl, -⟩ := Prod.mk.inj hRest
      simp [State.setThread]
    · simp at h

omit [DecidableEq R] [DecidableEq K] [Fintype T] [Fintype K] in
/-- A thread that is at home enters a context of the executor. -/
theorem enter_home {s s' : State T R C K} {t : T} {executor : R} {c d : C} {owned : Bool}
    (hCurrent : ∀ t c, (s.threads t).current = some c → s.executorOf c ≠ none)
    (hHome : s.AtHome t executor) (h : s.enter t executor c = some (s', d, owned)) :
    s'.executorOf d = some executor := by
  unfold State.enter at h
  split at h
  · next e hSome =>
      obtain ⟨rfl, hRest⟩ := Prod.mk.inj (Option.some.inj h)
      obtain ⟨rfl, -⟩ := Prod.mk.inj hRest
      exact executor_current hSome (hCurrent t e hSome) hHome
  · split at h
    · obtain ⟨rfl, hRest⟩ := Prod.mk.inj (Option.some.inj h)
      obtain ⟨rfl, -⟩ := Prod.mk.inj hRest
      simp [State.executorOf, State.setContext, State.setThread]
    · simp at h

omit [DecidableEq C] [DecidableEq K] [Fintype T] [Fintype K] in
/-- A call that begins with a unit begins without it and then takes it. -/
theorem begin_searching (s : State T R C K) (t : T) (call : Call R C K) (executor : R)
    (tokens : Nat) :
    (s.setTokens executor tokens).begin t { call with searching := true } =
      (((s.begin t call).setSearching executor (s.searching executor)).setTokens executor
        tokens).setCall t { call with searching := true } (s.threads t).calls := by
  simp [State.begin, State.setTokens, State.setSearching, State.setCall, State.setThread,
    State.setPending]

/-- `block_on` with a worker index, on a thread that is at home. -/
theorem Inv.beginSearching {s s' : State T R C K} (inv : Inv workers s) (t : T) {executor : R}
    {c : C} {owned : Bool} {i : Nat} {call : Call R C K} (hTokens : s.tokens executor ≠ 0)
    (hc : s.executorOf c = some executor)
    (h : s.transitionToRunning ⟨executor, c, owned, false, [], none, none⟩ i = some (s', call)) :
    Inv workers ((s'.setTokens executor (s'.tokens executor - 1)).begin t call) := by
  have hKeeps := keeps_transitionToRunning h
  obtain ⟨-, rfl, -⟩ := transitionToRunning_eq h
  have hOpen := hKeeps.contexts c executor hc
  have hCall := (inv.quiet hKeeps).call t executor owned (c := c) (by simp [hOpen])
  rw [begin_searching]
  have hSame : (s'.begin t ⟨executor, c, owned, false, [], none, none⟩).searching =
      s'.searching ∧ (s'.begin t ⟨executor, c, owned, false, [], none, none⟩).tokens = s'.tokens :=
    ⟨rfl, rfl⟩
  rw [← hKeeps.tokens] at hTokens
  have hCalls : ((s'.begin t ⟨executor, c, owned, false, [], none, none⟩).threads t).calls =
      ⟨executor, c, owned, false, [], none, none⟩ :: (s'.threads t).calls := by
    simp [State.begin, State.setCall, State.setThread, State.setPending]
  refine hCall.setFlag hCalls hOpen true _ _ ?_ (hSame.1 ▸ hCall.room executor)
  rw [hSame.1, hSame.2]
  simp
  omega

/-- A call of `block_on` begins. It may have the context of another runtime, as long as
it takes no worker index there. -/
theorem Inv.blockOn {s s' : State T R C K} (inv : Inv workers s) {t : T} {executor : R} {c : C}
    {i : Option Nat} (hHome : i ≠ none → s.AtHome t executor)
    (h : next workers s (.blockOn t executor c i) = some s') : Inv workers s' := by
  cases i with
  | none =>
      obtain ⟨⟨entered, d, owned⟩, hEnter, rfl⟩ := Option.map_eq_some_iff.mp h
      obtain ⟨hInv, hOpen⟩ := inv.enter hEnter
      exact hInv.call t executor owned hOpen
  | some i =>
      simp only [next] at h
      split at h
      · next hIndex =>
          obtain ⟨⟨entered, d, owned⟩, hEnter, h⟩ := Option.map_eq_some_iff.mp h
          have hKeeps := keeps_enter inv.calls hEnter
          have hc := enter_home inv.current (hHome (by simp)) hEnter
          simp only at h
          split at h
          · next running call hRunning =>
              subst h
              exact (inv.enter hEnter).1.beginSearching t (hKeeps.tokens ▸ hIndex.1) hc hRunning
          · exact h ▸ inv
      · simp at h

/-- A call of `block_on` ends with `task_complete`, and the count it is taken from is
not 0. -/
theorem Inv.blockOnEnd {s s' : State T R C K} (inv : Inv workers s) {t : T}
    (h : next workers s (.blockOnEnd t) = some s') : Inv workers s' := by
  obtain ⟨call, rest, context, hCalls, hContext, h⟩ := inCall_eq h
  split at h
  · next hIdle =>
      obtain rfl := Option.some.inj h
      have hRelease := inv.quiet (keeps_release s hContext fun ready k hReady hk =>
        .intercept call.context context ready hContext rfl hReady hk)
      have hSame : (s.release call.context context).threads = s.threads ∧
          (s.release call.context context).pending = s.pending := by
        unfold State.release
        split <;> exact ⟨rfl, rfl⟩
      obtain ⟨hPos, hLeave⟩ := hRelease.leave (by rw [hSame.1, hCalls]) hIdle.2.1 hIdle.1
      rw [hSame.2] at hPos hLeave
      rw [if_neg hPos]
      have hComm : ∀ n, (s.setPending call.executor n).release call.context context =
          (s.release call.context context).setPending call.executor n := by
        intro n
        unfold State.release
        split <;> rfl
      rw [hComm]
      exact hLeave
  · simp at h

/-- A call that gets a worker is searching from then on. Its unit has been one without a
call. -/
theorem Inv.acquire {s s' : State T R C K} (inv : Inv workers s) {t : T} {i : Nat}
    (hClear : ∀ call ∈ (s.threads t).calls.head?, call.searching = false)
    (h : next workers s (.acquire t i) = some s') : Inv workers s' := by
  obtain ⟨call, rest, context, hCalls, hContext, h⟩ := inCall_eq h
  have hFlag : call.searching = false := hClear call (by simp [hCalls])
  simp only at h
  split at h
  · next hIndex =>
      split at h
      · next running call' hRunning =>
          obtain rfl := Option.some.inj h
          have hKeeps := keeps_transitionToRunning hRunning
          obtain ⟨-, rfl, -⟩ := transitionToRunning_eq hRunning
          have hc := hKeeps.contexts call.context context.executor (by
            simp [State.executorOf, hContext])
          have hTokens : running.tokens context.executor ≠ 0 := by
            rw [hKeeps.tokens]
            exact hIndex.2.1
          have hThreads : (running.threads t).calls = call :: rest := by
            obtain ⟨-, -, _, -, -, rfl⟩ := transitionToRunning_eq hRunning
            exact hCalls
          have hInv := inv.quiet hKeeps
          have hTake := hInv.setFlag hThreads hc true (running.searching context.executor)
            (running.tokens context.executor - 1) (by simp [hFlag]; omega)
            (hInv.room context.executor)
          rwa [setSearching_self] at hTake
      · next hNone =>
          simp [State.transitionToRunning, hContext, hIndex, hFlag] at hNone
  · simp at h

omit [DecidableEq C] in
/-- A call that is searching gives its unit back, and no assertion of the counter fails. -/
theorem Inv.searchEnd {s : State T R C K} (inv : Inv workers s) {t : T} {call : Call R C K}
    {rest : List (Call R C K)} (hCalls : (s.threads t).calls = call :: rest) {executor : R}
    (hc : s.executorOf call.context = some executor) (hSearching : call.searching = true) :
    Inv workers (s.searchEnd workers t call rest executor) := by
  have hCount := inv.searching executor
  have hLe := Tally.le_total (searchers s.executorOf executor) s.threads t
  have hHere : 0 < searchers s.executorOf executor (s.threads t) := by
    simp [searchers, hCalls, hc, hSearching]
  have hPos : s.searching executor ≠ 0 := by omega
  have hGive := inv.setFlag hCalls hc false (s.searching executor - 1) (s.tokens executor)
    (by simp [hSearching]; omega)
    (Nat.le_trans (Nat.sub_le _ 1) (inv.room executor))
  unfold State.searchEnd
  simp only [fetchSub, if_neg hPos, if_pos (And.intro (inv.room executor) hPos)]
  have hSame : ((s.setSearching executor (s.searching executor - 1)).setTokens executor
      (s.tokens executor)) = s.setSearching executor (s.searching executor - 1) :=
    setTokens_self (s.setSearching executor (s.searching executor - 1)) executor
  rwa [hSame] at hGive

/-- A call that gives its worker back while it searches gives its unit back as well. -/
theorem Inv.release {s s' : State T R C K} (inv : Inv workers s) {t : T}
    (h : next workers s (.release t) = some s') : Inv workers s' := by
  obtain ⟨call, rest, context, hCalls, hContext, h⟩ := inCall_eq h
  split at h
  · have hKeeps := keeps_release s hContext fun ready k hReady hk =>
      .intercept call.context context ready hContext rfl hReady hk
    have hc := hKeeps.contexts call.context context.executor (by simp [State.executorOf, hContext])
    have hInv := inv.quiet hKeeps
    obtain rfl := Option.some.inj h
    split
    · next hSearching =>
        refine hInv.searchEnd ?_ hc hSearching
        unfold State.release
        split <;> exact hCalls
    · exact hInv
  · simp at h

/-- A unit of a counter is added to it, or taken from it again, by no call. -/
theorem Inv.notify {s s' : State T R C K} (inv : Inv workers s) {t : T} {executor : R}
    {caller : Caller} (h : next workers s (.notify t executor caller) = some s' ∨
      next workers s (.notifyEnd t executor caller) = some s') : Inv workers s' := by
  have hRoom := inv.room executor
  have hCount := inv.searching executor
  rcases h with h | h
  · simp only [next, if_neg (Nat.not_lt.mpr hRoom)] at h
    split at h <;> obtain rfl := Option.some.inj h
    · next hZero =>
        refine inv.setUnits t (by omega) (Nat.one_le_iff_ne_zero.mpr (workers executor).ne_zero)
    · exact inv
  · simp only [next] at h
    split at h
    · simp at h
    · next hTokens =>
        have hPos : s.searching executor ≠ 0 := by omega
        rw [if_pos ⟨hRoom, hPos⟩, fetchSub, if_neg hPos] at h
        obtain rfl := Option.some.inj h
        exact inv.setUnits t (by omega) (by omega)

/-- A unit is added without a call, and there is room for it. -/
theorem Inv.searchRetry {s s' : State T R C K} (inv : Inv workers s) {t : T} {executor : R}
    {caller : Caller} (hRoom : s.searching executor < (workers executor).get)
    (h : next workers s (.searchRetry t executor caller) = some s') : Inv workers s' := by
  simp only [next, if_pos hRoom] at h
  obtain rfl := Option.some.inj h
  exact inv.setUnits t (by omega) hRoom

theorem Inv.searchBegin {s s' : State T R C K} (inv : Inv workers s) {t : T}
    (hRoom : ∀ call ∈ (s.threads t).calls.head?, ∀ executor ∈ s.executorOf call.context,
      s.searching executor < (workers executor).get)
    (h : next workers s (.searchBegin t) = some s') : Inv workers s' := by
  obtain ⟨call, rest, context, hCalls, hContext, h⟩ := inCall_eq h
  have hc : s.executorOf call.context = some context.executor := by
    simp [State.executorOf, hContext]
  have hLt := hRoom call (by simp [hCalls]) context.executor hc
  simp only [if_pos hLt] at h
  split at h
  · next hIdle =>
      obtain rfl := Option.some.inj h
      have hTake := inv.setFlag hCalls hc true (s.searching context.executor + 1)
        (s.tokens context.executor) (by simp [hIdle.1]; omega) hLt
      have hSame : ((s.setSearching context.executor (s.searching context.executor + 1)).setTokens
          context.executor (s.tokens context.executor)) =
          s.setSearching context.executor (s.searching context.executor + 1) :=
        setTokens_self (s.setSearching context.executor _) context.executor
      rwa [hSame] at hTake
  · simp at h

/-- A call that has found something gives its unit back, and the assertion of the
counter holds. -/
theorem Inv.searchDiscovered {s s' : State T R C K} (inv : Inv workers s) {t : T}
    (h : next workers s (.searchDiscovered t) = some s') : Inv workers s' := by
  obtain ⟨call, rest, context, hCalls, hContext, h⟩ := inCall_eq h
  split at h
  · next hSearching =>
      obtain rfl := Option.some.inj h
      exact inv.searchEnd hCalls (by simp [State.executorOf, hContext]) hSearching
  · simp at h

omit [DecidableEq K] [Fintype T] [Fintype K] [DecidableEq T] in
/-- `schedule` fails only at its assertion. -/
theorem exists_schedule {s : State T R C K} {executor : R} {k : K} {context : Option C}
    (hOpen : ∀ c, context = some c → s.executorOf c = some executor) :
    ∃ s', s.schedule executor k context = some s' := by
  cases context with
  | none => exact ⟨_, rfl⟩
  | some c =>
      obtain ⟨context, hContext, rfl⟩ := Option.map_eq_some_iff.mp (hOpen c rfl)
      simp only [State.schedule, hContext, Option.bind_some, ne_eq, not_true_eq_false, if_false]
      split <;> exact ⟨_, rfl⟩

/-- At home a task goes to the queues of its own executor and is counted there. -/
theorem Inv.spawn {s s' : State T R C K} (inv : Inv workers s) {t : T} {executor : R} {k : K}
    (hHome : s.AtHome t executor)
    (h : next workers s (.spawn t executor k) = some s') : Inv workers s' := by
  simp only [next] at h
  split at h
  · next hFresh =>
      have hBegin := inv.begin hFresh t executor TASK_SCHEDULED
      obtain ⟨s'', hSchedule⟩ : ∃ s'', ((s.setPending executor (s.pending executor + 1)).setTask k
          ⟨executor, TASK_SCHEDULED, .pending⟩).schedule executor k (s.threads t).current =
            some s'' :=
        exists_schedule fun c hc => executor_current hc (inv.current t c hc) hHome
      have hKeeps := keeps_schedule hSchedule
      simp only [State.setTask, State.setPending] at h hSchedule
      rw [hSchedule] at h
      obtain rfl : s'' = s' := by simpa using h
      refine hBegin.keeps hKeeps ?_
      rintro other j ⟨rfl, rfl⟩
      simp [State.On, State.setTask]
  · simp at h

/-- A wake puts the runnable where the thread is, which is at home if the task is
scheduled by it. -/
theorem Inv.wake {s s' : State T R C K} (inv : Inv workers s) {t : T} {k : K}
    (hHome : ∀ task ∈ s.tasks k, task.state = TASK_IDLE → s.AtHome t task.executor)
    (h : next workers s (.wake t k) = some s') : Inv workers s' := by
  obtain ⟨task, hTask, h⟩ := Option.bind_eq_some_iff.mp h
  have hWord : Inv workers
      (s.setTask k { task with state := (transitionToScheduled task.state).1 }) :=
    inv.quiet (keeps_setTask s hTask rfl)
  simp only at h
  split at h
  · next hScheduled =>
      have hIdle := (transitionToScheduled_snd task.state).mp hScheduled
      have hOn : s.On k task.executor := by simp [State.On, hTask]
      unfold State.scheduleTask at h
      split at h
      · next c hCurrent =>
          obtain ⟨context, hContext, h⟩ := Option.bind_eq_some_iff.mp h
          have hSame : context.executor = task.executor :=
            hHome task hTask hIdle _ (by
              have hc : (s.threads t).current = some c := hCurrent
              have hd : s.contexts c = some context := hContext
              simp [State.currentExecutor, State.executorOf, hc, hd])
          refine hWord.keeps (keeps_schedule h) ?_
          rintro other j ⟨rfl, rfl⟩
          simp [State.On, State.setTask, hSame]
      · refine hWord.keeps (keeps_schedule h) ?_
        rintro other j ⟨rfl, rfl⟩
        simp [State.On, State.setTask]
  · obtain rfl := Option.some.inj h
    exact hWord

omit [DecidableEq C] in
/-- To empty the buffer of a call moves nothing to a new place. -/
theorem Inv.clear {s : State T R C K} (inv : Inv workers s) {t : T} {call : Call R C K}
    {rest : List (Call R C K)} (hCalls : (s.threads t).calls = call :: rest) :
    Inv workers (s.setCall t { call with ready := [] } rest) := by
  refine inv.quiet ((keeps_setCall s hCalls [] call.taken).mono fun executor k ⟨hc, hk⟩ => ?_)
  rcases hk with hNone | hTaken
  · simp at hNone
  · exact Or.inl (.ready t call (by simp [hCalls]) hc (Or.inr hTaken))

/-- The runnables of a wake from timers or the network go into the buffer, and out
of it. -/
theorem Inv.buffers {s s' : State T R C K} (inv : Inv workers s) {t : T}
    (h : next workers s (.intercept t) = some s' ∨ next workers s (.collect t) = some s' ∨
      next workers s (.inject t) = some s') : Inv workers s' := by
  rcases h with h | h | h <;> obtain ⟨call, rest, context, hCalls, hContext, h⟩ := inCall_eq h
  · split at h
    · obtain rfl := Option.some.inj h
      have hMem : call ∈ (s.threads t).calls := by simp [hCalls]
      have hc : s.executorOf call.context = some context.executor := by
        simp [State.executorOf, hContext]
      have hIntercept : Inv workers (s.setContext call.context
          { context with intercept := some call.ready }) := by
        refine inv.keeps (keeps_setContext s hContext rfl) ?_
        rintro executor k ⟨rfl, ready, hReady, hk⟩
        obtain rfl : call.ready = ready := Option.some.inj hReady
        exact inv.places hMem hc (Or.inl hk)
      exact hIntercept.clear hCalls
    · simp at h
  · obtain ⟨ready, hReady, rfl⟩ := Option.map_eq_some_iff.mp h
    have hTaken : Inv workers (s.setContext call.context { context with intercept := none }) := by
      refine inv.keeps (keeps_setContext s hContext rfl) ?_
      rintro executor k ⟨-, ready', hNone, -⟩
      simp at hNone
    refine hTaken.keeps (keeps_setCall _ (by exact hCalls) ready call.taken) ?_
    rintro executor k ⟨hc, hk⟩
    have hSame : context.executor = executor := by
      simpa [State.executorOf, State.setContext] using hc
    rcases hk with hBuffer | hRun
    · exact inv.isolated.places executor k
        (.intercept call.context context ready hContext hSame hReady hBuffer)
    · have hd : s.executorOf call.context = some executor := by
        simp [State.executorOf, hContext, hSame]
      have hMem : call ∈ (s.threads t).calls := by simp [hCalls]
      exact inv.places hMem hd (Or.inr (Or.inl hRun))
  · obtain rfl := Option.some.inj h
    have hMem : call ∈ (s.threads t).calls := by simp [hCalls]
    have hc : s.executorOf call.context = some context.executor := by
      simp [State.executorOf, hContext]
    have hInject : Inv workers (s.inject context.executor call.ready) := by
      refine inv.keeps (keeps_inject s context.executor call.ready) ?_
      rintro executor k ⟨rfl, hk⟩
      exact inv.places hMem hc (Or.inl hk)
    exact hInject.clear hCalls

/-- A worker takes runnables from the injector and the run queues of its executor. -/
theorem Inv.queues {s s' : State T R C K} (inv : Inv workers s) {t : T} {i : Nat} {k : K}
    (h : next workers s (.consume t k) = some s' ∨ next workers s (.steal t i k) = some s') : Inv workers s' := by
  rcases h with h | h <;> obtain ⟨call, rest, context, hCalls, hContext, h⟩ := inCall_eq h <;>
    obtain ⟨j, hProducer, h⟩ := Option.bind_eq_some_iff.mp h <;> simp only at h <;> split at h
  · next hMem =>
      obtain rfl := Option.some.inj h
      have hQueue : Inv workers (s.setQueue context.executor j (s.queues context.executor j ++ [k])) := by
        refine inv.keeps (keeps_setQueue s context.executor j _) ?_
        rintro executor l ⟨rfl, hl⟩
        rcases List.mem_append.mp hl with hOld | hNew
        · exact inv.isolated.places _ l (.queue j hOld)
        · obtain rfl : l = k := by simpa using hNew
          exact inv.isolated.places _ l (.injector hMem)
      refine hQueue.quiet (Keeps.mono (keeps_setInjector _ context.executor _) ?_)
      rintro executor l ⟨rfl, hl⟩
      exact Or.inl (.injector (List.mem_of_mem_erase hl))
  · simp at h
  · next hMem =>
      obtain rfl := Option.some.inj h
      have hTaken : Inv workers (s.setQueue context.executor i ((s.queues context.executor i).erase k)) := by
        refine inv.quiet ((keeps_setQueue s context.executor i _).mono ?_)
        rintro executor l ⟨rfl, hl⟩
        exact Or.inl (.queue i (List.mem_of_mem_erase hl))
      refine hTaken.keeps (keeps_setQueue _ context.executor j _) ?_
      · rintro executor l ⟨rfl, hl⟩
        rcases List.mem_append.mp hl with hOld | hNew
        · exact inv.isolated.places _ l (.queue j hOld)
        · obtain rfl : l = k := by simpa using hNew
          exact inv.isolated.places _ l (.queue i hMem.2)
  · simp at h

/-- The poll of a worker returns a runnable of its queue. -/
theorem Inv.pop {s s' : State T R C K} (inv : Inv workers s) {t : T} {k : K}
    (h : next workers s (.pop t k) = some s') : Inv workers s' := by
  obtain ⟨call, rest, context, hCalls, hContext, h⟩ := inCall_eq h
  obtain ⟨i, hProducer, h⟩ := Option.bind_eq_some_iff.mp h
  have hMem : call ∈ (s.threads t).calls := by simp [hCalls]
  have hc : s.executorOf call.context = some context.executor := by
    simp [State.executorOf, hContext]
  simp only at h
  split at h
  · next hPop =>
      obtain rfl := Option.some.inj h
      have hQueue := inv.quiet ((keeps_setQueue s context.executor i
        ((s.queues context.executor i).erase k)).mono (by
          rintro executor l ⟨rfl, hl⟩
          exact Or.inl (.queue i (List.mem_of_mem_erase hl))))
      refine hQueue.keeps (keeps_setCall _ (by exact hCalls) call.ready (some k)) ?_
      rintro executor l ⟨hd, hl⟩
      obtain rfl : context.executor = executor := Option.some.inj (hc.symm.trans hd)
      rcases hl with hReady | hTaken
      · exact inv.places hMem hc (Or.inl hReady)
      · obtain rfl : k = l := Option.some.inj hTaken
        exact inv.isolated.places _ k (.queue i hPop.2.2)
  · simp at h

/-- The poll of a worker returns the first runnable of its buffer. -/
theorem Inv.popAndInject {s s' : State T R C K} (inv : Inv workers s) {t : T}
    (h : next workers s (.popAndInject t) = some s') : Inv workers s' := by
  obtain ⟨call, rest, context, hCalls, hContext, h⟩ := inCall_eq h
  have hMem : call ∈ (s.threads t).calls := by simp [hCalls]
  have hc : s.executorOf call.context = some context.executor := by
    simp [State.executorOf, hContext]
  split at h
  · next k ready hIdle hNone hReady =>
      obtain rfl := Option.some.inj h
      have hInject : Inv workers (s.inject context.executor ready) := by
        refine inv.keeps (keeps_inject s context.executor ready) ?_
        rintro executor l ⟨rfl, hl⟩
        exact inv.places hMem hc (Or.inl (by simp [hReady, hl]))
      refine hInject.keeps (keeps_setCall _ (by exact hCalls) [] (some k)) ?_
      rintro executor l ⟨hd, hl⟩
      obtain rfl : context.executor = executor := Option.some.inj (hc.symm.trans hd)
      obtain rfl : k = l := by simpa using hl
      exact inv.places hMem hc (Or.inl (by simp [hReady]))
  · simp at h

omit [DecidableEq R] [DecidableEq K] [Fintype T] [Fintype K] [DecidableEq C] in
theorem setCall_self (s : State T R C K) (t : T) (call : Call R C K) (rest : List (Call R C K)) :
    ((s.setCall t call rest).threads t).calls = call :: rest := by
  simp [State.setCall, State.setThread]

omit [DecidableEq R] [Fintype T] [Fintype K] [DecidableEq C] in
/-- What a call does before it runs a task does not matter for the run. -/
theorem run_setCall (s : State T R C K) (t : T) (call call' : Call R C K)
    (rest : List (Call R C K)) (k : K) :
    (s.setCall t call' rest).run t call rest k = s.run t call rest k := by
  simp [State.run, State.setCall, State.setThread, State.setTask]

/-- A call takes a runnable and runs it. It is one of its own executor by the invariant. -/
theorem Inv.runTask {s s' : State T R C K} (inv : Inv workers s) {t : T}
    (h : next workers s (.run t) = some s') : Inv workers s' := by
  obtain ⟨call, rest, context, hCalls, hContext, h⟩ := inCall_eq h
  obtain ⟨k, hTaken, h⟩ := Option.bind_eq_some_iff.mp h
  have hMem : call ∈ (s.threads t).calls := by simp [hCalls]
  have hc : s.executorOf call.context = some context.executor := by
    simp [State.executorOf, hContext]
  split at h
  · next hIdle =>
      have hClear := inv.quiet ((keeps_setCall s hCalls call.ready none).mono (by
        rintro executor l ⟨hd, hReady | hNone⟩
        · exact Or.inl (.ready t call hMem hd (Or.inl hReady))
        · simp at hNone))
      rw [← run_setCall _ t _ { call with taken := none }] at h
      refine hClear.run (setCall_self s t _ rest) hIdle.2 (fun executor hd => ?_) h
      obtain rfl : context.executor = executor := Option.some.inj (hc.symm.trans hd)
      exact inv.places hMem hc (Or.inr (Or.inl hTaken))
  · simp at h

/-- A task that stays pending is unfinished still, and is pushed back where it was if it
has been woken. -/
theorem Inv.pendingTask {s s' : State T R C K} (inv : Inv workers s) {t : T}
    (h : next workers s (.pending t) = some s') : Inv workers s' := by
  obtain ⟨call, rest, context, hCalls, hContext, h⟩ := inCall_eq h
  obtain ⟨k, hRunning, h⟩ := Option.bind_eq_some_iff.mp h
  obtain ⟨task, hTask, h⟩ := Option.bind_eq_some_iff.mp h
  have hMem : call ∈ (s.threads t).calls := by simp [hCalls]
  have hc : s.executorOf call.context = some context.executor := by
    simp [State.executorOf, hContext]
  have hOn : task.executor = context.executor := by
    simpa [State.On, hTask] using inv.places hMem hc (Or.inr (Or.inr hRunning))
  simp only at h
  split at h
  · obtain rfl := Option.some.inj h
    exact inv.pause hCalls hRunning hTask _
  · refine (inv.pause hCalls hRunning hTask TASK_SCHEDULED).keeps (keeps_schedule h) ?_
    rintro executor j ⟨rfl, rfl⟩
    simp [State.On, State.setTask, hOn]
  · simp at h

/-- A task that is ready is counted off at the executor that it was counted at. -/
theorem Inv.readyTask {s s' : State T R C K} (inv : Inv workers s) {t : T} {error : Bool}
    (h : next workers s (.ready t error) = some s') : Inv workers s' := by
  obtain ⟨call, rest, context, hCalls, hContext, h⟩ := inCall_eq h
  obtain ⟨k, hRunning, h⟩ := Option.bind_eq_some_iff.mp h
  obtain ⟨task, hTask, rfl⟩ := Option.map_eq_some_iff.mp h
  have hc : s.executorOf call.context = some context.executor := by
    simp [State.executorOf, hContext]
  obtain ⟨hPos, hComplete⟩ := inv.complete hCalls hRunning hTask hc error
  simp only [if_neg hPos]
  exact hComplete

/-- A spawn, and a wake that schedules its task, is on a thread without a context or in
a context of the task's own executor. -/
def Homed (s : State T R C K) : Event T R C K → Prop
  | .spawn t executor _ => s.AtHome t executor
  | .wake t k => ∀ task ∈ s.tasks k, task.state = TASK_IDLE → s.AtHome t task.executor
  | _ => True

/-- A worker index goes to a call of `block_on` at home, which is not searching yet, and
a counter is below the number of workers where a unit is added to it. -/
def Accounted (workers : R → NonZero Nat) (s : State T R C K) : Event T R C K → Prop
  | .blockOn t executor _ i => i ≠ none → s.AtHome t executor
  | .acquire t _ => ∀ call ∈ (s.threads t).calls.head?, call.searching = false
  | .searchRetry _ executor _ => s.searching executor < (workers executor).get
  | .searchBegin t => ∀ call ∈ (s.threads t).calls.head?, ∀ executor ∈ s.executorOf call.context,
      s.searching executor < (workers executor).get
  | _ => True

instance (s : State T R C K) : (e : Event T R C K) → Decidable (Homed s e)
  | .spawn t executor _ => inferInstanceAs (Decidable (s.AtHome t executor))
  | .wake t k => inferInstanceAs
      (Decidable (∀ task ∈ s.tasks k, task.state = TASK_IDLE → s.AtHome t task.executor))
  | .enter _ _ _ | .exit _ | .blockOn _ _ _ _ | .blockOnEnd _ | .acquire _ _ | .release _
  | .notify _ _ _ | .notifyEnd _ _ _ | .searchRetry _ _ _ | .searchBegin _ | .searchDiscovered _
  | .intercept _ | .collect _ | .inject _ | .consume _ _ | .steal _ _ _ | .pop _ _
  | .popAndInject _ | .run _ | .pending _ | .ready _ _ => .isTrue trivial

instance (s : State T R C K) : (e : Event T R C K) → Decidable (Accounted workers s e)
  | .blockOn t executor _ i => inferInstanceAs (Decidable (i ≠ none → s.AtHome t executor))
  | .acquire t _ => inferInstanceAs
      (Decidable (∀ call ∈ (s.threads t).calls.head?, call.searching = false))
  | .searchRetry _ executor _ =>
      inferInstanceAs (Decidable (s.searching executor < (workers executor).get))
  | .searchBegin t => inferInstanceAs (Decidable (∀ call ∈ (s.threads t).calls.head?,
      ∀ executor ∈ s.executorOf call.context, s.searching executor < (workers executor).get))
  | .enter _ _ _ | .exit _ | .blockOnEnd _ | .release _ | .notify _ _ _ | .notifyEnd _ _ _
  | .searchDiscovered _ | .spawn _ _ _ | .wake _ _ | .intercept _ | .collect _ | .inject _
  | .consume _ _ | .steal _ _ _ | .pop _ _ | .popAndInject _ | .run _ | .pending _
  | .ready _ _ => .isTrue trivial

/-- Every step that is at home and accounted for keeps the runtimes apart. -/
theorem Inv.next {s s' : State T R C K} {e : Event T R C K} (inv : Inv workers s)
    (hHome : Homed s e) (hAccounted : Accounted workers s e)
    (h : Runtimes.next workers s e = some s') : Inv workers s' := by
  cases e with
  | enter t executor c =>
      obtain ⟨⟨entered, d, owned⟩, hEnter, rfl⟩ := Option.map_eq_some_iff.mp h
      exact (inv.enter hEnter).1
  | exit t =>
      simp only [Runtimes.next] at h
      split at h
      · obtain rfl := Option.some.inj h
        exact inv.quiet (keeps_setCurrent s t fun c hNone => by simp at hNone)
      · simp at h
  | blockOn => exact inv.blockOn hAccounted h
  | blockOnEnd => exact inv.blockOnEnd h
  | acquire => exact inv.acquire hAccounted h
  | release => exact inv.release h
  | notify => exact inv.notify (Or.inl h)
  | notifyEnd => exact inv.notify (Or.inr h)
  | searchRetry => exact inv.searchRetry hAccounted h
  | searchBegin => exact inv.searchBegin hAccounted h
  | searchDiscovered t => exact inv.searchDiscovered h
  | spawn => exact inv.spawn hHome h
  | wake => exact inv.wake hHome h
  | intercept => exact inv.buffers (Or.inl h)
  | collect => exact inv.buffers (Or.inr (Or.inl h))
  | inject => exact inv.buffers (Or.inr (Or.inr h))
  | consume t k => exact inv.queues (i := 0) (Or.inl h)
  | steal => exact inv.queues (Or.inr h)
  | pop => exact inv.pop h
  | popAndInject t => exact inv.popAndInject h
  | run => exact inv.runTask h
  | pending => exact inv.pendingTask h
  | ready => exact inv.readyTask h

/-- At the start nothing has been spawned or entered. -/
theorem inv_initial : Inv workers (system T C K workers).initial := by
  have hNowhere : ∀ executor k, ¬(system T C K workers).initial.Has executor k := by
    intro executor k h
    cases h <;> simp_all [system]
  refine ⟨⟨fun _ => rfl, fun executor k h => (hNowhere executor k h).elim, fun executor => ?_⟩,
    fun t c h => by simp [system] at h, fun t call h => by simp [system] at h, fun k => ?_,
    fun executor => ?_, fun executor => Nat.zero_le _⟩
  · simp [system, Tally.total, unfinished, active]
  · simp [system, Tally.total, runs, polled]
  · simp [system, Tally.total, searchers]

theorem inv_of_run {steps : List (State T R C K × Event T R C K)} {s : State T R C K}
    (run : (system T C K workers).Run steps s)
    (hSteps : Meets (fun s e => Homed s e ∧ Accounted workers s e) steps) : Inv workers s := by
  induction run with
  | refl => exact inv_initial
  | step prior last ih =>
      rw [meets_append, meets_singleton] at hSteps
      exact (ih hSteps.1).next hSteps.2.1 hSteps.2.2 last

omit [Fintype T] [Fintype K] [DecidableEq K] [DecidableEq T] in
/-- A task that is scheduled is somewhere in the executor whose context the thread has. -/
theorem has_schedule {s s' : State T R C K} {executor : R} {k : K} {context : Option C}
    (h : s.schedule executor k context = some s') : s'.Has executor k := by
  cases context with
  | none =>
      obtain rfl := Option.some.inj h
      exact .injector (by simp [State.inject])
  | some c =>
      obtain ⟨context, hContext, hNext⟩ := Option.bind_eq_some_iff.mp h
      split at hNext
      · simp at hNext
      · next hSame =>
          split at hNext <;> obtain rfl := Option.some.inj hNext
          · next ready hReady =>
              have hExecutor : context.executor = executor := by simpa [eq_comm] using hSame
              exact .intercept c _ (ready ++ [k]) (Function.update_self ..) hExecutor rfl (by simp)
          · next i _ hProducer => exact .queue i (by simp [State.setQueue])
          · exact .injector (by simp [State.inject])

/-- A spawn or a wake on a foreign thread breaks the isolation. -/
theorem homed_of_isolated {s s' : State T R C K} {e : Event T R C K}
    (h : next workers s e = some s') (isolated : Isolated s') : Homed s e := by
  cases e with
  | spawn t executor k =>
      intro current hCurrent
      obtain ⟨c, hc, hOf⟩ := Option.bind_eq_some_iff.mp hCurrent
      obtain ⟨context, hContext, rfl⟩ := Option.map_eq_some_iff.mp hOf
      by_contra hNe
      simp only [next] at h
      split at h
      · obtain rfl := Option.some.inj h
        have hRefused := isolated.refused t
        simp [State.schedule, State.setTask, State.setPending, State.setThread, hc, hContext,
          Ne.symm hNe] at hRefused
      · simp at h
  | wake t k =>
      intro task hTask hIdle current hCurrent
      obtain ⟨c, hc, hOf⟩ := Option.bind_eq_some_iff.mp hCurrent
      obtain ⟨context, hContext, rfl⟩ := Option.map_eq_some_iff.mp hOf
      obtain ⟨other, hOther, h⟩ := Option.bind_eq_some_iff.mp h
      obtain rfl : other = task := Option.some.inj (hOther.symm.trans hTask)
      have hTransition : transitionToScheduled other.state = (TASK_SCHEDULED, true) := by
        simp [transitionToScheduled, hIdle]
      simp only [hTransition, if_true] at h
      simp only [State.scheduleTask, State.setTask, hc, hContext, Option.bind_some] at h
      have hOn := isolated.places _ k (has_schedule h)
      rw [(keeps_schedule h).on] at hOn
      simpa [State.On, eq_comm] using hOn
  | _ => trivial

/-- The runtimes are isolated in every state of a run in which each spawn and each wake
is on a thread of its own runtime or of none, as long as no assertion of a counter fails:
each worker index goes to a call at home that is not searching, and each counter has room
for the units that are added. Isolation in turn leaves no other threads to spawns and
wakes. -/
theorem isolated_of_homed (steps : List (State T R C K × Event T R C K)) (s : State T R C K)
    (run : (system T C K workers).Run steps s) :
    (Meets (fun s e => Homed s e ∧ Accounted workers s e) steps →
      Meets (fun s _ => Isolated s) steps ∧ Isolated s) ∧
    (Meets (fun s _ => Isolated s) steps ∧ Isolated s → Meets Homed steps) := by
  constructor
  · intro hSteps
    refine ⟨fun x hMem => ?_, (inv_of_run run hSteps).isolated⟩
    obtain ⟨first, second, rfl⟩ := List.append_of_mem hMem
    obtain ⟨t, before, -⟩ := System.Path.split run
    rw [meets_append] at hSteps
    exact (inv_of_run before hSteps.1).isolated
  · induction run with
    | refl => simp
    | step prior last ih =>
        rintro ⟨hSteps, hLast⟩
        rw [meets_append, meets_singleton] at hSteps
        rw [meets_append, meets_singleton]
        exact ⟨ih hSteps, homed_of_isolated last hLast⟩

/-- Two runtimes with two workers each. -/
def pair : Fin 2 → NonZero Nat := fun _ => ⟨2, Nat.succ_ne_zero 1⟩

/-- A thread outside spawns a task on a runtime, and a thread of its pool polls it. The
first enters the other runtime for a `block_on`, returns and wakes the task. -/
theorem isolated_of_homed_wake : ∃ steps s,
    (system (Fin 2) (Fin 2) (Fin 1) pair).Run steps s ∧ s.injectors 1 = [0] ∧
      Meets (fun s _ => Isolated s) steps ∧ Isolated s := by
  let events : List (Event (Fin 2) (Fin 2) (Fin 2) (Fin 1)) :=
    [.spawn 0 1 0, .notify 0 1 .spawn, .blockOn 1 1 1 (some 0), .consume 1 0, .pop 1 0,
      .searchDiscovered 1, .run 1, .searchRetry 0 0 .other, .blockOn 0 0 0 (some 1),
      .searchDiscovered 0, .pending 1, .release 1, .blockOnEnd 0, .wake 0 0]
  obtain ⟨s, run, hs⟩ := (system (Fin 2) (Fin 2) (Fin 1) pair).exists_run_of_replay events
    (fun s => s.injectors 1) [0] (by decide)
  have hSteps : ∀ x ∈ (system (Fin 2) (Fin 2) (Fin 1) pair).trace
      (system (Fin 2) (Fin 2) (Fin 1) pair).initial events,
      Homed x.1 x.2 ∧ Accounted pair x.1 x.2 := by decide
  exact ⟨_, s, run, hs, (isolated_of_homed _ s run).1 hSteps⟩

/-- A thread in `block_on` of another runtime wakes the task, which goes to that
thread's runtime. -/
theorem foreignWake_moves : ¬∀ s, (system (Fin 2) (Fin 2) (Fin 1) pair).Reachable s →
    Isolated s := by
  intro h
  obtain ⟨s, run, hs⟩ := (system (Fin 2) (Fin 2) (Fin 1) pair).exists_run_of_replay
    [.spawn 0 1 0, .notify 0 1 .spawn, .blockOn 1 1 1 (some 0), .consume 1 0, .pop 1 0,
      .searchDiscovered 1, .run 1, .pending 1, .blockOn 0 0 0 none, .wake 0 0]
    (fun s => (s.injectors 0, (s.tasks 0).map TaskCell.executor)) ([0], some 1) (by decide)
  simp only [Prod.mk.injEq] at hs
  have hOn : s.On 0 0 := (h s run.reachable).places 0 0 (.injector (by rw [hs.1]; simp))
  rw [State.On, hs.2] at hOn
  simp at hOn

/-- With the context of one runtime, `block_on` of another gives back its unit to a
counter without units and unwinds before `task_complete`. -/
theorem foreignBlockOn_unwinds : ∃ s, (system (Fin 1) (Fin 1) (Fin 1) pair).Reachable s ∧
    (s.threads 0).calls = [] ∧ s.tasks 0 = none ∧ s.pending 1 = 1 := by
  obtain ⟨s, run, hs⟩ := (system (Fin 1) (Fin 1) (Fin 1) pair).exists_run_of_replay
    [.enter 0 0 0, .searchRetry 0 1 .other, .blockOn 0 1 0 (some 1), .searchDiscovered 0]
    (fun s => ((s.threads 0).calls, s.tasks 0, s.pending 1)) ([], none, 1) (by decide)
  simp only [Prod.mk.injEq] at hs
  exact ⟨s, run.reachable, hs⟩

end Yaar.Runtime.Runtimes
