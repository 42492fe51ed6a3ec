import Yaar.Runtime.RuntimesPlaces

/-! What it is for runtimes to be isolated from one another, and what the operations
on a thread, on a task and on the counters keep of it. -/
namespace Yaar.Runtime.Runtimes

open Machine TaskState

variable {T R C K : Type*}

section
variable [DecidableEq R] [DecidableEq K]

/-- Whether a task is unfinished on an executor. -/
def unfinished (executor : R) : Option (TaskCell R) → Nat
  | some task => if task.executor = executor ∧ (task.data = .pending ∨ task.data = .polling) then 1 else 0
  | none => 0

/-- The calls of `block_on` of an executor on a thread. -/
def active (executor : R) (th : Thread R C K) : Nat :=
  th.calls.countP (·.executor = executor)

/-- How often a thread is in a run of a task. -/
def runs (k : K) (th : Thread R C K) : Nat := th.calls.countP (·.running = some k)

/-- `spawn` has not failed, tasks are only where their executor has them, and each
count of pending work is that of the executor's own. -/
structure Isolated [Fintype T] [Fintype K] (s : State T R C K) : Prop where
  refused : ∀ t, (s.threads t).refused = false
  places : ∀ executor k, s.Has executor k → s.On k executor
  pending : ∀ executor, s.pending executor =
    Tally.total (unfinished executor) s.tasks + Tally.total (active executor) s.threads

end

section
variable [DecidableEq R] [DecidableEq K] [Fintype T] [Fintype K]

/-- Whether a task is being polled. -/
def polled (task : Option (TaskCell R)) : Nat :=
  if task.map TaskCell.data = some .polling then 1 else 0

/-- The calls on a thread that are searching for an executor. -/
def searchers (executorOf : C → Option R) (executor : R) (th : Thread R C K) : Nat :=
  th.calls.countP fun call => call.searching && executorOf call.context = some executor

/-- Isolation, with the contexts of threads open, one run for each task that is being
polled, and each unit of a counter with one call of the executor or with none. -/
structure Inv (workers : R → NonZero Nat) (s : State T R C K) : Prop where
  isolated : Isolated s
  current : ∀ t c, (s.threads t).current = some c → s.executorOf c ≠ none
  calls : ∀ t, ∀ call ∈ (s.threads t).calls, s.executorOf call.context ≠ none
  runs : ∀ k, Tally.total (runs k) s.threads = polled (s.tasks k)
  searching : ∀ executor, s.searching executor =
    s.tokens executor + Tally.total (searchers s.executorOf executor) s.threads
  room : ∀ executor, s.searching executor ≤ (workers executor).get

variable {workers : R → NonZero Nat}

omit [DecidableEq K] [Fintype T] [Fintype K] in
/-- The calls of an executor are counted by what steps keep of them. -/
theorem active_kept (executor : R) (th : Thread R C K) :
    active executor th = (th.calls.map Call.kept).countP (·.1 = executor) := by
  simp only [active, List.countP_map]
  rfl

omit [DecidableEq R] [Fintype T] [Fintype K] in
theorem runs_kept (k : K) (th : Thread R C K) :
    runs k th = (th.calls.map Call.kept).countP (·.2.2.2 = some k) := by
  simp only [runs, List.countP_map]
  rfl

omit [DecidableEq K] [Fintype T] [Fintype K] in
theorem searchers_kept (executorOf : C → Option R) (executor : R) (th : Thread R C K) :
    searchers executorOf executor th = (th.calls.map Call.kept).countP fun kept =>
      kept.2.2.1 && executorOf kept.2.1 = some executor := by
  simp only [searchers, List.countP_map]
  rfl

omit [DecidableEq K] [Fintype T] [Fintype K] in
/-- Whether a task is unfinished depends on its executor and its data. -/
theorem unfinished_kept (executor : R) {task task' : Option (TaskCell R)}
    (h : task'.map TaskCell.kept = task.map TaskCell.kept) :
    unfinished executor task' = unfinished executor task := by
  cases task <;> cases task' <;> simp_all [TaskCell.kept, unfinished]

/-- A step that only moves runnables about keeps the invariant, if they come to places
of their own executor. -/
theorem Inv.keeps {s s' : State T R C K} {new : R → K → Prop} (inv : Inv workers s)
    (keeps : Keeps s s' new) (hNew : ∀ executor k, new executor k → s.On k executor) : Inv workers s' := by
  refine ⟨⟨fun t => ?_, fun executor k h => ?_, fun executor => ?_⟩, fun t c h => ?_,
    fun t call hCall => ?_, fun k => ?_, fun executor => ?_, fun executor => ?_⟩
  · rw [keeps.refused, inv.isolated.refused]
  · rw [keeps.on]
    exact (keeps.has executor k h).elim (inv.isolated.places executor k) (hNew executor k)
  · rw [keeps.pending, inv.isolated.pending]
    congr 1
    · exact Finset.sum_congr rfl fun k _ => (unfinished_kept executor (keeps.tasks k)).symm
    · exact Finset.sum_congr rfl fun t _ => by rw [active_kept, active_kept, keeps.calls]
  · refine (keeps.current t c h).elim (fun hSame => ?_) id
    obtain ⟨executor, hExecutor⟩ := Option.ne_none_iff_exists'.mp (inv.current t c hSame)
    simp [keeps.contexts c executor hExecutor]
  · have hMem : call.kept ∈ (s.threads t).calls.map Call.kept :=
      keeps.calls t ▸ List.mem_map_of_mem hCall
    obtain ⟨old, hOld, hKept⟩ := List.mem_map.mp hMem
    have hContext : old.context = call.context := congrArg (·.2.1) hKept
    obtain ⟨executor, hExecutor⟩ := Option.ne_none_iff_exists'.mp (inv.calls t old hOld)
    rw [← hContext, keeps.contexts _ executor hExecutor]
    simp
  · have hData : (s'.tasks k).map TaskCell.data = (s.tasks k).map TaskCell.data := by
      have h := congrArg (Option.map Prod.snd) (keeps.tasks k)
      simp only [Option.map_map] at h
      exact h
    rw [polled, hData, ← polled, ← inv.runs k]
    exact Finset.sum_congr rfl fun t _ => by rw [runs_kept, runs_kept, keeps.calls]
  · rw [keeps.searching, keeps.tokens, inv.searching]
    congr 1
    refine Finset.sum_congr rfl fun t _ => ?_
    rw [searchers_kept s'.executorOf, keeps.calls, ← searchers_kept]
    refine List.countP_congr fun call hCall => ?_
    obtain ⟨other, hOther⟩ := Option.ne_none_iff_exists'.mp (inv.calls t call hCall)
    simp [hOther, keeps.contexts _ other hOther]
  · rw [keeps.searching]
    exact inv.room executor

variable [DecidableEq T]

omit [DecidableEq R] [DecidableEq K] [Fintype K] in
/-- A change of one thread changes a count of calls by the counts of its own. -/
theorem total_setThread (p : Call R C K → Bool) (s : State T R C K) (t : T) (th : Thread R C K) :
    Tally.total (fun th => th.calls.countP p) (s.setThread t th).threads +
        (s.threads t).calls.countP p =
      Tally.total (fun th => th.calls.countP p) s.threads + th.calls.countP p := by
  have hTotal := Tally.total_update (fun th : Thread R C K => th.calls.countP p) s.threads t th
  simp only [State.setThread]
  omega

omit [DecidableEq K] [Fintype K] in
theorem active_setThread (executor : R) (s : State T R C K) (t : T) (th : Thread R C K) :
    Tally.total (active executor) (s.setThread t th).threads + active executor (s.threads t) =
      Tally.total (active executor) s.threads + active executor th :=
  total_setThread _ s t th

omit [DecidableEq R] [Fintype K] in
theorem runs_setThread (k : K) (s : State T R C K) (t : T) (th : Thread R C K) :
    Tally.total (runs k) (s.setThread t th).threads + runs k (s.threads t) =
      Tally.total (runs k) s.threads + runs k th :=
  total_setThread _ s t th

omit [DecidableEq K] [Fintype K] in
theorem searchers_setThread (executorOf : C → Option R) (executor : R) (s : State T R C K) (t : T)
    (th : Thread R C K) :
    Tally.total (searchers executorOf executor) (s.setThread t th).threads +
        searchers executorOf executor (s.threads t) =
      Tally.total (searchers executorOf executor) s.threads + searchers executorOf executor th :=
  total_setThread _ s t th

/-- A step of one thread that changes tasks and counts with its calls. -/
theorem Inv.update {s s' : State T R C K} (inv : Inv workers s) {t : T} (th : Thread R C K)
    (hThreads : s'.threads = Function.update s.threads t th)
    (hQueues : s'.injectors = s.injectors ∧ s'.queues = s.queues ∧ s'.contexts = s.contexts)
    (hTasks : ∀ k, s.tasks k = none ∨
      (s'.tasks k).map TaskCell.executor = (s.tasks k).map TaskCell.executor)
    (hRefused : th.refused = false) (hCurrent : ∀ c, th.current = some c → s.executorOf c ≠ none)
    (hCalls : ∀ call ∈ th.calls, s.executorOf call.context ≠ none)
    (hPlaces : ∀ call ∈ th.calls, ∀ executor, s.executorOf call.context = some executor →
      ∀ k, k ∈ call.ready ∨ call.taken = some k ∨ call.running = some k → s.On k executor)
    (hPending : ∀ executor, s'.pending executor + Tally.total (unfinished executor) s.tasks +
        active executor (s.threads t) =
      s.pending executor + Tally.total (unfinished executor) s'.tasks + active executor th)
    (hRuns : ∀ k, Runtimes.runs k th + polled (s.tasks k) =
      Runtimes.runs k (s.threads t) + polled (s'.tasks k))
    (hUnits : ∀ executor, s'.searching executor + s.tokens executor +
        searchers s.executorOf executor (s.threads t) =
      s.searching executor + s'.tokens executor + searchers s.executorOf executor th)
    (hRoom : ∀ executor, s'.searching executor ≤ (workers executor).get) :
    Inv workers s' := by
  obtain ⟨hInjectors, hQueues, hContexts⟩ := hQueues
  have hExecutor : ∀ c, s'.executorOf c = s.executorOf c := fun c => by
    rw [State.executorOf, hContexts, State.executorOf]
  have hThread : ∀ u, s'.threads u = th ∧ u = t ∨ s'.threads u = s.threads u := by
    intro u
    rw [hThreads, Function.update_apply]
    split
    · next hEq => exact Or.inl ⟨rfl, hEq⟩
    · exact Or.inr rfl
  have hOn : ∀ k executor, s.On k executor → s'.On k executor := by
    intro k executor h
    rcases hTasks k with hNone | hSame
    · simp [State.On, hNone] at h
    · rw [State.On, hSame]
      exact h
  refine ⟨⟨fun u => ?_, fun executor k h => hOn k executor ?_, fun executor => ?_⟩,
    fun u c h => ?_, fun u call hCall => ?_, fun k => ?_, fun executor => ?_, hRoom⟩
  · rcases hThread u with ⟨hEq, -⟩ | hEq <;> rw [hEq]
    · exact hRefused
    · exact inv.isolated.refused u
  · cases h with
    | injector h => exact inv.isolated.places executor k (.injector (hInjectors ▸ h))
    | queue i h => exact inv.isolated.places executor k (.queue i (hQueues ▸ h))
    | intercept c context ready hc hSame hReady h =>
        exact inv.isolated.places executor k
          (.intercept c context ready (hContexts ▸ hc) hSame hReady h)
    | ready u call hCall hc h =>
        rw [hExecutor] at hc
        rcases hThread u with ⟨hEq, -⟩ | hEq <;> rw [hEq] at hCall
        · exact hPlaces call hCall executor hc k (or_assoc.mp (Or.inl h))
        · exact inv.isolated.places executor k (.ready u call hCall hc h)
    | running u call hCall hc h =>
        rw [hExecutor] at hc
        rcases hThread u with ⟨hEq, -⟩ | hEq <;> rw [hEq] at hCall
        · exact hPlaces call hCall executor hc k (Or.inr (Or.inr h))
        · exact inv.isolated.places executor k (.running u call hCall hc h)
  · have hActive := active_setThread executor s t th
    have hBefore := inv.isolated.pending executor
    have hChange := hPending executor
    rw [hThreads]
    simp only [State.setThread] at hActive
    omega
  · rw [hExecutor]
    rcases hThread u with ⟨hEq, -⟩ | hEq <;> rw [hEq] at h
    · exact hCurrent c h
    · exact inv.current u c h
  · rw [hExecutor]
    rcases hThread u with ⟨hEq, -⟩ | hEq <;> rw [hEq] at hCall
    · exact hCalls call hCall
    · exact inv.calls u call hCall
  · have hChange := runs_setThread k s t th
    have hBefore := inv.runs k
    have hHere := hRuns k
    rw [hThreads]
    simp only [State.setThread] at hChange
    omega
  · have hChange := searchers_setThread s.executorOf executor s t th
    have hBefore := inv.searching executor
    have hHere := hUnits executor
    rw [hThreads, show s'.executorOf = s.executorOf from funext hExecutor]
    simp only [State.setThread] at hChange
    omega

omit [DecidableEq T] in
/-- A runnable that a call has is of the executor whose context the call has. -/
theorem Inv.places {s : State T R C K} (inv : Inv workers s) {t : T} {call : Call R C K}
    (hCall : call ∈ (s.threads t).calls) {executor : R}
    (hc : s.executorOf call.context = some executor) {k : K}
    (h : k ∈ call.ready ∨ call.taken = some k ∨ call.running = some k) : s.On k executor :=
  inv.isolated.places executor k
    ((or_assoc.mpr h).elim (.ready t call hCall hc) (.running t call hCall hc))

/-- A call of `block_on` starts in an open context. -/
theorem Inv.call {s : State T R C K} (inv : Inv workers s) (t : T) (executor : R) {c : C}
    (owned : Bool) (hOpen : s.executorOf c ≠ none) :
    Inv workers (s.begin t ⟨executor, c, owned, false, [], none, none⟩) := by
  refine inv.update _ rfl ⟨rfl, rfl, rfl⟩ (fun k => Or.inr rfl) (inv.isolated.refused t)
    (inv.current t) (fun call h => ?_) (fun call h other hc k hk => ?_) (fun other => ?_)
    (fun k => ?_) (fun other => ?_) inv.room
  · rcases List.mem_cons.mp h with rfl | hOld
    · exact hOpen
    · exact inv.calls t call hOld
  · rcases List.mem_cons.mp h with rfl | hOld
    · simp at hk
    · exact inv.places hOld hc hk
  · simp only [State.begin, State.setCall, State.setThread, State.setPending, active,
      List.countP_cons, Function.update_apply, decide_eq_true_eq]
    by_cases hEq : other = executor
    · subst hEq
      simp only [if_true]
      omega
    · rw [if_neg hEq, if_neg (Ne.symm hEq)]
      omega
  · simp [Runtimes.runs, State.begin, State.setCall, State.setThread, State.setPending]
  · simp [searchers, State.begin, State.setCall, State.setThread, State.setPending]

/-- A call of `block_on` that runs no task ends. -/
theorem Inv.leave {s : State T R C K} (inv : Inv workers s) {t : T} {call : Call R C K}
    {rest : List (Call R C K)} (hCalls : (s.threads t).calls = call :: rest)
    (hRunning : call.running = none) (hSearching : call.searching = false) :
    s.pending call.executor ≠ 0 ∧
      Inv workers ((s.setPending call.executor (fetchSub (s.pending call.executor))).leave t call rest) := by
  have hRest : ∀ other ∈ rest, other ∈ (s.threads t).calls := fun other h => by
    rw [hCalls]
    exact List.mem_cons_of_mem _ h
  have hCount := inv.isolated.pending call.executor
  have hActive := Tally.le_total (active call.executor) s.threads t
  have hHere : 0 < active call.executor (s.threads t) := by simp [active, hCalls]
  have hPos : s.pending call.executor ≠ 0 := by omega
  refine ⟨hPos, inv.update _ rfl ⟨rfl, rfl, rfl⟩ (fun k => Or.inr rfl) (inv.isolated.refused t)
    (fun c h => ?_) (fun other h => inv.calls t other (hRest other h))
    (fun other h executor hc k hk => inv.places (hRest other h) hc hk) (fun other => ?_)
    (fun k => ?_) (fun other => ?_) inv.room⟩
  · refine inv.current t c ?_
    simp only [State.setPending] at h
    split at h
    · simp at h
    · exact h
  · simp only [State.leave, State.setThread, State.setPending, active, hCalls, List.countP_cons,
      Function.update_apply, decide_eq_true_eq, fetchSub, if_neg hPos]
    by_cases hEq : other = call.executor
    · subst hEq
      simp only [if_true]
      omega
    · rw [if_neg hEq, if_neg (Ne.symm hEq)]
      omega
  · simp [Runtimes.runs, State.leave, State.setThread, State.setPending, hCalls, hRunning]
  · simp [searchers, State.leave, State.setThread, State.setPending, hCalls, hSearching]

/-- A new task is counted. -/
theorem Inv.begin {s : State T R C K} (inv : Inv workers s) {k : K} (hFresh : s.tasks k = none)
    (t : T) (executor : R) (state : TaskState) :
    Inv workers ((s.setPending executor (s.pending executor + 1)).setTask k
      ⟨executor, state, .pending⟩) := by
  refine inv.update (t := t) (s.threads t) (Function.update_eq_self t s.threads).symm ⟨rfl, rfl, rfl⟩
    (fun j => ?_) (inv.isolated.refused t) (inv.current t) (inv.calls t)
    (fun call h other hc j hj => inv.places h hc hj) (fun other => ?_) (fun j => ?_)
    (fun other => rfl) inv.room
  · by_cases hEq : j = k
    · exact Or.inl (hEq ▸ hFresh)
    · exact Or.inr (by simp [State.setTask, State.setPending, Function.update_of_ne hEq])
  · have hTotal := Tally.total_update (unfinished other) s.tasks k
      (some ⟨executor, state, .pending⟩)
    rw [hFresh] at hTotal
    simp only [State.setTask, State.setPending, Function.update_apply]
    by_cases hEq : other = executor
    · subst hEq
      simp only [unfinished] at hTotal
      simp at hTotal ⊢
      omega
    · simp only [unfinished, if_neg (fun h : executor = other ∧ _ => hEq h.1.symm)] at hTotal
      rw [if_neg hEq]
      omega
  · by_cases hEq : j = k
    · subst hEq
      simp [State.setTask, State.setPending, hFresh, polled]
    · simp [State.setTask, State.setPending, Function.update_of_ne hEq]

omit [DecidableEq T] in
/-- The task that a thread runs is being polled, by no other run. -/
theorem Inv.polling {s : State T R C K} (inv : Inv workers s) {t : T} {call : Call R C K}
    {rest : List (Call R C K)} (hCalls : (s.threads t).calls = call :: rest) {k : K}
    (hRunning : call.running = some k) {task : TaskCell R} (hTask : s.tasks k = some task) :
    task.data = .polling := by
  have hCount := inv.runs k
  have hLe := Tally.le_total (Runtimes.runs k) s.threads t
  have hHere : 0 < Runtimes.runs k (s.threads t) := by simp [Runtimes.runs, hCalls, hRunning]
  by_contra hNot
  rw [hTask, polled, if_neg (by simpa using hNot)] at hCount
  omega

/-- A task starts or stops being polled in the innermost call of a thread. -/
theorem Inv.setData {s : State T R C K} (inv : Inv workers s) {t : T} {call call' : Call R C K}
    {rest : List (Call R C K)} (hCalls : (s.threads t).calls = call :: rest) {k : K}
    {task task' : TaskCell R} (hTask : s.tasks k = some task)
    (hCall : call'.executor = call.executor ∧ call'.context = call.context ∧
      call'.searching = call.searching ∧ call'.ready = call.ready ∧ call'.taken = call.taken)
    (hRunning : call'.running = some k ∨ call'.running = none)
    (hOn : ∀ executor, s.executorOf call.context = some executor → s.On k executor)
    (hExecutor : task'.executor = task.executor)
    (hUnfinished : ∀ executor, unfinished executor (some task') = unfinished executor (some task))
    (hRuns : ∀ j, (if call'.running = some j then 1 else 0) + polled (s.tasks j) =
      (if call.running = some j then 1 else 0) + polled (if j = k then some task' else s.tasks j)) :
    Inv workers ((s.setTask k task').setCall t call' rest) := by
  have hRest : ∀ other ∈ rest, other ∈ (s.threads t).calls := fun other h => by
    rw [hCalls]
    exact List.mem_cons_of_mem _ h
  have hMem : call ∈ (s.threads t).calls := by simp [hCalls]
  refine inv.update _ rfl ⟨rfl, rfl, rfl⟩ (fun j => ?_) (inv.isolated.refused t)
    (inv.current t) (fun other h => ?_) (fun other h executor hc j hj => ?_)
    (fun executor => ?_) (fun j => ?_) (fun executor => ?_) inv.room
  · right
    simp only [State.setCall, State.setThread, State.setTask, Function.update_apply]
    split
    · next hEq => simp [hEq, hTask, hExecutor]
    · rfl
  · rcases List.mem_cons.mp h with rfl | hOld
    · rw [hCall.2.1]
      exact inv.calls t call hMem
    · exact inv.calls t other (hRest other hOld)
  · rcases List.mem_cons.mp h with rfl | hOld
    · rw [hCall.2.1] at hc
      rw [hCall.2.2.2.1, hCall.2.2.2.2] at hj
      rcases or_assoc.mpr hj with hReady | hSome
      · exact inv.places hMem hc (or_assoc.mp (Or.inl hReady))
      · obtain rfl : k = j := by
          rcases hRunning with hk | hNone
          · exact Option.some.inj (hk.symm.trans hSome)
          · simp [hNone] at hSome
        exact hOn executor hc
    · exact inv.places (hRest other hOld) hc hj
  · have hTotal := Tally.total_update (unfinished executor) s.tasks k (some task')
    rw [hTask, hUnfinished] at hTotal
    simp only [State.setCall, State.setThread, State.setTask, active, hCalls, List.countP_cons,
      hCall.1]
    omega
  · have hHere := hRuns j
    simp only [Runtimes.runs, State.setCall, State.setThread, State.setTask, hCalls,
      List.countP_cons, Function.update_apply, decide_eq_true_eq]
    omega
  · simp [searchers, State.setCall, State.setThread, State.setTask, hCalls, List.countP_cons,
      hCall.2.1, hCall.2.2.1]

/-- A thread that begins to run a task of its own executor keeps the invariant. -/
theorem Inv.run {s s' : State T R C K} (inv : Inv workers s) {t : T} {call : Call R C K}
    {rest : List (Call R C K)} (hCalls : (s.threads t).calls = call :: rest) {k : K}
    (hIdle : call.running = none)
    (hOn : ∀ executor, s.executorOf call.context = some executor → s.On k executor)
    (h : s.run t call rest k = some s') : Inv workers s' := by
  obtain ⟨task, hTask, h⟩ := Option.bind_eq_some_iff.mp h
  split at h
  · next hPending =>
      obtain rfl := Option.some.inj h
      refine inv.setData hCalls hTask ⟨rfl, rfl, rfl, rfl, rfl⟩ (Or.inl rfl) hOn rfl
        (fun executor => by simp [unfinished, hPending]) fun j => ?_
      by_cases hEq : j = k
      · subst hEq
        simp [hIdle, hTask, polled, hPending]
      · simp [hIdle, hEq, Ne.symm hEq]
  · simp at h

/-- The poll of a task returns and the task is left pending. -/
theorem Inv.pause {s : State T R C K} (inv : Inv workers s) {t : T} {call : Call R C K}
    {rest : List (Call R C K)} (hCalls : (s.threads t).calls = call :: rest) {k : K}
    (hRunning : call.running = some k) {task : TaskCell R} (hTask : s.tasks k = some task)
    (state : TaskState) :
    Inv workers ((s.setCall t { call with running := none } rest).setTask k
      { task with state := state, data := .pending }) := by
  have hPolling := inv.polling hCalls hRunning hTask
  have hMem : call ∈ (s.threads t).calls := by simp [hCalls]
  refine inv.setData hCalls hTask ⟨rfl, rfl, rfl, rfl, rfl⟩ (Or.inr rfl) (fun executor hc => ?_) rfl
    (fun executor => ?_) fun j => ?_
  · exact inv.places hMem hc (Or.inr (Or.inr hRunning))
  · simp [unfinished, hPolling]
  · by_cases hEq : j = k
    · subst hEq
      simp [hRunning, hTask, polled, hPolling]
    · simp [hRunning, hEq, Ne.symm hEq]

/-- A task completes on the executor it was spawned on. -/
theorem Inv.complete {s : State T R C K} (inv : Inv workers s) {t : T} {call : Call R C K}
    {rest : List (Call R C K)} (hCalls : (s.threads t).calls = call :: rest) {k : K}
    (hRunning : call.running = some k) {task : TaskCell R} (hTask : s.tasks k = some task)
    {executor : R} (hc : s.executorOf call.context = some executor) (error : Bool) :
    s.pending executor ≠ 0 ∧
      Inv workers (((s.setTask k { task with data := .ready error }).setPending executor
        (fetchSub (s.pending executor))).setCall t { call with running := none } rest) := by
  have hPolling := inv.polling hCalls hRunning hTask
  have hMem : call ∈ (s.threads t).calls := by simp [hCalls]
  have hRest : ∀ other ∈ rest, other ∈ (s.threads t).calls := fun other h => by
    rw [hCalls]
    exact List.mem_cons_of_mem _ h
  have hOn : task.executor = executor := by
    simpa [State.On, hTask] using inv.places hMem hc (Or.inr (Or.inr hRunning))
  have hCount := inv.isolated.pending executor
  have hLe := Tally.le_total (unfinished executor) s.tasks k
  have hOne : unfinished executor (s.tasks k) = 1 := by simp [unfinished, hTask, hOn, hPolling]
  have hPos : s.pending executor ≠ 0 := by omega
  refine ⟨hPos, inv.update _ rfl ⟨rfl, rfl, rfl⟩ (fun j => ?_) (inv.isolated.refused t)
    (inv.current t) (fun other h => ?_) (fun other h executor' hc' j hj => ?_)
    (fun other => ?_) (fun j => ?_) (fun other => ?_) inv.room⟩
  · right
    simp only [State.setCall, State.setThread, State.setTask, State.setPending,
      Function.update_apply]
    split
    · next hEq => simp [hEq, hTask]
    · rfl
  · rcases List.mem_cons.mp h with rfl | hOld
    · exact inv.calls t call hMem
    · exact inv.calls t other (hRest other hOld)
  · rcases List.mem_cons.mp h with rfl | hOld
    · exact inv.places hMem hc' (hj.imp id (Or.imp id fun hNone => by simp at hNone))
    · exact inv.places (hRest other hOld) hc' hj
  · have hTotal := Tally.total_update (unfinished other) s.tasks k
      (some { task with data := .ready error })
    simp only [State.setCall, State.setThread, State.setTask, State.setPending, active, hCalls,
      List.countP_cons, Function.update_apply, fetchSub, if_neg hPos]
    by_cases hEq : other = executor
    · subst hEq
      rw [hOne] at hTotal
      simp only [unfinished, reduceCtorEq, or_self, and_false, if_false] at hTotal
      simp only [if_true]
      omega
    · have hNe : task.executor ≠ other := hOn ▸ Ne.symm hEq
      rw [hTask] at hTotal
      simp only [unfinished, hNe, false_and, if_false] at hTotal
      rw [if_neg hEq]
      omega
  · simp only [Runtimes.runs, State.setCall, State.setThread, State.setTask, State.setPending, hCalls,
      List.countP_cons, Function.update_apply, decide_eq_true_eq]
    by_cases hEq : j = k
    · subst hEq
      simp [hRunning, hTask, polled, hPolling]
    · simp [hRunning, hEq, Ne.symm hEq]
  · simp [searchers, State.setCall, State.setThread, State.setTask, State.setPending, hCalls,
      List.countP_cons]

/-- A counter and its loose units change together. -/
theorem Inv.setUnits {s : State T R C K} (inv : Inv workers s) (t : T) {executor : R}
    {searching tokens : Nat}
    (hUnits : searching + s.tokens executor = s.searching executor + tokens)
    (hRoom : searching ≤ (workers executor).get) :
    Inv workers ((s.setSearching executor searching).setTokens executor tokens) := by
  refine inv.update (t := t) (s.threads t) (Function.update_eq_self t s.threads).symm
    ⟨rfl, rfl, rfl⟩ (fun k => Or.inr rfl) (inv.isolated.refused t) (inv.current t) (inv.calls t)
    (fun call h other hc j hj => inv.places h hc hj) (fun other => rfl) (fun k => rfl)
    (fun other => ?_) fun other => ?_
  · simp only [State.setTokens, State.setSearching, Function.update_apply]
    split
    · next hEq =>
        subst hEq
        omega
    · rfl
  · simp only [State.setTokens, State.setSearching, Function.update_apply]
    split
    · next hEq => exact hEq ▸ hRoom
    · exact inv.room other

/-- A call takes or gives back a unit of its executor's counter. -/
theorem Inv.setFlag {s : State T R C K} (inv : Inv workers s) {t : T} {call : Call R C K}
    {rest : List (Call R C K)} (hCalls : (s.threads t).calls = call :: rest) {executor : R}
    (hc : s.executorOf call.context = some executor) (flag : Bool) (searching tokens : Nat)
    (hUnits : searching + s.tokens executor + call.searching.toNat =
      s.searching executor + tokens + flag.toNat)
    (hRoom : searching ≤ (workers executor).get) :
    Inv workers (((s.setSearching executor searching).setTokens executor tokens).setCall t
      { call with searching := flag } rest) := by
  have hMem : ∀ other ∈ { call with searching := flag } :: rest, ∃ old ∈ (s.threads t).calls,
      other.context = old.context ∧ other.ready = old.ready ∧ other.taken = old.taken ∧
        other.running = old.running := by
    intro other h
    rw [hCalls]
    rcases List.mem_cons.mp h with rfl | hOld
    · exact ⟨call, by simp, rfl, rfl, rfl, rfl⟩
    · exact ⟨other, List.mem_cons_of_mem _ hOld, rfl, rfl, rfl, rfl⟩
  refine inv.update _ rfl ⟨rfl, rfl, rfl⟩ (fun k => Or.inr rfl) (inv.isolated.refused t)
    (inv.current t) (fun other h => ?_) (fun other h executor hc k hk => ?_) (fun other => ?_)
    (fun k => ?_) (fun other => ?_) fun other => ?_
  · obtain ⟨old, hOld, hContext, -⟩ := hMem other h
    rw [hContext]
    exact inv.calls t old hOld
  · obtain ⟨old, hOld, hContext, hReady, hTaken, hRunning⟩ := hMem other h
    rw [hContext] at hc
    rw [hReady, hTaken, hRunning] at hk
    exact inv.places hOld hc hk
  · simp [active, State.setCall, State.setThread, State.setTokens, State.setSearching, hCalls,
      List.countP_cons]
  · simp [Runtimes.runs, State.setCall, State.setThread, State.setTokens, State.setSearching,
      hCalls, List.countP_cons]
  · simp only [searchers, State.setCall, State.setThread, State.setTokens, State.setSearching,
      hCalls, List.countP_cons, Function.update_apply, hc]
    by_cases hEq : other = executor
    · subst hEq
      cases hOld : call.searching <;> cases flag <;> simp [hOld] at hUnits ⊢ <;> omega
    · simp only [hEq, if_false, Option.some.injEq, Ne.symm hEq, decide_false, Bool.and_false]
  · simp only [State.setCall, State.setThread, State.setTokens, State.setSearching,
      Function.update_apply]
    split
    · next hEq => exact hEq ▸ hRoom
    · exact inv.room other

end

end Yaar.Runtime.Runtimes
