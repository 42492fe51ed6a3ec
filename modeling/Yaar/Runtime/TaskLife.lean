import Yaar.Runtime.Task

/-! The runnable of a task through its life. -/
namespace Yaar.Runtime.Task

open Machine TaskState

variable {T K : Type*}

/-- A thread that has taken the runnable, or has scheduled the task and has
still to push it. -/
def Runner.Holds : Runner → Prop
  | .loadState | .storeRunning | .push => True
  | _ => False

/-- From the store of `TASK_RUNNING` to the end of the run, or to the store of
`TASK_SCHEDULED` that gives the runnable back. -/
def Runner.Runs : Runner → Prop
  | .tryLock | .takeFuture | .pollFuture | .storePending | .unlockPending | .swapIdle
  | .assertNotified | .storeScheduled | .storeReady _ | .unlockReady | .wakeJoin
  | .taskComplete => True
  | _ => False

/-- The lines of `Task::run` that hold the lock of the data. -/
def Runner.Locks : Runner → Prop
  | .takeFuture | .pollFuture | .storePending | .unlockPending | .storeReady _ | .unlockReady => True
  | _ => False

def Joiner.Locks : Joiner → Prop
  | .replaceData | .unlock _ => True
  | _ => False

def Place.IsHand : Place T K → Prop
  | .runner _ | .waker _ | .spawner => True
  | _ => False

/-- The runnable is in these hands, by the line their thread stands at. -/
def State.Holds (s : State T K) : Place T K → Prop
  | .runner t => (s.runners t).Holds
  | .waker k => ∃ context, s.wakers k = .push context
  | .spawner => ∃ context, s.spawner = .push context
  | _ => False

def State.Live (s : State T K) : Prop :=
  s.task = TASK_RUNNING ∨ s.task = TASK_NOTIFIED

/-- The task's state and data while a thread stands at a line of `Task::run`. -/
def State.At (s : State T K) : Runner → Prop
  | .tryLock | .takeFuture | .unlockPending | .swapIdle =>
      s.Live ∧ s.data = .pending ∧ s.completed = false
  | .assertNotified | .storeScheduled =>
      s.task = TASK_NOTIFIED ∧ s.data = .pending ∧ s.completed = false
  | .pollFuture | .storePending => s.Live ∧ s.data = .polling ∧ s.completed = false
  | .storeReady _ | .unlockReady | .wakeJoin => s.Live ∧ s.completed = true ∧ s.woken = false
  | .taskComplete => s.Live ∧ s.completed = true
  | .panicked => False
  | .idle | .loadState | .storeRunning | .push | .notify => True

/-- A scheduled task has one runnable and any other task has none, and a hand
that holds one is on its way to run or to push it. -/
structure Account (s : State T K) : Prop where
  refs : (∃ p, s.refs = [p]) ∧ s.task = TASK_SCHEDULED ∨
    s.refs = [] ∧ (s.task = TASK_IDLE ∨ s.Live)
  hands : ∀ p : Place T K, p.IsHand → (p ∈ s.refs ↔ s.Holds p)

/-- One thread at most runs the task, and it finds the data as its line needs. -/
structure Lines (s : State T K) : Prop where
  line : ∀ t, s.At (s.runners t)
  single : ∀ t u, (s.runners t).Runs → (s.runners u).Runs → t = u
  lock : ∀ t, s.lock = some (.runner t) ↔ (s.runners t).Locks
  joining : s.lock = some .joiner ↔ s.joiner.Locks
  woken : s.joiner ≠ .waiting → s.woken = true
  done : s.woken = true → s.completed = true
  rest : ¬s.Live → s.data = .pending ∧ s.completed = false

/-- Before the first poll nobody can wake the task. -/
structure Birth (s : State T K) : Prop where
  early : ∀ context, s.spawner = .transition context → s.task = TASK_IDLE ∧ s.shared = false
  quiet : s.shared = false → ∀ k, s.wakers k = .idle
  spawned : s.spawner ≠ .panicked

theorem Account.keep {s s' : State T K} (account : Account s) (hTask : s'.task = s.task)
    (hRefs : s'.refs = s.refs) (hHolds : ∀ p, s'.Holds p ↔ s.Holds p) : Account s' := by
  constructor
  · simpa [State.Live, hTask, hRefs] using account.refs
  · intro p hHand
    rw [hRefs, hHolds]
    exact account.hands p hHand

/-- A thread that holds the runnable holds the only one. -/
theorem Account.held {s : State T K} (account : Account s) {p : Place T K} (hHand : p.IsHand)
    (hHolds : s.Holds p) : s.refs = [p] ∧ s.task = TASK_SCHEDULED := by
  have hMem := (account.hands p hHand).mpr hHolds
  rcases account.refs with ⟨⟨q, hq⟩, hTask⟩ | ⟨hNone, _⟩
  · rw [hq, List.mem_singleton] at hMem
    exact ⟨hMem ▸ hq, hTask⟩
  · simp [hNone] at hMem

/-- The only runnable of a scheduled task is now at `q`. -/
theorem Account.at {s : State T K} {q : Place T K} (hRefs : s.refs = [q])
    (hTask : s.task = TASK_SCHEDULED) (hHolds : ∀ p : Place T K, p.IsHand → (s.Holds p ↔ p = q)) :
    Account s :=
  ⟨Or.inl ⟨⟨q, hRefs⟩, hTask⟩, fun p hHand => by rw [hRefs, List.mem_singleton, hHolds p hHand]⟩

/-- A task that is not scheduled has no runnable and no hand that holds one. -/
theorem Account.none {s : State T K} (hRefs : s.refs = []) (hTask : s.task = TASK_IDLE ∨ s.Live)
    (hHolds : ∀ p : Place T K, p.IsHand → ¬s.Holds p) : Account s :=
  ⟨Or.inr ⟨hRefs, hTask⟩, fun p hHand => by simp [hRefs, hHolds p hHand]⟩

theorem Account.refs_nil {s : State T K} (account : Account s) (hTask : s.task ≠ TASK_SCHEDULED) :
    s.refs = [] := by
  rcases account.refs with ⟨_, hEq⟩ | ⟨hRefs, _⟩
  · exact (hTask hEq).elim
  · exact hRefs

/-- A task that is not scheduled is in nobody's hands. -/
theorem Account.free {s : State T K} (account : Account s) (hTask : s.task ≠ TASK_SCHEDULED)
    (p : Place T K) (hHand : p.IsHand) : ¬s.Holds p :=
  fun hHolds => hTask (account.held hHand hHolds).2

/-- A thread with the runnable in its hands is the only one with it. -/
theorem Account.started {s : State T K} {t : T} (account : Account s)
    (hHolds : (s.runners t).Holds) : s.refs = [.runner t] ∧ s.task = TASK_SCHEDULED ∧
      ∀ p : Place T K, p.IsHand → p ≠ .runner t → ¬s.Holds p := by
  obtain ⟨hRefs, hTask⟩ := account.held (p := .runner t) trivial hHolds
  refine ⟨hRefs, hTask, fun p hHand hNe hOther => hNe ?_⟩
  exact List.singleton_inj.mp ((account.held hHand hOther).1.symm.trans hRefs)

/-- A runnable that is scheduled goes to a queue, not to a hand. -/
theorem scheduleTarget_isHand {s : State T K} (context : Option T) :
    ¬(s.scheduleTarget context).IsHand := by
  unfold State.scheduleTarget
  split
  · simp [Place.IsHand]
  · split
    · simp [Place.IsHand]
    · split <;> simp [Place.IsHand]

/-- A thread that does not run the task asks nothing of it. -/
theorem at_of_quiet {s : State T K} {r : Runner} (hRuns : ¬r.Runs) (hPanic : r ≠ .panicked) :
    s.At r := by
  cases r <;> simp_all [State.At, Runner.Runs]

theorem Lines.no_panic {s : State T K} (lines : Lines s) (t : T) : s.runners t ≠ .panicked := by
  intro hPanic
  have hLine := lines.line t
  rwa [hPanic] at hLine

/-- A running thread finds the task running or notified. -/
theorem Lines.live {s : State T K} (lines : Lines s) {t : T} (hRuns : (s.runners t).Runs) :
    s.Live := by
  have hLine := lines.line t
  cases hp : s.runners t <;> simp only [hp, State.At, Runner.Runs, State.Live] at hLine hRuns ⊢ <;>
    grind

/-- The running thread goes on to another line. -/
theorem Lines.running [DecidableEq T] {s s' : State T K} {t : T} {r : Runner} (lines : Lines s)
    (hRuns : (s.runners t).Runs) (hRunners : s'.runners = Function.update s.runners t r)
    (hLine : s'.At r) (hLock : s'.lock = some (.runner t) ↔ r.Locks)
    (hOthers : ∀ holder, holder ≠ .runner t → (s'.lock = some holder ↔ s.lock = some holder))
    (hJoiner : s'.joiner = s.joiner) (hWoken : s.woken = true → s'.woken = true)
    (hDone : s'.woken = true → s'.completed = true)
    (hRest : ¬s'.Live → s'.data = .pending ∧ s'.completed = false) : Lines s' := by
  have hQuiet : ∀ u, u ≠ t → ¬(s.runners u).Runs :=
    fun u hEq hOther => hEq (lines.single u t hOther hRuns)
  have hOther : ∀ u, u ≠ t → s'.runners u = s.runners u := by
    intro u hEq
    rw [hRunners, Function.update_of_ne hEq]
  have hSelf : s'.runners t = r := by simp [hRunners]
  constructor
  · intro u
    by_cases hEq : u = t
    · rwa [hEq, hSelf]
    · rw [hOther u hEq]
      exact at_of_quiet (hQuiet u hEq) (lines.no_panic u)
  · intro u v hu hv
    by_cases hEq : u = t
    · by_cases hEq' : v = t
      · rw [hEq, hEq']
      · rw [hOther v hEq'] at hv
        exact (hQuiet v hEq' hv).elim
    · rw [hOther u hEq] at hu
      exact (hQuiet u hEq hu).elim
  · intro u
    by_cases hEq : u = t
    · rw [hEq, hSelf]
      exact hLock
    · rw [hOther u hEq, hOthers _ (by simpa using hEq)]
      exact lines.lock u
  · rw [hOthers _ (by simp), hJoiner]
    exact lines.joining
  · rw [hJoiner]
    exact fun h => hWoken (lines.woken h)
  · exact hDone
  · exact hRest

/-- Threads outside of the run move, and the task changes in a way that no line
of the run depends on. -/
theorem Lines.frame {s s' : State T K} (lines : Lines s)
    (hRunners : ∀ t, s'.runners t = s.runners t ∨
      ¬(s'.runners t).Runs ∧ ¬(s.runners t).Runs ∧ s'.runners t ≠ .panicked)
    (hLive : s'.Live ↔ s.Live) (hTask : s.task = TASK_NOTIFIED → s'.task = TASK_NOTIFIED)
    (hData : s'.data = s.data) (hLock : s'.lock = s.lock) (hCompleted : s'.completed = s.completed)
    (hWoken : s'.woken = s.woken) (hJoiner : s'.joiner = s.joiner) : Lines s' := by
  have hRuns : ∀ t, (s'.runners t).Runs → s'.runners t = s.runners t := by
    intro t ht
    exact (hRunners t).resolve_right fun h => h.1 ht
  have hLocks : ∀ r : Runner, ¬r.Runs → ¬r.Locks := by
    intro r
    cases r <;> simp [Runner.Runs, Runner.Locks]
  constructor
  · intro t
    rcases hRunners t with hEq | ⟨hQuiet, _, hPanic⟩
    · rw [hEq]
      have hLine := lines.line t
      cases hp : s.runners t <;> simp only [hp, State.At, hLive, hData, hCompleted, hWoken] at hLine ⊢ <;>
        grind
    · exact at_of_quiet hQuiet hPanic
  · intro t u ht hu
    rw [hRuns t ht] at ht
    rw [hRuns u hu] at hu
    exact lines.single t u ht hu
  · intro t
    rw [hLock, lines.lock]
    rcases hRunners t with hEq | ⟨hQuiet, hBefore, _⟩
    · rw [hEq]
    · simp [hLocks _ hQuiet, hLocks _ hBefore]
  · rw [hLock, hJoiner]
    exact lines.joining
  · rw [hJoiner, hWoken]
    exact lines.woken
  · rw [hWoken, hCompleted]
    exact lines.done
  · rw [hLive, hData, hCompleted]
    exact lines.rest

variable [DecidableEq T] [DecidableEq K]

omit [DecidableEq K] in
/-- What the hands hold after a step of one thread in `Task::run`. -/
theorem holds_update (s s' : State T K) (t : T) (r : Runner)
    (hRunners : s'.runners = Function.update s.runners t r) (hWakers : s'.wakers = s.wakers)
    (hSpawner : s'.spawner = s.spawner) (p : Place T K) :
    s'.Holds p ↔ (p = .runner t ∧ r.Holds) ∨ (p ≠ .runner t ∧ s.Holds p) := by
  cases p <;> simp only [State.Holds, hRunners, hWakers, hSpawner, Function.update_apply] <;> grind

/-- A thread moves and keeps in its hands what it had there. -/
theorem Account.runner {s s' : State T K} {t : T} {r : Runner} (account : Account s)
    (hRunners : s'.runners = Function.update s.runners t r) (hWakers : s'.wakers = s.wakers)
    (hSpawner : s'.spawner = s.spawner) (hHolds : r.Holds ↔ (s.runners t).Holds)
    (hTask : s'.task = s.task) (hRefs : s'.refs = s.refs) : Account s' := by
  refine account.keep hTask hRefs fun p => ?_
  rw [holds_update s s' t r hRunners hWakers hSpawner, hHolds]
  by_cases hEq : p = .runner t
  · simp [hEq, State.Holds]
  · simp [hEq]

/-- The runnable goes from a place to another. -/
theorem Account.moved {s s' : State T K} (account : Account s) (source target : Place T K)
    (hSource : source ∈ s.refs) (hRefs : s'.refs = s.refs.replace source target)
    (hTask : s'.task = s.task) (hHolds : ∀ p : Place T K, p.IsHand →
      (s'.Holds p ↔ p = target ∨ p ≠ source ∧ s.Holds p)) : Account s' := by
  rcases account.refs with ⟨⟨p, hp⟩, hScheduled⟩ | ⟨hNone, _⟩
  · obtain rfl : source = p := by simpa [hp] using hSource
    refine Account.at (q := target) (by simp [hRefs, hp]) (hTask.trans hScheduled) fun q hHand => ?_
    have hOther : q ≠ source → ¬s.Holds q := fun hne hHolds =>
      hne (by simpa [hp] using (account.hands q hHand).mpr hHolds)
    grind
  · simp [hNone] at hSource

/-- A step of `Task::run` moves the runnable along with the thread that has it. -/
theorem account_run {s s' : State T K} {t : T} (account : Account s) (lines : Lines s)
    (h : runStep s t = some s') : Account s' := by
  have hLine := lines.line t
  have hHand := account.started (t := t)
  have hUpdate := holds_update s s' t
  cases hp : s.runners t <;>
    simp only [hp, runStep, State.setRunner, State.move] at h hLine hHand hUpdate
  case loadState =>
    obtain ⟨_, hTask, _⟩ := hHand trivial
    have hRunning : transitionToRunning s.task = some true := by
      rw [hTask]
      rfl
    rw [hRunning] at h
    obtain rfl := Option.some.inj h
    exact account.runner (t := t) rfl rfl rfl (by simp [hp, Runner.Holds]) rfl rfl
  case storeRunning =>
    obtain ⟨hRefs, _, hOthers⟩ := hHand trivial
    obtain rfl := Option.some.inj h
    refine Account.none (by simp [hRefs]) (Or.inr (Or.inl rfl)) fun p hIsHand => ?_
    rw [hUpdate _ rfl rfl rfl]
    rintro (⟨_, hHolds⟩ | ⟨hNe, hHolds⟩)
    · exact hHolds
    · exact hOthers p hIsHand hNe hHolds
  case swapIdle =>
    have hTask : s.task ≠ TASK_SCHEDULED := by rcases hLine.1 with hTask | hTask <;> simp [hTask]
    have hRefs := account.refs_nil hTask
    have hIdle : ∀ r, ¬Runner.Holds r → s'.runners = Function.update s.runners t r →
        s'.wakers = s.wakers → s'.spawner = s.spawner → ∀ p : Place T K, p.IsHand → ¬s'.Holds p := by
      intro r hr hRunners hWakers hSpawner p hIsHand
      rw [hUpdate r hRunners hWakers hSpawner]
      rintro (⟨_, hHolds⟩ | ⟨_, hHolds⟩)
      · exact hr hHolds
      · exact account.free hTask p hIsHand hHolds
    rcases hLine.1 with hLive | hLive
    · simp only [hLive, transitionToIdle] at h
      obtain rfl := Option.some.inj h
      exact Account.none hRefs (Or.inl rfl) (hIdle .idle id rfl rfl rfl)
    · simp only [hLive, transitionToIdle] at h
      obtain rfl := Option.some.inj h
      exact Account.none hRefs (Or.inr (Or.inr rfl)) (hIdle .assertNotified id rfl rfl rfl)
  case storeScheduled =>
    have hTask : s.task ≠ TASK_SCHEDULED := by simp [hLine.1]
    have hRefs := account.refs_nil hTask
    obtain rfl := Option.some.inj h
    refine Account.at (q := .runner t) (by simp [hRefs]) rfl fun p hIsHand => ?_
    rw [hUpdate _ rfl rfl rfl]
    have hFree := account.free hTask p hIsHand
    simp only [Runner.Holds]
    tauto
  case push =>
    obtain ⟨hRefs, hTask, hOthers⟩ := hHand trivial
    obtain rfl := Option.some.inj h
    refine account.moved (.runner t) _ (by simp [hRefs]) rfl rfl fun p hIsHand => ?_
    rw [hUpdate _ rfl rfl rfl]
    have hTarget : p ≠ s.scheduleTarget (some t) := by
      rintro rfl
      exact scheduleTarget_isHand _ hIsHand
    simp only [Runner.Holds]
    tauto
  all_goals
    (try split at h) <;> (try simp only [reduceCtorEq] at h) <;> obtain rfl := Option.some.inj h <;>
      exact account.runner (t := t) rfl rfl rfl (by simp [hp, Runner.Holds]) rfl rfl

theorem runs_of_locks {r : Runner} (h : r.Locks) : r.Runs := by
  cases r <;> simp_all [Runner.Runs, Runner.Locks]

omit [DecidableEq T] [DecidableEq K] in
/-- Before its `try_lock` the running thread is the only one that could hold the
lock: the join handle takes it only once the run has woken it. -/
theorem Lines.lock_free {s : State T K} {t : T} (lines : Lines s) (hp : s.runners t = .tryLock) :
    s.lock = none := by
  have hLine := lines.line t
  simp only [hp, State.At] at hLine
  cases hLock : s.lock with
  | none => rfl
  | some holder =>
      cases holder with
      | runner u =>
          have hLocks := (lines.lock u).mp hLock
          obtain rfl := lines.single t u (by simp [hp, Runner.Runs]) (runs_of_locks hLocks)
          simp [hp, Runner.Locks] at hLocks
      | joiner =>
          have hLocks := lines.joining.mp hLock
          have hDone := lines.done (lines.woken (by rintro h; simp [h, Joiner.Locks] at hLocks))
          simp [hLine.2.2] at hDone

omit [DecidableEq K] in
/-- A thread starts the run of a task that nobody runs. -/
theorem Lines.start {s s' : State T K} {t : T} (lines : Lines s) (hTask : ¬s.Live)
    (hLive : s'.Live) (hRunners : s'.runners = Function.update s.runners t .tryLock)
    (hData : s'.data = s.data) (hLock : s'.lock = s.lock) (hCompleted : s'.completed = s.completed)
    (hWoken : s'.woken = s.woken) (hJoiner : s'.joiner = s.joiner) : Lines s' := by
  have hQuiet : ∀ u, ¬(s.runners u).Runs := fun u hRuns => hTask (lines.live hRuns)
  constructor
  · intro u
    rw [hRunners, Function.update_apply]
    split
    · simp only [State.At, hData, hCompleted]
      exact ⟨hLive, lines.rest hTask⟩
    · exact at_of_quiet (hQuiet u) (lines.no_panic u)
  · intro u v hu hv
    simp only [hRunners, Function.update_apply] at hu hv
    grind
  · intro u
    have hFree := fun h => hQuiet u (runs_of_locks ((lines.lock u).mp h))
    rw [hRunners, hLock, Function.update_apply]
    split
    · simpa [Runner.Locks] using hFree
    · exact lines.lock u
  · rw [hLock, hJoiner]
    exact lines.joining
  · rw [hJoiner, hWoken]
    exact lines.woken
  · rw [hWoken, hCompleted]
    exact lines.done
  · exact fun h => (h hLive).elim

/-- A step of `Task::run` finds the task as its line needs, and leaves it as the next
one does. Other threads do not run it meanwhile. -/
theorem lines_run {s s' : State T K} {t : T} (account : Account s) (lines : Lines s)
    (h : runStep s t = some s') : Lines s' := by
  have hLine := lines.line t
  have hHand := account.started (t := t)
  have hLock := lines.lock t
  cases hp : s.runners t <;>
    simp only [hp, runStep, State.setRunner, State.move] at h hLine hHand hLock
  case idle | pollFuture | panicked => simp at h
  case loadState =>
    have hRunning : transitionToRunning s.task = some true := by
      rw [(hHand trivial).2.1]
      rfl
    rw [hRunning] at h
    obtain rfl := Option.some.inj h
    refine lines.frame (fun u => ?_) Iff.rfl id rfl rfl rfl rfl rfl
    simp only [Function.update_apply]
    grind [Runner.Runs]
  case storeRunning =>
    obtain ⟨_, hTask, _⟩ := hHand trivial
    obtain rfl := Option.some.inj h
    exact lines.start (t := t) (by simp [State.Live, hTask]) (Or.inl rfl) rfl rfl rfl rfl rfl rfl
  case push | notify =>
    obtain rfl := Option.some.inj h
    refine lines.frame (fun u => ?_) Iff.rfl id rfl rfl rfl rfl rfl
    simp only [Function.update_apply]
    grind [Runner.Runs]
  case tryLock =>
    have hFree := lines.lock_free hp
    rw [if_pos hFree] at h
    obtain rfl := Option.some.inj h
    exact lines.running (hp ▸ trivial) rfl hLine (iff_of_true rfl trivial)
      (fun holder hNe => by simp [hFree, Ne.symm hNe]) rfl id lines.done lines.rest
  case takeFuture =>
    rw [if_pos hLine.2.1] at h
    obtain rfl := Option.some.inj h
    exact lines.running (hp ▸ trivial) rfl ⟨hLine.1, rfl, hLine.2.2⟩
      (iff_of_true (hLock.mpr trivial) trivial) (fun _ _ => Iff.rfl) rfl id lines.done
      fun hNot => (hNot hLine.1).elim
  case storePending =>
    obtain rfl := Option.some.inj h
    exact lines.running (hp ▸ trivial) rfl ⟨hLine.1, rfl, hLine.2.2⟩
      (iff_of_true (hLock.mpr trivial) trivial) (fun _ _ => Iff.rfl) rfl id lines.done
      fun hNot => (hNot hLine.1).elim
  case unlockPending | unlockReady =>
    obtain rfl := Option.some.inj h
    exact lines.running (hp ▸ trivial) rfl hLine (by simp [Runner.Locks])
      (fun holder hNe => by simp [hLock.mpr trivial, Ne.symm hNe]) rfl id lines.done lines.rest
  case swapIdle =>
    rcases hLine.1 with hTask | hTask <;> simp only [hTask, transitionToIdle] at h <;>
      obtain rfl := Option.some.inj h
    · exact lines.running (hp ▸ trivial) rfl trivial hLock (fun _ _ => Iff.rfl) rfl id lines.done
        fun _ => hLine.2
    · exact lines.running (hp ▸ trivial) rfl ⟨rfl, hLine.2⟩ hLock (fun _ _ => Iff.rfl) rfl id
        lines.done fun _ => hLine.2
  case assertNotified =>
    rw [if_pos hLine.1] at h
    obtain rfl := Option.some.inj h
    exact lines.running (hp ▸ trivial) rfl hLine hLock (fun _ _ => Iff.rfl) rfl id lines.done
      lines.rest
  case storeScheduled =>
    obtain rfl := Option.some.inj h
    exact lines.running (hp ▸ trivial) rfl trivial hLock (fun _ _ => Iff.rfl) rfl id lines.done
      fun _ => hLine.2
  case storeReady error =>
    obtain rfl := Option.some.inj h
    exact lines.running (hp ▸ trivial) rfl hLine (iff_of_true (hLock.mpr trivial) trivial)
      (fun _ _ => Iff.rfl) rfl id lines.done fun hNot => (hNot hLine.1).elim
  case wakeJoin =>
    obtain rfl := Option.some.inj h
    exact lines.running (hp ▸ trivial) rfl ⟨hLine.1, hLine.2.1⟩ hLock (fun _ _ => Iff.rfl) rfl
      (fun _ => rfl) (fun _ => hLine.2.1) fun hNot => (hNot hLine.1).elim
  case taskComplete =>
    obtain rfl := Option.some.inj h
    exact lines.running (hp ▸ trivial) rfl trivial hLock (fun _ _ => Iff.rfl) rfl id lines.done
      lines.rest

/-- A run touches neither the spawn nor the wake calls. -/
theorem birth_run {s s' : State T K} {t : T} (account : Account s) (lines : Lines s)
    (birth : Birth s) (h : runStep s t = some s') : Birth s' := by
  have hFrame : s'.spawner = s.spawner ∧ s'.wakers = s.wakers ∧
      (s.shared = true → s'.shared = true) ∧
      ((s.runners t).Holds ∨ (s.runners t).Runs ∨ s'.task = s.task ∧ s'.shared = s.shared) := by
    cases hp : s.runners t <;> simp only [hp, runStep, State.setRunner, State.move] at h <;>
      (try split at h) <;> (try simp only [reduceCtorEq] at h) <;>
      obtain rfl := Option.some.inj h <;> simp [Runner.Holds, Runner.Runs]
  obtain ⟨hSpawner, hWakers, hShared, hTask⟩ := hFrame
  constructor
  · intro context hEarly
    rw [hSpawner] at hEarly
    obtain ⟨hIdle, hNew⟩ := birth.early context hEarly
    rcases hTask with hHolds | hRuns | ⟨hTask, hSame⟩
    · simp [(account.started hHolds).2.1] at hIdle
    · rcases lines.live hRuns with hTask | hTask <;> simp [hTask] at hIdle
    · exact ⟨hTask.trans hIdle, hSame.trans hNew⟩
  · intro hNew k
    rw [hWakers]
    refine birth.quiet ?_ k
    cases hBefore : s.shared with
    | false => rfl
    | true => simp [hShared hBefore] at hNew
  · rw [hSpawner]
    exact birth.spawned

structure Inv (s : State T K) : Prop where
  account : Account s
  lines : Lines s
  birth : Birth s

omit [DecidableEq T] [DecidableEq K] in
/-- The queues around the task change, and nothing else does. -/
theorem Inv.queues {s s' : State T K} (inv : Inv s) (account : Account s')
    (hTask : s'.task = s.task) (hRunners : s'.runners = s.runners) (hWakers : s'.wakers = s.wakers)
    (hSpawner : s'.spawner = s.spawner) (hData : s'.data = s.data) (hLock : s'.lock = s.lock)
    (hCompleted : s'.completed = s.completed) (hWoken : s'.woken = s.woken)
    (hJoiner : s'.joiner = s.joiner) (hShared : s'.shared = s.shared) : Inv s' := by
  refine ⟨account, ?_, ?_⟩
  · refine inv.lines.frame (fun t => Or.inl (by rw [hRunners])) ?_ (by rw [hTask]; exact id)
      hData hLock hCompleted hWoken hJoiner
    simp [State.Live, hTask]
  · constructor
    · rw [hSpawner, hTask, hShared]
      exact inv.birth.early
    · rw [hWakers, hShared]
      exact inv.birth.quiet
    · rw [hSpawner]
      exact inv.birth.spawned

omit [DecidableEq T] in
theorem holds_waking (s s' : State T K) (k : K) (waking : Waking T)
    (hWakers : s'.wakers = Function.update s.wakers k waking) (hRunners : s'.runners = s.runners)
    (hSpawner : s'.spawner = s.spawner) (p : Place T K) :
    s'.Holds p ↔ (p = .waker k ∧ ∃ context, waking = .push context) ∨
      (p ≠ .waker k ∧ s.Holds p) := by
  cases p <;> simp only [State.Holds, hRunners, hWakers, hSpawner, Function.update_apply] <;> grind

omit [DecidableEq T] [DecidableEq K] in
/-- `transition_to_scheduled` puts the one runnable of an idle task into the
caller's hands. -/
theorem Account.transition {s s' : State T K} {q : Place T K} (account : Account s)
    (hTask : s'.task = (transitionToScheduled s.task).1)
    (hRefs : s'.refs = if (transitionToScheduled s.task).2 then q :: s.refs else s.refs)
    (hHolds : ∀ p : Place T K, p.IsHand →
      (s'.Holds p ↔ (transitionToScheduled s.task).2 = true ∧ p = q ∨ s.Holds p)) : Account s' := by
  by_cases hIdle : s.task = TASK_IDLE
  · have hScheduled : transitionToScheduled s.task = (TASK_SCHEDULED, true) := by simp [hIdle, transitionToScheduled]
    have hFree := account.free (by simp [hIdle])
    rw [hScheduled] at hTask hRefs
    refine Account.at (q := q) (by simp [hRefs, account.refs_nil, hIdle]) hTask fun p hHand => ?_
    simp [hHolds p hHand, hScheduled, hFree p hHand]
  · have hNot : (transitionToScheduled s.task).2 = false := by
      unfold transitionToScheduled
      grind
    rw [hNot] at hRefs
    simp only [hNot, Bool.false_eq_true, false_and, false_or] at hHolds
    by_cases hRunning : s.task = TASK_RUNNING
    · have hFree := account.free (by simp [hRunning])
      refine Account.none (by simp [hRefs, account.refs_nil, hRunning]) (Or.inr (Or.inr ?_)) ?_
      · simp [hTask, hRunning, transitionToScheduled]
      · intro p hHand
        rw [hHolds p hHand]
        exact hFree p hHand
    · have hSame : s'.task = s.task := by simp [hTask, transitionToScheduled, hIdle, hRunning]
      constructor
      · simpa [State.Live, hSame, hRefs] using account.refs
      · intro p hHand
        rw [hHolds p hHand]
        simpa [hRefs] using account.hands p hHand

omit [DecidableEq T] [DecidableEq K] in
theorem live_transition {s s' : State T K} (hTask : s'.task = (transitionToScheduled s.task).1) :
    (s'.Live ↔ s.Live) ∧ (s.task = TASK_NOTIFIED → s'.task = TASK_NOTIFIED) := by
  unfold State.Live
  rw [hTask]
  unfold transitionToScheduled
  grind

omit [DecidableEq T] [DecidableEq K] in
/-- Once a waker exists the task has left the hands of its spawner. -/
theorem Birth.shared {s s' : State T K} (birth : Birth s) (hBefore : s.shared = true)
    (hShared : s'.shared = s.shared) (hSpawner : s'.spawner = s.spawner) : Birth s' := by
  constructor
  · intro context hEarly
    rw [hSpawner] at hEarly
    simp [(birth.early context hEarly).2] at hBefore
  · intro hNew
    simp [hShared, hBefore] at hNew
  · rw [hSpawner]
    exact birth.spawned

/-- A wake schedules an idle task and holds its one runnable then. Any other task it
leaves without. -/
theorem inv_wake {s s' : State T K} {k : K} (inv : Inv s) (h : wakeStep s k = some s') :
    Inv s' := by
  have hShared : s.wakers k ≠ .idle → s.shared = true := by
    intro hBusy
    cases hNew : s.shared with
    | true => rfl
    | false => exact (hBusy (inv.birth.quiet hNew k)).elim
  have hHolds : s.Holds (.waker k) ↔ ∃ context, s.wakers k = .push context := Iff.rfl
  have hUpdate := holds_waking s s' k
  cases hp : s.wakers k <;>
    simp only [hp, wakeStep, State.setWaking, State.move] at h hUpdate hShared hHolds
  case idle => simp at h
  case transition context =>
    have hKept : ∀ p : Place T K, p ≠ .waker k ∧ s.Holds p ↔ s.Holds p :=
      fun p => ⟨And.right, fun h => ⟨by rintro rfl; simp [hHolds] at h, h⟩⟩
    have hStep : s'.task = (transitionToScheduled s.task).1 ∧
        s'.refs = (if (transitionToScheduled s.task).2 then .waker k :: s.refs else s.refs) ∧
        (∀ p : Place T K, s'.Holds p ↔ (transitionToScheduled s.task).2 = true ∧ p = .waker k ∨
          s.Holds p) ∧
        s'.runners = s.runners ∧ s'.data = s.data ∧ s'.lock = s.lock ∧
        s'.completed = s.completed ∧ s'.woken = s.woken ∧ s'.joiner = s.joiner ∧
        s'.shared = s.shared ∧ s'.spawner = s.spawner := by
      split at h
      all_goals
        next hScheduled =>
          obtain rfl := Option.some.inj h
          refine ⟨rfl, by simp [hScheduled], fun p => ?_, rfl, rfl, rfl, rfl, rfl, rfl, rfl, rfl⟩
          rw [hUpdate _ rfl rfl rfl, hKept]
          simp [hScheduled]
    obtain ⟨hTask, hRefs, hHands, hRunners, hData, hLock, hCompleted, hWoken, hJoiner, hSame,
      hSpawner⟩ := hStep
    obtain ⟨hLive, hNotified⟩ := live_transition hTask
    exact ⟨inv.account.transition hTask hRefs fun p _ => hHands p,
      inv.lines.frame (fun t => Or.inl (by rw [hRunners])) hLive hNotified hData hLock hCompleted
        hWoken hJoiner, inv.birth.shared (hShared (by simp)) hSame hSpawner⟩
  case push context =>
    obtain ⟨hRefs, _⟩ := inv.account.held (p := .waker k) trivial (hHolds.mpr ⟨context, rfl⟩)
    obtain rfl := Option.some.inj h
    refine ⟨inv.account.moved (.waker k) _ (by simp [hRefs]) rfl rfl fun p hHand => ?_,
      inv.lines.frame (fun t => Or.inl rfl) Iff.rfl id rfl rfl rfl rfl rfl,
      inv.birth.shared (hShared (by simp)) rfl rfl⟩
    rw [hUpdate _ rfl rfl rfl]
    have hTarget : p ≠ s.scheduleTarget context := by
      rintro rfl
      exact scheduleTarget_isHand _ hHand
    simp [hTarget]
  case notify =>
    obtain rfl := Option.some.inj h
    refine ⟨inv.account.keep rfl rfl fun p => ?_,
      inv.lines.frame (fun t => Or.inl rfl) Iff.rfl id rfl rfl rfl rfl rfl,
      inv.birth.shared (hShared (by simp)) rfl rfl⟩
    rw [hUpdate _ rfl rfl rfl]
    by_cases hEq : p = .waker k
    · simp [hEq, hHolds]
    · simp [hEq]

/-- A task is idle until `spawn` schedules it, so its transition succeeds. -/
theorem inv_spawn {s s' : State T K} (inv : Inv s) (h : spawnStep s = some s') : Inv s' := by
  cases hp : s.spawner <;> simp only [hp, spawnStep, State.move] at h
  case transition context =>
    obtain ⟨hIdle, hNew⟩ := inv.birth.early context hp
    have hScheduled : transitionToScheduled s.task = (TASK_SCHEDULED, true) := by simp [hIdle, transitionToScheduled]
    simp only [hScheduled, if_true] at h
    obtain rfl := Option.some.inj h
    have hTask : TASK_SCHEDULED = (transitionToScheduled s.task).1 := by rw [hScheduled]
    refine ⟨inv.account.transition (q := .spawner) hTask (by simp [hScheduled]) fun p _ => ?_,
      inv.lines.frame (fun t => Or.inl rfl) (live_transition hTask).1 (live_transition hTask).2
        rfl rfl rfl rfl rfl, ?_⟩
    · cases p <;> simp [State.Holds, hScheduled, hp]
    · exact ⟨by simp, inv.birth.quiet, by simp⟩
  case push context =>
    obtain ⟨hRefs, _⟩ := inv.account.held (p := .spawner) trivial ⟨context, hp⟩
    obtain rfl := Option.some.inj h
    refine ⟨inv.account.moved .spawner _ (by simp [hRefs]) rfl rfl fun p hHand => ?_,
      inv.lines.frame (fun t => Or.inl rfl) Iff.rfl id rfl rfl rfl rfl rfl,
      ⟨by simp, inv.birth.quiet, by simp⟩⟩
    have hTarget : p ≠ s.scheduleTarget context := by
      rintro rfl
      exact scheduleTarget_isHand _ hHand
    cases p <;> simp [State.Holds, hTarget]
  case notify =>
    obtain rfl := Option.some.inj h
    refine ⟨inv.account.keep rfl rfl fun p => ?_,
      inv.lines.frame (fun t => Or.inl rfl) Iff.rfl id rfl rfl rfl rfl rfl,
      ⟨by simp, inv.birth.quiet, by simp⟩⟩
    cases p <;> simp [State.Holds, hp]
  all_goals simp at h

omit [DecidableEq T] [DecidableEq K] in
/-- The handle gets at the data only after the run has woken it, when the run
itself no longer looks at the data. -/
theorem inv_join {s s' : State T K} (inv : Inv s) (h : joinStep s = some s') : Inv s' := by
  have hStep : s'.task = s.task ∧ s'.refs = s.refs ∧ s'.runners = s.runners ∧
      s'.wakers = s.wakers ∧ s'.spawner = s.spawner ∧ s'.completed = s.completed ∧
      s'.woken = s.woken ∧ s'.shared = s.shared ∧ s.woken = true ∧
      (s'.lock = some .joiner ↔ s'.joiner.Locks) ∧
      ∀ t, s'.lock = some (.runner t) ↔ s.lock = some (.runner t) := by
    have hJoining := inv.lines.joining
    have hWoken := inv.lines.woken
    cases hp : s.joiner <;> simp only [hp, joinStep] at h <;> (try split at h) <;>
      (try simp only [reduceCtorEq] at h) <;> grind [Joiner.Locks]
  obtain ⟨hTask, hRefs, hRunners, hWakers, hSpawner, hCompleted, hWoken, hShared, hDone, hJoining,
    hLock⟩ := hStep
  have hReady := inv.lines.done hDone
  have hLive : s'.Live ↔ s.Live := by simp [State.Live, hTask]
  refine ⟨inv.account.keep hTask hRefs fun p => ?_, ?_, ?_⟩
  · cases p <;> simp [State.Holds, hRunners, hWakers, hSpawner]
  · constructor
    · intro t
      rw [hRunners]
      have hLine := inv.lines.line t
      cases hp : s.runners t <;>
        simp only [hp, State.At, hLive, hCompleted, hReady, hDone, hWoken] at hLine ⊢ <;> grind
    · rw [hRunners]
      exact inv.lines.single
    · intro t
      rw [hLock, hRunners]
      exact inv.lines.lock t
    · exact hJoining
    · exact fun _ => hWoken.trans hDone
    · rw [hWoken, hCompleted]
      exact inv.lines.done
    · intro hRest
      rw [hLive] at hRest
      simp [(inv.lines.rest hRest).2] at hReady
  · constructor
    · rw [hSpawner, hTask, hShared]
      exact inv.birth.early
    · rw [hWakers, hShared]
      exact inv.birth.quiet
    · rw [hSpawner]
      exact inv.birth.spawned

theorem inv_poll {s : State T K} {t : T} (inv : Inv s) (hp : s.runners t = .pollFuture)
    (outcome : Outcome) {s' : State T K} (h : next s (.poll t outcome) = some s') : Inv s' := by
  have hLine := inv.lines.line t
  have hLock := inv.lines.lock t
  have hDone := inv.lines.done
  have hRest := inv.lines.rest
  simp only [hp] at hLine hLock
  simp only [next, hp, if_true, State.setRunner] at h
  cases outcome with
  | pending =>
      obtain rfl := Option.some.inj h
      refine ⟨inv.account.runner (t := t) rfl rfl rfl (by simp [hp, Runner.Holds]) rfl rfl, ?_,
        ⟨inv.birth.early, inv.birth.quiet, inv.birth.spawned⟩⟩
      refine inv.lines.running (t := t) (by simp [hp, Runner.Runs]) rfl ?_ ?_ ?_ ?_ ?_ ?_ ?_ <;>
        grind [State.At, Runner.Locks, State.Live]
  | ready error =>
      obtain rfl := Option.some.inj h
      refine ⟨inv.account.runner (t := t) rfl rfl rfl (by simp [hp, Runner.Holds]) rfl rfl, ?_,
        ⟨inv.birth.early, inv.birth.quiet, inv.birth.spawned⟩⟩
      refine inv.lines.running (t := t) (by simp [hp, Runner.Runs]) rfl ?_ ?_ ?_ ?_ ?_ ?_ ?_ <;>
        grind [State.At, Runner.Locks, State.Live]

omit [DecidableEq T] [DecidableEq K] in
theorem serves_isHand {t : T} {place : Place T K} (h : place.Serves t) : ¬place.IsHand := by
  cases place <;> simp_all [Place.Serves, Place.IsHand]

omit [DecidableEq T] [DecidableEq K] in
theorem moves_isHand {source target : Place T K} (h : source.Moves target) :
    ¬source.IsHand ∧ ¬target.IsHand := by
  cases source <;> cases target <;> simp_all [Place.Moves, Place.IsHand]

/-- A thread that takes the runnable leaves its place without it. -/
theorem inv_take {s : State T K} {t : T} {place : Place T K} (inv : Inv s)
    (hIdle : s.runners t = .idle) (hServes : place.Serves t) (hMem : place ∈ s.refs) :
    Inv ((s.move place (.runner t)).setRunner t .loadState) := by
  refine ⟨inv.account.moved _ _ hMem rfl rfl fun p hHand => ?_, ?_,
    ⟨inv.birth.early, inv.birth.quiet, inv.birth.spawned⟩⟩
  · have hSource : p ≠ place := by
      rintro rfl
      exact serves_isHand hServes hHand
    rw [holds_update s ((s.move place (.runner t)).setRunner t .loadState) t .loadState rfl rfl rfl]
    simp only [Runner.Holds, hSource, ne_eq, not_false_eq_true, true_and, and_true]
    tauto
  · refine inv.lines.frame (fun u => ?_) Iff.rfl id rfl rfl rfl rfl rfl
    simp only [State.setRunner, State.move, Function.update_apply]
    grind [Runner.Runs]

omit [DecidableEq T] [DecidableEq K] in
/-- The buffers of a thread swap names when it begins or ends to intercept. -/
theorem Account.map {s s' : State T K} (account : Account s) (f : Place T K → Place T K)
    (hHand : ∀ p, (f p).IsHand ∨ p.IsHand → f p = p) (hRefs : s'.refs = s.refs.map f)
    (hTask : s'.task = s.task) (hHolds : ∀ p, s'.Holds p ↔ s.Holds p) : Account s' := by
  constructor
  · rcases account.refs with ⟨⟨p, hp⟩, hScheduled⟩ | ⟨hNone, hRest⟩
    · exact Or.inl ⟨⟨f p, by simp [hRefs, hp]⟩, hTask.trans hScheduled⟩
    · exact Or.inr ⟨by simp [hRefs, hNone], by simpa [State.Live, hTask] using hRest⟩
  · intro p hIsHand
    rw [hHolds, ← account.hands p hIsHand, hRefs, List.mem_map]
    constructor
    · rintro ⟨q, hq, rfl⟩
      rwa [hHand q (Or.inl hIsHand)]
    · exact fun hp => ⟨p, hp, hHand p (Or.inr hIsHand)⟩

theorem inv_next {s s' : State T K} {e : Event T K} (inv : Inv s) (h : next s e = some s') :
    Inv s' := by
  cases e with
  | spawn => exact inv_spawn inv h
  | run t =>
      exact ⟨account_run inv.account inv.lines h, lines_run inv.account inv.lines h,
        birth_run inv.account inv.lines inv.birth h⟩
  | poll t outcome =>
      by_cases hp : s.runners t = .pollFuture
      · exact inv_poll inv hp outcome h
      · simp [next, hp] at h
  | callWake k context =>
      simp only [next, State.setWaking] at h
      split at h
      · next hStart =>
          obtain rfl := Option.some.inj h
          refine ⟨inv.account.keep rfl rfl fun p => ?_,
            inv.lines.frame (fun t => Or.inl rfl) Iff.rfl id rfl rfl rfl rfl rfl,
            inv.birth.shared hStart.1 rfl rfl⟩
          refine (holds_waking s (s.setWaking k (.transition context)) k _ rfl rfl rfl p).trans ?_
          by_cases hEq : p = .waker k
          · simp [hEq, State.Holds, hStart.2]
          · simp [hEq]
      · simp at h
  | wake k => exact inv_wake inv h
  | take t place =>
      simp only [next] at h
      split at h
      · next hTake =>
          obtain rfl := Option.some.inj h
          exact inv_take inv hTake.1 hTake.2.1 hTake.2.2
      · simp at h
  | move source target =>
      simp only [next] at h
      split at h
      · next hMove =>
          obtain rfl := Option.some.inj h
          obtain ⟨hSource, hTarget⟩ := moves_isHand hMove.1
          refine inv.queues (inv.account.moved _ _ hMove.2 rfl rfl fun p hHand => ?_)
            rfl rfl rfl rfl rfl rfl rfl rfl rfl rfl
          have hNe : p ≠ source ∧ p ≠ target := by
            constructor <;> rintro rfl
            · exact hSource hHand
            · exact hTarget hHand
          simp only [hNe, ne_eq, not_false_eq_true, false_or, true_and]
          rfl
      · simp at h
  | setProducer t workerIndex =>
      obtain rfl := Option.some.inj h
      exact inv.queues (inv.account.keep rfl rfl fun _ => Iff.rfl)
        rfl rfl rfl rfl rfl rfl rfl rfl rfl rfl
  | beginIntercept t =>
      simp only [next] at h
      split at h
      · simp at h
      · obtain rfl := Option.some.inj h
        refine inv.queues (inv.account.map _ (fun p => ?_) rfl rfl fun _ => Iff.rfl)
          rfl rfl rfl rfl rfl rfl rfl rfl rfl rfl
        cases p <;> grind [Place.IsHand]
  | endIntercept t =>
      simp only [next] at h
      split at h
      · obtain rfl := Option.some.inj h
        refine inv.queues (inv.account.map _ (fun p => ?_) rfl rfl fun _ => Iff.rfl)
          rfl rfl rfl rfl rfl rfl rfl rfl rfl rfl
        cases p <;> grind [Place.IsHand]
      · simp at h
  | join => exact inv_join inv h

/-- At the start the task is idle and known to nobody. -/
theorem inv_initial (context : Option T) : Inv (system T K context).initial := by
  refine ⟨⟨Or.inr ⟨rfl, Or.inl rfl⟩, fun p hHand => ?_⟩, ?_, ?_⟩
  · cases p <;> simp [system, State.Holds, Runner.Holds]
  · constructor <;> simp [system, State.At, Runner.Runs, Runner.Locks, Joiner.Locks]
  · constructor <;> simp [system]

/-- So it holds in every reachable state, with any number of threads and wakers. -/
theorem inv_of_reachable {context : Option T} {s : State T K}
    (h : (system T K context).Reachable s) : Inv s :=
  h.keeps (inv_initial context) fun _ _ _ inv hNext => inv_next inv hNext

end Yaar.Runtime.Task
