import Yaar.Runtime.TaskLife

/-! Wake cycles of a task: it is queued once for each of them, run by one thread
at a time, and polled after every wake. -/
namespace Yaar.Runtime.Task

open Machine TaskState

variable {T K : Type*}

/-- A scheduled task has one runnable in the queues and hands of the runtime,
any other task none. -/
def Counted (s : State T K) : Prop :=
  (s.refs.length = if s.task = TASK_SCHEDULED then 1 else 0) ∧
    ∀ p : Place T K, p.IsHand → (p ∈ s.refs ↔ s.Holds p)

/-- Inside `Task::run`, but for a thread that has pushed the runnable back and
is still in `Executor::notify`. -/
def Runner.Inside (r : Runner) : Prop :=
  r ≠ .idle ∧ r ≠ .notify

def Exclusive (s : State T K) : Prop :=
  ∀ t u, (s.runners t).Inside → (s.runners u).Inside → t = u

/-- No assertion, unreachable branch or `unwrap` of `Task::spawn` and `Task::run`
has failed. -/
def Sound (s : State T K) : Prop :=
  s.spawner ≠ .panicked ∧ ∀ t, s.runners t ≠ .panicked

/-- A call of `wake` or `wake_by_ref` takes effect. -/
def Wakes (s : State T K) (e : Event T K) : Prop :=
  ∃ k context, e = .wake k ∧ s.wakers k = .transition context

/-- `Task::run` takes the future out of the data and begins to poll it. -/
def StartsPoll (s : State T K) (e : Event T K) : Prop :=
  ∃ t, e = .run t ∧ s.runners t = .takeFuture ∧ s.data = .pending

def Enqueues (s : State T K) (e : Event T K) : Prop :=
  (e = .spawn ∧ s.Holds .spawner) ∨ (∃ t, e = .run t ∧ s.runners t = .push) ∨
    ∃ k, e = .wake k ∧ s.Holds (.waker k)

variable [DecidableEq T] [DecidableEq K]

/-- A thread that has stored `TASK_RUNNING` begins to poll in one or two steps
of its own. -/
def AboutToPoll (s : State T K) : Prop :=
  ∃ t, StartsPoll s (.run t) ∨ ∃ s', next s (.run t) = some s' ∧ StartsPoll s' (.run t)

/-- Every wake is followed by a poll that starts after it, or the task is still
to be run again. -/
def Heeded (steps : List (State T K × Event T K)) (s : State T K) : Prop :=
  ∀ first x second, steps = first ++ x :: second → Wakes x.1 x.2 →
    (∃ y ∈ second, StartsPoll y.1 y.2) ∨ AboutToPoll s ∨
      s.task = TASK_SCHEDULED ∨ s.task = TASK_NOTIFIED

omit [DecidableEq T] [DecidableEq K] in
theorem Account.counted {s : State T K} (account : Account s) : Counted s := by
  refine ⟨?_, account.hands⟩
  rcases account.refs with ⟨⟨p, hp⟩, hTask⟩ | ⟨hNone, hTask⟩
  · simp [hp, hTask]
  · have hNot : s.task ≠ TASK_SCHEDULED := by
      rcases hTask with hTask | hTask | hTask <;> simp [hTask]
    simp [hNone, hNot]

omit [DecidableEq T] [DecidableEq K] in
/-- Who is inside either has the runnable in hand or runs the task, and a task
that somebody runs is in nobody's hands. -/
theorem Inv.exclusive {s : State T K} (inv : Inv s) : Exclusive s := by
  have hCases : ∀ t, (s.runners t).Inside → (s.runners t).Holds ∨ (s.runners t).Runs := by
    intro t hInside
    have hPanic := inv.lines.no_panic t
    cases hp : s.runners t <;> simp_all [Runner.Inside, Runner.Holds, Runner.Runs]
  have hApart : ∀ t u, (s.runners t).Holds → ¬(s.runners u).Runs := by
    intro t u hHolds hRuns
    have hTask := (inv.account.started hHolds).2.1
    rcases inv.lines.live hRuns with hLive | hLive <;> simp [hTask] at hLive
  intro t u ht hu
  rcases hCases t ht with hHolds | hRuns
  · rcases hCases u hu with hHolds' | hRuns'
    · by_contra hNe
      exact (inv.account.started hHolds).2.2 (.runner u) trivial (by simpa using Ne.symm hNe) hHolds'
    · exact (hApart t u hHolds hRuns').elim
  · rcases hCases u hu with hHolds' | hRuns'
    · exact (hApart u t hHolds' hRuns).elim
    · exact inv.lines.single t u hRuns hRuns'

omit [DecidableEq T] [DecidableEq K] in
/-- A completed task is never scheduled again, so nobody is about to push it. -/
theorem Inv.not_enqueues {s : State T K} {e : Event T K} (inv : Inv s)
    (hCompleted : s.completed = true) : ¬Enqueues s e := by
  have hLive : s.Live := by
    by_contra hRest
    simp [(inv.lines.rest hRest).2] at hCompleted
  have hFree := inv.account.free (by rcases hLive with hTask | hTask <;> simp [hTask])
  rintro (⟨_, hHolds⟩ | ⟨t, _, hPush⟩ | ⟨k, _, hHolds⟩)
  · exact hFree .spawner trivial hHolds
  · exact hFree (.runner t) trivial (by simp [State.Holds, hPush, Runner.Holds])
  · exact hFree (.waker k) trivial hHolds

/-- The task will be polled: it is scheduled or notified, or the thread that
runs it has yet to begin. -/
def Heard (s : State T K) : Prop :=
  s.task = TASK_SCHEDULED ∨ s.task = TASK_NOTIFIED ∨
    ∃ t, s.runners t = .tryLock ∨ s.runners t = .takeFuture

/-- Only the running thread can take back that the task is to be polled. -/
theorem heard_run {s s' : State T K} {t : T} (inv : Inv s) (heard : Heard s)
    (hPoll : ¬StartsPoll s (.run t)) (h : runStep s t = some s') : Heard s' := by
  have hLine := inv.lines.line t
  have hHand := inv.account.started (t := t)
  have hSingle := fun u => inv.lines.single t u
  have hPolling : ∀ u, s.runners u = .tryLock ∨ s.runners u = .takeFuture → (s.runners u).Runs := by
    rintro u (hu | hu) <;> simp [hu, Runner.Runs]
  have hOther : ∀ r, s'.task = s.task → s'.runners = Function.update s.runners t r →
      ¬(s.runners t = .tryLock ∨ s.runners t = .takeFuture) → Heard s' := by
    intro r hTask hRunners hNot
    refine heard.imp (hTask.trans ·) (Or.imp (hTask.trans ·) (Exists.imp fun u hu => ?_))
    have hNe : u ≠ t := by
      rintro rfl
      exact hNot hu
    simpa [hRunners, hNe] using hu
  cases hp : s.runners t <;>
    simp only [hp, runStep, State.setRunner, State.move] at h hLine hHand hOther hSingle
  case storeRunning =>
    obtain rfl := Option.some.inj h
    exact Or.inr (Or.inr ⟨t, Or.inl (by simp)⟩)
  case tryLock =>
    rw [if_pos (inv.lines.lock_free hp)] at h
    obtain rfl := Option.some.inj h
    exact Or.inr (Or.inr ⟨t, Or.inr (by simp)⟩)
  case takeFuture => exact (hPoll ⟨t, rfl, hp, hLine.2.1⟩).elim
  case storeScheduled =>
    obtain rfl := Option.some.inj h
    exact Or.inl rfl
  case swapIdle =>
    rcases hLine.1 with hTask | hTask <;> simp only [hTask, transitionToIdle] at h
    · rcases heard with hHeard | hHeard | ⟨u, hu⟩
      · simp [hTask] at hHeard
      · simp [hTask] at hHeard
      · obtain rfl := hSingle u trivial (hPolling u hu)
        simp [hp] at hu
    · obtain rfl := Option.some.inj h
      exact Or.inr (Or.inl rfl)
  all_goals
    (try split at h) <;> (try simp only [reduceCtorEq] at h) <;> obtain rfl := Option.some.inj h <;>
      exact hOther _ rfl rfl (by simp)

/-- Outside of its runs the task only gets scheduled, and the threads that run
it poll, start or stay where they are. -/
theorem next_outside {s s' : State T K} {e : Event T K} (hRun : ∀ t, e ≠ .run t)
    (h : next s e = some s') :
    (s'.task = s.task ∨ s'.task = (transitionToScheduled s.task).1) ∧
      ∀ t, s'.runners t = s.runners t ∨ s.runners t = .idle ∨ s.runners t = .pollFuture := by
  cases e with
  | run t => exact (hRun t rfl).elim
  | poll t outcome =>
      simp only [next, State.setRunner] at h
      split at h
      · next hPoll =>
          refine ⟨Or.inl ?_, fun u => ?_⟩
          · cases outcome <;> obtain rfl := Option.some.inj h <;> rfl
          · by_cases hEq : u = t
            · exact Or.inr (Or.inr (hEq ▸ hPoll))
            · cases outcome <;> obtain rfl := Option.some.inj h <;> simp [hEq]
      · simp at h
  | take t place =>
      simp only [next, State.setRunner, State.move] at h
      split at h
      · next hTake =>
          obtain rfl := Option.some.inj h
          refine ⟨Or.inl rfl, fun u => ?_⟩
          by_cases hEq : u = t
          · exact Or.inr (Or.inl (hEq ▸ hTake.1))
          · simp [hEq]
      · simp at h
  | spawn =>
      cases hp : s.spawner <;> simp only [next, hp, spawnStep, State.move] at h <;>
        (try split at h) <;> (try simp only [reduceCtorEq] at h) <;>
        obtain rfl := Option.some.inj h <;> simp [*]
  | wake k =>
      cases hp : s.wakers k <;> simp only [next, hp, wakeStep, State.move, State.setWaking] at h <;>
        (try split at h) <;> (try simp only [reduceCtorEq] at h) <;>
        obtain rfl := Option.some.inj h <;> simp [*]
  | join =>
      cases hp : s.joiner <;> simp only [next, hp, joinStep] at h <;> (try split at h) <;>
        (try simp only [reduceCtorEq] at h) <;> obtain rfl := Option.some.inj h <;> simp
  | _ =>
      simp only [next, State.move, State.setWaking] at h
      (try split at h) <;> try simp only [reduceCtorEq] at h
      obtain rfl := Option.some.inj h
      simp

/-- A task that will be polled stays so until a poll starts. -/
theorem heard_next {s s' : State T K} {e : Event T K} (inv : Inv s) (heard : Heard s)
    (hPoll : ¬StartsPoll s e) (h : next s e = some s') : Heard s' := by
  by_cases hRun : ∃ t, e = .run t
  · obtain ⟨t, rfl⟩ := hRun
    exact heard_run inv heard hPoll h
  · obtain ⟨hTask, hRunners⟩ := next_outside (fun t hEq => hRun ⟨t, hEq⟩) h
    refine heard.imp (fun hScheduled => ?_) (Or.imp (fun hNotified => ?_) fun ⟨t, ht⟩ => ⟨t, ?_⟩)
    · rcases hTask with hTask | hTask <;> simp [hTask, hScheduled, transitionToScheduled]
    · rcases hTask with hTask | hTask <;> simp [hTask, hNotified, transitionToScheduled]
    · rcases hRunners t with hEq | hEq | hEq
      · rwa [hEq]
      all_goals simp [hEq] at ht

/-- A wake leaves the task scheduled or notified, from any state. -/
theorem heard_of_wakes {s s' : State T K} {e : Event T K} (inv : Inv s) (hWakes : Wakes s e)
    (h : next s e = some s') : Heard s' := by
  obtain ⟨k, context, rfl, hWaking⟩ := hWakes
  have hTask : s'.task = (transitionToScheduled s.task).1 := by
    simp only [next, wakeStep, hWaking, State.setWaking] at h
    split at h <;> obtain rfl := Option.some.inj h <;> rfl
  have hCases : s.task = TASK_IDLE ∨ s.task = TASK_SCHEDULED ∨ s.task = TASK_RUNNING ∨
      s.task = TASK_NOTIFIED := by
    rcases inv.account.refs with ⟨_, hTask⟩ | ⟨_, hTask | hTask | hTask⟩ <;> simp [hTask]
  rcases hCases with hs | hs | hs | hs <;>
    simp [Heard, hTask, hs, transitionToScheduled]

/-- The thread that stored `TASK_RUNNING` gets to the poll. -/
theorem aboutToPoll {s : State T K} {t : T} (inv : Inv s)
    (ht : s.runners t = .tryLock ∨ s.runners t = .takeFuture) : AboutToPoll s := by
  have hLine := inv.lines.line t
  refine ⟨t, ht.symm.imp (fun hp => ?_) fun hp => ?_⟩
  · rw [hp] at hLine
    exact ⟨t, rfl, hp, hLine.2.1⟩
  · rw [hp] at hLine
    have hFree := inv.lines.lock_free hp
    exact ⟨({ s with lock := some (.runner t) }).setRunner t .takeFuture,
      by simp [next, runStep, hp, hFree], t, rfl, by simp [State.setRunner], hLine.2.1⟩

/-- In every run each wake is heeded: after it a poll starts, or one is still to start. -/
theorem heeded {context : Option T} {steps : List (State T K × Event T K)} {s : State T K}
    (run : (system T K context).Run steps s) : Heeded steps s := by
  rintro first x second rfl hWakes
  obtain ⟨t, before, hNext, after⟩ := System.Path.split run
  have reachable := System.Run.reachable before
  by_cases hPoll : ∃ y ∈ second, StartsPoll y.1 y.2
  · exact Or.inl hPoll
  · refine Or.inr ?_
    have heard : Heard s := after.keeps (fun u e => ¬StartsPoll u e) Inv
      (fun y hy hStarts => hPoll ⟨y, hy, hStarts⟩)
      (fun _ u path _ => inv_of_reachable ((reachable.next hNext).path path))
      (heard_of_wakes (inv_of_reachable reachable) hWakes hNext)
      fun _ _ _ inv heard hStarts h => heard_next inv heard hStarts h
    rcases heard with hTask | hTask | ⟨u, hu⟩
    · exact Or.inr (Or.inl hTask)
    · exact Or.inr (Or.inr hTask)
    · exact Or.inl (aboutToPoll (inv_of_reachable (System.Run.reachable run)) hu)

/-- In every run the task is queued exactly while it is scheduled, one thread at
a time runs it, every wake is heeded, and nothing fails or is queued after
completion. -/
theorem scheduled_once {context : Option T} {steps : List (State T K × Event T K)}
    {s : State T K} (run : (system T K context).Run steps s) :
    Counted s ∧ Exclusive s ∧ Heeded steps s ∧
      (∀ x ∈ steps, x.1.completed = true → ¬Enqueues x.1 x.2) ∧ Sound s := by
  have inv : Inv s := inv_of_reachable (System.Run.reachable run)
  refine ⟨inv.account.counted, inv.exclusive, heeded run, fun x hMem hCompleted => ?_,
    inv.birth.spawned, inv.lines.no_panic⟩
  obtain ⟨first, second, rfl⟩ := List.append_of_mem hMem
  obtain ⟨_, before, _⟩ := System.Path.split run
  exact (inv_of_reachable (System.Run.reachable before)).not_enqueues hCompleted

/-- A worker takes the task from the injector, polls it from its run queue and pushes it
back there, since it has woken itself in the poll. A second worker steals it and polls it. -/
def wokenInPoll : List (Event Bool Unit) :=
  [.spawn, .spawn, .spawn, .setProducer false (some 0), .move .injector (.runQueue 0),
    .take false (.runQueue 0), .run false, .run false, .run false, .run false,
    .callWake () (some false), .wake (), .poll false .pending, .run false, .run false, .run false,
    .run false, .run false, .run false, .setProducer true (some 1),
    .move (.runQueue 0) (.runQueue 1), .take true (.runQueue 1), .run true, .run true, .run true,
    .run true]

/-- The wake cycle up to the second poll of the future. -/
theorem scheduled_once_wokenInPoll : ∃ steps s, (system Bool Unit none).Run steps s ∧
    s.runners true = .pollFuture ∧ Counted s ∧ Exclusive s ∧ Heeded steps s ∧
      (∀ x ∈ steps, x.1.completed = true → ¬Enqueues x.1 x.2) ∧ Sound s := by
  obtain ⟨s, run, hPoll⟩ := (system Bool Unit none).exists_run_of_replay wokenInPoll
    (fun s => s.runners true) .pollFuture (by decide)
  exact ⟨_, s, run, hPoll, scheduled_once run⟩

/-- A thread that has pushed the task back is still inside `Task::run`, in
`notify`, while another thread polls the future. -/
theorem wokenInPoll_twoInside : ¬∀ steps s, (system Bool Unit none).Run steps s →
    ∀ t u, s.runners t ≠ .idle → s.runners u ≠ .idle → t = u := by
  intro h
  obtain ⟨s, run, hs⟩ := (system Bool Unit none).exists_run_of_replay wokenInPoll
    (fun s => (s.runners false, s.runners true)) (.notify, .pollFuture) (by decide)
  simp only [Prod.mk.injEq] at hs
  exact absurd (h _ s run false true (by simp [hs]) (by simp [hs])) (by decide)

end Yaar.Runtime.Task
