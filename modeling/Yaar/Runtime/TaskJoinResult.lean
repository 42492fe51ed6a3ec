import Yaar.Runtime.TaskJoin

/-! The result of a task on its way to the handle. -/
namespace Yaar.Runtime.TaskJoin

open Machine

variable {T K W E V : Type*} [DecidableEq T] [DecidableEq K] [DecidableEq W]

/-- The handle has its task though the result has been re-raised from it. -/
def Fresh (s : State T K W E V) : Event T K W E V → Prop
  | .poll _ => s.core.data ≠ .joined
  | _ => True

instance (s : State T K W E V) (e : Event T K W E V) : Decidable (Fresh s e) := by
  unfold Fresh
  split <;> infer_instance

/-- The future returns its result or panics with it, the lock of the data is released
on it, and a poll of the handle returns it or re-raises it. -/
inductive Mark (E V : Type*) where
  | finished (result : Except E V)
  | released (result : Except E V)
  | yielded (result : Except E V)

def mark (s : State T K W E V) : Event T K W E V → Option (Mark E V)
  | .finish _ result => some (.finished result)
  | .run t =>
      match s.core.runners t with
      | .unlockReady => s.stored.map .released
      | _ => none
  | .join =>
      match s.core.joiner with
      | .unlock (some _) => s.replaced.map .yielded
      | _ => none
  | _ => none

/-- The marks of a run in their order. -/
def marks (steps : List (State T K W E V × Event T K W E V)) : List (Mark E V) :=
  steps.filterMap fun x => mark x.1 x.2

/-- No thread is about to store the result or to release the lock on it. -/
def Settled (s : State T K W E V) : Prop :=
  s.core.completed = true ∧ ∀ t, (∀ error, s.core.runners t ≠ .storeReady error) ∧
    s.core.runners t ≠ .unlockReady

/-- Where the result is, by what has happened to it. -/
inductive Stage (s : State T K W E V) : List (Mark E V) → Prop where
  | running (hCompleted : s.core.completed = false) : Stage s []
  | finished (t : T) (result : Except E V) (hLine : s.core.runners t = .storeReady (isError result))
      (hResult : s.result = some result) : Stage s [.finished result]
  | stored (t : T) (result : Except E V) (hLine : s.core.runners t = .unlockReady)
      (hData : s.core.data = .ready (isError result)) (hStored : s.stored = some result) :
      Stage s [.finished result]
  | released (result : Except E V) (hSettled : Settled s)
      (hData : s.core.data = .ready (isError result)) (hStored : s.stored = some result)
      (hJoiner : s.core.joiner = .waiting ∨ s.core.joiner = .tryLock ∨
        s.core.joiner = .replaceData) : Stage s [.finished result, .released result]
  | replaced (result : Except E V) (hSettled : Settled s) (hData : s.core.data = .joined)
      (hReplaced : s.replaced = some result)
      (hJoiner : s.core.joiner = .unlock (some (isError result))) :
      Stage s [.finished result, .released result]
  | yielded (result : Except E V) (hSettled : Settled s) (hData : s.core.data = .joined)
      (hJoiner : s.core.joiner = .waiting ∨ s.core.joiner = .joined)
      (hPoller : ∃ ready, s.waker.poller = .idle ready) :
      Stage s [.finished result, .released result, .yielded result]

omit [DecidableEq T] [DecidableEq K] [DecidableEq W] in
/-- A step that concerns the result in no way. -/
theorem Stage.keep {s s' : State T K W E V} {ms : List (Mark E V)} (stage : Stage s ms)
    (hCompleted : s'.core.completed = s.core.completed) (hData : s'.core.data = s.core.data)
    (hJoiner : s'.core.joiner = s.core.joiner)
    (hLines : ∀ t, (∀ error, s'.core.runners t = .storeReady error ↔
        s.core.runners t = .storeReady error) ∧
      (s'.core.runners t = .unlockReady ↔ s.core.runners t = .unlockReady))
    (hResult : s'.result = s.result) (hStored : s'.stored = s.stored)
    (hReplaced : s'.replaced = s.replaced)
    (hPoller : s.core.data = .joined → s.core.joiner = .waiting ∨ s.core.joiner = .joined →
      (∃ ready, s.waker.poller = .idle ready) → ∃ ready, s'.waker.poller = .idle ready) :
    Stage s' ms := by
  have hSettled : Settled s → Settled s' := fun hSettled =>
    ⟨hCompleted.trans hSettled.1, fun t =>
      ⟨fun error hp => (hSettled.2 t).1 error (((hLines t).1 error).mp hp),
        fun hp => (hSettled.2 t).2 ((hLines t).2.mp hp)⟩⟩
  cases stage with
  | running hBefore => exact .running (hCompleted.trans hBefore)
  | finished t result hLine hBefore =>
      exact .finished t result (((hLines t).1 _).mpr hLine) (hResult.trans hBefore)
  | stored t result hLine hBefore hIn =>
      exact .stored t result ((hLines t).2.mpr hLine) (hData.trans hBefore) (hStored.trans hIn)
  | released result hBefore hReady hIn hAt =>
      exact .released result (hSettled hBefore) (hData.trans hReady) (hStored.trans hIn)
        (by rwa [hJoiner])
  | replaced result hBefore hJoined hIn hAt =>
      exact .replaced result (hSettled hBefore) (hData.trans hJoined) (hReplaced.trans hIn)
        (hJoiner.trans hAt)
  | yielded result hBefore hJoined hAt hIdle =>
      exact .yielded result (hSettled hBefore) (hData.trans hJoined) (by rwa [hJoiner])
        (hPoller hJoined hAt hIdle)

omit [DecidableEq T] [DecidableEq K] [DecidableEq W] in
/-- A step of the waker alone. -/
theorem Stage.keepCore {s s' : State T K W E V} {ms : List (Mark E V)} (stage : Stage s ms)
    (hCore : s'.core = s.core) (hResult : s'.result = s.result) (hStored : s'.stored = s.stored)
    (hReplaced : s'.replaced = s.replaced)
    (hPoller : s.core.data = .joined → s.core.joiner = .waiting ∨ s.core.joiner = .joined →
      (∃ ready, s.waker.poller = .idle ready) → ∃ ready, s'.waker.poller = .idle ready) :
    Stage s' ms := by
  refine stage.keep ?_ ?_ ?_ (fun t => ?_) hResult hStored hReplaced hPoller <;> rw [hCore]
  exact ⟨fun _ => Iff.rfl, Iff.rfl⟩

/-- What a step of `Task::run` does to the data. -/
structure DataStep (c c' : Task.State T K) (t : T) : Prop where
  data : c.runners t ≠ .takeFuture → c.runners t ≠ .storePending →
    (∀ error, c.runners t ≠ .storeReady error) → c'.data = c.data
  notReady : ∀ error, c'.runners t ≠ .storeReady error
  unlock : c'.runners t = .unlockReady → ∃ error, c.runners t = .storeReady error
  stores : ∀ error, c.runners t = .storeReady error →
    c'.data = .ready error ∧ c'.runners t = .unlockReady

omit [DecidableEq W] in
/-- A step of `Task::run` changes the data at the lines that do so by their names. -/
theorem data_step {c c' : Task.State T K} {t : T} (h : Task.runStep c t = some c') :
    DataStep c c' t := by
  cases hp : c.runners t <;> simp only [Task.runStep, hp, reduceCtorEq] at h
  case loadState | swapIdle =>
    split at h <;> obtain rfl := Option.some.inj h <;>
      constructor <;> simp [Task.State.setRunner, hp]
  case tryLock | takeFuture | assertNotified =>
    split at h <;> obtain rfl := Option.some.inj h <;>
      constructor <;> simp [Task.State.setRunner, hp]
  all_goals
    obtain rfl := Option.some.inj h
    constructor <;> simp [Task.State.setRunner, Task.State.move, hp]

/-- The result goes from the thread to the data with one store, and nowhere else. -/
theorem runStep_results {s s' : State T K W E V} {t : T} (h : runStep s t = some s') :
    s'.replaced = s.replaced ∧
      ((∀ error, s.core.runners t ≠ .storeReady error) →
        s'.result = s.result ∧ s'.stored = s.stored) ∧
      ∀ error, s.core.runners t = .storeReady error → s'.stored = s.result := by
  simp only [runStep] at h
  split at h
  · simp at h
  · next hp =>
      split at h
      · obtain ⟨core, _, rfl⟩ := Option.map_eq_some_iff.mp h
        simp [hp]
      · simp at h
  · next hp =>
      obtain ⟨core, _, rfl⟩ := Option.map_eq_some_iff.mp h
      simp [hp]
  · next hNot =>
      obtain ⟨core, _, rfl⟩ := Option.map_eq_some_iff.mp h
      exact ⟨rfl, fun _ => ⟨rfl, rfl⟩, fun error hp => (hNot error hp).elim⟩

omit [DecidableEq T] [DecidableEq K] [DecidableEq W] in
/-- The future has completed when a thread is past its last poll. -/
theorem completed_of_line {s : State T K W E V} (lines : Task.Lines s.core) {t : T}
    (h : (∃ error, s.core.runners t = .storeReady error) ∨ s.core.runners t = .unlockReady) :
    s.core.completed = true ∧ s.core.woken = false := by
  have hAt := lines.line t
  rcases h with ⟨error, hp⟩ | hp <;> rw [hp] at hAt <;> exact hAt.2

/-- A step of `Task::run` outside `wake`. -/
theorem Stage.run {s s' : State T K W E V} {t : T} {ms : List (Mark E V)} (stage : Stage s ms)
    (inv : Inv s) (h : runStep s t = some s') :
    Stage s' (ms ++ (mark s (.run t)).toList) := by
  obtain ⟨_, _, hWaker, hCore⟩ := runStep_core h
  have frame := run_frame hCore
  have step := data_step hCore
  obtain ⟨hReplaced, hKept, hStore⟩ := runStep_results h
  have lines := inv.core.lines
  have hAt := lines.line t
  by_cases hReady : ∃ error, s.core.runners t = .storeReady error
  · obtain ⟨error, hp⟩ := hReady
    have hMark : mark s (.run t) = none := by simp [mark, hp]
    rw [hMark, Option.toList_none, List.append_nil]
    obtain ⟨hCompleted, hWoken⟩ := completed_of_line lines (Or.inl ⟨error, hp⟩)
    have hOnly : ∀ u, (s.core.runners u).Runs → u = t := fun u hu =>
      lines.single u t hu (by rw [hp]; trivial)
    cases stage with
    | running hBefore => simp [hCompleted] at hBefore
    | finished u result hLine hResult =>
        obtain rfl := hOnly u (by rw [hLine]; trivial)
        obtain rfl : error = isError result := by simpa [hp] using hLine
        obtain ⟨hData, hUnlock⟩ := step.stores _ hp
        exact .stored u result hUnlock hData ((hStore _ hp).trans hResult)
    | stored u result hLine =>
        obtain rfl := hOnly u (by rw [hLine]; trivial)
        simp [hp] at hLine
    | released result hSettled => exact ((hSettled.2 t).1 error hp).elim
    | replaced result hSettled => exact ((hSettled.2 t).1 error hp).elim
    | yielded result hSettled => exact ((hSettled.2 t).1 error hp).elim
  · have hNotReady : ∀ error, s.core.runners t ≠ .storeReady error := fun error hp =>
      hReady ⟨error, hp⟩
    obtain ⟨hResult, hStored⟩ := hKept hNotReady
    have hNoUnlock : s'.core.runners t ≠ .unlockReady := fun hp => hReady (step.unlock hp)
    by_cases hUnlock : s.core.runners t = .unlockReady
    · obtain ⟨hCompleted, hWoken⟩ := completed_of_line lines (Or.inr hUnlock)
      have hOnly : ∀ u, (s.core.runners u).Runs → u = t := fun u hu =>
        lines.single u t hu (by rw [hUnlock]; trivial)
      have hData : s'.core.data = s.core.data :=
        step.data (by simp [hUnlock]) (by simp [hUnlock]) hNotReady
      cases stage with
      | running hBefore => simp [hCompleted] at hBefore
      | finished u result hLine =>
          obtain rfl := hOnly u (by rw [hLine]; trivial)
          exact (hNotReady _ hLine).elim
      | stored u result hLine hBefore hIn =>
          have hMark : mark s (.run t) = some (.released result) := by simp [mark, hUnlock, hIn]
          rw [hMark]
          refine .released result ⟨frame.completed.trans hCompleted, fun v => ?_⟩
            (hData.trans hBefore) (hStored.trans hIn) (Or.inl ?_)
          · by_cases hv : v = t
            · subst hv
              exact ⟨step.notReady, hNoUnlock⟩
            · rw [frame.others v hv]
              constructor
              · intro error hp
                exact hv (hOnly v (by rw [hp]; trivial))
              · intro hp
                exact hv (hOnly v (by rw [hp]; trivial))
          · rw [frame.joiner]
            by_contra hJoiner
            simp [lines.woken hJoiner] at hWoken
      | released result hSettled => exact ((hSettled.2 t).2 hUnlock).elim
      | replaced result hSettled => exact ((hSettled.2 t).2 hUnlock).elim
      | yielded result hSettled => exact ((hSettled.2 t).2 hUnlock).elim
    · have hMark : mark s (.run t) = none := by
        cases hp : s.core.runners t <;> simp only [mark, hp]
        exact (hUnlock hp).elim
      rw [hMark, Option.toList_none, List.append_nil]
      by_cases hCompleted : s.core.completed = true
      · have hData : s'.core.data = s.core.data := by
          refine step.data ?_ ?_ hNotReady <;> intro hp <;> rw [hp] at hAt <;>
            exact absurd (hCompleted.symm.trans hAt.2.2) (by simp)
        refine stage.keep frame.completed hData frame.joiner (fun u => ?_) hResult hStored hReplaced
          fun _ _ hIdle => by rwa [hWaker]
        by_cases hu : u = t
        · subst hu
          exact ⟨fun error => iff_of_false (step.notReady error) (hNotReady error),
            iff_of_false hNoUnlock hUnlock⟩
        · rw [frame.others u hu]
          exact ⟨fun _ => Iff.rfl, Iff.rfl⟩
      · have hNot : s.core.completed = false := by simpa using hCompleted
        cases stage with
        | running => exact .running (frame.completed.trans hNot)
        | finished u result hLine =>
            exact (hCompleted (completed_of_line lines (Or.inl ⟨_, hLine⟩)).1).elim
        | stored u result hLine =>
            exact (hCompleted (completed_of_line lines (Or.inr hLine)).1).elim
        | released result hSettled => exact (hCompleted hSettled.1).elim
        | replaced result hSettled => exact (hCompleted hSettled.1).elim
        | yielded result hSettled => exact (hCompleted hSettled.1).elim

omit [DecidableEq T] [DecidableEq K] [DecidableEq W] in
/-- Once the run has woken the handle its result is in the data, or beyond it. -/
theorem Stage.settled {s : State T K W E V} {ms : List (Mark E V)} (stage : Stage s ms)
    (lines : Task.Lines s.core) (hWoken : s.core.woken = true) : Settled s := by
  cases stage with
  | running hBefore => simp [lines.done hWoken] at hBefore
  | finished t result hLine =>
      simp [(completed_of_line lines (Or.inl ⟨_, hLine⟩)).2] at hWoken
  | stored t result hLine => simp [(completed_of_line lines (Or.inr hLine)).2] at hWoken
  | released result hSettled => exact hSettled
  | replaced result hSettled => exact hSettled
  | yielded result hSettled => exact hSettled

omit [DecidableEq T] [DecidableEq K] [DecidableEq W] in
/-- Nobody has the lock of the data when the handle tries it. -/
theorem lock_free {s : State T K W E V} (inv : Inv s) (hSettled : Settled s)
    (hJoiner : s.core.joiner = .tryLock) : s.core.lock = none := by
  have lines := inv.core.lines
  cases hLock : s.core.lock with
  | none => rfl
  | some holder =>
      cases holder with
      | joiner =>
          have hLocks := lines.joining.mp hLock
          simp [hJoiner, Task.Joiner.Locks] at hLocks
      | runner t =>
          have hLocks := (lines.lock t).mp hLock
          have hAt := lines.line t
          cases hp : s.core.runners t <;> simp only [hp, Task.Runner.Locks] at hLocks
          case storeReady error => exact ((hSettled.2 t).1 error hp).elim
          case unlockReady => exact ((hSettled.2 t).2 hp).elim
          all_goals
            rw [hp] at hAt
            exact absurd (hSettled.1.symm.trans hAt.2.2) (by simp)

omit [DecidableEq T] [DecidableEq K] in
/-- `poll_join` after its waker. -/
theorem Stage.join {s s' : State T K W E V} {ms : List (Mark E V)} (stage : Stage s ms)
    (inv : Inv s) (h : joinStep s = some s') : Stage s' (ms ++ (mark s .join).toList) := by
  obtain ⟨hJoining, hCore, hWaker, _⟩ := joinStep_core h
  obtain ⟨_, _, hRunners, hCompleted⟩ := joinStep_frame hCore hJoining
  have lines := inv.core.lines
  have hSettled := stage.settled lines (lines.woken hJoining)
  have hSettled' : Settled s' := by
    unfold Settled
    rw [hCompleted, hRunners]
    exact hSettled
  have hIdle : ∃ ready, s.waker.poller = .idle ready := by
    by_contra hPolling
    exact hJoining (inv.linked.polling fun ready hp => hPolling ⟨ready, hp⟩).1
  cases stage with
  | running hBefore => simp [hSettled.1] at hBefore
  | finished t result hLine => exact ((hSettled.2 t).1 _ hLine).elim
  | stored t result hLine => exact ((hSettled.2 t).2 hLine).elim
  | released result _ hData hStored hJoiner =>
      rcases hJoiner with hp | hp | hp
      · exact (hJoining hp).elim
      · have hMark : mark s (.join : Event T K W E V) = none := by simp [mark, hp]
        rw [hMark, Option.toList_none, List.append_nil]
        simp only [joinStep, hp, Task.joinStep, lock_free inv hSettled hp, if_true,
          Option.map_some, Option.some.injEq] at h
        subst h
        exact .released result hSettled' hData hStored (Or.inr (Or.inr rfl))
      · have hMark : mark s (.join : Event T K W E V) = none := by simp [mark, hp]
        rw [hMark, Option.toList_none, List.append_nil]
        simp only [joinStep, hp, Task.joinStep, hData, Option.map_some, Option.some.injEq] at h
        subst h
        exact .replaced result hSettled' rfl hStored rfl
  | replaced result _ hData hReplaced hp =>
      have hMark : mark s (.join : Event T K W E V) = some (.yielded result) := by
        simp [mark, hp, hReplaced]
      rw [hMark]
      simp only [joinStep, hp, Task.joinStep, Option.map_some, Option.some.injEq] at h
      subst h
      refine .yielded result hSettled' hData ?_ hIdle
      cases isError result
      · exact Or.inr rfl
      · exact Or.inl rfl
  | yielded result _ _ hJoiner =>
      rcases hJoiner with hp | hp
      · exact (hJoining hp).elim
      · simp [joinStep, hp, Task.joinStep] at h

omit [DecidableEq K] in
/-- One step of `poll`, whose `Ready` lets `poll_join` go on. -/
theorem Stage.poller {s s' : State T K W E V} {ms : List (Mark E V)} (stage : Stage s ms)
    (inv : Inv s) (h : pollerStep s = some s') : Stage s' ms := by
  obtain ⟨_, hNext, hCore, hWaiting, _, hWoken, hResult, hStored, hReplaced⟩ :=
    inv.linked.poller inv.protocol h
  have hBusy : ¬∃ ready, s.waker.poller = .idle ready := by
    rintro ⟨ready, hp⟩
    simp [AtomicWaker.next, hp, AtomicWaker.pollerStep] at hNext
  rcases hCore with ⟨hCore, _⟩ | ⟨hCore, hReady⟩
  · exact stage.keepCore hCore hResult hStored hReplaced fun _ _ hIdle => (hBusy hIdle).elim
  · have hSettled := stage.settled inv.core.lines (hWoken hReady)
    have hSettled' : Settled s' := by
      unfold Settled
      rw [hCore]
      exact hSettled
    cases stage with
    | running hBefore => simp [hSettled.1] at hBefore
    | finished t result hLine => exact ((hSettled.2 t).1 _ hLine).elim
    | stored t result hLine => exact ((hSettled.2 t).2 hLine).elim
    | released result _ hData hIn _ =>
        exact .released result hSettled' (by rw [hCore]; exact hData) (hStored.trans hIn)
          (Or.inr (Or.inl (by rw [hCore])))
    | replaced result _ _ _ hJoiner => simp [hWaiting] at hJoiner
    | yielded result _ _ _ hIdle => exact (hBusy hIdle).elim

/-- Each event moves the result by one stage or leaves it where it is. No stage is
passed twice, as the poll of a handle that is joined is excluded. -/
theorem Stage.next {s s' : State T K W E V} {e : Event T K W E V} {ms : List (Mark E V)}
    (stage : Stage s ms) (inv : Inv s) (fresh : Fresh s e) (h : next s e = some s') :
    Stage s' (ms ++ (mark s e).toList) := by
  cases e with
  | run t => exact stage.run inv h
  | join => exact stage.join inv h
  | poller => simpa [mark] using stage.poller inv h
  | task e =>
      rw [show mark s (.task e) = none from rfl, Option.toList_none, List.append_nil]
      simp only [TaskJoin.next] at h
      split at h
      · next hOther =>
          obtain ⟨core, hCore, rfl⟩ := Option.map_eq_some_iff.mp h
          have frame := other_frame hOther hCore
          refine stage.keep frame.completed frame.data frame.joiner (fun t => ?_) rfl rfl rfl
            fun _ _ => id
          rcases frame.runners t with hp | ⟨hp, hp'⟩ | ⟨hp, hp'⟩
          · rw [hp]
            exact ⟨fun _ => Iff.rfl, Iff.rfl⟩
          · simp [hp, hp']
          · simp [hp, hp']
      · simp at h
  | finish t result =>
      obtain ⟨hp, rfl⟩ := finish_core h
      have hAt := inv.core.lines.line t
      rw [hp] at hAt
      have hNot : s.core.completed = false := hAt.2.2
      cases stage with
      | running =>
          exact .finished t result (by simp [Task.State.setRunner]) rfl
      | finished u result' hLine =>
          simp [(completed_of_line inv.core.lines (Or.inl ⟨_, hLine⟩)).1] at hNot
      | stored u result' hLine =>
          simp [(completed_of_line inv.core.lines (Or.inr hLine)).1] at hNot
      | released result' hSettled => simp [hSettled.1] at hNot
      | replaced result' hSettled => simp [hSettled.1] at hNot
      | yielded result' hSettled => simp [hSettled.1] at hNot
  | wake t =>
      rw [show mark s (.wake t : Event T K W E V) = none from rfl, Option.toList_none,
        List.append_nil]
      obtain ⟨_, hNext, hCore, hResult, hStored, hReplaced⟩ := inv.linked.wake h
      refine stage.keepCore hCore hResult hStored hReplaced fun _ _ hIdle => ?_
      obtain ⟨_, hWaker⟩ := AtomicWaker.next_wake hNext
      rwa [hWaker]
  | waker t =>
      rw [show mark s (.waker t : Event T K W E V) = none from rfl, Option.toList_none,
        List.append_nil]
      obtain ⟨_, hNext, hCore, hResult, hStored, hReplaced⟩ := inv.linked.waker inv.protocol h
      have hPoller : s'.waker.poller = s.waker.poller := by
        obtain ⟨_, _, _, hWaker⟩ := AtomicWaker.next_waker hNext
        rw [hWaker]
      rcases hCore with ⟨_, hLine, hCore⟩ | ⟨_, hCore⟩
      · have frame := run_frame hCore
        have step := data_step hCore
        refine stage.keep frame.completed
          (step.data (by simp [hLine]) (by simp [hLine]) (by simp [hLine])) frame.joiner
          (fun u => ?_) hResult hStored hReplaced fun _ _ hIdle => by rwa [hPoller]
        by_cases hu : u = t
        · subst hu
          simp [hLine, (frame.wakes hLine).2]
        · rw [frame.others u hu]
          exact ⟨fun _ => Iff.rfl, Iff.rfl⟩
      · exact stage.keepCore hCore hResult hStored hReplaced fun _ _ hIdle => by rwa [hPoller]
  | poll w =>
      rw [show mark s (.poll w : Event T K W E V) = none from rfl, Option.toList_none,
        List.append_nil]
      obtain ⟨_, _, hCore, _, hResult, hStored, hReplaced⟩ := inv.linked.poll h
      exact stage.keepCore hCore hResult hStored hReplaced fun hData _ _ => (fresh hData).elim

/-! ## The waker of the last poll -/

def BeginsPoll (x : State T K W E V × Event T K W E V) : Prop := ∃ w, x.2 = .poll w

/-- A poll that has registered `w` returns `Pending`. -/
def ReturnsPendingFor (w : W) (x : State T K W E V × Event T K W E V) : Prop :=
  x.2 = .poller ∧ x.1.waker.poller = .swapWaiting w ∧
    x.1.waker.cell.state = AtomicWaker.UPDATING

/-- The run notifies the waker of the handle. -/
def Notifies (t : T) (x : State T K W E V × Event T K W E V) : Prop :=
  x.2 = .waker t ∧ x.1.waker.wakers t = .update

def Invokes (w : W) (x : State T K W E V × Event T K W E V) : Prop :=
  ∃ t, x.2 = .waker t ∧ x.1.waker.wakers t = .invoke w

/-- What a poll registers stays until it returns. -/
def Registered (s : State T K W E V) : Prop :=
  ∀ w, s.waker.poller = .swapWaiting w → s.waker.cell.waker = some w

/-- A poll has returned `Pending` with `w` registered and nobody has been woken. -/
def AwaitsWake (w : W) (s : State T K W E V) : Prop :=
  s.core.woken = true ∨ s.waker.poller = .idle false ∧
    s.waker.cell.state = AtomicWaker.WAITING ∧ s.waker.cell.waker = some w

/-- A thread in `wake` is on its way to invoke `w`. -/
def Taking (t : T) (w : W) (s : State T K W E V) : Prop :=
  (s.waker.wakers t = .lock ∨ s.waker.wakers t = .take) ∧ s.waker.cell.waker = some w ∨
    s.waker.wakers t = .invoke w

omit [DecidableEq T] [DecidableEq K] in
/-- A poll stores its waker right before its last exchange. -/
theorem pollerStep_waker {c c' : AtomicWaker.Cell T W} {p p' : AtomicWaker.Poller W}
    (h : AtomicWaker.pollerStep c p = some (c', p')) :
    (Updating p ∨ c'.waker = c.waker) ∧ ∀ w, p' = .swapWaiting w → c'.waker = some w := by
  cases p with
  | idle ready | panicked failure => simp [AtomicWaker.pollerStep] at h
  | store w =>
      obtain ⟨rfl, rfl⟩ : _ ∧ _ := by simpa [AtomicWaker.pollerStep] using h
      exact ⟨Or.inl trivial, fun w' hw' => by simp_all [AtomicWaker.stored_eq]⟩
  | tryLock w =>
      simp only [AtomicWaker.pollerStep] at h
      split at h <;> obtain ⟨rfl, rfl⟩ : _ ∧ _ := by simpa using h
      all_goals exact ⟨Or.inl trivial, by simp⟩
  | swapWaiting w =>
      simp only [AtomicWaker.pollerStep] at h
      split at h
      · obtain ⟨rfl, rfl⟩ : _ ∧ _ := by simpa using h
        exact ⟨Or.inl trivial, by simp⟩
      · split at h <;> obtain ⟨rfl, rfl⟩ : _ ∧ _ := by simpa using h
        all_goals exact ⟨Or.inl trivial, by simp⟩
  | loadNotified ctx | resetLoad =>
      simp only [AtomicWaker.pollerStep] at h
      split at h <;> obtain ⟨rfl, rfl⟩ : _ ∧ _ := by simpa using h
      all_goals exact ⟨Or.inr rfl, by simp⟩
  | loadState ctx =>
      simp only [AtomicWaker.pollerStep] at h
      split at h
      · split at h <;> obtain ⟨rfl, rfl⟩ : _ ∧ _ := by simpa using h
        all_goals exact ⟨Or.inr rfl, by simp⟩
      · split at h
        · obtain ⟨rfl, rfl⟩ : _ ∧ _ := by simpa using h
          exact ⟨Or.inr rfl, by simp⟩
        · split at h <;> obtain ⟨rfl, rfl⟩ : _ ∧ _ := by simpa using h
          all_goals exact ⟨Or.inr rfl, by simp⟩
  | swapUpdating w seen =>
      simp only [AtomicWaker.pollerStep] at h
      split at h
      · obtain ⟨rfl, rfl⟩ : _ ∧ _ := by simpa using h
        exact ⟨Or.inr rfl, by simp⟩
      · split at h <;> obtain ⟨rfl, rfl⟩ : _ ∧ _ := by simpa using h
        all_goals exact ⟨Or.inr rfl, by simp⟩
  | storeNotified | storeEmpty | resetStore =>
      obtain ⟨rfl, rfl⟩ : _ ∧ _ := by simpa [AtomicWaker.pollerStep] using h
      exact ⟨Or.inr rfl, by simp⟩

omit [DecidableEq T] [DecidableEq K] [DecidableEq W] in
/-- Only the second critical step of a wake takes the waker. -/
theorem wakerStep_waker {c c' : AtomicWaker.Cell T W} {t : T} {p p' : AtomicWaker.Waking W}
    (h : AtomicWaker.wakerStep c t p = some (c', p')) (hp : p ≠ .take) : c'.waker = c.waker := by
  cases p with
  | take => exact (hp rfl).elim
  | idle | panicked => simp [AtomicWaker.wakerStep] at h
  | lock =>
      simp only [AtomicWaker.wakerStep] at h
      split at h
      · obtain ⟨rfl, rfl⟩ : _ ∧ _ := by simpa using h
        rfl
      · simp at h
  | invoke w =>
      obtain ⟨rfl, rfl⟩ : _ ∧ _ := by simpa [AtomicWaker.wakerStep] using h
      rfl
  | update =>
      simp only [AtomicWaker.wakerStep] at h
      split at h
      · obtain ⟨rfl, rfl⟩ : _ ∧ _ := by simpa using h
        rfl
      · split at h
        · obtain ⟨rfl, rfl⟩ : _ ∧ _ := by simpa using h
          rfl
        · split at h <;> obtain ⟨rfl, rfl⟩ : _ ∧ _ := by simpa using h
          all_goals rfl

omit [DecidableEq K] in
/-- A poll about to register has its waker in the cell: no wake takes it while the state
is `UPDATING`. -/
theorem registered_waker {s : State T K W E V} {waker : AtomicWaker.State T W}
    {e : AtomicWaker.Event T W} (inv : Inv s) (registered : Registered s)
    (hNext : AtomicWaker.next s.waker e = some waker) (w : W) (hp : waker.poller = .swapWaiting w) :
    waker.cell.waker = some w := by
  cases e with
  | poll ctx =>
      obtain ⟨_, _, hWaker⟩ := AtomicWaker.next_poll hNext
      simp [hWaker] at hp
  | reset =>
      obtain ⟨_, hWaker⟩ := AtomicWaker.next_reset hNext
      simp [hWaker] at hp
  | poller =>
      obtain ⟨c, p, hStep, hWaker⟩ := AtomicWaker.next_poller hNext
      rw [hWaker] at hp ⊢
      exact (pollerStep_waker hStep).2 w hp
  | wake t =>
      obtain ⟨_, hWaker⟩ := AtomicWaker.next_wake hNext
      rw [hWaker] at hp ⊢
      exact registered w hp
  | waker t =>
      obtain ⟨c, p, hStep, hWaker⟩ := AtomicWaker.next_waker hNext
      rw [hWaker] at hp ⊢
      refine (wakerStep_waker hStep fun hTake => ?_).trans (registered w hp)
      refine inv.linked.taking t (Or.inr hTake) ?_
      rw [show s.waker.poller = _ from hp]
      trivial

theorem registered_next {s s' : State T K W E V} {e : Event T K W E V} (inv : Inv s)
    (registered : Registered s) (h : next s e = some s') : Registered s' := by
  obtain ⟨hNone, hSome⟩ := inv.waker_next h
  intro w hp
  cases hEvent : wakerEvent e with
  | none =>
      rw [hNone hEvent] at hp ⊢
      exact registered w hp
  | some e' => exact registered_waker inv registered (hSome e' hEvent) w hp

omit [DecidableEq W] in
/-- A task that has notified its handle has done so for good. -/
theorem woken_core {c c' : Task.State T K} {e : Task.Event T K} (h : Task.next c e = some c')
    (hWoken : c.woken = true) : c'.woken = true := by
  by_cases hOther : Other e
  · rw [(other_frame hOther h).woken]
    exact hWoken
  cases e with
  | run t =>
      by_cases hp : c.runners t = .wakeJoin
      · exact ((run_frame h).wakes hp).1
      · rw [(run_frame h).woken hp]
        exact hWoken
  | join =>
      by_cases hp : c.joiner = .waiting
      · simp only [Task.next, Task.joinStep, hp] at h
        split at h
        · obtain rfl := Option.some.inj h
          exact hWoken
        · simp at h
      · rw [(joinStep_frame h hp).1]
        exact hWoken
  | poll t outcome =>
      simp only [Task.next] at h
      split at h
      · split at h <;> obtain rfl := Option.some.inj h <;> exact hWoken
      · simp at h
  | _ => exact (hOther trivial).elim

theorem Inv.woken_next {s s' : State T K W E V} {e : Event T K W E V} (inv : Inv s)
    (h : next s e = some s') (hWoken : s.core.woken = true) : s'.core.woken = true := by
  rcases inv.core_next h with hCore | ⟨e', hCore⟩
  · rwa [hCore]
  · exact woken_core hCore hWoken

/-- A handle that awaits its wake goes on to do so until it is polled again. -/
theorem awaitsWake_next {s s' : State T K W E V} {e : Event T K W E V} {w : W} (inv : Inv s)
    (awaits : AwaitsWake w s) (hPoll : ∀ w, e ≠ .poll w) (h : next s e = some s') :
    AwaitsWake w s' := by
  rcases awaits with hWoken | ⟨hIdle, hState, hStored⟩
  · exact Or.inl (inv.woken_next h hWoken)
  obtain ⟨hNone, hSome⟩ := inv.waker_next h
  have hSame : s'.waker.poller = s.waker.poller → s'.waker.cell = s.waker.cell →
      AwaitsWake w s' := fun hPoller hCell =>
    Or.inr ⟨by rw [hPoller, hIdle], by rw [hCell, hState], by rw [hCell, hStored]⟩
  cases e with
  | poll w' => exact (hPoll w' rfl).elim
  | poller =>
      have hNext := hSome _ rfl
      simp [AtomicWaker.next, hIdle, AtomicWaker.pollerStep] at hNext
  | wake t =>
      obtain ⟨_, hWaker⟩ := AtomicWaker.next_wake (hSome _ rfl)
      exact hSame (by rw [hWaker]) (by rw [hWaker])
  | waker t =>
      obtain ⟨_, hNext, hCore, _⟩ := inv.linked.waker inv.protocol h
      rcases hCore with ⟨_, hLine, hCore⟩ | ⟨hUpdate, hCore⟩
      · exact Or.inl ((run_frame hCore).wakes hLine).1
      · have hBusy : s.waker.wakers t ≠ .idle := by
          intro hp
          simp [AtomicWaker.next, hp, AtomicWaker.wakerStep] at hNext
        refine Or.inl (inv.woken_next h ?_)
        exact ((inv.linked.waking t hBusy).resolve_left fun hNot => hUpdate hNot.1).2.2
  | _ => exact hSame (by rw [hNone rfl]) (by rw [hNone rfl])

/-- A thread that is about to invoke the waker does so, or is still on its way. -/
theorem taking_next {s s' : State T K W E V} {e : Event T K W E V} {t : T} {w : W} (inv : Inv s)
    (taking : Taking t w s) (h : next s e = some s') : Taking t w s' ∨ Invokes w (s, e) := by
  obtain ⟨hNone, hSome⟩ := inv.waker_next h
  have hBusy : s.waker.wakers t ≠ .idle := by
    rcases taking with ⟨hp | hp, _⟩ | hp <;> simp [hp]
  have hSame : s'.waker.wakers t = s.waker.wakers t →
      ((s.waker.wakers t = .lock ∨ s.waker.wakers t = .take) →
        s'.waker.cell.waker = s.waker.cell.waker) → Taking t w s' := fun hLine hCell =>
    taking.imp (fun hBefore => ⟨by rw [hLine]; exact hBefore.1,
      (hCell hBefore.1).trans hBefore.2⟩) fun hBefore => hLine.trans hBefore
  cases e with
  | poll w' =>
      obtain ⟨_, _, hWaker⟩ := AtomicWaker.next_poll (hSome _ rfl)
      exact Or.inl (hSame (by rw [hWaker]) fun _ => by rw [hWaker])
  | poller =>
      obtain ⟨c, p, hStep, hWaker⟩ := AtomicWaker.next_poller (hSome _ rfl)
      refine Or.inl (hSame (by rw [hWaker]) fun hAt => ?_)
      rw [hWaker]
      exact (pollerStep_waker hStep).1.resolve_left (inv.linked.taking t hAt)
  | wake u =>
      obtain ⟨hIdle, hWaker⟩ := AtomicWaker.next_wake (hSome _ rfl)
      have hNe : t ≠ u := by
        rintro rfl
        exact hBusy hIdle
      exact Or.inl (hSame (by rw [hWaker]; simp [hNe]) fun _ => by rw [hWaker])
  | waker u =>
      obtain ⟨c, p, hStep, hWaker⟩ := AtomicWaker.next_waker (hSome _ rfl)
      -- Only one thread ever wakes.
      obtain rfl : u = t := by
        have hLine : ∀ v, s.waker.wakers v ≠ .idle → (s.core.runners v).Runs := fun v hv => by
          rcases inv.linked.busy hv with hp | hp <;> rw [hp] <;> trivial
        refine inv.core.lines.single u t (hLine u fun hp => ?_) (hLine t hBusy)
        rw [hp] at hStep
        simp [AtomicWaker.wakerStep] at hStep
      rcases taking with ⟨hp | hp, hStored⟩ | hp
      · rw [hp] at hStep
        have hCell := wakerStep_waker hStep (by simp)
        simp only [AtomicWaker.wakerStep] at hStep
        split at hStep
        · obtain ⟨rfl, rfl⟩ : _ ∧ _ := by simpa using hStep
          exact Or.inl (Or.inl (by rw [hWaker]; exact ⟨Or.inr (by simp), hStored⟩))
        · simp at hStep
      · rw [hp] at hStep
        obtain ⟨rfl, rfl⟩ : _ ∧ _ := by simpa [AtomicWaker.wakerStep, hStored] using hStep
        exact Or.inl (Or.inr (by rw [hWaker]; simp))
      · exact Or.inr ⟨u, rfl, hp⟩
  | _ => exact Or.inl (hSame (by rw [hNone rfl]) fun _ => by rw [hNone rfl])

/-- At the start nobody polls, so what polls register stays in every run. -/
theorem registered_reachable {context : Option T} {s : State T K W E V}
    (h : (system T K W E V context).Reachable s) : Registered s := by
  obtain ⟨steps, run⟩ := h
  exact System.Path.keeps run (fun _ _ => True) Inv (fun _ _ => trivial)
    (fun _ _ run _ => inv_reachable ⟨_, run⟩) (by simp [Registered, system, AtomicWaker.system])
    fun _ _ _ inv registered _ hNext => registered_next inv registered hNext

/-- A thread on its way to invoke `w` has done so when it is no longer in `wake`. -/
theorem taking_path {context : Option T} {steps : List (State T K W E V × Event T K W E V)}
    {s s' : State T K W E V} {t : T} {w : W} (hReach : (system T K W E V context).Reachable s)
    (path : (system T K W E V context).Path s steps s') (taking : Taking t w s) :
    Taking t w s' ∨ ∃ x ∈ steps, Invokes w x := by
  induction path with
  | refl => exact Or.inl taking
  | @step steps u v e prior last ih =>
      rcases ih with hTaking | ⟨x, hx, hInvokes⟩
      · refine (taking_next (inv_reachable (hReach.path prior)) hTaking last).imp id fun hNow => ?_
        exact ⟨(u, e), by simp, hNow⟩
      · exact Or.inr ⟨x, by simp [hx], hInvokes⟩

/-- A poll that returns `Pending` leaves its waker behind. -/
theorem awaitsWake_of_pending {s s' : State T K W E V} {e : Event T K W E V} {w : W} (inv : Inv s)
    (registered : Registered s) (hPend : ReturnsPendingFor w (s, e)) (h : next s e = some s') :
    AwaitsWake w s' := by
  obtain ⟨rfl, hPoller, hState⟩ : e = .poller ∧ s.waker.poller = .swapWaiting w ∧
      s.waker.cell.state = AtomicWaker.UPDATING := hPend
  obtain ⟨c, p, hStep, hWaker⟩ := AtomicWaker.next_poller ((inv.waker_next h).2 _ rfl)
  simp only [hPoller, AtomicWaker.pollerStep, hState, if_true, Option.some.injEq,
    Prod.mk.injEq] at hStep
  obtain ⟨rfl, rfl⟩ := hStep
  exact Or.inr (by rw [hWaker]; exact ⟨rfl, rfl, registered w hPoller⟩)

/-- The run that notifies goes on to take it. -/
theorem taking_of_notifies {s s' : State T K W E V} {e : Event T K W E V} {t : T} {w : W}
    (inv : Inv s) (awaits : AwaitsWake w s) (hUpd : Notifies t (s, e)) (h : next s e = some s') :
    Taking t w s' := by
  obtain ⟨rfl, hUpdate⟩ : e = .waker t ∧ s.waker.wakers t = .update := hUpd
  have hLine : s.core.runners t = .wakeJoin :=
    ((inv.linked.waking t (by simp [hUpdate])).resolve_right fun hNot => hNot.1 hUpdate).2
  have hAt := inv.core.lines.line t
  rw [hLine] at hAt
  have hNot : s.core.woken ≠ true := by
    rw [hAt.2.2]
    simp
  obtain ⟨_, hWaiting, hStored⟩ := awaits.resolve_left hNot
  obtain ⟨c, p, hStep, hWaker⟩ := AtomicWaker.next_waker ((inv.waker_next h).2 _ rfl)
  rw [hUpdate] at hStep
  obtain ⟨rfl, rfl⟩ : _ ∧ _ := by simpa [AtomicWaker.wakerStep, hWaiting] using hStep
  exact Or.inl (by rw [hWaker]; exact ⟨Or.inl (by simp), hStored⟩)

/-- The waker of the last poll before the run notifies is invoked. -/
theorem waker_invoked {context : Option T}
    {first middle rest : List (State T K W E V × Event T K W E V)}
    {pend upd : State T K W E V × Event T K W E V} {s : State T K W E V} {w : W} {t : T}
    (run : (system T K W E V context).Run (first ++ pend :: (middle ++ upd :: rest)) s)
    (hPend : ReturnsPendingFor w pend) (hMiddle : ∀ x ∈ middle, ¬BeginsPoll x)
    (hUpd : Notifies t upd) (hDone : s.waker.wakers t = .idle) : ∃ x ∈ rest, Invokes w x := by
  obtain ⟨s₁, hFirst, hNextPend, hAfter⟩ := System.Path.split run
  obtain ⟨s₂, hMiddlePath, hNextUpd, hRest⟩ := hAfter.split
  have hReach : (system T K W E V context).Reachable pend.1 := ⟨_, hFirst⟩
  have hReach₁ := hReach.next hNextPend
  have hReachUpd := hReach₁.path hMiddlePath
  have hAwaits₁ : AwaitsWake w s₁ :=
    awaitsWake_of_pending (inv_reachable hReach) (registered_reachable hReach) hPend hNextPend
  have hAwaits : AwaitsWake w upd.1 := by
    refine hMiddlePath.keeps (fun s e => ¬BeginsPoll (s, e)) Inv hMiddle
      (fun _ _ path _ => inv_reachable (hReach₁.path path)) hAwaits₁ ?_
    intro u e v inv awaits hNot hNext
    exact awaitsWake_next inv awaits (fun w' he => hNot ⟨w', he⟩) hNext
  have hTaking : Taking t w s₂ :=
    taking_of_notifies (inv_reachable hReachUpd) hAwaits hUpd hNextUpd
  refine (taking_path (hReachUpd.next hNextUpd) hRest hTaking).resolve_left ?_
  rintro (⟨hp | hp, _⟩ | hp) <;> simp [hDone] at hp

/-! ## The whole contract -/

omit [DecidableEq T] [DecidableEq K] [DecidableEq W] in
theorem marks_append (steps : List (State T K W E V × Event T K W E V)) (s : State T K W E V)
    (e : Event T K W E V) : marks (steps ++ [(s, e)]) = marks steps ++ (mark s e).toList := by
  simp only [marks, List.filterMap_append, List.filterMap_cons, List.filterMap_nil]
  cases mark s e <;> rfl

/-- Along a run the marks tell the stage of the result. -/
theorem stage_run {context : Option T} {steps : List (State T K W E V × Event T K W E V)}
    {s : State T K W E V} (run : (system T K W E V context).Run steps s)
    (fresh : Meets Fresh steps) : Stage s (marks steps) := by
  induction run with
  | refl => exact .running rfl
  | step prior last ih =>
      rw [meets_append, meets_singleton] at fresh
      rw [marks_append]
      exact (ih fresh.1).next (inv_reachable ⟨_, prior⟩) fresh.2 last

omit [DecidableEq T] [DecidableEq K] [DecidableEq W] in
/-- A wake holds the mutex of the waker at no `try_lock` of `poll`. -/
theorem Linked.cellFree {s : State T K W E V} (linked : Linked s) (e : AtomicWaker.Event T W) :
    AtomicWaker.CellFree s.waker e := by
  cases e with
  | poller =>
      intro w hp t hTake
      refine linked.taking t (Or.inr hTake) ?_
      rw [hp]
      trivial
  | _ => trivial

/-- The calls of the waker do not panic: the handle is polled by one task at a time and
the run wakes it once. -/
theorem cell_noPanic {context : Option T} {s : State T K W E V}
    (h : (system T K W E V context).Reachable s) : AtomicWaker.NoPanic s.waker := by
  obtain ⟨steps, run⟩ := h
  induction run with
  | refl => simp [AtomicWaker.NoPanic, system, AtomicWaker.system]
  | @step steps s s' e prior last ih =>
      have inv := inv_reachable ⟨_, prior⟩
      obtain ⟨hNone, hSome⟩ := inv.waker_next last
      cases hEvent : wakerEvent e with
      | none =>
          rw [hNone hEvent]
          exact ih
      | some e' =>
          exact AtomicWaker.noPanic_step inv.protocol ih (inv.linked.cellFree e') (hSome e' hEvent)

/-- What is promised of a task's handle. -/
structure Joins (steps : List (State T K W E V × Event T K W E V)) (s : State T K W E V) :
    Prop where
  /-- The handle yields what the future has returned or panicked with, once, after the
  lock on it has been released; its polls before return `Pending`. -/
  once : marks steps = [] ∨
    ∃ result, marks steps <+: [.finished result, .released result, .yielded result]
  /-- The waker of the last poll before the run notifies is invoked. -/
  woken : ∀ first pend middle upd rest w t, steps = first ++ pend :: (middle ++ upd :: rest) →
    ReturnsPendingFor w pend → (∀ x ∈ middle, ¬BeginsPoll x) → Notifies t upd →
      s.waker.wakers t = .idle → ∃ x ∈ rest, Invokes w x
  /-- Neither `Task::run` nor `poll_join` nor the waker's calls in them panic. -/
  noPanic : (∀ t, s.core.runners t ≠ .panicked) ∧ s.core.joiner ≠ .panicked ∧
    AtomicWaker.NoPanic s.waker

/-- When no handle is polled again after it has re-raised a panic, the result of the
task reaches it once in every run. -/
theorem joins_of_fresh {context : Option T} {steps : List (State T K W E V × Event T K W E V)}
    {s : State T K W E V} (run : (system T K W E V context).Run steps s)
    (fresh : Meets Fresh steps) : Joins steps s := by
  have inv := inv_reachable ⟨_, run⟩
  have stage := stage_run run fresh
  refine ⟨?_, ?_, inv.core.lines.no_panic, ?_, cell_noPanic ⟨_, run⟩⟩
  · generalize marks steps = ms at stage
    cases stage with
    | running => exact Or.inl rfl
    | finished t result => exact Or.inr ⟨result, _, rfl⟩
    | stored t result => exact Or.inr ⟨result, _, rfl⟩
    | released result => exact Or.inr ⟨result, _, rfl⟩
    | replaced result => exact Or.inr ⟨result, _, rfl⟩
    | yielded result => exact Or.inr ⟨result, _, rfl⟩
  · rintro first pend middle upd rest w t rfl hPend hMiddle hUpd hDone
    exact waker_invoked run hPend hMiddle hUpd hDone
  · intro hPanicked
    have hWoken := inv.core.lines.woken (by simp [hPanicked])
    have hSettled := stage.settled inv.core.lines hWoken
    generalize marks steps = ms at stage
    cases stage with
    | running hBefore => simp [hSettled.1] at hBefore
    | finished t result hLine => exact (hSettled.2 t).1 _ hLine
    | stored t result hLine => exact (hSettled.2 t).2 hLine
    | released result _ _ _ hJoiner => simp [hPanicked] at hJoiner
    | replaced result _ _ _ hJoiner => simp [hPanicked] at hJoiner
    | yielded result _ _ hJoiner => simp [hPanicked] at hJoiner

/-- A poll of the handle returns `Pending`, the future ends, and the next poll of the
handle yields the result. -/
def joinAfter (result : Except Nat Nat) : List (Event Unit Unit Unit Nat Nat) :=
  [.task .spawn, .task .spawn, .task .spawn,
    .poll (), .poller, .poller, .poller, .poller, .poller, .poller,
    .task (.take () .injector), .run (), .run (), .run (), .run (), .finish () result, .run (),
    .run (), .wake (), .waker (), .waker (), .waker (), .waker (), .run (),
    .poll (), .poller, .poller, .poller, .poller, .join, .join, .join]

/-- The handle is polled twice, and the second poll yields the value. -/
theorem joins_of_fresh_value : ∃ steps s, (system Unit Unit Unit Nat Nat none).Run steps s ∧
    s.core.joiner = .joined ∧ Joins steps s := by
  obtain ⟨s, run, hs⟩ := (system Unit Unit Unit Nat Nat none).exists_run_of_replay
    (joinAfter (.ok 7)) (fun s => s.core.joiner) .joined (by decide)
  have hFresh : ∀ x ∈ (system Unit Unit Unit Nat Nat none).trace
      (system Unit Unit Unit Nat Nat none).initial (joinAfter (.ok 7)), Fresh x.1 x.2 := by
    decide
  exact ⟨_, s, run, hs, joins_of_fresh run hFresh⟩

/-- After a panic of the task the handle keeps its task, and another poll finds
`TaskData::Joined` at the unreachable branch. -/
theorem joinAgain_panics : ¬∀ steps s, (system Unit Unit Unit Nat Nat none).Run steps s →
    Joins steps s := by
  intro h
  obtain ⟨s, run, hs⟩ := (system Unit Unit Unit Nat Nat none).exists_run_of_replay
    (joinAfter (.error 7) ++ [.poll (), .poller, .join, .join, .join]) (fun s => s.core.joiner)
    .panicked (by decide)
  exact (h _ s run).noPanic.2.1 hs

end Yaar.Runtime.TaskJoin
