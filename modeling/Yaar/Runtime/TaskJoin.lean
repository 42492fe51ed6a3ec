import Yaar.Runtime.TaskLife
import Yaar.Sync.AtomicWaker

/-! A task with its `JoinHandle`: the machine of the task and the one of its
`AtomicWaker`, joined where `Task::run` calls `wake` and `poll_join` calls `poll`,
with the results that the machine of the task leaves out. -/
namespace Yaar.Runtime.TaskJoin

open Machine

/-- `core.joiner` is where `poll_join` stands once `AtomicWaker::poll` has returned
`Ready`, and `core.runners` has a thread in `wake` at `wakeJoin` until its update and
at `taskComplete` from then on. -/
structure State (T K W E V : Type*) where
  core : Task.State T K
  waker : AtomicWaker.State T W
  /-- the local variable of `Task::run` -/
  result : Option (Except E V)
  /-- what `TaskData::Ready` holds -/
  stored : Option (Except E V)
  /-- what `poll_join` has replaced by `TaskData::Joined` -/
  replaced : Option (Except E V)

inductive Event (T K W E V : Type*) where
  | task (e : Task.Event T K)
  | run (t : T)
  /-- the future's poll is ready, or it panics -/
  | finish (t : T) (result : Except E V)
  /-- `self.waker.wake()` -/
  | wake (t : T)
  | waker (t : T)
  /-- `JoinHandle::poll` while it has its task; without it `expect` fails first -/
  | poll (w : W)
  | poller
  | join

def isError {E V : Type*} : Except E V → Bool
  | .error _ => true
  | .ok _ => false

/-- The events of the task that do not depend on its result or its waker. -/
def Other {T K : Type*} : Task.Event T K → Prop
  | .run _ | .join | .poll _ (.ready _) => False
  | _ => True

instance {T K : Type*} (e : Task.Event T K) : Decidable (Other e) := by
  unfold Other
  split <;> infer_instance

variable {T K W E V : Type*} [DecidableEq T] [DecidableEq K] [DecidableEq W]

/-- The next operation of `Task::run` outside `AtomicWaker::wake`. -/
def runStep (s : State T K W E V) (t : T) : Option (State T K W E V) :=
  match s.core.runners t with
  | .wakeJoin => none
  | .taskComplete =>
      if s.waker.wakers t = .idle then
        (Task.runStep s.core t).map fun core => { s with core := core }
      else none
  | .storeReady _ =>
      (Task.runStep s.core t).map fun core =>
        { s with core := core, stored := s.result, result := none }
  | _ => (Task.runStep s.core t).map fun core => { s with core := core }

/-- One operation of `AtomicWaker::wake`. -/
def wakerStep (s : State T K W E V) (t : T) : Option (State T K W E V) :=
  (AtomicWaker.next s.waker (.waker t)).bind fun waker =>
    if s.waker.wakers t = .update then
      (Task.runStep s.core t).map fun core => { s with core := core, waker := waker }
    else some { s with waker := waker }

/-- One operation of `AtomicWaker::poll`, after which `poll_join` goes on or returns
`Pending`. -/
def pollerStep (s : State T K W E V) : Option (State T K W E V) :=
  (AtomicWaker.next s.waker .poller).map fun waker =>
    match waker.poller with
    | .idle true => { s with waker := waker, core := { s.core with joiner := .tryLock } }
    | _ => { s with waker := waker }

/-- `poll_join` after its waker. -/
def joinStep (s : State T K W E V) : Option (State T K W E V) :=
  match s.core.joiner with
  | .waiting => none
  | .replaceData =>
      (Task.joinStep s.core).map fun core =>
        { s with core := core, replaced := s.stored, stored := none }
  | _ => (Task.joinStep s.core).map fun core => { s with core := core }

def next (s : State T K W E V) : Event T K W E V → Option (State T K W E V)
  | .task e =>
      if Other e then (Task.next s.core e).map fun core => { s with core := core } else none
  | .run t => runStep s t
  | .finish t result =>
      (Task.next s.core (.poll t (.ready (isError result)))).map fun core =>
        { s with core := core, result := some result }
  | .wake t =>
      if s.core.runners t = .wakeJoin then
        (AtomicWaker.next s.waker (.wake t)).map fun waker => { s with waker := waker }
      else none
  | .waker t => wakerStep s t
  | .poll w =>
      if s.core.spawner = .returned ∧ s.core.joiner = .waiting then
        (AtomicWaker.next s.waker (.poll (some w))).map fun waker => { s with waker := waker }
      else none
  | .poller => pollerStep s
  | .join => joinStep s

/-- A task from the call of `Task::spawn` on. -/
def system (T K W E V : Type*) [DecidableEq T] [DecidableEq K] [DecidableEq W]
    (context : Option T) : System (State T K W E V) (Event T K W E V) where
  initial := ⟨(Task.system T K context).initial, (AtomicWaker.system T W).initial, none, none, none⟩
  next := next

/-! ## What holds between the two machines -/

/-- The lines of `AtomicWaker::poll` on the way to its registration. -/
def Registering : AtomicWaker.Poller W → Prop
  | .loadState _ | .swapUpdating _ _ | .tryLock _ | .store _ | .swapWaiting _ => True
  | _ => False

/-- The lines of `AtomicWaker::poll` that have made the state `UPDATING`. -/
def Updating : AtomicWaker.Poller W → Prop
  | .tryLock _ | .store _ | .swapWaiting _ => True
  | _ => False

structure Linked (s : State T K W E V) : Prop where
  waking : ∀ t, s.waker.wakers t ≠ .idle →
    s.waker.wakers t = .update ∧ s.core.runners t = .wakeJoin ∨
      s.waker.wakers t ≠ .update ∧ s.core.runners t = .taskComplete ∧ s.core.woken = true
  woken : s.core.woken = true ↔
    s.waker.cell.state = AtomicWaker.NOTIFIED ∨ s.waker.cell.notified = true
  polling : (∀ ready, s.waker.poller ≠ .idle ready) →
    s.core.joiner = .waiting ∧ s.core.spawner = .returned
  fresh : Registering s.waker.poller → s.waker.cell.notified = false
  noReset : s.waker.poller ≠ .resetLoad ∧ s.waker.poller ≠ .resetStore
  /-- A wake takes the waker only when nobody registers one. -/
  taking : ∀ t, s.waker.wakers t = .lock ∨ s.waker.wakers t = .take → ¬Updating s.waker.poller

/-- What the other events of the task leave as it is. -/
structure OtherFrame (c c' : Task.State T K) : Prop where
  woken : c'.woken = c.woken
  joiner : c'.joiner = c.joiner
  data : c'.data = c.data
  completed : c'.completed = c.completed
  spawner : c.spawner = .returned → c'.spawner = .returned
  runners : ∀ t, c'.runners t = c.runners t ∨ c.runners t = .idle ∧ c'.runners t = .loadState ∨
    c.runners t = .pollFuture ∧ c'.runners t = .storePending

omit [DecidableEq W] in
/-- The other events of the task do not touch its result, its waker or its handle. -/
theorem other_frame {c c' : Task.State T K} {e : Task.Event T K} (hOther : Other e)
    (h : Task.next c e = some c') : OtherFrame c c' := by
  have hRunner : ∀ t from_ to_, c.runners t = from_ →
      (from_ = .idle ∧ to_ = .loadState ∨ from_ = .pollFuture ∧ to_ = .storePending) →
      ∀ u, (Function.update c.runners t to_) u = c.runners u ∨
        c.runners u = .idle ∧ (Function.update c.runners t to_) u = .loadState ∨
        c.runners u = .pollFuture ∧ (Function.update c.runners t to_) u = .storePending := by
    intro t from_ to_ hFrom hCases u
    by_cases hu : u = t
    · subst hu
      rcases hCases with ⟨rfl, rfl⟩ | ⟨rfl, rfl⟩ <;> simp [hFrom]
    · simp [hu]
  cases e with
  | run t => exact hOther.elim
  | join => exact hOther.elim
  | spawn =>
      simp only [Task.next, Task.spawnStep] at h
      split at h
      · next hSpawner =>
          split at h <;> obtain rfl := Option.some.inj h <;>
            exact ⟨rfl, rfl, rfl, rfl, by simp [hSpawner], fun _ => Or.inl rfl⟩
      · next hSpawner =>
          obtain rfl := Option.some.inj h
          exact ⟨rfl, rfl, rfl, rfl, by simp [hSpawner], fun _ => Or.inl rfl⟩
      · obtain rfl := Option.some.inj h
        exact ⟨rfl, rfl, rfl, rfl, fun _ => rfl, fun _ => Or.inl rfl⟩
      · simp at h
      · simp at h
  | poll t outcome =>
      cases outcome with
      | ready error => exact hOther.elim
      | pending =>
          simp only [Task.next] at h
          split at h
          · next hp =>
              obtain rfl := Option.some.inj h
              exact ⟨rfl, rfl, rfl, rfl, id, hRunner t _ _ hp (Or.inr ⟨rfl, rfl⟩)⟩
          · simp at h
  | take t place =>
      simp only [Task.next] at h
      split at h
      · next hTake =>
          obtain rfl := Option.some.inj h
          exact ⟨rfl, rfl, rfl, rfl, id, hRunner t _ _ hTake.1 (Or.inl ⟨rfl, rfl⟩)⟩
      · simp at h
  | wake k =>
      simp only [Task.next, Task.wakeStep] at h
      split at h
      · simp at h
      · split at h <;> obtain rfl := Option.some.inj h <;>
          exact ⟨rfl, rfl, rfl, rfl, id, fun _ => Or.inl rfl⟩
      · obtain rfl := Option.some.inj h
        exact ⟨rfl, rfl, rfl, rfl, id, fun _ => Or.inl rfl⟩
      · obtain rfl := Option.some.inj h
        exact ⟨rfl, rfl, rfl, rfl, id, fun _ => Or.inl rfl⟩
  | setProducer t workerIndex =>
      obtain rfl := Option.some.inj h
      exact ⟨rfl, rfl, rfl, rfl, id, fun _ => Or.inl rfl⟩
  | beginIntercept t =>
      simp only [Task.next] at h
      split at h
      · simp at h
      · obtain rfl := Option.some.inj h
        exact ⟨rfl, rfl, rfl, rfl, id, fun _ => Or.inl rfl⟩
  | _ =>
      simp only [Task.next] at h
      split at h
      · obtain rfl := Option.some.inj h
        exact ⟨rfl, rfl, rfl, rfl, id, fun _ => Or.inl rfl⟩
      · simp at h

/-- What a step of `Task::run` leaves as it is. -/
structure RunFrame (c c' : Task.State T K) (t : T) : Prop where
  joiner : c'.joiner = c.joiner
  completed : c'.completed = c.completed
  spawner : c'.spawner = c.spawner
  others : ∀ u, u ≠ t → c'.runners u = c.runners u
  woken : c.runners t ≠ .wakeJoin → c'.woken = c.woken
  wakes : c.runners t = .wakeJoin → c'.woken = true ∧ c'.runners t = .taskComplete

omit [DecidableEq W] in
theorem run_frame {c c' : Task.State T K} {t : T} (h : Task.runStep c t = some c') :
    RunFrame c c' t := by
  have hOthers : ∀ r u, u ≠ t → (Function.update c.runners t r) u = c.runners u :=
    fun r u hu => by simp [hu]
  cases hp : c.runners t <;> simp only [Task.runStep, hp, reduceCtorEq] at h
  case wakeJoin =>
    obtain rfl := Option.some.inj h
    exact ⟨rfl, rfl, rfl, hOthers _, by simp [hp], fun _ => ⟨rfl, by simp [Task.State.setRunner]⟩⟩
  case loadState | swapIdle =>
    split at h <;> obtain rfl := Option.some.inj h <;>
      exact ⟨rfl, rfl, rfl, hOthers _, fun _ => rfl, by simp [hp]⟩
  case tryLock | takeFuture | assertNotified =>
    split at h <;> obtain rfl := Option.some.inj h <;>
      exact ⟨rfl, rfl, rfl, hOthers _, fun _ => rfl, by simp [hp]⟩
  all_goals
    obtain rfl := Option.some.inj h
    exact ⟨rfl, rfl, rfl, hOthers _, fun _ => rfl, by simp [hp]⟩

omit [DecidableEq T] [DecidableEq K] [DecidableEq W] in
/-- The task goes on without its waker. -/
theorem Linked.core {s s' : State T K W E V} (linked : Linked s) (hWaker : s'.waker = s.waker)
    (hWoken : s'.core.woken = s.core.woken) (hJoiner : s'.core.joiner = s.core.joiner)
    (hSpawner : s.core.spawner = .returned → s'.core.spawner = .returned)
    (hRunners : ∀ t, s.waker.wakers t ≠ .idle → s'.core.runners t = s.core.runners t) :
    Linked s' := by
  refine ⟨fun t => ?_, ?_, ?_, ?_, ?_, ?_⟩
  · rw [hWaker, hWoken]
    intro hBusy
    rw [hRunners t hBusy]
    exact linked.waking t hBusy
  · rw [hWaker, hWoken]
    exact linked.woken
  · rw [hWaker, hJoiner]
    exact fun hPolling => (linked.polling hPolling).imp id hSpawner
  · rw [hWaker]
    exact linked.fresh
  · rw [hWaker]
    exact linked.noReset
  · rw [hWaker]
    exact linked.taking

omit [DecidableEq T] [DecidableEq K] [DecidableEq W] in
/-- A thread in `AtomicWaker::wake` is at one of two lines of `Task::run`. -/
theorem Linked.busy {s : State T K W E V} (linked : Linked s) {t : T}
    (h : s.waker.wakers t ≠ .idle) :
    s.core.runners t = .wakeJoin ∨ s.core.runners t = .taskComplete :=
  (linked.waking t h).imp (·.2) (·.2.1)

omit [DecidableEq T] [DecidableEq K] [DecidableEq W] in
theorem Linked.task {s : State T K W E V} (linked : Linked s) {core : Task.State T K}
    (frame : OtherFrame s.core core) : Linked { s with core := core } := by
  refine linked.core rfl frame.woken frame.joiner frame.spawner fun t hBusy => ?_
  have hLine := linked.busy hBusy
  exact (frame.runners t).resolve_right (by rintro (⟨hp, _⟩ | ⟨hp, _⟩) <;> simp [hp] at hLine)

/-- A step of `Task::run` outside `wake`. -/
theorem runStep_core {s s' : State T K W E V} {t : T} (h : runStep s t = some s') :
    s.core.runners t ≠ .wakeJoin ∧
      (s.waker.wakers t = .idle ∨ s.core.runners t ≠ .taskComplete) ∧ s'.waker = s.waker ∧
      Task.runStep s.core t = some s'.core := by
  simp only [runStep] at h
  split at h
  · simp at h
  · next hp =>
      split at h
      · next hIdle =>
          obtain ⟨core, hStep, rfl⟩ := Option.map_eq_some_iff.mp h
          exact ⟨by simp [hp], Or.inl hIdle, rfl, hStep⟩
      · simp at h
  · next hp =>
      obtain ⟨core, hStep, rfl⟩ := Option.map_eq_some_iff.mp h
      exact ⟨by simp [hp], Or.inr (by simp [hp]), rfl, hStep⟩
  · next hWake hComplete _ =>
      obtain ⟨core, hStep, rfl⟩ := Option.map_eq_some_iff.mp h
      exact ⟨hWake, Or.inr hComplete, rfl, hStep⟩

theorem Linked.run {s s' : State T K W E V} {t : T} (linked : Linked s) (h : runStep s t = some s') :
    Linked s' := by
  obtain ⟨hWake, hIdle, hWaker, hStep⟩ := runStep_core h
  have frame := run_frame hStep
  refine linked.core hWaker (frame.woken hWake) frame.joiner (by rw [frame.spawner]; exact id)
    fun u hBusy => frame.others u ?_
  rintro rfl
  rcases hIdle with hIdle | hComplete
  · exact hBusy hIdle
  · exact (linked.busy hBusy).elim hWake hComplete

omit [DecidableEq T] [DecidableEq K] in
/-- The words of the waker on a step of `poll`, which returns `Ready` when notified. -/
theorem pollerStep_words {c c' : AtomicWaker.Cell T W} {p p' : AtomicWaker.Poller W}
    (facts : AtomicWaker.PollerFacts c p) (hFresh : Registering p → c.notified = false)
    (hReset : p ≠ .resetLoad ∧ p ≠ .resetStore) (h : AtomicWaker.pollerStep c p = some (c', p')) :
    (c'.state = AtomicWaker.NOTIFIED ∨ c'.notified = true ↔
      c.state = AtomicWaker.NOTIFIED ∨ c.notified = true) ∧
      (Registering p' → c'.notified = false) ∧ (p' ≠ .resetLoad ∧ p' ≠ .resetStore) ∧
      (p' = .idle true → c'.notified = true) := by
  cases p with
  | idle ready => simp [AtomicWaker.pollerStep] at h
  | resetLoad => simp at hReset
  | resetStore => simp at hReset
  | panicked failure => simp [AtomicWaker.pollerStep] at h
  | loadNotified ctx =>
      simp only [AtomicWaker.pollerStep] at h
      split at h <;> obtain ⟨rfl, rfl⟩ : _ ∧ _ := by simpa using h
      · next hNotified => simp [Registering, hNotified]
      · next hNotified => simpa [Registering] using hNotified
  | loadState ctx =>
      have hNew := hFresh trivial
      simp only [AtomicWaker.pollerStep] at h
      split at h
      · split at h <;> obtain ⟨rfl, rfl⟩ : _ ∧ _ := by simpa using h
        · simp [Registering]
        · simp [Registering, hNew]
      · split at h
        · obtain ⟨rfl, rfl⟩ : _ ∧ _ := by simpa using h
          simp [Registering]
        · split at h <;> obtain ⟨rfl, rfl⟩ : _ ∧ _ := by simpa using h
          · simp [Registering]
          · simp [Registering]
  | swapUpdating w seen =>
      have hNew := hFresh trivial
      obtain ⟨hSeen, hState⟩ := facts
      simp only [AtomicWaker.pollerStep] at h
      split at h
      · next hSame =>
          obtain ⟨rfl, rfl⟩ : _ ∧ _ := by simpa using h
          rcases hSeen with rfl | rfl <;> simp [Registering, hNew, hSame]
      · split at h <;> obtain ⟨rfl, rfl⟩ : _ ∧ _ := by simpa using h
        · simp [Registering]
        · simp [Registering]
  | tryLock w =>
      have hNew := hFresh trivial
      simp only [AtomicWaker.pollerStep] at h
      split at h <;> obtain ⟨rfl, rfl⟩ : _ ∧ _ := by simpa using h
      · simp [Registering, hNew]
      · simp [Registering]
  | store w =>
      have hNew := hFresh trivial
      obtain ⟨rfl, rfl⟩ : _ ∧ _ := by simpa [AtomicWaker.pollerStep] using h
      simp [Registering, hNew]
  | swapWaiting w =>
      have hNew := hFresh trivial
      simp only [AtomicWaker.pollerStep] at h
      split at h
      · next hSame =>
          obtain ⟨rfl, rfl⟩ : _ ∧ _ := by simpa using h
          simp [Registering, hNew, hSame]
      · split at h <;> obtain ⟨rfl, rfl⟩ : _ ∧ _ := by simpa using h
        · simp [Registering]
        · simp [Registering]
  | storeNotified =>
      obtain ⟨rfl, rfl⟩ : _ ∧ _ := by simpa [AtomicWaker.pollerStep] using h
      have hState : c.state = AtomicWaker.NOTIFIED := facts
      simp [Registering, hState]
  | storeEmpty =>
      obtain ⟨rfl, rfl⟩ : _ ∧ _ := by simpa [AtomicWaker.pollerStep] using h
      simp [Registering, facts.2]

omit [DecidableEq T] [DecidableEq K] in
/-- The poller enters its registration while the state is not `NOTIFIED`. -/
theorem pollerStep_updating {c c' : AtomicWaker.Cell T W} {p p' : AtomicWaker.Poller W}
    (facts : AtomicWaker.PollerFacts c p) (h : AtomicWaker.pollerStep c p = some (c', p'))
    (hAfter : Updating p') : Updating p ∨ Registering p ∧ c.state ≠ AtomicWaker.NOTIFIED := by
  cases p with
  | tryLock w | store w | swapWaiting w => exact Or.inl trivial
  | swapUpdating w seen =>
      simp only [AtomicWaker.pollerStep] at h
      split at h
      · next hSame =>
          refine Or.inr ⟨trivial, ?_⟩
          rcases facts.1 with rfl | rfl <;> simp [hSame]
      · split at h <;> obtain ⟨rfl, rfl⟩ : _ ∧ _ := by simpa using h
        · exact hAfter.elim
        · exact hAfter.elim
  | loadNotified ctx =>
      simp only [AtomicWaker.pollerStep] at h
      split at h <;> obtain ⟨rfl, rfl⟩ : _ ∧ _ := by simpa using h
      · exact hAfter.elim
      · exact hAfter.elim
  | loadState ctx =>
      simp only [AtomicWaker.pollerStep] at h
      split at h
      · split at h <;> obtain ⟨rfl, rfl⟩ : _ ∧ _ := by simpa using h
        · exact hAfter.elim
        · exact hAfter.elim
      · split at h
        · obtain ⟨rfl, rfl⟩ : _ ∧ _ := by simpa using h
          exact hAfter.elim
        · split at h <;> obtain ⟨rfl, rfl⟩ : _ ∧ _ := by simpa using h
          · exact hAfter.elim
          · exact hAfter.elim
  | resetLoad =>
      simp only [AtomicWaker.pollerStep] at h
      split at h <;> obtain ⟨rfl, rfl⟩ : _ ∧ _ := by simpa using h
      · exact hAfter.elim
      · exact hAfter.elim
  | idle ready | panicked failure => simp [AtomicWaker.pollerStep] at h
  | storeNotified | storeEmpty | resetStore =>
      obtain ⟨rfl, rfl⟩ : _ ∧ _ := by simpa [AtomicWaker.pollerStep] using h
      exact hAfter.elim

/-- The two machines of a reachable state and what links them. -/
structure Inv (s : State T K W E V) : Prop where
  core : Task.Inv s.core
  protocol : AtomicWaker.Protocol s.waker
  linked : Linked s

omit [DecidableEq K] in
/-- One step of `poll`: when it is ready the run has woken the waker. -/
theorem Linked.poller {s s' : State T K W E V} (linked : Linked s)
    (protocol : AtomicWaker.Protocol s.waker) (h : pollerStep s = some s') :
    Linked s' ∧ AtomicWaker.next s.waker .poller = some s'.waker ∧
      (s'.core = s.core ∧ s'.waker.poller ≠ .idle true ∨
        s'.core = { s.core with joiner := .tryLock } ∧ s'.waker.poller = .idle true) ∧
      s.core.joiner = .waiting ∧ s.core.spawner = .returned ∧
      (s'.waker.poller = .idle true → s.core.woken = true) ∧ s'.result = s.result ∧
      s'.stored = s.stored ∧ s'.replaced = s.replaced := by
  obtain ⟨waker, hNext, hs'⟩ := Option.map_eq_some_iff.mp h
  obtain ⟨c, p, hStep, rfl⟩ := AtomicWaker.next_poller hNext
  have hBusy : ∀ ready, s.waker.poller ≠ .idle ready := by
    intro ready hIdle
    simp [hIdle, AtomicWaker.pollerStep] at hStep
  obtain ⟨hWaiting, hSpawner⟩ := linked.polling hBusy
  obtain ⟨hWords, hFresh, hReset, hReady⟩ :=
    pollerStep_words protocol.poller linked.fresh linked.noReset hStep
  have hWoken : p = .idle true → s.core.woken = true := fun hp =>
    linked.woken.mpr (hWords.mp (Or.inr (hReady hp)))
  have hTaking : ∀ t, s.waker.wakers t = .lock ∨ s.waker.wakers t = .take → ¬Updating p := by
    intro t ht hUpdating
    rcases pollerStep_updating protocol.poller hStep hUpdating with hBefore | ⟨hReg, hState⟩
    · exact linked.taking t ht hBefore
    · have hDone : s.core.woken = true := by
        rcases linked.waking t (by rcases ht with ht | ht <;> simp [ht]) with ⟨hUpdate, _⟩ | ⟨_, _, hDone⟩
        · rcases ht with ht | ht <;> simp [ht] at hUpdate
        · exact hDone
      rcases linked.woken.mp hDone with hNotified | hNotified
      · exact hState hNotified
      · simp [linked.fresh hReg] at hNotified
  by_cases hp : p = .idle true
  · subst hp
    subst hs'
    refine ⟨⟨linked.waking, linked.woken.trans hWords.symm, ?_, hFresh, hReset, hTaking⟩, hNext,
      Or.inr ⟨rfl, rfl⟩, hWaiting, hSpawner, fun _ => hWoken rfl, rfl, rfl, rfl⟩
    exact fun hPolling => (hPolling true rfl).elim
  · have hSame : s' = { s with waker := { s.waker with cell := c, poller := p } } := by
      rw [← hs']
      cases p with
      | idle ready =>
          cases ready with
          | false => rfl
          | true => exact (hp rfl).elim
      | _ => rfl
    subst hSame
    exact ⟨⟨linked.waking, linked.woken.trans hWords.symm, fun _ => ⟨hWaiting, hSpawner⟩, hFresh,
      hReset, hTaking⟩, hNext, Or.inl ⟨rfl, hp⟩, hWaiting, hSpawner, fun h => (hp h).elim,
      rfl, rfl, rfl⟩

omit [DecidableEq T] [DecidableEq K] [DecidableEq W] in
/-- The update of `wake` notifies, and goes on to the waker from `WAITING` only. -/
theorem update_words {c c' : AtomicWaker.Cell T W} {t : T} {p' : AtomicWaker.Waking W}
    (valid : c.state = AtomicWaker.EMPTY ∨ c.state = AtomicWaker.UPDATING ∨
      c.state = AtomicWaker.WAITING ∨ c.state = AtomicWaker.NOTIFIED)
    (h : AtomicWaker.wakerStep c t .update = some (c', p')) :
    c'.state = AtomicWaker.NOTIFIED ∧ (p' = .idle ∨ p' = .lock ∧ c.state = AtomicWaker.WAITING) := by
  rcases valid with hs | hs | hs | hs <;> simp [AtomicWaker.wakerStep, hs] at h <;>
    obtain ⟨rfl, rfl⟩ := h <;> simp [hs]

omit [DecidableEq T] [DecidableEq K] [DecidableEq W] in
/-- After its update a wake leaves the words. -/
theorem wakerStep_words {c c' : AtomicWaker.Cell T W} {t : T} {p p' : AtomicWaker.Waking W}
    (hp : p ≠ .update) (h : AtomicWaker.wakerStep c t p = some (c', p')) :
    c'.state = c.state ∧ c'.notified = c.notified ∧ p' ≠ .update ∧ p ≠ .idle ∧ p' ≠ .lock ∧
      (p' = .take → p = .lock) := by
  cases p <;> simp only [AtomicWaker.wakerStep, reduceCtorEq] at h
  case update => exact (hp rfl).elim
  case lock =>
    split at h
    · obtain ⟨rfl, rfl⟩ : _ ∧ _ := by simpa using h
      simp
    · simp at h
  case take =>
    split at h <;> obtain ⟨rfl, rfl⟩ : _ ∧ _ := by simpa using h
    all_goals simp
  case invoke =>
    obtain ⟨rfl, rfl⟩ : _ ∧ _ := by simpa using h
    simp

/-- One step of `wake`: its update is the step at which the run has woken. -/
theorem Linked.waker {s s' : State T K W E V} {t : T} (linked : Linked s)
    (protocol : AtomicWaker.Protocol s.waker) (h : wakerStep s t = some s') :
    Linked s' ∧ AtomicWaker.next s.waker (.waker t) = some s'.waker ∧
      (s.waker.wakers t = .update ∧ s.core.runners t = .wakeJoin ∧
          Task.runStep s.core t = some s'.core ∨
        s.waker.wakers t ≠ .update ∧ s'.core = s.core) ∧
      s'.result = s.result ∧ s'.stored = s.stored ∧ s'.replaced = s.replaced := by
  obtain ⟨waker, hNext, hs'⟩ := Option.bind_eq_some_iff.mp h
  obtain ⟨c, p, hStep, rfl⟩ := AtomicWaker.next_waker hNext
  obtain ⟨_, hNotified⟩ := AtomicWaker.wakerStep_state hStep
  have hOther : ∀ u, u ≠ t → (Function.update s.waker.wakers t p) u = s.waker.wakers u :=
    fun u hu => by simp [hu]
  by_cases hUpdate : s.waker.wakers t = .update
  · rw [if_pos hUpdate] at hs'
    obtain ⟨core, hCore, rfl⟩ := Option.map_eq_some_iff.mp hs'
    have hLine : s.core.runners t = .wakeJoin :=
      ((linked.waking t (by simp [hUpdate])).resolve_right fun hNot => hNot.1 hUpdate).2
    have frame := run_frame hCore
    obtain ⟨hWoken, hComplete⟩ := frame.wakes hLine
    rw [hUpdate] at hStep
    obtain ⟨hState, hp⟩ := update_words protocol.poller.valid hStep
    refine ⟨⟨fun u hBusy => ?_, ?_, ?_, ?_, linked.noReset, fun u hu hUpdating => ?_⟩, hNext,
      Or.inl ⟨hUpdate, hLine, hCore⟩, rfl, rfl, rfl⟩
    · by_cases hut : u = t
      · subst hut
        refine Or.inr ⟨?_, hComplete, hWoken⟩
        rcases hp with rfl | ⟨rfl, _⟩ <;> simp
      · simp only [hOther u hut, frame.others u hut] at hBusy ⊢
        exact (linked.waking u hBusy).imp id fun hDone => ⟨hDone.1, hDone.2.1, hWoken⟩
    · exact ⟨fun _ => Or.inl hState, fun _ => hWoken⟩
    · intro hPolling
      exact ⟨frame.joiner.trans (linked.polling hPolling).1,
        frame.spawner.trans (linked.polling hPolling).2⟩
    · exact fun hReg => hNotified.trans (linked.fresh hReg)
    · by_cases hut : u = t
      · subst hut
        have hWaiting : s.waker.cell.state = AtomicWaker.WAITING := by
          rcases hp with rfl | ⟨_, hWaiting⟩
          · simp at hu
          · exact hWaiting
        have hFacts := protocol.poller
        cases hPoller : s.waker.poller <;> simp only [hPoller, Updating] at hUpdating <;>
          simp [hPoller, AtomicWaker.PollerFacts, hWaiting] at hFacts
      · simp only [hOther u hut] at hu
        exact linked.taking u hu hUpdating
  · rw [if_neg hUpdate] at hs'
    obtain rfl := Option.some.inj hs'
    obtain ⟨hState, _, hNotUpdate, hBusyBefore, hNotLock, hTake⟩ := wakerStep_words hUpdate hStep
    refine ⟨⟨fun u hBusy => ?_, ?_, linked.polling, ?_, linked.noReset, fun u hu => ?_⟩, hNext,
      Or.inr ⟨hUpdate, rfl⟩, rfl, rfl, rfl⟩
    · by_cases hut : u = t
      · subst hut
        have hLine := (linked.waking u hBusyBefore).resolve_left fun hNot => hUpdate hNot.1
        exact Or.inr ⟨by simpa using hNotUpdate, hLine.2⟩
      · simp only [hOther u hut] at hBusy ⊢
        exact linked.waking u hBusy
    · rw [linked.woken, hState, hNotified]
    · exact fun hReg => hNotified.trans (linked.fresh hReg)
    · by_cases hut : u = t
      · subst hut
        have hLock : s.waker.wakers u = .lock := by
          refine hTake ?_
          simpa [hNotLock] using hu
        exact linked.taking u (Or.inl hLock)
      · simp only [hOther u hut] at hu
        exact linked.taking u hu

theorem Linked.wake {s s' : State T K W E V} {t : T} (linked : Linked s)
    (h : next s (.wake t) = some s') :
    Linked s' ∧ AtomicWaker.next s.waker (.wake t) = some s'.waker ∧ s'.core = s.core ∧
      s'.result = s.result ∧ s'.stored = s.stored ∧ s'.replaced = s.replaced := by
  simp only [next] at h
  split at h
  · next hLine =>
      obtain ⟨waker, hNext, rfl⟩ := Option.map_eq_some_iff.mp h
      obtain ⟨hIdle, rfl⟩ := AtomicWaker.next_wake hNext
      have hOther : ∀ u, u ≠ t → (Function.update s.waker.wakers t .update) u = s.waker.wakers u :=
        fun u hu => by simp [hu]
      refine ⟨⟨fun u hBusy => ?_, linked.woken, linked.polling, linked.fresh, linked.noReset,
        fun u hu => ?_⟩, hNext, rfl, rfl, rfl, rfl⟩
      · by_cases hut : u = t
        · subst hut
          exact Or.inl ⟨by simp, hLine⟩
        · simp only [hOther u hut] at hBusy ⊢
          exact linked.waking u hBusy
      · by_cases hut : u = t
        · subst hut
          simp at hu
        · simp only [hOther u hut] at hu
          exact linked.taking u hu
  · simp at h

/-- A poll of the handle begins while it has its task and waits. -/
theorem Linked.poll {s s' : State T K W E V} {w : W} (linked : Linked s)
    (h : next s (.poll w) = some s') :
    Linked s' ∧ AtomicWaker.next s.waker (.poll (some w)) = some s'.waker ∧ s'.core = s.core ∧
      s.core.joiner = .waiting ∧ s'.result = s.result ∧ s'.stored = s.stored ∧
      s'.replaced = s.replaced := by
  simp only [next] at h
  split at h
  · next hStart =>
      obtain ⟨waker, hNext, rfl⟩ := Option.map_eq_some_iff.mp h
      obtain ⟨ready, hIdle, rfl⟩ := AtomicWaker.next_poll hNext
      refine ⟨⟨linked.waking, linked.woken, fun _ => hStart.symm, fun hReg => hReg.elim,
        by simp, fun u _ hUpdating => hUpdating.elim⟩, hNext, rfl, hStart.2, rfl, rfl, rfl⟩
  · simp at h

omit [DecidableEq T] [DecidableEq K] in
/-- What `poll_join` leaves as it is after its waker. -/
theorem joinStep_frame {c c' : Task.State T K} (h : Task.joinStep c = some c')
    (hJoining : c.joiner ≠ .waiting) :
    c'.woken = c.woken ∧ c'.spawner = c.spawner ∧ c'.runners = c.runners ∧
      c'.completed = c.completed := by
  cases hp : c.joiner <;> simp only [Task.joinStep, hp, reduceCtorEq] at h
  case waiting => exact (hJoining hp).elim
  case tryLock =>
    split at h <;> obtain rfl := Option.some.inj h <;> exact ⟨rfl, rfl, rfl, rfl⟩
  all_goals
    obtain rfl := Option.some.inj h
    exact ⟨rfl, rfl, rfl, rfl⟩

omit [DecidableEq T] [DecidableEq K] [DecidableEq W] in
theorem joinStep_core {s s' : State T K W E V} (h : joinStep s = some s') :
    s.core.joiner ≠ .waiting ∧ Task.joinStep s.core = some s'.core ∧ s'.waker = s.waker ∧
      s'.result = s.result := by
  simp only [joinStep] at h
  split at h
  · simp at h
  · next hp =>
      obtain ⟨core, hCore, rfl⟩ := Option.map_eq_some_iff.mp h
      exact ⟨by simp [hp], hCore, rfl, rfl⟩
  · next hWaiting _ =>
      obtain ⟨core, hCore, rfl⟩ := Option.map_eq_some_iff.mp h
      exact ⟨hWaiting, hCore, rfl, rfl⟩

omit [DecidableEq T] [DecidableEq K] [DecidableEq W] in
theorem Linked.join {s s' : State T K W E V} (linked : Linked s) (h : joinStep s = some s') :
    Linked s' := by
  obtain ⟨hJoining, hCore, hWaker, _⟩ := joinStep_core h
  obtain ⟨hWoken, hSpawner, hRunners, _⟩ := joinStep_frame hCore hJoining
  have hIdle : ¬∀ ready, s.waker.poller ≠ .idle ready := fun hPolling =>
    hJoining (linked.polling hPolling).1
  refine ⟨?_, ?_, fun hPolling => ?_, ?_, ?_, ?_⟩
  · rw [hWaker, hRunners, hWoken]
    exact linked.waking
  · rw [hWaker, hWoken]
    exact linked.woken
  · rw [hWaker] at hPolling
    exact (hIdle hPolling).elim
  · rw [hWaker]
    exact linked.fresh
  · rw [hWaker]
    exact linked.noReset
  · rw [hWaker]
    exact linked.taking

/-- The future is ready. -/
theorem finish_core {s s' : State T K W E V} {t : T} {result : Except E V}
    (h : next s (.finish t result) = some s') :
    s.core.runners t = .pollFuture ∧
      s' = { s with
        core := { s.core with completed := true }.setRunner t (.storeReady (isError result))
        result := some result } := by
  simp only [next, Task.next] at h
  split at h
  · next hp => exact ⟨hp, (Option.some.inj h).symm⟩
  · simp at h

theorem Linked.finish {s s' : State T K W E V} {t : T} {result : Except E V} (linked : Linked s)
    (h : next s (.finish t result) = some s') : Linked s' := by
  obtain ⟨hp, rfl⟩ := finish_core h
  refine linked.core rfl rfl rfl id fun u hBusy => ?_
  have hNe : u ≠ t := by
    rintro rfl
    have hLine := linked.busy hBusy
    simp [hp] at hLine
  simp [Task.State.setRunner, hNe]

theorem Inv.linked_next {s s' : State T K W E V} {e : Event T K W E V} (inv : Inv s)
    (h : next s e = some s') : Linked s' := by
  cases e with
  | task e =>
      simp only [next] at h
      split at h
      · next hOther =>
          obtain ⟨core, hCore, rfl⟩ := Option.map_eq_some_iff.mp h
          exact inv.linked.task (other_frame hOther hCore)
      · simp at h
  | run t => exact inv.linked.run h
  | finish t result => exact inv.linked.finish h
  | wake t => exact (inv.linked.wake h).1
  | waker t => exact (inv.linked.waker inv.protocol h).1
  | poll w => exact (inv.linked.poll h).1
  | poller => exact (inv.linked.poller inv.protocol h).1
  | join => exact inv.linked.join h

/-- The whole does to the task what the machine of the task can do. -/
theorem Inv.core_next {s s' : State T K W E V} {e : Event T K W E V} (inv : Inv s)
    (h : next s e = some s') : s'.core = s.core ∨ ∃ e', Task.next s.core e' = some s'.core := by
  cases e with
  | task e =>
      simp only [next] at h
      split at h
      · obtain ⟨core, hCore, rfl⟩ := Option.map_eq_some_iff.mp h
        exact Or.inr ⟨e, hCore⟩
      · simp at h
  | run t => exact Or.inr ⟨.run t, (runStep_core h).2.2.2⟩
  | finish t result =>
      obtain ⟨core, hCore, rfl⟩ := Option.map_eq_some_iff.mp h
      exact Or.inr ⟨_, hCore⟩
  | wake t => exact Or.inl (inv.linked.wake h).2.2.1
  | waker t =>
      obtain ⟨_, _, hCore, _⟩ := inv.linked.waker inv.protocol h
      exact hCore.symm.imp (·.2) fun hUpdate => ⟨.run t, hUpdate.2.2⟩
  | poll w => exact Or.inl (inv.linked.poll h).2.2.1
  | poller =>
      obtain ⟨_, _, hCore, hWaiting, hSpawner, hWoken, _⟩ := inv.linked.poller inv.protocol h
      refine hCore.imp (·.1) fun hReady => ⟨.join, ?_⟩
      rw [hReady.1]
      simp [Task.next, Task.joinStep, hWaiting, hSpawner, hWoken hReady.2]
  | join => exact Or.inr ⟨.join, (joinStep_core h).2.1⟩

/-- The events of the whole that are events of the waker. -/
def wakerEvent : Event T K W E V → Option (AtomicWaker.Event T W)
  | .wake t => some (.wake t)
  | .waker t => some (.waker t)
  | .poll w => some (.poll (some w))
  | .poller => some .poller
  | _ => none

/-- The whole does to the waker what the machine of the waker can do. -/
theorem Inv.waker_next {s s' : State T K W E V} {e : Event T K W E V} (inv : Inv s)
    (h : next s e = some s') : (wakerEvent e = none → s'.waker = s.waker) ∧
      ∀ e', wakerEvent e = some e' → AtomicWaker.next s.waker e' = some s'.waker := by
  cases e with
  | task e =>
      simp only [next] at h
      split at h
      · obtain ⟨core, hCore, rfl⟩ := Option.map_eq_some_iff.mp h
        exact ⟨fun _ => rfl, by simp [wakerEvent]⟩
      · simp at h
  | run t => exact ⟨fun _ => (runStep_core h).2.2.1, by simp [wakerEvent]⟩
  | finish t result =>
      obtain ⟨core, hCore, rfl⟩ := Option.map_eq_some_iff.mp h
      exact ⟨fun _ => rfl, by simp [wakerEvent]⟩
  | wake t => simpa [wakerEvent] using (inv.linked.wake h).2.1
  | waker t => simpa [wakerEvent] using (inv.linked.waker inv.protocol h).2.1
  | poll w => simpa [wakerEvent] using (inv.linked.poll h).2.1
  | poller => simpa [wakerEvent] using (inv.linked.poller inv.protocol h).2.1
  | join => exact ⟨fun _ => (joinStep_core h).2.2.1, by simp [wakerEvent]⟩

theorem inv_next {s s' : State T K W E V} {e : Event T K W E V} (inv : Inv s)
    (h : next s e = some s') : Inv s' := by
  refine ⟨?_, ?_, inv.linked_next h⟩
  · rcases inv.core_next h with hCore | ⟨e', hCore⟩
    · rw [hCore]
      exact inv.core
    · exact Task.inv_next inv.core hCore
  · obtain ⟨hNone, hSome⟩ := inv.waker_next h
    cases hEvent : wakerEvent e with
    | none =>
        rw [hNone hEvent]
        exact inv.protocol
    | some e' => exact AtomicWaker.protocol_step inv.protocol (hSome e' hEvent)

/-- The invariants of the two machines hold in every reachable state, as the first has
neither a runner nor a poll. -/
theorem inv_reachable {context : Option T} {s : State T K W E V}
    (h : (system T K W E V context).Reachable s) : Inv s := by
  refine h.keeps ⟨Task.inv_initial context, AtomicWaker.protocol_initial, ?_⟩
    fun _ _ _ inv hNext => inv_next inv hNext
  constructor <;> simp [system, Task.system, AtomicWaker.system, AtomicWaker.new, Registering]

/-- The two machines as parts of the whole. -/
theorem parts_reachable {context : Option T} {s : State T K W E V}
    (h : (system T K W E V context).Reachable s) :
    (Task.system T K context).Reachable s.core ∧ (AtomicWaker.system T W).Reachable s.waker := by
  obtain ⟨steps, run⟩ := h
  induction run with
  | refl => exact ⟨⟨_, .refl⟩, ⟨_, .refl⟩⟩
  | @step steps s s' e prior last ih =>
      have inv := inv_reachable ⟨_, prior⟩
      constructor
      · rcases inv.core_next last with hCore | ⟨e', hCore⟩
        · rw [hCore]
          exact ih.1
        · exact ih.1.next hCore
      · obtain ⟨hNone, hSome⟩ := inv.waker_next last
        cases hEvent : wakerEvent e with
        | none =>
            rw [hNone hEvent]
            exact ih.2
        | some e' => exact ih.2.next (hSome e' hEvent)

end Yaar.Runtime.TaskJoin
