import Yaar.Runtime.ProgramsSound

/-! Each operation of a thread keeps to the view and comes closer to the end. -/
namespace Yaar.Runtime.Programs

open Machine TaskState
open AtomicWaker (Polled Woken Fits)

variable {T E V : Type}

/-- A bound on the operations of a future and of all that it spawns, in the units in which
`Stage.weight` counts. -/
def Future.cost : Future E V → List (Option (Output E V)) → Nat
  | .ready _, _ | .panic _, _ => 0
  | .yieldNow next, outputs => 8 + next.cost outputs
  | .spawn future moved next, outputs =>
      44 + future.cost (outputs.take moved) +
        next.cost (some (future.meaning (outputs.take moved)) :: outputs.drop moved)
  | .join handle next, outputs =>
      10 + match outputs.getD handle none with
        | some (.ok value) => (next value).cost (outputs.set handle none)
        | _ => 0

def Body.cost (output : TaskId → Output E V) (body : Body E V) : Nat :=
  body.future.cost (body.outputs output)

def View.cost (v : View E V) (id : TaskId) : Nat := (v.body id).elim 0 (Body.cost v.output)

/-- What is ahead of a thread in its run of a task, given the cost of what is left. -/
def Line.weight (cost : Nat) : Line E V → Nat
  | .toRunning => 22 + cost
  | .takeFuture => 21 + cost
  | .poll _ => 20 + cost
  | .wakeByRef _ => 27 + cost
  | .pollJoin _ at_ => at_.ahead + cost
  | .replaceData _ => 11 + cost
  | .storePending _ => 26 + cost
  | .toIdle => 25 + cost
  | .toScheduled => 24 + cost
  | .storeReady _ => 12
  | .wake at_ => 2 + at_.ahead
  | .taskComplete => 1
  | .panicked => 0

def Stage.weight (cost : Nat) : Stage T E V → Nat
  | .absent | .finished => 0
  | .queued => 23 + cost
  | .parked => 24 + cost
  | .running _ line => line.weight cost

def weight (s : State T E V) (v : View E V) (stage : TaskId → Stage T E V) (id : TaskId) : Nat :=
  (stage id).weight (v.cost id) + (s.tasks id).waker.fresh

/-- A bound on the steps that are ahead. -/
def rank (s : State T E V) (v : View E V) (stage : TaskId → Stage T E V) : Nat :=
  ∑ id ∈ Finset.range s.count, weight s v stage id

/-- A sum in which one term has become less by more than is added. -/
theorem sum_add_lt {f g : Nat → Nat} {n i more : Nat} (hi : i < n) (h : f i + more < g i)
    (hSame : ∀ j, j < n → j ≠ i → f j = g j) :
    ∑ j ∈ Finset.range n, f j + more < ∑ j ∈ Finset.range n, g j := by
  have hiMem : i ∈ Finset.range n := Finset.mem_range.mpr hi
  have hRest : ∑ j ∈ (Finset.range n).erase i, f j = ∑ j ∈ (Finset.range n).erase i, g j :=
    Finset.sum_congr rfl fun j hj =>
      hSame j (Finset.mem_range.mp (Finset.mem_of_mem_erase hj)) (Finset.ne_of_mem_erase hj)
  rw [← Finset.add_sum_erase _ f hiMem, ← Finset.add_sum_erase _ g hiMem, hRest]
  omega

theorem sum_lt_of_two {f g : Nat → Nat} {n i c : Nat} (hi : i < n) (hc : c < n) (hNe : i ≠ c)
    (h : f i + f c < g i + g c) (hSame : ∀ j, j ≠ i → j ≠ c → f j = g j) :
    ∑ j ∈ Finset.range n, f j < ∑ j ∈ Finset.range n, g j := by
  have hiMem : i ∈ Finset.range n := Finset.mem_range.mpr hi
  have hcMem : c ∈ (Finset.range n).erase i :=
    Finset.mem_erase.mpr ⟨hNe.symm, Finset.mem_range.mpr hc⟩
  have hRest : ∑ j ∈ ((Finset.range n).erase i).erase c, f j =
      ∑ j ∈ ((Finset.range n).erase i).erase c, g j := by
    refine Finset.sum_congr rfl fun j hj => ?_
    rw [Finset.mem_erase, Finset.mem_erase] at hj
    exact hSame j hj.2.1 hj.1
  rw [← Finset.add_sum_erase _ f hiMem, ← Finset.add_sum_erase _ g hiMem,
    ← Finset.add_sum_erase _ f hcMem, ← Finset.add_sum_erase _ g hcMem, hRest]
  omega

variable {s s' : State T E V} {v v' : View E V} {stage stage' : TaskId → Stage T E V} {t : T}
  {id c : TaskId} {body : Body E V} {line : Line E V}

/-- A step that makes its own task lighter and no other task heavier makes the rank
less. -/
theorem rank_lt_of_one (hCount : s'.count = s.count) (hBelow : id < s.count)
    (h : weight s' v' stage' id < weight s v stage id)
    (hRest : ∀ j, j ≠ id → weight s' v' stage' j ≤ weight s v stage j) :
    rank s' v' stage' < rank s v stage := by
  unfold rank
  rw [hCount]
  refine Finset.sum_lt_sum (fun j _ => ?_) ⟨id, Finset.mem_range.mpr hBelow, h⟩
  by_cases hj : j = id
  · exact hj ▸ h.le
  · exact hRest j hj

/-- A task that a step leaves alone has the weight it had, as its cost depends on the
outputs of its handles only. -/
theorem Same.weight_eq (same : Same s s' v v' stage stage' id)
    (hOutput : ∀ body i c, v.body id = some body → body.Handle i c → v'.output c = v.output c)
    (hWaker : (s'.tasks id).waker = (s.tasks id).waker) :
    weight s' v' stage' id = weight s v stage id := by
  have hCost : v'.cost id = v.cost id := by
    unfold View.cost
    rw [same.body]
    cases hBody : v.body id with
    | none => rfl
    | some body =>
        rw [Option.elim_some, Option.elim_some, Body.cost, Body.cost,
          body.outputs_congr fun i c => hOutput body i c hBody]
  rw [weight, weight, same.stays, hCost, hWaker]

/-- A wake of the handle's waker, up to where it calls the waker. -/
theorem State.step_wake [DecidableEq T] {at_ at_' : AtomicWaker.Waking TaskId}
    {waker : AtomicWaker.Cell Unit TaskId} (hInvoke : ∀ w, at_ ≠ .invoke w)
    (hWaker : AtomicWaker.wakerStep (s.tasks id).waker () at_ = some (waker, at_')) :
    s.step t id (.wake at_) =
      some ((s.setTask id { s.tasks id with waker }).goto t id (.afterWake at_')) := by
  cases at_ with
  | invoke w => exact absurd rfl (hInvoke w)
  | update | lock | take | idle | panicked => simp only [State.step, hWaker, Option.map_some]

/-- A step keeps to a view in which less is ahead. -/
inductive Goes (s s' : State T E V) (v : View E V) (stage : TaskId → Stage T E V) : Prop where
  | to (v' : View E V) (stage' : TaskId → Stage T E V) (fine : Fine s' v' stage')
      (output : v'.output 0 = v.output 0) (less : rank s' v' stage' < rank s v stage)

/-! ## Operations on the task alone -/

variable [DecidableEq T]

omit [DecidableEq T] in
theorem Fine.below (fine : Fine s v stage) (h : stage id ≠ .absent) : id < s.count :=
  fine.placed.below h

omit [DecidableEq T] in
theorem Fine.below_of_run (fine : Fine s v stage) (hRun : stage id = .running t line) :
    id < s.count :=
  fine.below (by simp [hRun])

omit [DecidableEq T] in
/-- A stage that changes matters to others only where the wake comes to be over. -/
theorem over_update {next : Stage T E V} (h : next.woken = .after ↔ (stage id).woken = .after) :
    Over (Function.update stage id next) = Over stage := by
  funext j
  by_cases hj : j = id
  · subst hj
    simp [Over, h]
  · simp [Over, Function.update_of_ne hj]

omit [DecidableEq T] in
/-- A step at a task leaves the others alone. If it ends the wake, nobody waits any more. -/
theorem Fine.move (fine : Fine s v stage) (hBelow : id < s.count)
    {next : Stage T E V} {task : Task E V} (hTasks : s'.tasks = Function.update s.tasks id task)
    (hCount : s'.count = s.count)
    (placed : Placed s'.threads s'.runnables s.count (Function.update stage id next))
    (fits : Fits task.waker (v.polled id) next.woken)
    (hOver : (next.woken = .after ↔ (stage id).woken = .after) ∨ ∀ j, v.polled id ≠ .waiting j)
    (hJoined : task.data = .joined → (s.tasks id).data = .joined)
    (finds : next.Finds v (Over (Function.update stage id next)) task id)
    (hWeight : next.weight (v.cost id) + task.waker.fresh < weight s v stage id) :
    Goes s s' v stage := by
  have hSame (c j : TaskId) (hWaits : v.polled c = .waiting j) :
      Over (Function.update stage id next) c ↔ Over stage c := by
    by_cases hc : c = id
    · subst hc
      rw [Over, Over, Function.update_self]
      rcases hOver with h | hAlone
      · exact h
      · exact absurd hWaits (hAlone j)
    · rw [Over, Over, Function.update_of_ne hc]
  have same (j : TaskId) (hj : j ≠ id) : Same s s' v v stage (Function.update stage id next) j := by
    constructor
    · exact Function.update_of_ne hj ..
    · rw [hTasks, Function.update_of_ne hj]
    · rw [hTasks, Function.update_of_ne hj]
    · rfl
    · rfl
    · exact fun _ _ _ _ => rfl
    · exact fun c => hSame c j
  have hTask : s'.tasks id = task := by rw [hTasks, Function.update_self]
  have fine' : Fine s' v (Function.update stage id next) := by
    refine ⟨hCount ▸ placed, hCount ▸ fine.linked, fun j => ?_, fun j hj => ?_, fun c hKept hData => ?_,
      hCount ▸ fine.main⟩
    · by_cases hj : j = id
      · subst hj
        rw [Function.update_self, hTask]
        exact finds
      · exact (same j hj).finds (fine.finds j)
    · rw [hCount] at hj
      by_cases hEq : j = id
      · subst hEq
        rw [Function.update_self, hTask]
        exact fits
      · rw [Function.update_of_ne hEq, hTasks, Function.update_of_ne hEq]
        exact fine.fits j hj
    · refine fine.unjoined c hKept ?_
      by_cases hc : c = id
      · subst hc
        rw [hTask] at hData
        exact hJoined hData
      · rwa [hTasks, Function.update_of_ne hc] at hData
  refine ⟨v, Function.update stage id next, fine', rfl, rank_lt_of_one hCount hBelow ?_ fun j hj => ?_⟩
  · rw [weight, Function.update_self, hTask]
    exact hWeight
  · refine ((same j hj).weight_eq (fun _ _ _ _ _ => rfl) ?_).le
    rw [hTasks, Function.update_of_ne hj]

omit [DecidableEq T] in
theorem Fine.findsLine (fine : Fine s v stage) (hRun : stage id = .running t line) :
    line.Finds v (Over stage) (s.tasks id) id := by
  have finds := fine.finds id
  rw [hRun] at finds
  exact finds

omit [DecidableEq T] in
/-- A task gets on without its waker, and its wake does not end. -/
theorem Fine.keep {prior next : Stage T E V} (fine : Fine s v stage) (task : Task E V)
    (hStage : stage id = prior) (hPrior : prior ≠ .absent)
    (hTasks : s'.tasks = Function.update s.tasks id task) (hCount : s'.count = s.count)
    (placed : Placed s'.threads s'.runnables s.count (Function.update stage id next))
    (hWaker : task.waker = (s.tasks id).waker)
    (hFits : ∀ polled, Fits (s.tasks id).waker polled prior.woken →
      Fits (s.tasks id).waker polled next.woken)
    (hOver : next.woken = .after ↔ prior.woken = .after)
    (hJoined : task.data = .joined → (s.tasks id).data = .joined)
    (finds : next.Finds v (Over stage) task id)
    (hWeight : next.weight (v.cost id) < prior.weight (v.cost id)) : Goes s s' v stage := by
  subst hStage
  have hBelow : id < s.count := fine.below hPrior
  refine fine.move hBelow hTasks hCount placed (hWaker ▸ hFits _ (fine.fits id hBelow)) (.inl hOver)
    hJoined ?_ ?_
  · rwa [over_update hOver]
  · rw [weight, hWaker]
    exact Nat.add_lt_add_right hWeight _

/-- From one line to another. -/
theorem Fine.goto {task : Task E V} (fine : Fine s v stage) (hRun : stage id = .running t line)
    (line' : Line E V) (hWaker : task.waker = (s.tasks id).waker)
    (hFits : ∀ polled, Fits (s.tasks id).waker polled (Stage.running t line).woken →
      Fits (s.tasks id).waker polled (Stage.running t line').woken)
    (hOver : (Stage.running t line').woken = .after ↔ (Stage.running t line).woken = .after)
    (hJoined : task.data = .joined → (s.tasks id).data = .joined)
    (finds : line'.Finds v (Over stage) task id)
    (hWeight : line'.weight (v.cost id) < line.weight (v.cost id)) :
    Goes s ((s.setTask id task).goto t id line') v stage :=
  fine.keep _ hRun (by simp) rfl rfl (fine.placed.goto hRun line') hWaker hFits hOver hJoined
    finds hWeight

/-- A task that is taken is scheduled, so it comes to be running. -/
theorem Fine.toRunning (fine : Fine s v stage) (hRun : stage id = .running t .toRunning) :
    ∃ s', s.step t id .toRunning = some s' ∧ Goes s s' v stage := by
  obtain ⟨body, hBody, hState, hData, hResumes⟩ := fine.findsLine hRun
  refine ⟨_, by simp only [State.step, hState, transitionToRunning, if_true]; rfl, ?_⟩
  exact fine.goto hRun .takeFuture rfl (fun _ h => h) (by simp [Stage.woken]) (fun h => h)
    ⟨body, hBody, rfl, hData, hResumes⟩ (by simp [Line.weight])

/-- The future is there to be taken: no other thread is running the task. -/
theorem Fine.takeFuture (fine : Fine s v stage) (hRun : stage id = .running t .takeFuture) :
    ∃ s', s.step t id .takeFuture = some s' ∧ Goes s s' v stage := by
  obtain ⟨body, hBody, hState, hData, hResumes⟩ := fine.findsLine hRun
  refine ⟨_, by simp only [State.step, hData]; rfl, ?_⟩
  exact fine.goto hRun (.poll body) rfl (fun _ h => h) (by simp [Stage.woken])
    (by simp) ⟨hBody, hState, rfl, hResumes⟩ (by simp [Line.weight])

theorem Fine.wakeByRef (fine : Fine s v stage) (hRun : stage id = .running t (.wakeByRef body)) :
    ∃ s', s.step t id (.wakeByRef body) = some s' ∧ Goes s s' v stage := by
  obtain ⟨hBody, hState, hData, hResumes⟩ := fine.findsLine hRun
  refine ⟨_, rfl, ?_⟩
  rw [State.wakeTask, show transitionToScheduled (s.tasks id).state = (TASK_NOTIFIED, false) by
    rw [hState]; rfl]
  exact fine.goto hRun (.storePending body) rfl (fun _ h => h) (by simp [Stage.woken]) (fun h => h)
    ⟨hBody, hData, .inl ⟨rfl, hResumes⟩⟩ (by simp [Line.weight])

theorem Fine.storePending (fine : Fine s v stage) (hRun : stage id = .running t (.storePending body)) :
    ∃ s', s.step t id (.storePending body) = some s' ∧ Goes s s' v stage := by
  obtain ⟨hBody, hData, hSuspends⟩ := fine.findsLine hRun
  refine ⟨_, rfl, ?_⟩
  exact fine.goto hRun .toIdle rfl (fun _ h => h) (by simp [Stage.woken]) (by simp)
    ⟨body, hBody, rfl, hSuspends⟩ (by simp [Line.weight])

/-- Unless it has been notified, the task waits from now on. -/
theorem Fine.toIdle (fine : Fine s v stage) (hRun : stage id = .running t .toIdle) :
    ∃ s', s.step t id .toIdle = some s' ∧ Goes s s' v stage := by
  obtain ⟨body, hBody, hData, ⟨hState, hResumes⟩ | ⟨hState, hWaits⟩⟩ := fine.findsLine hRun
  · have hIdle : transitionToIdle (s.tasks id).state = some (TASK_NOTIFIED, false) := by
      rw [hState]
      rfl
    refine ⟨_, by simp only [State.step, hIdle]; rfl, ?_⟩
    exact fine.goto hRun .toScheduled rfl (fun _ h => h) (by simp [Stage.woken]) (fun h => h)
      ⟨body, hBody, rfl, hData, hResumes⟩ (by simp [Line.weight])
  · have hIdle : transitionToIdle (s.tasks id).state = some (TASK_IDLE, true) := by
      rw [hState]
      rfl
    refine ⟨_, by simp only [State.step, hIdle]; rfl, ?_⟩
    exact fine.keep _ hRun (by simp) rfl rfl (fine.placed.leave hRun .parked (.inl rfl)) rfl
      (fun _ h => h) (by simp [Stage.woken]) (fun h => h) ⟨body, hBody, rfl, hData, hWaits⟩
      (by simp [Stage.weight, Line.weight])

theorem Fine.toScheduled (fine : Fine s v stage) (hRun : stage id = .running t .toScheduled) :
    ∃ s', s.step t id .toScheduled = some s' ∧ Goes s s' v stage := by
  obtain ⟨body, hBody, hState, hData, hResumes⟩ := fine.findsLine hRun
  refine ⟨_, by simp only [State.step, hState, if_true]; rfl, ?_⟩
  have hParked : Function.update stage id .parked id = .parked := Function.update_self ..
  have placed := (fine.placed.leave hRun .parked (.inl rfl)).schedule (.inl hParked)
  rw [Function.update_idem] at placed
  exact fine.keep _ hRun (by simp) rfl rfl placed rfl (fun _ h => h) (by simp [Stage.woken])
    (fun h => h) ⟨body, hBody, rfl, hData, hResumes⟩ (by simp [Stage.weight, Line.weight])

theorem Fine.storeReady {output : Output E V} (fine : Fine s v stage)
    (hRun : stage id = .running t (.storeReady output)) :
    ∃ s', s.step t id (.storeReady output) = some s' ∧ Goes s s' v stage := by
  obtain ⟨hBody, hData, rfl⟩ := fine.findsLine hRun
  refine ⟨_, rfl, ?_⟩
  exact fine.goto hRun (.wake .update) rfl (fun _ h => h) (by simp [Stage.woken])
    (by simp) ⟨hBody, rfl⟩ (by simp [Line.weight, AtomicWaker.Waking.ahead])

/-- A step of the wake, up to the call of the waker. -/
theorem Fine.wake {at_ : AtomicWaker.Waking TaskId} (fine : Fine s v stage)
    (hRun : stage id = .running t (.wake at_)) (hInvoke : ∀ w, at_ ≠ .invoke w) :
    ∃ s', s.step t id (.wake at_) = some s' ∧ Goes s s' v stage := by
  have finds := fine.findsLine hRun
  have hBelow : id < s.count := fine.below_of_run hRun
  have fits : Fits (s.tasks id).waker (v.polled id) (.inside at_) := by
    have fits := fine.fits id hBelow
    rwa [hRun] at fits
  obtain ⟨waker, at_', hWaker, hWakes⟩ := fits.wake hInvoke
  refine ⟨_, State.step_wake hInvoke hWaker, ?_⟩
  cases hWakes with
  | ended fits' hAlone hFresh =>
      refine fine.move hBelow rfl rfl (fine.placed.goto hRun .taskComplete) fits' (.inr hAlone)
        (fun h => h) ⟨finds.1, .inl finds.2⟩ ?_
      rw [weight, hRun]
      simp only [Stage.weight, Line.weight]
      omega
  | inside _ fits' hFresh hAhead =>
      have hLine : (Line.afterWake at_' : Line E V) = .wake at_' := by
        cases at_' with
        | idle | panicked => exact fits'.elim
        | update | lock | take | invoke w => rfl
      rw [hLine]
      refine fine.move hBelow rfl rfl (fine.placed.goto hRun (.wake at_')) fits'
        (.inl (by simp [hRun, Stage.woken])) (fun h => h) finds ?_
      rw [weight, hRun]
      simp only [Stage.weight, Line.weight]
      omega

/-- `Task::run` returns. -/
theorem Fine.taskComplete (fine : Fine s v stage) (hRun : stage id = .running t .taskComplete) :
    ∃ s', s.step t id .taskComplete = some s' ∧ Goes s s' v stage := by
  have finds := fine.findsLine hRun
  refine ⟨_, rfl, ?_⟩
  exact fine.keep (s.tasks id) hRun (by simp) (Function.update_eq_self id s.tasks).symm
    rfl (fine.placed.leave hRun .finished (.inr rfl)) rfl (fun _ h => h) (by simp [Stage.woken])
    (fun h => h) finds (by simp [Stage.weight, Line.weight])

end Yaar.Runtime.Programs
