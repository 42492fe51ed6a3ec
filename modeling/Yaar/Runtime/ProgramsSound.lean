import Mathlib.Algebra.Order.BigOperators.Group.Finset
import Yaar.Runtime.Programs
import Yaar.Sync.AtomicWakerOnce

/-! What each task of a program is about while the threads run it: the stage it is at,
what is left of its future, and whom it waits for. -/
namespace Yaar.Runtime.Programs

open Machine TaskState
open AtomicWaker (Polled Woken Fits)

variable {T E V : Type}

/-- Where a task is, and the thread that has it there. -/
inductive Stage (T E V : Type) where
  | absent
  | queued
  | running (t : T) (line : Line E V)
  | parked
  | finished

/-- How far a task is with the wake of whoever awaits it. -/
def Stage.woken : Stage T E V → Woken TaskId
  | .running _ (.wake at_) => .inside at_
  | .running _ .taskComplete | .finished => .after
  | _ => .before

/-- What the tasks are about: the future that is left, what it comes to, who has the handle
and polls it, and an order in which the handles of a task come after it. -/
structure View (E V : Type) where
  body : TaskId → Option (Body E V)
  output : TaskId → Output E V
  polled : TaskId → Polled TaskId
  owner : TaskId → TaskId
  order : TaskId → Nat

/-- The task whose handle is awaited next. -/
def Body.awaits (body : Body E V) : Option TaskId :=
  match body.future with
  | .join handle _ => body.handles.getD handle none
  | _ => none

/-- It has the handle of a task under a number. -/
abbrev Body.Handle (body : Body E V) (i : Nat) (c : TaskId) : Prop :=
  body.handles[i]? = some (some c)

def Body.outputs (output : TaskId → Output E V) (body : Body E V) : List (Option (Output E V)) :=
  body.handles.map (Option.map output)

def Body.meaning (output : TaskId → Output E V) (body : Body E V) : Output E V :=
  body.future.meaning (body.outputs output)

/-- The wake of whoever awaits it is over. -/
def Over (stage : TaskId → Stage T E V) (c : TaskId) : Prop := (stage c).woken = .after

section Finds

variable (v : View E V) (ended : TaskId → Prop)

/-- A task that is polled again has been woken by the one it awaits. -/
def Resumes (id : TaskId) (body : Body E V) : Prop :=
  ∀ c, body.awaits = some c →
    v.polled c = .away ∨ v.polled c = .waiting id ∧ ended c

def Waits (id : TaskId) (body : Body E V) : Prop :=
  ∃ c, body.awaits = some c ∧ v.polled c = .waiting id ∧ ¬ended c

/-- At the end of a poll that is pending. -/
def Suspends (id : TaskId) (body : Body E V) (state : TaskState) : Prop :=
  state = TASK_NOTIFIED ∧ Resumes v ended id body ∨ state = TASK_RUNNING ∧ Waits v ended id body

/-- What a thread finds at a line of `Task::run`. -/
def Line.Finds (task : Task E V) (id : TaskId) : Line E V → Prop
  | .toRunning => ∃ body, v.body id = some body ∧ task.state = TASK_SCHEDULED ∧
      task.data = .pending body ∧ Resumes v ended id body
  | .takeFuture => ∃ body, v.body id = some body ∧ task.state = TASK_RUNNING ∧
      task.data = .pending body ∧ Resumes v ended id body
  | .poll body | .wakeByRef body => v.body id = some body ∧ task.state = TASK_RUNNING ∧
      task.data = .polling ∧ Resumes v ended id body
  | .pollJoin await at_ => v.body id = some await.body ∧ task.state = TASK_RUNNING ∧
      task.data = .polling ∧ await.body.awaits = some await.task ∧
      v.polled await.task = .inside id at_
  | .replaceData await => v.body id = some await.body ∧ task.state = TASK_RUNNING ∧
      task.data = .polling ∧ await.body.awaits = some await.task ∧ v.polled await.task = .ready
  | .storePending body => v.body id = some body ∧ task.data = .polling ∧
      Suspends v ended id body task.state
  | .toIdle => ∃ body, v.body id = some body ∧ task.data = .pending body ∧
      Suspends v ended id body task.state
  | .toScheduled => ∃ body, v.body id = some body ∧ task.state = TASK_NOTIFIED ∧
      task.data = .pending body ∧ Resumes v ended id body
  | .storeReady output => v.body id = none ∧ task.data = .polling ∧ output = v.output id
  | .wake _ => v.body id = none ∧ task.data = .ready (v.output id)
  | .taskComplete => v.body id = none ∧ (task.data = .ready (v.output id) ∨ task.data = .joined)
  | .panicked => False

def Stage.Finds (task : Task E V) (id : TaskId) : Stage T E V → Prop
  | .absent => v.body id = none
  | .queued => ∃ body, v.body id = some body ∧ task.state = TASK_SCHEDULED ∧
      task.data = .pending body ∧ Resumes v ended id body
  | .running _ line => line.Finds v ended task id
  | .parked => ∃ body, v.body id = some body ∧ task.state = TASK_IDLE ∧
      task.data = .pending body ∧ Waits v ended id body
  | .finished => v.body id = none ∧ (task.data = .ready (v.output id) ∨ task.data = .joined)

end Finds

/-- The threads and the queue have the tasks of these stages. -/
structure Placed (threads : T → Option (TaskId × Line E V)) (runnables : List TaskId) (count : Nat)
    (stage : TaskId → Stage T E V) : Prop where
  threads : ∀ t id line, threads t = some (id, line) ↔ stage id = .running t line
  nodup : runnables.Nodup
  queued : ∀ id, id ∈ runnables ↔ stage id = .queued
  absent : ∀ id, stage id = .absent ↔ count ≤ id

/-- A handle of one task to another. -/
structure Held (count : Nat) (v : View E V) (id c : TaskId) : Prop where
  owner : v.owner c = id
  below : c < count
  ordered : v.order id < v.order c
  notMain : c ≠ 0

/-- Each handle is held once, and the futures that are left come to what they did. -/
structure Linked (count : Nat) (v : View E V) : Prop where
  means : ∀ id body, v.body id = some body → body.meaning v.output = v.output id
  held : ∀ id body i c, v.body id = some body → body.Handle i c → Held count v id c
  distinct : ∀ id body i j c, v.body id = some body → body.Handle i c →
    body.Handle j c → i = j
  away : ∀ id body i c, v.body id = some body → body.Handle i c →
    body.awaits ≠ some c → v.polled c = .away
  waiting : ∀ c id, v.polled c = .waiting id → ∃ body, v.body id = some body ∧ body.awaits = some c

/-- Someone has its handle. The handle of the first task is outside of the runtime. -/
def View.Kept (v : View E V) (c : TaskId) : Prop :=
  c = 0 ∨ ∃ id body i, v.body id = some body ∧ body.Handle i c

/-- The threads keep to the view. -/
structure Fine (s : State T E V) (v : View E V) (stage : TaskId → Stage T E V) : Prop where
  placed : Placed s.threads s.runnables s.count stage
  linked : Linked s.count v
  finds : ∀ id, (stage id).Finds v (Over stage) (s.tasks id) id
  fits : ∀ id, id < s.count → Fits (s.tasks id).waker (v.polled id) (stage id).woken
  unjoined : ∀ c, v.Kept c → (s.tasks c).data ≠ .joined
  main : 0 < s.count

/-! ## Handles -/

variable {v v' : View E V} {stage stage' : TaskId → Stage T E V} {count : Nat} {id c : TaskId}
  {body : Body E V}

/-- A future awaits a task exactly if it is at a join of that task's handle. -/
theorem Body.awaits_iff : body.awaits = some c ↔
    ∃ handle next, body.future = .join handle next ∧ body.Handle handle c := by
  unfold Body.awaits
  split
  · next handle next hFuture =>
      rw [List.getD_eq_getElem?_getD]
      constructor
      · intro hSome
        refine ⟨handle, next, hFuture, ?_⟩
        cases hGet : body.handles[handle]? with
        | none => simp [hGet] at hSome
        | some joinable => simpa [Body.Handle, hGet] using hSome
      · rintro ⟨handle', next', hFuture', hGet⟩
        obtain ⟨rfl, -⟩ := Future.join.inj (hFuture.symm.trans hFuture')
        rw [hGet, Option.getD_some]
  · next hNone =>
      constructor
      · intro h
        cases h
      · rintro ⟨handle, next, hFuture, -⟩
        exact absurd hFuture (hNone handle next)

theorem Linked.held_of_awaits (linked : Linked count v) (hBody : v.body id = some body)
    (h : body.awaits = some c) : Held count v id c := by
  obtain ⟨handle, next, -, hGet⟩ := Body.awaits_iff.mp h
  exact linked.held id body handle c hBody hGet

/-- Outputs of tasks whose handles are not there do not matter. -/
theorem Body.outputs_congr (body : Body E V) {output output' : TaskId → Output E V}
    (h : ∀ i c, body.Handle i c → output' c = output c) :
    body.outputs output' = body.outputs output := by
  refine List.map_congr_left fun joinable hMem => ?_
  obtain ⟨i, hGet⟩ := List.mem_iff_getElem?.mp hMem
  cases joinable with
  | none => rfl
  | some c => rw [Option.map_some, Option.map_some, h i c hGet]

/-! ## Where the tasks are -/

section Placed

variable [DecidableEq T] {threads : T → Option (TaskId × Line E V)} {runnables : List TaskId} {t : T}
  {line line' : Line E V}

omit [DecidableEq T] in
theorem Placed.below (placed : Placed threads runnables count stage) (h : stage id ≠ .absent) :
    id < count := by
  by_contra hNot
  exact h ((placed.absent id).mpr (not_lt.mp hNot))

omit [DecidableEq T] in
/-- A thread runs one task. -/
theorem Placed.alone (placed : Placed threads runnables count stage) (h : stage id = .running t line)
    {j : TaskId} (hj : j ≠ id) : stage j ≠ .running t line' := by
  intro hRun
  have hThread := ((placed.threads t id line).mpr h).symm.trans ((placed.threads t j line').mpr hRun)
  exact hj (Prod.mk.inj (Option.some.inj hThread)).1.symm

/-- A thread that runs a task moves on within it. -/
theorem Placed.goto (placed : Placed threads runnables count stage) (h : stage id = .running t line)
    (line' : Line E V) : Placed (Function.update threads t (some (id, line'))) runnables count
      (Function.update stage id (.running t line')) where
  threads := fun u j l => by
    by_cases hj : j = id
    · subst hj
      rw [Function.update_self]
      by_cases hu : u = t
      · subst hu
        simp
      · rw [Function.update_of_ne hu, placed.threads u j l, h]
        simp [Ne.symm hu]
    · rw [Function.update_of_ne hj]
      by_cases hu : u = t
      · subst hu
        simp [placed.alone h hj, Ne.symm hj]
      · rw [Function.update_of_ne hu, placed.threads u j l]
  nodup := placed.nodup
  queued := fun j => by
    by_cases hj : j = id
    · subst hj
      simp [placed.queued, h]
    · rw [Function.update_of_ne hj, placed.queued]
  absent := fun j => by
    by_cases hj : j = id
    · subst hj
      simp [← placed.absent, h]
    · rw [Function.update_of_ne hj, placed.absent]

/-- A thread takes a task out of the queue. -/
theorem Placed.take (placed : Placed threads runnables count stage) (hIdle : threads t = none)
    (h : stage id = .queued) : Placed (Function.update threads t (some (id, line)))
      (runnables.erase id) count (Function.update stage id (.running t line)) where
  threads := fun u j l => by
    by_cases hj : j = id
    · subst hj
      rw [Function.update_self]
      by_cases hu : u = t
      · subst hu
        simp
      · rw [Function.update_of_ne hu, placed.threads u j l, h]
        simp [Ne.symm hu]
    · rw [Function.update_of_ne hj]
      by_cases hu : u = t
      · subst hu
        rw [← placed.threads u j l, hIdle]
        simp [Ne.symm hj]
      · rw [Function.update_of_ne hu, placed.threads u j l]
  nodup := placed.nodup.erase id
  queued := fun j => by
    by_cases hj : j = id
    · subst hj
      simp [placed.nodup.mem_erase_iff]
    · rw [Function.update_of_ne hj, List.mem_erase_of_ne hj, placed.queued]
  absent := fun j => by
    by_cases hj : j = id
    · subst hj
      simp [← placed.absent, h]
    · rw [Function.update_of_ne hj, placed.absent]

/-- A thread leaves its task, which nobody runs from then on. -/
theorem Placed.leave (placed : Placed threads runnables count stage) (h : stage id = .running t line)
    (next : Stage T E V) (hNext : next = .parked ∨ next = .finished) :
    Placed (Function.update threads t none) runnables count (Function.update stage id next) where
  threads := fun u j l => by
    have hRuns : next ≠ .running u l := by rcases hNext with rfl | rfl <;> simp
    by_cases hu : u = t
    · subst hu
      rw [Function.update_self]
      by_cases hj : j = id
      · subst hj
        simp [hRuns]
      · rw [Function.update_of_ne hj]
        simp [placed.alone h hj]
    · rw [Function.update_of_ne hu, placed.threads u j l]
      by_cases hj : j = id
      · subst hj
        simp [hRuns, h, Ne.symm hu]
      · rw [Function.update_of_ne hj]
  nodup := placed.nodup
  queued := fun j => by
    by_cases hj : j = id
    · subst hj
      rcases hNext with rfl | rfl <;> simp [placed.queued, h]
    · rw [Function.update_of_ne hj, placed.queued]
  absent := fun j => by
    by_cases hj : j = id
    · subst hj
      rcases hNext with rfl | rfl <;> simp [← placed.absent, h]
    · rw [Function.update_of_ne hj, placed.absent]

omit [DecidableEq T] in
/-- A task that is nowhere comes into the queue. -/
theorem Placed.schedule (placed : Placed threads runnables count stage)
    (h : stage id = .parked ∨ stage id = .finished) :
    Placed threads (id :: runnables) count (Function.update stage id .queued) where
  threads := fun u j l => by
    by_cases hj : j = id
    · subst hj
      rw [placed.threads u j l]
      rcases h with h | h <;> simp [h]
    · rw [Function.update_of_ne hj, placed.threads u j l]
  nodup := by
    refine List.nodup_cons.mpr ⟨fun hMem => ?_, placed.nodup⟩
    rw [placed.queued] at hMem
    rcases h with h | h <;> simp [h] at hMem
  queued := fun j => by
    by_cases hj : j = id
    · subst hj
      simp
    · rw [Function.update_of_ne hj, List.mem_cons, placed.queued]
      simp [hj]
  absent := fun j => by
    by_cases hj : j = id
    · subst hj
      rw [← placed.absent]
      rcases h with h | h <;> simp [h]
    · rw [Function.update_of_ne hj, placed.absent]

omit [DecidableEq T] in
/-- A new task comes into the queue. -/
theorem Placed.spawn (placed : Placed threads runnables count stage) :
    Placed threads (count :: runnables) (count + 1) (Function.update stage count .queued) where
  threads := fun u j l => by
    by_cases hj : j = count
    · subst hj
      rw [placed.threads u j l, (placed.absent j).mpr le_rfl]
      simp
    · rw [Function.update_of_ne hj, placed.threads u j l]
  nodup := by
    refine List.nodup_cons.mpr ⟨fun hMem => ?_, placed.nodup⟩
    rw [placed.queued, (placed.absent count).mpr le_rfl] at hMem
    cases hMem
  queued := fun j => by
    by_cases hj : j = count
    · subst hj
      simp
    · rw [Function.update_of_ne hj, List.mem_cons, placed.queued]
      simp [hj]
  absent := fun j => by
    by_cases hj : j = count
    · subst hj
      simp
    · rw [Function.update_of_ne hj, placed.absent]
      exact ⟨fun hLe => Nat.lt_of_le_of_ne hLe (Ne.symm hj), Nat.le_of_succ_le⟩

end Placed

/-! ## Tasks that a step leaves alone -/

/-- What a step has left as it was for a task. -/
structure Same (s s' : State T E V) (v v' : View E V) (stage stage' : TaskId → Stage T E V)
    (j : TaskId) : Prop where
  stays : stage' j = stage j
  state : (s'.tasks j).state = (s.tasks j).state
  data : (s'.tasks j).data = (s.tasks j).data
  body : v'.body j = v.body j
  output : v'.output j = v.output j
  polled : ∀ body c, v.body j = some body → body.awaits = some c → v'.polled c = v.polled c
  woken : ∀ c, v.polled c = .waiting j → (Over stage' c ↔ Over stage c)

variable {s s' : State T E V}

/-- What a task needs to be polled again is the same where the step has left it as it
was. -/
theorem Same.resumes (same : Same s s' v v' stage stage' id) (hBody : v.body id = some body)
    (h : Resumes v (Over stage) id body) : Resumes v' (Over stage') id body := by
  intro c hAwaits
  rw [same.polled body c hBody hAwaits]
  rcases h c hAwaits with hAway | ⟨hWaiting, hAfter⟩
  · exact .inl hAway
  · exact .inr ⟨hWaiting, (same.woken c hWaiting).mpr hAfter⟩

theorem Same.waits (same : Same s s' v v' stage stage' id) (hBody : v.body id = some body)
    (h : Waits v (Over stage) id body) : Waits v' (Over stage') id body := by
  obtain ⟨c, hAwaits, hWaiting, hAfter⟩ := h
  refine ⟨c, hAwaits, ?_, fun hAfter' => hAfter ((same.woken c hWaiting).mp hAfter')⟩
  rw [same.polled body c hBody hAwaits, hWaiting]

theorem Same.suspends {state : TaskState} (same : Same s s' v v' stage stage' id)
    (hBody : v.body id = some body) (h : Suspends v (Over stage) id body state) :
    Suspends v' (Over stage') id body state :=
  h.imp (And.imp_right (same.resumes hBody)) (And.imp_right (same.waits hBody))

/-- A task that the step has left alone finds what it needs still. -/
theorem Same.finds (same : Same s s' v v' stage stage' id)
    (h : (stage id).Finds v (Over stage) (s.tasks id) id) :
    (stage' id).Finds v' (Over stage') (s'.tasks id) id := by
  rw [same.stays]
  cases hStage : stage id with
  | absent =>
      rw [hStage] at h
      exact same.body.trans h
  | queued | parked =>
      rw [hStage] at h
      obtain ⟨body, hBody, hState, hData, hRest⟩ := h
      refine ⟨body, same.body.trans hBody, same.state.trans hState, same.data.trans hData, ?_⟩
      first | exact same.resumes hBody hRest | exact same.waits hBody hRest
  | finished =>
      rw [hStage] at h
      refine ⟨same.body.trans h.1, ?_⟩
      rw [same.data, same.output]
      exact h.2
  | running t line =>
      rw [hStage] at h
      cases line with
      | toRunning | takeFuture | toScheduled =>
          obtain ⟨body, hBody, hState, hData, hResumes⟩ := h
          exact ⟨body, same.body.trans hBody, same.state.trans hState, same.data.trans hData,
            same.resumes hBody hResumes⟩
      | poll body | wakeByRef body =>
          obtain ⟨hBody, hState, hData, hResumes⟩ := h
          exact ⟨same.body.trans hBody, same.state.trans hState, same.data.trans hData,
            same.resumes hBody hResumes⟩
      | pollJoin await at_ =>
          obtain ⟨hBody, hState, hData, hAwaits, hPolled⟩ := h
          exact ⟨same.body.trans hBody, same.state.trans hState, same.data.trans hData, hAwaits,
            (same.polled _ _ hBody hAwaits).trans hPolled⟩
      | replaceData await =>
          obtain ⟨hBody, hState, hData, hAwaits, hPolled⟩ := h
          exact ⟨same.body.trans hBody, same.state.trans hState, same.data.trans hData, hAwaits,
            (same.polled _ _ hBody hAwaits).trans hPolled⟩
      | storePending body =>
          obtain ⟨hBody, hData, hSuspends⟩ := h
          refine ⟨same.body.trans hBody, same.data.trans hData, ?_⟩
          rw [same.state]
          exact same.suspends hBody hSuspends
      | toIdle =>
          obtain ⟨body, hBody, hData, hSuspends⟩ := h
          refine ⟨body, same.body.trans hBody, same.data.trans hData, ?_⟩
          rw [same.state]
          exact same.suspends hBody hSuspends
      | storeReady output =>
          exact ⟨same.body.trans h.1, same.data.trans h.2.1, h.2.2.trans same.output.symm⟩
      | wake at_ =>
          refine ⟨same.body.trans h.1, ?_⟩
          rw [same.data, same.output]
          exact h.2
      | taskComplete =>
          refine ⟨same.body.trans h.1, ?_⟩
          rw [same.data, same.output]
          exact h.2
      | panicked => exact h.elim

end Yaar.Runtime.Programs
