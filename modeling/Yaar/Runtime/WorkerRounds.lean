import Yaar.Data.Laps
import Yaar.Runtime.TaskState
import Yaar.Runtime.WorkerTurns

/-! A worker whose tasks wake themselves while they run, and have the worker to
themselves. -/
namespace Yaar.Runtime.WorkerRounds

open PollWorker TaskState

/-- The producer of the run queue, the states of the tasks and the number of runs so
far. -/
structure Local where
  producer : Producer Nat
  states : Nat → TaskState
  runs : Nat

/-- Nothing is injected, stolen or due, and the network is silent. -/
def quiet : Outside Local Nat where
  pollIo := fun s => (none, s)
  consume := fun s => (.empty, s)
  pollTimers := fun _ s => (none, s)
  pop := fun beFair s =>
    let (runnable, producer) := s.producer.pop beFair
    (runnable, { s with producer })
  searchBegin := fun s => (false, s)
  steal := fun _ s => (.empty, s)

/-- `wake_by_ref` within the runtime. -/
def wake (task : Nat) (s : Local) : Local :=
  let (state, scheduled) := transitionToScheduled (s.states task)
  { s with
    states := Function.update s.states task state
    producer := if scheduled then s.producer.push task false else s.producer }

/-- `Task::run` of a task that wakes itself so often in a poll, which stays pending. -/
def runTask (selfWakes : Nat) (task : Nat) (s : Local) : Except Panic Local := do
  let isRunning ← match transitionToRunning (s.states task) with
    | some isRunning => .ok isRunning
    | none => .error .assertion
  if !isRunning then throw .assertion
  let s := { s with states := Function.update s.states task TASK_RUNNING }
  let s := (wake task)^[selfWakes] s
  let (state, isIdle) ← match transitionToIdle (s.states task) with
    | some answer => .ok answer
    | none => .error .assertion
  let s := { s with states := Function.update s.states task state }
  if isIdle then return s
  -- `transition_to_scheduled_from_notified`
  if s.states task ≠ TASK_NOTIFIED then throw .assertion
  let s := { s with states := Function.update s.states task TASK_SCHEDULED }
  return { s with producer := s.producer.push task true }

/-- What the worker runs: each run wakes its task so often. -/
def runs {target : Target} (selfWakes : Nat → Nat) (task : Nat) (turn : Turn target Local) :
    Except Panic (Turn target Local) := do
  let s ← runTask (selfWakes turn.outside.runs) task turn.outside
  return { turn with outside := { s with runs := s.runs + 1 } }

/-- Each task in the queue is there once and is scheduled. -/
structure Local.Sound (s : Local) : Prop where
  nodup : s.producer.worker.Nodup
  scheduled : ∀ task ∈ s.producer.worker, s.states task = TASK_SCHEDULED

/-! ## One run -/

/-- A task that wakes itself in its poll is notified, not scheduled. -/
theorem wake_running {task : Nat} {s : Local} (h : s.states task = TASK_RUNNING) :
    wake task s = { s with states := Function.update s.states task TASK_NOTIFIED } := by
  simp [wake, transitionToScheduled, h]

theorem wake_notified {task : Nat} {s : Local} (h : s.states task = TASK_NOTIFIED) :
    wake task s = s := by
  have hSame : Function.update s.states task TASK_NOTIFIED = s.states := by
    rw [← h, Function.update_eq_self]
  simp [wake, transitionToScheduled, h, hSame]

/-- However often a running task wakes itself, it is notified. -/
theorem wake_iterate {task : Nat} {s : Local} (h : s.states task = TASK_RUNNING) (extra : Nat) :
    (wake task)^[extra + 1] s = { s with states := Function.update s.states task TASK_NOTIFIED } := by
  induction extra with
  | zero => exact wake_running h
  | succ extra ih =>
      rw [Function.iterate_succ_apply', ih]
      exact wake_notified (by simp)

/-- A task that wakes itself is put back at the end, with the flag for fairness. -/
theorem runTask_eq {selfWakes task : Nat} {s : Local} (hWakes : 0 < selfWakes)
    (h : s.states task = TASK_SCHEDULED) :
    runTask selfWakes task s = .ok { s with producer := s.producer.push task true } := by
  obtain ⟨extra, rfl⟩ : ∃ extra, selfWakes = extra + 1 := ⟨selfWakes - 1, by omega⟩
  have hRunning : ({ s with states := Function.update s.states task TASK_RUNNING } : Local).states
      task = TASK_RUNNING := by simp
  have hWake := wake_iterate hRunning extra
  have hSame : Function.update s.states task TASK_SCHEDULED = s.states := by
    rw [← h, Function.update_eq_self]
  simp [runTask, transitionToRunning, transitionToIdle, h, hWake, hSame, bind, Except.bind, pure,
    Except.pure]

/-! ## The order of the runs -/

/-- Whom the worker runs first and next, as long as all of them come back. -/
def order (beFair : Bool) (producer : Producer Nat) : List Nat :=
  if beFair || producer.beFair then producer.worker
  else producer.worker.getLast?.toList ++ producer.worker.dropLast

/-- Whether the queue is fair or not, the same tasks are run. -/
theorem order_perm (beFair : Bool) (producer : Producer Nat) :
    (order beFair producer).Perm producer.worker := by
  unfold order
  split
  · exact List.Perm.refl _
  · rcases List.eq_nil_or_concat' producer.worker with hNil | ⟨front, last, hConcat⟩
    · simp [hNil]
    · rw [hConcat]
      simpa using (List.perm_append_singleton last front).symm

/-- The first in the order is run, and is the last when it comes back. From then on
the queue is taken from its front. -/
theorem pop_push {beFair : Bool} {producer : Producer Nat} {task : Nat} {rest : List Nat}
    (h : order beFair producer = task :: rest) :
    (producer.pop beFair).1 = some task ∧
      (producer.pop beFair).2.push task true = ⟨true, rest ++ [task]⟩ := by
  unfold order at h
  by_cases hFair : (beFair || producer.beFair) = true
  · rw [if_pos hFair] at h
    cases beFair with
    | true => simp [Producer.pop, Producer.push, h]
    | false => 
        have hFlag : producer.beFair = true := by simpa using hFair
        simp [Producer.pop, Producer.push, h, hFlag]
  · rw [if_neg hFair] at h
    have hFlags : beFair = false ∧ producer.beFair = false := by simpa using hFair
    rcases List.eq_nil_or_concat' producer.worker with hNil | ⟨front, last, hConcat⟩
    · simp [hNil] at h
    · rw [hConcat] at h
      obtain ⟨rfl, rfl⟩ : last = task ∧ front = rest := by simpa using h
      simp [Producer.pop, Producer.push, hFlags, hConcat]

variable {target : Target} (workers : Workers target) (workerIndex : Nat)

/-- The worker finds what it pops. -/
theorem pollWorker_pops {tick : BitVec target.width} (turn : Turn target Local) {task : Nat}
    (h : (turn.outside.producer.pop (tick % 61 == 0)).1 = some task) :
    ∃ events, quiet.pollWorker workers workerIndex tick turn = .ok ⟨some task,
      { turn with outside := { turn.outside with
        producer := (turn.outside.producer.pop (tick % 61 == 0)).2 } }, events⟩ := by
  have hIo : quiet.ioPart turn = .ok ⟨none, turn, [.pollIo none]⟩ := rfl
  have hConsume : quiet.consumePart turn = .ok ⟨none, turn, [.consume none .empty]⟩ := rfl
  have hSkip : (Part.skip : Part target Local Nat) turn = .ok ⟨none, turn, []⟩ := rfl
  have hTimers : quiet.timersPart workerIndex turn =
      .ok ⟨none, turn, [.pollTimers workerIndex none]⟩ := rfl
  have hPop : quiet.popPart (tick % 61 == 0) turn = .ok ⟨some task,
      { turn with outside := { turn.outside with
        producer := (turn.outside.producer.pop (tick % 61 == 0)).2 } },
      [.pop (tick % 61 == 0) (some task)]⟩ := by
    rw [← h]
    rfl
  have hLast : (quiet.popPart (tick % 61 == 0)).orElse (quiet.searchPart workers workerIndex) turn =
      .ok _ := Part.orElse_some hPop rfl
  have hRest := Part.orElse_none hTimers rfl hLast
  cases hFair : (tick % 61 == 0) with
  | true =>
      rw [Outside.pollWorker]
      simp only [hFair, if_true] at hRest ⊢
      exact ⟨_, Part.orElse_none (Part.orElse_none hIo rfl hConsume) rfl hRest⟩
  | false =>
      rw [Outside.pollWorker]
      simp only [hFair, Bool.false_eq_true, if_false] at hRest ⊢
      exact ⟨_, Part.orElse_none hSkip rfl hRest⟩

theorem Local.Sound.push {s : Local} (sound : s.Sound) {worker : List Nat} {runs : Nat}
    (h : worker.Perm s.producer.worker) : Local.Sound ⟨⟨true, worker⟩, s.states, runs⟩ where
  nodup := h.nodup_iff.mpr sound.nodup
  scheduled := fun task member => sound.scheduled task (h.mem_iff.mp member)

/-- The runs take turns in the order of the first of them. -/
theorem turns_order {selfWakes : Nat → Nat} (hWakes : ∀ run, 0 < selfWakes run) (count : Nat)
    (tick : BitVec target.width) (turn : Turn target Local) (sound : turn.outside.Sound)
    (hTasks : turn.outside.producer.worker ≠ []) :
    ∃ calls, quiet.turns workers workerIndex (runs selfWakes) count tick turn = .ok calls ∧
      calls.map Call.runnable =
        (Laps.turns count (order (tick % 61 == 0) turn.outside.producer)).map some := by
  induction count generalizing tick turn with
  | zero => exact ⟨[], rfl, rfl⟩
  | succ count ih =>
      obtain ⟨searching, rng, s⟩ := turn
      have hPerm := order_perm (tick % 61 == 0) s.producer
      cases hOrder : order (tick % 61 == 0) s.producer with
      | nil =>
          rw [hOrder] at hPerm
          exact absurd hPerm.nil_eq.symm hTasks
      | cons task rest =>
          rw [hOrder] at hPerm
          obtain ⟨hPop, hPush⟩ := pop_push hOrder
          obtain ⟨events, hCall⟩ := pollWorker_pops workers workerIndex ⟨searching, rng, s⟩ hPop
          let popped : Local := { s with producer := (s.producer.pop (tick % 61 == 0)).2 }
          have hScheduled : popped.states task = TASK_SCHEDULED :=
            sound.scheduled task (hPerm.mem_iff.mp List.mem_cons_self)
          have hRun : runTask (selfWakes s.runs) task popped =
              .ok { s with producer := ⟨true, rest ++ [task]⟩ } := by
            rw [runTask_eq (hWakes s.runs) hScheduled, hPush]
          have hBack : (rest ++ [task]).Perm s.producer.worker :=
            (List.perm_append_singleton task rest).trans hPerm
          obtain ⟨calls, hCalls, hOrders⟩ := ih (tick + 1)
            ⟨false, rng, ⟨⟨true, rest ++ [task]⟩, s.states, s.runs + 1⟩⟩ (sound.push hBack) (by simp)
          refine ⟨⟨tick, some task, events⟩ :: calls, ?_, ?_⟩
          · simp only [Outside.turns, hCall, bind, Except.bind, runs, pure, Except.pure]
            rw [show runTask _ task _ = _ from hRun]
            simp only [hCalls]
          · rw [List.map_cons, hOrders, Laps.turns, List.map_cons]
            simp [order]

/-- When all tasks of a worker wake themselves, as many runs as there are tasks, from
any run on, are of all of them. -/
theorem yielding_rounds {selfWakes : Nat → Nat} (hWakes : ∀ run, 0 < selfWakes run)
    (tick : BitVec target.width) (turn : Turn target Local) (sound : turn.outside.Sound)
    (hTasks : turn.outside.producer.worker ≠ []) (count : Nat) :
    ∃ calls, quiet.turns workers workerIndex (runs selfWakes) count tick turn = .ok calls ∧
      calls.length = count ∧
      ∀ i, i + turn.outside.producer.worker.length ≤ count → ∃ tasks : List Nat,
        ((calls.drop i).take turn.outside.producer.worker.length).map Call.runnable =
          tasks.map some ∧ tasks.Nodup ∧ tasks.Perm turn.outside.producer.worker := by
  obtain ⟨calls, hCalls, hOrder⟩ :=
    turns_order workers workerIndex hWakes count tick turn sound hTasks
  have hPerm := order_perm (tick % 61 == 0) turn.outside.producer
  have hNonempty : order (tick % 61 == 0) turn.outside.producer ≠ [] := by
    intro hNil
    rw [hNil] at hPerm
    exact hTasks hPerm.nil_eq.symm
  refine ⟨calls, hCalls, ?_, fun i hLe => ?_⟩
  · have hLength := congrArg List.length hOrder
    rw [List.length_map, List.length_map] at hLength
    rw [hLength, Laps.turns_length hNonempty]
  · rw [← hPerm.length_eq] at hLe ⊢
    have hWindow := (Laps.window_perm hLe).trans hPerm
    refine ⟨((Laps.turns count (order (tick % 61 == 0) turn.outside.producer)).drop i).take
      (order (tick % 61 == 0) turn.outside.producer).length, ?_, ?_, hWindow⟩
    · rw [List.map_take, List.map_drop, hOrder, List.map_take, List.map_drop]
    · exact hWindow.nodup_iff.mpr sound.nodup

/-- Three tasks, pushed without fairness. -/
def threeTasks : Turn Target.bits64 Local :=
  ⟨false, searcher.rng, ⟨⟨false, [5, 3, 8]⟩, fun _ => TASK_SCHEDULED, 0⟩⟩

/-- Seven runs of them, from the tick before a fair one on. -/
theorem yielding_rounds_three : ∃ calls,
    quiet.turns twoWorkers 0 (runs fun run => run + 1) 7 60 threeTasks = .ok calls ∧
      calls.length = 7 ∧ ∀ i, i + 3 ≤ 7 → ∃ tasks : List Nat,
        ((calls.drop i).take 3).map Call.runnable = tasks.map some ∧ tasks.Nodup ∧
        tasks.Perm [5, 3, 8] :=
  yielding_rounds twoWorkers 0 (fun run => Nat.succ_pos run) 60 threeTasks
    ⟨by decide, fun _ _ => rfl⟩ (by decide) 7

end Yaar.Runtime.WorkerRounds
