import Mathlib.Data.Finset.Max
import Yaar.Runtime.ProgramsJoin

/-! A program of tasks comes to what it means, in whatever order the threads run them. -/
namespace Yaar.Runtime.Programs

open Machine TaskState
open AtomicWaker (Polled)

variable {T E V : Type}

/-! ## A run -/

section Start

variable [DecidableEq T]

/-- Only the first task is there, and nobody knows of it. -/
def View.start (main : Future E V) : View E V where
  body := Function.update (fun _ => none) 0 (some ⟨main, []⟩)
  output := fun _ => main.meaning []
  polled := fun _ => .away
  owner := fun _ => 0
  order := fun _ => 0

def Stage.start : TaskId → Stage T E V := Function.update (fun _ => .absent) 0 .queued

theorem View.start_of_ne {main : Future E V} {id : TaskId} (hId : id ≠ 0) :
    (View.start main).body id = none := by
  simp [View.start, hId]

theorem View.body_start {main : Future E V} {id : TaskId} {body : Body E V}
    (h : (View.start main).body id = some body) : id = 0 ∧ body = ⟨main, []⟩ := by
  by_cases hId : id = 0
  · subst hId
    exact ⟨rfl, (Option.some.inj h).symm⟩
  · rw [View.start_of_ne hId] at h
    cases h

/-- The start fits its view: the first task is in the queue. -/
theorem fine_start (main : Future E V) :
    Fine (system T main).initial (View.start main) Stage.start where
  placed := by
    have placed : Placed (fun _ : T => none) [] 0 (fun _ => (.absent : Stage T E V)) :=
      ⟨by simp, .nil, by simp, by simp⟩
    exact placed.spawn
  linked := by
    constructor
    · intro id body hBody
      obtain ⟨rfl, rfl⟩ := View.body_start hBody
      rfl
    · intro id body i c hBody hHandle
      obtain ⟨rfl, rfl⟩ := View.body_start hBody
      cases hHandle
    · intro id body i j c hBody hHandle
      obtain ⟨rfl, rfl⟩ := View.body_start hBody
      cases hHandle
    · exact fun _ _ _ _ _ _ _ => rfl
    · intro c id hWaiting
      cases hWaiting
  finds id := by
    by_cases hId : id = 0
    · subst hId
      exact ⟨⟨main, []⟩, rfl, rfl, rfl, fun _ _ => .inl rfl⟩
    · rw [show (Stage.start : TaskId → Stage T E V) id = .absent from Function.update_of_ne hId ..]
      exact View.start_of_ne hId
  fits id hId := by
    obtain rfl : id = 0 := Nat.lt_one_iff.mp hId
    exact AtomicWaker.fits_new
  unjoined c hKept := by
    rcases hKept with rfl | ⟨id, body, i, hBody, hHandle⟩
    · intro hJoined
      cases hJoined
    · obtain ⟨rfl, rfl⟩ := View.body_start hBody
      cases hHandle
  main := Nat.one_pos

end Start

variable {s : State T E V} {v : View E V} {stage : TaskId → Stage T E V}

/-- Every event keeps to a view in which less is ahead, and the view still has the same
output for the first task. -/
theorem Fine.next [DecidableEq T] {s' : State T E V} {e : Event T} (fine : Fine s v stage)
    (hNext : next s e = some s') : Goes s s' v stage := by
  cases e with
  | take t id =>
      rw [Programs.next] at hNext
      split at hNext
      · next hTake =>
          obtain rfl := Option.some.inj hNext
          exact fine.take (Option.isNone_iff_eq_none.mp hTake.1) hTake.2
      · cases hNext
  | step t =>
      obtain ⟨⟨id, line⟩, hThread, hStep⟩ := Option.bind_eq_some_iff.mp hNext
      obtain ⟨s'', hStep', hGoes⟩ := fine.step hThread
      obtain rfl := Option.some.inj (hStep.symm.trans hStep')
      exact hGoes

/-- Each step of a run uses up some of what was ahead at its start. -/
theorem fine_of_run [DecidableEq T] {main : Future E V} {steps : List (State T E V × Event T)}
    (run : (system T main).Run steps s) : ∃ v stage, Fine s v stage ∧
      v.output 0 = main.meaning [] ∧ steps.length + rank s v stage ≤ 43 + main.cost [] := by
  induction run with
  | refl =>
      refine ⟨View.start main, Stage.start, fine_start main, rfl, ?_⟩
      have hRank : rank (system T main).initial (View.start main) Stage.start = 23 + main.cost [] + 20 := by
        rw [rank, show (system T main).initial.count = 1 from rfl, Finset.sum_range_one]
        rfl
      rw [hRank, List.length_nil]
      omega
  | step prior last ih =>
      obtain ⟨v, stage, fine, hOutput, hAhead⟩ := ih
      obtain ⟨v', stage', fine', hOutput', hLess⟩ := fine.next last
      refine ⟨v', stage', fine', hOutput'.trans hOutput, ?_⟩
      rw [List.length_append, List.length_singleton]
      omega

/-! ## The end of a run -/

/-- Tasks that wait, wait for tasks that come later in the order. So when no thread has work
there is no task that waits. -/
theorem Fine.finished (fine : Fine s v stage) (hThreads : ∀ t, s.threads t = none)
    (hRunnables : s.runnables = []) (id : TaskId) (hBelow : id < s.count) : stage id = .finished := by
  classical
  by_contra hNot
  let waiting := (Finset.range s.count).filter fun c => stage c ≠ .finished
  have hMem : id ∈ waiting := Finset.mem_filter.mpr ⟨Finset.mem_range.mpr hBelow, hNot⟩
  obtain ⟨last, hLast, hMax⟩ := waiting.exists_max_image v.order ⟨id, hMem⟩
  obtain ⟨hRange, hUnfinished⟩ := Finset.mem_filter.mp hLast
  have finds := fine.finds last
  cases hStage : stage last with
  | absent => exact absurd ((fine.placed.absent last).mp hStage) (not_le.mpr (Finset.mem_range.mp hRange))
  | queued =>
      have hQueued := (fine.placed.queued last).mpr hStage
      rw [hRunnables] at hQueued
      cases hQueued
  | running t line => cases (hThreads t).symm.trans ((fine.placed.threads t last line).mpr hStage)
  | finished => exact hUnfinished hStage
  | parked =>
      rw [hStage] at finds
      obtain ⟨body, hBody, -, -, c, hAwaits, -, hOpen⟩ := finds
      have held := fine.linked.held_of_awaits hBody hAwaits
      have hWaits : c ∈ waiting := by
        refine Finset.mem_filter.mpr ⟨Finset.mem_range.mpr held.below, fun hFinished => hOpen ?_⟩
        rw [Over, hFinished]
        rfl
      exact absurd held.ordered (not_lt.mpr (hMax c hWaits))

/-- A state in which the threads can do no more. -/
theorem Fine.idle [DecidableEq T] [Nonempty T] (fine : Fine s v stage)
    (hEnd : ∀ e, Programs.next s e = none) : (∀ t, s.threads t = none) ∧ s.runnables = [] := by
  have hThreads (t : T) : s.threads t = none := by
    cases hThread : s.threads t with
    | none => rfl
    | some running =>
        obtain ⟨s', hStep, -⟩ := fine.step (show s.threads t = some (running.1, running.2) from hThread)
        have hNext := hEnd (.step t)
        rw [Programs.next, hThread] at hNext
        cases hStep.symm.trans hNext
  refine ⟨hThreads, ?_⟩
  cases hRunnables : s.runnables with
  | nil => rfl
  | cons id rest =>
      obtain ⟨t⟩ := ‹Nonempty T›
      have hNext := hEnd (.take t id)
      simp [Programs.next, hThreads, hRunnables] at hNext

theorem Fine.output_of_data {id : TaskId} {output : Output E V} (fine : Fine s v stage)
    (hBelow : id < s.count) (hData : (s.tasks id).data = .ready output) : output = v.output id := by
  have finds := fine.finds id
  have hReady (h : (s.tasks id).data = .ready (v.output id)) : output = v.output id :=
    TaskData.ready.inj (hData.symm.trans h)
  cases hStage : stage id with
  | absent => exact absurd ((fine.placed.absent id).mp hStage) (not_le.mpr hBelow)
  | queued | parked =>
      rw [hStage] at finds
      obtain ⟨body, -, -, hPending, -⟩ := finds
      cases hData.symm.trans hPending
  | finished =>
      rw [hStage] at finds
      exact hReady (finds.2.resolve_right (by simp [hData]))
  | running t line =>
      rw [hStage] at finds
      cases line with
      | toRunning | takeFuture | toScheduled =>
          obtain ⟨body, -, -, hPending, -⟩ := finds
          cases hData.symm.trans hPending
      | poll body | wakeByRef body | pollJoin await at_ | replaceData await =>
          cases hData.symm.trans finds.2.2.1
      | storePending body => cases hData.symm.trans finds.2.1
      | toIdle =>
          obtain ⟨body, -, hPending, -⟩ := finds
          cases hData.symm.trans hPending
      | storeReady result => cases hData.symm.trans finds.2.1
      | wake at_ => exact hReady finds.2
      | taskComplete => exact hReady (finds.2.resolve_right (by simp [hData]))
      | panicked => exact finds.elim

/-- In whatever order the threads run the tasks, no thread panics, and the first task has no
other output than what its future means. -/
theorem output_is_meaning [DecidableEq T] (main : Future E V) {steps : List (State T E V × Event T)}
    {s : State T E V} (run : (system T main).Run steps s) :
    (∀ t id, s.threads t ≠ some (id, .panicked)) ∧
      ∀ output, (s.tasks 0).data = .ready output → output = main.meaning [] := by
  obtain ⟨v, stage, fine, hOutput, -⟩ := fine_of_run run
  refine ⟨fun t id hThread => ?_, fun output hData => ?_⟩
  · exact fine.findsLine ((fine.placed.threads t id _).mp hThread)
  · exact (fine.output_of_data fine.main hData).trans hOutput

/-- There is a bound on the operations of the threads, and they come to a stop only when all
tasks are done. -/
theorem run_ends [DecidableEq T] [Nonempty T] (main : Future E V)
    {steps : List (State T E V × Event T)} {s : State T E V} (run : (system T main).Run steps s) :
    steps.length ≤ 43 + main.cost [] ∧ ((∀ e, next s e = none) →
      (s.tasks 0).data = .ready (main.meaning []) ∧ s.runnables = [] ∧ (∀ t, s.threads t = none) ∧
      ∀ id, id < s.count → (∃ output, (s.tasks id).data = .ready output) ∨ (s.tasks id).data = .joined) := by
  obtain ⟨v, stage, fine, hOutput, hAhead⟩ := fine_of_run run
  have hDone (id : TaskId) (hFinished : stage id = .finished) :
      (s.tasks id).data = .ready (v.output id) ∨ (s.tasks id).data = .joined := by
    have finds := fine.finds id
    rw [hFinished] at finds
    exact finds.2
  refine ⟨by omega, fun hEnd => ?_⟩
  obtain ⟨hThreads, hRunnables⟩ := fine.idle hEnd
  have hFinished := fine.finished hThreads hRunnables
  refine ⟨?_, hRunnables, hThreads, fun id hId => ?_⟩
  · have hData := (hDone 0 (hFinished 0 fine.main)).resolve_right (fine.unjoined 0 (.inl rfl))
    rw [hData, hOutput]
  · exact (hDone id (hFinished id hId)).imp_left fun hData => ⟨_, hData⟩

/-- The future spawns one that yields, and awaits it. -/
def spawnAndJoin : Future Unit Nat :=
  .spawn (.yieldNow (.ready 3)) 0 (.join 0 fun value => .ready (value + 1))

/-- The first task is parked before the second one ends. -/
def parkAndWake : List (Event Bool) :=
  let steps (n : Nat) (t : Bool) : List (Event Bool) := List.replicate n (.step t)
  .take false 0 :: steps 3 false ++ .take true 1 :: steps 5 true ++ steps 9 false ++ steps 2 true ++
    .take true 1 :: steps 9 true ++ .take false 0 :: steps 12 false

/-- The future that spawns and awaits another, on two threads: 3 comes back and 4 is the
result. -/
theorem output_is_meaning_spawnAndJoin : ∃ steps s, (system Bool spawnAndJoin).Run steps s ∧
    (∀ t id, s.threads t ≠ some (id, .panicked)) ∧
      ∃ output, (s.tasks 0).data = .ready output ∧ output = .ok 4 := by
  obtain ⟨s, run, hEnd⟩ := (system Bool spawnAndJoin).exists_run_of_replay parkAndWake
    (fun s => match (s.tasks 0).data with | .ready _ => true | _ => false) true (by decide +kernel)
  obtain ⟨hPanicked, hOutput⟩ := output_is_meaning spawnAndJoin run
  refine ⟨_, s, run, hPanicked, ?_⟩
  cases hData : (s.tasks 0).data with
  | ready output => exact ⟨output, rfl, hOutput output hData⟩
  | pending body | polling | joined =>
      rw [hData] at hEnd
      cases hEnd

/-- The same run at its end, where no thread has anything left to do. -/
theorem run_ends_spawnAndJoin : ∃ steps s, (system Bool spawnAndJoin).Run steps s ∧
    (∀ e, next s e = none) ∧ (s.tasks 0).data = .ready (.ok 4) := by
  obtain ⟨s, run, hEnd⟩ := (system Bool spawnAndJoin).exists_run_of_replay parkAndWake
    (fun s => (s.runnables, (s.threads false).isNone, (s.threads true).isNone)) ([], true, true)
    (by decide +kernel)
  obtain ⟨hRunnables, hFalse, hTrue⟩ : s.runnables = [] ∧ (s.threads false).isNone = true ∧
      (s.threads true).isNone = true := by simpa using hEnd
  have hNone (e : Event Bool) : next s e = none := by
    cases e with
    | take t id => simp [next, hRunnables]
    | step t => cases t <;> simp_all [next]
  exact ⟨_, s, run, hNone, ((run_ends spawnAndJoin run).2 hNone).1⟩

end Yaar.Runtime.Programs
