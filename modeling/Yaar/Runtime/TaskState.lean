import Mathlib.Data.UInt

/-! The state word of `runtime/internal/task.rs`, which tasks and parkers share. -/
namespace Yaar.Runtime

abbrev TaskState := UInt8

namespace TaskState

abbrev TASK_IDLE : TaskState := 0
abbrev TASK_SCHEDULED : TaskState := 1
abbrev TASK_RUNNING : TaskState := 2
abbrev TASK_NOTIFIED : TaskState := 3

@[simp] theorem states_distinct :
    TASK_IDLE ≠ TASK_SCHEDULED ∧ TASK_IDLE ≠ TASK_RUNNING ∧ TASK_IDLE ≠ TASK_NOTIFIED ∧
    TASK_SCHEDULED ≠ TASK_IDLE ∧ TASK_SCHEDULED ≠ TASK_RUNNING ∧ TASK_SCHEDULED ≠ TASK_NOTIFIED ∧
    TASK_RUNNING ≠ TASK_IDLE ∧ TASK_RUNNING ≠ TASK_SCHEDULED ∧ TASK_RUNNING ≠ TASK_NOTIFIED ∧
    TASK_NOTIFIED ≠ TASK_IDLE ∧ TASK_NOTIFIED ≠ TASK_SCHEDULED ∧
    TASK_NOTIFIED ≠ TASK_RUNNING := by decide

/-- The update of `transition_to_scheduled` and its answer. -/
def transitionToScheduled (state : TaskState) : TaskState × Bool :=
  if state = TASK_IDLE then (TASK_SCHEDULED, true)
  else if state = TASK_RUNNING then (TASK_NOTIFIED, false)
  else (state, false)

/-- What `transition_to_running` makes of the state it loads: go on to the store
of `TASK_RUNNING`, or return `false`. The unreachable branch has no result. -/
def transitionToRunning (state : TaskState) : Option Bool :=
  if state = TASK_SCHEDULED then some true
  else if state = TASK_IDLE then some false
  else none

/-- The exchange of `transition_to_idle` and its answer. The unreachable branch
has no result. -/
def transitionToIdle (state : TaskState) : Option (TaskState × Bool) :=
  if state = TASK_RUNNING then some (TASK_IDLE, true)
  else if state = TASK_NOTIFIED then some (state, false)
  else none

/-- The answer is whether the state was idle. -/
theorem transitionToScheduled_snd (state : TaskState) :
    (transitionToScheduled state).2 = true ↔ state = TASK_IDLE := by
  unfold transitionToScheduled
  split
  · simpa using ‹state = TASK_IDLE›
  · split <;> simpa using ‹¬state = TASK_IDLE›

end TaskState
end Yaar.Runtime
