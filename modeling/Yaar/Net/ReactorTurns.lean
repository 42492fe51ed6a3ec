import Yaar.Net.ReactorFrames
import Yaar.Net.ReactorSteps

/-! The events of one task, in its view. -/
namespace Yaar.Net.Reactor

open Machine PollIo AtomicWaker Yaar.Runtime Yaar.Runtime.TaskState

variable {T V D E : Type*} {x : SocketId × WakerKind} {t : T} {v v' : View (V ⊕ SocketId) T}
  {e : Event T V E} {goesOn : Bool}

/-- An event of a task. `goesOn` is whether it has another operation to do. -/
inductive Turns [DecidableEq T] (x : SocketId × WakerKind) (t : T) (goesOn : Bool)
    (v : View (V ⊕ SocketId) T) : Event T V E → View (V ⊕ SocketId) T → Prop where
  | run (caller : v.caller = .idle) (phase : v.phase = .away)
      (scheduled : transitionToRunning v.state = some true) :
      Turns x t goesOn v (.run t) { v with state := TASK_RUNNING, phase := .inside }
  | call (caller : v.caller = .idle) (phase : v.phase = .inside) (more : goesOn = true) :
      Turns x t goesOn v (.call t) { v with caller := .call x.1 x.2 (some t) .load }
  | finish (caller : v.caller = .idle) (phase : v.phase = .inside) :
      Turns x t goesOn v (.finish t) { v with phase := .done }
  | step {line : Line T} {c : Cell (V ⊕ SocketId) T} {b : UInt8} {f : Bool} {caller : Caller T}
      (call : v.caller = .call x.1 x.2 (some t) line) (finds : Finds v.cell line)
      (agrees : line.Agrees v.flag) (knows : line.Knows v.budget)
      (goes : Goes x (some t) v.cell v.budget v.flag line c b f caller)
      (fine : ∀ failure, caller ≠ .panicked failure) :
      Turns x t goesOn v (.step t) (v.stepped caller c b f)
  | leave {state : TaskState} {answer : Bool} (phase : v.phase = .pending)
      (idle : transitionToIdle v.state = some (state, answer)) :
      Turns x t goesOn v (.leave t)
        { v with state := if answer then state else TASK_SCHEDULED, phase := .away }
  | operate (n : Nat) (call : v.caller = .call x.1 x.2 (some t) .inIo) :
      Turns x t goesOn v (.operate t n) { v with caller := .returned x.1 x.2 (some t) .other }
  | wouldBlock (call : v.caller = .call x.1 x.2 (some t) .inIo) :
      Turns x t goesOn v (.wouldBlock t) { v with caller := .returned x.1 x.2 (some t) .wouldBlock }
  | interrupt (call : v.caller = .call x.1 x.2 (some t) .inIo) :
      Turns x t goesOn v (.interrupt t) { v with caller := .returned x.1 x.2 (some t) .interrupted }

/-- The events that no thread has to take on its own. The others bring a task closer to where
it rests. -/
def Event.cost : Event T V E → Nat
  | .finish _ => 1
  | .operate _ _ => 33
  | .interrupt _ => 2
  | .spurious _ _ => 82
  | .outside _ => 1
  | _ => 0

variable [DecidableEq T]

/-- An event of a task leads from a stage to a stage. -/
theorem Turns.fits (turns : Turns x t goesOn v e v') (fits : Fits x t v) : Fits x t v' := by
  cases turns with
  | run caller phase scheduled => exact fits.run phase scheduled
  | call caller phase more => exact fits.call phase caller
  | finish caller phase => exact fits.finish phase caller
  | step call finds agrees knows goes fine => exact fits.step call finds agrees goes fine
  | leave phase idle =>
      obtain ⟨state', answer', hIdle, fits'⟩ := fits.leave phase
      obtain ⟨rfl, rfl⟩ := Prod.mk.inj (Option.some.inj (hIdle.symm.trans idle))
      exact fits'
  | operate n call | wouldBlock call | interrupt call => exact fits.doIo call _

/-- Where a task is in a call, it goes on or has just begun. -/
theorem Turns.busy (turns : Turns x t goesOn v e v') (hBusy : v'.caller ≠ .idle) :
    (v.caller ≠ .idle ∨ goesOn = true) ∧ e ≠ .finish t ∧ ∀ n, e ≠ .operate t n := by
  cases turns with
  | run caller | finish caller => exact absurd caller hBusy
  | call caller phase more => exact ⟨.inr more, by simp⟩
  | leave => exact ⟨.inl hBusy, by simp⟩
  | step call | wouldBlock call | interrupt call => exact ⟨.inl (by simp [call]), by simp⟩
  | operate n call => exact absurd rfl hBusy

theorem Turns.phase (turns : Turns x t goesOn v e v') (fits : Fits x t v) : v.phase ≠ .done := by
  have hCall {line : Line T} (call : v.caller = .call x.1 x.2 (some t) line) : v.phase ≠ .done := by
    simp [(fits.of_call call).1]
  cases turns with
  | run caller phase | call caller phase | finish caller phase | leave phase => simp [phase]
  | step call | operate n call | wouldBlock call | interrupt call => exact hCall call

/-- None of these events begins a wake or goes on with one. -/
theorem Turns.wakes (turns : Turns x t goesOn v e v') : v'.wakes = v.wakes := by
  cases turns with
  | @step line c b f caller => cases caller <;> rfl
  | _ => rfl

/-- A wake is heard until an operation would block. -/
theorem Turns.hears (turns : Turns x t goesOn v e v') (hears : v.Hears) (hReady : e ≠ .wouldBlock t) :
    v'.Hears := by
  obtain ⟨u, hWake⟩ | hHears := hears
  · exact .inl ⟨u, by rw [turns.wakes, hWake]⟩
  · refine .inr ?_
    cases turns with
    | run | finish | leave => exact hHears
    | call caller => exact hHears.elsewhere (by simp [poller, Line.poller])
    | @step line c b f caller call finds agrees knows goes fine =>
        rw [call] at hHears
        have hHears' := goes.hears finds hHears
        cases caller <;> exact hHears'
    | operate n call | interrupt call =>
        exact hHears.elsewhere (by simp [poller, Line.poller, Caller.returned])
    | wouldBlock call => exact absurd rfl hReady

/-- Each event makes the task lighter, up to what the event itself costs. -/
theorem Turns.weight (turns : Turns x t goesOn v e v') (fits : Fits x t v) :
    v'.weight + 1 ≤ v.weight + e.cost := by
  cases turns with
  | run caller phase scheduled => exact run_weight caller phase scheduled
  | call caller phase => exact load_weight caller phase (fits.between_of_inside phase caller).1
  | finish caller phase => exact Nat.succ_le_succ done_weight
  | step call finds agrees knows goes fine =>
      exact goes.weight call (fits.of_call call).1 finds knows fine
  | leave phase idle => exact leave_weight phase idle
  | operate n call =>
      have hWeight := doIo_weight call (fits.of_call call).1 .other
      exact hWeight
  | wouldBlock call => exact doIo_weight call (fits.of_call call).1 .wouldBlock
  | interrupt call => exact doIo_weight call (fits.of_call call).1 .interrupted

end Yaar.Net.Reactor
