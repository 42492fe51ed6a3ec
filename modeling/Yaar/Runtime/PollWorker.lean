import Yaar.Runtime.Random
import Yaar.Runtime.RunQueue

/-! `poll_worker` of `runtime/internal/worker.rs`. What it calls, and the other
threads, answer each call as they like. -/
namespace Yaar.Runtime.PollWorker

abbrev MAX_ATTEMPTS : Nat := 32
abbrev MAX_RETRIES : Nat := 4

/-- The workers of an executor, with the order in which they are visited. -/
structure Workers (target : Target) where
  count : NonZero Nat
  rngIterSource : RandomIterSource
  source : RandomIterSource.from count = .ok rngIterSource
  /-- No slice has more bytes than half a `usize` counts. -/
  fits : count.get ≤ target.max / 2

/-- A call with its answer. In the search it has the number of the attempt. -/
inductive Event (R : Type) where
  | pollIo (answer : Option R)
  | consume (attempt : Option Nat) (answer : Steal R)
  | pollTimers (workerIndex : Nat) (answer : Option R)
  | pop (beFair : Bool) (answer : Option R)
  | searchBegin (answer : Bool)
  | steal (attempt workerIndex : Nat) (answer : Steal R)
  deriving DecidableEq

/-- What answers the calls, given a state of all else. -/
structure Outside (S R : Type) where
  pollIo : S → Option R × S
  consume : S → Steal R × S
  pollTimers : Nat → S → Option R × S
  pop : Bool → S → Option R × S
  searchBegin : S → Bool × S
  steal : Nat → S → Steal R × S

/-- The flag of the worker's context, the generator and all else. -/
structure Turn (target : Target) (S : Type) where
  searching : Bool
  rng : RandomGenerator target
  outside : S

/-- What is returned, and the calls so far. -/
structure Polled (target : Target) (S R : Type) where
  runnable : Option R
  turn : Turn target S
  events : List (Event R)

variable {target : Target} {S R : Type}

namespace Polled

/-- Calls before those of the result. -/
def after (events : List (Event R)) (polled : Polled target S R) : Polled target S R :=
  { polled with events := events ++ polled.events }

@[simp] theorem after_runnable (events : List (Event R)) (polled : Polled target S R) :
    (polled.after events).runnable = polled.runnable := rfl

@[simp] theorem after_turn (events : List (Event R)) (polled : Polled target S R) :
    (polled.after events).turn = polled.turn := rfl

@[simp] theorem after_events (events : List (Event R)) (polled : Polled target S R) :
    (polled.after events).events = events ++ polled.events := rfl

end Polled

/-- A part of the function. -/
abbrev Part (target : Target) (S R : Type) := Turn target S → Except Panic (Polled target S R)

/-- `if let Some(runnable) = first { return Some(runnable); }` and the rest. -/
def Part.orElse (first rest : Part target S R) : Part target S R := fun turn => do
  let polled ← first turn
  if polled.runnable.isSome then return polled
  let others ← rest polled.turn
  return others.after polled.events

def Part.skip : Part target S R := fun turn => .ok ⟨none, turn, []⟩

namespace Part

theorem orElse_some {first rest : Part target S R} {turn : Turn target S}
    {polled : Polled target S R} (hFirst : first turn = .ok polled)
    (hSome : polled.runnable.isSome) : first.orElse rest turn = .ok polled := by
  simp only [orElse, hFirst, bind, Except.bind, hSome, if_true]
  rfl

/-- Otherwise the rest goes on from where it has left the turn. -/
theorem orElse_none {first rest : Part target S R} {turn : Turn target S}
    {polled others : Polled target S R} (hFirst : first turn = .ok polled)
    (hNone : polled.runnable = none) (hRest : rest polled.turn = .ok others) :
    first.orElse rest turn = .ok (others.after polled.events) := by
  simp only [orElse, hFirst, bind, Except.bind, hNone, hRest]
  rfl

/-- The first part returns, or it gives nothing and the rest returns. -/
theorem orElse_ok {first rest : Part target S R} {turn : Turn target S}
    {polled : Polled target S R} (h : first.orElse rest turn = .ok polled) :
    first turn = .ok polled ∧ polled.runnable.isSome ∨
      ∃ before others, first turn = .ok before ∧ before.runnable = none ∧
        rest before.turn = .ok others ∧ polled = others.after before.events := by
  cases hFirst : first turn with
  | error panic =>
      simp only [orElse, hFirst, bind, Except.bind] at h
      cases h
  | ok before =>
      by_cases hSome : before.runnable.isSome
      · rw [orElse_some hFirst hSome] at h
        cases h
        exact .inl ⟨rfl, hSome⟩
      · have hNone : before.runnable = none := by simpa using hSome
        cases hRest : rest before.turn with
        | error panic =>
            simp only [orElse, hFirst, bind, Except.bind, hNone, hRest] at h
            cases h
        | ok others =>
            rw [orElse_none hFirst hNone hRest] at h
            cases h
            exact .inr ⟨before, others, rfl, hNone, hRest, rfl⟩

end Part

namespace Outside

variable (outside : Outside S R)

def ioPart : Part target S R := fun turn =>
  let (answer, s) := outside.pollIo turn.outside
  .ok ⟨answer, { turn with outside := s }, [.pollIo answer]⟩

/-- `consume(..).success()` -/
def consumePart : Part target S R := fun turn =>
  let (answer, s) := outside.consume turn.outside
  let runnable := match answer with
    | .success runnable => some runnable
    | _ => none
  .ok ⟨runnable, { turn with outside := s }, [.consume none answer]⟩

def timersPart (workerIndex : Nat) : Part target S R := fun turn =>
  let (answer, s) := outside.pollTimers workerIndex turn.outside
  .ok ⟨answer, { turn with outside := s }, [.pollTimers workerIndex answer]⟩

def popPart (beFair : Bool) : Part target S R := fun turn =>
  let (answer, s) := outside.pop beFair turn.outside
  .ok ⟨answer, { turn with outside := s }, [.pop beFair answer]⟩

/-- The body of the loop over the victims, with `was_contended` after it. -/
def stealFrom (retries attempt stealIndex : Nat) (wasContended : Bool) (turn : Turn target S) :
    Polled target S R × Bool :=
  let (answer, s) := outside.steal stealIndex turn.outside
  let turn := { turn with outside := s }
  let events := [.steal attempt stealIndex answer]
  match answer with
  | .success runnable => (⟨some runnable, turn, events⟩, wasContended)
  | _ =>
      let wasContended := wasContended || answer.isRetry
      if !wasContended && (retries == 1 || attempt == MAX_ATTEMPTS - 1) then
        let (answer, s) := outside.pollTimers stealIndex turn.outside
        (⟨answer, { turn with outside := s }, events ++ [.pollTimers stealIndex answer]⟩, wasContended)
      else (⟨none, turn, events⟩, wasContended)

/-- The loop over the victims. -/
def visit (workerIndex retries attempt : Nat) :
    List Nat → Bool → Turn target S → Polled target S R × Bool
  | [], wasContended, turn => (⟨none, turn, []⟩, wasContended)
  | stealIndex :: victims, wasContended, turn =>
      if stealIndex = workerIndex then visit workerIndex retries attempt victims wasContended turn
      else
        let (polled, wasContended) := outside.stealFrom retries attempt stealIndex wasContended turn
        if polled.runnable.isSome then (polled, wasContended)
        else
          let (others, wasContended) :=
            visit workerIndex retries attempt victims wasContended polled.turn
          (others.after polled.events, wasContended)

/-- The loop over the attempts, with so many left. -/
def search (workers : Workers target) (workerIndex : Nat) : Nat → Nat → Part target S R
  | 0, _ => Part.skip
  | left + 1, retries => fun turn => do
      let attempt := MAX_ATTEMPTS - (left + 1)
      let (answer, s) := outside.consume turn.outside
      let turn := { turn with outside := s }
      match answer with
      | .success runnable => return ⟨some runnable, turn, [.consume (some attempt) answer]⟩
      | _ =>
          let (victims, rng) ← turn.rng.genIter workers.rngIterSource
          let (polled, wasContended) := outside.visit workerIndex retries attempt victims
            answer.isRetry { turn with rng }
          let polled := polled.after [.consume (some attempt) answer]
          if polled.runnable.isSome then return polled
          if wasContended || retries > 0 then
            let retries ← target.sub retries (!wasContended).toNat
            let others ← search workers workerIndex left retries polled.turn
            return others.after polled.events
          return polled

/-- From `search_begin` on. -/
def searchPart (workers : Workers target) (workerIndex : Nat) : Part target S R := fun turn => do
  let (turn, events) :=
    if turn.searching then (turn, []) else
      let (searching, s) := outside.searchBegin turn.outside
      ({ turn with searching, outside := s }, [.searchBegin searching])
  if turn.searching then
    let polled ←
      outside.ioPart.orElse (outside.search workers workerIndex MAX_ATTEMPTS MAX_RETRIES) turn
    return polled.after events
  return ⟨none, turn, events⟩

/-- `poll_worker` -/
def pollWorker (workers : Workers target) (workerIndex : Nat) (tick : BitVec target.width) :
    Part target S R :=
  let beFair : Bool := tick % 61 == 0
  let fairPart := if beFair then outside.ioPart.orElse outside.consumePart else Part.skip
  fairPart.orElse <| (outside.timersPart workerIndex).orElse <|
    (outside.popPart beFair).orElse (outside.searchPart workers workerIndex)

end Outside
end Yaar.Runtime.PollWorker
