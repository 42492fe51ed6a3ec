import Yaar.Machine.Execution
import Yaar.Time.QueueInvariant

/-! `time/sleeps.rs` over one timer queue. Every call of the queue or of an
entry's waker is one step, so that the parts of a `Sleep::poll` interleave with
other sleeps and with the threads that expire the queue. -/
namespace Yaar.Time

open Machine

namespace Queue

variable {W : Type*}

/-- `schedule` finds the delay already expired. -/
def Late (q : Queue W) (delay : Except Instant Duration) (now : Instant) : Prop :=
  delay = .ok 0 ∨ { q with current := q.since now }.deadline delay ≤ q.since now

instance (q : Queue W) (delay : Except Instant Duration) (now : Instant) :
    Decidable (q.Late delay now) :=
  inferInstanceAs (Decidable (_ ∨ _))

/-- A call of `schedule` that returns a delay has found the deadline still to come. -/
theorem not_late_of_schedule {q q' : Queue W} {delay : Except Instant Duration} {now : Instant}
    {x : Delay} (h : q.schedule delay now = (q', some x)) : ¬q.Late delay now := by
  unfold schedule at h
  split at h
  · simp at h
  · next hZero =>
      dsimp only at h
      split at h
      · simp at h
      · next hLate => exact fun hOr => hOr.elim hZero hLate

/-- Access to the waker of an entry, which no lock of the queue protects. -/
def setWaker (q : Queue W) (e : Entry) (waker : AtomicWaker W) : Queue W :=
  { q with raw := Function.update q.raw e { q.raw e with waker := waker } }

end Queue

namespace Sleep

/-- A `Sleep`, with the points inside its `poll` where other threads can run:
`scheduled` before the entry's waker is polled, `ready` before `complete`. -/
inductive State where
  | absent
  | start (delay : Except Instant Duration)
  | scheduled (delay : Delay)
  | polling (delay : Delay)
  | ready (delay : Delay)
  | polled
  | dropped
  deriving DecidableEq

/-- The delay a sleep has not completed yet. -/
def State.delay? : State → Option Delay
  | .scheduled delay | .polling delay | .ready delay => some delay
  | _ => none

abbrev SleepId := Nat
abbrev PollerId := Nat

/-- The queue, the sleeps, and the `Expired` list of each poller. `live` are the
delays handed out and not yet completed; `failed` records a panic. -/
structure World (W : Type*) where
  queue : Queue W
  sleeps : SleepId → State
  expired : PollerId → EntryList
  live : List Delay
  failed : Bool

inductive Event (W : Type*) where
  /-- `Sleep::new` -/
  | new (id : SleepId) (delay : Except Instant Duration)
  /-- `Sleep::poll` in `Start`, up to the result of `schedule` -/
  | schedule (id : SleepId) (now : Instant)
  /-- the poll of the entry's waker in `Sleep::poll` -/
  | waker (id : SleepId) (ctx : W)
  /-- the `complete` after a `Ready` waker, where `Sleep::poll` returns `Ready` -/
  | complete (id : SleepId)
  /-- `Sleep::poll` in `Polled` -/
  | polled (id : SleepId)
  | drop (id : SleepId)
  /-- `Queue::poll` -/
  | poll (p : PollerId) (current : Deadline)
  /-- `Expired::process`, one entry -/
  | process (p : PollerId)

namespace World

variable {W : Type*} [DecidableEq W]

def setSleep (s : World W) (id : SleepId) (state : State) : World W :=
  { s with sleeps := Function.update s.sleeps id state }

/-- `timer_queue.complete(delay)`, after which the sleep is in the given state. -/
def complete (s : World W) (id : SleepId) (delay : Delay) (state : State) : World W :=
  match s.queue.complete delay with
  | none => { s with failed := true }
  | some queue => { s with queue := queue, live := s.live.erase delay }.setSleep id state

/-- The poll of the entry's waker, from `scheduled` or `polling`. -/
def pollWaker (s : World W) (id : SleepId) (delay : Delay) (ctx : W) : World W :=
  match (s.queue.raw delay.entry).waker.poll (some ctx) with
  | none => { s with failed := true }
  | some (waker, .ready _) =>
      { s with queue := s.queue.setWaker delay.entry waker }.setSleep id (.ready delay)
  | some (waker, .pending) =>
      { s with queue := s.queue.setWaker delay.entry waker }.setSleep id (.polling delay)

def next (s : World W) : Event W → Option (World W)
  | .new id delay => if s.sleeps id = .absent then some (s.setSleep id (.start delay)) else none
  | .schedule id now =>
      match s.sleeps id with
      | .start delay =>
          match s.queue.schedule delay now with
          | (queue, none) => some ({ s with queue := queue }.setSleep id .polled)
          | (queue, some delay) =>
              some ({ s with queue := queue, live := delay :: s.live }.setSleep id (.scheduled delay))
      | _ => none
  | .waker id ctx =>
      match s.sleeps id with
      | .scheduled delay | .polling delay => some (s.pollWaker id delay ctx)
      | _ => none
  | .complete id =>
      match s.sleeps id with
      | .ready delay => some (s.complete id delay .polled)
      | _ => none
  | .polled id => if s.sleeps id = .polled then some s else none
  | .drop id =>
      match s.sleeps id with
      | .start _ | .polled => some (s.setSleep id .dropped)
      | .polling delay => some (s.complete id delay .dropped)
      | _ => none
  | .poll p current =>
      match s.queue.poll current (s.expired p) with
      | none => some { s with failed := true }
      | some (queue, expired) =>
          some { s with queue := queue, expired := Function.update s.expired p expired }
  | .process p =>
      match s.expired p with
      | [] => none
      | e :: rest =>
          some { s with
            queue := s.queue.setWaker e (s.queue.raw e).waker.wake.1
            expired := Function.update s.expired p rest }

end World

def system (W : Type*) [DecidableEq W] (started : Instant) : System (World W) (Event W) where
  initial := ⟨.new started, fun _ => .absent, fun _ => [], [], false⟩
  next := World.next

end Sleep
end Yaar.Time
