import Mathlib.Algebra.Group.Nat.Defs
import Mathlib.Logic.Function.Basic
import Yaar.Machine.Execution
import Yaar.Runtime.Parker

/-! One parker of `runtime/internal/parker.rs` between its owner and any number of
calls of `unpark`, one atomic operation or lock step at a time, with the state
packed into a word. The network poller is seen as far as it wakes the owner. -/
namespace Yaar.Runtime.Parker

open Machine

/-- `From<usize>` for `ParkState`: the branch for other tags is unreachable. -/
def decode (value : Nat) : Option ParkState :=
  match value % 4 with
  | 0 => some .empty
  | 1 => some .waiting
  | 2 => some .polling
  | 3 => some (.notified (match value / 4 with
      | 0 => none
      | index + 1 => some index))
  | _ => none

/-- `Into<usize>` for `ParkState` on words of `bits` bits, with its assertion. Worker
indices are below the greatest word, as positions in `Executor::workers` are, so that
adding one to them does not wrap. -/
def encode (bits : Nat) : ParkState → Option Nat
  | .empty => some 0
  | .waiting => some 1
  | .polling => some 2
  | .notified workerIndex =>
      let index := match workerIndex with
        | some i => i + 1
        | none => 0
      if index < (2 ^ bits - 1) / 4 then some (3 ||| (index <<< 2)) else none

/-- The indices that `Into<usize>` accepts. -/
def Accepted (bits : Nat) (state : ParkState) : Prop := (encode bits state).isSome

/-- Where the owner is. -/
inductive Owner where
  | idle
  /-- `poll_unparked`, called by itself -/
  | pollLoad
  | pollStore (workerIndex : Option Nat)
  /-- `park` -/
  | tryPoll
  | swapParked (isPolling : Bool)
  | netPoll
  | netDrop
  | swapEmpty (isPolling : Bool)
  /-- `poll_unparked().unwrap()` -/
  | unwrapLoad (guarded : Bool)
  | unwrapStore (guarded : Bool) (workerIndex : Option Nat)
  | dropGuard
  /-- `park_waiting` -/
  | lock
  | loadFirst
  | wait
  | blocked
  | relock
  | loadSecond
  | unlock
  | panicked
  deriving DecidableEq

/-- Where a call of `unpark` is. -/
inductive Call where
  | fresh
  | load (workerIndex : Option Nat)
  | swap (workerIndex : Option Nat) (word : Nat)
  | signalNet (workerIndex : Option Nat)
  /-- `unpark_waiting` -/
  | lock (workerIndex : Option Nat)
  | unlock (workerIndex : Option Nat)
  | notify (workerIndex : Option Nat)
  | done (workerIndex : Option Nat) (result : Bool)
  | panicked (workerIndex : Option Nat)
  deriving DecidableEq

/-- Who has the mutex. -/
inductive Holder (U : Type*) where
  | owner
  | call (u : U)
  deriving DecidableEq

/-- The word, the mutex, a notification of the condition variable on its way to the
owner, and one of the network poller not yet polled. -/
structure State (U : Type*) where
  word : Nat
  mutex : Option (Holder U)
  condSignal : Bool
  netSignal : Bool
  owner : Owner
  calls : U → Call

inductive Event (U : Type*) where
  | owner
  /-- the owner calls `poll_unparked` or `park` -/
  | pollUnparked
  | park
  /-- the outcome of `try_poll_network` -/
  | guard (isPolling : Bool)
  /-- the owner's `poll` or `wait_for` ends: an event, a signal, its time, or nothing -/
  | wakeUp
  | unpark (u : U) (workerIndex : Option Nat)
  | call (u : U)
  /-- a `compare_exchange_weak` fails for no reason -/
  | spurious (u : U)
  /-- another thread polls the network, or notifies the network poller -/
  | otherPoll
  | otherNotify
  deriving DecidableEq

variable {U : Type*}

/-- The owner has the selector of the network poller. -/
def Owner.guarded : Owner → Bool
  | .swapParked isPolling => isPolling
  | .netPoll | .netDrop | .dropGuard => true
  | .unwrapLoad guarded | .unwrapStore guarded _ => guarded
  | _ => false

section
variable [DecidableEq U]

def State.setOwner (s : State U) (owner : Owner) : State U := { s with owner := owner }

def State.setCall (s : State U) (u : U) (call : Call) : State U :=
  { s with calls := Function.update s.calls u call }

/-- The load of `poll_unparked`: with a notification store, else go elsewhere. -/
def pollLoad (word : Nat) (store : Option Nat → Owner) (otherwise : Owner) : Owner :=
  match decode word with
  | some (.notified workerIndex) => store workerIndex
  | some _ => otherwise
  | none => .panicked

/-- The look at the state under the lock of `park_waiting`. -/
def loadLocked (word : Nat) (waiting notified : Owner) : Owner :=
  match decode word with
  | some .waiting => waiting
  | some (.notified _) => notified
  | _ => .panicked

/-- `compare_exchange` of the owner between two states. -/
def State.exchange (s : State U) (bits : Nat) (current new : ParkState) (success failure : Owner) :
    State U :=
  match encode bits current, encode bits new with
  | some current, some new =>
      if s.word = current then { s with word := new }.setOwner success else s.setOwner failure
  | _, _ => s.setOwner .panicked

def ownerStep (bits : Nat) (s : State U) : Option (State U) :=
  match s.owner with
  | .pollLoad => some (s.setOwner (pollLoad s.word .pollStore .idle))
  | .pollStore _ => some ({ s with word := 0 }.setOwner .idle)
  | .swapParked isPolling =>
      some (s.exchange bits .empty (.parked isPolling) (if isPolling then .netPoll else .lock)
        (.unwrapLoad isPolling))
  | .netDrop => some (s.setOwner (.swapEmpty true))
  | .swapEmpty isPolling =>
      some (s.exchange bits (.parked isPolling) .empty .idle (.unwrapLoad false))
  | .unwrapLoad guarded =>
      some (s.setOwner (pollLoad s.word (.unwrapStore guarded) .panicked))
  | .unwrapStore guarded _ =>
      some ({ s with word := 0 }.setOwner (if guarded then .dropGuard else .idle))
  | .dropGuard => some (s.setOwner .idle)
  | .lock =>
      if s.mutex = none then some ({ s with mutex := some .owner }.setOwner .loadFirst) else none
  | .loadFirst => some (s.setOwner (loadLocked s.word .wait .unlock))
  -- The mutex is released and the thread blocked at once.
  | .wait => some ({ s with mutex := none, condSignal := false }.setOwner .blocked)
  | .relock =>
      if s.mutex = none then some ({ s with mutex := some .owner }.setOwner .loadSecond) else none
  | .loadSecond => some (s.setOwner (loadLocked s.word .unlock .unlock))
  | .unlock => some ({ s with mutex := none }.setOwner (.swapEmpty false))
  | _ => none

/-- The closure of `fetch_update` on a word: the call ends, fails at the assertion, or
goes on to the exchange. -/
def update (bits : Nat) (workerIndex : Option Nat) (word : Nat) : Call :=
  match decode word with
  | none => .panicked workerIndex
  | some state =>
      match state.unpark workerIndex with
      | none => .done workerIndex false
      | some new =>
          if (encode bits new).isSome then .swap workerIndex word else .panicked workerIndex

/-- What a call does once its exchange has found a state. -/
def signal (workerIndex : Option Nat) (word : Nat) : Call :=
  match decode word with
  | some .polling => .signalNet workerIndex
  | some .waiting => .lock workerIndex
  | some _ => .done workerIndex false
  | none => .panicked workerIndex

def callStep (bits : Nat) (s : State U) (u : U) : Option (State U) :=
  match s.calls u with
  | .load workerIndex => some (s.setCall u (update bits workerIndex s.word))
  | .swap workerIndex word =>
      some (if s.word = word then
        { s with word := (encode bits (.notified workerIndex)).getD 0 }.setCall u
          (signal workerIndex word)
        else s.setCall u (update bits workerIndex s.word))
  | .signalNet workerIndex =>
      some ({ s with netSignal := true }.setCall u (.done workerIndex true))
  | .lock workerIndex =>
      if s.mutex = none then
        some ({ s with mutex := some (.call u) }.setCall u (.unlock workerIndex))
      else none
  | .unlock workerIndex => some ({ s with mutex := none }.setCall u (.notify workerIndex))
  | .notify workerIndex =>
      some ({ s with condSignal := s.condSignal || s.owner = Owner.blocked }.setCall u
        (.done workerIndex true))
  | _ => none

def next (bits : Nat) (s : State U) : Event U → Option (State U)
  | .owner => ownerStep bits s
  | .pollUnparked => if s.owner = .idle then some (s.setOwner .pollLoad) else none
  | .park => if s.owner = .idle then some (s.setOwner .tryPoll) else none
  | .guard isPolling =>
      if s.owner = .tryPoll then some (s.setOwner (.swapParked isPolling)) else none
  | .wakeUp =>
      match s.owner with
      | .netPoll => some ({ s with netSignal := false }.setOwner .netDrop)
      | .blocked => some (s.setOwner .relock)
      | _ => none
  | .unpark u workerIndex =>
      if s.calls u = .fresh then some (s.setCall u (.load workerIndex)) else none
  | .call u => callStep bits s u
  | .spurious u =>
      match s.calls u with
      | .swap workerIndex _ => some (s.setCall u (update bits workerIndex s.word))
      | _ => none
  | .otherPoll => if s.owner.guarded then none else some { s with netSignal := false }
  | .otherNotify => some { s with netSignal := true }

/-- A new parker. -/
def system (U : Type*) [DecidableEq U] (bits : Nat) : System (State U) (Event U) where
  initial := ⟨0, none, false, false, .idle, fun _ => .fresh⟩
  next := next bits

end

/-- The word of a notification, with its index plus one or zero. -/
theorem notified_word (index : Nat) : 3 ||| (index <<< 2) = 4 * index + 3 := by
  rw [Nat.or_comm, Nat.shiftLeft_eq, Nat.mul_comm]
  exact (Nat.two_pow_add_eq_or_of_lt (i := 2) (by decide) index).symm

/-- The packing of the word loses nothing of a state it accepts. -/
theorem decode_encode {bits : Nat} {state : ParkState} {word : Nat}
    (h : encode bits state = some word) : decode word = some state := by
  cases state with
  | notified workerIndex =>
      simp only [encode, notified_word] at h
      have hWord : ∀ index, (if index < (2 ^ bits - 1) / 4 then some (4 * index + 3) else none) =
          some word → word = 4 * index + 3 := by
        intro index hIndex
        split at hIndex
        · exact (Option.some.inj hIndex).symm
        · simp at hIndex
      cases workerIndex with
      | none =>
          rw [hWord 0 h]
          rfl
      | some i =>
          have hMod : (4 * (i + 1) + 3) % 4 = 3 := by omega
          have hDiv : (4 * (i + 1) + 3) / 4 = i + 1 := by omega
          rw [hWord (i + 1) h]
          simp [decode, hMod, hDiv]
  | empty =>
      obtain rfl := Option.some.inj h
      rfl
  | waiting =>
      obtain rfl := Option.some.inj h
      rfl
  | polling =>
      obtain rfl := Option.some.inj h
      rfl

end Yaar.Runtime.Parker
