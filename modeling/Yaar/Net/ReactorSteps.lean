import Yaar.Net.ReactorStages

/-! What is left to do for a task until it rests or its operation succeeds. -/
namespace Yaar.Net.Reactor

open Machine PollIo AtomicWaker Yaar.Runtime Yaar.Runtime.TaskState

variable {T V D E : Type*} {x : SocketId × WakerKind} {t : T} {v : View (V ⊕ SocketId) T}

/-- The operations of a call that are ahead, but for the turns that are paid for by what is
recorded in the slot. A yield is paid for by the budget that has run out. -/
def weight : Line T → Nat
  | .load => 34
  | .poll _ at_ => 25 + at_.left
  | .complete => 25
  | .storeCompleted => 24
  | .loadBudget => 23
  | .storeBudget _ => 22
  | .yield => 38
  | .doIo => 4
  | .inIo => 3
  | .reset .resetLoad => 2
  | .reset _ => 1
  | .begin => 3
  | .storePending => 2

/-- The weight of a task that is to be run again. -/
def scheduledWeight (state scheduled : TaskState) : Nat := if state = scheduled then 36 else 0

def View.turnWeight (v : View (V ⊕ SocketId) T) : Nat :=
  match v.phase with
  | .done => 0
  | .away => scheduledWeight v.state TASK_SCHEDULED
  | .pending => 1 + scheduledWeight v.state TASK_NOTIFIED
  | .inside =>
      match v.caller with
      | .call _ _ _ line => weight line + scheduledWeight v.state TASK_NOTIFIED
      | _ => 35

def budgetWeight (budget : UInt8) : Nat := if budget = 0 then 17 else 0

def View.weight (v : View (V ⊕ SocketId) T) : Nat :=
  v.turnWeight + 40 * v.cell.credit (poller v.caller) + budgetWeight v.budget

def wakeWeight : Waking T → Nat
  | .update => 80
  | .lock => 39
  | .take => 38
  | .invoke _ => 37
  | _ => 0

/-- A slot pays for at most two further turns: one for the state and one for the flag. -/
theorem credit_le (c : Cell (V ⊕ SocketId) T) (at_ : AtomicWaker.Poller T) : c.credit at_ ≤ 2 := by
  unfold Cell.credit
  cases at_ <;> simp only <;> split <;> (try split) <;> omega

/-- Where it is not masked the credit does not depend on the operation. -/
theorem credit_elsewhere (c : Cell (V ⊕ SocketId) T) {at_ at_' : AtomicWaker.Poller T}
    (h : at_ ≠ .storeEmpty) (h' : at_' ≠ .storeEmpty) : c.credit at_ = c.credit at_' := by
  unfold Cell.credit
  cases at_ <;> cases at_' <;> simp_all

section Steps

variable {line : Line T} {caller : Caller T} {c : Cell (V ⊕ SocketId) T} {b : UInt8} {f : Bool}

/-- The weight of a call that goes on, or has got `Pending`. -/
def nextWeight : Caller T → Nat
  | .call _ _ _ line => weight line
  | _ => 1

theorem call_weight (hCaller : v.caller = .call x.1 x.2 (some t) line) (hPhase : v.phase = .inside) :
    v.weight = weight line + scheduledWeight v.state TASK_NOTIFIED +
      40 * v.cell.credit line.poller + budgetWeight v.budget := by
  simp [View.weight, View.turnWeight, hPhase, hCaller, poller]

/-- The weight after an operation of a call. One that is over has a turn ahead only if
the task has been woken. -/
theorem stepped_weight (hCaller : v.caller = .call x.1 x.2 (some t) line) (hPhase : v.phase = .inside)
    (hLine : line ≠ .yield) (hFine : ∀ failure, caller ≠ .panicked failure) :
    (v.stepped caller c b f).weight = nextWeight caller + scheduledWeight v.state TASK_NOTIFIED +
      40 * c.credit (poller caller) + budgetWeight b := by
  cases caller with
  | idle =>
      rw [View.stepped_idle hCaller hLine]
      rfl
  | call id kind ctx line' => simp [View.stepped, View.weight, View.turnWeight, nextWeight, hPhase]
  | panicked failure => exact absurd rfl (hFine failure)

theorem budgetWeight_le (b : UInt8) : budgetWeight b ≤ 17 := by
  unfold budgetWeight
  split <;> omega

theorem scheduledWeight_le (state scheduled : TaskState) : scheduledWeight state scheduled ≤ 36 := by
  unfold scheduledWeight
  split <;> omega

variable [DecidableEq T]

/-- An operation inside `poll`. -/
theorem polled_weight {isPending : Bool} {at_ at_' : AtomicWaker.Poller T}
    (finds : Finds v.cell (.poll isPending at_)) (hStep : pollerStep v.cell at_ = some (c, at_'))
    (hFine : ∀ failure, Caller.polled x.1 x.2 (some t) isPending at_' ≠ .panicked failure) :
    nextWeight (.polled x.1 x.2 (some t) isPending at_') +
        40 * c.credit (poller (.polled x.1 x.2 (some t) isPending at_')) <
      weight (.poll isPending at_ : Line T) + 40 * v.cell.credit at_ := by
  have hShaped : Polling at_ := finds.shaped
  have hLeft : 0 < at_.left := by
    cases at_ <;> simp [Polling, Registering, AtomicWaker.Poller.left] at hShaped ⊢
  obtain ⟨hLess, hCredit⟩ : at_'.left < at_.left ∧ c.credit at_' ≤ v.cell.credit at_ :=
    pollerStep_left finds.facts hLeft hStep
  have hHere : weight (.poll isPending at_ : Line T) = 25 + at_.left := rfl
  cases at_' with
  | idle ready =>
      have hSame (at_' : AtomicWaker.Poller T) (h : at_' ≠ .storeEmpty) :
          c.credit at_' ≤ v.cell.credit at_ :=
        (credit_elsewhere c h (by simp)).trans_le hCredit
      cases ready with
      | true =>
          have hNext := hSame (.idle true) (by simp)
          cases isPending <;> simp [Caller.polled, Line.spend, nextWeight, weight, poller, Line.poller] <;> omega
      | false =>
          have hNext := hSame (.idle false) (by simp)
          cases isPending <;> simp [Caller.polled, nextWeight, weight, poller, Line.poller] <;> omega
  | panicked failure => exact absurd rfl (hFine _)
  | _ => simp only [Caller.polled, nextWeight, weight, poller, Line.poller] at hLess ⊢; omega

/-- The reset of a flag pays for the turn that follows. -/
theorem resetting_weight {at_ at_' : AtomicWaker.Poller T} (finds : Finds v.cell (.reset at_))
    (hStep : pollerStep v.cell at_ = some (c, at_')) :
    nextWeight (.resetting x.1 x.2 (some t) at_' : Caller T) +
        40 * c.credit (poller (.resetting x.1 x.2 (some t) at_')) <
      weight (.reset at_ : Line T) + 40 * v.cell.credit at_ := by
  have hShaped : at_ = .resetLoad ∨ at_ = .resetStore := finds.shaped
  have hFacts := finds.facts
  rcases hShaped with rfl | rfl
  · rw [pollerStep, if_pos hFacts.2] at hStep
    obtain ⟨rfl, rfl⟩ := Prod.mk.inj (Option.some.inj hStep)
    have hSame : v.cell.credit .resetLoad = v.cell.credit .resetStore :=
      credit_elsewhere v.cell (by simp) (by simp)
    simp only [Caller.resetting, nextWeight, weight, poller, Line.poller, hSame]
    omega
  · obtain ⟨rfl, rfl⟩ := Prod.mk.inj (Option.some.inj hStep)
    have hFlag : v.cell.notified = true := hFacts.2
    simp only [Caller.resetting, nextWeight, weight, poller, Line.poller, Cell.credit, hFlag, if_true,
      Bool.false_eq_true, if_false]
    omega

/-- Every operation of a call makes the weight less. A poll uses up what is recorded in
the slot, and a yield uses up the budget. -/
theorem Goes.weight (goes : Goes x (some t) v.cell v.budget v.flag line c b f caller)
    (hCaller : v.caller = .call x.1 x.2 (some t) line) (hPhase : v.phase = .inside)
    (finds : Finds v.cell line) (knows : line.Knows v.budget)
    (hFine : ∀ failure, caller ≠ .panicked failure) :
    (v.stepped caller c b f).weight < v.weight := by
  rw [call_weight hCaller hPhase]
  have hSame (at_ at_' : AtomicWaker.Poller T) (h : at_ ≠ .storeEmpty) (h' : at_' ≠ .storeEmpty) :=
    credit_elsewhere v.cell h h'
  cases goes with
  | load =>
      rw [stepped_weight hCaller hPhase (by simp) hFine]
      have hCredit := hSame (.loadNotified (some t)) (.idle false) (by simp) (by simp)
      simp only [nextWeight, Reactor.weight, poller, Line.poller, AtomicWaker.Poller.left, hCredit]
      omega
  | poll isPending hStep =>
      rw [stepped_weight hCaller hPhase (by simp) hFine]
      have hLess := polled_weight finds hStep hFine
      simp only [Line.poller]
      omega
  | reset hStep =>
      rw [stepped_weight hCaller hPhase (by simp) hFine]
      have hLess := resetting_weight (x := x) (t := t) finds hStep
      simp only [Line.poller]
      omega
  | begin | complete | storeCompleted | loadBudget | doIo | storePending =>
      rw [stepped_weight hCaller hPhase (by simp) hFine]
      simp only [nextWeight, Reactor.weight, poller, Line.poller, Line.spend, Option.isSome_some, if_true]
      omega
  | spends hSpent =>
      rw [stepped_weight hCaller hPhase (by simp) hFine]
      have hBudget := budgetWeight_le b
      simp only [nextWeight, Reactor.weight, poller, Line.poller]
      omega
  | yields hEmpty =>
      rw [stepped_weight hCaller hPhase (by simp) hFine]
      have hEmpty' : v.budget = 0 := knows.trans (checkedPred_none hEmpty)
      have hFull : budgetWeight BUDGET = 0 := rfl
      have hNone : budgetWeight v.budget = 17 := if_pos hEmpty'
      simp only [nextWeight, Reactor.weight, poller, Line.poller, hFull, hNone]
      omega
  | yield =>
      have hCredit := hSame (.idle false) (.idle true) (by simp) (by simp)
      have hScheduled := scheduledWeight_le (transitionToScheduled v.state).1 TASK_NOTIFIED
      simp only [View.stepped, View.weight, View.turnWeight, hCaller, Reactor.yields, if_true, poller,
        Line.poller, Reactor.weight, hCredit]
      omega

end Steps

/-! ## The other steps -/

/-- To be run costs the task the share that its schedule has brought. -/
theorem run_weight (hCaller : v.caller = .idle) (hPhase : v.phase = .away)
    (h : transitionToRunning v.state = some true) :
    ({ v with state := TASK_RUNNING, phase := .inside } : View (V ⊕ SocketId) T).weight < v.weight := by
  have hState : v.state = TASK_SCHEDULED := by
    by_contra hNot
    simp [transitionToRunning, hNot] at h
  simp [View.weight, View.turnWeight, hPhase, hCaller, hState, scheduledWeight]

/-- A call that begins is lighter than the task between two calls. -/
theorem load_weight (hCaller : v.caller = .idle) (hPhase : v.phase = .inside)
    (hState : v.state = TASK_RUNNING) :
    ({ v with caller := .call x.1 x.2 (some t) .load } : View (V ⊕ SocketId) T).weight < v.weight := by
  simp [View.weight, View.turnWeight, hPhase, hCaller, hState, scheduledWeight, poller, Line.poller, weight]

theorem done_weight : ({ v with phase := .done } : View (V ⊕ SocketId) T).weight ≤ v.weight := by
  simp only [View.weight, View.turnWeight]
  omega

/-- A task that leaves is lighter, also where it has been woken meanwhile and is
scheduled at once. -/
theorem leave_weight {state : TaskState} {answer : Bool} (hPhase : v.phase = .pending)
    (h : transitionToIdle v.state = some (state, answer)) :
    ({ v with
      state := if answer then state else TASK_SCHEDULED
      phase := .away } : View (V ⊕ SocketId) T).weight < v.weight := by
  unfold transitionToIdle at h
  split at h
  · next hRunning =>
      obtain ⟨rfl, rfl⟩ := Prod.mk.inj (Option.some.inj h)
      simp [View.weight, View.turnWeight, hPhase, hRunning, scheduledWeight]
  · split at h
    · next hNotified =>
        obtain ⟨rfl, rfl⟩ := Prod.mk.inj (Option.some.inj h)
        simp [View.weight, View.turnWeight, hPhase, hNotified, scheduledWeight]
    · cases h

/-- An operation that succeeds, and an interrupt, are not paid for. -/
def ioWeight : IoResult → Nat
  | .interrupted => 1
  | .wouldBlock => 0
  | .other => 32

/-- A result that ends the call, or an interrupt, may add the weight of a new round.
`WouldBlock` adds nothing. -/
theorem doIo_weight (hCaller : v.caller = .call x.1 x.2 (some t) .inIo) (hPhase : v.phase = .inside)
    (result : IoResult) :
    ({ v with caller := .returned x.1 x.2 (some t) result } : View (V ⊕ SocketId) T).weight + 1 ≤
      v.weight + ioWeight result + if result = .wouldBlock then 0 else 1 := by
  have hSame : v.cell.credit (.idle false) = v.cell.credit (.idle true) :=
    credit_elsewhere v.cell (by simp) (by simp)
  have hReset : v.cell.credit .resetLoad = v.cell.credit (.idle true) :=
    credit_elsewhere v.cell (by simp) (by simp)
  cases result <;>
    simp only [View.weight, View.turnWeight, hPhase, hCaller, Caller.returned, poller, Line.poller, weight,
      ioWeight, hSame, hReset, if_true, reduceCtorEq, if_false] <;>
    omega

section Wakes

variable {u : V ⊕ SocketId} {a a' : Waking T} {c : Cell (V ⊕ SocketId) T}

/-- An update pays for the turn it brings about. -/
theorem wakerStep_weight {c' : Cell (V ⊕ SocketId) T} (at_ : AtomicWaker.Poller T)
    (hInvoke : ∀ w, a ≠ .invoke w) (h : wakerStep c u a = some (c', a')) :
    40 * c'.credit at_ + wakeWeight a' < 40 * c.credit at_ + wakeWeight a := by
  cases a with
  | idle | panicked => simp [wakerStep] at h
  | invoke w => exact absurd rfl (hInvoke w)
  | lock =>
      simp only [wakerStep] at h
      split at h
      · obtain ⟨rfl, rfl⟩ := Prod.mk.inj (Option.some.inj h)
        simp [Cell.credit, wakeWeight]
      · cases h
  | take =>
      simp only [wakerStep] at h
      split at h <;> obtain ⟨rfl, rfl⟩ := Prod.mk.inj (Option.some.inj h) <;>
        simp [Cell.credit, wakeWeight]
  | update =>
      have hCredit : c'.notified = c.notified → c'.credit at_ ≤ c.credit at_ + 1 := by
        intro hSame
        unfold Cell.credit
        rw [hSame]
        split <;> split <;> omega
      have hLater := hCredit (wakerStep_state h).2
      have hNext : wakeWeight a' ≤ 39 := by
        simp only [wakerStep] at h
        grind [wakeWeight]
      have hHere : wakeWeight (.update : Waking T) = 80 := rfl
      omega

/-- A task that is woken becomes heavier by one turn at the most. -/
theorem woken_turnWeight (state : TaskState) (wakes : V ⊕ SocketId → Option (Waking T)) :
    ({ v with state := state, wakes := wakes } : View (V ⊕ SocketId) T).turnWeight ≤
      v.turnWeight + 36 := by
  have hScheduled := scheduledWeight_le state TASK_SCHEDULED
  have hNotified := scheduledWeight_le state TASK_NOTIFIED
  unfold View.turnWeight
  cases v.phase with
  | done => exact Nat.zero_le _
  | away => simp only; omega
  | pending => simp only; omega
  | inside =>
      cases v.caller with
      | call id kind ctx line => simp only; omega
      | idle | panicked failure => simp only; omega

/-- The view of a task after an operation of a wake of its slot. -/
theorem wake_weight (hInvoke : ∀ w, a ≠ .invoke w) (h : wakerStep v.cell u a = some (c, a'))
    (wakes : V ⊕ SocketId → Option (Waking T)) :
    ({ v with cell := c, wakes := wakes } : View (V ⊕ SocketId) T).weight + wakeWeight a' <
      v.weight + wakeWeight a := by
  have hStep := wakerStep_weight (poller v.caller) hInvoke h
  have hTurn : ({ v with cell := c, wakes := wakes } : View (V ⊕ SocketId) T).turnWeight = v.turnWeight :=
    rfl
  simp only [View.weight, hTurn]
  omega

/-- The call of a waker is heavier than the turn it brings about. -/
theorem invoked_weight (wakes : V ⊕ SocketId → Option (Waking T)) (state : TaskState) :
    ({ v with state := state, wakes := wakes } : View (V ⊕ SocketId) T).weight + 1 ≤
      v.weight + wakeWeight (.invoke t : Waking T) := by
  have hTurn := woken_turnWeight (v := v) state wakes
  have hHere : wakeWeight (.invoke t : Waking T) = 37 := rfl
  simp only [View.weight]
  omega

end Wakes

end Yaar.Net.Reactor
