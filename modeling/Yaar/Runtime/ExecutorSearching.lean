import Yaar.Runtime.ExecutorSlots

/-! When the searching counter keeps within the number of workers. -/
namespace Yaar.Runtime.Executor

open Machine

variable {T : Type*}

/-- The units of the counter a thread has without a worker: `notify` takes one
before it pops a worker, and `search_failed` gives its worker back first. -/
def Pc.detached : Pc T → Nat
  | .notifyPending _ | .notifyPop _ | .notifySub _ | .failSub _ => 1
  | _ => 0

/-- The units of the counter a thread has along with a worker in its hands. -/
def Pc.paired (i : Nat) : Pc T → Nat
  | .retryAdded _ j _ | .taken j _ => if j = i then 1 else 0
  | .failPush j wasSearching _ => if wasSearching ∧ j = i then 1 else 0
  | .resume j next | .spawn j next | .unpark j _ next | .create j next | .spawnFailed j next
  | .notifyPush j next => (if j = i then 1 else 0) + next.paired i
  | .push _ next | .notifyLoad next | .notifySearching next | .notifySwap next
  | .notifyPending next | .notifyPop next | .notifySub next | .dropGuard next => next.paired i
  | _ => 0

/-- The units of the counter on their way to or from the worker's context. -/
def Pc.spare : Pc T → Nat
  | .beginAdded _ | .discover _ => 1
  | _ => 0

def Thread.paired (i : Nat) (th : Thread T) : Nat :=
  th.pc.paired i + (th.searching.toNat + th.pc.spare) * held i th.worker + given i th.park

/-- A line that `notify` returns to has a unit for each worker in hand. -/
theorem Pc.Returned.tokens {pc : Pc T} {W : Nat} (h : pc.Returned)
    (hIndex : ∀ i, 0 < pc.holds i → i < W) :
    pc.tokens = ∑ i ∈ Finset.range W, pc.paired i := by
  cases pc with
  | resume j next =>
      have hj : j < W := hIndex j (by simp [Pc.holds])
      cases next <;> simp_all [Pc.Returned, Pc.tokens, Pc.paired]
  | _ => simp_all [Pc.Returned, Pc.tokens, Pc.paired]

/-- Each unit at a line is with a worker in hand, without a worker, or on its way to or
from the context. -/
theorem Pc.tokens_eq {pc : Pc T} {W : Nat} (shape : pc.Shape) (hLive : pc.live)
    (hIndex : ∀ i, 0 < pc.holds i → i < W) :
    pc.tokens = pc.detached + pc.spare + ∑ i ∈ Finset.range W, pc.paired i := by
  cases pc with
  | push ready next | notifyLoad next | notifySearching next | notifySwap next
  | notifyPending next | notifyPop next | notifySub next =>
      have hTokens := Pc.Returned.tokens shape hIndex
      simp [Pc.tokens, Pc.detached, Pc.spare, Pc.paired, hTokens]
  | spawn j next | unpark j _ next | create j next | spawnFailed j next | notifyPush j next =>
      have hj : j < W := hIndex j (by simp [Pc.holds])
      have hTokens := Pc.Returned.tokens (W := W) shape fun i hi => hIndex i (by
        simp only [Pc.holds]
        omega)
      simp [Pc.tokens, Pc.detached, Pc.spare, Pc.paired, Finset.sum_add_distrib, hj, hTokens]
  | resume j next =>
      have hj : j < W := hIndex j (by simp [Pc.holds])
      rcases shape with rfl | rfl <;> simp [Pc.tokens, Pc.detached, Pc.spare, Pc.paired, hj]
  | lockTake j next | swapTake j next | discover next =>
      rcases shape with rfl | rfl <;> simp [Pc.tokens, Pc.detached, Pc.spare, Pc.paired]
  | expire _ next | pollIo next | lockIo next | polling next =>
      simp [Pc.tokens, Pc.detached, Pc.spare, Pc.paired, Pc.Polls.tokens shape]
  | retryAdded _ j _ | taken j _ =>
      have hj : j < W := hIndex j (by simp [Pc.holds])
      simp [Pc.tokens, Pc.detached, Pc.spare, Pc.paired, hj]
  | failPush j wasSearching _ =>
      have hj : j < W := hIndex j (by simp [Pc.holds])
      cases wasSearching <;> simp [Pc.tokens, Pc.detached, Pc.spare, Pc.paired, hj]
  | dropGuard next =>
      rcases shape with ⟨ready, rfl⟩ | ⟨j, ready, rfl⟩
      · simp [Pc.tokens, Pc.detached, Pc.spare, Pc.paired]
      · have hj : j < W := hIndex j (by simp [Pc.holds])
        simp [Pc.tokens, Pc.detached, Pc.spare, Pc.paired, hj]
  | panicked line => simp [Pc.live] at hLive
  | _ => simp [Pc.tokens, Pc.detached, Pc.spare, Pc.paired]

/-- At most one unit goes to or comes from a context, which then has a worker. -/
theorem Thread.Ok.spare {th : Thread T} (ok : th.Ok) (staffed : th.Staffed) :
    th.searching.toNat + th.pc.spare ≤ 1 ∧
      (th.worker = none → th.searching.toNat + th.pc.spare = 0) := by
  have hLe := Bool.toNat_le th.searching
  unfold Thread.Ok at ok
  cases hp : th.pc
  case beginAdded =>
    simp only [hp, Pc.Ok] at ok
    exact ⟨by simp [ok.2.1, Pc.spare], fun hNone => (ok.1 hNone).elim⟩
  case discover next =>
    simp only [hp, Pc.Ok] at ok
    refine ⟨by simp [ok.1, Pc.spare], fun hNone => ?_⟩
    have hNot := staffed.retires hNone
    simp [hp, Pc.retires] at hNot
  all_goals
    exact ⟨by simpa [Pc.spare] using hLe, fun hNone => by simp [staffed.searching hNone, Pc.spare]⟩

/-- With the flag and the parker counted, a thread's units are with a worker or
detached. A search is that of the worker in the context. -/
theorem Thread.Ok.tokens_eq {th : Thread T} {W : Nat} (ok : th.Ok) (staffed : th.Staffed)
    (shape : th.pc.Shape) (hLive : th.pc.live) (hIndex : ∀ i, 0 < th.holds i → i < W) :
    th.tokens = th.pc.detached + ∑ i ∈ Finset.range W, th.paired i := by
  have hLine : th.pc.tokens = th.pc.detached + th.pc.spare +
      ∑ i ∈ Finset.range W, th.pc.paired i :=
    Pc.tokens_eq shape hLive fun i hi => hIndex i (by unfold Thread.holds; omega)
  have hContext : ∑ i ∈ Finset.range W, (th.searching.toNat + th.pc.spare) * held i th.worker =
      th.searching.toNat + th.pc.spare := by
    cases hWorker : th.worker with
    | none => simp [held, (ok.spare staffed).2 hWorker]
    | some j =>
        have hj : j < W := hIndex j (Thread.holds_worker hWorker)
        simp [held, hj]
  have hPark : ∑ i ∈ Finset.range W, given i th.park = givenTokens th.park := by
    cases hEq : th.park with
    | notified workerIndex =>
        cases workerIndex with
        | none => simp [given, held, givenTokens]
        | some j =>
            have hj : j < W := hIndex j (by simp [Thread.holds, hEq, given, held])
            simp [given, held, givenTokens, hj]
    | _ => simp [given, givenTokens]
  simp only [Thread.paired, Finset.sum_add_distrib, Thread.tokens]
  omega

/-- A unit that goes along with a worker is where the worker is. -/
theorem Pc.paired_le_holds (pc : Pc T) (i : Nat) : pc.paired i ≤ pc.holds i := by
  induction pc with
  | failPush j wasSearching ended =>
      simp only [Pc.paired, Pc.holds]
      split <;> split <;> simp_all
  | _ => simp_all [Pc.paired, Pc.holds]

theorem Thread.Ok.paired_le_holds {th : Thread T} (ok : th.Ok) (staffed : th.Staffed) (i : Nat) :
    th.paired i ≤ th.holds i := by
  have hLine := th.pc.paired_le_holds i
  have hContext : (th.searching.toNat + th.pc.spare) * held i th.worker ≤ 1 * held i th.worker :=
    Nat.mul_le_mul_right _ (ok.spare staffed).1
  unfold Thread.paired Thread.holds
  omega

variable [Fintype T]

/-- The workers that no unit of the counter goes along with. -/
def free (W : Nat) (s : State T) : Nat :=
  ((Finset.range W).filter fun i => Tally.total (Thread.paired i) s.threads = 0).card

/-- Fewer units are without a worker than workers are without a unit. -/
def Room (W : Nat) (s : State T) : Prop :=
  Tally.total (fun th => th.pc.detached) s.threads < free W s

instance (W : Nat) (s : State T) : Decidable (Room W s) :=
  inferInstanceAs (Decidable (_ < _))

variable [DecidableEq T]

omit [DecidableEq T] in
/-- The counter and the free workers add up to all workers and the detached units. Every
other unit makes one worker less free. -/
theorem Inv.searching_add_free {W maxThreads : Nat} {s : State T} (inv : Inv W maxThreads s)
    (staffed : ∀ t, (s.threads t).Staffed) (shape : ∀ t, (s.threads t).pc.Shape)
    (hLive : ∀ t, (s.threads t).pc.live) :
    s.searching + free W s = Tally.total (fun th => th.pc.detached) s.threads + W := by
  have hPaired : ∀ i ∈ Finset.range W, Tally.total (Thread.paired i) s.threads ≤ 1 := by
    intro i hi
    have hHolds := inv.accounts.holds i
    have hLe : Tally.total (Thread.paired i) s.threads ≤ Tally.total (Thread.holds i) s.threads :=
      Tally.total_mono fun t => (inv.accounts.ok t).paired_le_holds (staffed t) i
    split at hHolds <;> omega
  have hSplit : s.searching = Tally.total (fun th => th.pc.detached) s.threads +
      ∑ i ∈ Finset.range W, Tally.total (Thread.paired i) s.threads := by
    rw [inv.accounts.tokens, ← Tally.total_sum, ← Tally.total_add]
    exact Finset.sum_congr rfl fun t _ =>
      (inv.accounts.ok t).tokens_eq (staffed t) (shape t) (hLive t) fun i =>
        inv.accounts.lt_of_holds
  have hCount := Tally.sum_add_card_zero
    (fun i => Tally.total (Thread.paired i) s.threads) (Finset.range W) hPaired
  rw [Finset.card_range] at hCount
  unfold free
  omega

/-- The `fetch_add` of `search_retry` and of `search_begin`. -/
def Pc.adds : Pc T → Bool
  | .retryAdd _ _ | .beginAdd => true
  | _ => false

def Adds (s : State T) : Event T → Prop
  | .step t => (s.threads t).pc.adds
  | _ => False

instance (s : State T) : (e : Event T) → Decidable (Adds s e)
  | .step t => inferInstanceAs (Decidable ((s.threads t).pc.adds = true))
  | .choose _ _ | .blockOn _ | .wake _ | .tick _ => .isFalse id

/-- What a `fetch_add` has found, until that is checked. -/
def Pc.before : Pc T → Option Nat
  | .retryAdded _ _ searching | .beginAdded searching => some searching
  | _ => none

omit [Fintype T] [DecidableEq T] in
theorem Pc.Returned.before {pc : Pc T} (h : pc.Returned) : pc.before = none := by
  cases pc <;> simp_all [Pc.Returned, Pc.before]

omit [Fintype T] in
/-- Only a `fetch_add` and the exchange in `notify` raise the counter. -/
theorem searching_step {W maxThreads : Nat} {s s' : State T} {t : T}
    (h : step W maxThreads s t = some s') :
    s'.searching ≤ s.searching ∨ (s.threads t).pc.adds ∧ s'.searching = s.searching + 1 ∨
      s.searching = 0 ∧ s'.searching = 1 := by
  cases hp : (s.threads t).pc <;> simp only [step, hp, reduceCtorEq] at h
  case retryAdd | beginAdd =>
    obtain rfl := Option.some.inj h
    exact Or.inr (Or.inl ⟨rfl, rfl⟩)
  case notifySwap next =>
    split at h
    · next hZero =>
        obtain rfl := Option.some.inj h
        exact Or.inr (Or.inr ⟨hZero, rfl⟩)
    · obtain rfl := Option.some.inj h
      exact Or.inl le_rfl
  case failSub | discover | notifySub =>
    obtain rfl := Option.some.inj h
    exact Or.inl (Nat.sub_le _ _)
  case retryPop | notifyPop =>
    obtain rfl := Option.some.inj h
    unfold State.popIdle
    split <;> exact Or.inl le_rfl
  case waitFirst | waitThird | unwrapUnparked =>
    obtain rfl := Option.some.inj h
    rw [(pollUnparked_eq s t _ _ _).choose_spec]
    exact Or.inl le_rfl
  case waitLocked =>
    split at h
    · obtain rfl := Option.some.inj h
      rw [(pollUnparked_eq s t _ _ _).choose_spec]
      exact Or.inl le_rfl
    · obtain rfl := Option.some.inj h
      exact Or.inl le_rfl
  case ownTimers =>
    obtain ⟨i, _, rfl⟩ := Option.map_eq_some_iff.mp h
    rw [(pollTimers_eq s t i .popLocal).choose_spec]
    exact Or.inl le_rfl
  case popLocal | giveBack =>
    obtain ⟨i, _, rfl⟩ := Option.map_eq_some_iff.mp h
    split <;> exact Or.inl le_rfl
  case failPush i wasSearching ended =>
    obtain rfl := Option.some.inj h
    split <;> exact Or.inl le_rfl
  case unpark i u next =>
    obtain rfl := Option.some.inj h
    unfold State.unpark
    split <;> exact Or.inl le_rfl
  case lockTake | lockPut =>
    obtain rfl := Option.some.inj h
    unfold State.lockProducer
    split <;> exact Or.inl le_rfl
  case spawn | push | found | finish | swapParked | swapEmpty =>
    repeat' split at h
    all_goals
      obtain rfl := Option.some.inj h
      exact Or.inl le_rfl
  all_goals
    obtain rfl := Option.some.inj h
    (try split) <;> exact Or.inl le_rfl

omit [Fintype T] in
theorem searching_choose {W : Nat} {s s' : State T} {t : T} {choice : Choice T}
    (h : choose W s t choice = some s') : s'.searching = s.searching := by
  simp only [choose] at h
  split at h
  case h_6 | h_7 | h_8 =>
    obtain rfl := Option.some.inj h
    unfold State.schedule
    split <;> rfl
  case h_9 | h_10 | h_11 | h_17 | h_18 | h_19 | h_30 | h_33 =>
    split at h
    · obtain rfl := Option.some.inj h
      rfl
    · simp at h
  case h_23 | h_24 | h_26 =>
    obtain ⟨i, hWorker, h⟩ := Option.bind_eq_some_iff.mp h
    split at h
    · obtain rfl := Option.some.inj h
      rfl
    · simp at h
  case h_27 =>
    split at h
    · obtain rfl := Option.some.inj h
      rw [(pollTimers_eq s t _ .search).choose_spec]
      rfl
    · simp at h
  case h_34 => simp at h
  all_goals
    obtain rfl := Option.some.inj h
    rfl

omit [Fintype T] in
/-- After the state of the parker is polled no `fetch_add` is unchecked. -/
theorem before_pollUnparked {s : State T} {t : T} {taken : Nat → Pc T} {woken otherwise : Pc T}
    (hTaken : ∀ i, (taken i).before = none) (hWoken : woken.before = none)
    (hOtherwise : otherwise.before = none) :
    ((s.pollUnparked t taken woken otherwise).threads t).pc.before = none := by
  simp only [State.pollUnparked]
  split <;> simp_all

omit [Fintype T] in
/-- A thread gets to the check of a count by its own `fetch_add`. -/
theorem before_step {W maxThreads : Nat} {s s' : State T} {t : T}
    (shape : (s.threads t).pc.Shape) (h : step W maxThreads s t = some s') :
    (s'.threads t).pc.before = none ∨
      (s.threads t).pc.adds ∧ (s'.threads t).pc.before = some s.searching := by
  cases hp : (s.threads t).pc <;> simp only [step, hp, reduceCtorEq] at h <;>
    simp only [hp, Pc.Shape] at shape
  case retryAdd | beginAdd =>
    obtain rfl := Option.some.inj h
    exact Or.inr ⟨rfl, by simp [Pc.before]⟩
  case retryPop caller =>
    obtain rfl := Option.some.inj h
    unfold State.popIdle
    cases caller <;> split <;> simp [Caller.none, Pc.before]
  case notifyPop next =>
    obtain rfl := Option.some.inj h
    unfold State.popIdle
    split <;> simp [Pc.before]
  case waitFirst | waitThird =>
    obtain rfl := Option.some.inj h
    exact Or.inl (before_pollUnparked (fun _ => rfl) rfl rfl)
  case unwrapUnparked ready guarded =>
    obtain rfl := Option.some.inj h
    cases guarded <;> exact Or.inl (before_pollUnparked (fun _ => rfl) rfl rfl)
  case waitLocked =>
    split at h
    · obtain rfl := Option.some.inj h
      exact Or.inl (before_pollUnparked (fun _ => rfl) rfl rfl)
    · obtain rfl := Option.some.inj h
      simp [Pc.before]
  case ownTimers =>
    obtain ⟨i, _, rfl⟩ := Option.map_eq_some_iff.mp h
    unfold State.pollTimers
    split
    · simp [Pc.before]
    · simp only
      split <;> simp [Pc.before, Thread.wait]
  case popLocal =>
    obtain ⟨i, _, rfl⟩ := Option.map_eq_some_iff.mp h
    split
    · simp [Pc.before]
    · simp only [goto_self]
      split <;> simp [Pc.before]
  case giveBack =>
    obtain ⟨i, _, rfl⟩ := Option.map_eq_some_iff.mp h
    split <;> simp [Pc.before]
  case failSub ended =>
    obtain rfl := Option.some.inj h
    simp only [State.fetchSub, goto_self]
    cases ended <;> (repeat' split) <;> simp_all [Pc.before]
  case discover next =>
    obtain rfl := Option.some.inj h
    simp only [State.fetchSub, goto_self]
    rcases shape with rfl | rfl <;> (repeat' split) <;> simp_all [Pc.before]
  case notifySub next =>
    obtain rfl := Option.some.inj h
    simp only [State.fetchSub, goto_self]
    repeat' split
    all_goals
      first
      | exact Or.inl (Pc.Returned.before shape)
      | exact Or.inl rfl
  case lockTake | lockPut =>
    obtain rfl := Option.some.inj h
    unfold State.lockProducer
    split <;> simp [Pc.before]
  case swapTake i next =>
    obtain rfl := Option.some.inj h
    simp only [State.takeProducer, setThread_self]
    rcases shape with rfl | rfl <;> split <;> simp [Pc.before]
  case swapPut i ended =>
    obtain rfl := Option.some.inj h
    simp only [State.putProducer, setThread_self]
    split <;> simp [Pc.before]
  case unpark i u next =>
    obtain rfl := Option.some.inj h
    unfold State.unpark
    split <;> simp only [goto_self]
    · exact Or.inl rfl
    · exact Or.inl (Pc.Returned.before shape)
  case retryLoad caller | retryAdded caller _ _ =>
    obtain rfl := Option.some.inj h
    cases caller <;> simp only [goto_self, Caller.none, Caller.some] <;> split <;>
      simp [Pc.before]
  case taken i ready =>
    obtain rfl := Option.some.inj h
    rcases ready with _ | _ | ready <;> simp [popAndInject, Pc.before]
  case dropGuard next =>
    obtain rfl := Option.some.inj h
    rcases shape with ⟨ready, rfl⟩ | ⟨i, ready, rfl⟩ <;> simp [Pc.before]
  case pollIo next | lockIo next =>
    obtain rfl := Option.some.inj h
    cases next <;> simp only [Pc.Polls] at shape <;> (try split) <;> simp [Pc.before]
  case notifyLoad next | notifySearching next | notifyPending next =>
    obtain rfl := Option.some.inj h
    simp only [goto_self]
    repeat' split
    all_goals
      first
      | exact Or.inl (Pc.Returned.before shape)
      | exact Or.inl rfl
  case notifySwap next | spawn next | push next =>
    repeat' split at h
    all_goals
      obtain rfl := Option.some.inj h
      simp only [goto_self]
      first
      | exact Or.inl (Pc.Returned.before shape)
      | exact Or.inl rfl
  case found | finish | swapParked | swapEmpty | lockPoll | beginAdded =>
    split at h <;> obtain rfl := Option.some.inj h <;> simp [Pc.before]
  all_goals
    obtain rfl := Option.some.inj h
    (repeat' split) <;> simp [Pc.before]

omit [Fintype T] in
theorem before_choose {W : Nat} {s s' : State T} {t : T} {choice : Choice T}
    (shape : (s.threads t).pc.Shape) (h : choose W s t choice = some s') :
    (s'.threads t).pc.before = none := by
  simp only [choose] at h
  split at h <;> rename_i hp <;> simp only [hp, Pc.Shape] at shape
  case h_6 | h_7 | h_8 =>
    obtain rfl := Option.some.inj h
    unfold State.schedule
    split <;> simp [Pc.before]
  case h_9 | h_10 | h_11 | h_17 | h_18 | h_19 =>
    split at h
    · obtain rfl := Option.some.inj h
      simp [hp, Pc.before]
    · simp at h
  case h_12 | h_13 | h_14 | h_15 | h_16 =>
    obtain rfl := Option.some.inj h
    simp [hp, Pc.before]
  case h_22 next ready | h_29 next ready =>
    obtain rfl := Option.some.inj h
    cases next <;> simp only [Pc.Polls] at shape <;> rcases ready with _ | _ | ready <;>
      simp [popAndInject, Pc.before]
  case h_23 | h_24 | h_26 =>
    obtain ⟨i, hWorker, h⟩ := Option.bind_eq_some_iff.mp h
    split at h
    · obtain rfl := Option.some.inj h
      simp [Pc.before]
    · simp at h
  case h_27 =>
    split at h
    · obtain rfl := Option.some.inj h
      unfold State.pollTimers
      split
      · simp [Pc.before]
      · simp only
        split <;> simp [Pc.before, Thread.wait]
    · simp at h
  case h_30 u =>
    split at h
    · obtain rfl := Option.some.inj h
      simp only [goto_self]
      exact Pc.Returned.before shape
    · simp at h
  case h_33 =>
    split at h
    · obtain rfl := Option.some.inj h
      simp [Pc.before]
    · simp at h
  case h_34 => simp at h
  all_goals
    obtain rfl := Option.some.inj h
    simp [Pc.before, hp]

/-- No check has failed, nor will one of those under way. -/
structure Good (W : Nat) (s : State T) : Prop where
  live : ∀ t, (s.threads t).pc.live
  before : ∀ t n, (s.threads t).pc.before = some n → n < W
  bound : s.searching ≤ W

omit [Fintype T] [DecidableEq T] in
/-- Where the counter is good, the upper bounds asserted of it hold in the next step. -/
theorem Good.counterHolds {W : Nat} {s : State T} (good : Good W s) (e : Event T) :
    CounterHolds W s e := by
  cases e with
  | step t =>
      have hBefore := good.before t
      have hBound := good.bound
      unfold CounterHolds
      cases hp : (s.threads t).pc <;> simp_all [Pc.Bounded, Pc.before]
  | _ => trivial

/-- What a `fetch_add` finds is kept for its check only: it is there from the step that
adds. -/
theorem Inv.before_next {W maxThreads : Nat} {s s' : State T} {e : Event T}
    (inv : Inv W maxThreads s) (shape : ∀ t, (s.threads t).pc.Shape)
    (h : Executor.next W maxThreads s e = some s') (u : T) :
    (s'.threads u).pc.before = none ∨ (s'.threads u).pc = (s.threads u).pc ∨
      Adds s e ∧ (s'.threads u).pc.before = some s.searching := by
  cases e with
  | step t =>
      by_cases hEq : u = t
      · subst hEq
        exact (before_step (shape u) h).imp id Or.inr
      · exact Or.inr (Or.inl (inv.accounts.step_pc hEq h))
  | choose t choice =>
      by_cases hEq : u = t
      · subst hEq
        exact Or.inl (before_choose (shape u) h)
      · by_cases hStart : choice = .create u
        · subst hStart
          cases hp : (s.threads t).pc
          case create i next =>
            simp only [Executor.next, choose, hp] at h
            split at h
            · obtain rfl := Option.some.inj h
              refine Or.inl ?_
              simp [State.goto, State.setThread, Function.update_of_ne hEq, Pc.before]
            · simp at h
          all_goals simp [Executor.next, choose, hp] at h
        · exact Or.inr (Or.inl (inv.accounts.choose_pc hEq hStart h))
  | blockOn t =>
      simp only [Executor.next] at h
      split at h
      · obtain rfl := Option.some.inj h
        simp only [State.goto, State.setThread, Function.update_apply]
        split
        · exact Or.inl rfl
        · exact Or.inr (Or.inl rfl)
      · simp at h
  | wake t =>
      simp only [Executor.next] at h
      split at h
      · simp at h
      · obtain ⟨park, _, rfl⟩ := Option.map_eq_some_iff.mp h
        simp only [State.setThread, Function.update_apply]
        split
        · next hEq => exact Or.inr (Or.inl (by rw [hEq]))
        · exact Or.inr (Or.inl rfl)
  | tick milliseconds =>
      obtain rfl := Option.some.inj h
      exact Or.inr (Or.inl rfl)

/-- The counter stays good in a step that adds only where it is below the number of
workers. -/
theorem Good.next {W maxThreads : Nat} {s s' : State T} {e : Event T} (good : Good W s)
    (inv : Inv W maxThreads s) (shape : ∀ t, (s.threads t).pc.Shape) (cleared : FlagCleared s e)
    (hW : 0 < W) (hAdds : Adds s e → s.searching < W) (h : Executor.next W maxThreads s e = some s') :
    Good W s' := by
  refine ⟨inv.live_next good.live (good.counterHolds e) cleared h, fun u n hn => ?_, ?_⟩
  · rcases inv.before_next shape h u with hNone | hSame | ⟨adds, hSome⟩
    · simp [hNone] at hn
    · rw [hSame] at hn
      exact good.before u n hn
    · rw [hSome] at hn
      obtain rfl := Option.some.inj hn
      exact hAdds adds
  · have hBound := good.bound
    cases e with
    | step t =>
        rcases searching_step h with hLe | ⟨adds, hEq⟩ | ⟨-, hEq⟩
        · omega
        · have hLt := hAdds adds
          omega
        · omega
    | choose t choice =>
        rw [searching_choose h]
        exact hBound
    | blockOn t =>
        simp only [Executor.next] at h
        split at h
        · obtain rfl := Option.some.inj h
          exact hBound
        · simp at h
    | wake t =>
        simp only [Executor.next] at h
        split at h
        · simp at h
        · obtain ⟨park, _, rfl⟩ := Option.map_eq_some_iff.mp h
          exact hBound
    | tick milliseconds =>
        obtain rfl := Option.some.inj h
        exact hBound

/-- There is room for a further unit exactly if the counter is below the number of
workers. -/
theorem Good.room_iff {W maxThreads : Nat} {s : State T} (good : Good W s) (hW : 0 < W)
    (reachable : (system T W maxThreads).Reachable s) : Room W s ↔ s.searching < W := by
  have hSum := (inv_reachable hW reachable).searching_add_free (staffed_reachable reachable)
    (shape_reachable reachable) good.live
  unfold Room
  omega

/-- The counter is within its bounds in every state of a run, below the number of
workers before each `fetch_add`, and no check of it has failed. -/
def Kept (W : Nat) (steps : List (State T × Event T)) (s : State T) : Prop :=
  Meets (fun s e => s.searching ≤ W ∧ (Adds s e → s.searching < W)) steps ∧ s.searching ≤ W ∧
    ∀ t, (s.threads t).pc.live

/-- The counter is good at the end of a run each of whose additions has found room. That
is asked of states only which are good themselves. -/
theorem good_of_run {W maxThreads : Nat} {steps : List (State T × Event T)} {s : State T}
    (hW : 0 < W) (run : (system T W maxThreads).Run steps s)
    (hAdds : ∀ first x second, steps = first ++ x :: second → Good W x.1 → Adds x.1 x.2 →
      x.1.searching < W) : Good W s := by
  induction run with
  | refl => exact ⟨fun _ => rfl, fun t n h => by simp [system, Pc.before] at h, Nat.zero_le _⟩
  | @step steps t u e prior last ih =>
      have good := ih fun first x second hEq => hAdds first x (second ++ [(t, e)]) (by simp [hEq])
      have reachable := System.Run.reachable prior
      exact good.next (inv_reachable hW reachable) (shape_reachable reachable)
        (flagCleared_reachable reachable e) hW (hAdds _ _ [] rfl good) last

/-- A run keeps the counter within its bounds exactly when each `fetch_add` finds
room: fewer units without a worker than workers without a unit. -/
theorem kept_iff_room (W maxThreads : Nat) (hW : 2 ≤ W) (steps : List (State T × Event T))
    (s : State T) (run : (system T W maxThreads).Run steps s) :
    Kept W steps s ↔ Meets (fun s e => Adds s e → Room W s) steps := by
  have hPos : 0 < W := by omega
  constructor
  · rintro ⟨hMeets, -⟩ x hMem adds
    obtain ⟨first, second, rfl⟩ := List.append_of_mem hMem
    obtain ⟨t, before, -⟩ := System.Path.split run
    have reachable := System.Run.reachable before
    have good := good_of_run hPos before fun first' y second' hEq _ =>
      (hMeets y (by simp [hEq])).2
    exact (good.room_iff hPos reachable).mpr ((hMeets x hMem).2 adds)
  · intro hMeets
    have hGood : ∀ first u, (system T W maxThreads).Run first u →
        Meets (fun s e => Adds s e → Room W s) first → Good W u := by
      intro first u prior hFirst
      refine good_of_run hPos prior fun first' y second' hEq good adds => ?_
      subst hEq
      obtain ⟨t, before, -⟩ := System.Path.split prior
      have reachable := System.Run.reachable before
      exact (good.room_iff hPos reachable).mp (hFirst y (by simp) adds)
    have good := hGood steps s run hMeets
    refine ⟨fun x hMem => ?_, good.bound, good.live⟩
    obtain ⟨first, second, rfl⟩ := List.append_of_mem hMem
    obtain ⟨t, before, -⟩ := System.Path.split run
    have reachable := System.Run.reachable before
    rw [meets_append] at hMeets
    have goodHere := hGood first x.1 before hMeets.1
    exact ⟨goodHere.bound, fun adds =>
      (goodHere.room_iff hPos reachable).mp (hMeets.2 x (by simp) adds)⟩

/-- With a second worker idle a call of `block_on` finds room. -/
theorem kept_iff_room_blockOn : ∃ steps s, (system (Fin 2) 2 4).Run steps s ∧
    s.searching = 1 ∧ Kept 2 steps s := by
  obtain ⟨s, run, hSearching⟩ := (system (Fin 2) 2 4).exists_run_of_replay
    [.blockOn 0, .step 0, .step 0, .step 0] State.searching 1 (by decide)
  exact ⟨_, s, run, hSearching, (kept_iff_room 2 4 (by decide) _ s run).mpr
    (fun x hx => (show ∀ x ∈ _, Adds x.1 x.2 → Room 2 x.1 by decide) x hx)⟩

/-- A thread outside is in `notify` with its unit while two calls of `block_on`,
past their look at the idle queue, take the two workers and a unit for each. -/
theorem thirdUnit_panics : ¬∀ W maxThreads, 2 ≤ W → ∀ steps s,
    (system (Fin 3) W maxThreads).Run steps s → Kept W steps s := by
  intro h
  obtain ⟨s, run, hs⟩ := (system (Fin 3) 2 4).exists_run_of_replay
    [.blockOn 1, .step 1, .blockOn 2, .step 2, .choose 0 .schedule, .step 0, .step 0, .step 0,
      .step 0, .step 0, .step 1, .step 1, .step 1, .step 2, .step 2, .step 2]
    (fun s => (s.searching, (s.threads 2).pc)) (3, .panicked (.retryAdded .entry 0 2)) (by decide)
  obtain ⟨-, hBound, -⟩ := h 2 4 le_rfl _ s run
  simp only [Prod.mk.injEq] at hs
  omega

end Yaar.Runtime.Executor
