import Mathlib.Data.Fintype.Basic
import Mathlib.Logic.Function.Basic
import Yaar.Machine.Execution

/-! `sync/internal/waker.rs`, one atomic operation or mutex acquire or release
at a time. A single thread polls and resets; any number of threads wake. -/
namespace Yaar

open Machine

/-- The fields of an `AtomicWaker`, the mutex around the stored waker left out.
`will_wake` compares wakers, so a waker is identified with the task it wakes. -/
structure AtomicWaker (W : Type*) where
  state : UInt8
  notified : Bool
  waker : Option W

namespace AtomicWaker

abbrev EMPTY : UInt8 := 0
abbrev UPDATING : UInt8 := 1
abbrev WAITING : UInt8 := 2
abbrev NOTIFIED : UInt8 := 3

@[simp] theorem states_distinct :
    EMPTY ≠ UPDATING ∧ EMPTY ≠ WAITING ∧ EMPTY ≠ NOTIFIED ∧
    UPDATING ≠ EMPTY ∧ UPDATING ≠ WAITING ∧ UPDATING ≠ NOTIFIED ∧
    WAITING ≠ EMPTY ∧ WAITING ≠ UPDATING ∧ WAITING ≠ NOTIFIED ∧
    NOTIFIED ≠ EMPTY ∧ NOTIFIED ≠ UPDATING ∧ NOTIFIED ≠ WAITING := by decide

/-- Who holds the mutex around the stored waker. -/
inductive Holder (T : Type*) where
  | poller
  | waker (t : T)
  deriving DecidableEq

/-- An `AtomicWaker` with its mutex, as threads `T` share it. -/
structure Cell (T W : Type*) extends AtomicWaker W where
  lock : Option (Holder T)

/-- The places where `poll` and `reset` can panic. -/
inductive Failure where
  | polledByMultipleThreads
  | invalidState
  | swapUpdating
  | tryLock
  | swapWaiting
  | resetUnnotified
  deriving DecidableEq

/-- Where the polling thread stands. `idle ready` is between two calls, and
`ready` records that the last call was a `Ready` poll not yet reset. -/
inductive Poller (W : Type*) where
  | idle (ready : Bool)
  | loadNotified (ctx : Option W)
  | loadState (ctx : Option W)
  | swapUpdating (w : W) (seen : UInt8)
  | tryLock (w : W)
  | store (w : W)
  | swapWaiting (w : W)
  | storeNotified
  | storeEmpty
  | resetLoad
  | resetStore
  | panicked (failure : Failure)
  deriving DecidableEq

/-- Where a thread stands in its call of `wake`. -/
inductive Waking (W : Type*) where
  | idle
  | update
  | lock
  | take
  | invoke (w : W)
  | panicked
  deriving DecidableEq

structure State (T W : Type*) where
  cell : Cell T W
  poller : Poller W
  wakers : T → Waking W

inductive Event (T W : Type*) where
  | poll (ctx : Option W)
  | reset
  | poller
  | wake (t : T)
  | waker (t : T)
  deriving DecidableEq

variable {T W : Type*}

/-- `AtomicWaker::new()`. -/
def new : AtomicWaker W where
  state := EMPTY
  notified := false
  waker := none

/-- The waker stored by a registration: one that would wake the same task is
left in place. -/
def stored [DecidableEq W] (waker : Option W) (w : W) : Option W :=
  let willWake := (waker.map fun old => decide (w = old)).getD false
  if willWake then waker else some w

theorem stored_eq [DecidableEq W] (waker : Option W) (w : W) : stored waker w = some w := by
  cases waker with
  | none => simp [stored]
  | some old => by_cases hEq : w = old <;> simp [stored, hEq]

/-- One atomic operation of `poll` or `reset`. -/
def pollerStep [DecidableEq W] (c : Cell T W) : Poller W → Option (Cell T W × Poller W)
  | .idle _ => none
  | .loadNotified ctx =>
      if c.notified then some (c, .idle true) else some (c, .loadState ctx)
  | .loadState ctx =>
      if c.state = EMPTY ∨ c.state = WAITING then
        match ctx with
        | none => some (c, .idle false)
        | some w => some (c, .swapUpdating w c.state)
      else if c.state = NOTIFIED then some (c, .storeNotified)
      else if c.state = UPDATING then some (c, .panicked .polledByMultipleThreads)
      else some (c, .panicked .invalidState)
  | .swapUpdating w seen =>
      if c.state = seen then some ({ c with state := UPDATING }, .tryLock w)
      else if c.state = NOTIFIED then some (c, .storeNotified)
      else some (c, .panicked .swapUpdating)
  | .tryLock w =>
      match c.lock with
      | none => some ({ c with lock := some .poller }, .store w)
      | some _ => some (c, .panicked .tryLock)
  | .store w =>
      some ({ c with waker := stored c.waker w, lock := none }, .swapWaiting w)
  | .swapWaiting _ =>
      if c.state = UPDATING then some ({ c with state := WAITING }, .idle false)
      else if c.state = NOTIFIED then some (c, .storeNotified)
      else some (c, .panicked .swapWaiting)
  | .storeNotified => some ({ c with notified := true }, .storeEmpty)
  | .storeEmpty => some ({ c with state := EMPTY }, .idle true)
  | .resetLoad =>
      if c.notified then some (c, .resetStore) else some (c, .panicked .resetUnnotified)
  | .resetStore => some ({ c with notified := false }, .idle false)
  | .panicked _ => none

/-- One atomic operation of `wake` by thread `t`. The stored waker is taken in
a second critical step, after the state has already left `WAITING`. -/
def wakerStep (c : Cell T W) (t : T) : Waking W → Option (Cell T W × Waking W)
  | .idle => none
  | .update =>
      if c.state = NOTIFIED then some (c, .idle)
      else if c.state = WAITING then some ({ c with state := NOTIFIED }, .lock)
      else if c.state = EMPTY ∨ c.state = UPDATING then
        some ({ c with state := NOTIFIED }, .idle)
      else some (c, .panicked)
  | .lock =>
      match c.lock with
      | none => some ({ c with lock := some (.waker t) }, .take)
      | some _ => none
  | .take =>
      let c' := { c with waker := none, lock := none }
      match c.waker with
      | none => some (c', .idle)
      | some w => some (c', .invoke w)
  | .invoke _ => some (c, .idle)
  | .panicked => none

/-! ## The state word against the polling thread -/

/-- Outside `poll`'s registration the state word is never `UPDATING`. -/
def Settled (state : UInt8) : Prop :=
  state = EMPTY ∨ state = WAITING ∨ state = NOTIFIED

/-- What the polling thread may rely on at each of its operations. The last
line says that no panic but the one of `try_lock` is possible. -/
def PollerFacts (c : Cell T W) : Poller W → Prop
  | .idle ready => Settled c.state ∧ (ready = true → c.notified = true)
  | .loadNotified _ | .loadState _ => Settled c.state
  | .swapUpdating _ seen =>
      (seen = EMPTY ∨ seen = WAITING) ∧ (c.state = seen ∨ c.state = NOTIFIED)
  | .tryLock _ | .store _ | .swapWaiting _ => c.state = UPDATING ∨ c.state = NOTIFIED
  | .storeNotified => c.state = NOTIFIED
  | .storeEmpty => c.state = NOTIFIED ∧ c.notified = true
  | .resetLoad | .resetStore => Settled c.state ∧ c.notified = true
  | .panicked failure => failure = .tryLock ∧ (c.state = UPDATING ∨ c.state = NOTIFIED)

theorem PollerFacts.valid {c : Cell T W} {p : Poller W} (h : PollerFacts c p) :
    c.state = EMPTY ∨ c.state = UPDATING ∨ c.state = WAITING ∨ c.state = NOTIFIED := by
  cases p <;> simp only [PollerFacts, Settled] at h <;> grind

/-- Any wake can only move the word to `NOTIFIED`, which every fact allows. -/
theorem PollerFacts.notify {c c' : Cell T W} {p : Poller W} (h : PollerFacts c p)
    (hState : c'.state = c.state ∨ c'.state = NOTIFIED) (hNotified : c'.notified = c.notified) :
    PollerFacts c' p := by
  rcases hState with hState | hState <;> cases p <;> simp_all [PollerFacts, Settled]

/-- A wake changes no other word, and the state only to `NOTIFIED`. -/
theorem wakerStep_state {c c' : Cell T W} {t : T} {p p' : Waking W}
    (h : wakerStep c t p = some (c', p')) :
    (c'.state = c.state ∨ c'.state = NOTIFIED) ∧ c'.notified = c.notified := by
  cases p <;> simp only [wakerStep] at h <;> grind

/-- A wake panics only in a state other than the four constants. -/
theorem wakerStep_no_panic {c c' : Cell T W} {t : T} {p p' : Waking W}
    (valid : c.state = EMPTY ∨ c.state = UPDATING ∨ c.state = WAITING ∨ c.state = NOTIFIED)
    (h : wakerStep c t p = some (c', p')) : p' ≠ .panicked := by
  cases p <;> simp only [wakerStep] at h <;> grind

/-- After an operation the polling thread still knows what it needs of the cell, unless
it has panicked. -/
theorem pollerStep_facts [DecidableEq W] {c c' : Cell T W} {p p' : Poller W} (facts : PollerFacts c p)
    (h : pollerStep c p = some (c', p')) : PollerFacts c' p' := by
  cases p with
  | idle ready => simp [pollerStep] at h
  | loadNotified ctx =>
      simp only [pollerStep] at h
      split at h <;> simp only [Option.some.injEq, Prod.mk.injEq] at h <;> obtain ⟨rfl, rfl⟩ := h
      · next hNotified => exact ⟨facts, fun _ => hNotified⟩
      · exact facts
  | loadState ctx =>
      simp only [pollerStep] at h
      rcases facts with hs | hs | hs <;> cases ctx <;> simp [hs] at h <;>
        obtain ⟨rfl, rfl⟩ := h <;> simp [PollerFacts, Settled, hs]
  | swapUpdating w seen =>
      obtain ⟨hSeen, hs | hs⟩ := facts
      · simp only [pollerStep, hs, if_true, Option.some.injEq, Prod.mk.injEq] at h
        obtain ⟨rfl, rfl⟩ := h
        exact Or.inl rfl
      · rcases hSeen with rfl | rfl <;> simp [pollerStep, hs] at h <;>
          obtain ⟨rfl, rfl⟩ := h <;> exact hs
  | tryLock w =>
      simp only [pollerStep] at h
      split at h <;> simp only [Option.some.injEq, Prod.mk.injEq] at h <;> obtain ⟨rfl, rfl⟩ := h
      · exact facts
      · exact ⟨rfl, facts⟩
  | store w =>
      simp only [pollerStep, Option.some.injEq, Prod.mk.injEq] at h
      obtain ⟨rfl, rfl⟩ := h
      exact facts
  | swapWaiting w =>
      rcases facts with hs | hs <;> simp [pollerStep, hs] at h <;> obtain ⟨rfl, rfl⟩ := h <;>
        simp [PollerFacts, Settled, hs]
  | storeNotified =>
      simp only [pollerStep, Option.some.injEq, Prod.mk.injEq] at h
      obtain ⟨rfl, rfl⟩ := h
      exact ⟨facts, rfl⟩
  | storeEmpty =>
      simp only [pollerStep, Option.some.injEq, Prod.mk.injEq] at h
      obtain ⟨rfl, rfl⟩ := h
      exact ⟨Or.inl rfl, fun _ => facts.2⟩
  | resetLoad =>
      simp only [pollerStep, facts.2, if_true, Option.some.injEq, Prod.mk.injEq] at h
      obtain ⟨rfl, rfl⟩ := h
      exact facts
  | resetStore =>
      simp only [pollerStep, Option.some.injEq, Prod.mk.injEq] at h
      obtain ⟨rfl, rfl⟩ := h
      exact ⟨facts.1, by simp⟩
  | panicked failure => simp [pollerStep] at h

/-- Besides the store of a registration, `poll` and `reset` leave the stored waker alone. -/
theorem pollerStep_waker [DecidableEq W] {c c' : Cell T W} {p p' : Poller W}
    (hStore : ∀ w, p ≠ .store w) (h : pollerStep c p = some (c', p')) : c'.waker = c.waker := by
  cases p <;> simp only [pollerStep] at h <;> grind

/-! ## The machine -/

variable [DecidableEq T] [DecidableEq W]

def next (s : State T W) : Event T W → Option (State T W)
  | .poll ctx =>
      match s.poller with
      | .idle _ => some { s with poller := .loadNotified ctx }
      | _ => none
  | .reset =>
      match s.poller with
      | .idle true => some { s with poller := .resetLoad }
      | _ => none
  | .poller =>
      (pollerStep s.cell s.poller).map fun r => { s with cell := r.1, poller := r.2 }
  | .wake t =>
      match s.wakers t with
      | .idle => some { s with wakers := Function.update s.wakers t .update }
      | _ => none
  | .waker t =>
      (wakerStep s.cell t (s.wakers t)).map fun r =>
        { s with cell := r.1, wakers := Function.update s.wakers t r.2 }

variable (T W) in
/-- `AtomicWaker::new()` with no call in progress. -/
def system : System (State T W) (Event T W) where
  initial :=
    { cell := { new with lock := none }
      poller := .idle false
      wakers := fun _ => .idle }
  next := next

/-! ## What one step can do -/

theorem next_poll {s t : State T W} {ctx : Option W}
    (h : next s (.poll ctx) = some t) :
    ∃ ready, s.poller = .idle ready ∧ t = { s with poller := .loadNotified ctx } := by
  simp only [next] at h
  split at h
  · next ready hp => exact ⟨ready, hp, by simpa using h.symm⟩
  · simp at h

theorem next_reset {s t : State T W} (h : next s .reset = some t) :
    s.poller = .idle true ∧ t = { s with poller := .resetLoad } := by
  simp only [next] at h
  split at h
  · next hp => exact ⟨hp, by simpa using h.symm⟩
  · simp at h

theorem next_poller {s t : State T W} (h : next s .poller = some t) :
    ∃ c p, pollerStep s.cell s.poller = some (c, p) ∧ t = { s with cell := c, poller := p } := by
  obtain ⟨⟨c, p⟩, hStep, rfl⟩ := Option.map_eq_some_iff.mp h
  exact ⟨c, p, hStep, rfl⟩

theorem next_wake {s s' : State T W} {t : T} (h : next s (.wake t) = some s') :
    s.wakers t = .idle ∧ s' = { s with wakers := Function.update s.wakers t .update } := by
  simp only [next] at h
  split at h
  · next hw => exact ⟨hw, by simpa using h.symm⟩
  · simp at h

theorem next_waker {s s' : State T W} {t : T} (h : next s (.waker t) = some s') :
    ∃ c p, wakerStep s.cell t (s.wakers t) = some (c, p) ∧
      s' = { s with cell := c, wakers := Function.update s.wakers t p } := by
  obtain ⟨⟨c, p⟩, hStep, rfl⟩ := Option.map_eq_some_iff.mp h
  exact ⟨c, p, hStep, rfl⟩

/-! ## The only panic -/

/-- The mutex is held exactly inside the two critical sections. -/
structure LockFacts (s : State T W) : Prop where
  poller : (∃ w, s.poller = .store w) ↔ s.cell.lock = some .poller
  wakers : ∀ t, s.wakers t = .take ↔ s.cell.lock = some (.waker t)

structure Protocol (s : State T W) : Prop where
  poller : PollerFacts s.cell s.poller
  wakers : ∀ t, s.wakers t ≠ .panicked
  lock : LockFacts s

/-- No call has panicked: `try_lock` succeeded, both assertions on the state
held, `reset` followed a `Ready`, and no unreachable branch was entered. -/
def NoPanic (s : State T W) : Prop :=
  (∀ failure, s.poller ≠ .panicked failure) ∧ ∀ t, s.wakers t ≠ .panicked

/-- When `poll` tries the lock, no wake is between its acquire and its release
of the stored waker. -/
def CellFree (s : State T W) : Event T W → Prop
  | .poller => ∀ w, s.poller = .tryLock w → ∀ t, s.wakers t ≠ .take
  | _ => True

/-- At the start the cell is empty and nobody is at work. -/
theorem protocol_initial : Protocol (system T W).initial where
  poller := ⟨Or.inl rfl, by simp⟩
  wakers := by simp [system]
  lock := ⟨by simp [system], by simp [system]⟩

omit [DecidableEq T] in
theorem pollerStep_lock {s : State T W} {c : Cell T W} {p : Poller W} (lock : LockFacts s)
    (h : pollerStep s.cell s.poller = some (c, p)) :
    LockFacts { s with cell := c, poller := p } := by
  obtain ⟨hPoller, hWakers⟩ := lock
  cases hp : s.poller <;> simp only [hp, pollerStep] at h hPoller <;>
    constructor <;> grind

omit [DecidableEq W] in
/-- A wake takes the lock where it is free, and only from the state `WAITING`. -/
theorem wakerStep_lock {s : State T W} {t : T} {c : Cell T W} {p : Waking W}
    (lock : LockFacts s) (h : wakerStep s.cell t (s.wakers t) = some (c, p)) :
    LockFacts { s with cell := c, wakers := Function.update s.wakers t p } := by
  obtain ⟨hPoller, hWakers⟩ := lock
  have hSelf := hWakers t
  cases hp : s.wakers t <;> simp only [hp, wakerStep] at h hSelf <;>
    constructor <;> simp only [Function.update_apply] <;> grind

/-- Every step keeps the protocol, whoever takes it. The operations of the others leave
what a thread knows true. -/
theorem protocol_step {s s' : State T W} {e : Event T W} (inv : Protocol s)
    (h : next s e = some s') : Protocol s' := by
  obtain ⟨poller, wakers, lock⟩ := inv
  cases e with
  | poll ctx =>
      obtain ⟨ready, hp, rfl⟩ := next_poll h
      rw [hp] at poller
      exact ⟨poller.1, wakers, ⟨by simpa [hp] using lock.poller, lock.wakers⟩⟩
  | reset =>
      obtain ⟨hp, rfl⟩ := next_reset h
      rw [hp] at poller
      exact ⟨⟨poller.1, poller.2 rfl⟩, wakers, ⟨by simpa [hp] using lock.poller, lock.wakers⟩⟩
  | poller =>
      obtain ⟨c, p, hStep, rfl⟩ := next_poller h
      exact ⟨pollerStep_facts poller hStep, wakers, pollerStep_lock lock hStep⟩
  | wake t =>
      obtain ⟨hw, rfl⟩ := next_wake h
      refine ⟨poller, fun u => ?_, ⟨lock.poller, fun u => ?_⟩⟩
      · by_cases hu : u = t <;> simp [hu, wakers]
      · have hLock := lock.wakers u
        by_cases hu : u = t <;> simp_all
  | waker t =>
      obtain ⟨c, p, hStep, rfl⟩ := next_waker h
      obtain ⟨hState, hNotified⟩ := wakerStep_state hStep
      refine ⟨poller.notify hState hNotified, fun u => ?_, wakerStep_lock lock hStep⟩
      by_cases hu : u = t
      · simpa [hu] using wakerStep_no_panic poller.valid hStep
      · simpa [hu] using wakers u

/-- So the protocol holds in every reachable state, for any number of wakes at once. -/
theorem reachable_protocol {s : State T W} (h : (system T W).Reachable s) : Protocol s :=
  h.keeps protocol_initial fun _ _ _ => protocol_step

/-- With the stored waker free, `try_lock` succeeds. -/
theorem tryLock_of_cellFree {s s' : State T W} (inv : Protocol s) (free : CellFree s .poller)
    (h : next s .poller = some s') (w : W) (hp : s.poller = .tryLock w) :
    s'.poller = .store w := by
  obtain ⟨c, p, hStep, rfl⟩ := next_poller h
  have hLock : s.cell.lock = none := by
    cases hHolder : s.cell.lock with
    | none => rfl
    | some holder =>
        cases holder with
        | poller =>
            obtain ⟨w', hw'⟩ := inv.lock.poller.mpr hHolder
            simp [hp] at hw'
        | waker t => exact (free w hp t ((inv.lock.wakers t).mpr hHolder)).elim
  simp only [hp, pollerStep, hLock, Option.some.injEq, Prod.mk.injEq] at hStep
  exact hStep.2.symm

/-- A wake inside its critical section makes `try_lock` fail. -/
theorem panicked_of_not_cellFree {s s' : State T W} {e : Event T W} (inv : Protocol s)
    (held : ¬CellFree s e) (h : next s e = some s') : s'.poller = .panicked .tryLock := by
  cases e with
  | poller =>
      obtain ⟨c, p, hStep, rfl⟩ := next_poller h
      simp only [CellFree, not_forall, not_not] at held
      obtain ⟨w, hp, t, hTake⟩ := held
      have hLock := (inv.lock.wakers t).mp hTake
      simp only [hp, pollerStep, hLock, Option.some.injEq, Prod.mk.injEq] at hStep
      exact hStep.2.symm
  | _ => exact (held trivial).elim

/-- A panicked poller takes no further step, so a panic stays visible. -/
theorem panicked_stays {s s' : State T W} {e : Event T W} {failure : Failure}
    (hp : s.poller = .panicked failure) (h : next s e = some s') :
    s'.poller = .panicked failure := by
  cases e with
  | poll ctx => simp [next, hp] at h
  | reset => simp [next, hp] at h
  | poller => simp [next, hp, pollerStep] at h
  | wake t =>
      obtain ⟨_, rfl⟩ := next_wake h
      exact hp
  | waker t =>
      obtain ⟨_, _, _, rfl⟩ := next_waker h
      exact hp

/-- Only `try_lock` can fail, so a step with the cell free keeps `NoPanic`. -/
theorem noPanic_step {s s' : State T W} {e : Event T W} (inv : Protocol s) (ok : NoPanic s)
    (free : CellFree s e) (h : next s e = some s') : NoPanic s' := by
  have inv' := protocol_step inv h
  refine ⟨fun failure hFailure => ?_, inv'.wakers⟩
  have hOnly : failure = .tryLock := by
    have hFacts := inv'.poller
    rw [hFailure] at hFacts
    exact hFacts.1
  subst hOnly
  cases e with
  | poll ctx =>
      obtain ⟨_, _, rfl⟩ := next_poll h
      simp at hFailure
  | reset =>
      obtain ⟨_, rfl⟩ := next_reset h
      simp at hFailure
  | poller =>
      -- The pc before the step is `tryLock`: no other operation panics so.
      obtain ⟨c, p, hStep, rfl⟩ := next_poller h
      have hFrom : ∃ w, s.poller = .tryLock w := by
        cases hp : s.poller <;> simp only [hp, pollerStep] at hStep <;> grind
      obtain ⟨w, hp⟩ := hFrom
      have hStore := tryLock_of_cellFree inv free h w hp
      exact absurd (hFailure.symm.trans hStore) (by simp)
  | wake t =>
      obtain ⟨_, rfl⟩ := next_wake h
      exact ok.1 _ hFailure
  | waker t =>
      obtain ⟨_, _, _, rfl⟩ := next_waker h
      exact ok.1 _ hFailure

/-- A run panics exactly when one of its `try_lock`s meets a wake that is
taking the stored waker. No assertion, unreachable branch or unwrap fails in
any other way. -/
theorem noPanic_iff_cellFree {steps : List (State T W × Event T W)} {s : State T W}
    (run : (system T W).Run steps s) : NoPanic s ↔ Meets CellFree steps := by
  induction run with
  | refl => simp [NoPanic, system]
  | @step steps s s' e prior last ih =>
      have inv := reachable_protocol (System.Run.reachable prior)
      rw [meets_append, meets_singleton, ← ih]
      constructor
      · intro ok
        refine ⟨⟨fun failure hp => ok.1 failure (panicked_stays hp last), inv.wakers⟩, ?_⟩
        by_contra held
        exact ok.1 _ (panicked_of_not_cellFree inv held last)
      · rintro ⟨ok, free⟩
        exact noPanic_step inv ok free last

/-- A `Pending` poll, a wake that leaves `WAITING` but has not yet taken the
stored waker, the `Ready` poll and reset it causes, and a second poll up to its
`try_lock`. -/
def staleWake : List (Event Unit Unit) :=
  [.poll (some ()), .poller, .poller, .poller, .poller, .poller, .poller,
    .wake (), .waker (),
    .poll (some ()), .poller, .poller, .poller, .poller,
    .reset, .poller, .poller,
    .poll (some ()), .poller, .poller, .poller]

/-- The condition and its consequence on a run that stops before the wake
takes the lock, where the poll goes on undisturbed. -/
theorem noPanic_iff_cellFree_staleWake :
    ∃ steps s, (system Unit Unit).Run steps s ∧ NoPanic s ∧ Meets CellFree steps := by
  obtain ⟨s, run, hs⟩ := (system Unit Unit).exists_run_of_replay
    (staleWake ++ [.poller]) (fun s => (s.poller, s.wakers ())) (.store (), .lock) (by decide)
  have hNoPanic : NoPanic s := by
    simp only [Prod.mk.injEq] at hs
    simp [NoPanic, hs.1, hs.2]
  exact ⟨_, s, run, hNoPanic, (noPanic_iff_cellFree run).mp hNoPanic⟩

/-- The wake left over from before the reset enters its critical section just
before the next poll's `try_lock`, which then unwraps a `None`. -/
theorem staleWake_panics :
    ¬∀ steps s, (system Unit Unit).Run steps s → NoPanic s := by
  intro h
  obtain ⟨s, run, hs⟩ := (system Unit Unit).exists_run_of_replay
    (staleWake ++ [.waker (), .poller]) State.poller (.panicked .tryLock) (by decide)
  exact (h _ s run).1 .tryLock hs

end AtomicWaker
end Yaar
