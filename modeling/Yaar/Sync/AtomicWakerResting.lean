import Yaar.Sync.AtomicWaker

/-! An `AtomicWaker` that any number of threads wake, polled by a task that rests once a
poll is pending, until its waker has been called. -/
namespace Yaar.AtomicWaker

variable {U W : Type*}

/-- What the task of a waker relies on at an operation of its call. -/
def Poller.Holds (c : Cell U W) (w : W) : Poller W → Prop
  | .loadNotified ctx | .loadState ctx => ctx = some w ∧ c.lock = none
  | .swapUpdating v _ | .tryLock v => v = w ∧ c.lock = none
  | .store v => v = w ∧ c.lock = some .poller
  | .swapWaiting v => v = w ∧ c.lock = none ∧ c.waker = some w
  | _ => c.lock = none

/-- The wakes that have begun are before their update. -/
def Early (wakes : U → Option (Waking W)) : Prop := ∀ u at_, wakes u = some at_ → at_ = .update

/-- The task is in its call, or calls again of its own accord. -/
structure Awake (c : Cell U W) (w : W) (at_ : Poller W) (wakes : U → Option (Waking W)) : Prop where
  state : c.state ≠ WAITING
  early : Early wakes
  holds : at_.Holds c w

/-- A wake has taken the state from a task that rests. -/
def Waking.Takes (c : Cell U W) (w : W) (u : U) : Waking W → Prop
  | .lock => c.lock = none ∧ c.waker = some w
  | .take => c.lock = some (.waker u) ∧ c.waker = some w
  | .invoke v => v = w ∧ c.lock = none
  | _ => False

/-- The task rests, and one wake at most is about to call its waker. -/
inductive Resting (c : Cell U W) (w : W) (wakes : U → Option (Waking W)) : Prop where
  | waiting (state : c.state = WAITING) (unread : c.notified = false) (waker : c.waker = some w)
      (lock : c.lock = none) (early : Early wakes)
  | taken (u : U) (at_ : Waking W) (state : c.state = NOTIFIED) (taker : wakes u = some at_)
      (takes : at_.Takes c w u) (others : ∀ v at_, v ≠ u → wakes v = some at_ → at_ = .update)

variable {c c' : Cell U W} {w : W} {wakes : U → Option (Waking W)} {u : U} {a a' : Waking W}
  {at_ at_' : Poller W}

theorem wakerStep_update_some (c : Cell U W) (u : U) : ∃ r, wakerStep c u .update = some r := by
  by_cases hNot : c.state = NOTIFIED
  · exact ⟨_, if_pos hNot⟩
  · by_cases hWait : c.state = WAITING
    · exact ⟨_, by rw [wakerStep, if_neg hNot, if_pos hWait]⟩
    · by_cases hOpen : c.state = EMPTY ∨ c.state = UPDATING
      · exact ⟨_, by rw [wakerStep, if_neg hNot, if_neg hWait, if_pos hOpen]⟩
      · exact ⟨_, by rw [wakerStep, if_neg hNot, if_neg hWait, if_neg hOpen]⟩

/-- No wake waits for the lock. -/
theorem Resting.enabled (resting : Resting c w wakes) (hWake : wakes u = some a) :
    ∃ r, wakerStep c u a = some r := by
  cases resting with
  | waiting state unread waker lock early =>
      obtain rfl := early u a hWake
      exact wakerStep_update_some c u
  | taken v at_ state taker takes others =>
      by_cases hEq : u = v
      · subst hEq
        obtain rfl := Option.some.inj (taker.symm.trans hWake)
        cases at_ with
        | lock => exact ⟨_, by rw [wakerStep, takes.1]⟩
        | take => exact ⟨_, by rw [wakerStep, takes.2]⟩
        | invoke v => exact ⟨_, rfl⟩
        | idle | update | panicked => exact takes.elim
      · obtain rfl := others u a hEq hWake
        exact wakerStep_update_some c u

theorem Awake.enabled (awake : Awake c w at_ wakes) (hWake : wakes u = some a) :
    ∃ r, wakerStep c u a = some r := by
  obtain rfl := awake.early u a hWake
  exact wakerStep_update_some c u

section Wakes

variable [DecidableEq U]

theorem Early.advance {next : Option (Waking W)} (early : Early wakes)
    (h : ∀ at_, next = some at_ → at_ = .update) : Early (Function.update wakes u next) := by
  intro v at_ hv
  by_cases hEq : v = u
  · subst hEq
    rw [Function.update_self] at hv
    exact h at_ hv
  · rw [Function.update_of_ne hEq] at hv
    exact early v at_ hv

/-! ## A wake begins -/

theorem Awake.begin (awake : Awake c w at_ wakes) :
    Awake c w at_ (Function.update wakes u (some .update)) :=
  ⟨awake.state, awake.early.advance (by simp), awake.holds⟩

theorem Resting.begin (resting : Resting c w wakes) (hNone : wakes u = none) :
    Resting c w (Function.update wakes u (some .update)) := by
  cases resting with
  | waiting state unread waker lock early =>
      exact .waiting state unread waker lock (early.advance (by simp))
  | taken v a state taker takes others =>
      have hNe : v ≠ u := by
        rintro rfl
        simp [hNone] at taker
      refine .taken v a state (by rwa [Function.update_of_ne hNe]) takes fun v' at_ hv' hWake => ?_
      by_cases hEq : v' = u
      · subst hEq
        rw [Function.update_self] at hWake
        exact (Option.some.inj hWake).symm
      · rw [Function.update_of_ne hEq] at hWake
        exact others v' at_ hv' hWake

/-! ## A wake goes on -/

/-- A wake of a task that does not rest is recorded in the state. -/
theorem Awake.wake (awake : Awake c w at_ wakes)
    (valid : c.state = EMPTY ∨ c.state = UPDATING ∨ c.state = WAITING ∨ c.state = NOTIFIED)
    (hWake : wakes u = some a) (h : wakerStep c u a = some (c', a')) :
    a = .update ∧ a' = .idle ∧ c'.state = NOTIFIED ∧ Awake c' w at_ (Function.update wakes u none) := by
  obtain rfl := awake.early u a hWake
  have early' : Early (Function.update wakes u none) := awake.early.advance (by simp)
  by_cases hNot : c.state = NOTIFIED
  · rw [wakerStep, if_pos hNot] at h
    obtain ⟨rfl, rfl⟩ := Prod.mk.inj (Option.some.inj h)
    exact ⟨rfl, rfl, hNot, awake.state, early', awake.holds⟩
  · have hOpen : c.state = EMPTY ∨ c.state = UPDATING := by
      rcases valid with hState | hState | hState | hState
      · exact .inl hState
      · exact .inr hState
      · exact absurd hState awake.state
      · exact absurd hState hNot
    rw [wakerStep, if_neg hNot, if_neg awake.state, if_pos hOpen] at h
    obtain ⟨rfl, rfl⟩ := Prod.mk.inj (Option.some.inj h)
    refine ⟨rfl, rfl, rfl, by simp, early', ?_⟩
    have holds := awake.holds
    cases at_ <;> exact holds

/-- What an operation of a wake comes to for a task that rests: its waker is called, or it
still rests and the state has been taken from it. -/
inductive Rouses (c c' : Cell U W) (w : W) (wakes : U → Option (Waking W)) (a : Waking W) (u : U)
    [DecidableEq U] [DecidableEq W] : Waking W → Prop where
  | invoked (operation : a = .invoke w) (cell : c' = c) (state : c.state = NOTIFIED)
      (awake : Awake c w (.idle false) (Function.update wakes u none)) : Rouses c c' w wakes a u .idle
  | resting (a' : Waking W) (operation : ∀ v, a ≠ .invoke v) (state : c'.state = NOTIFIED)
      (resting : Resting c' w (Function.update wakes u (if a' = .idle then none else some a'))) :
      Rouses c c' w wakes a u a'

/-- An operation of a wake either calls the waker of the task that rests, or leaves it
resting with one wake closer to that. -/
theorem Resting.wake [DecidableEq W] (resting : Resting c w wakes) (hWake : wakes u = some a)
    (h : wakerStep c u a = some (c', a')) : Rouses c c' w wakes a u a' := by
  cases resting with
  | waiting state unread waker lock early =>
      obtain rfl := early u a hWake
      rw [wakerStep, if_neg (by simp [state]), if_pos state] at h
      obtain ⟨rfl, rfl⟩ := Prod.mk.inj (Option.some.inj h)
      refine .resting _ (by simp) rfl (.taken u .lock rfl (by simp) ⟨lock, waker⟩ fun v at_ hv hv' => ?_)
      rw [Function.update_of_ne hv] at hv'
      exact early v at_ hv'
  | taken v at_ state taker takes others =>
      by_cases hEq : u = v
      · subst hEq
        obtain rfl := Option.some.inj (taker.symm.trans hWake)
        have hStay (next : Option (Waking W)) (v : U) (at_ : Waking W) (hv : v ≠ u)
            (hWake' : Function.update wakes u next v = some at_) : at_ = .update := by
          rw [Function.update_of_ne hv] at hWake'
          exact others v at_ hv hWake'
        cases at_ with
        | lock =>
            rw [wakerStep, takes.1] at h
            obtain ⟨rfl, rfl⟩ := Prod.mk.inj (Option.some.inj h)
            exact .resting _ (by simp) state
              (.taken u .take state (by simp) ⟨rfl, takes.2⟩ (hStay _))
        | take =>
            rw [wakerStep, takes.2] at h
            obtain ⟨rfl, rfl⟩ := Prod.mk.inj (Option.some.inj h)
            exact .resting _ (by simp) state (.taken u (.invoke w) state (by simp) ⟨rfl, rfl⟩ (hStay _))
        | invoke v =>
            obtain ⟨rfl, hLock⟩ := takes
            obtain ⟨rfl, rfl⟩ := Prod.mk.inj (Option.some.inj h)
            refine .invoked rfl rfl state ⟨by simp [state], fun v' at_ hv' => ?_, hLock⟩
            by_cases hEq : v' = u
            · subst hEq
              simp at hv'
            · exact hStay none v' at_ hEq hv'
        | idle | update | panicked => exact takes.elim
      · obtain rfl := others u a hEq hWake
        rw [wakerStep, if_pos state] at h
        obtain ⟨rfl, rfl⟩ := Prod.mk.inj (Option.some.inj h)
        refine .resting _ (by simp) state
          (.taken v at_ state (by rwa [Function.update_of_ne (Ne.symm hEq)]) takes fun v' at_ hv' hv'' => ?_)
        by_cases hEq' : v' = u
        · subst hEq'
          simp at hv''
        · rw [Function.update_of_ne hEq'] at hv''
          exact others v' at_ hv' hv''

end Wakes

/-! ## An operation of the task's call -/

/-- A call that gets `Pending` at its registration leaves the task at rest. -/
theorem Awake.poll [DecidableEq W] (awake : Awake c w at_ wakes) (facts : PollerFacts c at_)
    (hUnread : ∀ v, at_ = .swapWaiting v → c.notified = false)
    (h : pollerStep c at_ = some (c', at_')) :
    at_ = .swapWaiting w ∧ at_' = .idle false ∧ Resting c' w wakes ∨
      (at_' = .idle false → at_ = .resetStore) ∧ Awake c' w at_' wakes := by
  obtain ⟨hState, early, holds⟩ := awake
  cases at_ with
  | idle ready | panicked failure => simp [pollerStep] at h
  | loadNotified ctx =>
      obtain ⟨rfl, hLock⟩ := holds
      rw [pollerStep] at h
      split at h <;> obtain ⟨rfl, rfl⟩ := Prod.mk.inj (Option.some.inj h)
      · exact .inr ⟨by simp, hState, early, hLock⟩
      · exact .inr ⟨by simp, hState, early, rfl, hLock⟩
  | loadState ctx =>
      obtain ⟨rfl, hLock⟩ := holds
      rcases facts with hs | hs | hs
      · simp only [pollerStep, hs, true_or, if_true] at h
        obtain ⟨rfl, rfl⟩ := Prod.mk.inj (Option.some.inj h)
        exact .inr ⟨by simp, hState, early, rfl, hLock⟩
      · exact absurd hs hState
      · simp [pollerStep, hs] at h
        obtain ⟨rfl, rfl⟩ := h
        exact .inr ⟨by simp, hState, early, hLock⟩
  | swapUpdating v seen =>
      obtain ⟨rfl, hLock⟩ := holds
      obtain ⟨hSeen, hs | hs⟩ := facts
      · rw [pollerStep, if_pos hs] at h
        obtain ⟨rfl, rfl⟩ := Prod.mk.inj (Option.some.inj h)
        exact .inr ⟨by simp, by simp, early, rfl, hLock⟩
      · have hNe : ¬c.state = seen := by rcases hSeen with rfl | rfl <;> simp [hs]
        rw [pollerStep, if_neg hNe, if_pos hs] at h
        obtain ⟨rfl, rfl⟩ := Prod.mk.inj (Option.some.inj h)
        exact .inr ⟨by simp, hState, early, hLock⟩
  | tryLock v =>
      obtain ⟨rfl, hLock⟩ := holds
      simp only [pollerStep, hLock] at h
      obtain ⟨rfl, rfl⟩ := Prod.mk.inj (Option.some.inj h)
      exact .inr ⟨by simp, hState, early, rfl, rfl⟩
  | store v =>
      obtain ⟨rfl, hLock⟩ := holds
      obtain ⟨rfl, rfl⟩ := Prod.mk.inj (Option.some.inj h)
      exact .inr ⟨by simp, hState, early, rfl, rfl, stored_eq c.waker v⟩
  | swapWaiting v =>
      obtain ⟨rfl, hLock, hWaker⟩ := holds
      rcases facts with hs | hs
      · rw [pollerStep, if_pos hs] at h
        obtain ⟨rfl, rfl⟩ := Prod.mk.inj (Option.some.inj h)
        exact .inl ⟨rfl, rfl, .waiting rfl (hUnread v rfl) hWaker hLock early⟩
      · rw [pollerStep, if_neg (by simp [hs]), if_pos hs] at h
        obtain ⟨rfl, rfl⟩ := Prod.mk.inj (Option.some.inj h)
        exact .inr ⟨by simp, hState, early, hLock⟩
  | storeNotified =>
      obtain ⟨rfl, rfl⟩ := Prod.mk.inj (Option.some.inj h)
      exact .inr ⟨by simp, hState, early, holds⟩
  | resetStore =>
      obtain ⟨rfl, rfl⟩ := Prod.mk.inj (Option.some.inj h)
      exact .inr ⟨fun _ => rfl, hState, early, holds⟩
  | storeEmpty =>
      obtain ⟨rfl, rfl⟩ := Prod.mk.inj (Option.some.inj h)
      exact .inr ⟨by simp, by simp, early, holds⟩
  | resetLoad =>
      rw [pollerStep, if_pos facts.2] at h
      obtain ⟨rfl, rfl⟩ := Prod.mk.inj (Option.some.inj h)
      exact .inr ⟨by simp, hState, early, holds⟩

/-- The polls to come find a wake that has been recorded. A flag that is about to be reset
does not count. -/
def Cell.Hears (c : Cell U W) (at_ : Poller W) : Prop :=
  c.state = NOTIFIED ∨ c.notified = true ∧ at_ ≠ .resetLoad ∧ at_ ≠ .resetStore

theorem Cell.Hears.elsewhere (hears : c.Hears at_) (h : at_' ≠ .resetLoad ∧ at_' ≠ .resetStore) :
    c.Hears at_' :=
  hears.imp_right fun hFlag => ⟨hFlag.1, h⟩

/-- An operation of `poll` does not lose a wake that has been recorded. It moves the
record from the state to the flag at the most. -/
theorem Cell.Hears.poll [DecidableEq W] (hears : c.Hears at_) (facts : PollerFacts c at_)
    (h : pollerStep c at_ = some (c', at_')) : c'.Hears at_' := by
  cases at_ <;> simp only [pollerStep, PollerFacts, Cell.Hears] at h facts hears ⊢ <;> grind

/-! ## What is left to do -/

/-- The operations of `poll` that are ahead. -/
def Poller.left : Poller W → Nat
  | .loadNotified _ => 8
  | .loadState _ => 7
  | .swapUpdating _ _ => 6
  | .tryLock _ => 5
  | .store _ => 4
  | .swapWaiting _ => 3
  | .storeNotified => 2
  | .storeEmpty => 1
  | _ => 0

/-- The turns that a poll finds `Ready` for what is recorded. At its last operation the
record is in two places. -/
def Cell.credit (c : Cell U W) (at_ : Poller W) : Nat :=
  (if c.state = NOTIFIED then 1 else 0) +
    match at_ with
    | .storeEmpty => 0
    | _ => if c.notified then 1 else 0

/-- An operation of `poll` records nothing new. -/
theorem pollerStep_left [DecidableEq W] (facts : PollerFacts c at_) (hLeft : 0 < at_.left)
    (h : pollerStep c at_ = some (c', at_')) :
    at_'.left < at_.left ∧ c'.credit at_' ≤ c.credit at_ := by
  cases at_ <;> simp only [pollerStep, PollerFacts, Poller.left, lt_irrefl] at h facts hLeft <;>
    grind [Poller.left, Cell.credit]

end Yaar.AtomicWaker
