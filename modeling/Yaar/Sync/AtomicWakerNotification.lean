import Yaar.Sync.AtomicWaker

/-! What the calls of one `AtomicWaker` owe each other across a whole run. The
calls are read off the steps; nothing is added to the shared state. -/
namespace Yaar.AtomicWaker

open Machine

variable {T W : Type*} [DecidableEq T] [DecidableEq W]

/-- A step of a run together with the state it was taken in. -/
abbrev Step (T W : Type*) := State T W × Event T W

def BeginsPoll (x : Step T W) : Prop := ∃ ctx, x.2 = .poll ctx

/-- `poll` leaves `w` in the cell and gives the cell back. -/
def Registers (w : W) (x : Step T W) : Prop := x.2 = .poller ∧ x.1.poller = .store w

/-- `poll(Some(w))` takes the state from `UPDATING` to `WAITING` and returns. -/
def ReturnsPendingFor (w : W) (x : Step T W) : Prop :=
  x.2 = .poller ∧ x.1.poller = .swapWaiting w ∧ x.1.cell.state = UPDATING

/-- `poll` returns `Pending`, with or without a waker to register. -/
def ReturnsPending (x : Step T W) : Prop :=
  (∃ w, ReturnsPendingFor w x) ∨
    x.2 = .poller ∧ x.1.poller = .loadState none ∧
      (x.1.cell.state = EMPTY ∨ x.1.cell.state = WAITING)

def StoresEmpty (x : Step T W) : Prop := x.2 = .poller ∧ x.1.poller = .storeEmpty

/-- `poll` returns `Ready`, from the sticky flag or after clearing the state. -/
def ReturnsReady (x : Step T W) : Prop :=
  StoresEmpty x ∨
    x.2 = .poller ∧ (∃ ctx, x.1.poller = .loadNotified ctx) ∧ x.1.cell.notified = true

def Resets (x : Step T W) : Prop := x.2 = .poller ∧ x.1.poller = .resetStore

/-- The state update of a `wake` by thread `t`. -/
def Updates (t : T) (x : Step T W) : Prop := x.2 = .waker t ∧ x.1.wakers t = .update

/-- A state update that finds the state not yet `NOTIFIED`. -/
def TakesEffect (x : Step T W) : Prop := ∃ t, Updates t x ∧ x.1.cell.state ≠ NOTIFIED

def Invokes (w : W) (x : Step T W) : Prop := ∃ t, x.2 = .waker t ∧ x.1.wakers t = .invoke w

/-- The `wake` call of thread `t` returns. -/
def WakeReturns (t : T) (x : Step T W) : Prop :=
  x.2 = .waker t ∧
    (x.1.wakers t = .update ∧ x.1.cell.state ≠ WAITING ∨
      x.1.wakers t = .take ∧ x.1.cell.waker = none ∨ ∃ w, x.1.wakers t = .invoke w)

/-- Every wake call in progress at the step `upd` returns in `upd` or later. -/
def WakesFinish (upd : Step T W) (rest : List (Step T W)) : Prop :=
  ∀ u, upd.1.wakers u ≠ .idle → ∃ x ∈ upd :: rest, WakeReturns u x

/-! ## The state stays `NOTIFIED` until a `Ready` clears it -/

/-- A state that is `NOTIFIED` stays so until a poll stores `EMPTY`. -/
theorem next_notified {s s' : State T W} {e : Event T W} (inv : Protocol s)
    (h : next s e = some s') (hState : s.cell.state = NOTIFIED)
    (hStore : ¬StoresEmpty (s, e)) : s'.cell.state = NOTIFIED := by
  cases e with
  | poll ctx =>
      obtain ⟨_, _, rfl⟩ := next_poll h
      exact hState
  | reset =>
      obtain ⟨_, rfl⟩ := next_reset h
      exact hState
  | wake t =>
      obtain ⟨_, rfl⟩ := next_wake h
      exact hState
  | waker t =>
      obtain ⟨c, p, hStep, rfl⟩ := next_waker h
      rcases (wakerStep_state hStep).1 with hc | hc
      · exact hc.trans hState
      · exact hc
  | poller =>
      obtain ⟨c, p, hStep, rfl⟩ := next_poller h
      have hPc : s.poller ≠ .storeEmpty := fun hp => hStore ⟨rfl, hp⟩
      have hFacts := inv.poller
      cases hp : s.poller <;> simp only [hp, pollerStep, PollerFacts] at hStep hFacts <;> grind

/-- The same along a run: only the store of a poll that returns `Ready` clears the
state. -/
theorem path_notified {s s' : State T W} {steps : List (Step T W)}
    (hs : (system T W).Reachable s) (path : (system T W).Path s steps s')
    (hState : s.cell.state = NOTIFIED) (hStore : ∀ x ∈ steps, ¬StoresEmpty x) :
    s'.cell.state = NOTIFIED :=
  path.keeps (fun u e => ¬StoresEmpty (u, e)) Protocol hStore
    (fun _ _ first _ => reachable_protocol (hs.path first)) hState
    fun _ _ _ inv hu hx hNext => next_notified inv hNext hu hx

omit [DecidableEq T] [DecidableEq W] in
theorem not_pending_of_notified {x : Step T W} (hState : x.1.cell.state = NOTIFIED) :
    ¬ReturnsPending x := by
  rintro (⟨w, -, -, hx⟩ | ⟨-, -, hx⟩) <;> rw [hState] at hx <;> exact absurd hx (by decide)

/-- Until a `Ready` clears the state, no poll returns `Pending`. -/
theorem path_not_pending {s s' : State T W} {steps : List (Step T W)}
    (hs : (system T W).Reachable s) (path : (system T W).Path s steps s')
    (hState : s.cell.state = NOTIFIED) (hStore : ∀ x ∈ steps, ¬StoresEmpty x) :
    ∀ x ∈ steps, ¬ReturnsPending x := by
  intro x hx
  obtain ⟨first, second, rfl⟩ := List.append_of_mem hx
  obtain ⟨t, hFirst, -, -⟩ := path.split
  exact not_pending_of_notified
    (path_notified hs hFirst hState fun y hy => hStore y (List.mem_append_left _ hy))

/-- Whatever the state was before, the update of a wake leaves it `NOTIFIED`. -/
theorem notified_of_updates {s s' : State T W} {t : T} {e : Event T W}
    (hUpdate : Updates t (s, e)) (h : next s e = some s') (inv : Protocol s) :
    s'.cell.state = NOTIFIED := by
  obtain ⟨rfl, hw⟩ := hUpdate
  obtain ⟨c, p, hStep, rfl⟩ := next_waker h
  have hValid := inv.poller.valid
  simp only at hw
  simp only [hw, wakerStep] at hStep
  grind

/-- A wake is remembered until a `Ready` returns: the state stays `NOTIFIED`
and no poll returns `Pending` in the meantime. -/
theorem update_recorded {before after : List (Step T W)} {upd : Step T W} {s : State T W} {t : T}
    (run : (system T W).Run (before ++ upd :: after) s) (hUpdate : Updates t upd)
    (hReady : ∀ x ∈ after, ¬ReturnsReady x) :
    s.cell.state = NOTIFIED ∧ ∀ x ∈ after, ¬ReturnsPending x := by
  obtain ⟨s₁, hBefore, hNext, hAfter⟩ := System.Path.split run
  have hUpd : (system T W).Reachable upd.1 := ⟨_, hBefore⟩
  have hState := notified_of_updates hUpdate hNext (reachable_protocol hUpd)
  have hStore : ∀ x ∈ after, ¬StoresEmpty x := fun x hx h => hReady x hx (Or.inl h)
  exact ⟨path_notified (hUpd.next hNext) hAfter hState hStore,
    path_not_pending (hUpd.next hNext) hAfter hState hStore⟩

/-- A poll that returns after the update, with no `Ready` in between, does not
return `Pending`. -/
theorem not_pending_of_update (before between : List (Step T W)) {rest : List (Step T W)}
    {upd ret : Step T W} {s : State T W} {t : T}
    (run : (system T W).Run (before ++ upd :: between ++ ret :: rest) s)
    (hUpdate : Updates t upd) (hStore : ∀ x ∈ between, ¬StoresEmpty x) : ¬ReturnsPending ret := by
  obtain ⟨s₁, hPrior, -, -⟩ := System.Path.split run
  obtain ⟨s₂, hBefore, hNext, hBetween⟩ := hPrior.split
  have hUpd : (system T W).Reachable upd.1 := ⟨_, hBefore⟩
  have hState := notified_of_updates hUpdate hNext (reachable_protocol hUpd)
  exact not_pending_of_notified (path_notified (hUpd.next hNext) hBetween hState hStore)

/-! ## From a `Ready` to the reset -/

/-- The sticky flag is set and any poll in progress has not yet read it. -/
def Sticky (s : State T W) : Prop :=
  s.cell.notified = true ∧
    match s.poller with
    | .idle _ | .loadNotified _ | .resetLoad | .resetStore => True
    | _ => False

/-- A `Ready` leaves the sticky flag set, and no poll in progress has read it before. -/
theorem sticky_of_ready {s s' : State T W} {e : Event T W} (inv : Protocol s)
    (hReady : ReturnsReady (s, e)) (h : next s e = some s') : Sticky s' := by
  rcases hReady with ⟨rfl, hp⟩ | ⟨rfl, ⟨ctx, hp⟩, hNotified⟩
  · obtain ⟨c, p, hStep, rfl⟩ := next_poller h
    have hFacts := inv.poller
    simp only at hp
    simp only [hp, pollerStep, PollerFacts, Option.some.injEq, Prod.mk.injEq] at hStep hFacts
    obtain ⟨rfl, rfl⟩ := hStep
    exact ⟨hFacts.2, trivial⟩
  · obtain ⟨c, p, hStep, rfl⟩ := next_poller h
    simp only at hp hNotified
    simp only [hp, pollerStep, hNotified, if_true, Option.some.injEq, Prod.mk.injEq] at hStep
    obtain ⟨rfl, rfl⟩ := hStep
    exact ⟨hNotified, trivial⟩

/-- Polls between a `Ready` and its reset answer from the flag alone. -/
theorem next_sticky {s s' : State T W} {e : Event T W} (hSticky : Sticky s)
    (hReset : ¬Resets (s, e)) (h : next s e = some s') : Sticky s' ∧ ¬StoresEmpty (s, e) := by
  obtain ⟨hNotified, hPc⟩ := hSticky
  refine ⟨?_, fun hx => by rw [hx.2] at hPc; exact hPc⟩
  cases e with
  | poll ctx =>
      obtain ⟨_, _, rfl⟩ := next_poll h
      exact ⟨hNotified, trivial⟩
  | reset =>
      obtain ⟨_, rfl⟩ := next_reset h
      exact ⟨hNotified, trivial⟩
  | wake t =>
      obtain ⟨_, rfl⟩ := next_wake h
      exact ⟨hNotified, hPc⟩
  | waker t =>
      obtain ⟨c, p, hStep, rfl⟩ := next_waker h
      exact ⟨(wakerStep_state hStep).2.trans hNotified, hPc⟩
  | poller =>
      obtain ⟨c, p, hStep, rfl⟩ := next_poller h
      have hPc' : s.poller ≠ .resetStore := fun hp => hReset ⟨rfl, hp⟩
      unfold Sticky
      cases hp : s.poller <;> simp only [hp, pollerStep] at hStep hPc <;> grind

/-- The flag is sticky up to the reset, also when polls begin and end on the way. -/
theorem path_sticky {s s' : State T W} {steps : List (Step T W)}
    (path : (system T W).Path s steps s') (hSticky : Sticky s)
    (hReset : ∀ x ∈ steps, ¬Resets x) : Sticky s' :=
  path.keeps_of_meets (fun u e => ¬Resets (u, e)) hReset hSticky
    fun _ _ _ hu hx hNext => (next_sticky hu hx hNext).1

/-- While the flag is sticky no poll stores `EMPTY`, as each is `Ready` at its first
load. -/
theorem path_sticky_not_store {s s' : State T W} {steps : List (Step T W)}
    (path : (system T W).Path s steps s') (hSticky : Sticky s)
    (hReset : ∀ x ∈ steps, ¬Resets x) : ∀ x ∈ steps, ¬StoresEmpty x := by
  intro x hx
  obtain ⟨first, second, rfl⟩ := List.append_of_mem hx
  obtain ⟨t, hFirst, hNext, -⟩ := path.split
  have hThere := path_sticky hFirst hSticky fun y hy => hReset y (List.mem_append_left _ hy)
  exact (next_sticky hThere (hReset x hx) hNext).2

/-- A wake between a `Ready` poll and the poll after its reset makes that poll
return `Ready`, on whichever side of the reset it falls. -/
theorem update_survives_reset {before middle after rest : List (Step T W)}
    {ready reset ret : Step T W} {s : State T W}
    (run : (system T W).Run (before ++ ready :: middle ++ reset :: after ++ ret :: rest) s)
    (hReady : ReturnsReady ready) (hMiddle : ∀ x ∈ middle, ¬Resets x) (hReset : Resets reset)
    (hAfter : ∀ x ∈ after, ¬ReturnsReady x)
    (hUpdate : ∃ x ∈ middle ++ after, ∃ t, Updates t x) : ¬ReturnsPending ret := by
  have hAfterStore : ∀ x ∈ after, ¬StoresEmpty x := fun x hx h => hAfter x hx (Or.inl h)
  have hResetStore : ¬StoresEmpty reset := fun h => by
    rw [StoresEmpty, hReset.2] at h
    simp at h
  obtain ⟨upd, hMem, t, hUpd⟩ := hUpdate
  rcases List.mem_append.mp hMem with hMem | hMem
  · -- Before the reset: the flag keeps every poll from clearing the state.
    obtain ⟨s₁, hPrior, -, -⟩ := System.Path.split run
    obtain ⟨s₂, hPrior', -, -⟩ := hPrior.split
    obtain ⟨s₃, hBefore, hNext, hPath⟩ := hPrior'.split
    have hSticky := sticky_of_ready (reachable_protocol ⟨_, hBefore⟩) hReady hNext
    have hMiddleStore := path_sticky_not_store hPath hSticky hMiddle
    obtain ⟨first, second, rfl⟩ := List.append_of_mem hMem
    refine not_pending_of_update (before ++ ready :: first) (second ++ reset :: after) (by simpa using run) hUpd ?_
    intro x hx
    rcases List.mem_append.mp hx with hx | hx
    · exact hMiddleStore x (by simp [hx])
    · rcases List.mem_cons.mp hx with rfl | hx
      · exact hResetStore
      · exact hAfterStore x hx
  · obtain ⟨first, second, rfl⟩ := List.append_of_mem hMem
    refine not_pending_of_update (before ++ ready :: middle ++ reset :: first) second (by simpa using run) hUpd ?_
    exact fun x hx => hAfterStore x (by simp [hx])

/-! ## A `Ready` after a reset has a cause -/

/-- A `NOTIFIED` state goes back to an effective update that no later store of
`EMPTY` has cleared. -/
theorem notified_has_cause {steps : List (Step T W)} {s : State T W}
    (run : (system T W).Run steps s) (hState : s.cell.state = NOTIFIED) :
    ∃ before x after, steps = before ++ x :: after ∧ TakesEffect x ∧
      ∀ y ∈ after, ¬StoresEmpty y := by
  induction run with
  | refl => exact absurd hState (by decide : EMPTY ≠ NOTIFIED)
  | @step steps s s' e prior last ih =>
      by_cases hPrior : s.cell.state = NOTIFIED
      · obtain ⟨before, x, after, rfl, hx, hAfter⟩ := ih hPrior
        refine ⟨before, x, after ++ [(s, e)], by simp, hx, fun y hy => ?_⟩
        rcases List.mem_append.mp hy with hy | hy
        · exact hAfter y hy
        · -- A store of `EMPTY` would not leave the state `NOTIFIED`.
          obtain rfl : y = (s, e) := by simpa using hy
          rintro ⟨rfl, hp⟩
          obtain ⟨c, p, hStep, rfl⟩ := next_poller last
          simp only at hp hState
          simp only [hp, pollerStep, Option.some.injEq, Prod.mk.injEq] at hStep
          rw [← hStep.1] at hState
          exact absurd hState (by decide : EMPTY ≠ NOTIFIED)
      · -- Only the update of a wake moves the state to `NOTIFIED`.
        refine ⟨steps, (s, e), [], rfl, ?_, by simp⟩
        cases e with
        | poll ctx =>
            obtain ⟨_, _, rfl⟩ := next_poll last
            exact (hPrior hState).elim
        | reset =>
            obtain ⟨_, rfl⟩ := next_reset last
            exact (hPrior hState).elim
        | wake t =>
            obtain ⟨_, rfl⟩ := next_wake last
            exact (hPrior hState).elim
        | poller =>
            obtain ⟨c, p, hStep, rfl⟩ := next_poller last
            simp only at hState
            cases hp : s.poller <;> simp only [hp, pollerStep] at hStep <;> grind
        | waker t =>
            obtain ⟨c, p, hStep, rfl⟩ := next_waker last
            refine ⟨t, ⟨rfl, ?_⟩, hPrior⟩
            simp only at hState
            cases hp : s.wakers t <;> simp only [hp, wakerStep] at hStep <;> grind

/-- The sticky flag is clear, or a `Ready` that sets it is about to return. -/
def Unready (s : State T W) : Prop := s.cell.notified = false ∨ s.poller = .storeEmpty

/-- A reset clears the flag, so the polls after it depend on the state alone. -/
theorem unready_of_reset {s s' : State T W} {e : Event T W} (hReset : Resets (s, e))
    (h : next s e = some s') : Unready s' := by
  obtain ⟨rfl, hp⟩ := hReset
  obtain ⟨c, p, hStep, rfl⟩ := next_poller h
  simp only at hp
  simp only [hp, pollerStep, Option.some.injEq, Prod.mk.injEq] at hStep
  exact Or.inl (by rw [← hStep.1])

theorem next_unready {s s' : State T W} {e : Event T W} (hUnready : Unready s)
    (hReady : ¬ReturnsReady (s, e)) (h : next s e = some s') : Unready s' := by
  cases e with
  | poll ctx =>
      obtain ⟨_, hp, rfl⟩ := next_poll h
      exact hUnready.imp id fun h => by simp [hp] at h
  | reset =>
      obtain ⟨hp, rfl⟩ := next_reset h
      exact hUnready.imp id fun h => by simp [hp] at h
  | wake t =>
      obtain ⟨_, rfl⟩ := next_wake h
      exact hUnready
  | waker t =>
      obtain ⟨c, p, hStep, rfl⟩ := next_waker h
      exact hUnready.imp (wakerStep_state hStep).2.trans id
  | poller =>
      obtain ⟨c, p, hStep, rfl⟩ := next_poller h
      have hPc : s.poller ≠ .storeEmpty := fun hp => hReady (Or.inl ⟨rfl, hp⟩)
      rcases hUnready with hNotified | hp
      · unfold Unready
        cases hp : s.poller <;> simp only [hp, pollerStep] at hStep <;> grind
      · exact (hPc hp).elim

/-- After a reset the next `Ready` clears the state itself, and some wake took
effect since the state was last set to `EMPTY`. -/
theorem ready_after_reset {before after rest : List (Step T W)} {reset ready : Step T W}
    {s : State T W}
    (run : (system T W).Run (before ++ reset :: after ++ ready :: rest) s)
    (hReset : Resets reset) (hAfter : ∀ x ∈ after, ¬ReturnsReady x)
    (hReady : ReturnsReady ready) :
    ∃ first x second, before ++ reset :: after = first ++ x :: second ∧ TakesEffect x ∧
      ∀ y ∈ second, ¬StoresEmpty y := by
  obtain ⟨s₁, hPrior, -, -⟩ := System.Path.split run
  obtain ⟨s₂, -, hNext, hPath⟩ := hPrior.split
  have hUnready : Unready ready.1 :=
    hPath.keeps_of_meets (fun u e => ¬ReturnsReady (u, e)) hAfter (unready_of_reset hReset hNext)
      fun _ _ _ hu hx hu' => next_unready hu hx hu'
  have hStores : StoresEmpty ready := by
    rcases hReady with hStores | ⟨-, ⟨ctx, hp⟩, hNotified⟩
    · exact hStores
    · rcases hUnready with h | h <;> simp_all
  have hFacts := (reachable_protocol ⟨_, hPrior⟩).poller
  rw [hStores.2] at hFacts
  exact notified_has_cause hPrior hFacts.1

/-! ## A registered waker is invoked -/

/-- The registered waker is still stored, or a wake has taken it. -/
def Kept (w : W) (s : State T W) (since : List (Step T W)) : Prop :=
  s.cell.waker = some w ∨ (∃ t, s.wakers t = .invoke w) ∨ ∃ x ∈ since, Invokes w x

omit [DecidableEq T] [DecidableEq W] in
theorem not_store_of_not_registers {s : State T W} (hStore : ¬∃ w, Registers w (s, .poller)) :
    ∀ w, s.poller ≠ .store w :=
  fun w hp => hStore ⟨w, rfl, hp⟩

/-- What happens to a registered waker in one step that stores no waker: it stays
where it is, a wake takes it out of the cell, or the wake that holds it invokes it. -/
theorem next_kept {s s' : State T W} {e : Event T W} {w : W} {since : List (Step T W)}
    (hKept : Kept w s since) (hStore : ¬∃ w', Registers w' (s, e))
    (h : next s e = some s') : Kept w s' (since ++ [(s, e)]) := by
  have hSince : (∃ x ∈ since, Invokes w x) → ∃ x ∈ since ++ [(s, e)], Invokes w x :=
    fun ⟨x, hx, hw⟩ => ⟨x, List.mem_append_left _ hx, hw⟩
  cases e with
  | poll ctx =>
      obtain ⟨_, _, rfl⟩ := next_poll h
      exact hKept.imp id (Or.imp id hSince)
  | reset =>
      obtain ⟨_, rfl⟩ := next_reset h
      exact hKept.imp id (Or.imp id hSince)
  | wake t =>
      obtain ⟨hw, rfl⟩ := next_wake h
      refine hKept.imp id (Or.imp (fun ⟨u, hu⟩ => ⟨u, ?_⟩) hSince)
      have hNe : u ≠ t := by rintro rfl; simp [hw] at hu
      simpa [hNe] using hu
  | poller =>
      obtain ⟨c, p, hStep, rfl⟩ := next_poller h
      have hSame := pollerStep_waker (not_store_of_not_registers hStore) hStep
      exact hKept.imp hSame.trans (Or.imp id hSince)
  | waker t =>
      obtain ⟨c, p, hStep, rfl⟩ := next_waker h
      rcases hKept with hCell | ⟨u, hu⟩ | hInvoked
      · -- Only the thread inside the critical section empties the cell.
        by_cases hTake : s.wakers t = .take
        · simp only [hTake, wakerStep, hCell, Option.some.injEq, Prod.mk.injEq] at hStep
          exact Or.inr (Or.inl ⟨t, by simp [← hStep.2]⟩)
        · refine Or.inl ?_
          cases hp : s.wakers t <;> simp only [hp, wakerStep] at hStep <;> grind
      · by_cases hEq : u = t
        · subst hEq
          exact Or.inr (Or.inr ⟨(s, .waker u), by simp, u, rfl, hu⟩)
        · exact Or.inr (Or.inl ⟨u, by simpa [hEq] using hu⟩)
      · exact Or.inr (Or.inr (hSince hInvoked))

theorem kept_of_registers {s s' : State T W} {e : Event T W} {w : W}
    (hReg : Registers w (s, e)) (h : next s e = some s') : Kept w s' [] := by
  obtain ⟨rfl, hp⟩ := hReg
  obtain ⟨c, p, hStep, rfl⟩ := next_poller h
  simp only at hp
  simp only [hp, pollerStep, Option.some.injEq, Prod.mk.injEq] at hStep
  obtain ⟨rfl, rfl⟩ := hStep
  exact Or.inl (stored_eq s.cell.waker w)

/-- Along a run without a further store the waker stays in the cell until a wake takes
it, and that wake invokes it or is about to. -/
theorem path_kept {s s' : State T W} {w : W} {steps : List (Step T W)} (hKept : Kept w s [])
    (path : (system T W).Path s steps s')
    (hStore : ∀ x ∈ steps, ¬∃ w', Registers w' x) : Kept w s' steps := by
  induction path with
  | refl => exact hKept
  | step prior last ih =>
      exact next_kept (ih fun x hx => hStore x (List.mem_append_left _ hx))
        (hStore _ (by simp)) last

/-- After a `Pending` and until the next poll begins: the state is `WAITING`, or
a wake has left it and, while a waker is stored, is on its way to take it. -/
structure Waiting (s : State T W) : Prop where
  poller : s.poller = .idle false
  state : s.cell.state = WAITING ∨ s.cell.state = NOTIFIED
  taking : s.cell.state = NOTIFIED → s.cell.waker ≠ none →
    ∃ t, s.wakers t = .lock ∨ s.wakers t = .take

theorem waiting_of_pending {s s' : State T W} {e : Event T W} {w : W}
    (hPending : ReturnsPendingFor w (s, e)) (h : next s e = some s') : Waiting s' := by
  obtain ⟨rfl, hp, hState⟩ := hPending
  obtain ⟨c, p, hStep, rfl⟩ := next_poller h
  simp only at hp hState
  simp only [hp, pollerStep, hState, if_true, Option.some.injEq, Prod.mk.injEq] at hStep
  obtain ⟨rfl, rfl⟩ := hStep
  exact ⟨rfl, Or.inl rfl, fun h => absurd h (by decide : WAITING ≠ NOTIFIED)⟩

/-- Until the next poll begins only wakes change the state. The one that takes it away
goes on to take the waker. -/
theorem next_waiting {s s' : State T W} {e : Event T W} (hWaiting : Waiting s)
    (hBegin : ¬BeginsPoll (s, e)) (h : next s e = some s') : Waiting s' := by
  obtain ⟨hPoller, hState, hTaking⟩ := hWaiting
  cases e with
  | poll ctx => exact (hBegin ⟨ctx, rfl⟩).elim
  | reset => simp [next, hPoller] at h
  | poller => simp [next, hPoller, pollerStep] at h
  | wake t =>
      obtain ⟨hw, rfl⟩ := next_wake h
      refine ⟨hPoller, hState, fun hs hc => ?_⟩
      obtain ⟨u, hu⟩ := hTaking hs hc
      have hNe : u ≠ t := by rintro rfl; simp [hw] at hu
      exact ⟨u, by simpa [hNe] using hu⟩
  | waker t =>
      obtain ⟨c, p, hStep, rfl⟩ := next_waker h
      have hState' : c.state = WAITING ∨ c.state = NOTIFIED := by
        rcases (wakerStep_state hStep).1 with hc | hc
        · rwa [hc]
        · exact Or.inr hc
      refine ⟨hPoller, hState', fun hs hc => ?_⟩
      by_cases hSelf : p = .lock ∨ p = .take
      · exact ⟨t, by simpa using hSelf⟩
      · -- The thread is not taking, so another one already was.
        have hOther : s.cell.state = NOTIFIED ∧ s.cell.waker ≠ none ∧
            s.wakers t ≠ .lock ∧ s.wakers t ≠ .take := by
          cases hp : s.wakers t <;> simp only [hp, wakerStep] at hStep <;> grind
        obtain ⟨u, hu⟩ := hTaking hOther.1 hOther.2.1
        have hNe : u ≠ t := by
          rintro rfl
          exact hu.elim hOther.2.2.1 hOther.2.2.2
        exact ⟨u, by simpa [hNe] using hu⟩

theorem path_waiting {s s' : State T W} {steps : List (Step T W)}
    (path : (system T W).Path s steps s') (hWaiting : Waiting s)
    (hBegin : ∀ x ∈ steps, ¬BeginsPoll x) : Waiting s' :=
  path.keeps_of_meets (fun u e => ¬BeginsPoll (u, e)) hBegin hWaiting
    fun _ _ _ hu hx hNext => next_waiting hu hx hNext

/-- From the update of a wake to the next store of a waker: the state does not get
back to `WAITING`, and a waker still in the cell is about to be taken. -/
structure Leaving (s : State T W) : Prop where
  state : s.cell.state ≠ WAITING
  poller : ∀ w, s.poller ≠ .swapWaiting w
  taking : s.cell.waker ≠ none → ∃ t, s.wakers t = .lock ∨ s.wakers t = .take

omit [DecidableEq T] [DecidableEq W] in
/-- From the update on the waker in the cell is about to be taken. -/
theorem Waiting.leaving {s : State T W} (waiting : Waiting s)
    (hState : s.cell.state = NOTIFIED) : Leaving s where
  state := by simp [hState]
  poller := by simp [waiting.poller]
  taking := waiting.taking hState

omit [DecidableEq T] in
/-- Without a store the polling thread never comes to the exchange that sets
`WAITING`, so only its own registration could end this phase. -/
theorem pollerStep_leaving {c c' : Cell T W} {p p' : Poller W} (hState : c.state ≠ WAITING)
    (hPoller : ∀ w, p ≠ .swapWaiting w) (hStore : ∀ w, p ≠ .store w)
    (h : pollerStep c p = some (c', p')) :
    c'.state ≠ WAITING ∧ ∀ w, p' ≠ .swapWaiting w := by
  cases p <;> simp only [pollerStep] at h <;> grind

omit [DecidableEq T] [DecidableEq W] in
/-- A wake empties the cell, or is not the one the stored waker waits for, or
goes from the lock to the take. -/
theorem wakerStep_taking {c c' : Cell T W} {t : T} {p p' : Waking W}
    (h : wakerStep c t p = some (c', p')) (hWaker : c'.waker ≠ none) :
    c.waker ≠ none ∧ (p = .lock ∨ p = .take → p' = .lock ∨ p' = .take) := by
  cases p <;> simp only [wakerStep] at h <;> grind

/-- While nobody stores a waker the state does not get back to `WAITING`, whatever polls
and resets happen. A poll cannot get there without a store. -/
theorem next_leaving {s s' : State T W} {e : Event T W} (leaving : Leaving s)
    (hStore : ¬∃ w, Registers w (s, e)) (h : next s e = some s') : Leaving s' := by
  obtain ⟨hState, hPoller, hTaking⟩ := leaving
  cases e with
  | poll ctx =>
      obtain ⟨_, _, rfl⟩ := next_poll h
      exact ⟨hState, by simp, hTaking⟩
  | reset =>
      obtain ⟨_, rfl⟩ := next_reset h
      exact ⟨hState, by simp, hTaking⟩
  | poller =>
      obtain ⟨c, p, hStep, rfl⟩ := next_poller h
      have hNot := not_store_of_not_registers hStore
      obtain ⟨hState', hPoller'⟩ := pollerStep_leaving hState hPoller hNot hStep
      refine ⟨hState', hPoller', fun hWaker => hTaking ?_⟩
      rwa [← pollerStep_waker hNot hStep]
  | wake t =>
      obtain ⟨hw, rfl⟩ := next_wake h
      refine ⟨hState, hPoller, fun hWaker => ?_⟩
      obtain ⟨u, hu⟩ := hTaking hWaker
      have hNe : u ≠ t := by rintro rfl; simp [hw] at hu
      exact ⟨u, by simpa [hNe] using hu⟩
  | waker t =>
      obtain ⟨c, p, hStep, rfl⟩ := next_waker h
      refine ⟨?_, hPoller, fun hWaker => ?_⟩
      · rcases (wakerStep_state hStep).1 with hc | hc <;> simp [hc, hState]
      · obtain ⟨hBefore, hSelf⟩ := wakerStep_taking hStep hWaker
        obtain ⟨u, hu⟩ := hTaking hBefore
        by_cases hEq : u = t
        · subst hEq
          exact ⟨u, by simpa using hSelf hu⟩
        · exact ⟨u, by simpa [hEq] using hu⟩

/-- A wake past its state update was in progress at `upd` and has not returned. -/
def SinceUpdate (upd : Step T W) (rest : List (Step T W)) (s : State T W) : Prop :=
  ∀ u, s.wakers u = .lock ∨ s.wakers u = .take ∨ (∃ w, s.wakers u = .invoke w) →
    upd.1.wakers u ≠ .idle ∧ ∀ x ∈ upd :: rest, ¬WakeReturns u x

/-- At the update itself the wakes under way are those of then. -/
theorem sinceUpdate_start {upd : Step T W} {s : State T W} {t : T}
    (hUpdate : Updates t upd) (h : next upd.1 upd.2 = some s) : SinceUpdate upd [] s := by
  obtain ⟨s₀, e⟩ := upd
  obtain ⟨rfl, hw⟩ := hUpdate
  simp only at hw h
  obtain ⟨c, p, hStep, rfl⟩ := next_waker h
  intro u hu
  simp only [List.mem_singleton, forall_eq]
  by_cases hEq : u = t
  · -- Only an update of `WAITING` leaves the caller inside `wake`.
    subst hEq
    refine ⟨by simp [hw], ?_⟩
    rintro ⟨-, ⟨-, hState⟩ | ⟨hTake, -⟩ | ⟨w, hInvoke⟩⟩
    · simp only [hw, wakerStep] at hStep
      simp only [Function.update_self] at hu
      grind
    · simp [hw] at hTake
    · simp [hw] at hInvoke
  · simp only [Function.update_of_ne hEq] at hu
    refine ⟨by rcases hu with hu | hu | ⟨w, hu⟩ <;> simp [hu], ?_⟩
    rintro ⟨hEvent, -⟩
    exact hEq (by simpa using hEvent.symm)

/-- A wake that updates a state other than `WAITING` returns at once, so no thread
joins those past their update. -/
theorem next_sinceUpdate {upd : Step T W} {rest : List (Step T W)} {s s' : State T W}
    {e : Event T W} (hSince : SinceUpdate upd rest s) (hState : s.cell.state ≠ WAITING)
    (h : next s e = some s') : SinceUpdate upd (rest ++ [(s, e)]) s' := by
  intro u hu
  -- A thread past its update was past it before the step, which is not its return.
  have hBack : (s.wakers u = .lock ∨ s.wakers u = .take ∨ ∃ w, s.wakers u = .invoke w) ∧
      ¬WakeReturns u (s, e) := by
    cases e with
    | poll ctx =>
        obtain ⟨_, _, rfl⟩ := next_poll h
        exact ⟨hu, fun hr => by simpa using hr.1⟩
    | reset =>
        obtain ⟨_, rfl⟩ := next_reset h
        exact ⟨hu, fun hr => by simpa using hr.1⟩
    | poller =>
        obtain ⟨_, _, _, rfl⟩ := next_poller h
        exact ⟨hu, fun hr => by simpa using hr.1⟩
    | wake t =>
        obtain ⟨_, rfl⟩ := next_wake h
        by_cases hEq : u = t
        · simp [hEq] at hu
        · exact ⟨by simpa [hEq] using hu, fun hr => by simpa using hr.1⟩
    | waker t =>
        obtain ⟨c, p, hStep, rfl⟩ := next_waker h
        by_cases hEq : u = t
        · subst hEq
          simp only [Function.update_self] at hu
          unfold WakeReturns
          cases hp : s.wakers u <;> simp only [hp, wakerStep, hState] at hStep <;> grind
        · exact ⟨by simpa [hEq] using hu, fun hr => hEq (by simpa using hr.1.symm)⟩
  obtain ⟨hThen, hNot⟩ := hSince u hBack.1
  refine ⟨hThen, fun x hx => ?_⟩
  rw [← List.cons_append] at hx
  rcases List.mem_append.mp hx with hx | hx
  · exact hNot x hx
  · obtain rfl : x = (s, e) := by simpa using hx
    exact hBack.2

/-- A wake that begins later finds no state to take, so any that is past its update was
in progress at the first one. -/
theorem path_sinceUpdate {upd : Step T W} {s s' : State T W} {steps : List (Step T W)}
    (path : (system T W).Path s steps s') (leaving : Leaving s) (hSince : SinceUpdate upd [] s)
    (hStore : ∀ x ∈ steps, ¬∃ w, Registers w x) :
    Leaving s' ∧ SinceUpdate upd steps s' := by
  induction path with
  | refl => exact ⟨leaving, hSince⟩
  | step prior last ih =>
      obtain ⟨hThere, hSo⟩ := ih fun x hx => hStore x (List.mem_append_left _ hx)
      exact ⟨next_leaving hThere (hStore _ (by simp)) last,
        next_sinceUpdate hSo hThere.state last⟩

/-- A poll in progress has made its store, if it makes one at all. -/
def PastStore : Poller W → Prop
  | .loadNotified _ | .loadState _ | .swapUpdating _ _ | .tryLock _ | .store _ => False
  | _ => True

theorem pastStore_of_registers {s s' : State T W} {e : Event T W} {w : W}
    (hReg : Registers w (s, e)) (h : next s e = some s') : PastStore s'.poller := by
  obtain ⟨rfl, hp⟩ := hReg
  obtain ⟨c, p, hStep, rfl⟩ := next_poller h
  simp only at hp
  simp only [hp, pollerStep, Option.some.injEq, Prod.mk.injEq] at hStep
  obtain ⟨rfl, rfl⟩ := hStep
  trivial

theorem next_pastStore {s s' : State T W} {e : Event T W} (hPast : PastStore s.poller)
    (hBegin : ¬BeginsPoll (s, e)) (h : next s e = some s') : PastStore s'.poller := by
  cases e with
  | poll ctx => exact (hBegin ⟨ctx, rfl⟩).elim
  | reset =>
      obtain ⟨_, rfl⟩ := next_reset h
      trivial
  | wake t =>
      obtain ⟨_, rfl⟩ := next_wake h
      exact hPast
  | waker t =>
      obtain ⟨_, _, _, rfl⟩ := next_waker h
      exact hPast
  | poller =>
      obtain ⟨c, p, hStep, rfl⟩ := next_poller h
      cases hp : s.poller <;> simp only [hp, pollerStep, PastStore] at hStep hPast <;>
        grind [PastStore]

/-- A poll stores at most one waker: until the next poll begins, there is no second
registration. -/
theorem path_not_registers {s s' : State T W} {steps : List (Step T W)}
    (path : (system T W).Path s steps s') (hPast : PastStore s.poller)
    (hBegin : ∀ x ∈ steps, ¬BeginsPoll x) : ∀ x ∈ steps, ¬∃ w, Registers w x := by
  rintro x hx ⟨w, -, hp⟩
  obtain ⟨first, second, rfl⟩ := List.append_of_mem hx
  obtain ⟨_, hFirst, -, -⟩ := path.split
  have hThere : PastStore x.1.poller :=
    hFirst.keeps_of_meets (fun u e => ¬BeginsPoll (u, e))
      (fun y hy => hBegin y (List.mem_append_left _ hy)) hPast
      fun _ _ _ hu hx hNext => next_pastStore hu hx hNext
  rw [hp] at hThere
  exact hThere

/-- A waker registered by a `Pending` poll and found by a wake is invoked once
the wakes in progress have finished, as long as no later poll stores a waker. -/
theorem registered_invoked {before middle first rest : List (Step T W)} {reg pend upd : Step T W}
    {s : State T W} {w : W} {t : T}
    (run : (system T W).Run (before ++ reg :: middle ++ pend :: first ++ upd :: rest) s)
    (hReg : Registers w reg) (hMiddle : ∀ x ∈ middle, ¬BeginsPoll x)
    (hPend : ReturnsPendingFor w pend) (hFirst : ∀ x ∈ first, ¬BeginsPoll x)
    (hUpdate : Updates t upd) (hRest : ∀ x ∈ rest, ¬∃ w', Registers w' x)
    (hFinish : WakesFinish upd rest) :
    ∃ x ∈ middle ++ pend :: first ++ upd :: rest, Invokes w x := by
  have hSplit : before ++ reg :: middle ++ pend :: first ++ upd :: rest =
      before ++ reg :: (middle ++ pend :: first ++ upd :: rest) := by simp
  obtain ⟨s₁, hBefore, hNextReg, hSince⟩ := System.Path.split (hSplit ▸ run)
  obtain ⟨s₂, hToUpd, hNextUpd, hTail⟩ := hSince.split
  obtain ⟨s₃, hToPend, hNextPend, hFirstPath⟩ := hToUpd.split
  -- Up to the update no poll begins, so there is no store either.
  have hBegin : ∀ x ∈ middle ++ pend :: first, ¬BeginsPoll x := by
    intro x hx
    simp only [List.mem_append, List.mem_cons] at hx
    rcases hx with hx | rfl | hx
    · exact hMiddle x hx
    · exact fun ⟨_, hEvent⟩ => by simp [hPend.1] at hEvent
    · exact hFirst x hx
  have hStore : ∀ x ∈ middle ++ pend :: first ++ upd :: rest, ¬∃ w', Registers w' x := by
    intro x hx
    rcases List.mem_append.mp hx with hx | hx
    · exact path_not_registers hToUpd (pastStore_of_registers hReg hNextReg) hBegin x hx
    · rcases List.mem_cons.mp hx with rfl | hx
      · exact fun ⟨_, hEvent, _⟩ => by simp [hUpdate.1] at hEvent
      · exact hRest x hx
  -- The waker stays in the cell or is on its way to be invoked.
  have hKept : Kept w s (middle ++ pend :: first ++ upd :: rest) :=
    path_kept (kept_of_registers hReg hNextReg) hSince hStore
  have hWaitingUpd : Waiting upd.1 :=
    path_waiting hFirstPath (waiting_of_pending hPend hNextPend) hFirst
  have hUpdBegin : ¬BeginsPoll upd := fun ⟨_, hEvent⟩ => by simp [hUpdate.1] at hEvent
  have hWaiting₂ := next_waiting hWaitingUpd hUpdBegin hNextUpd
  have hReg₁ : (system T W).Reachable s₁ := System.Reachable.next ⟨_, hBefore⟩ hNextReg
  have hNotified₂ : s₂.cell.state = NOTIFIED :=
    notified_of_updates hUpdate hNextUpd (reachable_protocol (hReg₁.path hToUpd))
  obtain ⟨hLeaving, hSinceUpd⟩ :=
    path_sinceUpdate hTail (hWaiting₂.leaving hNotified₂) (sinceUpdate_start hUpdate hNextUpd) hRest
  -- Every wake that could still hold the waker has returned by now.
  have hDone : ∀ u, ¬(s.wakers u = .lock ∨ s.wakers u = .take ∨ ∃ w', s.wakers u = .invoke w') := by
    intro u hu
    obtain ⟨hThen, hNot⟩ := hSinceUpd u hu
    obtain ⟨x, hx, hReturns⟩ := hFinish u hThen
    exact hNot x hx hReturns
  rcases hKept with hCell | ⟨u, hu⟩ | hInvoked
  · obtain ⟨u, hu⟩ := hLeaving.taking (by simp [hCell])
    exact (hDone u (hu.imp id Or.inl)).elim
  · exact (hDone u (Or.inr (Or.inr ⟨w, hu⟩))).elim
  · exact hInvoked

/-! ## The whole contract -/

/-- A poll registers `w` in `reg` and returns `Pending` in `pend`; `upd` is the
state update of a wake, made before another poll began. -/
structure WokenAfterPending (before middle first rest : List (Step T W)) (reg pend upd : Step T W)
    (w : W) (s : State T W) : Prop where
  run : (system T W).Run (before ++ reg :: middle ++ pend :: first ++ upd :: rest) s
  registers : Registers w reg
  samePoll : ∀ x ∈ middle, ¬BeginsPoll x
  pending : ReturnsPendingFor w pend
  noPoll : ∀ x ∈ first, ¬BeginsPoll x
  updates : ∃ t, Updates t upd

variable (T W) in
/-- Once the wakes in progress have finished, the registered waker has been
invoked, whatever the polling thread did in the meantime. -/
def RegisteredInvoked : Prop :=
  ∀ before middle first rest reg pend upd (w : W) (s : State T W),
    WokenAfterPending before middle first rest reg pend upd w s → WakesFinish upd rest →
      ∃ x ∈ middle ++ pend :: first ++ upd :: rest, Invokes w x

variable (T W) in
/-- The same unless a later poll has stored a waker again before that; in any case the
first poll to return after the update returns `Ready`. -/
def RegisteredInvokedOrReady : Prop :=
  ∀ before middle first rest reg pend upd (w : W) (s : State T W),
    WokenAfterPending before middle first rest reg pend upd w s →
      (WakesFinish upd rest →
        (∃ x ∈ middle ++ pend :: first ++ upd :: rest, Invokes w x) ∨
          ∃ x ∈ rest, ∃ w', Registers w' x) ∧
      ∀ between ret after, rest = between ++ ret :: after →
        (∀ x ∈ between, ¬ReturnsReady x) → ¬ReturnsPending ret

variable (T W) in
/-- Every state update of a wake is covered by the return of a later `Ready`, or
is still recorded, and no poll has returned `Pending` since. -/
def UpdatesCovered : Prop :=
  ∀ before after upd (t : T) (s : State T W),
    (system T W).Run (before ++ upd :: after) s → Updates t upd →
      (∃ x ∈ after, ReturnsReady x) ∨
        s.cell.state = NOTIFIED ∧ ∀ x ∈ after, ¬ReturnsPending x

variable (T W) in
/-- An update between a `Ready` and the poll after its reset makes the first
poll to return after the reset return `Ready`. -/
def UpdateSurvivesReset : Prop :=
  ∀ before middle after rest ready reset ret (s : State T W),
    (system T W).Run (before ++ ready :: middle ++ reset :: after ++ ret :: rest) s →
      ReturnsReady ready → (∀ x ∈ middle, ¬Resets x) → Resets reset →
      (∀ x ∈ after, ¬ReturnsReady x) → (∃ x ∈ middle ++ after, ∃ t, Updates t x) →
      ¬ReturnsPending ret

variable (T W) in
/-- The first `Ready` after a reset follows an effective update that no store of
`EMPTY` came after. -/
def ReadyCaused : Prop :=
  ∀ before after rest reset ready (s : State T W),
    (system T W).Run (before ++ reset :: after ++ ready :: rest) s →
      Resets reset → (∀ x ∈ after, ¬ReturnsReady x) → ReturnsReady ready →
      ∃ first x second, before ++ reset :: after = first ++ x :: second ∧ TakesEffect x ∧
        ∀ y ∈ second, ¬StoresEmpty y

variable (T W) in
/-- Over every interleaving of one polling thread with any number of wakes, no
notification is lost and none is made up. -/
theorem notifications_kept :
    RegisteredInvokedOrReady T W ∧ UpdatesCovered T W ∧ UpdateSurvivesReset T W ∧
      ReadyCaused T W := by
  refine ⟨?_, ?_, ?_, ?_⟩
  · intro before middle first rest reg pend upd w s h
    obtain ⟨t, hUpdate⟩ := h.updates
    refine ⟨fun hFinish => ?_, ?_⟩
    · by_cases hRest : ∃ x ∈ rest, ∃ w', Registers w' x
      · exact Or.inr hRest
      · exact Or.inl (registered_invoked h.run h.registers h.samePoll h.pending h.noPoll hUpdate
          (fun x hx hStores => hRest ⟨x, hx, hStores⟩) hFinish)
    · rintro between ret after rfl hReady
      refine not_pending_of_update (before ++ reg :: middle ++ pend :: first) between
        (by simpa using h.run) hUpdate fun x hx hStores => hReady x hx (Or.inl hStores)
  · intro before after upd t s run hUpdate
    by_cases hReady : ∃ x ∈ after, ReturnsReady x
    · exact Or.inl hReady
    · exact Or.inr (update_recorded run hUpdate fun x hx h => hReady ⟨x, hx, h⟩)
  · intro before middle after rest ready reset ret s
    exact update_survives_reset
  · intro before after rest reset ready s
    exact ready_after_reset

/-- A poll for the first waker returns `Pending` and a wake leaves `WAITING`. -/
def slowWake : List (Event Unit Bool) :=
  [.poll (some false), .poller, .poller, .poller, .poller, .poller, .poller,
    .wake (), .waker (),
    -- the next poll is `Ready` at once, and the one after its reset registers anew
    .poll (some true), .poller, .poller, .poller, .poller,
    .reset, .poller, .poller,
    .poll (some true), .poller, .poller, .poller, .poller, .poller, .poller,
    -- only now does the wake take a waker, and it is the second one
    .waker (), .waker (), .waker ()]

/-- A wake that is slow to take the waker invokes the one a later poll left
there, and the waker of the poll it answered is dropped without a call. -/
theorem slowWake_drops_waker : ¬RegisteredInvoked Unit Bool := by
  intro h
  let steps := (system Unit Bool).trace (system Unit Bool).initial slowWake
  obtain ⟨s, run, -⟩ := (system Unit Bool).exists_run_of_replay slowWake State.poller
    (.idle false) (by decide)
  have hWoken : WokenAfterPending (steps.take 5) [] [steps[7]] (steps.drop 9)
      steps[5] steps[6] steps[8] false s :=
    { run := run
      registers := by unfold Registers; decide
      samePoll := by simp
      pending := by unfold ReturnsPendingFor; decide
      noPoll := by
        simp only [List.mem_singleton, forall_eq]
        rintro ⟨ctx, hEvent⟩
        have hWake : steps[7].2 = .wake () := by decide
        simp [hWake] at hEvent
      updates := ⟨(), by unfold Updates; decide⟩ }
  obtain ⟨x, hx, hInvokes⟩ := h _ _ _ _ _ _ _ _ _ hWoken (by unfold WakesFinish WakeReturns; decide)
  exact absurd hInvokes (by revert x; unfold Invokes; decide)

end Yaar.AtomicWaker
