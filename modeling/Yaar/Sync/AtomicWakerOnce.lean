import Yaar.Sync.AtomicWaker

/-! An `AtomicWaker` that one thread wakes once, and that one task at a time polls. Whoever
is answered `Pending` waits for the wake. -/
namespace Yaar.AtomicWaker

variable {W : Type*}

/-- The side that polls, between its calls and inside of one. -/
inductive Polled (W : Type*) where
  | away
  | inside (w : W) (at_ : Poller W)
  | waiting (w : W)
  | ready

/-- The side that wakes. -/
inductive Woken (W : Type*) where
  | before
  | inside (at_ : Waking W)
  | after

/-- What the state word is but for the wake. -/
def word (woken : Bool) (state : UInt8) : UInt8 := if woken then NOTIFIED else state

/-- What the polling side finds. -/
def Polled.Finds (c : Cell Unit W) (woken : Bool) : Polled W → Prop
  | .away => c.notified = false ∧ c.state = word woken EMPTY ∧ c.lock = none
  | .inside w (.loadNotified ctx) | .inside w (.loadState ctx) =>
      ctx = some w ∧ c.notified = false ∧ c.state = word woken EMPTY ∧ c.lock = none
  | .inside w (.swapUpdating v seen) =>
      v = w ∧ seen = EMPTY ∧ c.notified = false ∧ c.state = word woken EMPTY ∧ c.lock = none
  | .inside w (.tryLock v) =>
      v = w ∧ c.notified = false ∧ c.state = word woken UPDATING ∧ c.lock = none
  | .inside w (.store v) =>
      v = w ∧ c.notified = false ∧ c.state = word woken UPDATING ∧ c.lock = some .poller
  | .inside w (.swapWaiting v) =>
      v = w ∧ c.notified = false ∧ c.state = word woken UPDATING ∧ c.lock = none ∧ c.waker = some w
  | .waiting _ => c.notified = false ∧ c.state = word woken WAITING
  | .inside _ .storeNotified => woken = true ∧ c.notified = false ∧ c.state = NOTIFIED
  | .inside _ .storeEmpty => woken = true ∧ c.notified = true ∧ c.state = NOTIFIED
  | .ready => woken = true ∧ c.notified = true
  | .inside _ _ => False

/-- The two sides fit the cell: the wake goes through the lock only for a task that waits. -/
def Fits (c : Cell Unit W) (polled : Polled W) : Woken W → Prop
  | .before | .inside .update =>
      polled.Finds c false ∧ ∀ w, polled = .waiting w → c.lock = none ∧ c.waker = some w
  | .inside .lock => ∃ w, polled = .waiting w ∧ polled.Finds c true ∧ c.lock = none ∧ c.waker = some w
  | .inside .take =>
      ∃ w, polled = .waiting w ∧ polled.Finds c true ∧ c.lock = some (.waker ()) ∧ c.waker = some w
  | .inside (.invoke w) => polled = .waiting w ∧ polled.Finds c true ∧ c.lock = none
  | .after => polled.Finds c true ∧ ∀ w, polled = .waiting w → c.lock = none
  | .inside _ => False

/-- The operations of `poll` that are ahead, in units that leave room for a wait. -/
def Poller.ahead : Poller W → Nat
  | .loadNotified _ => 19
  | .loadState _ => 18
  | .swapUpdating _ _ => 17
  | .tryLock _ => 16
  | .store _ => 15
  | .swapWaiting _ => 14
  | .storeNotified => 13
  | .storeEmpty => 12
  | _ => 0

def Waking.ahead : Waking W → Nat
  | .update => 4
  | .lock => 3
  | .take => 2
  | .invoke _ => 1
  | _ => 0

/-- Nobody has waited yet, and nobody has been woken. -/
def Cell.Fresh (c : Cell Unit W) : Prop :=
  c.notified = false ∧ (c.state = EMPTY ∨ c.state = UPDATING)

instance (c : Cell Unit W) : Decidable c.Fresh := inferInstanceAs (Decidable (_ ∧ _))

def Cell.fresh (c : Cell Unit W) : Nat := if c.Fresh then 20 else 0

theorem fits_new : Fits (⟨new, none⟩ : Cell Unit W) .away .before :=
  ⟨⟨rfl, rfl, rfl⟩, by simp⟩

theorem fresh_new : (⟨new, none⟩ : Cell Unit W).fresh = 20 := if_pos ⟨rfl, .inl rfl⟩

variable {c c' : Cell Unit W} {polled : Polled W} {woken : Woken W} {w : W}

/-- A call of `poll` begins at the first time, or after the wake. -/
theorem Fits.call (fits : Fits c polled woken)
    (h : polled = .away ∨ woken = .after ∧ ∃ v, polled = .waiting v) (w : W) :
    Fits c (.inside w (.loadNotified (some w))) woken := by
  rcases h with rfl | ⟨rfl, v, rfl⟩
  · cases woken with
    | before => exact ⟨⟨rfl, fits.1⟩, by simp⟩
    | after => exact ⟨⟨rfl, fits.1⟩, by simp⟩
    | inside at_ =>
        cases at_ with
        | update => exact ⟨⟨rfl, fits.1⟩, by simp⟩
        | lock | take =>
            obtain ⟨v, hWaiting, -⟩ := fits
            cases hWaiting
        | invoke v => cases fits.1
        | idle | panicked => exact fits.elim
  · obtain ⟨⟨hNotified, hState⟩, hLock⟩ := fits
    exact ⟨⟨rfl, hNotified, hState, hLock v rfl⟩, by simp⟩

/-- While one task is inside `poll` the wake is before its update or over. -/
theorem Fits.inside {at_ : Poller W} (fits : Fits c (.inside w at_) woken) :
    ∃ isWoken, (Polled.inside w at_).Finds c isWoken ∧ (isWoken = true ↔ woken = .after) ∧
      ∀ c' polled', polled'.Finds c' isWoken →
        (∀ v, polled' = .waiting v → c'.lock = none ∧ c'.waker = some v) → Fits c' polled' woken := by
  cases woken with
  | before => exact ⟨false, fits.1, by simp, fun c' polled' finds hWaiting => ⟨finds, hWaiting⟩⟩
  | after =>
      exact ⟨true, fits.1, by simp, fun c' polled' finds hWaiting =>
        ⟨finds, fun v hv => (hWaiting v hv).1⟩⟩
  | inside at_ =>
      cases at_ with
      | update => exact ⟨false, fits.1, by simp, fun c' polled' finds hWaiting => ⟨finds, hWaiting⟩⟩
      | lock | take =>
          obtain ⟨v, hWaiting, -⟩ := fits
          cases hWaiting
      | invoke v => cases fits.1
      | idle | panicked => exact fits.elim

/-- Only the wake makes it ready. -/
theorem Fits.over_of_ready (fits : Fits c .ready woken) : woken = .after := by
  cases woken with
  | before => exact absurd fits.1.1 Bool.false_ne_true
  | after => rfl
  | inside at_ =>
      cases at_ with
      | update => exact absurd fits.1.1 Bool.false_ne_true
      | lock | take =>
          obtain ⟨v, hWaiting, -⟩ := fits
          cases hWaiting
      | invoke v => cases fits.1
      | idle | panicked => exact fits.elim

/-- What an operation of `poll` comes to. -/
inductive Polls (c c' : Cell Unit W) (w : W) (at_ : Poller W) (woken : Woken W) : Poller W → Prop where
  | ready (ended : woken = .after) (fits : Fits c' .ready woken) (fresh : c'.fresh ≤ c.fresh)
      (ahead : 11 < at_.ahead) : Polls c c' w at_ woken (.idle true)
  | pending (open_ : woken ≠ .after) (fits : Fits c' (.waiting w) woken)
      (fresh : c'.fresh + 20 ≤ c.fresh) (ahead : 6 < at_.ahead) :
      Polls c c' w at_ woken (.idle false)
  | inside (at_' : Poller W) (fits : Fits c' (.inside w at_') woken) (fresh : c'.fresh ≤ c.fresh)
      (ahead : at_'.ahead < at_.ahead) : Polls c c' w at_ woken at_'

theorem fresh_le (h : c'.Fresh → c.Fresh) : c'.fresh ≤ c.fresh := by
  unfold Cell.fresh
  split
  · next hFresh => rw [if_pos (h hFresh)]
  · exact Nat.zero_le _

/-- A poll never panics, and ends with `Ready` after the wake and with `Pending` before. -/
theorem Fits.poll [DecidableEq W] {at_ : Poller W} (fits : Fits c (.inside w at_) woken) :
    ∃ c' at_', pollerStep c at_ = some (c', at_') ∧ Polls c c' w at_ woken at_' := by
  obtain ⟨isWoken, finds, hAfter, hFits⟩ := fits.inside
  have hInside {c' : Cell Unit W} {at_' : Poller W} (finds' : (Polled.inside w at_').Finds c' isWoken)
      (hFresh : c'.Fresh → c.Fresh) (hAhead : at_'.ahead < at_.ahead) :
      Polls c c' w at_ woken at_' :=
    .inside at_' (hFits c' _ finds' (by simp)) (fresh_le hFresh) hAhead
  cases at_ with
  | loadNotified ctx =>
      obtain ⟨rfl, hNotified, hState, hLock⟩ := finds
      exact ⟨c, .loadState (some w), by simp [pollerStep, hNotified],
        hInside ⟨rfl, hNotified, hState, hLock⟩ id (by simp [Poller.ahead])⟩
  | loadState ctx =>
      obtain ⟨rfl, hNotified, hState, hLock⟩ := finds
      cases isWoken with
      | false =>
          have hEmpty : c.state = EMPTY := hState
          exact ⟨c, .swapUpdating w EMPTY, by simp [pollerStep, hEmpty],
            hInside ⟨rfl, rfl, hNotified, hState, hLock⟩ id (by simp [Poller.ahead])⟩
      | true =>
          have hNot : c.state = NOTIFIED := hState
          exact ⟨c, .storeNotified, by simp [pollerStep, hNot],
            hInside ⟨rfl, hNotified, hNot⟩ id (by simp [Poller.ahead])⟩
  | swapUpdating v seen =>
      obtain ⟨rfl, rfl, hNotified, hState, hLock⟩ := finds
      cases isWoken with
      | false =>
          have hEmpty : c.state = EMPTY := hState
          exact ⟨{ c with state := UPDATING }, .tryLock v, by simp [pollerStep, hEmpty],
            hInside ⟨rfl, hNotified, rfl, hLock⟩ (fun _ => ⟨hNotified, .inl hEmpty⟩) (by simp [Poller.ahead])⟩
      | true =>
          have hNot : c.state = NOTIFIED := hState
          exact ⟨c, .storeNotified, by simp [pollerStep, hNot],
            hInside ⟨rfl, hNotified, hNot⟩ id (by simp [Poller.ahead])⟩
  | tryLock v =>
      obtain ⟨rfl, hNotified, hState, hLock⟩ := finds
      exact ⟨{ c with lock := some .poller }, .store v, by simp [pollerStep, hLock],
        hInside ⟨rfl, hNotified, hState, rfl⟩ id (by simp [Poller.ahead])⟩
  | store v =>
      obtain ⟨rfl, hNotified, hState, hLock⟩ := finds
      exact ⟨{ c with waker := stored c.waker v, lock := none }, .swapWaiting v, rfl,
        hInside ⟨rfl, hNotified, hState, rfl, stored_eq c.waker v⟩ id (by simp [Poller.ahead])⟩
  | swapWaiting v =>
      obtain ⟨rfl, hNotified, hState, hLock, hWaker⟩ := finds
      cases isWoken with
      | false =>
          have hUpdating : c.state = UPDATING := hState
          refine ⟨{ c with state := WAITING }, .idle false, by simp [pollerStep, hUpdating],
            .pending (by simp [← hAfter]) (hFits _ _ ⟨hNotified, rfl⟩ ?_) ?_ (by simp [Poller.ahead])⟩
          · rintro u hWaiting
            cases hWaiting
            exact ⟨hLock, hWaker⟩
          · have hFresh : c.Fresh := ⟨hNotified, .inr hUpdating⟩
            have hStale : ¬({ c with state := WAITING } : Cell Unit W).Fresh := by simp [Cell.Fresh]
            rw [Cell.fresh, Cell.fresh, if_pos hFresh, if_neg hStale]
      | true =>
          have hNot : c.state = NOTIFIED := hState
          exact ⟨c, .storeNotified, by simp [pollerStep, hNot],
            hInside ⟨rfl, hNotified, hNot⟩ id (by simp [Poller.ahead])⟩
  | storeNotified =>
      obtain ⟨rfl, hNotified, hState⟩ := finds
      exact ⟨{ c with notified := true }, .storeEmpty, rfl,
        hInside ⟨rfl, rfl, hState⟩ (fun hFresh => by simp [Cell.Fresh] at hFresh) (by simp [Poller.ahead])⟩
  | storeEmpty =>
      obtain ⟨rfl, hNotified, hState⟩ := finds
      exact ⟨{ c with state := EMPTY }, .idle true, rfl, .ready (hAfter.mp rfl)
        (hFits _ _ ⟨rfl, hNotified⟩ (by simp))
        (fresh_le fun hFresh => by simp [Cell.Fresh, hNotified] at hFresh) (by simp [Poller.ahead])⟩
  | idle ready | resetLoad | resetStore | panicked failure => exact finds.elim

/-- What an operation of `wake` comes to, but for the call of the waker. -/
inductive Wakes (c c' : Cell Unit W) (polled : Polled W) (at_ : Waking W) : Waking W → Prop where
  | ended (fits : Fits c' polled .after) (alone : ∀ w, polled ≠ .waiting w)
      (fresh : c'.fresh ≤ c.fresh) : Wakes c c' polled at_ .idle
  | inside (at_' : Waking W) (fits : Fits c' polled (.inside at_')) (fresh : c'.fresh ≤ c.fresh)
      (ahead : at_'.ahead < at_.ahead) : Wakes c c' polled at_ at_'

/-- The update of the state word. -/
theorem Fits.update (fits : Fits c polled (.inside .update)) :
    ∃ c' at_', wakerStep c () .update = some (c', at_') ∧ Wakes c c' polled .update at_' := by
  obtain ⟨finds, hWaiting⟩ := fits
  have hStale : ¬({ c with state := NOTIFIED } : Cell Unit W).Fresh := by simp [Cell.Fresh]
  have hFresh : ({ c with state := NOTIFIED } : Cell Unit W).fresh ≤ c.fresh :=
    fresh_le fun hFresh => absurd hFresh hStale
  have hOver (finds' : polled.Finds { c with state := NOTIFIED } true)
      (hAlone : ∀ w, polled ≠ .waiting w) (hState : c.state = EMPTY ∨ c.state = UPDATING) :
      ∃ c' at_', wakerStep c () .update = some (c', at_') ∧ Wakes c c' polled .update at_' := by
    refine ⟨{ c with state := NOTIFIED }, .idle, ?_,
      .ended ⟨finds', fun w h => absurd h (hAlone w)⟩ hAlone hFresh⟩
    rcases hState with hState | hState <;> simp [wakerStep, hState]
  cases polled with
  | away =>
      obtain ⟨hNotified, hState, hLock⟩ := finds
      exact hOver ⟨hNotified, rfl, hLock⟩ (by simp) (.inl hState)
  | ready => exact absurd finds.1 Bool.false_ne_true
  | waiting w =>
      obtain ⟨hNotified, hState⟩ := finds
      have hWait : c.state = WAITING := hState
      obtain ⟨hLock, hWaker⟩ := hWaiting w rfl
      exact ⟨{ c with state := NOTIFIED }, .lock, by simp [wakerStep, hWait],
        .inside .lock ⟨w, rfl, ⟨hNotified, rfl⟩, hLock, hWaker⟩ hFresh (by simp [Waking.ahead])⟩
  | inside w at_ =>
      cases at_ with
      | loadNotified ctx | loadState ctx =>
          obtain ⟨hCtx, hNotified, hState, hLock⟩ := finds
          exact hOver ⟨hCtx, hNotified, rfl, hLock⟩ (by simp) (.inl hState)
      | swapUpdating v seen =>
          obtain ⟨hv, hSeen, hNotified, hState, hLock⟩ := finds
          exact hOver ⟨hv, hSeen, hNotified, rfl, hLock⟩ (by simp) (.inl hState)
      | tryLock v | store v =>
          obtain ⟨hv, hNotified, hState, hLock⟩ := finds
          exact hOver ⟨hv, hNotified, rfl, hLock⟩ (by simp) (.inr hState)
      | swapWaiting v =>
          obtain ⟨hv, hNotified, hState, hLock, hWaker⟩ := finds
          exact hOver ⟨hv, hNotified, rfl, hLock, hWaker⟩ (by simp) (.inr hState)
      | storeNotified | storeEmpty => exact absurd finds.1 Bool.false_ne_true
      | idle ready | resetLoad | resetStore | panicked failure => exact finds.elim

/-- The wake never waits for the lock in vain, and finds the waker of the task that waits. -/
theorem Fits.wake {at_ : Waking W} (fits : Fits c polled (.inside at_))
    (hInvoke : ∀ w, at_ ≠ .invoke w) :
    ∃ c' at_', wakerStep c () at_ = some (c', at_') ∧ Wakes c c' polled at_ at_' := by
  cases at_ with
  | update => exact fits.update
  | lock =>
      obtain ⟨w, rfl, finds, hLock, hWaker⟩ := fits
      exact ⟨{ c with lock := some (.waker ()) }, .take, by simp [wakerStep, hLock],
        .inside .take ⟨w, rfl, finds, rfl, hWaker⟩ (fresh_le id) (by simp [Waking.ahead])⟩
  | take =>
      obtain ⟨w, rfl, finds, hLock, hWaker⟩ := fits
      exact ⟨{ c with waker := none, lock := none }, .invoke w, by simp [wakerStep, hWaker],
        .inside (.invoke w) ⟨rfl, finds, rfl⟩ (fresh_le id) (by simp [Waking.ahead])⟩
  | invoke w => exact absurd rfl (hInvoke w)
  | idle | panicked => exact fits.elim

/-- The waker that is called is the one of the task that waits, and the wake is over. -/
theorem Fits.invoke (fits : Fits c polled (.inside (.invoke w))) :
    polled = .waiting w ∧ Fits c polled .after := by
  obtain ⟨rfl, finds, hLock⟩ := fits
  exact ⟨rfl, finds, fun _ _ => hLock⟩

end Yaar.AtomicWaker
