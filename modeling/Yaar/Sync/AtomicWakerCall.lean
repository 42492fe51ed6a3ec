import Yaar.Sync.AtomicWaker

/-! The calls of `AtomicWaker` as they act when nothing interleaves with them,
for the components whose histories are made of whole calls. -/
namespace Yaar

open Machine

/-- `std::task::Poll`. -/
inductive Poll (α : Type*) where
  | ready (value : α)
  | pending
  deriving DecidableEq

namespace AtomicWaker

variable {T W : Type*} [DecidableEq T] [DecidableEq W]

/-- `poll`. It has no result when it panics. -/
def poll (a : AtomicWaker W) (ctx : Option W) : Option (AtomicWaker W × Poll Unit) :=
  if a.notified then some (a, .ready ())
  else if a.state = EMPTY ∨ a.state = WAITING then
    match ctx with
    | none => some (a, .pending)
    | some w => some ({ a with state := WAITING, waker := stored a.waker w }, .pending)
  else if a.state = NOTIFIED then
    some ({ a with notified := true, state := EMPTY }, .ready ())
  else none

/-- `wake`, with the waker it invokes. -/
def wake (a : AtomicWaker W) : AtomicWaker W × Option W :=
  if a.state = NOTIFIED then (a, none)
  else if a.state = WAITING then ({ a with state := NOTIFIED, waker := none }, a.waker)
  else ({ a with state := NOTIFIED }, none)

/-- `reset`. It has no result when its assertion fails. -/
def reset (a : AtomicWaker W) : Option (AtomicWaker W) :=
  if a.notified then some { a with notified := false } else none

/-- A wake recorded in either word makes the next poll `Ready`. -/
def Notified (a : AtomicWaker W) : Prop := a.notified = true ∨ a.state = NOTIFIED

instance (a : AtomicWaker W) : Decidable a.Notified :=
  inferInstanceAs (Decidable (_ ∨ _))

/-- No poll is inside its registration. -/
def Calm (a : AtomicWaker W) : Prop := Settled a.state

omit [DecidableEq W] in
theorem calm_new : (new : AtomicWaker W).Calm := Or.inl rfl

omit [DecidableEq W] in
theorem calm_wake {a : AtomicWaker W} (calm : a.Calm) : a.wake.1.Calm := by
  unfold wake
  split
  · exact calm
  · split <;> exact Or.inr (Or.inr rfl)

/-- A poll between calls never panics, and answers `Ready` to a recorded wake only. -/
theorem poll_calm {a : AtomicWaker W} (calm : a.Calm) (ctx : Option W) :
    ∃ a' r, a.poll ctx = some (a', r) ∧ a'.Calm ∧
      (¬a.Notified → r = .pending ∧ ¬a'.Notified) := by
  have hOpen : ¬a.notified = true → a.state = EMPTY ∨ a.state = WAITING →
      ∃ a', a.poll ctx = some (a', .pending) ∧ a'.Calm ∧ ¬a'.Notified := by
    intro hNotified hState
    cases ctx with
    | none =>
        refine ⟨a, by simp [poll, hNotified, hState], calm, ?_⟩
        rintro (h | h)
        · exact hNotified h
        · rcases hState with hState | hState <;> rw [hState] at h <;> exact absurd h (by decide)
    | some w =>
        refine ⟨{ a with state := WAITING, waker := stored a.waker w }, ?_, Or.inr (Or.inl rfl), ?_⟩
        · simp [poll, hNotified, hState]
        · simp [Notified, hNotified]
  by_cases hNotified : a.notified = true
  · exact ⟨a, .ready (), by simp [poll, hNotified], calm, fun h => (h (Or.inl hNotified)).elim⟩
  · rcases calm with hState | hState | hState
    · obtain ⟨a', hPoll, hCalm, hQuiet⟩ := hOpen hNotified (Or.inl hState)
      exact ⟨a', .pending, hPoll, hCalm, fun _ => ⟨rfl, hQuiet⟩⟩
    · obtain ⟨a', hPoll, hCalm, hQuiet⟩ := hOpen hNotified (Or.inr hState)
      exact ⟨a', .pending, hPoll, hCalm, fun _ => ⟨rfl, hQuiet⟩⟩
    · exact ⟨{ a with notified := true, state := EMPTY }, .ready (),
        by simp [poll, hNotified, hState], Or.inl rfl, fun h => (h (Or.inr hState)).elim⟩

omit [DecidableEq W] in
theorem calm_reset {a a' : AtomicWaker W} (calm : a.Calm) (h : a.reset = some a') : a'.Calm := by
  unfold reset at h
  split at h
  · exact Option.some.inj h ▸ calm
  · simp at h

/-- The shared state between calls, with the mutex free. -/
def Cell.of (a : AtomicWaker W) : Cell T W := { a with lock := none }

/-- A poll that runs undisturbed takes the machine's steps to the same result. -/
theorem poll_path {a a' : AtomicWaker W} {ctx : Option W} {r : Poll Unit}
    (h : a.poll ctx = some (a', r)) (ready : Bool) (wakers : T → Waking W) :
    ∃ events, (system T W).replay ⟨.of a, .idle ready, wakers⟩ events =
      some ⟨.of a', .idle (decide (r = .ready ())), wakers⟩ := by
  unfold poll at h
  split at h
  · next hNotified =>
      obtain ⟨rfl, rfl⟩ : a = a' ∧ Poll.ready () = r := by simpa using h
      exact ⟨[.poll ctx, .poller], by
        simp [System.replay, system, next, pollerStep, Cell.of, hNotified]⟩
  · next hNotified =>
      split at h
      · next hState =>
          cases ctx with
          | none =>
              obtain ⟨rfl, rfl⟩ : a = a' ∧ Poll.pending = r := by simpa using h
              exact ⟨[.poll none, .poller, .poller], by
                simp [System.replay, system, next, pollerStep, Cell.of, hNotified, hState]⟩
          | some w =>
              simp only [Option.some.injEq, Prod.mk.injEq] at h
              obtain ⟨rfl, rfl⟩ := h
              exact ⟨[.poll (some w), .poller, .poller, .poller, .poller, .poller, .poller], by
                simp [System.replay, system, next, pollerStep, Cell.of, hNotified, hState]⟩
      · next hState =>
          split at h
          · next hWoken =>
              simp only [Option.some.injEq, Prod.mk.injEq] at h
              obtain ⟨rfl, rfl⟩ := h
              exact ⟨[.poll ctx, .poller, .poller, .poller, .poller], by
                simp [System.replay, system, next, pollerStep, Cell.of, hNotified, hWoken]⟩
          · simp at h

/-- A reset after a `Ready` that runs undisturbed. -/
theorem reset_path {a a' : AtomicWaker W} (h : a.reset = some a') (wakers : T → Waking W) :
    (system T W).replay ⟨.of a, .idle true, wakers⟩ [.reset, .poller, .poller] =
      some ⟨.of a', .idle false, wakers⟩ := by
  unfold reset at h
  split at h
  · next hNotified =>
      obtain rfl : _ = a' := by simpa using h
      simp [System.replay, system, next, pollerStep, Cell.of, hNotified]
  · simp at h

/-- A wake of a calm waker that runs undisturbed, up to its invocation. -/
theorem wake_path {a : AtomicWaker W} (calm : a.Calm) (poller : Poller W) {wakers : T → Waking W}
    {t : T} (hIdle : wakers t = .idle) :
    ∃ events, (system T W).replay ⟨.of a, poller, wakers⟩ events =
      some ⟨.of a.wake.1, poller, wakers⟩ := by
  rcases calm with hState | hState | hState
  · exact ⟨[.wake t, .waker t], by
      simp [System.replay, system, next, wakerStep, Cell.of, wake, hState, hIdle]⟩
  · cases hWaker : a.waker with
    | none => exact ⟨[.wake t, .waker t, .waker t, .waker t], by
        simp [System.replay, system, next, wakerStep, Cell.of, wake, hState, hIdle, hWaker]⟩
    | some w => exact ⟨[.wake t, .waker t, .waker t, .waker t, .waker t], by
        simp [System.replay, system, next, wakerStep, Cell.of, wake, hState, hIdle, hWaker]⟩
  · exact ⟨[.wake t, .waker t], by
      simp [System.replay, system, next, wakerStep, Cell.of, wake, hState, hIdle]⟩

end AtomicWaker
end Yaar
