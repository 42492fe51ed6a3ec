import Yaar.Net.PollIoReadiness

/-! Tasks that share one socket by reference. -/
namespace Yaar.Net.PollIo

open Machine AtomicWaker

variable {T V W : Type*} [Fintype T] [DecidableEq T] [DecidableEq V] [DecidableEq W] {L : Layout}
  {s s' : State T V W}

/-- The calls of one kind do not overlap, and no wake holds the lock of a slot where a
poll tries it, as when wakes come between the turns of a call. -/
structure Orderly (s : State T V W) (e : Event T V W) : Prop where
  one : OneCaller s e
  lock : ∀ t id kind ctx isPending w p, e = .step t →
    s.callers t = .call id kind ctx (.poll isPending (.tryLock w)) → s.sockets id = .live p →
    (s.cell p.index kind).lock = none

/-! ## No failure -/

omit [Fintype T] [DecidableEq T] [DecidableEq V] [DecidableEq W] in
theorem polled_fine {id : SocketId} {kind : WakerKind} {ctx : Option W} {isPending : Bool}
    {at_ : AtomicWaker.Poller W} (h : ∀ failure, at_ ≠ .panicked failure) (failure : Failure) :
    Caller.polled id kind ctx isPending at_ ≠ .panicked failure := by
  unfold Caller.polled
  split
  · simp
  · cases isPending <;> simp
  · next f => exact absurd rfl (h f)
  · simp

omit [Fintype T] [DecidableEq T] [DecidableEq V] [DecidableEq W] in
theorem resetting_fine {id : SocketId} {kind : WakerKind} {ctx : Option W}
    {at_ : AtomicWaker.Poller W} (h : ∀ failure, at_ ≠ .panicked failure) (failure : Failure) :
    Caller.resetting id kind ctx at_ ≠ .panicked failure := by
  unfold Caller.resetting
  split
  · simp
  · next f => exact absurd rfl (h f)
  · simp

omit [Fintype T] [DecidableEq V] in
/-- A call that finds what it needs in its slot fails in its counts only. -/
theorem callStep_fine {t : T} {id : SocketId} {kind : WakerKind} {ctx : Option W} {p : Pollable}
    {line : Line W} {failure : Failure} (serves : Serves (s.cell p.index kind) line.poller)
    (h : s.callStep t id p kind ctx line = some s') (hFailed : s'.callers t = .panicked failure) :
    failure = .begin ∧ line = .begin ∧ s.pending = usizeMAX ∨
      failure = .complete ∧ line = .complete ∧ s.pending = 0 := by
  cases line with
  | inIo => simp [State.callStep] at h
  | load | storePending | storeCompleted | loadBudget | storeBudget budget | yield | doIo =>
      obtain rfl := Option.some.inj h
      simp [callers_setCaller] at hFailed
  | begin =>
      obtain rfl := Option.some.inj h
      rw [callers_setCaller] at hFailed
      split at hFailed
      · next hFull => exact .inl ⟨(Caller.panicked.inj hFailed).symm, rfl, hFull⟩
      · simp at hFailed
  | complete =>
      obtain rfl := Option.some.inj h
      rw [callers_setCaller] at hFailed
      split at hFailed
      · next hNone => exact .inr ⟨(Caller.panicked.inj hFailed).symm, rfl, hNone⟩
      · simp at hFailed
  | poll isPending at_ =>
      obtain ⟨⟨cell, at_'⟩, hCell, rfl⟩ := Option.map_eq_some_iff.mp h
      rw [callers_setCaller] at hFailed
      exact absurd hFailed (polled_fine (pollerStep_fine serves hCell) failure)
  | reset at_ =>
      obtain ⟨⟨cell, at_'⟩, hCell, rfl⟩ := Option.map_eq_some_iff.mp h
      rw [callers_setCaller] at hFailed
      exact absurd hFailed (resetting_fine (pollerStep_fine serves hCell) failure)

/-- No call has failed. -/
def Unfailed (s : State T V W) : Prop := ∀ t failure, s.callers t ≠ .panicked failure

/-- The operation of a call: where it stands, and the socket it is for. -/
structure Operates (s : State T V W) (e : Event T V W) (t : T) (x : SocketId × WakerKind)
    (p : Pollable) (line : Line W) : Prop where
  event : e = .step t
  call : ∃ ctx, s.callers t = .call x.1 x.2 ctx line
  live : s.sockets x.1 = .live p

/-- A step keeps all calls from failing when its call finds what it needs in its slot, and
its count within bounds. -/
theorem unfailed_next {e : Event T V W} (owns : Owns L s) (unfailed : Unfailed s)
    (serves : ∀ t x p line, Operates s e t x p line → Serves (s.cell p.index x.2) line.poller)
    (begins : ∀ t x p, Operates s e t x p .begin → s.pending ≠ usizeMAX)
    (completes : ∀ t x p, Operates s e t x p .complete → s.pending ≠ 0)
    (h : next L s e = some s') : Unfailed s' := by
  intro t failure hFailed
  have hOther : ∀ {u : T} {caller : Caller W}, s'.callers = Function.update s.callers u caller →
      t = u := by
    intro u caller hCallers
    by_contra hNe
    rw [hCallers, Function.update_of_ne hNe] at hFailed
    exact unfailed t failure hFailed
  cases e with
  | alloc id =>
      obtain ⟨-, index?, storage, -, rfl⟩ := next_alloc h
      exact unfailed t failure hFailed
  | register id ok =>
      obtain ⟨index, -, rfl | rfl⟩ := next_register h <;> exact unfailed t failure hFailed
  | call u id kind ctx =>
      obtain ⟨-, p, hLive, rfl⟩ := next_call h
      obtain rfl := hOther rfl
      rw [callers_setCaller, if_pos (owns.used id p.index (by rw [hLive]; rfl)).2] at hFailed
      simp at hFailed
  | step u =>
      obtain ⟨id, kind, ctx, line, p, hCall, hLive, hStep⟩ := next_step h
      obtain ⟨p', caller, done⟩ := callStep_calling hLive hStep
      obtain rfl := hOther done.callers
      have operates : Operates s (.step t) t (id, kind) p line := ⟨rfl, ⟨ctx, hCall⟩, hLive⟩
      obtain ⟨-, rfl, hFull⟩ | ⟨-, rfl, hNone⟩ :=
        callStep_fine (serves t (id, kind) p line operates) hStep hFailed
      · exact begins t (id, kind) p operates hFull
      · exact completes t (id, kind) p operates hNone
  | doIo u result =>
      obtain ⟨id, kind, ctx, -, rfl⟩ := next_doIo h
      obtain rfl := hOther rfl
      rw [callers_setCaller] at hFailed
      cases result <;> simp [Caller.returned] at hFailed
  | drop id =>
      obtain ⟨p, -, -, rfl⟩ := next_drop h
      split at hFailed <;> exact unfailed t failure hFailed
  | dropping id =>
      obtain ⟨p, at_, -, hStep⟩ := next_dropping h
      obtain ⟨socket, -, hCallers, -⟩ := dropStep_sockets hStep
      exact unfailed t failure (hCallers ▸ hFailed)
  | wake v index kind =>
      obtain ⟨-, -, rfl⟩ := next_wake h
      exact unfailed t failure hFailed
  | waker u =>
      obtain ⟨wake, cell, at_, -, -, rfl⟩ := next_waker h
      exact unfailed t failure hFailed

omit [Fintype T] [DecidableEq T] [DecidableEq V] [DecidableEq W] in
theorem Unfailed.quiet (unfailed : Unfailed s) : Quiet s :=
  fun t failure => unfailed t (.waker failure)

/-- No wake has failed. -/
def WakesFine (s : State T V W) : Prop :=
  ∀ u wake, s.wakes u = some wake → wake.at_ ≠ .panicked

omit [Fintype T] [DecidableEq T] [DecidableEq W] in
/-- A wake that goes on without failing keeps the others as they are. -/
theorem WakesFine.setWake {u : V ⊕ SocketId} {wake? : Option (Wake W)} (fine : WakesFine s)
    (hWakes : s'.wakes = Function.update s.wakes u wake?)
    (hWake : ∀ wake, wake? = some wake → wake.at_ ≠ .panicked) : WakesFine s' := by
  intro v wake hv
  rw [hWakes] at hv
  by_cases hEq : v = u
  · subst hEq
    rw [Function.update_self] at hv
    exact hWake wake hv
  · rw [Function.update_of_ne hEq] at hv
    exact fine v wake hv

omit [Fintype T] [DecidableEq T] [DecidableEq W] in
theorem WakesFine.dropStep {id : SocketId} {p : Pollable} {at_ : Dropping} (fine : WakesFine s)
    (h : s.dropStep id p at_ = some s') : WakesFine s' := by
  cases at_ with
  | wake kind =>
      simp only [State.dropStep] at h
      split at h
      · simp at h
      · obtain rfl := Option.some.inj h
        exact fine.setWake rfl (by simp)
      · obtain rfl := Option.some.inj h
        exact fine
  | load kind | free =>
      obtain rfl := Option.some.inj h
      exact fine
  | complete kind =>
      have hNext := Option.some.inj h
      have hWakes : s'.wakes = s.wakes := by rw [← hNext, State.setSocket]
      unfold WakesFine
      rwa [hWakes]
  | panicked => simp [State.dropStep] at h

/-- A wake fails only in a state that no slot has. -/
theorem wakesFine_next {e : Event T V W}
    (valid : ∀ index kind, ValidState (s.cell index kind).state) (fine : WakesFine s)
    (h : next L s e = some s') : WakesFine s' := by
  cases e with
  | alloc id =>
      obtain ⟨-, index?, storage, -, rfl⟩ := next_alloc h
      exact fine
  | register id ok =>
      obtain ⟨index, -, rfl | rfl⟩ := next_register h <;> exact fine
  | call u id kind ctx =>
      obtain ⟨-, p, -, rfl⟩ := next_call h
      exact fine
  | step u =>
      obtain ⟨id, kind, ctx, line, p, -, hLive, hStep⟩ := next_step h
      obtain ⟨p', caller, done⟩ := callStep_calling hLive hStep
      unfold WakesFine
      rwa [done.wakes]
  | doIo u result =>
      obtain ⟨id, kind, ctx, -, rfl⟩ := next_doIo h
      exact fine
  | drop id =>
      obtain ⟨p, -, -, rfl⟩ := next_drop h
      split
      · exact fine.setWake rfl (by simp)
      · exact fine
  | dropping id =>
      obtain ⟨p, at_, -, hStep⟩ := next_dropping h
      exact fine.dropStep hStep
  | wake v index kind =>
      obtain ⟨-, -, rfl⟩ := next_wake h
      exact fine.setWake rfl (by simp)
  | waker u =>
      obtain ⟨wake, cell, at_, -, hStep, rfl⟩ := next_waker h
      have hFine := wakerStep_no_panic (valid wake.index wake.kind) hStep
      refine fine.setWake rfl fun wake' hWake' => ?_
      split at hWake'
      · simp at hWake'
      · obtain rfl := Option.some.inj hWake'
        exact hFine

/-- What the steps of such a run keep. -/
structure Fine (L : Layout) (s : State T V W) : Prop where
  sound : Sound L s
  unfailed : Unfailed s
  wakes : WakesFine s

theorem fine_initial : Fine L (system T V W L).initial := by
  refine ⟨sound_run .refl meets_nil fun t failure => ?_, fun t failure => ?_, fun u wake => ?_⟩
  · simp [system]
  · simp [system]
  · simp [system]

omit [Fintype T] [DecidableEq T] [DecidableEq V] [DecidableEq W] in
/-- What the operation of a single call finds in its slot. -/
theorem Sound.finds {e : Event T V W} {t : T} {x : SocketId × WakerKind} {p : Pollable}
    {line : Line W} (sound : Sound L s) (operates : Operates s e t x p line) :
    Finds (s.cell p.index x.2) line := by
  obtain ⟨ctx, hCall⟩ := operates.call
  exact sound.facts.calls t p.index x.2 line ⟨x.1, ctx, p, hCall, operates.live, rfl⟩

/-- An orderly step makes no call fail. The slot has one caller, the lock is free and
the count has room. -/
theorem fine_next {e : Event T V W} (fine : Fine L s) (orderly : Orderly s e)
    (h : next L s e = some s') : Fine L s' := by
  have exact' := exact_next fine.sound.exact_ fine.sound.owns orderly.one h
  have serves : ∀ t x p line, Operates s e t x p line →
      Serves (s.cell p.index x.2) line.poller := by
    intro t x p line operates
    have finds := fine.sound.finds operates
    refine finds.facts.serves fun w hAt => ?_
    obtain ⟨ctx, hCall⟩ := operates.call
    cases line with
    | poll isPending at_ =>
        obtain rfl : at_ = .tryLock w := hAt
        exact orderly.lock t x.1 x.2 ctx isPending w p operates.event hCall operates.live
    | reset at_ =>
        obtain rfl : at_ = .tryLock w := hAt
        exact absurd finds.shaped (by simp [Line.Shaped])
    | _ => simp [Line.poller] at hAt
  have begins : ∀ t x p, Operates s e t x p .begin → s.pending ≠ usizeMAX := by
    rintro t x p ⟨rfl, ⟨ctx, hCall⟩, hLive⟩ hFull
    rw [next_of_call hCall hLive, State.callStep, if_pos hFull] at h
    obtain rfl := Option.some.inj h
    exact (exact'.calls t).1 (callers_setCaller ..)
  have completes : ∀ t x p, Operates s e t x p .complete → s.pending ≠ 0 := by
    rintro t x p ⟨rfl, ⟨ctx, hCall⟩, hLive⟩ hNone
    rw [next_of_call hCall hLive, State.callStep, if_pos hNone] at h
    obtain rfl := Option.some.inj h
    exact (exact'.calls t).2 (callers_setCaller ..)
  have unfailed' := unfailed_next fine.sound.owns fine.unfailed serves begins completes h
  exact ⟨sound_next fine.sound orderly.one unfailed'.quiet h, unfailed',
    wakesFine_next fine.sound.facts.valid fine.wakes h⟩

/-- A step at a `try_lock` finds the lock free. -/
def lockFree (z : State Unit Unit Unit × Event Unit Unit Unit) : Bool :=
  match z.1.callers () with
  | .call id kind _ (.poll _ (.tryLock _)) =>
      (z.1.sockets id).index?.all fun index => (z.1.locks index kind).isNone
  | _ => true

/-- A run of a single thread is orderly where every `try_lock` finds the lock free. -/
theorem orderly_of_lockFree {s : State Unit Unit Unit}
    {steps : List (State Unit Unit Unit × Event Unit Unit Unit)}
    (run : (system Unit Unit Unit L).Run steps s) (hFree : ∀ z ∈ steps, lockFree z = true) :
    Meets Orderly steps := by
  refine fun z hz => ⟨?_, ?_⟩
  · obtain ⟨first, rest, hSplit⟩ := List.append_of_mem hz
    rw [hSplit] at run
    obtain ⟨u, -, hNext, -⟩ := System.Path.split run
    exact oneCaller_of_next hNext
  · rintro ⟨⟩ id kind ctx isPending w p - hCall hLive
    have hLock := hFree z hz
    simp only [lockFree, hCall, hLive, Socket.index?, Option.all_some] at hLock
    exact Option.isNone_iff_eq_none.mp hLock

end Yaar.Net.PollIo
