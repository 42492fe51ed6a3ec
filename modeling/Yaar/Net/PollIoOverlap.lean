import Yaar.Net.PollIoShared

/-! What calls that overlap in one slot find there, as long as they do not meet. -/
namespace Yaar.Net.PollIo

open Machine AtomicWaker

variable {T V W : Type*} [Fintype T] [DecidableEq T] [DecidableEq V] [DecidableEq W] {L : Layout}
  {s s' : State T V W}

/-- Where a caller stands in the waker of its slot. -/
def Caller.poller : Caller W → AtomicWaker.Poller W
  | .call _ _ _ line => line.poller
  | _ => .idle false

/-! ## The calls of a slot -/

section Polls

omit [Fintype T] [DecidableEq T] [DecidableEq V] [DecidableEq W]

/-- Where the threads stand in the waker of a slot. -/
def State.polls (s : State T V W) (index : WakerIndex) (kind : WakerKind) (t : T) :
    AtomicWaker.Poller W :=
  match s.callers t with
  | .call id k _ line =>
      if (s.sockets id).index? = some index ∧ k = kind then line.poller else .idle false
  | _ => .idle false

/-- The calls of every slot keep out of each other's way. -/
def Slots (s : State T V W) : Prop :=
  ∀ index kind, Separate (s.cell index kind).state (s.polls index kind)

/-- A call stands in the waker of the slot that its socket has. -/
theorem polls_call {t : T} {id : SocketId} {kind : WakerKind} {ctx : Option W} {line : Line W}
    {p : Pollable} (hCall : s.callers t = .call id kind ctx line) (hLive : s.sockets id = .live p) :
    s.polls p.index kind t = line.poller := by
  simp only [State.polls, hCall, hLive, Socket.index?, and_self, if_true]

/-- A thread that stands somewhere in the waker of a live socket calls for this socket. -/
theorem polls_idle {t : T} {x : SocketId × WakerKind} {p : Pollable} (owns : Owns L s)
    (hLive : s.sockets x.1 = .live p) (hPair : (s.callers t).pair? ≠ some x) :
    s.polls p.index x.2 t = .idle false := by
  unfold State.polls
  split
  · next id k ctx line hCall =>
      split
      · next hSlot =>
          have hId : id = x.1 := owns.apart id x.1 p.index hSlot.1 (by rw [hLive]; rfl)
          exact absurd (by rw [hCall, Caller.pair?, hId, hSlot.2]) hPair
      · rfl
  · rfl

theorem clear_idle (ready : Bool) : Clear (.idle ready : AtomicWaker.Poller W) :=
  ⟨rfl, by simp⟩

theorem not_clashes_idle (state : UInt8) (at_ : AtomicWaker.Poller W) :
    ¬Clashes state at_ (.idle false) := by
  cases at_ <;> simp [Clashes, updating?]

/-- No call operates in the slot, as when a socket nobody calls changes. -/
theorem polls_setSocket {id : SocketId} {socket : Socket} (hCallers : s'.callers = s.callers)
    (hSockets : s'.sockets = Function.update s.sockets id socket)
    (hFree : ∀ t, (s.callers t).socket? ≠ some id) (index : WakerIndex) (kind : WakerKind) :
    s'.polls index kind = s.polls index kind := by
  funext t
  unfold State.polls
  rw [hCallers, hSockets]
  split
  · next id' k ctx line hCall =>
      have hNe : id' ≠ id := by
        rintro rfl
        exact hFree t (by rw [hCall]; rfl)
      rw [Function.update_of_ne hNe]
  · rfl

/-- Nobody moves in a waker, which stays as it is, takes a wake or is new. -/
theorem Slots.cells (slots : Slots s)
    (hPolls : ∀ index kind, s'.polls index kind = s.polls index kind)
    (hCells : ∀ index kind, (s'.cell index kind).state = (s.cell index kind).state ∨
      (s'.cell index kind).state = NOTIFIED ∨
      (s'.cell index kind).state = EMPTY ∧ ∀ t, s.polls index kind t = .idle false) : Slots s' := by
  intro index kind
  rw [hPolls]
  obtain hSame | hNotified | ⟨hEmpty, hIdle⟩ := hCells index kind
  · exact (slots index kind).notify (.inl hSame)
  · exact (slots index kind).notify (.inr hNotified)
  · have hNobody : ∀ t, Clear (s.polls index kind t) := fun t => hIdle t ▸ clear_idle false
    refine ⟨fun t => (hNobody t).suits, fun t u ht _ => ?_, fun t u w seen ht => ?_, fun hState => ?_⟩
    · simp [(hNobody t).1] at ht
    · exact (hNobody u).2 w seen
    · rw [hEmpty] at hState
      exact absurd hState (by decide : EMPTY ≠ UPDATING)

end Polls

section Calling

variable {t : T} {id : SocketId} {kind : WakerKind} {ctx : Option W} {p p' : Pollable}
  {caller : Caller W} {line : Line W}

omit [Fintype T] [DecidableEq V] [DecidableEq W] in
/-- A call moves in its own slot. -/
theorem polls_calling (hLive : s.sockets id = .live p)
    (done : Calling s s' t id kind p p' caller) (hPair : (s.callers t).pair? = some (id, kind))
    (index : WakerIndex) (k : WakerKind) :
    s'.polls index k = if index = p.index ∧ k = kind
      then Function.update (s.polls index k) t caller.poller else s.polls index k := by
  have hIndex : ∀ id', (s'.sockets id').index? = (s.sockets id').index? := by
    intro id'
    rw [done.sockets]
    by_cases hEq : id' = id
    · rw [hEq, Function.update_self, hLive, Socket.index?, Socket.index?, done.index]
    · rw [Function.update_of_ne hEq]
  have hOthers : ∀ u, u ≠ t → s'.polls index k u = s.polls index k u := by
    intro u hNe
    unfold State.polls
    rw [done.callers, Function.update_of_ne hNe]
    simp only [hIndex]
  obtain ⟨ctx, line, hCall⟩ := call_of_pair hPair
  funext u
  by_cases hSlot : index = p.index ∧ k = kind
  · obtain ⟨rfl, rfl⟩ := hSlot
    rw [if_pos ⟨rfl, rfl⟩]
    by_cases hEq : u = t
    · subst hEq
      rw [Function.update_self]
      unfold State.polls Caller.poller
      rw [done.callers, Function.update_self]
      cases caller with
      | call id' k' ctx' line' =>
          obtain ⟨rfl, rfl⟩ : id' = id ∧ k' = k := by simpa using done.pair (id', k') rfl
          exact if_pos ⟨(hIndex id').trans (by rw [hLive]; rfl), rfl⟩
      | idle | panicked failure => rfl
    · rw [Function.update_of_ne hEq, hOthers u hEq]
  · rw [if_neg hSlot]
    by_cases hEq : u = t
    · subst hEq
      have hApart : ¬((s.sockets id).index? = some index ∧ kind = k) := by
        rintro ⟨hHere, rfl⟩
        rw [hLive] at hHere
        exact hSlot ⟨(Option.some.inj hHere).symm, rfl⟩
      have hBefore : s.polls index k u = .idle false := by
        unfold State.polls
        rw [hCall]
        exact if_neg hApart
      rw [hBefore]
      unfold State.polls
      rw [done.callers, Function.update_self]
      cases caller with
      | call id' k' ctx' line' =>
          obtain ⟨rfl, rfl⟩ : id' = id ∧ k' = kind := by simpa using done.pair (id', k') rfl
          exact if_neg fun h => hApart ⟨(hIndex id').symm.trans h.1, h.2⟩
      | idle | panicked failure => rfl
    · exact hOthers u hEq

omit [Fintype T] [DecidableEq T] [DecidableEq V] [DecidableEq W] in
/-- Inside `poll`, and right after it, the stand of a call is that in the waker. -/
theorem polled_poller {at_ : AtomicWaker.Poller W} {isPending : Bool}
    (h : ∀ failure, at_ ≠ .panicked failure) (id : SocketId) (kind : WakerKind) (ctx : Option W) :
    (Caller.polled id kind ctx isPending at_).poller = at_ := by
  cases at_ with
  | idle ready => cases ready <;> cases isPending <;> cases ctx <;> rfl
  | panicked failure => exact absurd rfl (h failure)
  | _ => rfl

omit [Fintype T] [DecidableEq T] [DecidableEq V] [DecidableEq W] in
/-- Outside of `poll` no call is in a registration. -/
theorem clear_of_shaped {line : Line W} (shaped : line.Shaped)
    (hLine : ∀ isPending at_, line ≠ .poll isPending at_) : Clear line.poller := by
  cases line with
  | poll isPending at_ => exact absurd rfl (hLine isPending at_)
  | reset at_ =>
      obtain rfl | rfl : at_ = .resetLoad ∨ at_ = .resetStore := shaped <;>
        exact ⟨rfl, by simp [Line.poller]⟩
  | _ => exact clear_idle _

omit [Fintype T] [DecidableEq T] [DecidableEq V] [DecidableEq W] in
/-- A call in its `reset`, or after it, is in nobody's way. -/
theorem clear_resetting {at_ : AtomicWaker.Poller W} (hAt : Clear at_) (id : SocketId)
    (kind : WakerKind) (ctx : Option W) : Clear (Caller.resetting id kind ctx at_).poller := by
  cases at_ with
  | idle ready | panicked failure => exact clear_idle _
  | _ => exact hAt

omit [Fintype T] [DecidableEq V] in
/-- One operation of a call that meets no other one in its slot. -/
theorem callStep_separate {polls : T → AtomicWaker.Poller W} (shaped : line.Shaped)
    (separate : Separate (s.cell p.index kind).state polls) (hAt : polls t = line.poller)
    (hApart : ∀ u, u ≠ t → ¬Clashes (s.cell p.index kind).state line.poller (polls u))
    (serves : Serves (s.cell p.index kind) line.poller)
    (h : s.callStep t id p kind ctx line = some s') :
    Separate (s'.cell p.index kind).state (Function.update polls t (s'.callers t).poller) := by
  have hBefore : (∀ isPending at_, line ≠ .poll isPending at_) → Clear (polls t) :=
    fun hLine => hAt ▸ clear_of_shaped shaped hLine
  cases line with
  | inIo => simp [State.callStep] at h
  | poll isPending at_ =>
      obtain ⟨⟨cell, at_'⟩, hCell, rfl⟩ := Option.map_eq_some_iff.mp h
      have hFine := pollerStep_fine serves hCell
      rw [callers_setCaller, cell_setCaller, cell_setCell, if_pos ⟨rfl, rfl⟩, polled_poller hFine]
      exact separate.poll (fun u hNe => hAt ▸ hApart u hNe) hFine (hAt ▸ hCell)
  | reset at_ =>
      obtain ⟨⟨cell, at_'⟩, hCell, rfl⟩ := Option.map_eq_some_iff.mp h
      have hShaped : at_ = .resetLoad ∨ at_ = .resetStore := shaped
      have hSame : cell.state = (s.cell p.index kind).state ∧ Clear at_' := by
        obtain rfl | rfl := hShaped <;> simp only [pollerStep] at hCell <;> grind [Clear, updating?]
      rw [callers_setCaller, cell_setCaller, cell_setCell, if_pos ⟨rfl, rfl⟩, hSame.1]
      exact separate.clear (hBefore (by simp)) (clear_resetting hSame.2 id kind ctx)
  | begin | complete =>
      obtain rfl := Option.some.inj h
      rw [callers_setCaller, cell_setCaller, cell_pending]
      refine separate.clear (hBefore (by simp)) ?_
      split <;> exact clear_idle _
  | storeCompleted =>
      obtain rfl := Option.some.inj h
      rw [callers_setCaller]
      refine separate.clear (hBefore (by simp)) ?_
      cases ctx <;> exact clear_idle _
  | storeBudget budget =>
      obtain rfl := Option.some.inj h
      rw [callers_setCaller]
      refine separate.clear (hBefore (by simp)) ?_
      split <;> exact clear_idle _
  | load =>
      obtain rfl := Option.some.inj h
      rw [callers_setCaller]
      exact separate.clear (hBefore (by simp)) ⟨rfl, by simp [Caller.poller, Line.poller]⟩
  | storePending | loadBudget | yield | doIo =>
      obtain rfl := Option.some.inj h
      rw [callers_setCaller]
      exact separate.clear (hBefore (by simp)) (clear_idle _)

omit [Fintype T] [DecidableEq V] in
/-- One operation of a call, seen from all slots. -/
theorem Slots.callStep (slots : Slots s) (owns : Owns L s) (shaped : line.Shaped)
    (hCall : s.callers t = .call id kind ctx line) (hLive : s.sockets id = .live p)
    (hApart : ∀ u, u ≠ t → (s.callers u).pair? = some (id, kind) →
      ¬Clashes (s.cell p.index kind).state line.poller (s.callers u).poller)
    (serves : Serves (s.cell p.index kind) line.poller)
    (h : s.callStep t id p kind ctx line = some s') : Slots s' := by
  obtain ⟨p', caller, done⟩ := callStep_calling hLive h
  intro index k
  rw [polls_calling hLive done (by rw [hCall]; rfl)]
  by_cases hSlot : index = p.index ∧ k = kind
  · obtain ⟨rfl, rfl⟩ := hSlot
    have hCaller : s'.callers t = caller := by rw [done.callers, Function.update_self]
    rw [if_pos ⟨rfl, rfl⟩, ← hCaller]
    refine callStep_separate shaped (slots p.index k) (polls_call hCall hLive) (fun u hNe => ?_) serves h
    by_cases hPair : (s.callers u).pair? = some (id, k)
    · obtain ⟨ctx', line', hOther⟩ := call_of_pair hPair
      have hMeets := hApart u hNe hPair
      rw [polls_call hOther hLive]
      rwa [hOther] at hMeets
    · rw [polls_idle (x := (id, k)) owns hLive hPair]
      exact not_clashes_idle _ _
  · rw [if_neg hSlot, callStep_cell h index k hSlot]
    exact slots index k

omit [Fintype T] [DecidableEq T] [DecidableEq V] [DecidableEq W] in
theorem shaped_polled {at_ : AtomicWaker.Poller W} {isPending : Bool}
    (hAt : Polling at_ ∨ (∃ ready, at_ = .idle ready) ∨ ∃ failure, at_ = .panicked failure)
    {id' : SocketId} {kind' : WakerKind} {ctx' : Option W} {line' : Line W}
    (h : Caller.polled id kind ctx isPending at_ = .call id' kind' ctx' line') : line'.Shaped := by
  unfold Caller.polled at h
  split at h
  · cases isPending <;> cases ctx <;> simp [Line.spend] at h <;> obtain ⟨-, -, -, rfl⟩ := h <;> trivial
  · cases isPending <;> simp at h
    obtain ⟨-, -, -, rfl⟩ := h
    trivial
  · simp at h
  · next hTrue hFalse hPanicked =>
      obtain ⟨-, -, -, rfl⟩ : id = id' ∧ kind = kind' ∧ ctx = ctx' ∧ Line.poll isPending at_ = line' := by
        simpa using h
      obtain hPolling | ⟨ready, rfl⟩ | ⟨failure, rfl⟩ := hAt
      · exact hPolling
      · cases ready
        · exact absurd rfl hFalse
        · exact absurd rfl hTrue
      · exact absurd rfl (hPanicked failure)

omit [Fintype T] [DecidableEq V] in
/-- A call stays inside the operations of the methods it calls. -/
theorem callStep_shaped (shaped : line.Shaped) (h : s.callStep t id p kind ctx line = some s')
    {id' : SocketId} {kind' : WakerKind} {ctx' : Option W} {line' : Line W}
    (hCall : s'.callers t = .call id' kind' ctx' line') : line'.Shaped := by
  have hLine : ∀ {line'' : Line W}, Caller.call id kind ctx line'' = .call id' kind' ctx' line' →
      line''.Shaped → line'.Shaped := by
    intro line'' hEq hShaped
    obtain ⟨-, -, -, rfl⟩ : id = id' ∧ kind = kind' ∧ ctx = ctx' ∧ line'' = line' := by simpa using hEq
    exact hShaped
  cases line with
  | inIo => simp [State.callStep] at h
  | load | loadBudget | doIo =>
      obtain rfl := Option.some.inj h
      rw [callers_setCaller] at hCall
      exact hLine hCall trivial
  | storePending | yield =>
      obtain rfl := Option.some.inj h
      simp [callers_setCaller] at hCall
  | storeCompleted =>
      obtain rfl := Option.some.inj h
      rw [callers_setCaller] at hCall
      refine hLine hCall ?_
      cases ctx <;> trivial
  | storeBudget budget =>
      obtain rfl := Option.some.inj h
      rw [callers_setCaller] at hCall
      refine hLine hCall ?_
      split <;> trivial
  | begin | complete =>
      obtain rfl := Option.some.inj h
      rw [callers_setCaller] at hCall
      split at hCall
      · simp at hCall
      · exact hLine hCall trivial
  | poll isPending at_ =>
      obtain ⟨⟨cell, at_'⟩, hCell, rfl⟩ := Option.map_eq_some_iff.mp h
      rw [callers_setCaller] at hCall
      exact shaped_polled (polling_step shaped hCell) hCall
  | reset at_ =>
      obtain ⟨⟨cell, at_'⟩, hCell, rfl⟩ := Option.map_eq_some_iff.mp h
      rw [callers_setCaller] at hCall
      obtain rfl | rfl | ⟨failure, rfl⟩ := reset_step shaped hCell
      · exact hLine hCall (.inr rfl)
      · exact hLine hCall trivial
      · simp [Caller.resetting] at hCall

omit [Fintype T] [DecidableEq V] in
/-- No operation of a call leaves a state other than the four. -/
theorem callStep_valid (valid : ValidState (s.cell p.index kind).state)
    (h : s.callStep t id p kind ctx line = some s') :
    ValidState (s'.cell p.index kind).state := by
  cases line with
  | inIo => simp [State.callStep] at h
  | begin | complete =>
      obtain rfl := Option.some.inj h
      rwa [cell_setCaller, cell_pending]
  | poll isPending at_ | reset at_ =>
      obtain ⟨⟨cell, at_'⟩, hCell, rfl⟩ := Option.map_eq_some_iff.mp h
      rw [cell_setCaller, cell_setCell, if_pos ⟨rfl, rfl⟩]
      exact pollerStep_valid valid hCell
  | _ =>
      obtain rfl := Option.some.inj h
      exact valid

end Calling

/-! ## What the calls of all slots keep -/

section Steps

variable {e : Event T V W}

/-- The state of a slot that no call operates on is kept, or a wake or a new block sets it. -/
theorem state_next (owns : Owns L s) (hStep : ∀ t, e ≠ .step t) (h : next L s e = some s')
    (index : WakerIndex) (kind : WakerKind) :
    (s'.cell index kind).state = (s.cell index kind).state ∨
      (s'.cell index kind).state = NOTIFIED ∨
      (s'.cell index kind).state = EMPTY ∧ ∀ t, s.polls index kind t = .idle false := by
  cases e with
  | step t => exact absurd rfl (hStep t)
  | alloc id =>
      obtain ⟨hAbsent, index?, storage, hAlloc, rfl⟩ := next_alloc h
      cases index? with
      | none =>
          obtain rfl := WakerStorage.alloc_none hAlloc
          exact .inl rfl
      | some i =>
          have done := WakerStorage.alloc_some owns.valid hAlloc
          by_cases hCreated : s.storage.Created index
          · exact .inl (congrArg (fun wakers => (wakers kind).state) (done.older index hCreated).2)
          · obtain hSame | hNew := done.wakers index
            · exact .inl (congrArg (fun wakers => (wakers kind).state) hSame)
            · refine .inr (.inr ⟨congrArg (fun wakers => (wakers kind).state) hNew, fun t => ?_⟩)
              unfold State.polls
              split
              · exact if_neg fun hSlot => hCreated (owns.used _ _ hSlot.1).2
              · rfl
  | register id ok =>
      obtain ⟨i, -, rfl | rfl⟩ := next_register h <;> exact .inl rfl
  | call t id kind ctx =>
      obtain ⟨-, p, -, rfl⟩ := next_call h
      exact .inl rfl
  | doIo t result =>
      obtain ⟨id, kind, ctx, -, rfl⟩ := next_doIo h
      exact .inl rfl
  | drop id =>
      obtain ⟨p, -, -, rfl⟩ := next_drop h
      split <;> exact .inl rfl
  | dropping id =>
      obtain ⟨p, at_, -, hDrop⟩ := next_dropping h
      exact .inl (congrArg (fun cell => cell.state) (dropStep_cell hDrop index kind))
  | wake v i k =>
      obtain ⟨-, -, rfl⟩ := next_wake h
      exact .inl rfl
  | waker u =>
      obtain ⟨wake, cell, at_, -, hWaker, rfl⟩ := next_waker h
      change ((s.setCell wake.index wake.kind cell).cell index kind).state = _ ∨
        ((s.setCell wake.index wake.kind cell).cell index kind).state = _ ∨ _
      rw [cell_setCell]
      split
      · next hSlot =>
          obtain ⟨rfl, rfl⟩ := hSlot
          exact (wakerStep_state hWaker).1.imp_right .inl
      · exact .inl rfl

/-- The states of all slots are valid after every step, however many calls overlap. -/
theorem valid_next (owns : Owns L s) (valid : ∀ index kind, ValidState (s.cell index kind).state)
    (h : next L s e = some s') (index : WakerIndex) (kind : WakerKind) :
    ValidState (s'.cell index kind).state := by
  by_cases hStep : ∃ t, e = .step t
  · obtain ⟨t, rfl⟩ := hStep
    obtain ⟨id, k, ctx, line, p, -, -, hCallStep⟩ := next_step h
    by_cases hSlot : index = p.index ∧ kind = k
    · obtain ⟨rfl, rfl⟩ := hSlot
      exact callStep_valid (valid p.index kind) hCallStep
    · rw [callStep_cell hCallStep index kind hSlot]
      exact valid index kind
  · push Not at hStep
    obtain hSame | hNotified | ⟨hEmpty, -⟩ := state_next owns hStep h index kind
    · exact hSame ▸ valid index kind
    · exact .inr (.inr (.inr hNotified))
    · exact .inl hEmpty

/-- Every call is inside the operations of the method it calls, also where calls
overlap. -/
theorem shaped_next (shaped : ∀ t id kind ctx line, s.callers t = .call id kind ctx line → line.Shaped)
    (h : next L s e = some s') (t : T) (id : SocketId) (kind : WakerKind) (ctx : Option W)
    (line : Line W) (hCall : s'.callers t = .call id kind ctx line) : line.Shaped := by
  by_cases hSame : s'.callers t = s.callers t
  · exact shaped t id kind ctx line (hSame ▸ hCall)
  · obtain ⟨-, id', kind', ctx', rfl⟩ | ⟨id', kind', ctx', line', hBefore, rfl | ⟨rfl, result, rfl⟩⟩ :=
      moved_next h hSame
    · obtain ⟨-, p, -, rfl⟩ := next_call h
      rw [callers_setCaller] at hCall
      split at hCall
      · obtain ⟨-, -, -, rfl⟩ : id' = id ∧ kind' = kind ∧ ctx' = ctx ∧ Line.load = line := by
          simpa using hCall
        trivial
      · simp at hCall
    · obtain ⟨id'', kind'', ctx'', line'', p, hBefore', -, hStep⟩ := next_step h
      obtain ⟨-, -, -, rfl⟩ : id' = id'' ∧ kind' = kind'' ∧ ctx' = ctx'' ∧ line' = line'' := by
        simpa [hBefore] using hBefore'
      exact callStep_shaped (shaped t id' kind' ctx' line' hBefore) hStep hCall
    · obtain ⟨id'', kind'', ctx'', -, rfl⟩ := next_doIo h
      rw [callers_setCaller] at hCall
      cases result with
      | interrupted =>
          obtain ⟨-, -, -, rfl⟩ := by simpa [Caller.returned] using hCall
          trivial
      | wouldBlock =>
          obtain ⟨-, -, -, rfl⟩ := by simpa [Caller.returned] using hCall
          exact .inl rfl
      | other => simp [Caller.returned] at hCall

/-- The calls of a slot keep out of each other's way if none of them moves into a clash. -/
theorem slots_next (slots : Slots s) (owns : Owns L s)
    (shaped : ∀ t id kind ctx line, s.callers t = .call id kind ctx line → line.Shaped)
    (hApart : ∀ t u x p line, Operates s e t x p line → u ≠ t → (s.callers u).pair? = some x →
      ¬Clashes (s.cell p.index x.2).state line.poller (s.callers u).poller)
    (serves : ∀ t x p line, Operates s e t x p line → Serves (s.cell p.index x.2) line.poller)
    (h : next L s e = some s') : Slots s' := by
  have hCells := fun hStep => state_next (e := e) owns hStep h
  cases e with
  | step t =>
      obtain ⟨id, kind, ctx, line, p, hCall, hLive, hStep⟩ := next_step h
      have operates : Operates s (.step t) t (id, kind) p line := ⟨rfl, ⟨ctx, hCall⟩, hLive⟩
      exact slots.callStep owns (shaped t id kind ctx line hCall) hCall hLive
        (fun u hNe => hApart t u (id, kind) p line operates hNe) (serves t (id, kind) p line operates) hStep
  | alloc id =>
      obtain ⟨hAbsent, index?, storage, -, rfl⟩ := next_alloc h
      exact slots.cells (polls_setSocket rfl rfl (owns.uncalled fun p => by simp [hAbsent]))
        (hCells (by simp))
  | register id ok =>
      obtain ⟨index, hAllocated, rfl | rfl⟩ := next_register h <;>
        exact slots.cells (polls_setSocket rfl rfl (owns.uncalled fun p => by simp [hAllocated]))
          (hCells (by simp))
  | call t id kind ctx =>
      obtain ⟨hIdle, p, -, rfl⟩ := next_call h
      refine slots.cells (fun index k => ?_) (hCells (by simp))
      -- Before its first load a call stands where a thread without a call stands.
      funext u
      by_cases hEq : u = t
      · subst hEq
        unfold State.polls
        rw [hIdle, callers_setCaller]
        split_ifs
        · exact ite_self _
        · rfl
      · have hSame : (s.setCaller t (if s.storage.Created p.index then .call id kind ctx .load
            else .panicked .unwrap)).callers u = s.callers u := Function.update_of_ne hEq ..
        unfold State.polls
        rw [hSame]
        rfl
  | doIo t result =>
      obtain ⟨id, kind, ctx, hCall, rfl⟩ := next_doIo h
      obtain ⟨p, hLive⟩ := owns.live hCall
      have done : Calling s (s.setCaller t (.returned id kind ctx result)) t id kind p p
          (.returned id kind ctx result) := Calling.of_setCaller hLive fun x => pair_returned
      intro index k
      rw [polls_calling hLive done (by rw [hCall]; rfl)]
      by_cases hSlot : index = p.index ∧ k = kind
      · obtain ⟨rfl, rfl⟩ := hSlot
        rw [if_pos ⟨rfl, rfl⟩]
        refine (slots p.index k).clear ?_ ?_
        · rw [polls_call hCall hLive]
          exact clear_idle true
        · cases result with
          | interrupted | other => exact clear_idle _
          | wouldBlock => exact ⟨rfl, by simp [Caller.returned, Caller.poller, Line.poller]⟩
      · rw [if_neg hSlot]
        exact slots index k
  | drop id =>
      obtain ⟨p, hLive, hFree, hNext⟩ := next_drop h
      rw [if_pos (owns.used id p.index (by rw [hLive]; rfl)).2] at hNext
      subst hNext
      exact slots.cells (polls_setSocket rfl rfl hFree) (hCells (by simp))
  | dropping id =>
      obtain ⟨p, at_, hDropping, hDrop⟩ := next_dropping h
      obtain ⟨socket, hSockets, hCallers, -⟩ := dropStep_sockets hDrop
      exact slots.cells (polls_setSocket hCallers hSockets
        (owns.uncalled fun p' => by simp [hDropping])) (hCells (by simp))
  | wake v index kind =>
      obtain ⟨-, -, rfl⟩ := next_wake h
      exact slots.cells (fun _ _ => rfl) (hCells (by simp))
  | waker u =>
      obtain ⟨wake, cell, at_, -, -, rfl⟩ := next_waker h
      exact slots.cells (fun _ _ => rfl) (hCells (by simp))

end Steps

end Yaar.Net.PollIo
