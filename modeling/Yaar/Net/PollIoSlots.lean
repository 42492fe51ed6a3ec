import Yaar.Net.PollIoPending
import Yaar.Sync.AtomicWakerOverlap

/-! What a call in progress may rely on in the waker of its slot. -/
namespace Yaar.Net.PollIo

open Machine AtomicWaker

variable {T V W : Type*}

/-- Where a call stands for the waker of its slot. -/
def Line.poller : Line W → AtomicWaker.Poller W
  | .load | .begin | .storePending => .idle false
  | .poll _ at_ | .reset at_ => at_
  | _ => .idle true

/-- Past the load of `notified`, before anything has been found. -/
def Registering : AtomicWaker.Poller W → Prop
  | .loadState _ | .swapUpdating _ _ | .tryLock _ | .store _ | .swapWaiting _ => True
  | _ => False

/-- The operations of `poll`. -/
def Polling : AtomicWaker.Poller W → Prop
  | .loadNotified _ | .storeNotified | .storeEmpty => True
  | at_ => Registering at_

/-- A call is inside the operations of the method it calls. -/
def Line.Shaped : Line W → Prop
  | .poll _ at_ => Polling at_
  | .reset at_ => at_ = .resetLoad ∨ at_ = .resetStore
  | _ => True

/-- A call for the slot stands at a line. -/
def Occupies (s : State T V W) (t : T) (index : WakerIndex) (kind : WakerKind) (line : Line W) :
    Prop :=
  ∃ id ctx p, s.callers t = .call id kind ctx line ∧ s.sockets id = .live p ∧ p.index = index

/-- What the call of a slot finds in its waker. -/
structure Finds (cell : AtomicWaker.Cell (V ⊕ SocketId) W) (line : Line W) : Prop where
  facts : PollerFacts cell line.poller
  unread : Registering line.poller → cell.notified = false
  shaped : line.Shaped

/-- Every waker fits the one call of its slot, or is settled where there is none. -/
structure SlotFacts (s : State T V W) : Prop where
  calls : ∀ t index kind line, Occupies s t index kind line →
    Finds (s.cell index kind) line
  free : ∀ index kind, (∀ t line, ¬Occupies s t index kind line) →
    Settled (s.cell index kind).state

/-- No `poll` or `reset` of a waker has panicked. -/
def Quiet (s : State T V W) : Prop := ∀ t failure, s.callers t ≠ .panicked (.waker failure)

variable {s s' : State T V W}

/-! ## Cells and their occupants -/

/-- A cell that is replaced changes in its own slot and kind only. -/
theorem cell_setCell (index index' : WakerIndex) (kind kind' : WakerKind)
    (cell : AtomicWaker.Cell (V ⊕ SocketId) W) :
    (s.setCell index kind cell).cell index' kind' =
      if index' = index ∧ kind' = kind then cell else s.cell index' kind' := by
  unfold State.cell State.setCell WakerStorage.set
  by_cases hIndex : index' = index
  · subst hIndex
    by_cases hKind : kind' = kind
    · subst hKind
      simp
    · simp [hKind]
  · simp [hIndex]

@[simp] theorem cell_pending (pending : Nat) (index : WakerIndex) (kind : WakerKind) :
    ({ s with pending := pending } : State T V W).cell index kind = s.cell index kind := rfl

@[simp] theorem callers_setCaller [DecidableEq T] (t : T) (caller : Caller W) :
    (s.setCaller t caller).callers t = caller := Function.update_self ..

@[simp] theorem cell_setCaller [DecidableEq T] (t : T) (caller : Caller W) (index : WakerIndex)
    (kind : WakerKind) : (s.setCaller t caller).cell index kind = s.cell index kind := rfl

/-- The calls of a slot are those of one pair. -/
theorem occupies_unique {L : Layout} {t u : T} {index : WakerIndex} {kind : WakerKind}
    {line line' : Line W} (exact : Exact s) (owns : Owns L s) (ht : Occupies s t index kind line)
    (hu : Occupies s u index kind line') : t = u := by
  obtain ⟨id, ctx, p, hCall, hLive, rfl⟩ := ht
  obtain ⟨id', ctx', p', hCall', hLive', hIndex⟩ := hu
  obtain rfl : id = id' := owns.apart id id' p.index (by rw [hLive]; rfl)
    (by rw [hLive']; exact congrArg some hIndex)
  exact exact.exclusive t u (id, kind) (by rw [hCall]; rfl) (by rw [hCall']; rfl)

/-- A change of a socket that nobody calls. -/
theorem occupies_setSocket {id : SocketId} {socket : Socket} (hCallers : s'.callers = s.callers)
    (hSockets : s'.sockets = Function.update s.sockets id socket)
    (hFree : ∀ t, (s.callers t).socket? ≠ some id) (t : T) (index : WakerIndex) (kind : WakerKind)
    (line : Line W) : Occupies s' t index kind line ↔ Occupies s t index kind line := by
  unfold Occupies
  rw [hCallers, hSockets]
  refine exists_congr fun id' => exists₂_congr fun ctx p => and_congr_right fun hCall => ?_
  have hNe : id' ≠ id := by
    rintro rfl
    exact hFree t (by rw [hCall]; rfl)
  rw [Function.update_of_ne hNe]

/-- `poll` goes on, returns or panics. -/
theorem polling_step {cell cell' : AtomicWaker.Cell (V ⊕ SocketId) W} [DecidableEq W]
    {at_ at_' : AtomicWaker.Poller W} (polling : Polling at_)
    (h : pollerStep cell at_ = some (cell', at_')) :
    Polling at_' ∨ (∃ ready, at_' = .idle ready) ∨ ∃ failure, at_' = .panicked failure := by
  cases at_ <;> simp only [pollerStep, Polling, Registering] at h polling <;>
    grind [Polling, Registering]

/-- A call that goes on to register has not seen the flag set. It is not set by the call
itself. -/
theorem unread_step {cell cell' : AtomicWaker.Cell (V ⊕ SocketId) W} [DecidableEq W]
    {at_ at_' : AtomicWaker.Poller W} (unread : Registering at_ → cell.notified = false)
    (h : pollerStep cell at_ = some (cell', at_')) :
    Registering at_' → cell'.notified = false := by
  cases at_ <;> simp only [pollerStep, Registering] at h unread <;> grind [Registering]

/-- `reset` goes on, returns or panics. -/
theorem reset_step {cell cell' : AtomicWaker.Cell (V ⊕ SocketId) W} [DecidableEq W]
    {at_ at_' : AtomicWaker.Poller W} (resetting : at_ = .resetLoad ∨ at_ = .resetStore)
    (h : pollerStep cell at_ = some (cell', at_')) :
    at_' = .resetStore ∨ at_' = .idle false ∨ ∃ failure, at_' = .panicked failure := by
  obtain rfl | rfl := resetting <;> simp only [pollerStep] at h <;> grind

/-- The new stand of a caller fits the waker of its slot, unless it panicked there. -/
def Fits (cell : AtomicWaker.Cell (V ⊕ SocketId) W) : Caller W → Prop
  | .call _ _ _ line => Finds cell line
  | .panicked (.waker _) => True
  | _ => Settled cell.state

/-- Outside the methods of the waker only the state has to be settled, and after a
`Ready` the flag is set. -/
theorem Finds.outside {cell : AtomicWaker.Cell (V ⊕ SocketId) W} {line line' : Line W} {ready : Bool}
    (finds : Finds cell line) (hLine : line.poller = .idle ready) (hLine' : line'.poller = .idle ready)
    (shaped : line'.Shaped) : Finds cell line' :=
  ⟨by rw [hLine', ← hLine]; exact finds.facts, by rw [hLine']; exact fun h => h.elim, shaped⟩

theorem Finds.settled {cell : AtomicWaker.Cell (V ⊕ SocketId) W} {line : Line W} {ready : Bool}
    (finds : Finds cell line) (hLine : line.poller = .idle ready) : Settled cell.state := by
  have hFacts := finds.facts
  rw [hLine] at hFacts
  exact hFacts.1

/-- After an operation of `poll` the call stands where the cell has it, or it has
panicked. -/
theorem fits_polled [DecidableEq W] {cell cell' : AtomicWaker.Cell (V ⊕ SocketId) W}
    {at_ at_' : AtomicWaker.Poller W} {isPending : Bool} (finds : Finds cell (.poll isPending at_))
    (h : pollerStep cell at_ = some (cell', at_')) (id : SocketId) (kind : WakerKind)
    (ctx : Option W) : Fits cell' (.polled id kind ctx isPending at_') := by
  have hFacts := pollerStep_facts finds.facts h
  have hUnread := unread_step finds.unread h
  obtain hPolling | ⟨ready, rfl⟩ | ⟨failure, rfl⟩ := polling_step finds.shaped h
  · have hNext : Fits cell' (.call id kind ctx (.poll isPending at_')) :=
      ⟨hFacts, hUnread, hPolling⟩
    cases at_' with
    | idle ready => exact hPolling.elim
    | panicked failure => exact hPolling.elim
    | _ => exact hNext
  · cases ready
    · cases isPending
      · exact ⟨hFacts, hUnread, trivial⟩
      · exact hFacts.1
    · cases isPending <;> cases ctx <;> exact ⟨hFacts, hUnread, trivial⟩
  · trivial

theorem fits_resetting [DecidableEq W] {cell cell' : AtomicWaker.Cell (V ⊕ SocketId) W}
    {at_ at_' : AtomicWaker.Poller W} (finds : Finds cell (.reset at_))
    (h : pollerStep cell at_ = some (cell', at_')) (id : SocketId) (kind : WakerKind)
    (ctx : Option W) : Fits cell' (.resetting id kind ctx at_') := by
  have hFacts := pollerStep_facts finds.facts h
  have hUnread := unread_step finds.unread h
  obtain rfl | rfl | ⟨failure, rfl⟩ := reset_step finds.shaped h
  · exact ⟨hFacts, hUnread, .inr rfl⟩
  · exact ⟨hFacts, hUnread, trivial⟩
  · trivial

/-- A call touches its own slot only. -/
theorem callStep_cell [DecidableEq T] [DecidableEq W] {t : T} {id : SocketId} {kind : WakerKind}
    {ctx : Option W} {p : Pollable} {line : Line W}
    (h : s.callStep t id p kind ctx line = some s') (index : WakerIndex) (k : WakerKind)
    (hNe : ¬(index = p.index ∧ k = kind)) : s'.cell index k = s.cell index k := by
  cases line with
  | inIo => simp [State.callStep] at h
  | begin | complete =>
      obtain rfl := Option.some.inj h
      rw [cell_setCaller, cell_pending]
  | poll isPending at_ | reset at_ =>
      obtain ⟨⟨cell, at_'⟩, hCell, rfl⟩ := Option.map_eq_some_iff.mp h
      rw [cell_setCaller, cell_setCell, if_neg hNe]
  | _ =>
      obtain rfl := Option.some.inj h
      rfl

/-- One operation of a call as its slot sees it. -/
theorem callStep_fits [DecidableEq T] [DecidableEq W] {t : T} {id : SocketId}
    {kind : WakerKind} {ctx : Option W} {p : Pollable} {line : Line W}
    (finds : Finds (s.cell p.index kind) line)
    (h : s.callStep t id p kind ctx line = some s') :
    Fits (s'.cell p.index kind) (s'.callers t) := by
  cases line with
  | load =>
      obtain rfl := Option.some.inj h
      rw [callers_setCaller]
      exact ⟨finds.settled rfl, fun h => h.elim, trivial⟩
  | begin | complete =>
      obtain rfl := Option.some.inj h
      rw [callers_setCaller, cell_setCaller, cell_pending]
      split
      · exact finds.settled rfl
      · exact finds.outside rfl rfl trivial
  | loadBudget | doIo =>
      obtain rfl := Option.some.inj h
      rw [callers_setCaller]
      exact finds.outside rfl rfl trivial
  | storeCompleted =>
      obtain rfl := Option.some.inj h
      rw [callers_setCaller]
      cases ctx <;> exact finds.outside rfl rfl trivial
  | storeBudget budget =>
      obtain rfl := Option.some.inj h
      rw [callers_setCaller]
      split <;> exact finds.outside rfl rfl trivial
  | storePending | yield =>
      obtain rfl := Option.some.inj h
      rw [callers_setCaller]
      exact finds.settled rfl
  | inIo => simp [State.callStep] at h
  | poll isPending at_ =>
      obtain ⟨⟨cell, at_'⟩, hCell, rfl⟩ := Option.map_eq_some_iff.mp h
      rw [callers_setCaller, cell_setCaller, cell_setCell, if_pos ⟨rfl, rfl⟩]
      exact fits_polled finds hCell id kind ctx
  | reset at_ =>
      obtain ⟨⟨cell, at_'⟩, hCell, rfl⟩ := Option.map_eq_some_iff.mp h
      rw [callers_setCaller, cell_setCaller, cell_setCell, if_pos ⟨rfl, rfl⟩]
      exact fits_resetting finds hCell id kind ctx

/-! ## The facts are kept -/

theorem slot_of_occupies {t : T} {id : SocketId} {kind k : WakerKind} {ctx : Option W}
    {line line' : Line W} {p : Pollable} {index : WakerIndex}
    (hCall : s.callers t = .call id kind ctx line) (hLive : s.sockets id = .live p)
    (h : Occupies s t index k line') : index = p.index ∧ k = kind ∧ line' = line := by
  obtain ⟨id', ctx', q, hCall', hLive', rfl⟩ := h
  obtain ⟨rfl, rfl, -, rfl⟩ : id = id' ∧ kind = k ∧ ctx = ctx' ∧ line = line' := by
    simpa [hCall] using hCall'
  obtain rfl : p = q := by simpa [hLive] using hLive'
  exact ⟨rfl, rfl, rfl⟩

section Calling

variable [DecidableEq T] {L : Layout} {t : T} {id : SocketId} {kind : WakerKind} {p p' : Pollable}
  {caller : Caller W}

theorem occupies_other (done : Calling s s' t id kind p p' caller) (hLive : s.sockets id = .live p)
    {u : T} (hNe : u ≠ t) (index : WakerIndex) (k : WakerKind) (line : Line W) :
    Occupies s' u index k line ↔ Occupies s u index k line := by
  unfold Occupies
  rw [done.callers, Function.update_of_ne hNe, done.sockets]
  refine exists_congr fun id' => exists_congr fun ctx => ?_
  by_cases hEq : id' = id
  · subst hEq
    simp [hLive, done.index]
  · rw [Function.update_of_ne hEq]

theorem occupies_live {index : WakerIndex} {k : WakerKind} {line : Line W}
    (done : Calling s s' t id kind p p' caller) (h : Occupies s' t index k line) :
    ∃ ctx, caller = .call id kind ctx line ∧ index = p.index ∧ k = kind := by
  obtain ⟨id', ctx, q, hCall, hLive, rfl⟩ := h
  rw [done.callers, Function.update_self] at hCall
  obtain ⟨rfl, rfl⟩ : id' = id ∧ k = kind := by simpa using done.pair (id', k) (by rw [hCall]; rfl)
  obtain rfl : p' = q := by simpa [done.sockets] using hLive
  exact ⟨ctx, hCall, done.index, rfl⟩

/-- One operation of a call. -/
theorem SlotFacts.calling {ctx : Option W} {line : Line W} (facts : SlotFacts s) (exact : Exact s)
    (owns : Owns L s) (hCall : s.callers t = .call id kind ctx line) (hLive : s.sockets id = .live p)
    (done : Calling s s' t id kind p p' caller)
    (hCells : ∀ index k, ¬(index = p.index ∧ k = kind) → s'.cell index k = s.cell index k)
    (hFits : Fits (s'.cell p.index kind) caller) (quiet : ∀ f, caller ≠ .panicked (.waker f)) :
    SlotFacts s' := by
  have hHere : Occupies s t p.index kind line := ⟨id, ctx, p, hCall, hLive, rfl⟩
  constructor
  · intro u index k line' hu
    by_cases hEq : u = t
    · subst hEq
      obtain ⟨ctx', rfl, rfl, rfl⟩ := occupies_live done hu
      exact hFits
    · rw [occupies_other done hLive hEq] at hu
      have hApart : ¬(index = p.index ∧ k = kind) := by
        rintro ⟨rfl, rfl⟩
        exact hEq (occupies_unique exact owns hu hHere)
      rw [hCells index k hApart]
      exact facts.calls u index k line' hu
  · intro index k hFree
    by_cases hSlot : index = p.index ∧ k = kind
    · obtain ⟨rfl, rfl⟩ := hSlot
      cases caller with
      | call id' kind' ctx' line' =>
          obtain ⟨rfl, rfl⟩ : id' = id ∧ kind' = k := by simpa using done.pair (id', kind') rfl
          refine absurd ?_ (hFree t line')
          exact ⟨id', ctx', p', by rw [done.callers, Function.update_self],
            by rw [done.sockets, Function.update_self], done.index⟩
      | idle => exact hFits
      | panicked failure =>
          cases failure with
          | waker f => exact absurd rfl (quiet f)
          | unwrap | begin | complete => exact hFits
    · rw [hCells index k hSlot]
      refine facts.free index k fun u line' hu => ?_
      by_cases hEq : u = t
      · subst hEq
        obtain ⟨rfl, rfl, -⟩ := slot_of_occupies hCall hLive hu
        exact hSlot ⟨rfl, rfl⟩
      · exact hFree u line' ((occupies_other done hLive hEq index k line').mpr hu)

end Calling

/-- Nobody moves; a cell stays, is new or takes a step of a wake. -/
theorem SlotFacts.cells (facts : SlotFacts s)
    (hOccupies : ∀ t index kind line, Occupies s' t index kind line ↔ Occupies s t index kind line)
    (hCells : ∀ index kind,
      (((s'.cell index kind).state = (s.cell index kind).state ∨
          (s'.cell index kind).state = NOTIFIED) ∧
        (s'.cell index kind).notified = (s.cell index kind).notified) ∨
      Settled (s'.cell index kind).state ∧ ∀ t line, ¬Occupies s t index kind line) :
    SlotFacts s' := by
  constructor
  · intro t index kind line ht
    rw [hOccupies] at ht
    obtain ⟨hState, hNotified⟩ | ⟨-, hFree⟩ := hCells index kind
    · have finds := facts.calls t index kind line ht
      exact ⟨finds.facts.notify hState hNotified, fun h => hNotified.trans (finds.unread h),
        finds.shaped⟩
    · exact absurd ht (hFree t line)
  · intro index kind hFree
    obtain ⟨hState | hState, -⟩ | ⟨hSettled, -⟩ := hCells index kind
    · rw [hState]
      exact facts.free index kind fun t line => mt (hOccupies t index kind line).mpr (hFree t line)
    · exact .inr (.inr hState)
    · exact hSettled

/-- A drop leaves the wakers alone outside its wakes. -/
theorem dropStep_cell [DecidableEq V] {id : SocketId} {p : Pollable} {at_ : Dropping}
    (h : s.dropStep id p at_ = some s') (index : WakerIndex) (kind : WakerKind) :
    s'.cell index kind = s.cell index kind := by
  cases at_ with
  | wake kind =>
      simp only [State.dropStep] at h
      split at h
      · simp at h
      · obtain rfl := Option.some.inj h
        rfl
      · obtain rfl := Option.some.inj h
        rfl
  | load kind | free =>
      obtain rfl := Option.some.inj h
      rfl
  | complete kind =>
      have hNext := Option.some.inj h
      rw [← hNext, State.setSocket, State.cell, State.cell]
  | panicked => simp [State.dropStep] at h

/-- A call begins on a free slot. -/
theorem SlotFacts.call [DecidableEq T] {L : Layout} {t : T} {id : SocketId} {kind : WakerKind} {ctx : Option W} {p : Pollable}
    (facts : SlotFacts s) (owns : Owns L s) (one : OneCaller s (.call t id kind ctx))
    (hIdle : s.callers t = .idle) (hLive : s.sockets id = .live p) :
    SlotFacts (s.setCaller t (.call id kind ctx .load)) := by
  have hOther : ∀ u, u ≠ t → ∀ index k line,
      Occupies (s.setCaller t (.call id kind ctx .load)) u index k line ↔
        Occupies s u index k line := by
    intro u hu index k line
    unfold Occupies
    simp only [State.setCaller, Function.update_of_ne hu]
  have hNobody : ∀ u line, ¬Occupies s u p.index kind line := by
    rintro u line ⟨id', ctx', q, hCall, hLive', hIndex⟩
    obtain rfl : id = id' := owns.apart id id' p.index (by rw [hLive]; rfl)
      (by rw [hLive']; exact congrArg some hIndex)
    exact one u (by rw [hCall]; rfl)
  constructor
  · intro u index k line hu
    by_cases hEq : u = t
    · subst hEq
      obtain ⟨rfl, rfl, rfl⟩ := slot_of_occupies (callers_setCaller ..) hLive hu
      exact ⟨⟨facts.free _ _ hNobody, by simp⟩, fun h => h.elim, trivial⟩
    · exact facts.calls u index k line ((hOther u hEq index k line).mp hu)
  · intro index k hFree
    refine facts.free index k fun u line hu => ?_
    by_cases hEq : u = t
    · subst hEq
      obtain ⟨id', ctx', q, hCall, -⟩ := hu
      simp [hIdle] at hCall
    · exact hFree u line ((hOther u hEq index k line).mpr hu)

section Runs

variable [Fintype T] [DecidableEq T] [DecidableEq V] [DecidableEq W] {L : Layout}

/-- Every step keeps the calls in step with their slots. A slot has one caller, so what
its call has found there is changed by wakes only, and they keep it. -/
theorem slotFacts_next {e : Event T V W} (facts : SlotFacts s) (exact : Exact s) (owns : Owns L s)
    (one : OneCaller s e) (quiet : Quiet s') (h : next L s e = some s') : SlotFacts s' := by
  cases e with
  | alloc id =>
      obtain ⟨hAbsent, index?, storage, hAlloc, rfl⟩ := next_alloc h
      refine facts.cells (occupies_setSocket rfl rfl (owns.uncalled fun p => by simp [hAbsent]))
        fun index kind => ?_
      cases index? with
      | none =>
          obtain rfl := WakerStorage.alloc_none hAlloc
          exact .inl ⟨.inl rfl, rfl⟩
      | some i =>
          have done := WakerStorage.alloc_some owns.valid hAlloc
          by_cases hCreated : s.storage.Created index
          · have hSame : (storage.wakers index kind) = s.storage.wakers index kind := by
              rw [(done.older index hCreated).2]
            exact .inl ⟨.inl (congrArg AtomicWaker.state hSame), congrArg AtomicWaker.notified hSame⟩
          · obtain hSame | hNew := done.wakers index
            · have hSame := congrFun hSame kind
              exact .inl ⟨.inl (congrArg AtomicWaker.state hSame),
                congrArg AtomicWaker.notified hSame⟩
            · refine .inr ⟨.inl (congrArg AtomicWaker.state (congrFun hNew kind)), ?_⟩
              rintro t line ⟨id', ctx, p, -, hLive, rfl⟩
              exact hCreated (owns.used id' p.index (by rw [hLive]; rfl)).2
  | register id ok =>
      obtain ⟨index, hAllocated, rfl | rfl⟩ := next_register h <;>
        exact facts.cells (occupies_setSocket rfl rfl (owns.uncalled fun p => by simp [hAllocated]))
          fun _ _ => .inl ⟨.inl rfl, rfl⟩
  | call t id kind ctx =>
      obtain ⟨hIdle, p, hLive, rfl⟩ := next_call h
      rw [if_pos (owns.used id p.index (by rw [hLive]; rfl)).2]
      exact facts.call owns one hIdle hLive
  | step t =>
      obtain ⟨id, kind, ctx, line, p, p', caller, hCall, hLive, hStep, done, -⟩ := exact.step owns h
      have hSelf : s'.callers t = caller := by rw [done.callers, Function.update_self]
      have hFits := callStep_fits
        (facts.calls t p.index kind line ⟨id, ctx, p, hCall, hLive, rfl⟩) hStep
      exact facts.calling exact owns hCall hLive done (callStep_cell hStep) (hSelf ▸ hFits)
        fun f hPanicked => quiet t f (hSelf.trans hPanicked)
  | doIo t result =>
      obtain ⟨id, kind, ctx, hCall, rfl⟩ := next_doIo h
      obtain ⟨p, hLive⟩ := owns.live hCall
      have finds := facts.calls t p.index kind .inIo ⟨id, ctx, p, hCall, hLive, rfl⟩
      refine facts.calling exact owns hCall hLive (Calling.of_setCaller hLive fun x => pair_returned)
        (fun _ _ _ => rfl) ?_ (fun f => by cases result <;> simp [Caller.returned])
      cases result with
      | interrupted => exact finds.outside rfl rfl trivial
      | wouldBlock => exact ⟨⟨finds.facts.1, finds.facts.2 rfl⟩, fun h => h.elim, .inl rfl⟩
      | other => exact finds.settled rfl
  | drop id =>
      obtain ⟨p, hLive, hFree, rfl⟩ := next_drop h
      rw [if_pos (owns.used id p.index (by rw [hLive]; rfl)).2]
      exact facts.cells (occupies_setSocket rfl rfl hFree) fun _ _ => .inl ⟨.inl rfl, rfl⟩
  | dropping id =>
      obtain ⟨p, at_, hDropping, hStep⟩ := next_dropping h
      obtain ⟨socket, hSockets, hCallers, -⟩ := dropStep_sockets hStep
      refine facts.cells (occupies_setSocket hCallers hSockets
        (owns.uncalled fun p' => by simp [hDropping])) fun index kind => ?_
      rw [dropStep_cell hStep]
      exact .inl ⟨.inl rfl, rfl⟩
  | wake v index kind =>
      obtain ⟨-, -, rfl⟩ := next_wake h
      exact facts.cells (fun _ _ _ _ => Iff.rfl) fun _ _ => .inl ⟨.inl rfl, rfl⟩
  | waker u =>
      obtain ⟨wake, cell, at_, -, hStep, rfl⟩ := next_waker h
      refine facts.cells (fun _ _ _ _ => Iff.rfl) fun index kind => ?_
      change (((s.setCell wake.index wake.kind cell).cell index kind).state = _ ∨
        ((s.setCell wake.index wake.kind cell).cell index kind).state = _) ∧
        ((s.setCell wake.index wake.kind cell).cell index kind).notified = _ ∨ _
      rw [cell_setCell]
      split
      · next hSlot =>
          obtain ⟨rfl, rfl⟩ := hSlot
          exact .inl (wakerStep_state hStep)
      · exact .inl ⟨.inl rfl, rfl⟩

/-- At the start no slot is occupied and all of them are empty. -/
theorem slotFacts_initial : SlotFacts (system T V W L).initial where
  calls t index kind line := by
    rintro ⟨id, ctx, p, hCall, -⟩
    simp [system] at hCall
  free index kind _ := .inl rfl

/-- A caller is moved by its own call or operation. -/
theorem moved_next {e : Event T V W} {t : T} (h : next L s e = some s')
    (hMoved : s'.callers t ≠ s.callers t) :
    (s.callers t = .idle ∧ ∃ id kind ctx, e = .call t id kind ctx) ∨
      ∃ id kind ctx line, s.callers t = .call id kind ctx line ∧
        (e = .step t ∨ line = .inIo ∧ ∃ result, e = .doIo t result) := by
  have hSelf : ∀ {u : T} {caller : Caller W}, s'.callers = Function.update s.callers u caller →
      t = u := by
    intro u caller hCallers
    by_contra hNe
    rw [hCallers, Function.update_of_ne hNe] at hMoved
    exact hMoved rfl
  cases e with
  | alloc id =>
      obtain ⟨-, index?, storage, -, rfl⟩ := next_alloc h
      exact absurd rfl hMoved
  | register id ok =>
      obtain ⟨index, -, rfl | rfl⟩ := next_register h <;> exact absurd rfl hMoved
  | call u id kind ctx =>
      obtain ⟨hIdle, p, -, rfl⟩ := next_call h
      obtain rfl := hSelf rfl
      exact .inl ⟨hIdle, id, kind, ctx, rfl⟩
  | step u =>
      obtain ⟨id, kind, ctx, line, p, hCall, hLive, hStep⟩ := next_step h
      obtain ⟨p', caller, done⟩ := callStep_calling hLive hStep
      obtain rfl := hSelf done.callers
      exact .inr ⟨id, kind, ctx, line, hCall, .inl rfl⟩
  | doIo u result =>
      obtain ⟨id, kind, ctx, hCall, rfl⟩ := next_doIo h
      obtain rfl := hSelf rfl
      exact .inr ⟨id, kind, ctx, .inIo, hCall, .inr ⟨rfl, result, rfl⟩⟩
  | drop id =>
      obtain ⟨p, -, -, rfl⟩ := next_drop h
      split at hMoved <;> exact absurd rfl hMoved
  | dropping id =>
      obtain ⟨p, at_, -, hStep⟩ := next_dropping h
      obtain ⟨socket, -, hCallers, -⟩ := dropStep_sockets hStep
      exact absurd (congrFun hCallers t) hMoved
  | wake v index kind =>
      obtain ⟨-, -, rfl⟩ := next_wake h
      exact absurd rfl hMoved
  | waker u =>
      obtain ⟨wake, cell, at_, -, -, rfl⟩ := next_waker h
      exact absurd rfl hMoved

/-- A panic stays. -/
theorem Quiet.before {e : Event T V W} (quiet : Quiet s') (h : next L s e = some s') : Quiet s := by
  intro t failure hPanicked
  by_cases hSame : s'.callers t = s.callers t
  · exact quiet t failure (hSame.trans hPanicked)
  · obtain hIdle | ⟨id, kind, ctx, line, hCall, -⟩ := moved_next h hSame
    · simp [hPanicked] at hIdle
    · simp [hPanicked] at hCall

/-- A socket makes the wakes of its drop and no others. -/
def DropWakes (s : State T V W) : Prop :=
  ∀ id, s.wakes (.inr id) ≠ none → ∃ p kind, s.sockets id = .dropping p (.wake kind)

omit [Fintype T] [DecidableEq T] [DecidableEq V] [DecidableEq W] in
/-- A socket that changes may not leave a wake of its drop behind. -/
theorem DropWakes.setSocket {id : SocketId} {socket : Socket} (drops : DropWakes s)
    (hSockets : s'.sockets = Function.update s.sockets id socket) (hWakes : s'.wakes = s.wakes)
    (hNone : s.wakes (.inr id) = none) : DropWakes s' := by
  intro id' hSome
  rw [hWakes] at hSome
  have hNe : id' ≠ id := by
    rintro rfl
    exact hSome hNone
  rw [hSockets, Function.update_of_ne hNe]
  exact drops id' hSome

omit [Fintype T] [DecidableEq T] [DecidableEq V] [DecidableEq W] in
theorem DropWakes.none {id : SocketId} (drops : DropWakes s)
    (h : ∀ p kind, s.sockets id ≠ .dropping p (.wake kind)) : s.wakes (.inr id) = none := by
  by_contra hSome
  obtain ⟨p, kind, hDropping⟩ := drops id hSome
  exact h p kind hDropping

omit [Fintype T] [DecidableEq T] [DecidableEq W] in
theorem DropWakes.dropStep {id : SocketId} {p : Pollable} {at_ : Dropping} (drops : DropWakes s)
    (hDropping : s.sockets id = .dropping p at_) (h : s.dropStep id p at_ = some s') :
    DropWakes s' := by
  cases at_ with
  | wake kind =>
      simp only [State.dropStep] at h
      split at h
      · simp at h
      · obtain rfl := Option.some.inj h
        intro id' hSome
        by_cases hEq : id' = id
        · subst hEq
          exact ⟨p, .Write, Function.update_self ..⟩
        · obtain ⟨q, k, hq⟩ := drops id' (by simpa [State.setSocket, State.setWake, hEq] using hSome)
          exact ⟨q, k, by simpa [State.setSocket, State.setWake, hEq] using hq⟩
      · next hNone =>
          obtain rfl := Option.some.inj h
          exact drops.setSocket rfl rfl hNone
  | load kind | free =>
      obtain rfl := Option.some.inj h
      exact drops.setSocket rfl rfl (drops.none fun q k => by simp [hDropping])
  | complete kind =>
      have hNext := Option.some.inj h
      exact drops.setSocket (by rw [← hNext, State.setSocket]) (by rw [← hNext, State.setSocket])
        (drops.none fun q k => by simp [hDropping])
  | panicked => simp [State.dropStep] at h

/-- The wakes of drops are accounted for in every step. -/
theorem dropWakes_next {e : Event T V W} (drops : DropWakes s) (h : next L s e = some s') :
    DropWakes s' := by
  cases e with
  | alloc id =>
      obtain ⟨hAbsent, index?, storage, -, rfl⟩ := next_alloc h
      exact drops.setSocket rfl rfl (drops.none fun q k => by simp [hAbsent])
  | register id ok =>
      obtain ⟨index, hAllocated, rfl | rfl⟩ := next_register h <;>
        exact drops.setSocket rfl rfl (drops.none fun q k => by simp [hAllocated])
  | call t id kind ctx =>
      obtain ⟨-, p, -, rfl⟩ := next_call h
      exact drops
  | step t =>
      obtain ⟨id, kind, ctx, line, p, -, hLive, hStep⟩ := next_step h
      obtain ⟨p', caller, done⟩ := callStep_calling hLive hStep
      exact drops.setSocket done.sockets done.wakes (drops.none fun q k => by simp [hLive])
  | doIo t result =>
      obtain ⟨id, kind, ctx, -, rfl⟩ := next_doIo h
      exact drops
  | drop id =>
      obtain ⟨p, hLive, -, rfl⟩ := next_drop h
      have hNone : s.wakes (.inr id) = none := drops.none fun q k => by simp [hLive]
      split
      · intro id' hSome
        by_cases hEq : id' = id
        · subst hEq
          exact ⟨p, .Read, Function.update_self ..⟩
        · obtain ⟨q, k, hq⟩ := drops id' (by simpa [State.setSocket, State.setWake, hEq] using hSome)
          exact ⟨q, k, by simpa [State.setSocket, State.setWake, hEq] using hq⟩
      · exact drops.setSocket rfl rfl hNone
  | dropping id =>
      obtain ⟨p, at_, hDropping, hStep⟩ := next_dropping h
      exact drops.dropStep hDropping hStep
  | wake v index kind =>
      obtain ⟨-, -, rfl⟩ := next_wake h
      intro id hSome
      exact drops id (by simpa [State.setWake] using hSome)
  | waker u =>
      obtain ⟨wake, cell, at_, hWake, -, rfl⟩ := next_waker h
      intro id hSome
      by_cases hEq : .inr id = u
      · exact drops id (by rw [hEq, hWake]; simp)
      · exact drops id (by simpa [State.setWake, State.setCell, hEq] using hSome)

/-- What every step keeps, with one caller for each pair and no panic in a waker. -/
structure Sound (L : Layout) (s : State T V W) : Prop where
  owns : Owns L s
  exact_ : Exact s
  facts : SlotFacts s
  drops : DropWakes s

/-- Every step keeps the invariant, as long as no waker panics in it. -/
theorem sound_next {e : Event T V W} (sound : Sound L s) (one : OneCaller s e) (quiet : Quiet s')
    (h : next L s e = some s') : Sound L s' :=
  ⟨owns_next sound.owns h, exact_next sound.exact_ sound.owns one h,
    slotFacts_next sound.facts sound.exact_ sound.owns one quiet h, dropWakes_next sound.drops h⟩

/-- A panic stays, so if there is none at the end there was none on the way. -/
theorem sound_path {steps : List (State T V W × Event T V W)} (sound : Sound L s)
    (path : (system T V W L).Path s steps s') (one : Meets OneCaller steps) (quiet : Quiet s') :
    Sound L s' := by
  induction path with
  | refl => exact sound
  | step prior last ih =>
      rw [meets_append, meets_singleton] at one
      exact sound_next (ih one.1 (quiet.before last)) one.2 quiet last

/-- Hence the invariant holds at the end of any run that ends quietly. -/
theorem sound_run {steps : List (State T V W × Event T V W)}
    (run : (system T V W L).Run steps s) (one : Meets OneCaller steps) (quiet : Quiet s) :
    Sound L s := by
  refine sound_path ⟨owns_reachable ⟨[], .refl⟩, exact_initial, slotFacts_initial, ?_⟩ run one quiet
  intro id hSome
  simp [system] at hSome

/-- The end of a path with a panic-free end had none before. -/
theorem Quiet.path {steps : List (State T V W × Event T V W)} (quiet : Quiet s')
    (path : (system T V W L).Path s steps s') : Quiet s := by
  induction path with
  | refl => exact quiet
  | step prior last ih => exact ih (quiet.before last)

end Runs

end Yaar.Net.PollIo
