import Yaar.Net.PollIoSlots

/-! Readiness events between the calls of one kind of a socket. -/
namespace Yaar.Net.PollIo

open Machine AtomicWaker

variable {T V W : Type*} [DecidableEq V]

/-! ## What a step does to the slot of a pair -/

section Slot

variable [DecidableEq T] [DecidableEq W]

/-- The kinds of steps, seen from the slot of a live pair: its drop, a step elsewhere
(which may begin a call of the pair), the operations of its calls, the return of their
`do_io` and the operations of the wakes of the slot. -/
inductive SlotStep (s s' : State T V W) (e : Event T V W) (x : SocketId × WakerKind)
    (p : Pollable) : Prop where
  | dropped (q : Pollable) (at_ : Dropping) (dropping : s'.sockets x.1 = .dropping q at_)
  | elsewhere (q : Pollable) (live : s'.sockets x.1 = .live q) (index : q.index = p.index)
      (cell : s'.cell p.index x.2 = s.cell p.index x.2)
      (callers : ∀ t ctx line, s'.callers t = .call x.1 x.2 ctx line →
        s.callers t = .call x.1 x.2 ctx line ∨ e = .call t x.1 x.2 ctx ∧ line = .load)
      (wakes : ∀ u wake, s.wakes u = some wake → wake.index = p.index → wake.kind = x.2 →
        s'.wakes u = some wake)
  | step (t : T) (ctx : Option W) (line : Line W) (q : Pollable) (event : e = .step t)
      (call : s.callers t = .call x.1 x.2 ctx line)
      (step : s.callStep t x.1 p x.2 ctx line = some s') (live : s'.sockets x.1 = .live q)
      (index : q.index = p.index) (others : ∀ u, u ≠ t → s'.callers u = s.callers u)
      (wakes : s'.wakes = s.wakes)
  | io (t : T) (ctx : Option W) (result : IoResult) (event : e = .doIo t result)
      (call : s.callers t = .call x.1 x.2 ctx .inIo)
      (next : s' = s.setCaller t (.returned x.1 x.2 ctx result))
  | wake (u : V ⊕ SocketId) (wake : Wake W) (at_ : Waking W) (event : e = .waker u)
      (waking : s.wakes u = some wake) (index : wake.index = p.index) (kind : wake.kind = x.2)
      (step : wakerStep (s.cell p.index x.2) u wake.at_ = some (s'.cell p.index x.2, at_))
      (callers : s'.callers = s.callers) (sockets : s'.sockets = s.sockets)
      (wakes : s'.wakes = Function.update s.wakes u
        (if at_ = .idle then none else some { wake with at_ := at_ }))

end Slot

variable {s s' : State T V W}

/-- A drop removes no wake that is under way; its own wakes it adds. -/
theorem dropStep_wakes {id : SocketId} {p : Pollable} {at_ : Dropping}
    (h : s.dropStep id p at_ = some s') (u : V ⊕ SocketId) (wake : Wake W)
    (hWake : s.wakes u = some wake) : s'.wakes u = some wake := by
  cases at_ with
  | wake kind =>
      simp only [State.dropStep] at h
      split at h
      · simp at h
      · next hNone =>
          obtain rfl := Option.some.inj h
          have hNe : u ≠ .inr id := by
            rintro rfl
            simp [hNone] at hWake
          simp [State.setSocket, State.setWake, hNe, hWake]
      · obtain rfl := Option.some.inj h
        exact hWake
  | load kind | free =>
      obtain rfl := Option.some.inj h
      exact hWake
  | complete kind =>
      have hNext := Option.some.inj h
      rw [← hNext, State.setSocket]
      exact hWake
  | panicked => simp [State.dropStep] at h

variable [Fintype T] [DecidableEq T] [DecidableEq W] {L : Layout}

/-- Every step is one of these, whoever else calls for the pair. -/
theorem slot_next {e : Event T V W} {x : SocketId × WakerKind} {p : Pollable} (owns : Owns L s)
    (drops : DropWakes s) (hLive : s.sockets x.1 = .live p) (h : next L s e = some s') :
    SlotStep s s' e x p := by
  obtain ⟨id₀, k₀⟩ := x
  have hOther : ∀ {id : SocketId} {socket : Socket}, id ≠ id₀ →
      Function.update s.sockets id socket id₀ = .live p := fun hNe => by
    rw [Function.update_of_ne hNe.symm, hLive]
  have hCreated := (owns.used id₀ p.index (by rw [hLive]; rfl)).2
  cases e with
  | alloc id =>
      obtain ⟨hAbsent, index?, storage, hAlloc, rfl⟩ := next_alloc h
      refine .elsewhere p (hOther fun hEq => by simp [hEq, hLive] at hAbsent) rfl ?_
        (fun _ _ _ => .inl) fun _ _ hWake _ _ => hWake
      have hSame : storage.wakers p.index = s.storage.wakers p.index := by
        cases index? with
        | none => rw [WakerStorage.alloc_none hAlloc]
        | some i => exact ((WakerStorage.alloc_some owns.valid hAlloc).older _ hCreated).2
      simp only [State.cell, State.setSocket, hSame]
  | register id ok =>
      obtain ⟨index, hAllocated, rfl | rfl⟩ := next_register h <;>
        exact .elsewhere p (hOther fun hEq => by simp [hEq, hLive] at hAllocated) rfl rfl
          (fun _ _ _ => .inl) fun _ _ hWake _ _ => hWake
  | call t id kind ctx =>
      obtain ⟨-, q, -, rfl⟩ := next_call h
      refine .elsewhere p hLive rfl rfl (fun u ctx' line hu => ?_) fun _ _ hWake _ _ => hWake
      by_cases hEq : u = t
      · subst hEq
        rw [callers_setCaller] at hu
        split at hu
        · obtain ⟨rfl, rfl, rfl, rfl⟩ :
              id = id₀ ∧ kind = k₀ ∧ ctx = ctx' ∧ Line.load = line := by simpa using hu
          exact .inr ⟨rfl, rfl⟩
        · simp at hu
      · simp only [State.setCaller, Function.update_of_ne hEq] at hu
        exact .inl hu
  | step t =>
      obtain ⟨id, kind, ctx, line, q, hCall, hLive', hStep⟩ := next_step h
      obtain ⟨q', caller, done⟩ := callStep_calling hLive' hStep
      have hOthers : ∀ u, u ≠ t → s'.callers u = s.callers u := fun u hu => by
        rw [done.callers, Function.update_of_ne hu]
      by_cases hPair : id = id₀ ∧ kind = k₀
      · obtain ⟨rfl, rfl⟩ := hPair
        obtain rfl : p = q := by simpa [hLive] using hLive'
        exact .step t ctx line q' rfl hCall hStep (by rw [done.sockets, Function.update_self])
          done.index hOthers done.wakes
      · have hSlot : ¬(p.index = q.index ∧ k₀ = kind) := by
          rintro ⟨hIndex, rfl⟩
          refine hPair ⟨owns.apart id id₀ q.index (by rw [hLive']; rfl) ?_, rfl⟩
          rw [hLive]
          exact congrArg some hIndex
        have hCell := callStep_cell hStep p.index k₀ hSlot
        have hCallers : ∀ u ctx' line', s'.callers u = .call id₀ k₀ ctx' line' →
            s.callers u = .call id₀ k₀ ctx' line' := by
          intro u ctx' line' hu
          by_cases hEq : u = t
          · subst hEq
            rw [done.callers, Function.update_self] at hu
            have hSame := done.pair (id₀, k₀) (by rw [hu]; rfl)
            exact absurd (Prod.ext_iff.mp hSame.symm) hPair
          · rwa [hOthers u hEq] at hu
        have hWakes : ∀ u wake, s.wakes u = some wake → wake.index = p.index → wake.kind = k₀ →
            s'.wakes u = some wake := fun u wake hWake _ _ => by rwa [done.wakes]
        by_cases hId : id₀ = id
        · subst hId
          obtain rfl : p = q := by simpa [hLive] using hLive'
          exact .elsewhere q' (by rw [done.sockets, Function.update_self]) done.index hCell
            (fun u ctx' line' hu => .inl (hCallers u ctx' line' hu)) hWakes
        · exact .elsewhere p (by rw [done.sockets]; exact hOther (Ne.symm hId)) rfl hCell
            (fun u ctx' line' hu => .inl (hCallers u ctx' line' hu)) hWakes
  | doIo t result =>
      obtain ⟨id, kind, ctx, hCall, rfl⟩ := next_doIo h
      by_cases hPair : id = id₀ ∧ kind = k₀
      · obtain ⟨rfl, rfl⟩ := hPair
        exact .io t ctx result rfl hCall rfl
      · refine .elsewhere p hLive rfl rfl (fun u ctx' line hu => .inl ?_) fun _ _ hWake _ _ => hWake
        by_cases hEq : u = t
        · subst hEq
          rw [callers_setCaller] at hu
          have hSame := pair_returned
            (show (Caller.returned id kind ctx result).pair? = some (id₀, k₀) by rw [hu]; rfl)
          exact absurd (Prod.ext_iff.mp hSame.symm) hPair
        · simpa [State.setCaller, hEq] using hu
  | drop id =>
      obtain ⟨q, hLive', -, rfl⟩ := next_drop h
      have hNone : s.wakes (.inr id) = none := drops.none fun q k => by simp [hLive']
      by_cases hId : id = id₀
      · subst hId
        split <;> exact .dropped q _ (Function.update_self ..)
      · split
        · refine .elsewhere p (hOther hId) rfl rfl (fun _ _ _ => .inl) fun u wake hWake _ _ => ?_
          have hNe : u ≠ .inr id := by
            rintro rfl
            simp [hNone] at hWake
          simp [State.setSocket, State.setWake, hNe, hWake]
        · exact .elsewhere p (hOther hId) rfl rfl (fun _ _ _ => .inl) fun _ _ hWake _ _ => hWake
  | dropping id =>
      obtain ⟨q, at_, hDropping, hStep⟩ := next_dropping h
      obtain ⟨socket, hSockets, hCallers, -⟩ := dropStep_sockets hStep
      have hId : id ≠ id₀ := fun hEq => by simp [hEq, hLive] at hDropping
      refine .elsewhere p (by rw [hSockets]; exact hOther hId) rfl (dropStep_cell hStep _ _)
        (fun u ctx line hu => .inl (by rwa [hCallers] at hu)) fun u wake hWake _ _ =>
          dropStep_wakes hStep u wake hWake
  | wake v index kind =>
      obtain ⟨hNone, -, rfl⟩ := next_wake h
      refine .elsewhere p hLive rfl rfl (fun _ _ _ => .inl) fun u wake hWake _ _ => ?_
      have hNe : u ≠ .inl v := by
        rintro rfl
        simp [hNone] at hWake
      simp [State.setWake, hNe, hWake]
  | waker u =>
      obtain ⟨wake, cell, at_, hWake, hStep, rfl⟩ := next_waker h
      by_cases hSlot : p.index = wake.index ∧ k₀ = wake.kind
      · obtain ⟨hIndex, hKind⟩ := hSlot
        refine .wake u wake at_ rfl hWake hIndex.symm hKind.symm ?_ rfl rfl rfl
        change wakerStep _ _ _ = some ((s.setCell wake.index wake.kind cell).cell p.index k₀, at_)
        rw [cell_setCell, if_pos ⟨hIndex, hKind⟩, hIndex]
        exact hKind ▸ hStep
      · refine .elsewhere p hLive rfl ?_ (fun _ _ _ => .inl) fun u' wake' hWake' hIndex hKind => ?_
        · change (s.setCell wake.index wake.kind cell).cell p.index k₀ = _
          rw [cell_setCell, if_neg hSlot]
        · have hNe : u' ≠ u := by
            rintro rfl
            obtain rfl : wake = wake' := Option.some.inj (hWake.symm.trans hWake')
            exact hSlot ⟨hIndex.symm, hKind.symm⟩
          simp [State.setWake, State.setCell, hNe, hWake']

/-! ## An event stays recorded -/

/-- A wake changes the state of the pair's slot: an event for the kind is processed. -/
def Processes (x : SocketId × WakerKind) (y : State T V W × Event T V W) : Prop :=
  ∃ u wake p, y.2 = .waker u ∧ y.1.wakes u = some wake ∧ wake.at_ = .update ∧
    y.1.sockets x.1 = .live p ∧ wake.index = p.index ∧ wake.kind = x.2

/-- A call of the pair calls `do_io`. -/
def StartsIo (x : SocketId × WakerKind) (y : State T V W × Event T V W) : Prop :=
  ∃ t ctx, y.2 = .step t ∧ y.1.callers t = .call x.1 x.2 ctx .doIo

/-- A call of the pair gets `Pending` from the waker of its slot. -/
def Misses (x : SocketId × WakerKind) (y : State T V W × Event T V W) : Prop :=
  ∃ t ctx isPending at_ p cell, y.2 = .step t ∧
    y.1.callers t = .call x.1 x.2 ctx (.poll isPending at_) ∧ y.1.sockets x.1 = .live p ∧
    pollerStep (y.1.cell p.index x.2) at_ = some (cell, .idle false)

/-- Inside `do_io` or the reset that follows it. -/
def Line.InIo : Line W → Prop
  | .inIo | .reset _ => True
  | _ => False

def Caller.InIo : Caller W → Prop
  | .call _ _ _ line => line.InIo
  | _ => False

/-- A socket that is dropped or being dropped. -/
def Ended (id : SocketId) (s : State T V W) : Prop :=
  (∃ p at_, s.sockets id = .dropping p at_) ∨ s.sockets id = .dropped

/-- A wake is recorded in the slot of the pair, and not only in the flag while a
`do_io` that began before it may still clear the flag. -/
def Recorded (x : SocketId × WakerKind) (s : State T V W) : Prop :=
  Ended x.1 s ∨ ∃ p, s.sockets x.1 = .live p ∧
    ((s.cell p.index x.2).state = NOTIFIED ∨ (s.cell p.index x.2).notified = true ∧
      ∀ t, (s.callers t).pair? = some x → ¬(s.callers t).InIo)

section Cell

omit [DecidableEq V] [Fintype T] [DecidableEq T]

variable {cell cell' : Cell (V ⊕ SocketId) W} {at_ at_' : AtomicWaker.Poller W}

/-- An operation of a call leaves `NOTIFIED` in the state, or moves it to the flag and
finds the waker ready. -/
theorem pollerStep_notified (facts : PollerFacts cell at_) (hState : cell.state = NOTIFIED)
    (h : pollerStep cell at_ = some (cell', at_')) :
    cell'.state = NOTIFIED ∨ cell'.notified = true ∧ at_' = .idle true := by
  cases at_ <;> simp only [pollerStep, PollerFacts] at h facts <;> grind

theorem pollerStep_flag (hNotified : cell.notified = true) (hReset : at_ ≠ .resetStore)
    (h : pollerStep cell at_ = some (cell', at_')) : cell'.notified = true := by
  cases at_ <;> simp only [pollerStep] at h <;> grind

/-- A `poll` cannot get `Pending` where a wake is recorded: it has not passed the load
of the flag, or its exchange of the state fails. -/
theorem not_pending {isPending : Bool} (finds : Finds cell (.poll isPending at_))
    (hRecorded : cell.state = NOTIFIED ∨ cell.notified = true) :
    pollerStep cell at_ ≠ some (cell', .idle false) := by
  obtain ⟨hFacts, hUnread, hShaped⟩ := finds
  intro h
  cases at_ <;> simp only [pollerStep, Line.poller, Line.Shaped, Polling, Registering, PollerFacts]
    at h hFacts hUnread hShaped <;> grind

omit [DecidableEq W] in
/-- Whatever the state is, the first operation of a wake makes it `NOTIFIED`. -/
theorem wakerStep_update {u : V ⊕ SocketId} {at_' : Waking W}
    (valid : cell.state = EMPTY ∨ cell.state = UPDATING ∨ cell.state = WAITING ∨
      cell.state = NOTIFIED)
    (h : wakerStep cell u .update = some (cell', at_')) : cell'.state = NOTIFIED := by
  simp only [wakerStep] at h
  grind

end Cell

omit [DecidableEq V] [Fintype T] [DecidableEq T] [DecidableEq W] in
/-- The state of each slot is one of the four constants, with or without a call. -/
theorem SlotFacts.valid (facts : SlotFacts s) (index : WakerIndex) (kind : WakerKind) :
    (s.cell index kind).state = EMPTY ∨ (s.cell index kind).state = UPDATING ∨
      (s.cell index kind).state = WAITING ∨ (s.cell index kind).state = NOTIFIED := by
  by_cases hFree : ∀ t line, ¬Occupies s t index kind line
  · obtain h | h | h := facts.free index kind hFree
    · exact .inl h
    · exact .inr (.inr (.inl h))
    · exact .inr (.inr (.inr h))
  · push Not at hFree
    obtain ⟨t, line, h⟩ := hFree
    exact (facts.calls t index kind line h).facts.valid

/-- A socket that is dropped stays so. Its number is not used again. -/
theorem ended_next {e : Event T V W} {id : SocketId} (ended : Ended id s)
    (h : next L s e = some s') : Ended id s' := by
  have hStays : ∀ {id' : SocketId} {socket : Socket}, s'.sockets = Function.update s.sockets id' socket →
      id ≠ id' → Ended id s' := by
    intro id' socket hSockets hNe
    unfold Ended
    rwa [hSockets, Function.update_of_ne hNe]
  have hNe : ∀ {id' : SocketId} {socket : Socket}, s.sockets id' = socket →
      (∀ p at_, socket ≠ .dropping p at_) → socket ≠ .dropped → id ≠ id' := by
    rintro id' socket hSocket hDropping hDropped rfl
    obtain ⟨p, at_, hEnded⟩ | hEnded := ended
    · exact hDropping p at_ (hSocket.symm.trans hEnded)
    · exact hDropped (hSocket.symm.trans hEnded)
  cases e with
  | alloc id' =>
      obtain ⟨hAbsent, index?, storage, -, rfl⟩ := next_alloc h
      exact hStays rfl (hNe hAbsent (by simp) (by simp))
  | register id' ok =>
      obtain ⟨index, hAllocated, rfl | rfl⟩ := next_register h <;>
        exact hStays rfl (hNe hAllocated (by simp) (by simp))
  | call t id' kind ctx =>
      obtain ⟨-, p, -, rfl⟩ := next_call h
      exact ended
  | step t =>
      obtain ⟨id', kind, ctx, line, p, -, hLive, hStep⟩ := next_step h
      obtain ⟨p', caller, done⟩ := callStep_calling hLive hStep
      exact hStays done.sockets (hNe hLive (by simp) (by simp))
  | doIo t result =>
      obtain ⟨id', kind, ctx, -, rfl⟩ := next_doIo h
      exact ended
  | drop id' =>
      obtain ⟨p, hLive, -, hNext⟩ := next_drop h
      have hApart := hNe hLive (by simp) (by simp)
      split at hNext <;> exact hStays (by rw [hNext]; rfl) hApart
  | dropping id' =>
      obtain ⟨p, at_, -, hStep⟩ := next_dropping h
      obtain ⟨socket, hSockets, -, hEnded⟩ := dropStep_sockets hStep
      by_cases hEq : id = id'
      · subst hEq
        unfold Ended
        rw [hSockets, Function.update_self]
        exact hEnded.imp_left fun ⟨at_', hSocket⟩ => ⟨p, at_', hSocket⟩
      · exact hStays hSockets hEq
  | wake v index kind =>
      obtain ⟨-, -, rfl⟩ := next_wake h
      exact ended
  | waker u =>
      obtain ⟨wake, cell, at_, -, -, rfl⟩ := next_waker h
      exact ended

/-- An event that is processed leaves `NOTIFIED` in the slot of its pair. -/
theorem notified_of_processes {e : Event T V W} {x : SocketId × WakerKind}
    (valid : ∀ index kind, ValidState (s.cell index kind).state)
    (hProcesses : Processes x (s, e)) (h : next L s e = some s') :
    ∃ p, s'.sockets x.1 = .live p ∧ (s'.cell p.index x.2).state = NOTIFIED := by
  obtain ⟨u, wake, p, rfl, hWake, hAt, hLive, hIndex, hKind⟩ := hProcesses
  have hWake : s.wakes u = some wake := hWake
  have hLive : s.sockets x.1 = .live p := hLive
  obtain ⟨wake', cell, at_, hWake', hStep, rfl⟩ := next_waker h
  obtain rfl : wake = wake' := Option.some.inj (hWake.symm.trans hWake')
  refine ⟨p, hLive, ?_⟩
  change ((s.setCell wake.index wake.kind cell).cell p.index x.2).state = NOTIFIED
  rw [cell_setCell, if_pos ⟨hIndex.symm, hKind.symm⟩]
  rw [hAt] at hStep
  exact wakerStep_update (valid _ _) hStep

/-- So it is recorded, even if a `do_io` that began before is about to clear the flag. -/
theorem recorded_of_processes {e : Event T V W} {x : SocketId × WakerKind} (sound : Sound L s)
    (hProcesses : Processes x (s, e)) (h : next L s e = some s') : Recorded x s' := by
  obtain ⟨p, hLive, hState⟩ := notified_of_processes sound.facts.valid hProcesses h
  exact .inr ⟨p, hLive, .inl hState⟩

omit [DecidableEq V] [Fintype T] [DecidableEq T] [DecidableEq W] in
theorem call_of_pair {caller : Caller W} {x : SocketId × WakerKind} (h : caller.pair? = some x) :
    ∃ ctx line, caller = .call x.1 x.2 ctx line := by
  cases caller with
  | call id kind ctx line =>
      obtain rfl : (id, kind) = x := Option.some.inj h
      exact ⟨ctx, line, rfl⟩
  | idle | panicked failure => simp [Caller.pair?] at h

omit [DecidableEq V] [Fintype T] [DecidableEq T] [DecidableEq W] in
theorem polled_out (id : SocketId) (kind : WakerKind) (ctx : Option W) (isPending : Bool)
    (at_ : AtomicWaker.Poller W) : ¬(Caller.polled id kind ctx isPending at_).InIo := by
  unfold Caller.polled
  split
  · cases isPending <;> cases ctx <;> exact fun h => h
  · cases isPending <;> exact fun h => h
  · exact fun h => h
  · exact fun h => h

omit [Fintype T] [DecidableEq V] in
/-- A call that does not start a `do_io` leaves a wake recorded. -/
theorem callStep_recorded {t : T} {id : SocketId} {kind : WakerKind} {ctx : Option W} {p : Pollable}
    {line : Line W} (finds : Finds (s.cell p.index kind) line) (hLine : line ≠ .doIo)
    (hSlot : (s.cell p.index kind).state = NOTIFIED ∨
      (s.cell p.index kind).notified = true ∧ ¬line.InIo)
    (h : s.callStep t id p kind ctx line = some s') :
    (s'.cell p.index kind).state = NOTIFIED ∨
      (s'.cell p.index kind).notified = true ∧ ¬(s'.callers t).InIo := by
  cases line with
  | doIo => exact absurd rfl hLine
  | inIo => cases h
  | load | loadBudget | storePending | yield =>
      obtain rfl := Option.some.inj h
      rw [callers_setCaller]
      exact hSlot.imp_right fun ⟨hNotified, _⟩ => ⟨hNotified, fun h => h⟩
  | storeCompleted =>
      obtain rfl := Option.some.inj h
      rw [callers_setCaller]
      refine hSlot.imp_right fun ⟨hNotified, _⟩ => ⟨hNotified, ?_⟩
      cases ctx <;> exact fun h => h
  | storeBudget budget =>
      obtain rfl := Option.some.inj h
      rw [callers_setCaller]
      refine hSlot.imp_right fun ⟨hNotified, _⟩ => ⟨hNotified, ?_⟩
      split <;> exact fun h => h
  | begin | complete =>
      obtain rfl := Option.some.inj h
      rw [callers_setCaller, cell_setCaller, cell_pending]
      refine hSlot.imp_right fun ⟨hNotified, _⟩ => ⟨hNotified, ?_⟩
      split <;> exact fun h => h
  | poll isPending at_ =>
      obtain ⟨⟨cell, at_'⟩, hCell, rfl⟩ := Option.map_eq_some_iff.mp h
      rw [callers_setCaller, cell_setCaller, cell_setCell, if_pos ⟨rfl, rfl⟩]
      have hOut := polled_out id kind ctx isPending at_'
      obtain hState | ⟨hNotified, -⟩ := hSlot
      · exact (pollerStep_notified finds.facts hState hCell).imp_right fun h => ⟨h.1, hOut⟩
      · have hReset : at_ ≠ .resetStore := by
          rintro rfl
          exact finds.shaped
        exact .inr ⟨pollerStep_flag hNotified hReset hCell, hOut⟩
  | reset at_ =>
      obtain ⟨⟨cell, at_'⟩, hCell, rfl⟩ := Option.map_eq_some_iff.mp h
      rw [callers_setCaller, cell_setCaller, cell_setCell, if_pos ⟨rfl, rfl⟩]
      obtain hState | ⟨-, hOut⟩ := hSlot
      · refine (pollerStep_notified finds.facts hState hCell).imp_right fun ⟨hNotified, hAt⟩ =>
          ⟨hNotified, ?_⟩
        rw [hAt]
        exact fun h => h
      · exact absurd trivial hOut

/-- Until the pair starts a `do_io` an event stays recorded, and no call misses it. -/
theorem recorded_next {e : Event T V W} {x : SocketId × WakerKind} (sound : Sound L s)
    (recorded : Recorded x s) (hStarts : ¬StartsIo x (s, e)) (h : next L s e = some s') :
    Recorded x s' := by
  obtain hEnded | ⟨p, hLive, hSlot⟩ := recorded
  · exact .inl (ended_next hEnded h)
  cases slot_next sound.owns sound.drops hLive h with
  | dropped q at_ hDropping => exact .inl (.inl ⟨q, at_, hDropping⟩)
  | elsewhere q hLive' hIndex hCell hCallers hWakes =>
      refine .inr ⟨q, hLive', ?_⟩
      rw [hIndex, hCell]
      refine hSlot.imp_right fun ⟨hNotified, hOut⟩ => ⟨hNotified, fun t hPair => ?_⟩
      obtain ⟨ctx, line, hCall⟩ := call_of_pair hPair
      obtain hBefore | ⟨-, rfl⟩ := hCallers t ctx line hCall
      · rw [hCall, ← hBefore]
        exact hOut t (by rw [hBefore]; rfl)
      · rw [hCall]
        exact fun h => h
  | step t ctx line q hEvent hCall hStep hLive' hIndex hOthers hWakes =>
      have finds := sound.facts.calls t p.index x.2 line ⟨x.1, ctx, p, hCall, hLive, rfl⟩
      have hLine : line ≠ .doIo := by
        rintro rfl
        exact hStarts ⟨t, ctx, hEvent, hCall⟩
      have hHere : (s.callers t).pair? = some x := by rw [hCall]; rfl
      refine .inr ⟨q, hLive', ?_⟩
      rw [hIndex]
      refine (callStep_recorded finds hLine (hSlot.imp_right fun ⟨hNotified, hOut⟩ =>
        ⟨hNotified, ?_⟩) hStep).imp_right fun ⟨hNotified, hOut⟩ => ⟨hNotified, fun u hPair => ?_⟩
      · have hOutHere := hOut t hHere
        rwa [hCall] at hOutHere
      · by_cases hEq : u = t
        · rwa [hEq]
        · rw [hOthers u hEq] at hPair
          exact absurd (sound.exact_.exclusive u t x hPair hHere) hEq
  | io t ctx result hEvent hCall hNext =>
      subst hNext
      obtain hState | ⟨-, hOut⟩ := hSlot
      · exact .inr ⟨p, hLive, .inl hState⟩
      · refine absurd ?_ (hOut t (by rw [hCall]; rfl))
        rw [hCall]
        trivial
  | wake u wake at_ hEvent hWaking hIndex hKind hStep hCallers hSockets hWakes =>
      obtain ⟨hState, hNotified⟩ := wakerStep_state hStep
      refine .inr ⟨p, hSockets ▸ hLive, ?_⟩
      rw [hCallers, hNotified]
      exact hSlot.imp_left fun hBefore => hState.elim (·.trans hBefore) id

omit [DecidableEq V] [Fintype T] [DecidableEq T] in
/-- Where a wake is recorded no call gets `Pending` from the waker. -/
theorem not_misses {e : Event T V W} {x : SocketId × WakerKind} (sound : Sound L s)
    (recorded : Recorded x s) : ¬Misses x (s, e) := by
  rintro ⟨t, ctx, isPending, at_, p, cell, -, hCall, hLive, hStep⟩
  have hCall : s.callers t = .call x.1 x.2 ctx (.poll isPending at_) := hCall
  have hLive : s.sockets x.1 = .live p := hLive
  obtain (⟨q, at_', hDropping⟩ | hDropped) | ⟨q, hLive', hSlot⟩ := recorded
  · simp [hLive] at hDropping
  · simp [hLive] at hDropped
  · obtain rfl : p = q := by simpa [hLive] using hLive'
    have finds := sound.facts.calls t p.index x.2 _ ⟨x.1, ctx, p, hCall, hLive, rfl⟩
    exact not_pending finds (hSlot.imp_right And.left) hStep

/-- From an event on, until the pair starts a `do_io`, it stays recorded and no call of
the pair gets `Pending` from the waker. -/
theorem recorded_path {x : SocketId × WakerKind} {steps : List (State T V W × Event T V W)}
    (sound : Sound L s) (recorded : Recorded x s) (path : (system T V W L).Path s steps s')
    (one : Meets OneCaller steps) (quiet : Quiet s') (hStarts : ∀ z ∈ steps, ¬StartsIo x z) :
    Recorded x s' ∧ ∀ z ∈ steps, ¬Misses x z := by
  induction path with
  | refl => exact ⟨recorded, by simp⟩
  | @step steps u v e prior last ih =>
      rw [meets_append] at one
      have quiet' := quiet.before last
      obtain ⟨recorded', hMisses⟩ := ih one.1 quiet' fun z hz => hStarts z (List.mem_append_left _ hz)
      have sound' := sound_path sound prior one.1 quiet'
      refine ⟨recorded_next sound' recorded' (hStarts (u, e) (by simp)) last, fun z hz => ?_⟩
      obtain hz | hz := List.mem_append.mp hz
      · exact hMisses z hz
      · obtain rfl := List.mem_singleton.mp hz
        exact not_misses sound' recorded'

/-! ## The next call proceeds -/

/-- How far a call is from its `do_io` once it is bound to find a wake. -/
def Line.distance : Line W → Option Nat
  | .reset .resetLoad => some 11
  | .reset .resetStore => some 10
  | .load => some 9
  | .poll _ (.loadNotified _) | .poll _ (.store _) => some 8
  | .poll _ (.loadState _) | .poll _ (.swapUpdating _ _) | .poll _ (.swapWaiting _) => some 7
  | .poll _ .storeNotified => some 6
  | .poll _ .storeEmpty => some 5
  | .complete => some 4
  | .storeCompleted => some 3
  | .loadBudget => some 2
  | .storeBudget _ => some 1
  | .doIo | .yield => some 0
  | _ => none

/-- By its own steps alone a call of the pair comes to call `do_io` or to yield. -/
def Proceeds (L : Layout) (s : State T V W) (t : T) (x : SocketId × WakerKind) : Prop :=
  ∃ steps s', (system T V W L).Path s steps s' ∧ (∀ z ∈ steps, z.2 = .step t) ∧
    ∃ ctx line, s'.callers t = .call x.1 x.2 ctx line ∧ (line = .doIo ∨ line = .yield)

/-- A step of a thread in a call, with its socket at hand. -/
theorem next_of_call {t : T} {x : SocketId × WakerKind} {ctx : Option W} {line : Line W}
    {p : Pollable} (hCall : s.callers t = .call x.1 x.2 ctx line)
    (hLive : s.sockets x.1 = .live p) :
    next L s (.step t) = s.callStep t x.1 p x.2 ctx line := by
  simp only [next, hCall, hLive]

omit [DecidableEq V] [Fintype T] [DecidableEq T] [DecidableEq W] in
/-- Past the waker a call is two operations from `do_io`, or from a yield where its
budget is empty. -/
theorem spend_distance (ctx : Option W) : ∃ m, (Line.spend ctx).distance = some m ∧ m ≤ 2 := by
  cases ctx
  · exact ⟨0, rfl, by decide⟩
  · exact ⟨2, rfl, le_rfl⟩

omit [DecidableEq V] [Fintype T] [DecidableEq T] in
/-- `poll` takes a call that is bound to find a wake to its end. -/
theorem polled_closer {cell : Cell (V ⊕ SocketId) W} {at_ : AtomicWaker.Poller W} {isPending : Bool}
    {n : Nat} (finds : Finds cell (.poll isPending at_))
    (hRecorded : cell.state = NOTIFIED ∨ cell.notified = true)
    (hDistance : (Line.poll isPending at_).distance = some (n + 1)) (id : SocketId)
    (kind : WakerKind) (ctx : Option W) :
    ∃ cell' at_' line' m, pollerStep cell at_ = some (cell', at_') ∧
      Caller.polled id kind ctx isPending at_' = .call id kind ctx line' ∧
      line'.distance = some m ∧ m ≤ n := by
  have hReady : ∃ line' m, Caller.polled id kind ctx isPending (.idle true) =
      .call id kind ctx line' ∧ line'.distance = some m ∧ m ≤ 4 := by
    cases isPending
    · obtain ⟨m, hm, hLe⟩ := spend_distance ctx
      exact ⟨_, m, rfl, hm, hLe.trans (by decide)⟩
    · exact ⟨_, 4, rfl, rfl, le_rfl⟩
  cases at_ with
  | loadNotified ctx' =>
      obtain rfl : n = 7 := by simpa [Line.distance] using hDistance
      by_cases hNotified : cell.notified = true
      · obtain ⟨line', m, hLine, hm, hLe⟩ := hReady
        exact ⟨cell, _, line', m, by simp [pollerStep, hNotified], hLine, hm, hLe.trans (by decide)⟩
      · exact ⟨cell, .loadState ctx', _, 7, by simp [pollerStep, hNotified], rfl, rfl, le_rfl⟩
  | loadState ctx' =>
      obtain rfl : n = 6 := by simpa [Line.distance] using hDistance
      have hUnread : cell.notified = false := finds.unread trivial
      have hState : cell.state = NOTIFIED := by simpa [hUnread] using hRecorded
      exact ⟨cell, .storeNotified, _, 6, by simp [pollerStep, hState], rfl, rfl, le_rfl⟩
  | swapUpdating w seen =>
      obtain rfl : n = 6 := by simpa [Line.distance] using hDistance
      have hUnread : cell.notified = false := finds.unread trivial
      have hState : cell.state = NOTIFIED := by simpa [hUnread] using hRecorded
      have hSeen : NOTIFIED ≠ seen := by
        rintro rfl
        obtain ⟨hSeen | hSeen, -⟩ := finds.facts <;> simp at hSeen
      exact ⟨cell, .storeNotified, _, 6, by simp [pollerStep, hState, hSeen], rfl, rfl, le_rfl⟩
  | store w =>
      obtain rfl : n = 7 := by simpa [Line.distance] using hDistance
      exact ⟨_, .swapWaiting w, _, 7, rfl, rfl, rfl, le_rfl⟩
  | swapWaiting w =>
      obtain rfl : n = 6 := by simpa [Line.distance] using hDistance
      have hUnread : cell.notified = false := finds.unread trivial
      have hState : cell.state = NOTIFIED := by simpa [hUnread] using hRecorded
      exact ⟨cell, .storeNotified, _, 6, by simp [pollerStep, hState], rfl, rfl, le_rfl⟩
  | storeNotified =>
      obtain rfl : n = 5 := by simpa [Line.distance] using hDistance
      exact ⟨_, .storeEmpty, _, 5, rfl, rfl, rfl, le_rfl⟩
  | storeEmpty =>
      obtain rfl : n = 4 := by simpa [Line.distance] using hDistance
      obtain ⟨line', m, hLine, hm, hLe⟩ := hReady
      exact ⟨_, _, line', m, rfl, hLine, hm, hLe⟩
  | _ => simp [Line.distance] at hDistance

omit [DecidableEq V] [Fintype T] in
/-- The next operation brings such a call closer. -/
theorem callStep_closer {t : T} {x : SocketId × WakerKind} {ctx : Option W} {line : Line W}
    {p : Pollable} {n : Nat} (sound : Sound L s) (hCall : s.callers t = .call x.1 x.2 ctx line)
    (hLive : s.sockets x.1 = .live p)
    (hRecorded : (s.cell p.index x.2).state = NOTIFIED ∨ (s.cell p.index x.2).notified = true)
    (hDistance : line.distance = some (n + 1)) :
    ∃ s' line' m, s.callStep t x.1 p x.2 ctx line = some s' ∧
      s'.callers t = .call x.1 x.2 ctx line' ∧ line'.distance = some m ∧ m ≤ n := by
  have finds := sound.facts.calls t p.index x.2 line ⟨x.1, ctx, p, hCall, hLive, rfl⟩
  cases line with
  | load =>
      obtain rfl : n = 8 := by simpa [Line.distance] using hDistance
      exact ⟨_, _, 8, rfl, callers_setCaller .., rfl, le_rfl⟩
  | poll isPending at_ =>
      obtain ⟨cell, at_', line', m, hCell, hLine, hm, hLe⟩ :=
        polled_closer finds hRecorded hDistance x.1 x.2 ctx
      refine ⟨_, line', m, by rw [State.callStep, hCell, Option.map_some], ?_, hm, hLe⟩
      rw [callers_setCaller, hLine]
  | complete =>
      obtain rfl : n = 3 := by simpa [Line.distance] using hDistance
      have hPair : (s.callers t).pair? = some x := by rw [hCall]; rfl
      have hFlag : p.pendings x.2 = true := by
        have hAgrees := sound.exact_.agrees t x.1 x.2 p hPair hLive
        rwa [hCall] at hAgrees
      have hSome : s.pending ≠ 0 := by
        refine sound.exact_.pending_pos ((mem_counted_call sound.exact_.exclusive hPair hLive).mpr ?_)
        rw [hCall, hFlag]
        rfl
      refine ⟨_, .storeCompleted, 3, rfl, ?_, rfl, le_rfl⟩
      rw [callers_setCaller, if_neg hSome]
  | storeCompleted =>
      obtain rfl : n = 2 := by simpa [Line.distance] using hDistance
      obtain ⟨m, hm, hLe⟩ := spend_distance ctx
      exact ⟨_, _, m, rfl, callers_setCaller .., hm, hLe⟩
  | loadBudget =>
      obtain rfl : n = 1 := by simpa [Line.distance] using hDistance
      exact ⟨_, _, 1, rfl, callers_setCaller .., rfl, le_rfl⟩
  | storeBudget budget =>
      obtain rfl : n = 0 := by simpa [Line.distance] using hDistance
      refine ⟨_, _, 0, rfl, callers_setCaller .., ?_, le_rfl⟩
      split <;> rfl
  | reset at_ =>
      cases at_ with
      | resetLoad =>
          obtain rfl : n = 10 := by simpa [Line.distance] using hDistance
          have hNotified : (s.cell p.index x.2).notified = true := finds.facts.2
          refine ⟨_, .reset .resetStore, 10,
            by rw [State.callStep, pollerStep, if_pos hNotified, Option.map_some], ?_, rfl, le_rfl⟩
          rw [callers_setCaller, Caller.resetting]
          all_goals simp
      | resetStore =>
          obtain rfl : n = 9 := by simpa [Line.distance] using hDistance
          exact ⟨_, _, 9, rfl, callers_setCaller .., rfl, le_rfl⟩
      | _ => simp [Line.distance] at hDistance
  | begin | storePending | yield | doIo | inIo => simp [Line.distance] at hDistance

/-- If a call proceeds after its own next operation, it proceeds now. -/
theorem proceeds_step {t : T} {x : SocketId × WakerKind} (h : next L s (.step t) = some s')
    (proceeds : Proceeds L s' t x) : Proceeds L s t x := by
  obtain ⟨steps, s'', path, hOwn, hEnd⟩ := proceeds
  exact ⟨(s, .step t) :: steps, s'', path.cons h, List.forall_mem_cons.mpr ⟨rfl, hOwn⟩, hEnd⟩

omit [Fintype T] [DecidableEq V] [DecidableEq W] in
/-- A call that goes on without a panic keeps the state quiet. -/
theorem quiet_of_call {t : T} {caller : Caller W} (quiet : Quiet s)
    (hCallers : s'.callers = Function.update s.callers t caller)
    (hCaller : ∀ failure, caller ≠ .panicked failure) : Quiet s' := by
  intro u failure hPanicked
  rw [hCallers] at hPanicked
  by_cases hEq : u = t
  · subst hEq
    rw [Function.update_self] at hPanicked
    exact hCaller _ hPanicked
  · rw [Function.update_of_ne hEq] at hPanicked
    exact quiet u failure hPanicked

/-- A call that is bound to find the wake comes to `do_io` or yields by its own steps.
The induction is on its distance, which each operation makes less. -/
theorem proceeds_of_distance {t : T} {x : SocketId × WakerKind} {n : Nat} {ctx : Option W}
    {line : Line W} (sound : Sound L s) (quiet : Quiet s) (recorded : Recorded x s)
    (hCall : s.callers t = .call x.1 x.2 ctx line) (hDistance : line.distance = some n) :
    Proceeds L s t x := by
  induction n using Nat.strong_induction_on generalizing s line with
  | h n ih =>
      obtain ⟨p, hLive⟩ := sound.owns.live hCall
      have hSlot : (s.cell p.index x.2).state = NOTIFIED ∨
          (s.cell p.index x.2).notified = true := by
        obtain (⟨q, at_, hDropping⟩ | hDropped) | ⟨q, hLive', hSlot⟩ := recorded
        · simp [hLive] at hDropping
        · simp [hLive] at hDropped
        · obtain rfl : p = q := by simpa [hLive] using hLive'
          exact hSlot.imp_right And.left
      cases n with
      | zero =>
          refine ⟨[], s, .refl, by simp, ctx, line, hCall, ?_⟩
          cases line with
          | doIo => exact .inl rfl
          | yield => exact .inr rfl
          | poll isPending at_ | reset at_ => cases at_ <;> simp [Line.distance] at hDistance
          | _ => simp [Line.distance] at hDistance
      | succ n =>
          obtain ⟨s', line', m, hStep, hCall', hDistance', hLe⟩ :=
            callStep_closer sound hCall hLive hSlot hDistance
          have hNext : next L s (.step t) = some s' := (next_of_call hCall hLive).trans hStep
          have hStarts : ¬StartsIo x (s, .step t) := by
            rintro ⟨u, ctx', hEvent, hDoIo⟩
            obtain rfl : t = u := by simpa using hEvent
            have hDoIo : s.callers t = .call x.1 x.2 ctx' .doIo := hDoIo
            obtain ⟨-, rfl⟩ : ctx = ctx' ∧ line = .doIo := by simpa [hCall] using hDoIo
            simp [Line.distance] at hDistance
          obtain ⟨p', caller, done⟩ := callStep_calling hLive hStep
          have quiet' : Quiet s' := quiet_of_call quiet done.callers fun failure => by
            rw [done.callers, Function.update_self] at hCall'
            simp [hCall']
          have one : OneCaller s (.step t) := trivial
          exact proceeds_step hNext (ih m (by omega) (sound_next sound one quiet' hNext) quiet'
            (recorded_next sound recorded hStarts hNext) hCall' hDistance')

/-! ## The registered waker -/

/-- A call of the pair leaves a waker in the slot. -/
def Stores (x : SocketId × WakerKind) (w : W) (y : State T V W × Event T V W) : Prop :=
  ∃ t ctx isPending, y.2 = .step t ∧
    y.1.callers t = .call x.1 x.2 ctx (.poll isPending (.store w))

/-- The call gets `Pending` with its waker registered. -/
def Registers (x : SocketId × WakerKind) (w : W) (y : State T V W × Event T V W) : Prop :=
  ∃ t ctx isPending p, y.2 = .step t ∧
    y.1.callers t = .call x.1 x.2 ctx (.poll isPending (.swapWaiting w)) ∧
    y.1.sockets x.1 = .live p ∧ (y.1.cell p.index x.2).state = UPDATING

/-- A wake of the pair's slot invokes a waker. -/
def Invokes (x : SocketId × WakerKind) (w : W) (y : State T V W × Event T V W) : Prop :=
  ∃ u wake p, y.2 = .waker u ∧ y.1.wakes u = some wake ∧ wake.at_ = .invoke w ∧
    y.1.sockets x.1 = .live p ∧ wake.index = p.index ∧ wake.kind = x.2

/-- A call of the pair takes the slot for its waker `w'` while it holds `w`. -/
def TakesOver (x : SocketId × WakerKind) (w' w : W) (y : State T V W × Event T V W) : Prop :=
  ∃ t ctx isPending seen p, y.2 = .step t ∧
    y.1.callers t = .call x.1 x.2 ctx (.poll isPending (.swapUpdating w' seen)) ∧
    y.1.sockets x.1 = .live p ∧ (y.1.cell p.index x.2).state = seen ∧
    (y.1.cell p.index x.2).waker = some w

/-- The waker that a call stores between its two exchanges of the state. -/
def Caller.updating? : Caller W → Option W
  | .call _ _ _ (.poll _ at_) => AtomicWaker.updating? at_
  | _ => none

/-- The slot holds the waker and no call is about to replace it. -/
def Kept (x : SocketId × WakerKind) (w : W) (p : Pollable) (s : State T V W) : Prop :=
  (s.cell p.index x.2).waker = some w ∧
    ∀ t, (s.callers t).pair? = some x → ∀ w', (s.callers t).updating? = some w' → w' = w

/-- A wake of the slot stands at an operation. -/
def Hand (x : SocketId × WakerKind) (p : Pollable) (s : State T V W) (at_ : Waking W) : Prop :=
  ∃ u wake, s.wakes u = some wake ∧ wake.index = p.index ∧ wake.kind = x.2 ∧ wake.at_ = at_

/-- A call takes the slot from the waker of another task, which is registered there or
about to be taken. -/
def Loses (x : SocketId × WakerKind) (w : W) (y : State T V W × Event T V W) : Prop :=
  ∃ w' p, w' ≠ w ∧ TakesOver x w' w y ∧ y.1.sockets x.1 = .live p ∧
    ((y.1.cell p.index x.2).state = WAITING ∨ Hand x p y.1 .lock ∨ Hand x p y.1 .take)

/-- A wake of the slot is on its way to invoke the waker. -/
def Taken (x : SocketId × WakerKind) (w : W) (s : State T V W) : Prop :=
  Ended x.1 s ∨ ∃ p, s.sockets x.1 = .live p ∧
    (Hand x p s (.invoke w) ∨ (Hand x p s .lock ∨ Hand x p s .take) ∧ Kept x w p s)

/-- The waker waits for a wake, or one is on its way to invoke it. -/
def Owed (x : SocketId × WakerKind) (w : W) (s : State T V W) : Prop :=
  Taken x w s ∨ ∃ p, s.sockets x.1 = .live p ∧ Kept x w p s ∧
    (s.cell p.index x.2).state = WAITING

/-- A poll that has found a wake stores `EMPTY` over the `WAITING` of a later registration. -/
def ClearsWaiting (x : SocketId × WakerKind) (y : State T V W × Event T V W) : Prop :=
  ∃ t ctx isPending p, y.2 = .step t ∧
    y.1.callers t = .call x.1 x.2 ctx (.poll isPending .storeEmpty) ∧
    y.1.sockets x.1 = .live p ∧ (y.1.cell p.index x.2).state = WAITING

/-- What the fate of a registered waker rests on. The calls of a pair may overlap, but one
of them at most is between the exchanges of a registration. -/
structure Steady (L : Layout) (s : State T V W) : Prop where
  owns : Owns L s
  drops : DropWakes s
  valid : ∀ index kind, ValidState (s.cell index kind).state
  shaped : ∀ t id kind ctx line, s.callers t = .call id kind ctx line → line.Shaped
  alone : ∀ t u x, (s.callers t).pair? = some x → (s.callers u).pair? = some x →
    (s.callers t).updating?.isSome → (s.callers u).updating?.isSome → t = u

/-- A step from such a state that clears nobody's registration. -/
structure Calm (L : Layout) (s : State T V W) (e : Event T V W) : Prop where
  steady : Steady L s
  clears : ∀ x, ¬ClearsWaiting x (s, e)

omit [DecidableEq V] [Fintype T] [DecidableEq T] [DecidableEq W] in
/-- With one caller for each pair a state is steady: no two calls are between the
exchanges. -/
theorem Sound.steady (sound : Sound L s) : Steady L s := by
  refine ⟨sound.owns, sound.drops, sound.facts.valid, fun t id kind ctx line hCall => ?_,
    fun t u x ht hu _ _ => sound.exact_.exclusive t u x ht hu⟩
  obtain ⟨p, hLive⟩ := sound.owns.live hCall
  exact (sound.facts.calls t p.index kind line ⟨id, ctx, p, hCall, hLive, rfl⟩).shaped

omit [DecidableEq V] [Fintype T] [DecidableEq T] [DecidableEq W] in
/-- A single call stores `EMPTY` over a wake only. -/
theorem Sound.calm (sound : Sound L s) (e : Event T V W) : Calm L s e := by
  refine ⟨sound.steady, ?_⟩
  rintro x ⟨t, ctx, isPending, p, -, hCall, hLive, hState⟩
  have finds := sound.facts.calls t p.index x.2 _ ⟨x.1, ctx, p, hCall, hLive, rfl⟩
  have hNotified : (s.cell p.index x.2).state = NOTIFIED := finds.facts.1
  simp [hNotified] at hState

section Cell

omit [DecidableEq V] [Fintype T] [DecidableEq T]

variable {cell cell' : Cell (V ⊕ SocketId) W} {at_ at_' : AtomicWaker.Poller W}

/-- Unless another waker takes the slot the stored waker stays, and without any
registration `WAITING` stays too. -/
theorem pollerStep_kept {w : W} (hClear : at_ = .storeEmpty → cell.state ≠ WAITING)
    (hStored : cell.waker = some w)
    (hSwap : ∀ w' seen, at_ = .swapUpdating w' seen → cell.state = seen → w' = w)
    (hUpdating : ∀ w', updating? at_ = some w' → w' = w)
    (h : pollerStep cell at_ = some (cell', at_')) :
    cell'.waker = some w ∧ (∀ w', updating? at_' = some w' → w' = w) ∧
      (cell.state = WAITING → (∀ w' seen, at_ = .swapUpdating w' seen → cell.state ≠ seen) →
        cell'.state = WAITING) := by
  cases at_ <;> simp only [pollerStep, updating?] at h hUpdating hSwap <;>
    grind [updating?, stored]

omit [DecidableEq W] in
theorem polled_updating (id : SocketId) (kind : WakerKind) (ctx : Option W) (isPending : Bool)
    {w : W} (h : ∀ w', updating? at_ = some w' → w' = w) (w' : W)
    (hPolled : (Caller.polled id kind ctx isPending at_).updating? = some w') : w' = w := by
  unfold Caller.polled at hPolled
  split at hPolled
  · cases isPending <;> cases ctx <;> simp [Caller.updating?, Line.spend] at hPolled
  · cases isPending <;> simp [Caller.updating?] at hPolled
  · simp [Caller.updating?] at hPolled
  · exact h w' hPolled

end Cell

omit [Fintype T] [DecidableEq V] in
/-- An operation of a call leaves the stored waker in the slot, unless the call takes
the slot for another waker or clears a registration. -/
theorem callStep_kept {t : T} {id : SocketId} {kind : WakerKind} {ctx : Option W} {p : Pollable}
    {line : Line W} {w : W} (shaped : line.Shaped)
    (hClear : ∀ isPending, line = .poll isPending .storeEmpty →
      (s.cell p.index kind).state ≠ WAITING)
    (hStored : (s.cell p.index kind).waker = some w)
    (hSwap : ∀ isPending w' seen, line = .poll isPending (.swapUpdating w' seen) →
      (s.cell p.index kind).state = seen → w' = w)
    (hUpdating : ∀ w', (Caller.call id kind ctx line).updating? = some w' → w' = w)
    (h : s.callStep t id p kind ctx line = some s') :
    (s'.cell p.index kind).waker = some w ∧ (∀ w', (s'.callers t).updating? = some w' → w' = w) ∧
      ((s.cell p.index kind).state = WAITING → (∀ isPending w' seen,
        line = .poll isPending (.swapUpdating w' seen) → (s.cell p.index kind).state ≠ seen) →
        (s'.cell p.index kind).state = WAITING) := by
  cases line with
  | inIo => simp [State.callStep] at h
  | load | loadBudget | storePending | yield | doIo =>
      obtain rfl := Option.some.inj h
      rw [callers_setCaller]
      exact ⟨hStored, by simp [Caller.updating?, updating?], fun h _ => h⟩
  | storeCompleted =>
      obtain rfl := Option.some.inj h
      rw [callers_setCaller]
      refine ⟨hStored, ?_, fun h _ => h⟩
      cases ctx <;> simp [Caller.updating?, Line.spend]
  | storeBudget budget =>
      obtain rfl := Option.some.inj h
      rw [callers_setCaller]
      refine ⟨hStored, ?_, fun h _ => h⟩
      split <;> simp [Caller.updating?]
  | begin | complete =>
      obtain rfl := Option.some.inj h
      rw [callers_setCaller, cell_setCaller, cell_pending]
      refine ⟨hStored, ?_, fun h _ => h⟩
      split <;> simp [Caller.updating?]
  | poll isPending at_ =>
      obtain ⟨⟨cell, at_'⟩, hCell, rfl⟩ := Option.map_eq_some_iff.mp h
      rw [callers_setCaller, cell_setCaller, cell_setCell, if_pos ⟨rfl, rfl⟩]
      obtain ⟨hWaker, hOut, hState⟩ := pollerStep_kept (fun hAt => hClear isPending (hAt ▸ rfl))
        hStored (fun w' seen hAt => hSwap isPending w' seen (hAt ▸ rfl)) hUpdating hCell
      exact ⟨hWaker, polled_updating id kind ctx isPending hOut, fun hWaiting hSwaps =>
        hState hWaiting fun w' seen hAt => hSwaps isPending w' seen (hAt ▸ rfl)⟩
  | reset at_ =>
      obtain ⟨⟨cell, at_'⟩, hCell, rfl⟩ := Option.map_eq_some_iff.mp h
      rw [callers_setCaller, cell_setCaller, cell_setCell, if_pos ⟨rfl, rfl⟩]
      have hShaped : at_ = .resetLoad ∨ at_ = .resetStore := shaped
      have hNever : ∀ w' seen, at_ ≠ .swapUpdating w' seen := by
        obtain rfl | rfl := hShaped <;> simp
      have hReset : ∀ w', updating? at_ = some w' → w' = w := by
        obtain rfl | rfl := hShaped <;> simp [updating?]
      have hOther : at_ = .storeEmpty → (s.cell p.index kind).state ≠ WAITING := by
        obtain rfl | rfl := hShaped <;> simp
      obtain ⟨hWaker, -, hState⟩ := pollerStep_kept hOther hStored
        (fun w' seen hAt => absurd hAt (hNever w' seen)) hReset hCell
      refine ⟨hWaker, ?_, fun hWaiting _ => hState hWaiting fun w' seen hAt =>
        absurd hAt (hNever w' seen)⟩
      unfold Caller.resetting
      split <;> simp [Caller.updating?]

omit [DecidableEq V] [DecidableEq W] in
/-- What a wake of the slot does where the slot keeps a waker. -/
theorem wakerStep_kept {cell cell' : Cell (V ⊕ SocketId) W} {u : V ⊕ SocketId} {at_ at_' : Waking W}
    {w : W} (hStored : cell.waker = some w) (h : wakerStep cell u at_ = some (cell', at_')) :
    at_' = .invoke w ∨ cell'.waker = some w ∧ at_ ≠ .take ∧ (at_ = .lock → at_' = .take) ∧
      (cell.state = WAITING → cell'.state = WAITING ∨ at_' = .lock) := by
  cases at_ <;> simp only [wakerStep] at h <;> grind

omit [Fintype T] in
/-- The slot keeps its socket or this is dropped, and the other wakes stay. -/
theorem slot_live {e : Event T V W} {x : SocketId × WakerKind} {p : Pollable}
    (hLive : s.sockets x.1 = .live p) (hStep : SlotStep s s' e x p) :
    Ended x.1 s' ∨ ∃ q, s'.sockets x.1 = .live q ∧ q.index = p.index ∧
      ∀ u wake, e ≠ .waker u → s.wakes u = some wake → wake.index = p.index → wake.kind = x.2 →
        s'.wakes u = some wake := by
  cases hStep with
  | dropped q at_ hDropping => exact .inl (.inl ⟨q, at_, hDropping⟩)
  | elsewhere q hLive' hIndex hCell hCallers hWakes =>
      exact .inr ⟨q, hLive', hIndex, fun u wake _ => hWakes u wake⟩
  | step t ctx line q hEvent hCall hStep hLive' hIndex hOthers hWakes =>
      exact .inr ⟨q, hLive', hIndex, fun u wake _ hWake _ _ => by rwa [hWakes]⟩
  | io t ctx result hEvent hCall hNext =>
      subst hNext
      exact .inr ⟨p, hLive, rfl, fun u wake _ hWake _ _ => hWake⟩
  | wake u wake at_ hEvent hWaking hIndex hKind hStep hCallers hSockets hWakes =>
      refine .inr ⟨p, hSockets ▸ hLive, rfl, fun u' wake' hNe hWake _ _ => ?_⟩
      have hApart : u' ≠ u := by
        rintro rfl
        exact hNe hEvent
      rw [hWakes, Function.update_of_ne hApart, hWake]

/-- A kept waker stays in the slot or a wake takes it. -/
theorem kept_next {e : Event T V W} {x : SocketId × WakerKind} {w : W} {p : Pollable}
    (calm : Calm L s e) (hLive : s.sockets x.1 = .live p) (kept : Kept x w p s)
    (hOther : ∀ w', w' ≠ w → ¬TakesOver x w' w (s, e)) (h : next L s e = some s') :
    Taken x w s' ∨ ∃ q, s'.sockets x.1 = .live q ∧ Kept x w q s' ∧
      (Hand x p s .lock ∨ Hand x p s .take → Hand x q s' .lock ∨ Hand x q s' .take) ∧
      ((s.cell p.index x.2).state = WAITING → ¬TakesOver x w w (s, e) →
        (s'.cell q.index x.2).state = WAITING ∨ Hand x q s' .lock) := by
  obtain ⟨hStored, hOut⟩ := kept
  have hHands : ∀ {q : Pollable}, q.index = p.index →
      (∀ u wake, s.wakes u = some wake → wake.index = p.index → wake.kind = x.2 →
        s'.wakes u = some wake) →
      Hand x p s .lock ∨ Hand x p s .take → Hand x q s' .lock ∨ Hand x q s' .take := by
    intro q hIndex hWakes hHand
    refine hHand.imp ?_ ?_ <;>
      exact fun ⟨u, wake, hWake, hSlot, hKind, hAt⟩ =>
        ⟨u, wake, hWakes u wake hWake hSlot hKind, hSlot.trans hIndex.symm, hKind, hAt⟩
  cases slot_next calm.steady.owns calm.steady.drops hLive h with
  | dropped q at_ hDropping => exact .inl (.inl (.inl ⟨q, at_, hDropping⟩))
  | elsewhere q hLive' hIndex hCell hCallers hWakes =>
      refine .inr ⟨q, hLive', ⟨by rw [hIndex, hCell]; exact hStored, fun t hPair => ?_⟩,
        hHands hIndex hWakes, fun hState _ => .inl (by rw [hIndex, hCell]; exact hState)⟩
      obtain ⟨ctx, line, hCall⟩ := call_of_pair hPair
      obtain hBefore | ⟨-, rfl⟩ := hCallers t ctx line hCall
      · rw [hCall, ← hBefore]
        exact hOut t (by rw [hBefore]; rfl)
      · rw [hCall]
        simp [Caller.updating?]
  | step t ctx line q hEvent hCall hStep hLive' hIndex hOthers hWakes =>
      have hHere : (s.callers t).pair? = some x := by rw [hCall]; rfl
      have hClear : ∀ isPending, line = .poll isPending .storeEmpty →
          (s.cell p.index x.2).state ≠ WAITING := by
        rintro isPending rfl hState
        exact calm.clears x ⟨t, ctx, isPending, p, hEvent, hCall, hLive, hState⟩
      have hSwap : ∀ isPending w' seen, line = .poll isPending (.swapUpdating w' seen) →
          (s.cell p.index x.2).state = seen → w' = w := by
        rintro isPending w' seen rfl hState
        by_contra hNe
        exact hOther w' hNe ⟨t, ctx, isPending, seen, p, hEvent, hCall, hLive, hState, hStored⟩
      have hOwn : ∀ w', (Caller.call x.1 x.2 ctx line).updating? = some w' → w' = w := by
        rw [← hCall]
        exact hOut t hHere
      obtain ⟨hWaker', hOut', hState⟩ := callStep_kept
        (calm.steady.shaped t x.1 x.2 ctx line hCall) hClear hStored hSwap hOwn hStep
      refine .inr ⟨q, hLive', ⟨hIndex ▸ hWaker', fun u hPair => ?_⟩,
        hHands hIndex fun u wake h _ _ => by rwa [hWakes], fun h hOver => .inl ?_⟩
      · by_cases hEq : u = t
        · rwa [hEq]
        · rw [hOthers u hEq] at hPair ⊢
          exact hOut u hPair
      · rw [hIndex]
        refine hState h ?_
        rintro isPending w' seen rfl hSeen
        obtain rfl := hSwap isPending w' seen rfl hSeen
        exact hOver ⟨t, ctx, isPending, seen, p, hEvent, hCall, hLive, hSeen, hStored⟩
  | io t ctx result hEvent hCall hNext =>
      subst hNext
      refine .inr ⟨p, hLive, ⟨hStored, fun u hPair => ?_⟩, fun h => h, fun h _ => .inl h⟩
      by_cases hEq : u = t
      · subst hEq
        rw [callers_setCaller]
        cases result <;> simp [Caller.returned, Caller.updating?]
      · simp only [State.setCaller, Function.update_of_ne hEq] at hPair ⊢
        exact hOut u hPair
  | wake u wake at_ hEvent hWaking hIndex hKind hStep hCallers hSockets hWakes =>
      have hLive' : s'.sockets x.1 = .live p := hSockets ▸ hLive
      have hSelf : at_ ≠ .idle → Hand x p s' at_ := fun hNe =>
        ⟨u, { wake with at_ := at_ }, by rw [hWakes, Function.update_self, if_neg hNe], hIndex,
          hKind, rfl⟩
      obtain rfl | ⟨hStored', hTake, hLock, hState⟩ := wakerStep_kept hStored hStep
      · exact .inl (.inr ⟨p, hLive', .inl (hSelf (by simp))⟩)
      · refine .inr ⟨p, hLive', ⟨hStored', hCallers ▸ hOut⟩, fun hHand => ?_, fun hWaiting _ => ?_⟩
        · obtain ⟨u', wake', hWake', hIndex', hKind', hAt'⟩ | ⟨u', wake', hWake', hIndex', hKind', hAt'⟩ :=
            hHand
          · by_cases hEq : u' = u
            · subst hEq
              obtain rfl : wake = wake' := Option.some.inj (hWaking.symm.trans hWake')
              obtain rfl : at_ = .take := hLock hAt'
              exact .inr (hSelf (by simp))
            · exact .inl ⟨u', wake', by rw [hWakes, Function.update_of_ne hEq, hWake'], hIndex',
                hKind', hAt'⟩
          · by_cases hEq : u' = u
            · subst hEq
              obtain rfl : wake = wake' := Option.some.inj (hWaking.symm.trans hWake')
              exact absurd hAt' hTake
            · exact .inr ⟨u', wake', by rw [hWakes, Function.update_of_ne hEq, hWake'], hIndex',
                hKind', hAt'⟩
        · refine (hState hWaiting).imp_right fun hAt => ?_
          obtain rfl : at_ = .lock := hAt
          exact hSelf (by simp)

/-- A taken waker stays so until it is invoked. -/
theorem taken_next {e : Event T V W} {x : SocketId × WakerKind} {w : W} (calm : Calm L s e)
    (taken : Taken x w s) (hLoses : ¬Loses x w (s, e)) (h : next L s e = some s') :
    Taken x w s' ∨ Invokes x w (s, e) := by
  obtain hEnded | ⟨p, hLive, ⟨u, wake, hWake, hIndex, hKind, hAt⟩ | ⟨hHand, kept⟩⟩ := taken
  · exact .inl (.inl (ended_next hEnded h))
  · by_cases hEvent : e = .waker u
    · exact .inr ⟨u, wake, p, hEvent, hWake, hAt, hLive, hIndex, hKind⟩
    · refine .inl ?_
      obtain hEnded | ⟨q, hLive', hSlot, hWakes⟩ := slot_live hLive
        (slot_next calm.steady.owns calm.steady.drops hLive h)
      · exact .inl hEnded
      · exact .inr ⟨q, hLive', .inl ⟨u, wake, hWakes u wake hEvent hWake hIndex hKind,
          hIndex.trans hSlot.symm, hKind, hAt⟩⟩
  · refine .inl ?_
    have hOther : ∀ w', w' ≠ w → ¬TakesOver x w' w (s, e) := fun w' hNe hTakes =>
      hLoses ⟨w', p, hNe, hTakes, hLive, .inr hHand⟩
    obtain hTaken | ⟨q, hLive', kept', hHands, -⟩ := kept_next calm hLive kept hOther h
    · exact hTaken
    · exact .inr ⟨q, hLive', .inr ⟨hHands hHand, kept'⟩⟩

/-- A waker in a `WAITING` slot stays there, or a wake takes it. -/
theorem waiting_next {e : Event T V W} {x : SocketId × WakerKind} {w : W} {p : Pollable}
    (calm : Calm L s e) (hLive : s.sockets x.1 = .live p) (kept : Kept x w p s)
    (hState : (s.cell p.index x.2).state = WAITING) (hAgain : ¬TakesOver x w w (s, e))
    (hLoses : ¬Loses x w (s, e)) (h : next L s e = some s') :
    Taken x w s' ∨ ∃ q, s'.sockets x.1 = .live q ∧ Kept x w q s' ∧
      (s'.cell q.index x.2).state = WAITING := by
  have hOther : ∀ w', w' ≠ w → ¬TakesOver x w' w (s, e) := fun w' hNe hTakes =>
    hLoses ⟨w', p, hNe, hTakes, hLive, .inl hState⟩
  obtain hTaken | ⟨q, hLive', kept', -, hWaiting⟩ := kept_next calm hLive kept hOther h
  · exact .inl hTaken
  · obtain hState' | hLock := hWaiting hState hAgain
    · exact .inr ⟨q, hLive', kept', hState'⟩
    · exact .inl (.inr ⟨q, hLive', .inr ⟨.inl hLock, kept'⟩⟩)

/-- A waker that is owed a wake stays so, or is invoked. It stops being owed only if a
call takes the slot from it. -/
theorem owed_next {e : Event T V W} {x : SocketId × WakerKind} {w : W} (calm : Calm L s e)
    (owed : Owed x w s) (hAgain : ¬TakesOver x w w (s, e)) (hLoses : ¬Loses x w (s, e))
    (h : next L s e = some s') : Owed x w s' ∨ Invokes x w (s, e) := by
  obtain taken | ⟨p, hLive, kept, hState⟩ := owed
  · exact (taken_next calm taken hLoses h).imp_left .inl
  · exact .inl (waiting_next calm hLive kept hState hAgain hLoses h)

omit [DecidableEq V] [Fintype T] [DecidableEq T] [DecidableEq W] in
/-- A waker is not lost to a call where no call takes the slot over. -/
theorem not_loses {x : SocketId × WakerKind} {w : W} {z : State T V W × Event T V W}
    (h : ∀ w', ¬TakesOver x w' w z) : ¬Loses x w z := by
  rintro ⟨w', p, -, hTakes, -⟩
  exact h w' hTakes

/-- The waker of an owed call is taken by the event. -/
theorem taken_of_processes {e : Event T V W} {x : SocketId × WakerKind} {w : W} (calm : Calm L s e)
    (owed : Owed x w s) (hProcesses : Processes x (s, e)) (h : next L s e = some s') :
    Taken x w s' ∨ Invokes x w (s, e) := by
  have hOver : ∀ w', ¬TakesOver x w' w (s, e) := by
    rintro w' ⟨t, ctx, isPending, seen, p, hEvent, -⟩
    obtain ⟨u, wake, q, hWaker, -⟩ := hProcesses
    obtain rfl : e = .step t := hEvent
    simp at hWaker
  have hLoses := not_loses hOver
  obtain taken | ⟨p, hLive, kept, hState⟩ := owed
  · exact taken_next calm taken hLoses h
  · refine .inl ?_
    obtain hTaken | ⟨q, hLive', -, hState'⟩ :=
      waiting_next calm hLive kept hState (hOver w) hLoses h
    · exact hTaken
    · obtain ⟨q', hLive'', hNotified⟩ := notified_of_processes calm.steady.valid hProcesses h
      obtain rfl : q = q' := by simpa [hLive'] using hLive''
      simp [hState'] at hNotified

omit [Fintype T] [DecidableEq V] in
/-- A call that is not at its store leaves the stored waker alone. -/
theorem callStep_waker {t : T} {id : SocketId} {kind : WakerKind} {ctx : Option W} {p : Pollable}
    {line : Line W} (hStore : ∀ w, line.poller ≠ .store w)
    (h : s.callStep t id p kind ctx line = some s') :
    (s'.cell p.index kind).waker = (s.cell p.index kind).waker := by
  cases line with
  | inIo => simp [State.callStep] at h
  | begin | complete =>
      obtain rfl := Option.some.inj h
      rw [cell_setCaller, cell_pending]
  | poll isPending at_ | reset at_ =>
      obtain ⟨⟨cell, at_'⟩, hCell, rfl⟩ := Option.map_eq_some_iff.mp h
      rw [cell_setCaller, cell_setCell, if_pos ⟨rfl, rfl⟩]
      exact pollerStep_waker hStore hCell
  | _ =>
      obtain rfl := Option.some.inj h
      rfl

/-- The call of a thread has stored its waker, which a wake may have taken since. -/
def Storing (x : SocketId × WakerKind) (w : W) (t : T) (s : State T V W) : Prop :=
  ∃ ctx isPending p, s.callers t = .call x.1 x.2 ctx (.poll isPending (.swapWaiting w)) ∧
    s.sockets x.1 = .live p ∧ ((s.cell p.index x.2).waker = some w ∨ Hand x p s (.invoke w))

/-- A call that stores its waker has it stored, until its second exchange. -/
theorem storing_of_stores {t : T} {x : SocketId × WakerKind} {w : W}
    (hStores : Stores x w (s, .step t)) (h : next L s (.step t) = some s') : Storing x w t s' := by
  obtain ⟨u, ctx, isPending, hEvent, hCall⟩ := hStores
  obtain rfl : t = u := by simpa using hEvent
  have hCall : s.callers t = .call x.1 x.2 ctx (.poll isPending (.store w)) := hCall
  obtain ⟨id, kind, ctx', line, p, hCall', hLive, hStep⟩ := next_step h
  obtain ⟨rfl, rfl, rfl, rfl⟩ :
      x.1 = id ∧ x.2 = kind ∧ ctx = ctx' ∧ Line.poll isPending (.store w) = line := by
    simpa [hCall] using hCall'
  simp only [State.callStep, pollerStep, Option.map_some, Option.some.injEq] at hStep
  subst hStep
  refine ⟨ctx, isPending, p, callers_setCaller .., hLive, .inl ?_⟩
  rw [cell_setCaller, cell_setCell, if_pos ⟨rfl, rfl⟩]
  exact stored_eq _ w

/-- In the meantime a wake may take the waker, but then it holds it to invoke it. -/
theorem storing_next {e : Event T V W} {x : SocketId × WakerKind} {w : W} {t : T}
    (calm : Calm L s e) (storing : Storing x w t s) (hNe : e ≠ .step t)
    (h : next L s e = some s') : Storing x w t s' ∨ Invokes x w (s, e) := by
  obtain ⟨ctx, isPending, p, hCall, hLive, hSlot⟩ := storing
  have hPair : (s.callers t).pair? = some x := by rw [hCall]; rfl
  have hCall' : s'.callers t = .call x.1 x.2 ctx (.poll isPending (.swapWaiting w)) := by
    by_contra hMoved
    obtain hIdle | ⟨id, kind, ctx', line, hLine, hEvent | hLine'⟩ :=
      moved_next h fun hSame => hMoved (hSame.trans hCall)
    · simp [hCall] at hIdle
    · exact hNe hEvent
    · simp [hCall, hLine'] at hLine
  have hStep := slot_next calm.steady.owns calm.steady.drops hLive h
  have hHand : ∀ {q : Pollable}, q.index = p.index →
      (∀ u wake, s.wakes u = some wake → wake.index = p.index → wake.kind = x.2 →
        s'.wakes u = some wake) → Hand x p s (.invoke w) → Hand x q s' (.invoke w) :=
    fun hIndex hWakes ⟨u, wake, hWake, hSlot, hKind, hAt⟩ =>
      ⟨u, wake, hWakes u wake hWake hSlot hKind, hSlot.trans hIndex.symm, hKind, hAt⟩
  cases hStep with
  | dropped q at_ hDropping =>
      obtain ⟨q', hLive'⟩ := (owns_next calm.steady.owns h).live hCall'
      simp [hDropping] at hLive'
  | elsewhere q hLive' hIndex hCell hCallers hWakes =>
      refine .inl ⟨ctx, isPending, q, hCall', hLive', ?_⟩
      rw [hIndex, hCell]
      exact hSlot.imp_right (hHand hIndex hWakes)
  | step u ctx' line q hEvent hOwn hStep hLive' hIndex hOthers hWakes =>
      -- Another call of the pair is not between its exchanges, so it stores no waker.
      have hStore : ∀ w', line.poller ≠ .store w' := by
        intro w' hAt
        have shaped := calm.steady.shaped u x.1 x.2 ctx' line hOwn
        have hUpdating : (s.callers u).updating?.isSome := by
          rw [hOwn]
          cases line <;> simp_all [Line.poller, Line.Shaped, Caller.updating?, updating?]
        obtain rfl := calm.steady.alone t u x hPair (by rw [hOwn]; rfl) (by rw [hCall]; rfl) hUpdating
        exact hNe hEvent
      refine .inl ⟨ctx, isPending, q, hCall', hLive', ?_⟩
      rw [hIndex, callStep_waker hStore hStep]
      exact hSlot.imp_right (hHand hIndex fun v wake hWake _ _ => by rwa [hWakes])
  | io u ctx' result hEvent hOwn hNext =>
      subst hNext
      exact .inl ⟨ctx, isPending, p, hCall', hLive, hSlot⟩
  | wake u wake at_ hEvent hWaking hIndex hKind hStep hCallers hSockets hWakes =>
      have hLive' : s'.sockets x.1 = .live p := hSockets ▸ hLive
      obtain hStored | ⟨u', wake', hWake', hIndex', hKind', hAt'⟩ := hSlot
      · refine .inl ⟨ctx, isPending, p, hCall', hLive', ?_⟩
        obtain rfl | ⟨hStored', -⟩ := wakerStep_kept hStored hStep
        · exact .inr ⟨u, { wake with at_ := .invoke w },
            by rw [hWakes, Function.update_self, if_neg (by simp)], hIndex, hKind, rfl⟩
        · exact .inl hStored'
      · by_cases hEq : u' = u
        · subst hEq
          exact .inr ⟨u', wake', p, hEvent, hWake', hAt', hLive, hIndex', hKind'⟩
        · exact .inl ⟨ctx, isPending, p, hCall', hLive', .inr ⟨u', wake',
            by rw [hWakes, Function.update_of_ne hEq, hWake'], hIndex', hKind', hAt'⟩⟩

/-- A call that registers its stored waker is owed the next wake. If a wake has taken
the waker before, it has it in hand. -/
theorem owed_of_registers {t : T} {x : SocketId × WakerKind} {w : W} (steady : Steady L s)
    (storing : Storing x w t s) (hRegisters : Registers x w (s, .step t))
    (h : next L s (.step t) = some s') : Owed x w s' := by
  obtain ⟨ctx, isPending, p, hCall, hLive, hSlot⟩ := storing
  obtain ⟨u, ctx', isPending', p', hEvent, -, hLive', hState⟩ := hRegisters
  obtain rfl : p = p' := by simpa [hLive] using hLive'
  have hState : (s.cell p.index x.2).state = UPDATING := hState
  rw [next_of_call hCall hLive] at h
  obtain ⟨⟨cell, at_⟩, hCell, rfl⟩ := Option.map_eq_some_iff.mp h
  rw [pollerStep, if_pos hState] at hCell
  obtain ⟨rfl, rfl⟩ := Prod.ext_iff.mp (Option.some.inj hCell)
  obtain hStored | hHand := hSlot
  · refine .inr ⟨p, hLive, ⟨?_, fun v hPair => ?_⟩, ?_⟩
    · rw [cell_setCaller, cell_setCell, if_pos ⟨rfl, rfl⟩]
      exact hStored
    · by_cases hEq : v = t
      · subst hEq
        rw [callers_setCaller]
        exact polled_updating x.1 x.2 ctx isPending (by simp [updating?])
      · -- The others are not between their exchanges.
        simp only [State.setCaller, State.setCell, Function.update_of_ne hEq] at hPair ⊢
        intro w' hThere
        exact absurd (steady.alone v t x hPair (by rw [hCall]; rfl) (by rw [hThere]; rfl)
          (by rw [hCall]; rfl)) hEq
    · rw [cell_setCaller, cell_setCell, if_pos ⟨rfl, rfl⟩]
  · exact .inl (.inr ⟨p, hLive, .inl hHand⟩)

/-- What each step keeps unless it invokes the waker, a path keeps. -/
theorem until_invoked {x : SocketId × WakerKind} {w : W} {keeps : State T V W → Prop}
    {steps : List (State T V W × Event T V W)} (fine : State T V W × Event T V W → Prop)
    (step : ∀ u e v, Calm L u e → keeps u → fine (u, e) → next L u e = some v →
      keeps v ∨ Invokes x w (u, e))
    (start : keeps s) (path : (system T V W L).Path s steps s') (calm : Meets (Calm L) steps)
    (hFine : ∀ z ∈ steps, fine z) : keeps s' ∨ ∃ z ∈ steps, Invokes x w z := by
  induction path with
  | refl => exact .inl start
  | @step steps u v e prior last ih =>
      rw [meets_append, meets_singleton] at calm
      obtain hKeeps | ⟨z, hz, hInvokes⟩ :=
        ih calm.1 fun z hz => hFine z (List.mem_append_left _ hz)
      · refine (step u e v calm.2 hKeeps (hFine (u, e) (by simp)) last).imp_right fun hInvokes =>
          ⟨(u, e), by simp, hInvokes⟩
      · exact .inr ⟨z, List.mem_append_left _ hz, hInvokes⟩

/-! ## What an event brings about -/

/-- A call that is not between the `Pending` of its waker and its own, nor in `do_io`. -/
def Line.Open : Line W → Prop
  | .begin | .storePending | .inIo => False
  | _ => True

/-- From an event on no call of the pair gets `Pending` from the waker. The call in
progress goes on to its `do_io` or yields, where a `try_lock` finds the lock free, and
so does the next one. -/
structure Served (L : Layout) (x : SocketId × WakerKind)
    (after : List (State T V W × Event T V W)) (s : State T V W) : Prop where
  unmissed : ∀ z ∈ after, ¬Misses x z
  inProgress : ∀ t ctx line p, s.callers t = .call x.1 x.2 ctx line → line.Open →
    s.sockets x.1 = .live p →
    (∀ isPending w, line = .poll isPending (.tryLock w) → (s.cell p.index x.2).lock = none) →
    Proceeds L s t x
  next : ∀ t ctx p, s.callers t = .idle → s.sockets x.1 = .live p →
    (∀ u, (s.callers u).pair? ≠ some x) →
    ∃ u, next L s (.call t x.1 x.2 ctx) = some u ∧ Proceeds L u t x

omit [DecidableEq V] [Fintype T] [DecidableEq T] [DecidableEq W] in
/-- An open call has a distance, or it is about to try the lock. -/
theorem distance_of_open {line : Line W} (shaped : line.Shaped) (opened : line.Open) :
    (∃ n, line.distance = some n) ∨ ∃ isPending w, line = .poll isPending (.tryLock w) := by
  cases line with
  | begin | storePending | inIo => exact opened.elim
  | load | complete | storeCompleted | loadBudget | storeBudget budget | yield | doIo =>
      exact .inl ⟨_, rfl⟩
  | poll isPending at_ =>
      cases at_ with
      | tryLock w => exact .inr ⟨isPending, w, rfl⟩
      | idle ready | resetLoad | resetStore | panicked failure => exact shaped.elim
      | _ => exact .inl ⟨_, rfl⟩
  | reset at_ =>
      obtain rfl | rfl : at_ = .resetLoad ∨ at_ = .resetStore := shaped
      · exact .inl ⟨_, rfl⟩
      · exact .inl ⟨_, rfl⟩

/-- So it proceeds where a wake is recorded and the lock is free. -/
theorem proceeds_of_open {t : T} {x : SocketId × WakerKind} {ctx : Option W} {line : Line W}
    {p : Pollable} (sound : Sound L s) (quiet : Quiet s) (recorded : Recorded x s)
    (hCall : s.callers t = .call x.1 x.2 ctx line) (opened : line.Open)
    (hLive : s.sockets x.1 = .live p)
    (hLock : ∀ isPending w, line = .poll isPending (.tryLock w) →
      (s.cell p.index x.2).lock = none) : Proceeds L s t x := by
  have finds := sound.facts.calls t p.index x.2 line ⟨x.1, ctx, p, hCall, hLive, rfl⟩
  obtain ⟨n, hDistance⟩ | ⟨isPending, w, rfl⟩ := distance_of_open finds.shaped opened
  · exact proceeds_of_distance sound quiet recorded hCall hDistance
  · have hFree := hLock isPending w rfl
    have hStep : ∃ s', s.callStep t x.1 p x.2 ctx (.poll isPending (.tryLock w)) = some s' ∧
        s'.callers = Function.update s.callers t (.call x.1 x.2 ctx (.poll isPending (.store w))) := by
      simp only [State.callStep, pollerStep, hFree, Option.map_some]
      exact ⟨_, rfl, rfl⟩
    obtain ⟨s', hStep, hCallers⟩ := hStep
    have hNext : next L s (.step t) = some s' := (next_of_call hCall hLive).trans hStep
    have quiet' : Quiet s' := quiet_of_call quiet hCallers fun failure => by simp
    have hStarts : ¬StartsIo x (s, .step t) := by
      rintro ⟨u, ctx', hEvent, hDoIo⟩
      obtain rfl : t = u := by simpa using hEvent
      simp [hCall] at hDoIo
    have one : OneCaller s (.step t) := trivial
    exact proceeds_step hNext (proceeds_of_distance (n := 8) (sound_next sound one quiet' hNext)
      quiet' (recorded_next sound recorded hStarts hNext)
      (by rw [hCallers, Function.update_self]) rfl)

/-- Where a wake is recorded, the call in progress and the next one are both served. -/
theorem served_of_recorded {x : SocketId × WakerKind} {after : List (State T V W × Event T V W)}
    (sound : Sound L s) (quiet : Quiet s) (recorded : Recorded x s)
    (hMisses : ∀ z ∈ after, ¬Misses x z) : Served L x after s := by
  refine ⟨hMisses, fun t ctx line p hCall opened hLive hLock =>
    proceeds_of_open sound quiet recorded hCall opened hLive hLock, fun t ctx p hIdle hLive hNobody => ?_⟩
  have hCreated := (sound.owns.used x.1 p.index (by rw [hLive]; rfl)).2
  have hNext : next L s (.call t x.1 x.2 ctx) =
      some (s.setCaller t (.call x.1 x.2 ctx .load)) := by
    simp only [next, hIdle, hLive, if_pos hCreated]
  have quiet' : Quiet (s.setCaller t (.call x.1 x.2 ctx .load)) :=
    quiet_of_call quiet rfl fun failure => by simp
  have one : OneCaller s (.call t x.1 x.2 ctx) := hNobody
  have hStarts : ¬StartsIo x (s, .call t x.1 x.2 ctx) := by
    rintro ⟨u, ctx', hEvent, -⟩
    simp at hEvent
  exact ⟨_, hNext, proceeds_of_distance (n := 9) (sound_next sound one quiet' hNext) quiet'
    (recorded_next sound recorded hStarts hNext) (callers_setCaller ..) rfl⟩

/-- Every event of a pair leads to a `do_io`, or serves the calls since; and it wakes
the waker that was registered last. -/
structure NoEventLost (L : Layout) (x : SocketId × WakerKind)
    (steps : List (State T V W × Event T V W)) (s : State T V W) : Prop where
  served : ∀ before y after, steps = before ++ y :: after → Processes x y →
    (∃ z ∈ after, StartsIo x z) ∨ Served L x after s
  woken : ∀ w before store middle reg after,
    steps = before ++ store :: (middle ++ reg :: after) → Stores x w store →
    (∀ z ∈ middle, z.2 ≠ store.2) → Registers x w reg → (∀ z ∈ after, ∀ w', ¬TakesOver x w' w z) →
    (∃ y ∈ after, Processes x y) →
    (∃ z ∈ middle ++ reg :: after, Invokes x w z) ∨ Taken x w s

/-- After an event either some call of the pair comes to `do_io`, or the event is still
recorded. In the second case it serves the calls. -/
theorem served {x : SocketId × WakerKind} {before after : List (State T V W × Event T V W)}
    {y : State T V W × Event T V W} (run : (system T V W L).Run (before ++ y :: after) s)
    (one : Meets OneCaller (before ++ y :: after)) (quiet : Quiet s) (hProcesses : Processes x y) :
    (∃ z ∈ after, StartsIo x z) ∨ Served L x after s := by
  obtain ⟨u, hBefore, hNext, hAfter⟩ := System.Path.split run
  have sound := sound_run run one quiet
  rw [meets_append, meets_cons] at one
  have quietU : Quiet u := quiet.path hAfter
  have quietY : Quiet y.1 := quietU.before hNext
  have soundY := sound_run hBefore one.1 quietY
  have soundU := sound_next soundY one.2.1 quietU hNext
  by_cases hStarts : ∃ z ∈ after, StartsIo x z
  · exact .inl hStarts
  · push Not at hStarts
    obtain ⟨recorded, hMisses⟩ := recorded_path soundU (recorded_of_processes soundY hProcesses hNext)
      hAfter one.2.2 quiet hStarts
    exact .inr (served_of_recorded sound quiet recorded hMisses)

/-- From the store of a waker to its registration. -/
theorem owed_of_path {x : SocketId × WakerKind} {w : W} {store reg : State T V W × Event T V W}
    {middle : List (State T V W × Event T V W)}
    (path : (system T V W L).Path s (store :: (middle ++ [reg])) s')
    (calm : Meets (Calm L) (store :: (middle ++ [reg])))
    (hStores : Stores x w store) (hMiddle : ∀ z ∈ middle, z.2 ≠ store.2)
    (hRegisters : Registers x w reg) :
    Owed x w s' ∨ ∃ z ∈ middle ++ [reg], Invokes x w z := by
  have hWhole : (system T V W L).Path s ([] ++ store :: (middle ++ [reg])) s' := path
  obtain ⟨u, hStart, hStore, hRest⟩ := hWhole.split
  obtain ⟨hPath, hReg⟩ := hRest.unsnoc
  rw [meets_cons, meets_append, meets_singleton] at calm
  obtain ⟨-, calmMiddle, calmReg⟩ := calm
  obtain ⟨t, ctx, isPending, hEvent, hCall⟩ := hStores
  have storing : Storing x w t u := by
    rw [hEvent] at hStore
    exact storing_of_stores (L := L) ⟨t, ctx, isPending, rfl, hCall⟩ hStore
  obtain storing' | ⟨z, hz, hInvokes⟩ := until_invoked (L := L)
    (fun z => z.2 ≠ store.2)
    (fun _ _ _ calm storing hNe => storing_next calm storing fun h => hNe (h.trans hEvent.symm))
    storing hPath calmMiddle hMiddle
  · have hOwn := hRegisters
    obtain ⟨v, ctx', isPending', p, hEvent', hCall', -⟩ := hOwn
    have hStoring := storing'
    obtain ⟨ctx'', isPending'', q, hCall'', -⟩ := hStoring
    obtain rfl : v = t := calmReg.steady.alone v t x (by rw [hCall']; rfl) (by rw [hCall'']; rfl)
      (by rw [hCall']; rfl) (by rw [hCall'']; rfl)
    have hReg' : reg = (reg.1, .step v) := Prod.ext rfl hEvent'
    rw [hEvent'] at hReg
    rw [hReg'] at hRegisters
    exact .inl (owed_of_registers calmReg.steady storing' hRegisters hReg)
  · exact .inr ⟨z, List.mem_append_left _ hz, hInvokes⟩

/-- A waker that is not taken over before the event is invoked, or on its way. -/
theorem woken {x : SocketId × WakerKind} {w : W}
    {before middle early late : List (State T V W × Event T V W)}
    {store reg y : State T V W × Event T V W}
    (run : (system T V W L).Run (before ++ store :: (middle ++ reg :: (early ++ y :: late))) s)
    (calm : Meets (Calm L) (before ++ store :: (middle ++ reg :: (early ++ y :: late))))
    (hStores : Stores x w store) (hMiddle : ∀ z ∈ middle, z.2 ≠ store.2)
    (hRegisters : Registers x w reg)
    (hEarly : ∀ z ∈ early, ¬TakesOver x w w z ∧ ¬Loses x w z) (hProcesses : Processes x y)
    (hLate : ∀ z ∈ late, ¬Loses x w z) :
    (∃ z ∈ middle ++ reg :: (early ++ y :: late), Invokes x w z) ∨ Taken x w s := by
  have hAll : before ++ store :: (middle ++ reg :: (early ++ y :: late)) =
      before ++ (store :: (middle ++ [reg]) ++ (early ++ y :: late)) := by simp
  rw [hAll] at run calm
  obtain ⟨u, hBefore, hRest⟩ := System.Path.cut run
  obtain ⟨v, hSince, hAfter⟩ := hRest.cut
  obtain ⟨v', pathEarly, hNext, pathLate⟩ := hAfter.split
  obtain ⟨-, calmRest⟩ := meets_append.mp calm
  obtain ⟨calmSince, calmAfter⟩ := meets_append.mp calmRest
  obtain ⟨calmEarly, calmHere⟩ := meets_append.mp calmAfter
  obtain ⟨calmY, calmLate⟩ := meets_cons.mp calmHere
  -- registered, until the event, at the event, and after it
  obtain owed | ⟨z, hz, hInvokes⟩ := owed_of_path hSince calmSince hStores hMiddle hRegisters
  swap
  · exact .inl ⟨z, by simp only [List.mem_append, List.mem_cons] at hz ⊢; grind, hInvokes⟩
  obtain owed' | ⟨z, hz, hInvokes⟩ := until_invoked
    (fun z => ¬TakesOver x w w z ∧ ¬Loses x w z)
    (fun _ _ _ calm owed hFine => owed_next calm owed hFine.1 hFine.2) owed pathEarly
    calmEarly hEarly
  swap
  · exact .inl ⟨z, by simp [hz], hInvokes⟩
  obtain taken | hInvokes := taken_of_processes calmY owed' hProcesses hNext
  swap
  · exact .inl ⟨y, by simp, hInvokes⟩
  obtain taken' | ⟨z, hz, hInvokes⟩ := until_invoked (fun z => ¬Loses x w z)
    (fun _ _ _ calm taken hLoses => taken_next calm taken hLoses) taken pathLate calmLate hLate
  · exact .inr taken'
  · exact .inl ⟨z, by simp [hz], hInvokes⟩

/-- With one caller for each pair every step is calm. -/
theorem calm_run {steps : List (State T V W × Event T V W)} (run : (system T V W L).Run steps s)
    (one : Meets OneCaller steps) (quiet : Quiet s) : Meets (Calm L) steps := by
  intro z hz
  obtain ⟨first, rest, rfl⟩ := List.append_of_mem hz
  obtain ⟨u, hFirst, hNext, hRest⟩ := System.Path.split run
  exact (sound_run hFirst (meets_append.mp one).1 ((quiet.path hRest).before hNext)).calm z.2

/-- With one caller for each kind of a socket no event is lost. -/
theorem no_event_lost {steps : List (State T V W × Event T V W)}
    (run : (system T V W L).Run steps s) (one : Meets OneCaller steps) (quiet : Quiet s)
    (x : SocketId × WakerKind) : NoEventLost L x steps s where
  served := by
    rintro before y after rfl hProcesses
    exact served run one quiet hProcesses
  woken := by
    rintro w before store middle reg after rfl hStores hMiddle hRegisters hOver ⟨y, hMem, hProcesses⟩
    obtain ⟨early, late, rfl⟩ := List.append_of_mem hMem
    rw [List.forall_mem_append, List.forall_mem_cons] at hOver
    exact woken run (calm_run run one quiet) hStores hMiddle hRegisters
      (fun z hz => ⟨hOver.1 z hz w, not_loses (hOver.1 z hz)⟩) hProcesses
      fun z hz => not_loses (hOver.2.2 z hz)

/-- A registered caller, the event it waits for and its next call. -/
def oneEvent : List (Event Unit Unit Unit) :=
  onePending ++ [.wake () ⟨0, 0⟩ .Read, .waker (.inl ()), .waker (.inl ()), .waker (.inl ()),
    .waker (.inl ()), .call () 0 .Read (some ())] ++ List.replicate 7 (.step ())

/-- One event: the second call finds it and is on its way to `do_io`. -/
theorem no_event_lost_oneEvent :
    ∃ (s : State Unit Unit Unit) (steps : List (State Unit Unit Unit × Event Unit Unit Unit)),
      NoEventLost ⟨1, 1, by decide, by decide, by decide, by decide⟩ (0, .Read) steps s ∧
        s.callers () = .call 0 .Read (some ()) .loadBudget := by
  obtain ⟨s, run, hCaller⟩ :=
    (system Unit Unit Unit ⟨1, 1, by decide, by decide, by decide, by decide⟩).exists_run_of_replay
      oneEvent (fun s => s.callers ()) (.call 0 .Read (some ()) .loadBudget) (by decide)
  have quiet : Quiet s := fun _ failure => by simp [hCaller]
  refine ⟨s, _, no_event_lost run (fun x hx => ?_) quiet (0, .Read), hCaller⟩
  obtain ⟨first, rest, hSplit⟩ := List.append_of_mem hx
  rw [hSplit] at run
  obtain ⟨u, -, hNext, -⟩ := System.Path.split run
  exact oneCaller_of_next hNext

end Yaar.Net.PollIo
