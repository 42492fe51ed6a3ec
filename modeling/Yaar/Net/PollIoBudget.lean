import Yaar.Net.PollIoShared

/-! The budget of one kind of a socket over its calls. -/
namespace Yaar.Net.PollIo

open Machine AtomicWaker

variable {T V W : Type*} [DecidableEq T] [DecidableEq V] [DecidableEq W]

/-- A call with a context begins a turn of its loop, or has spent the budget of the turn. -/
def Line.spent : Line W → Bool
  | .load | .doIo | .inIo | .reset _ => true
  | _ => false

/-- What a call knows of the budget of its pair. -/
def Line.Knows (budget : UInt8) : Line W → Prop
  | .storeBudget loaded => budget = loaded
  | .yield => budget = BUDGET
  | _ => True

/-- An operation of a call as the budget `b` of its pair sees it: it ends the call, begins a
turn, goes on within a turn, spends the budget or finds it empty. -/
inductive Spends (x : SocketId × WakerKind) (ctx : Option W) (line : Line W) (b : UInt8)
    (caller : Caller W) (b' : UInt8) : Prop where
  | ends (out : caller.pair? = none) (line : ∀ b, line ≠ .storeBudget b) (budget : b' = b)
  | begins (line : line = .load) (isPending : Bool)
      (caller : caller = .call x.1 x.2 ctx (.poll isPending (.loadNotified ctx))) (budget : b' = b)
  | goes (line' : Line W) (caller : caller = .call x.1 x.2 ctx line')
      (spent : ctx = none ∨ line'.spent = line.spent ∧ line' ≠ .doIo)
      (inTurn : line ≠ .load ∧ line ≠ .yield) (line : ∀ b, line ≠ .storeBudget b)
      (knows : line'.Knows b) (yields : line' ≠ .yield) (budget : b' = b)
  | spends (line : line = .storeBudget b) (caller : caller = .call x.1 x.2 ctx .doIo)
      (budget : b'.toNat + 1 = b.toNat)
  | yields (line : line = .storeBudget 0) (caller : caller = .call x.1 x.2 ctx .yield)
      (empty : b = 0) (budget : b' = BUDGET)

section Calls

variable {s s' : State T V W} {t : T} {x : SocketId × WakerKind} {ctx : Option W} {p : Pollable} {line : Line W}

omit [DecidableEq T] [DecidableEq V] [DecidableEq W] in
theorem checkedPred_some {b b' : UInt8} (h : Pollable.checkedPred b = some b') :
    b'.toNat + 1 = b.toNat := by
  unfold Pollable.checkedPred at h
  split at h
  · simp at h
  · next hNe =>
      obtain rfl : b - 1 = b' := Option.some.inj h
      have hPos : b.toNat ≠ 0 := fun hZero => hNe (UInt8.toNat_inj.mp hZero)
      rw [UInt8.toNat_sub_of_le _ _ (UInt8.le_iff_toNat_le.mpr (by simp; omega))]
      simp
      omega

omit [DecidableEq T] [DecidableEq V] [DecidableEq W] in
theorem checkedPred_none {b : UInt8} (h : Pollable.checkedPred b = none) : b = 0 := by
  unfold Pollable.checkedPred at h
  split at h
  · next hZero => exact hZero
  · simp at h

omit [DecidableEq T] [DecidableEq V] [DecidableEq W] in
theorem polled_spends {isPending : Bool} {at_ at_' : AtomicWaker.Poller W} {b : UInt8} :
    Spends x ctx (.poll isPending at_) b (.polled x.1 x.2 ctx isPending at_') b := by
  unfold Caller.polled
  split
  · cases isPending
    · cases ctx with
      | none => exact .goes _ rfl (.inl rfl) (by simp) (by simp) trivial (by simp [Line.spend]) rfl
      | some w =>
          exact .goes _ rfl (.inr ⟨rfl, by simp [Line.spend]⟩) (by simp) (by simp) trivial
            (by simp [Line.spend]) rfl
    · exact .goes _ rfl (.inr ⟨rfl, by simp⟩) (by simp) (by simp) trivial (by simp) rfl
  · cases isPending
    · exact .goes _ rfl (.inr ⟨rfl, by simp⟩) (by simp) (by simp) trivial (by simp) rfl
    · exact .ends rfl (by simp) rfl
  · exact .ends rfl (by simp) rfl
  · exact .goes _ rfl (.inr ⟨rfl, by simp⟩) (by simp) (by simp) trivial (by simp) rfl

omit [DecidableEq T] [DecidableEq V] [DecidableEq W] in
theorem resetting_spends {at_ at_' : AtomicWaker.Poller W} {b : UInt8} :
    Spends x ctx (.reset at_) b (.resetting x.1 x.2 ctx at_') b := by
  unfold Caller.resetting
  split
  · exact .goes _ rfl (.inr ⟨rfl, by simp⟩) (by simp) (by simp) trivial (by simp) rfl
  · exact .ends rfl (by simp) rfl
  · exact .goes _ rfl (.inr ⟨rfl, by simp⟩) (by simp) (by simp) trivial (by simp) rfl

omit [DecidableEq V] in
/-- Only the store of a budget changes one. -/
theorem callStep_spends (hLive : s.sockets x.1 = .live p) (knows : line.Knows (p.budgets x.2))
    (h : s.callStep t x.1 p x.2 ctx line = some s') :
    ∃ q, s'.sockets x.1 = .live q ∧ (∀ k, k ≠ x.2 → q.budgets k = p.budgets k) ∧
      Spends x ctx line (p.budgets x.2) (s'.callers t) (q.budgets x.2) := by
  cases line with
  | load =>
      obtain rfl := Option.some.inj h
      exact ⟨p, hLive, fun _ _ => rfl, .begins rfl _ (callers_setCaller ..) rfl⟩
  | poll isPending at_ =>
      obtain ⟨⟨cell, at_'⟩, -, rfl⟩ := Option.map_eq_some_iff.mp h
      refine ⟨p, hLive, fun _ _ => rfl, ?_⟩
      rw [callers_setCaller]
      exact polled_spends
  | begin | complete =>
      obtain rfl := Option.some.inj h
      refine ⟨p, hLive, fun _ _ => rfl, ?_⟩
      rw [callers_setCaller]
      split
      · exact .ends rfl (by simp) rfl
      · exact .goes _ rfl (.inr ⟨rfl, by simp⟩) (by simp) (by simp) trivial (by simp) rfl
  | storePending =>
      obtain rfl := Option.some.inj h
      refine ⟨_, Function.update_self .., fun _ _ => rfl, ?_⟩
      rw [callers_setCaller]
      exact .ends rfl (by simp) rfl
  | storeCompleted =>
      obtain rfl := Option.some.inj h
      refine ⟨_, Function.update_self .., fun _ _ => rfl, ?_⟩
      rw [callers_setCaller]
      cases ctx with
      | none => exact .goes _ rfl (.inl rfl) (by simp) (by simp) trivial (by simp [Line.spend]) rfl
      | some w =>
          exact .goes _ rfl (.inr ⟨rfl, by simp [Line.spend]⟩) (by simp) (by simp) trivial
            (by simp [Line.spend]) rfl
  | loadBudget =>
      obtain rfl := Option.some.inj h
      exact ⟨p, hLive, fun _ _ => rfl, .goes _ (callers_setCaller ..) (.inr ⟨rfl, by simp⟩) (by simp)
        (by simp) rfl (by simp) rfl⟩
  | doIo =>
      obtain rfl := Option.some.inj h
      exact ⟨p, hLive, fun _ _ => rfl, .goes _ (callers_setCaller ..) (.inr ⟨rfl, by simp⟩) (by simp)
        (by simp) trivial (by simp) rfl⟩
  | storeBudget budget =>
      obtain rfl := Option.some.inj h
      have hKnows : p.budgets x.2 = budget := knows
      refine ⟨_, Function.update_self .., fun k hk => Function.update_of_ne hk .., ?_⟩
      rw [callers_setCaller]
      cases hPred : Pollable.checkedPred budget with
      | none =>
          have hZero := checkedPred_none hPred
          exact .yields (by rw [hZero]) rfl (hKnows.trans hZero) (Function.update_self ..)
      | some b =>
          refine .spends (by rw [hKnows]) rfl ?_
          rw [hKnows, ← checkedPred_some hPred]
          exact congrArg (fun b => UInt8.toNat b + 1) (Function.update_self ..)
  | yield =>
      obtain rfl := Option.some.inj h
      refine ⟨p, hLive, fun _ _ => rfl, ?_⟩
      rw [callers_setCaller]
      exact .ends rfl (by simp) rfl
  | inIo => simp [State.callStep] at h
  | reset at_ =>
      obtain ⟨⟨cell, at_'⟩, -, rfl⟩ := Option.map_eq_some_iff.mp h
      refine ⟨p, hLive, fun _ _ => rfl, ?_⟩
      rw [callers_setCaller]
      exact resetting_spends

end Calls

/-! ## The budgets of a run -/

/-- No budget is above its start, and the calls know those they use. -/
structure Budgeted (s : State T V W) : Prop where
  bounded : ∀ id p kind, s.sockets id = .live p → (p.budgets kind).toNat ≤ 128
  knows : ∀ t id kind ctx line p, s.callers t = .call id kind ctx line →
    s.sockets id = .live p → line.Knows (p.budgets kind)

variable [Fintype T] {L : Layout} {s s' : State T V W}

/-- A step that is no operation of the pair's call leaves its budget as it is. -/
theorem budget_next {e : Event T V W} {x : SocketId × WakerKind} {p q : Pollable} (budgeted : Budgeted s)
    (hLive : s.sockets x.1 = .live p)
    (hOwn : ∀ t ctx line, e = .step t → s.callers t ≠ .call x.1 x.2 ctx line)
    (h : next L s e = some s') (hLive' : s'.sockets x.1 = .live q) :
    q.budgets x.2 = p.budgets x.2 := by
  have hSame : s'.sockets x.1 = s.sockets x.1 → q.budgets x.2 = p.budgets x.2 := by
    intro hSockets
    obtain rfl : q = p := by simpa [hSockets, hLive] using hLive'.symm
    rfl
  have hOther : ∀ {id : SocketId} {socket : Socket}, s'.sockets = Function.update s.sockets id socket →
      id ≠ x.1 → q.budgets x.2 = p.budgets x.2 := by
    intro id socket hSockets hNe
    apply hSame
    rw [hSockets, Function.update_of_ne hNe.symm]
  cases e with
  | alloc id =>
      obtain ⟨hAbsent, index?, storage, -, rfl⟩ := next_alloc h
      exact hOther rfl fun hEq => by simp [hEq, hLive] at hAbsent
  | register id ok =>
      obtain ⟨index, hAllocated, rfl | rfl⟩ := next_register h <;>
        exact hOther rfl fun hEq => by simp [hEq, hLive] at hAllocated
  | call t id kind ctx =>
      obtain ⟨-, _, -, rfl⟩ := next_call h
      exact hSame rfl
  | step t =>
      obtain ⟨id, kind, ctx, line, p', hCall, hLive'', hStep⟩ := next_step h
      by_cases hId : id = x.1
      · subst hId
        obtain rfl : p = p' := by simpa [hLive] using hLive''
        have hKind : x.2 ≠ kind := by
          rintro rfl
          exact hOwn t ctx line rfl hCall
        obtain ⟨q', hq, hBudgets, -⟩ := callStep_spends (x := (x.1, kind)) hLive
          (budgeted.knows t x.1 kind ctx line p hCall hLive) hStep
        obtain rfl : q' = q := by simpa [hq] using hLive'
        exact hBudgets x.2 hKind
      · obtain ⟨p'', caller, done⟩ := callStep_calling hLive'' hStep
        exact hOther done.sockets hId
  | doIo t result =>
      obtain ⟨id, kind, ctx, -, rfl⟩ := next_doIo h
      exact hSame rfl
  | drop id =>
      obtain ⟨_, -, -, hNext⟩ := next_drop h
      by_cases hId : id = x.1
      · subst hId
        split at hNext <;> simp [hNext, State.setSocket] at hLive'
      · split at hNext <;> exact hOther (by rw [hNext]; rfl) hId
  | dropping id =>
      obtain ⟨p', at_, hDropping, hStep⟩ := next_dropping h
      obtain ⟨socket, hSockets, -⟩ := dropStep_sockets hStep
      exact hOther hSockets fun hEq => by simp [hEq, hLive] at hDropping
  | wake v index kind =>
      obtain ⟨-, -, rfl⟩ := next_wake h
      exact hSame rfl
  | waker u =>
      obtain ⟨wake, cell, at_, -, -, rfl⟩ := next_waker h
      exact hSame rfl

/-- A step as a pair and its budget see it: the drop of the socket, an operation of the call
of the pair, the return of its `do_io`, and any other step, which may begin a call. -/
inductive PairStep (s s' : State T V W) (e : Event T V W) (x : SocketId × WakerKind)
    (p : Pollable) : Prop where
  | dropped (q : Pollable) (at_ : Dropping) (dropping : s'.sockets x.1 = .dropping q at_)
      (uncalled : ∀ t, (s.callers t).pair? ≠ some x)
  | own (t : T) (ctx : Option W) (line : Line W) (q : Pollable) (event : e = .step t)
      (call : s.callers t = .call x.1 x.2 ctx line) (live : s'.sockets x.1 = .live q)
      (spends : Spends x ctx line (p.budgets x.2) (s'.callers t) (q.budgets x.2))
      (others : ∀ u, u ≠ t → s'.callers u = s.callers u)
  | io (t : T) (ctx : Option W) (result : IoResult) (event : e = .doIo t result)
      (call : s.callers t = .call x.1 x.2 ctx .inIo) (live : s'.sockets x.1 = .live p)
      (callers : s'.callers = Function.update s.callers t (.returned x.1 x.2 ctx result))
  | other (q : Pollable) (live : s'.sockets x.1 = .live q) (budget : q.budgets x.2 = p.budgets x.2)
      (stays : ∀ t, (s.callers t).pair? = some x → e ≠ .step t ∧ s'.callers t = s.callers t)
      (callers : ∀ t ctx line, s'.callers t = .call x.1 x.2 ctx line →
        s.callers t = .call x.1 x.2 ctx line ∨ e = .call t x.1 x.2 ctx ∧ line = .load)

/-- Every step, as one pair sees it. No two calls share a pair, so the budget changes
only by its own call. -/
theorem pair_next {e : Event T V W} {x : SocketId × WakerKind} {p : Pollable} (sound : Sound L s)
    (budgeted : Budgeted s) (hLive : s.sockets x.1 = .live p) (h : next L s e = some s') :
    PairStep s s' e x p := by
  by_cases hOwn : ∃ t ctx line, e = .step t ∧ s.callers t = .call x.1 x.2 ctx line
  · obtain ⟨t, ctx, line, rfl, hCall⟩ := hOwn
    have hStep := h
    rw [next_of_call hCall hLive] at hStep
    obtain ⟨q, hLive', -, hSpends⟩ :=
      callStep_spends hLive (budgeted.knows t x.1 x.2 ctx line p hCall hLive) hStep
    obtain ⟨p', caller, done⟩ := callStep_calling hLive hStep
    exact .own t ctx line q rfl hCall hLive' hSpends fun u hu => by
      rw [done.callers, Function.update_of_ne hu]
  by_cases hIo : ∃ t ctx result, e = .doIo t result ∧ s.callers t = .call x.1 x.2 ctx .inIo
  · obtain ⟨t, ctx, result, rfl, hCall⟩ := hIo
    obtain ⟨id, kind, ctx', hCall', rfl⟩ := next_doIo h
    obtain ⟨rfl, rfl, rfl⟩ : x.1 = id ∧ x.2 = kind ∧ ctx = ctx' := by simpa [hCall] using hCall'
    exact .io t ctx result rfl hCall hLive rfl
  push Not at hOwn hIo
  have hStays : ∀ t, (s.callers t).pair? = some x → e ≠ .step t ∧ s'.callers t = s.callers t := by
    intro t hPair
    obtain ⟨ctx, line, hCall⟩ := call_of_pair hPair
    refine ⟨fun hEvent => hOwn t ctx line hEvent hCall, ?_⟩
    by_contra hMoved
    obtain ⟨hIdle, -⟩ | ⟨id, kind, ctx', line', hCall', hEvent | ⟨rfl, result, hEvent⟩⟩ :=
      moved_next h hMoved
    · simp [hIdle] at hCall
    · exact hOwn t ctx line hEvent hCall
    · obtain ⟨-, -, -, rfl⟩ : x.1 = id ∧ x.2 = kind ∧ ctx = ctx' ∧ line = .inIo := by
        simpa [hCall] using hCall'
      exact hIo t ctx result hEvent hCall
  have hBudget := fun q => budget_next (q := q) budgeted hLive hOwn h
  cases slot_next sound.owns sound.drops hLive h with
  | dropped q at_ hDropping =>
      refine .dropped q at_ hDropping fun t hPair => ?_
      obtain ⟨q', hLive'⟩ := (owns_next sound.owns h).calls t x (by rw [(hStays t hPair).2, hPair])
      simp [hDropping] at hLive'
  | elsewhere q hLive' hIndex hCell hCallers hWakes =>
      exact .other q hLive' (hBudget q hLive') hStays hCallers
  | step t ctx line q hEvent hCall => exact absurd hCall (hOwn t ctx line hEvent)
  | io t ctx result hEvent hCall => exact absurd hCall (hIo t ctx result hEvent)
  | wake u wake at_ hEvent hWaking hIndex hKind hStep hCallers hSockets hWakes =>
      refine .other p (hSockets ▸ hLive) rfl hStays fun t ctx line hCall => .inl ?_
      rwa [hCallers] at hCall

/-- A live socket has been live before or is new. -/
theorem live_next {e : Event T V W} {id : SocketId} {q : Pollable} (h : next L s e = some s')
    (hLive' : s'.sockets id = .live q) : (∃ p, s.sockets id = .live p) ∨
      ∃ index, s.sockets id = .allocated index ∧ q = .new index ∧ s'.callers = s.callers := by
  have hOther : ∀ {id' : SocketId} {socket : Socket},
      s'.sockets = Function.update s.sockets id' socket → (∀ p, socket ≠ .live p) →
      ∃ p, s.sockets id = .live p := by
    intro id' socket hSockets hNot
    rw [hSockets] at hLive'
    by_cases hEq : id = id'
    · subst hEq
      rw [Function.update_self] at hLive'
      exact absurd hLive' (hNot q)
    · rw [Function.update_of_ne hEq] at hLive'
      exact ⟨q, hLive'⟩
  cases e with
  | alloc id' =>
      obtain ⟨-, index?, storage, -, rfl⟩ := next_alloc h
      refine .inl (hOther rfl fun p => ?_)
      cases index? <;> simp
  | register id' ok =>
      obtain ⟨index, hAllocated, rfl | rfl⟩ := next_register h
      · by_cases hEq : id = id'
        · subst hEq
          exact .inr ⟨index, hAllocated, by simpa [State.setSocket] using hLive'.symm, rfl⟩
        · exact .inl ⟨q, by simpa [State.setSocket, hEq] using hLive'⟩
      · exact .inl (hOther rfl (by simp))
  | call t id' kind ctx =>
      obtain ⟨-, p, -, rfl⟩ := next_call h
      exact .inl ⟨q, hLive'⟩
  | step t =>
      obtain ⟨id', kind, ctx, line, p, -, hLive, hStep⟩ := next_step h
      obtain ⟨p', caller, done⟩ := callStep_calling hLive hStep
      rw [done.sockets] at hLive'
      by_cases hEq : id = id'
      · exact .inl ⟨p, hEq ▸ hLive⟩
      · exact .inl ⟨q, by rwa [Function.update_of_ne hEq] at hLive'⟩
  | doIo t result =>
      obtain ⟨id', kind, ctx, -, rfl⟩ := next_doIo h
      exact .inl ⟨q, hLive'⟩
  | drop id' =>
      obtain ⟨p, -, -, hNext⟩ := next_drop h
      split at hNext <;> exact .inl (hOther (by rw [hNext]; rfl) (by simp))
  | dropping id' =>
      obtain ⟨p, at_, -, hStep⟩ := next_dropping h
      obtain ⟨socket, hSockets, -, hSocket⟩ := dropStep_sockets hStep
      refine .inl (hOther hSockets fun p hEq => ?_)
      obtain ⟨at_', hDropping⟩ | hDropped := hSocket
      · simp [hDropping] at hEq
      · simp [hDropped] at hEq
  | wake v index kind =>
      obtain ⟨-, -, rfl⟩ := next_wake h
      exact .inl ⟨q, hLive'⟩
  | waker u =>
      obtain ⟨wake, cell, at_, -, -, rfl⟩ := next_waker h
      exact .inl ⟨q, hLive'⟩

omit [Fintype T] [DecidableEq T] [DecidableEq V] [DecidableEq W] in
theorem Spends.bounded {x : SocketId × WakerKind} {ctx : Option W} {line : Line W} {b b' : UInt8}
    {caller : Caller W} (spends : Spends x ctx line b caller b') (h : b.toNat ≤ 128) :
    b'.toNat ≤ 128 := by
  cases spends with
  | ends _ _ hBudget | begins _ _ _ hBudget | goes _ _ _ _ _ _ _ hBudget => rwa [hBudget]
  | spends _ _ hBudget => omega
  | yields _ _ _ hBudget =>
      rw [hBudget]
      exact Nat.le_refl 128

omit [Fintype T] [DecidableEq T] [DecidableEq V] [DecidableEq W] in
/-- After an operation a call knows the budget it is about to use. -/
theorem Spends.knows {x : SocketId × WakerKind} {ctx ctx' : Option W} {line line' : Line W}
    {b b' : UInt8} (spends : Spends x ctx line b (.call x.1 x.2 ctx' line') b') : line'.Knows b' := by
  cases spends with
  | ends hOver => simp [Caller.pair?] at hOver
  | begins _ _ hCaller | spends _ hCaller =>
      obtain ⟨-, rfl⟩ := (by simpa using hCaller : ctx' = ctx ∧ _)
      trivial
  | goes _ hCaller _ _ _ hKnows _ hBudget =>
      obtain ⟨-, rfl⟩ := (by simpa using hCaller : ctx' = ctx ∧ _)
      exact hBudget ▸ hKnows
  | yields _ hCaller _ hBudget =>
      obtain ⟨-, rfl⟩ := (by simpa using hCaller : ctx' = ctx ∧ _)
      exact hBudget

/-- The bound of the budgets, and what the calls know of them, hold on. -/
theorem budgeted_next {e : Event T V W} (sound : Sound L s) (budgeted : Budgeted s)
    (h : next L s e = some s') : Budgeted s' := by
  constructor
  · intro id q kind hLive'
    obtain ⟨p, hLive⟩ | ⟨index, -, rfl, -⟩ := live_next h hLive'
    · have hBound := budgeted.bounded id p kind hLive
      cases pair_next (x := (id, kind)) sound budgeted hLive h with
      | dropped q' at_ hDropping hUncalled => simp [hLive'] at hDropping
      | own t ctx line q' hEvent hCall hq hSpends hOthers =>
          obtain rfl : q = q' := by simpa [hLive'] using hq
          exact hSpends.bounded hBound
      | io t ctx result hEvent hCall hq hCallers =>
          obtain rfl : q = p := by simpa [hLive'] using hq
          exact hBound
      | other q' hq hBudget hStays hCallers =>
          obtain rfl : q = q' := by simpa [hLive'] using hq
          exact hBudget ▸ hBound
    · exact Nat.le_refl 128
  · intro t id kind ctx line q hCall' hLive'
    obtain ⟨p, hLive⟩ | ⟨index, hAllocated, -, hSame⟩ := live_next h hLive'
    · cases pair_next (x := (id, kind)) sound budgeted hLive h with
      | dropped q' at_ hDropping hUncalled => simp [hLive'] at hDropping
      | own u ctx' line' q' hEvent hCall hq hSpends hOthers =>
          obtain rfl : q = q' := by simpa [hLive'] using hq
          by_cases hEq : t = u
          · subst hEq
            rw [hCall'] at hSpends
            exact hSpends.knows
          · rw [hOthers t hEq] at hCall'
            refine absurd (sound.exact_.exclusive t u (id, kind) ?_ ?_) hEq
            · rw [hCall']
              rfl
            · rw [hCall]
              rfl
      | io u ctx' result hEvent hCall hq hCallers =>
          obtain rfl : q = p := by simpa [hLive'] using hq
          rw [hCallers] at hCall'
          by_cases hEq : t = u
          · subst hEq
            rw [Function.update_self] at hCall'
            cases result <;> simp [Caller.returned] at hCall' <;> obtain ⟨-, rfl⟩ := hCall' <;> trivial
          · rw [Function.update_of_ne hEq] at hCall'
            exact budgeted.knows t id kind ctx line q hCall' hLive
      | other q' hq hBudget hStays hCallers =>
          obtain rfl : q = q' := by simpa [hLive'] using hq
          obtain hCall | ⟨-, rfl⟩ := hCallers t ctx line hCall'
          · rw [hBudget]
            exact budgeted.knows t id kind ctx line p hCall hLive
          · trivial
    · rw [hSame] at hCall'
      obtain ⟨p, hLive⟩ := sound.owns.live hCall'
      simp [hAllocated] at hLive

/-- What orderly steps keep. -/
structure InOrder (L : Layout) (s : State T V W) : Prop where
  fine : Fine L s
  budgeted : Budgeted s

theorem InOrder.next {e : Event T V W} (ordered : InOrder L s) (orderly : Orderly s e)
    (h : next L s e = some s') : InOrder L s' :=
  ⟨fine_next ordered.fine orderly h, budgeted_next ordered.fine.sound ordered.budgeted h⟩

theorem InOrder.path {steps : List (State T V W × Event T V W)} (ordered : InOrder L s)
    (path : (system T V W L).Path s steps s') (orderly : Meets Orderly steps) : InOrder L s' :=
  path.keeps_of_meets Orderly orderly ordered fun _ _ _ ordered orderly h => ordered.next orderly h

/-- Every orderly run leads to a state in order. -/
theorem inOrder_run {steps : List (State T V W × Event T V W)}
    (run : (system T V W L).Run steps s) (orderly : Meets Orderly steps) : InOrder L s := by
  refine InOrder.path ⟨fine_initial, ?_, ?_⟩ run orderly
  · intro id p kind hLive
    simp [system] at hLive
  · intro t id kind ctx line p hCall
    simp [system] at hCall

/-! ## Between two yields -/

/-- The pair of a call with a context that is about to call `do_io`. -/
def Caller.reached? : Caller W → Option (SocketId × WakerKind)
  | .call id kind (some _) .doIo => some (id, kind)
  | _ => none

/-- A turn of a call with a context comes to call `do_io`. -/
def reaches (L : Layout) (x : SocketId × WakerKind) (y : State T V W × Event T V W) : Bool :=
  match y.2 with
  | .step t => (next L y.1 y.2).any fun s => (s.callers t).reached? = some x
  | _ => false

/-- A call of the pair invokes its own waker and returns `Pending`. -/
def Yields (x : SocketId × WakerKind) (ctx : Option W) (y : State T V W × Event T V W) : Prop :=
  ∃ t, y.2 = .step t ∧ y.1.callers t = .call x.1 x.2 ctx .yield

omit [Fintype T] [DecidableEq T] [DecidableEq V] [DecidableEq W] in
/-- A caller that has reached `do_io` is in a call with a waker. -/
theorem call_of_reached {caller : Caller W} {x : SocketId × WakerKind}
    (h : caller.reached? = some x) : ∃ w, caller = .call x.1 x.2 (some w) .doIo := by
  unfold Caller.reached? at h
  split at h
  · next id kind w =>
      obtain rfl : (id, kind) = x := Option.some.inj h
      exact ⟨w, rfl⟩
  · simp at h

/-- A call that comes to call `do_io` in a turn has spent a budget for it. -/
theorem spends_of_reaches {e : Event T V W} {x : SocketId × WakerKind} (ordered : InOrder L s)
    (hReaches : reaches L x (s, e) = true) (h : next L s e = some s') :
    ∃ t ctx budget p q, s.callers t = .call x.1 x.2 ctx (.storeBudget budget) ∧
      s.sockets x.1 = .live p ∧ s'.sockets x.1 = .live q ∧
      (q.budgets x.2).toNat + 1 = (p.budgets x.2).toNat := by
  cases e with
  | step t =>
      simp only [reaches, h, Option.any_some, decide_eq_true_eq] at hReaches
      obtain ⟨w, hCall'⟩ := call_of_reached hReaches
      obtain ⟨id, kind, ctx, line, p, hCall, hLive, hStep⟩ := next_step h
      obtain ⟨p', caller, done⟩ := callStep_calling hLive hStep
      obtain rfl : x = (id, kind) :=
        done.pair x (by rw [done.callers, Function.update_self] at hCall'; rw [hCall']; rfl)
      obtain ⟨q, hLive', -, hSpends⟩ := callStep_spends (x := (id, kind)) hLive
        (ordered.budgeted.knows t id kind ctx line p hCall hLive) hStep
      rw [hCall'] at hSpends
      cases hSpends with
      | ends hOver => simp [Caller.pair?] at hOver
      | begins _ _ hCaller => simp at hCaller
      | goes _ hCaller hSpent =>
          obtain ⟨rfl, rfl⟩ := (by simpa using hCaller : some w = ctx ∧ _)
          simp at hSpent
      | spends hLine _ hBudget => exact ⟨t, ctx, _, p, q, hLine ▸ hCall, hLive, hLive', hBudget⟩
      | yields _ hCaller => simp at hCaller
  | _ => simp [reaches] at hReaches

/-- The pair has had `n` turns at its `do_io` since some moment without a yield. -/
def Room (x : SocketId × WakerKind) (n : Nat) (s : State T V W) : Prop :=
  n = 0 ∨ n ≤ 128 ∧ (Ended x.1 s ∨ ∃ p, s.sockets x.1 = .live p ∧
    ((∃ t ctx, s.callers t = .call x.1 x.2 ctx .yield) ∨ n + (p.budgets x.2).toNat ≤ 128))

/-- A step that spends no budget leaves the room there is, if it is no yield. -/
theorem room_stays {e : Event T V W} {x : SocketId × WakerKind} {n : Nat} (ordered : InOrder L s)
    (room : Room x n s) (hYields : ∀ ctx, ¬Yields x ctx (s, e)) (h : next L s e = some s') :
    Room x n s' := by
  have sound := ordered.fine.sound
  obtain rfl | ⟨hBound, hEnded | ⟨p, hLive, hRoom⟩⟩ := room
  · exact .inl rfl
  · exact .inr ⟨hBound, .inl (ended_next hEnded h)⟩
  · refine .inr ⟨hBound, ?_⟩
    cases pair_next sound ordered.budgeted hLive h with
    | dropped q at_ hDropping hUncalled => exact .inl (.inl ⟨q, at_, hDropping⟩)
    | own t ctx line q hEvent hCall hLive' hSpends hOthers =>
        -- The one call of the pair is not at its yield, so there is room before the step.
        have hBefore : n + (p.budgets x.2).toNat ≤ 128 := by
          obtain ⟨u, ctx', hYield⟩ | hBefore := hRoom
          · obtain rfl := sound.exact_.exclusive t u x (by rw [hCall]; rfl) (by rw [hYield]; rfl)
            exact absurd ⟨t, hEvent, hYield⟩ (hYields ctx')
          · exact hBefore
        refine .inr ⟨q, hLive', ?_⟩
        cases hSpends with
        | ends _ _ hBudget | begins _ _ _ hBudget | goes _ _ _ _ _ _ _ hBudget =>
            exact .inr (hBudget ▸ hBefore)
        | spends _ _ hBudget => exact .inr (by omega)
        | yields _ hCaller => exact .inl ⟨t, ctx, hCaller⟩
    | io t ctx result hEvent hCall hLive' hCallers =>
        refine .inr ⟨p, hLive', .inr ?_⟩
        obtain ⟨u, ctx', hYield⟩ | hBefore := hRoom
        · obtain rfl := sound.exact_.exclusive t u x (by rw [hCall]; rfl) (by rw [hYield]; rfl)
          simp [hCall] at hYield
        · exact hBefore
    | other q hLive' hBudget hStays hCallers =>
        refine .inr ⟨q, hLive', ?_⟩
        rw [hBudget]
        refine hRoom.imp_left fun ⟨u, ctx, hYield⟩ => ⟨u, ctx, ?_⟩
        rw [(hStays u (by rw [hYield]; rfl)).2, hYield]

/-- A turn at `do_io` takes its room. -/
theorem room_next {e : Event T V W} {x : SocketId × WakerKind} {n : Nat} (ordered : InOrder L s)
    (room : Room x n s) (hYields : ∀ ctx, ¬Yields x ctx (s, e)) (h : next L s e = some s') :
    Room x (n + if reaches L x (s, e) = true then 1 else 0) s' := by
  by_cases hReaches : reaches L x (s, e) = true
  · rw [if_pos hReaches]
    obtain ⟨t, ctx, budget, p, q, hCall, hLive, hLive', hBudget⟩ :=
      spends_of_reaches ordered hReaches h
    have hBefore : n + (p.budgets x.2).toNat ≤ 128 := by
      obtain rfl | ⟨hBound, (⟨q, at_, hDropping⟩ | hDropped) | ⟨p', hLive'', hRoom⟩⟩ := room
      · have hBound := ordered.budgeted.bounded x.1 p x.2 hLive
        omega
      · simp [hLive] at hDropping
      · simp [hLive] at hDropped
      · obtain rfl : p = p' := by simpa [hLive] using hLive''
        obtain ⟨u, ctx', hYield⟩ | hBefore := hRoom
        · obtain rfl := ordered.fine.sound.exact_.exclusive t u x (by rw [hCall]; rfl)
            (by rw [hYield]; rfl)
          simp [hCall] at hYield
        · exact hBefore
    exact .inr ⟨by omega, .inr ⟨q, hLive', .inr (by omega)⟩⟩
  · rw [if_neg hReaches]
    exact room_stays ordered room hYields h

/-- The turns of a pair since the run began, while no call of it yields. Each has spent
one unit. -/
theorem room_path {x : SocketId × WakerKind} {steps : List (State T V W × Event T V W)}
    (ordered : InOrder L s) (path : (system T V W L).Path s steps s') (orderly : Meets Orderly steps)
    (hYields : ∀ z ∈ steps, ∀ ctx, ¬Yields x ctx z) : Room x (steps.countP (reaches L x)) s' := by
  induction path with
  | refl => exact .inl rfl
  | @step steps u v e prior last ih =>
      rw [meets_append] at orderly
      have room := ih orderly.1 fun z hz => hYields z (List.mem_append_left _ hz)
      rw [List.countP_append, List.countP_singleton]
      exact room_next (ordered.path prior orderly.1) room (hYields (u, e) (by simp)) last

omit [Fintype T] [DecidableEq T] [DecidableEq V] [DecidableEq W] in
/-- There are at most 128 of them, as no budget is above its start. -/
theorem Room.bounded {x : SocketId × WakerKind} {n : Nat} (room : Room x n s) : n ≤ 128 := by
  obtain rfl | ⟨hBound, -⟩ := room
  · exact Nat.zero_le 128
  · exact hBound

end Yaar.Net.PollIo
