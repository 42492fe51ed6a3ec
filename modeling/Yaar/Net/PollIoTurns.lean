import Yaar.Net.PollIoBudget

/-! The turns of one call of `poll_io` and its end. -/
namespace Yaar.Net.PollIo

open Machine AtomicWaker

variable {T V W : Type*} [Fintype T] [DecidableEq T] [DecidableEq V] [DecidableEq W] {L : Layout}
  {s s' : State T V W} {t : T} {x : SocketId × WakerKind} {w : W}

/-! ## The number of turns -/

def Caller.atLoad : Caller W → Bool
  | .call _ _ _ .load => true
  | _ => false

/-- A call of the thread begins a turn of its loop. -/
def begins (t : T) (y : State T V W × Event T V W) : Bool :=
  match y.2 with
  | .step u => u = t && (y.1.callers t).atLoad
  | _ => false

/-- A call of the thread begins. -/
def Calls (t : T) : Event T V W → Prop
  | .call u _ _ _ => u = t
  | _ => False

/-- A call with a waker that found the budget `b` has begun `n` turns. -/
def Turns (x : SocketId × WakerKind) (w : W) (t : T) (b n : Nat) (s : State T V W) : Prop :=
  n ≤ b + 1 ∧ ((s.callers t).pair? = none ∨ ∃ line p, s.callers t = .call x.1 x.2 (some w) line ∧
    s.sockets x.1 = .live p ∧
    (line = .yield ∨ n + (p.budgets x.2).toNat ≤ b + if line.spent then 0 else 1))

omit [DecidableEq V] [Fintype T] [DecidableEq W] in
/-- A step of a call begins a turn exactly at its load of the flag. -/
theorem begins_step (line : Line W) (hCall : s.callers t = .call x.1 x.2 (some w) line) :
    begins t (s, .step t) = true ↔ line = .load := by
  simp only [begins, hCall, decide_true, Bool.true_and]
  cases line <;> simp [Caller.atLoad]

/-- Nobody else moves a thread between its calls. -/
theorem stays_out {e : Event T V W} (hOut : (s.callers t).pair? = none) (hCalls : ¬Calls t e)
    (h : next L s e = some s') : s'.callers t = s.callers t := by
  by_contra hMoved
  obtain ⟨-, id, kind, ctx, rfl⟩ | ⟨id, kind, ctx, line, hCall, -⟩ := moved_next h hMoved
  · exact hCalls rfl
  · simp [hCall, Caller.pair?] at hOut

/-- With each turn that a call begins its budget has become less. So the turns stay
within what it found at first. -/
theorem turns_next {e : Event T V W} {b n : Nat} (ordered : InOrder L s)
    (turns : Turns x w t b n s) (hCalls : ¬Calls t e) (h : next L s e = some s') :
    Turns x w t b (n + if begins t (s, e) = true then 1 else 0) s' := by
  obtain ⟨hLe, hOut | ⟨line, p, hCall, hLive, hTurns⟩⟩ := turns
  · have hBegins : ¬begins t (s, e) = true := by
      intro hBegins
      cases hCaller : s.callers t with
      | call id kind ctx line => simp [hCaller, Caller.pair?] at hOut
      | _ => cases e <;> simp [begins, hCaller, Caller.atLoad] at hBegins
    rw [if_neg hBegins]
    exact ⟨hLe, .inl (by rw [stays_out hOut hCalls h, hOut])⟩
  have hPair : (s.callers t).pair? = some x := by rw [hCall]; rfl
  have hElse : e ≠ .step t → ¬begins t (s, e) = true := by
    intro hNe hBegins
    cases e with
    | step u =>
        have hEq : u = t := by
          by_contra hEq
          simp [begins, hEq] at hBegins
        exact hNe (hEq ▸ rfl)
    | _ => simp [begins] at hBegins
  cases pair_next ordered.fine.sound ordered.budgeted hLive h with
  | dropped q at_ hDropping hUncalled => exact absurd hPair (hUncalled t)
  | own u ctx line' q hEvent hCall' hLive' hSpends hOthers =>
      obtain rfl := ordered.fine.sound.exact_.exclusive t u x hPair (by rw [hCall']; rfl)
      obtain ⟨rfl, rfl⟩ : some w = ctx ∧ line = line' := by simpa [hCall] using hCall'
      subst hEvent
      simp only [begins_step line hCall]
      cases hSpends with
      | ends hOver hLine hBudget =>
          refine ⟨?_, .inl hOver⟩
          split
          · next hLoad =>
              subst hLoad
              simp [Line.spent] at hTurns
              omega
          · exact hLe
      | begins hLoad isPending hCaller hBudget =>
          subst hLoad
          have hTurns : n + (p.budgets x.2).toNat ≤ b := by simpa [Line.spent] using hTurns
          refine ⟨by simp; omega, .inr ⟨_, q, hCaller, hLive', .inr ?_⟩⟩
          rw [hBudget]
          simp [Line.spent]
          omega
      | goes next hCaller hSpent hInTurn hLine hKnows hYields hBudget =>
          rw [if_neg hInTurn.1]
          refine ⟨hLe, .inr ⟨next, q, hCaller, hLive', .inr ?_⟩⟩
          obtain hNone | ⟨hSpent, -⟩ := hSpent
          · simp at hNone
          · rw [hSpent, hBudget]
            exact hTurns.resolve_left hInTurn.2
      | spends hLine hCaller hBudget =>
          subst hLine
          have hTurns : n + (p.budgets x.2).toNat ≤ b + 1 := by simpa [Line.spent] using hTurns
          exact ⟨by simpa using hLe, .inr ⟨_, q, hCaller, hLive', .inr (by simp [Line.spent]; omega)⟩⟩
      | yields hLine hCaller hEmpty hBudget =>
          subst hLine
          exact ⟨by simpa using hLe, .inr ⟨_, q, hCaller, hLive', .inl rfl⟩⟩
  | io u ctx result hEvent hCall' hLive' hCallers =>
      obtain rfl := ordered.fine.sound.exact_.exclusive t u x hPair (by rw [hCall']; rfl)
      obtain ⟨rfl, rfl⟩ : some w = ctx ∧ line = .inIo := by simpa [hCall] using hCall'
      rw [if_neg (hElse (by simp [hEvent]))]
      refine ⟨hLe, ?_⟩
      rw [hCallers, Function.update_self]
      cases result with
      | interrupted | wouldBlock => exact .inr ⟨_, p, rfl, hLive', hTurns.imp (by simp) id⟩
      | other => exact .inl rfl
  | other q hLive' hBudget hStays hCallers =>
      obtain ⟨hNe, hSame⟩ := hStays t hPair
      rw [if_neg (hElse hNe)]
      exact ⟨hLe, .inr ⟨line, q, hSame.trans hCall, hLive', by rwa [hBudget]⟩⟩

/-- From the start of a call. -/
theorem turns_path {steps : List (State T V W × Event T V W)} {b : Nat} (ordered : InOrder L s)
    (start : Turns x w t b 0 s) (path : (system T V W L).Path s steps s')
    (orderly : Meets Orderly steps) (hCalls : ∀ z ∈ steps, ¬Calls t z.2) :
    Turns x w t b (steps.countP (begins t)) s' := by
  induction path with
  | refl => exact start
  | @step steps u v e prior last ih =>
      rw [meets_append] at orderly
      have turns := ih orderly.1 fun z hz => hCalls z (List.mem_append_left _ hz)
      rw [List.countP_append, List.countP_singleton]
      exact turns_next (ordered.path prior orderly.1) turns (hCalls (u, e) (by simp)) last

/-! ## What a `Pending` leaves behind -/

/-- Inside `poll` a call carries its waker. -/
def Carries (w : W) : AtomicWaker.Poller W → Prop
  | .loadNotified ctx | .loadState ctx => ctx = some w
  | .swapUpdating w' _ | .tryLock w' | .store w' | .swapWaiting w' => w' = w
  | _ => True

def Line.Carries (w : W) : Line W → Prop
  | .poll _ at_ => PollIo.Carries w at_
  | _ => True

/-- A call of the pair finds its budget exhausted. -/
def FindsEmpty (x : SocketId × WakerKind) (y : State T V W × Event T V W) : Prop :=
  ∃ t ctx p, y.2 = .step t ∧ y.1.callers t = .call x.1 x.2 ctx .loadBudget ∧
    y.1.sockets x.1 = .live p ∧ p.budgets x.2 = 0

/-- Since the last store of the waker a wake has invoked it, unless something else holds. -/
def SinceStore (x : SocketId × WakerKind) (w : W) (steps : List (State T V W × Event T V W))
    (holds : Prop) : Prop :=
  ∃ first store rest, steps = first ++ store :: rest ∧ Stores x w store ∧
    (∀ z ∈ rest, ¬Stores x w z) ∧ (holds ∨ ∃ z ∈ rest, Invokes x w z)

/-- What a call has done on the way to its line. -/
def Stage (x : SocketId × WakerKind) (w : W) (t : T) (steps : List (State T V W × Event T V W))
    (s : State T V W) : Line W → Prop
  | .poll _ (.swapWaiting _) => SinceStore x w steps (Storing x w t s)
  | .begin | .storePending => SinceStore x w steps (Owed x w s)
  | .storeBudget budget => budget = 0 → ∃ z ∈ steps, FindsEmpty x z
  | .yield => ∃ z ∈ steps, FindsEmpty x z
  | _ => True

omit [DecidableEq T] [DecidableEq V] [DecidableEq W] [Fintype T] in
/-- What holds since the last store of a waker is carried on, or the waker is invoked. -/
theorem SinceStore.next {steps : List (State T V W × Event T V W)} {holds holds' : Prop}
    {z : State T V W × Event T V W} (since : SinceStore x w steps holds) (hStores : ¬Stores x w z)
    (hNext : holds → holds' ∨ Invokes x w z) : SinceStore x w (steps ++ [z]) holds' := by
  obtain ⟨first, store, rest, rfl, hStore, hRest, hHolds⟩ := since
  refine ⟨first, store, rest ++ [z], by simp, hStore, fun y hy => ?_, ?_⟩
  · obtain hy | hy := List.mem_append.mp hy
    · exact hRest y hy
    · rwa [List.mem_singleton.mp hy]
  · obtain hHolds | ⟨y, hy, hInvokes⟩ := hHolds
    · exact (hNext hHolds).imp_right fun hInvokes => ⟨z, by simp, hInvokes⟩
    · exact .inr ⟨y, List.mem_append_left _ hy, hInvokes⟩

section Line

variable {e : Event T V W} {ctx : Option W} {line : Line W}

omit [Fintype T] [DecidableEq T] [DecidableEq V] [DecidableEq W] in
/-- A call stores its waker at one line only, and no other call of the pair can do so
meanwhile. -/
theorem not_stores (sound : Sound L s) (hCall : s.callers t = .call x.1 x.2 ctx line)
    (hLine : ∀ isPending, line ≠ .poll isPending (.store w)) : ¬Stores x w (s, e) := by
  rintro ⟨u, ctx', isPending, -, hCall'⟩
  obtain rfl := sound.exact_.exclusive t u x (by rw [hCall]; rfl) (by rw [hCall']; rfl)
  obtain ⟨-, rfl⟩ : ctx = ctx' ∧ line = .poll isPending (.store w) := by simpa [hCall] using hCall'
  exact hLine isPending rfl

omit [Fintype T] [DecidableEq T] [DecidableEq V] [DecidableEq W] in
/-- Nor is the slot taken over but at the first exchange of the state. -/
theorem not_takesOver (sound : Sound L s) (hCall : s.callers t = .call x.1 x.2 ctx line)
    (hLine : ∀ isPending w' seen, line ≠ .poll isPending (.swapUpdating w' seen)) (w' : W) :
    ¬TakesOver x w' w (s, e) := by
  rintro ⟨u, ctx', isPending, seen, p, -, hCall', -⟩
  obtain rfl := sound.exact_.exclusive t u x (by rw [hCall]; rfl) (by rw [hCall']; rfl)
  obtain ⟨-, rfl⟩ : ctx = ctx' ∧ line = .poll isPending (.swapUpdating w' seen) := by
    simpa [hCall] using hCall'
  exact hLine isPending w' seen rfl

/-- Between its registration and its return a call leaves the waker where it is. -/
theorem since_owed {steps : List (State T V W × Event T V W)} (sound : Sound L s)
    (hCall : s.callers t = .call x.1 x.2 ctx line) (hLine : ∀ isPending at_, line ≠ .poll isPending at_)
    (since : SinceStore x w steps (Owed x w s)) (h : next L s e = some s') :
    SinceStore x w (steps ++ [(s, e)]) (Owed x w s') := by
  have hOver := not_takesOver (e := e) (w := w) sound hCall fun isPending w' seen => hLine _ _
  exact since.next (not_stores sound hCall fun isPending => hLine _ _) fun owed =>
    owed_next (sound.calm e) owed (hOver w) (not_loses hOver) h

/-- A step of somebody else. -/
theorem stage_other {steps : List (State T V W × Event T V W)} (sound : Sound L s)
    (hCall : s.callers t = .call x.1 x.2 ctx line) (stage : Stage x w t steps s line)
    (hNe : e ≠ .step t) (h : next L s e = some s') : Stage x w t (steps ++ [(s, e)]) s' line := by
  have hMore : (∃ z ∈ steps, FindsEmpty x z) → ∃ z ∈ steps ++ [(s, e)], FindsEmpty x z :=
    fun ⟨z, hz, hEmpty⟩ => ⟨z, List.mem_append_left _ hz, hEmpty⟩
  cases line with
  | poll isPending at_ =>
      cases at_ with
      | swapWaiting w' =>
          have since : SinceStore x w steps (Storing x w t s) := stage
          exact since.next (not_stores sound hCall (by simp)) fun storing =>
            storing_next (sound.calm _) storing hNe h
      | _ => trivial
  | begin => exact since_owed sound hCall (by simp) stage h
  | storePending => exact since_owed sound hCall (by simp) stage h
  | storeBudget budget => exact fun hZero => hMore (stage hZero)
  | yield => exact hMore stage
  | _ => trivial

end Line

omit [Fintype T] [DecidableEq V] [DecidableEq T] in
/-- `poll` gives `Pending` for the waker of its call at the registration only. -/
theorem pollerStep_carries {cell cell' : Cell (V ⊕ SocketId) W} {at_ at_' : AtomicWaker.Poller W}
    (carries : Carries w at_) (polling : Polling at_) (h : pollerStep cell at_ = some (cell', at_')) :
    Carries w at_' ∧ (at_' = .idle false → at_ = .swapWaiting w ∧ cell.state = UPDATING) ∧
      ∀ w', at_' = .swapWaiting w' → at_ = .store w := by
  cases at_ <;> simp only [pollerStep, Polling, Registering, Carries] at h polling carries <;>
    grind [Carries]

section Own

variable {line : Line W} {p : Pollable} {steps : List (State T V W × Event T V W)}

/-- The next line of a call after an operation of its own, or what its `Pending` leaves. -/
def Advances (x : SocketId × WakerKind) (w : W) (t : T) (steps : List (State T V W × Event T V W))
    (s : State T V W) (line : Line W) (caller : Caller W) : Prop :=
  (∀ line', caller = .call x.1 x.2 (some w) line' → line'.Carries w ∧ Stage x w t steps s line') ∧
    (caller = .idle → line = .yield ∨ SinceStore x w steps (Owed x w s))

omit [Fintype T] [DecidableEq T] [DecidableEq V] [DecidableEq W] in
theorem Advances.call {line' : Line W} (carries : line'.Carries w) (stage : Stage x w t steps s line') :
    Advances x w t steps s line (.call x.1 x.2 (some w) line') := by
  refine ⟨fun next hNext => ?_, fun hIdle => by simp at hIdle⟩
  obtain rfl : line' = next := by simpa using hNext
  exact ⟨carries, stage⟩

omit [Fintype T] [DecidableEq T] [DecidableEq V] [DecidableEq W] in
theorem Advances.panicked (failure : Failure) :
    Advances x w t steps s line (.panicked failure) :=
  ⟨fun _ hNext => by simp at hNext, fun hIdle => by simp at hIdle⟩

omit [Fintype T] [DecidableEq T] [DecidableEq V] [DecidableEq W] in
/-- After an operation inside `poll`. -/
theorem advances_polled {at_ : AtomicWaker.Poller W} {isPending : Bool} (carries : Carries w at_)
    (hRegistered : at_ = .idle false → SinceStore x w steps (Owed x w s))
    (hStored : ∀ w', at_ = .swapWaiting w' → SinceStore x w steps (Storing x w t s)) :
    Advances x w t steps s line (.polled x.1 x.2 (some w) isPending at_) := by
  cases at_ with
  | idle ready =>
      cases ready <;> cases isPending
      · exact .call trivial (hRegistered rfl)
      · exact ⟨fun _ hNext => by simp [Caller.polled] at hNext, fun _ => .inr (hRegistered rfl)⟩
      · exact .call trivial trivial
      · exact .call trivial trivial
  | panicked failure => exact .panicked _
  | swapWaiting w' => exact .call carries (hStored w' rfl)
  | _ => exact .call carries trivial

/-- What a call has done on its way, one operation further. A store begins the count
anew, and a registration makes the waker owed. -/
theorem stage_own (sound : Sound L s) (hCall : s.callers t = .call x.1 x.2 (some w) line)
    (carries : line.Carries w) (stage : Stage x w t steps s line)
    (h : next L s (.step t) = some s') :
    Advances x w t (steps ++ [(s, .step t)]) s' line (s'.callers t) := by
  obtain ⟨p, hLive⟩ := sound.owns.live hCall
  have hStep := h
  rw [next_of_call hCall hLive] at hStep
  cases line with
  | load | doIo =>
      obtain rfl := Option.some.inj hStep
      rw [callers_setCaller]
      exact .call (by simp [Line.Carries, Carries]) trivial
  | poll isPending at_ =>
      have finds := sound.facts.calls t p.index x.2 _ ⟨x.1, some w, p, hCall, hLive, rfl⟩
      obtain ⟨⟨cell, at_'⟩, hCell, hNext⟩ := Option.map_eq_some_iff.mp hStep
      obtain ⟨hCarries, hIdle, hStore⟩ := pollerStep_carries carries finds.shaped hCell
      have hCaller : s'.callers t = .polled x.1 x.2 (some w) isPending at_' := by
        rw [← hNext, callers_setCaller]
      rw [hCaller]
      refine advances_polled hCarries (fun hEq => ?_) fun w' hEq => ?_
      · obtain ⟨rfl, hState⟩ := hIdle hEq
        have since : SinceStore x w steps (Storing x w t s) := stage
        exact since.next (not_stores sound hCall (by simp)) fun storing => .inl
          (owed_of_registers sound.steady storing ⟨t, some w, isPending, p, rfl, hCall, hLive, hState⟩ h)
      · obtain rfl := hStore w' hEq
        have hStores : Stores x w (s, .step t) := ⟨t, some w, isPending, rfl, hCall⟩
        exact ⟨steps, _, [], rfl, hStores, by simp, .inl (storing_of_stores hStores h)⟩
  | begin =>
      have owed := since_owed sound hCall (by simp) stage h
      have hNext := Option.some.inj hStep
      have hCaller : s'.callers t =
          if s.pending = usizeMAX then .panicked .begin else .call x.1 x.2 (some w) .storePending := by
        rw [← hNext, callers_setCaller]
      rw [hCaller]
      split
      · exact .panicked _
      · exact .call trivial owed
  | storePending =>
      have owed := since_owed sound hCall (by simp) stage h
      obtain rfl := Option.some.inj hStep
      rw [callers_setCaller]
      exact ⟨fun _ hNext => by simp at hNext, fun _ => .inr owed⟩
  | complete =>
      have hNext := Option.some.inj hStep
      have hCaller : s'.callers t = if s.pending = 0 then .panicked .complete else
          .call x.1 x.2 (some w) .storeCompleted := by
        rw [← hNext, callers_setCaller]
      rw [hCaller]
      split
      · exact .panicked _
      · exact .call trivial trivial
  | storeCompleted =>
      obtain rfl := Option.some.inj hStep
      rw [callers_setCaller]
      exact .call trivial trivial
  | loadBudget =>
      obtain rfl := Option.some.inj hStep
      rw [callers_setCaller]
      exact .call trivial fun hZero =>
        ⟨(s, .step t), by simp, t, some w, p, rfl, hCall, hLive, hZero⟩
  | storeBudget budget =>
      obtain rfl := Option.some.inj hStep
      rw [callers_setCaller]
      cases hPred : Pollable.checkedPred budget with
      | none =>
          obtain ⟨z, hz, hEmpty⟩ := stage (checkedPred_none hPred)
          exact .call trivial ⟨z, List.mem_append_left _ hz, hEmpty⟩
      | some b => exact .call trivial trivial
  | yield => exact ⟨fun line' hNext => by simp [← Option.some.inj hStep] at hNext, fun _ => .inl rfl⟩
  | inIo => simp [State.callStep] at hStep
  | reset at_ =>
      obtain ⟨⟨cell, at_'⟩, -, rfl⟩ := Option.map_eq_some_iff.mp hStep
      rw [callers_setCaller]
      cases at_' with
      | panicked failure => exact .panicked _
      | _ => exact .call trivial trivial

end Own

/-- A call with a waker on the way to its return, or past it. -/
def InCall (x : SocketId × WakerKind) (w : W) (t : T) (steps : List (State T V W × Event T V W))
    (s : State T V W) : Prop :=
  (s.callers t).pair? = none ∨ ∃ line, s.callers t = .call x.1 x.2 (some w) line ∧ line.Carries w ∧
    Stage x w t steps s line

/-- How a call has left the slot and the budget of its pair when it returns `Pending`: with
its waker registered, with a yield, or with a wake that has taken the waker. -/
inductive Leaves (x : SocketId × WakerKind) (w : W) (steps : List (State T V W × Event T V W))
    (s : State T V W) (p : Pollable) : Prop where
  | registered (state : (s.cell p.index x.2).state = WAITING)
      (waker : (s.cell p.index x.2).waker = some w) (flag : p.pendings x.2 = true)
  | yielded (empty : ∃ z ∈ steps, FindsEmpty x z) (yields : ∃ z ∈ steps, Yields x (some w) z)
      (budget : p.budgets x.2 = BUDGET)
  | woken (since : SinceStore x w steps (Taken x w s)) (flag : p.pendings x.2 = true)

omit [Fintype T] [DecidableEq T] [DecidableEq V] [DecidableEq W] in
/-- After an operation a call is over or is still the same call. -/
theorem Spends.caller {ctx : Option W} {line : Line W} {b b' : UInt8} {caller : Caller W}
    (spends : Spends x ctx line b caller b') :
    caller.pair? = none ∨ ∃ line', caller = .call x.1 x.2 ctx line' := by
  cases spends with
  | ends hOver => exact .inl hOver
  | begins _ _ hCaller | goes _ hCaller | spends _ hCaller | yields _ hCaller => exact .inr ⟨_, hCaller⟩

/-- Any step keeps the history of a call. Those of others may only invoke its waker,
which the history allows for. -/
theorem inCall_next {e : Event T V W} {steps : List (State T V W × Event T V W)}
    (ordered : InOrder L s) (inCall : InCall x w t steps s) (hCalls : ¬Calls t e)
    (h : next L s e = some s') : InCall x w t (steps ++ [(s, e)]) s' := by
  have sound := ordered.fine.sound
  obtain hOut | ⟨line, hCall, carries, stage⟩ := inCall
  · exact .inl (by rw [stays_out hOut hCalls h, hOut])
  have hPair : (s.callers t).pair? = some x := by rw [hCall]; rfl
  obtain ⟨p, hLive⟩ := sound.owns.live hCall
  cases pair_next sound ordered.budgeted hLive h with
  | dropped q at_ hDropping hUncalled => exact absurd hPair (hUncalled t)
  | own u ctx line' q hEvent hCall' hLive' hSpends hOthers =>
      obtain rfl := sound.exact_.exclusive t u x hPair (by rw [hCall']; rfl)
      obtain ⟨rfl, rfl⟩ : some w = ctx ∧ line = line' := by simpa [hCall] using hCall'
      subst hEvent
      obtain ⟨hNext, -⟩ := stage_own sound hCall carries stage h
      refine hSpends.caller.imp id fun ⟨line', hCaller⟩ => ?_
      exact ⟨line', hCaller, hNext line' hCaller⟩
  | io u ctx result hEvent hCall' hLive' hCallers =>
      obtain rfl := sound.exact_.exclusive t u x hPair (by rw [hCall']; rfl)
      obtain ⟨rfl, -⟩ : some w = ctx ∧ line = .inIo := by simpa [hCall] using hCall'
      unfold InCall
      rw [hCallers, Function.update_self]
      cases result with
      | interrupted | wouldBlock => exact .inr ⟨_, rfl, trivial, trivial⟩
      | other => exact .inl rfl
  | other q hLive' hBudget hStays hCallers =>
      obtain ⟨hNe, hSame⟩ := hStays t hPair
      exact .inr ⟨line, hSame.trans hCall, carries, stage_other sound hCall stage hNe h⟩

/-- The history of a call from its beginning, by induction on the run. -/
theorem inCall_path {steps : List (State T V W × Event T V W)} (ordered : InOrder L s)
    (start : InCall x w t [] s) (path : (system T V W L).Path s steps s')
    (orderly : Meets Orderly steps) (hCalls : ∀ z ∈ steps, ¬Calls t z.2) :
    InCall x w t steps s' := by
  induction path with
  | refl => exact start
  | @step steps u v e prior last ih =>
      rw [meets_append] at orderly
      exact inCall_next (ordered.path prior orderly.1)
        (ih orderly.1 fun z hz => hCalls z (List.mem_append_left _ hz)) (hCalls (u, e) (by simp)) last

/-- The step that returns `Pending`: the history says which of the three ways the call
has left its pair. -/
theorem leaves_of_returns {steps : List (State T V W × Event T V W)} (ordered : InOrder L s)
    (inCall : InCall x w t steps s) (h : next L s (.step t) = some s')
    (hIdle : s'.callers t = .idle) :
    ∃ p, s'.sockets x.1 = .live p ∧ Leaves x w (steps ++ [(s, .step t)]) s' p := by
  have sound := ordered.fine.sound
  obtain hOut | ⟨line, hCall, carries, stage⟩ := inCall
  · obtain ⟨id, kind, ctx, line, p, hCall, -⟩ := next_step h
    simp [hCall, Caller.pair?] at hOut
  obtain ⟨p, hLive⟩ := sound.owns.live hCall
  have hStep := h
  rw [next_of_call hCall hLive] at hStep
  have hPair : (s.callers t).pair? = some x := by rw [hCall]; rfl
  by_cases hLine : line = .yield
  · subst hLine
    have hBudget : p.budgets x.2 = BUDGET := ordered.budgeted.knows t x.1 x.2 _ _ p hCall hLive
    obtain ⟨z, hz, hEmpty⟩ := stage
    obtain rfl := Option.some.inj hStep
    exact ⟨p, hLive, .yielded ⟨z, List.mem_append_left _ hz, hEmpty⟩
      ⟨(s, .step t), by simp, t, rfl, hCall⟩ hBudget⟩
  · have hAgrees : line.Agrees (p.pendings x.2) := by
      have hBoth := sound.exact_.agrees t x.1 x.2 p hPair hLive
      rwa [hCall] at hBoth
    obtain ⟨q, hLive', hFlag⟩ := flag_of_returns hLive hAgrees hLine hStep hIdle
    obtain ⟨first, store, rest, hSteps, hStore, hRest, hHolds⟩ :=
      ((stage_own sound hCall carries stage h).2 hIdle).resolve_left hLine
    refine ⟨q, hLive', ?_⟩
    obtain (taken | ⟨q', hLive'', kept, hState⟩) | hInvokes := hHolds
    · exact .woken ⟨first, store, rest, hSteps, hStore, hRest, .inl taken⟩ hFlag
    · obtain rfl : q = q' := by simpa [hLive'] using hLive''
      exact .registered hState kept.1 hFlag
    · exact .woken ⟨first, store, rest, hSteps, hStore, hRest, .inr hInvokes⟩ hFlag

end Yaar.Net.PollIo
