import Yaar.Net.PollIoTurns

/-! `poll_io` returns, and yields between its turns at `do_io`. -/
namespace Yaar.Net.PollIo

open Machine AtomicWaker

variable {T V W : Type*} [Fintype T] [DecidableEq T] [DecidableEq V] [DecidableEq W] {L : Layout}
  {s s' : State T V W} {t : T} {x : SocketId × WakerKind} {w : W} {line : Line W} {p : Pollable}

/-! ## A call can always go on -/

omit [Fintype T] [DecidableEq T] [DecidableEq V] in
/-- An operation of `poll` or `reset` can always be taken: neither waits for another
thread. -/
theorem pollerStep_enabled (cell : Cell (V ⊕ SocketId) W) {at_ : AtomicWaker.Poller W}
    (h : Polling at_ ∨ at_ = .resetLoad ∨ at_ = .resetStore) : ∃ r, pollerStep cell at_ = some r := by
  apply Option.isSome_iff_exists.mp
  cases at_ <;> simp only [pollerStep, Polling, Registering] at h ⊢ <;> grind

/-- Outside `do_io` the next operation of a call is enabled. -/
theorem step_enabled {id : SocketId} {kind : WakerKind} {ctx : Option W} (sound : Sound L s)
    (hCall : s.callers t = .call id kind ctx line) (hLine : line ≠ .inIo) :
    ∃ s', next L s (.step t) = some s' := by
  obtain ⟨p, hLive⟩ := sound.owns.live hCall
  have finds := sound.facts.calls t p.index kind line ⟨id, ctx, p, hCall, hLive, rfl⟩
  rw [next_of_call (x := (id, kind)) hCall hLive]
  cases line with
  | poll isPending at_ =>
      obtain ⟨r, hr⟩ := pollerStep_enabled (s.cell p.index kind) (.inl finds.shaped)
      exact ⟨_, by rw [State.callStep, hr, Option.map_some]⟩
  | reset at_ =>
      obtain ⟨r, hr⟩ := pollerStep_enabled (s.cell p.index kind) (.inr finds.shaped)
      exact ⟨_, by rw [State.callStep, hr, Option.map_some]⟩
  | inIo => exact absurd rfl hLine
  | _ => exact ⟨_, rfl⟩

/-! ## A rank that falls -/

/-- The operations of a turn that are still ahead, inside `poll` and `reset`. -/
def left : AtomicWaker.Poller W → Nat
  | .resetLoad => 19
  | .resetStore => 18
  | .loadNotified _ => 16
  | .loadState _ => 15
  | .swapUpdating _ _ => 14
  | .tryLock _ => 13
  | .store _ => 12
  | .swapWaiting _ => 11
  | .storeNotified => 10
  | .storeEmpty => 9
  | .idle _ | .panicked _ => 0

def Line.left : Line W → Nat
  | .doIo | .inIo => 20
  | .load => 17
  | .poll _ at_ | .reset at_ => PollIo.left at_
  | .begin => 8
  | .storePending => 7
  | .complete => 6
  | .storeCompleted => 5
  | .loadBudget => 4
  | .storeBudget _ => 3
  | .yield => 0

/-- With each unit of the budget a call may take one more turn, but for its yield. -/
def Line.rank (b : UInt8) : Line W → Nat
  | .yield => 0
  | line => 20 * b.toNat + line.left

omit [Fintype T] [DecidableEq T] [DecidableEq V] in
/-- An operation of `poll` or `reset` brings the call closer to the end of its turn. The
weights leave room for the operations that follow. -/
theorem pollerStep_left {cell cell' : Cell (V ⊕ SocketId) W} {at_ at_' : AtomicWaker.Poller W}
    (h : Polling at_ ∨ at_ = .resetLoad ∨ at_ = .resetStore)
    (hStep : pollerStep cell at_ = some (cell', at_')) : PollIo.left at_' < PollIo.left at_ ∧
      9 ≤ PollIo.left at_ := by
  cases at_ <;> simp only [pollerStep, Polling, Registering] at h hStep <;> grind [PollIo.left]

omit [Fintype T] [DecidableEq V] in
/-- Within a turn a call comes closer to its end. -/
theorem callStep_left {line' : Line W} (finds : Finds (s.cell p.index x.2) line)
    (hStep : s.callStep t x.1 p x.2 (some w) line = some s')
    (hCall' : s'.callers t = .call x.1 x.2 (some w) line') (hDoIo : line ≠ .doIo)
    (hBudget : ∀ b, line ≠ .storeBudget b) : line'.left < line.left := by
  cases line with
  | doIo => exact absurd rfl hDoIo
  | storeBudget b => exact absurd rfl (hBudget b)
  | inIo => simp [State.callStep] at hStep
  | load | loadBudget =>
      obtain rfl := Option.some.inj hStep
      rw [callers_setCaller] at hCall'
      obtain rfl := (Caller.call.inj hCall').2.2.2
      simp [Line.left, PollIo.left]
  | poll isPending at_ =>
      obtain ⟨⟨cell, at_'⟩, hCell, rfl⟩ := Option.map_eq_some_iff.mp hStep
      rw [callers_setCaller] at hCall'
      obtain ⟨hLess, hNine⟩ := pollerStep_left (.inl finds.shaped) hCell
      change line'.left < PollIo.left at_
      unfold Caller.polled at hCall'
      split at hCall'
      · obtain rfl := (Caller.call.inj hCall').2.2.2
        cases isPending <;> simp [Line.left, Line.spend] <;> omega
      · cases isPending
        · obtain rfl := (Caller.call.inj hCall').2.2.2
          simp [Line.left]
          omega
        · simp at hCall'
      · simp at hCall'
      · obtain rfl := (Caller.call.inj hCall').2.2.2
        exact hLess
  | begin | complete =>
      obtain rfl := Option.some.inj hStep
      rw [callers_setCaller] at hCall'
      split at hCall'
      · simp at hCall'
      · obtain rfl := (Caller.call.inj hCall').2.2.2
        simp [Line.left]
  | storePending | yield =>
      obtain rfl := Option.some.inj hStep
      simp at hCall'
  | storeCompleted =>
      obtain rfl := Option.some.inj hStep
      rw [callers_setCaller] at hCall'
      obtain rfl := (Caller.call.inj hCall').2.2.2
      simp [Line.left, Line.spend]
  | reset at_ =>
      obtain ⟨⟨cell, at_'⟩, hCell, rfl⟩ := Option.map_eq_some_iff.mp hStep
      rw [callers_setCaller] at hCall'
      have hShaped : at_ = .resetLoad ∨ at_ = .resetStore := finds.shaped
      obtain ⟨hLess, -⟩ := pollerStep_left (.inr hShaped) hCell
      change line'.left < PollIo.left at_
      unfold Caller.resetting at hCall'
      split at hCall'
      · obtain rfl := (Caller.call.inj hCall').2.2.2
        obtain rfl | rfl := hShaped <;> simp [Line.left, PollIo.left]
      · simp at hCall'
      · obtain rfl := (Caller.call.inj hCall').2.2.2
        exact hLess

omit [Fintype T] [DecidableEq T] [DecidableEq V] [DecidableEq W] in
/-- The rank of a call that does not yield: the turns that its budget pays for, and what
is left of this one. -/
theorem rank_eq {b : UInt8} (h : line ≠ .yield) : line.rank b = 20 * b.toNat + line.left := by
  cases line with
  | yield => exact absurd rfl h
  | _ => rfl

/-- The rank of the pair's call by a thread. -/
def rank (x : SocketId × WakerKind) (t : T) (s : State T V W) : Nat :=
  match s.callers t, s.sockets x.1 with
  | .call _ _ _ line, .live p => line.rank (p.budgets x.2)
  | _, _ => 0

omit [Fintype T] [DecidableEq T] [DecidableEq V] [DecidableEq W] in
theorem rank_call (hCall : s.callers t = .call x.1 x.2 (some w) line) (hLive : s.sockets x.1 = .live p) :
    rank x t s = line.rank (p.budgets x.2) := by
  simp only [rank, hCall, hLive]

/-- An operation of the thread that is neither a call of `do_io` nor an interrupt of one. -/
def Moves (t : T) (s : State T V W) (e : Event T V W) : Prop :=
  (e = .step t ∧ ∀ id kind ctx, s.callers t ≠ .call id kind ctx .doIo) ∨
    ∃ result, e = .doIo t result ∧ result ≠ .interrupted

/-- No step raises the rank of a call, and the operations that move it lower it. -/
theorem rank_next {e : Event T V W} {line' : Line W} (ordered : InOrder L s)
    (hCall : s.callers t = .call x.1 x.2 (some w) line)
    (hCall' : s'.callers t = .call x.1 x.2 (some w) line') (h : next L s e = some s') :
    rank x t s' ≤ rank x t s ∧ (Moves t s e → rank x t s' < rank x t s) := by
  have sound := ordered.fine.sound
  have hPair : (s.callers t).pair? = some x := by rw [hCall]; rfl
  obtain ⟨p, hLive⟩ := sound.owns.live hCall
  cases pair_next sound ordered.budgeted hLive h with
  | dropped q at_ hDropping hUncalled => exact absurd hPair (hUncalled t)
  | own u ctx line'' q hEvent hOwn hLive' hSpends hOthers =>
      obtain rfl := sound.exact_.exclusive t u x hPair (by rw [hOwn]; rfl)
      obtain ⟨rfl, rfl⟩ : some w = ctx ∧ line = line'' := by simpa [hCall] using hOwn
      subst hEvent
      rw [rank_call hCall hLive, rank_call hCall' hLive']
      cases hSpends with
      | ends hOver => simp [hCall', Caller.pair?] at hOver
      | begins hLoad isPending hCaller hBudget =>
          obtain rfl : line' = .poll isPending (.loadNotified (some w)) := by
            simpa [hCall'] using hCaller
          have hLess : Line.rank (q.budgets x.2) (.poll isPending (.loadNotified (some w))) <
              line.rank (p.budgets x.2) := by
            rw [hLoad, hBudget]
            exact Nat.add_lt_add_left (by simp [Line.left, PollIo.left]) _
          exact ⟨hLess.le, fun _ => hLess⟩
      | goes next hCaller hSpent hInTurn hLine hKnows hYields hBudget =>
          obtain rfl : line' = next := by simpa [hCall'] using hCaller
          have hStep := h
          rw [next_of_call hCall hLive] at hStep
          rw [rank_eq hYields, rank_eq hInTurn.2, hBudget]
          by_cases hDoIo : line = .doIo
          · subst hDoIo
            obtain rfl := Option.some.inj hStep
            rw [callers_setCaller] at hCall'
            obtain rfl := (Caller.call.inj hCall').2.2.2
            refine ⟨le_rfl, ?_⟩
            rintro (⟨-, hNot⟩ | ⟨result, hEvent, -⟩)
            · exact absurd hCall (hNot x.1 x.2 (some w))
            · simp at hEvent
          · have finds := sound.facts.calls t p.index x.2 line ⟨x.1, some w, p, hCall, hLive, rfl⟩
            have hLess := callStep_left finds hStep hCall' hDoIo hLine
            exact ⟨by omega, fun _ => by omega⟩
      | spends hLine hCaller hBudget =>
          obtain rfl : line' = .doIo := by simpa [hCall'] using hCaller
          rw [hLine, rank_eq (by simp), rank_eq (by simp)]
          simp only [Line.left]
          exact ⟨by omega, fun _ => by omega⟩
      | yields hLine hCaller hEmpty hBudget =>
          obtain rfl : line' = .yield := by simpa [hCall'] using hCaller
          rw [hLine, rank_eq (show (.storeBudget 0 : Line W) ≠ .yield by simp)]
          exact ⟨Nat.zero_le _, fun _ => by simp [Line.rank, Line.left]⟩
  | io u ctx result hEvent hOwn hLive' hCallers =>
      obtain rfl := sound.exact_.exclusive t u x hPair (by rw [hOwn]; rfl)
      obtain ⟨rfl, rfl⟩ : some w = ctx ∧ line = .inIo := by simpa [hCall] using hOwn
      rw [rank_call hCall hLive, rank_call hCall' hLive']
      rw [hCallers, Function.update_self] at hCall'
      cases result with
      | interrupted =>
          obtain rfl := (Caller.call.inj hCall').2.2.2
          refine ⟨le_rfl, ?_⟩
          rintro (⟨hStep, -⟩ | ⟨result, hIo, hNot⟩)
          · simp [hEvent] at hStep
          · simp [hEvent] at hIo
            exact absurd hIo.symm hNot
      | wouldBlock =>
          obtain rfl := (Caller.call.inj hCall').2.2.2
          simp only [Line.rank, Line.left, PollIo.left]
          exact ⟨by omega, fun _ => by omega⟩
      | other => simp [Caller.returned] at hCall'
  | other q hLive' hBudget hStays hCallers =>
      obtain ⟨hNe, hSame⟩ := hStays t hPair
      obtain rfl : line' = line := by simpa [hSame, hCall] using hCall'.symm
      rw [rank_call hCall hLive, rank_call hCall' hLive', hBudget]
      refine ⟨le_rfl, ?_⟩
      rintro (⟨hStep, -⟩ | ⟨result, rfl, -⟩)
      · exact absurd hStep hNe
      · obtain ⟨id, kind, ctx, hIn, rfl⟩ := next_doIo h
        rw [callers_setCaller, hIn] at hSame
        cases result <;> simp [Caller.returned] at hSame

/-- A call goes on until it returns. -/
theorem call_next {e : Event T V W} (ordered : InOrder L s) (ordered' : InOrder L s')
    (hCall : s.callers t = .call x.1 x.2 (some w) line) (h : next L s e = some s') :
    s'.callers t = .idle ∨ ∃ line', s'.callers t = .call x.1 x.2 (some w) line' := by
  have sound := ordered.fine.sound
  have hPair : (s.callers t).pair? = some x := by rw [hCall]; rfl
  obtain ⟨p, hLive⟩ := sound.owns.live hCall
  cases pair_next sound ordered.budgeted hLive h with
  | dropped q at_ hDropping hUncalled => exact absurd hPair (hUncalled t)
  | own u ctx line'' q hEvent hOwn hLive' hSpends hOthers =>
      obtain rfl := sound.exact_.exclusive t u x hPair (by rw [hOwn]; rfl)
      obtain ⟨rfl, -⟩ : some w = ctx ∧ line = line'' := by simpa [hCall] using hOwn
      refine hSpends.caller.imp_left fun hOut => ?_
      cases hCaller : s'.callers t with
      | idle => rfl
      | call id kind ctx line => simp [hCaller, Caller.pair?] at hOut
      | panicked failure => exact absurd hCaller (ordered'.fine.unfailed t failure)
  | io u ctx result hEvent hOwn hLive' hCallers =>
      obtain rfl := sound.exact_.exclusive t u x hPair (by rw [hOwn]; rfl)
      obtain ⟨rfl, -⟩ : some w = ctx ∧ line = .inIo := by simpa [hCall] using hOwn
      rw [hCallers, Function.update_self]
      cases result with
      | interrupted | wouldBlock => exact .inr ⟨_, rfl⟩
      | other => exact .inl rfl
  | other q hLive' hBudget hStays hCallers => exact .inr ⟨line, by rw [(hStays t hPair).2, hCall]⟩

/-! ## The end of a call -/

section Endless

variable {rest : (system T V W L).Endless}

/-- A thread in a call takes its next operation some time, and its `do_io` returns. -/
def Runs (rest : (system T V W L).Endless) (t : T) : Prop :=
  ∀ n, (rest.state n).callers t ≠ .idle →
    ∃ k, n ≤ k ∧ (rest.event k = .step t ∨ ∃ result, rest.event k = .doIo t result)

/-- No run of interrupts of the thread's `do_io` is endless. -/
def InterruptsEnd (rest : (system T V W L).Endless) (t : T) : Prop :=
  (∀ n, ∃ k, n ≤ k ∧ rest.event k = .doIo t .interrupted) →
    ∀ n, ∃ k result, n ≤ k ∧ rest.event k = .doIo t result ∧ result ≠ .interrupted

/-- An endless run whose steps are orderly is in order at every moment. -/
theorem InOrder.endless (ordered : InOrder L (rest.state 0))
    (orderly : ∀ n, Orderly (rest.state n) (rest.event n)) (n : Nat) : InOrder L (rest.state n) := by
  induction n with
  | zero => exact ordered
  | succ n ih => exact ih.next (orderly n) (rest.step n)

/-- Others leave the call of a thread where it is. -/
theorem call_stays {e : Event T V W} (hCall : s.callers t = .call x.1 x.2 (some w) line)
    (hStep : e ≠ .step t) (hIo : ∀ result, e ≠ .doIo t result) (h : next L s e = some s') :
    s'.callers t = s.callers t := by
  by_contra hMoved
  obtain ⟨hIdle, -⟩ | ⟨id, kind, ctx, line', -, hEvent | ⟨-, result, hEvent⟩⟩ := moved_next h hMoved
  · simp [hCall] at hIdle
  · exact hStep hEvent
  · exact hIo result hEvent

/-- A call that does not return moves again and again. -/
theorem moves_often (hCalls : ∀ n, ∃ line, (rest.state n).callers t = .call x.1 x.2 (some w) line)
    (runs : Runs rest t) (ends : InterruptsEnd rest t) (n : Nat) :
    ∃ k, n ≤ k ∧ Moves t (rest.state k) (rest.event k) := by
  have hOwn : ∀ n, ∃ k, n ≤ k ∧ (rest.event k = .step t ∨ ∃ r, rest.event k = .doIo t r) := by
    intro n
    obtain ⟨line, hCall⟩ := hCalls n
    exact runs n (by simp [hCall])
  by_cases hOften : ∀ n, ∃ k, n ≤ k ∧ rest.event k = .doIo t .interrupted
  · obtain ⟨k, result, hk, hEvent, hResult⟩ := ends hOften n
    exact ⟨k, hk, .inr ⟨result, hEvent, hResult⟩⟩
  push Not at hOften
  obtain ⟨m, hNone⟩ := hOften
  by_contra hMoves
  push Not at hMoves
  -- Past `n` and `m` the thread only calls `do_io`, and is then stuck in it.
  have hIo : ∀ k, max n m ≤ k → ∀ result, rest.event k ≠ .doIo t result := by
    intro k hk result hEvent
    by_cases hResult : result = .interrupted
    · exact hNone k (le_of_max_le_right hk) (hResult ▸ hEvent)
    · exact hMoves k (le_of_max_le_left hk) (.inr ⟨result, hEvent, hResult⟩)
  have hDoIo : ∀ k, max n m ≤ k → rest.event k = .step t →
      ∃ id kind ctx, (rest.state k).callers t = .call id kind ctx .doIo := by
    intro k hk hEvent
    by_contra hNot
    push Not at hNot
    exact hMoves k (le_of_max_le_left hk) (.inl ⟨hEvent, hNot⟩)
  obtain ⟨k, hk, hEvent | ⟨result, hEvent⟩⟩ := hOwn (max n m)
  swap
  · exact hIo k hk result hEvent
  have hStuck : ∀ d, ∃ id kind ctx, (rest.state (k + 1 + d)).callers t = .call id kind ctx .inIo := by
    intro d
    induction d with
    | zero =>
        obtain ⟨id, kind, ctx, hCall⟩ := hDoIo k hk hEvent
        have hNext : next L (rest.state k) (rest.event k) = some (rest.state (k + 1)) := rest.step k
        rw [hEvent] at hNext
        obtain ⟨id', kind', ctx', line, p, hCall', -, hStep⟩ := next_step hNext
        obtain ⟨rfl, rfl, rfl, rfl⟩ : id = id' ∧ kind = kind' ∧ ctx = ctx' ∧ .doIo = line := by
          simpa [hCall] using hCall'
        exact ⟨id, kind, ctx, by rw [Nat.add_zero, ← Option.some.inj hStep, callers_setCaller]⟩
    | succ d ih =>
        obtain ⟨id, kind, ctx, hIn⟩ := ih
        obtain ⟨line, hCall⟩ := hCalls (k + 1 + d)
        have hLate : max n m ≤ k + 1 + d := by omega
        have hStep : rest.event (k + 1 + d) ≠ .step t := by
          intro hEvent
          obtain ⟨_, _, _, hHere⟩ := hDoIo _ hLate hEvent
          simp [hIn] at hHere
        exact ⟨id, kind, ctx, by
          rw [← hIn]
          exact call_stays hCall hStep (hIo _ hLate) (rest.step (k + 1 + d))⟩
  obtain ⟨j, hj, hEvent' | ⟨result, hEvent'⟩⟩ := hOwn (k + 1)
  · obtain ⟨_, _, _, hIn⟩ := hStuck (j - (k + 1))
    obtain ⟨_, _, _, hHere⟩ := hDoIo j (by omega) hEvent'
    rw [Nat.add_sub_cancel' hj] at hIn
    simp [hIn] at hHere
  · exact hIo j (by omega) result hEvent'

/-- In every run that goes on a call returns. -/
theorem returns_of_runs (ordered : InOrder L (rest.state 0))
    (orderly : ∀ n, Orderly (rest.state n) (rest.event n)) (runs : Runs rest t)
    (ends : InterruptsEnd rest t) (hCall : (rest.state 0).callers t = .call x.1 x.2 (some w) line) :
    ∃ n, (rest.state n).callers t = .idle := by
  by_contra hNever
  push Not at hNever
  have hOrdered := InOrder.endless ordered orderly
  have hCalls : ∀ n, ∃ line, (rest.state n).callers t = .call x.1 x.2 (some w) line := by
    intro n
    induction n with
    | zero => exact ⟨line, hCall⟩
    | succ n ih =>
        obtain ⟨line', hHere⟩ := ih
        exact (call_next (hOrdered n) (hOrdered (n + 1)) hHere (rest.step n)).resolve_left
          (hNever (n + 1))
  have hRank : ∀ n, rank x t (rest.state (n + 1)) ≤ rank x t (rest.state n) ∧
      (Moves t (rest.state n) (rest.event n) →
        rank x t (rest.state (n + 1)) < rank x t (rest.state n)) := by
    intro n
    obtain ⟨line₀, hBefore⟩ := hCalls n
    obtain ⟨line₁, hAfter⟩ := hCalls (n + 1)
    exact rank_next (hOrdered n) hBefore hAfter (rest.step n)
  obtain ⟨n, -, hLeft⟩ := rest.leaves (fun _ => True) (rank x t)
    (fun n => Moves t (rest.state n) (rest.event n)) (moves_often hCalls runs ends) 0
    (fun n _ _ _ => (hRank n).1) fun n _ hMoves _ _ => (hRank n).2 hMoves
  exact hLeft trivial

end Endless

/-! ## Calls end and yield -/

/-- How the calls with a waker behave along a run that ends in `s`. -/
structure PollsFairly (L : Layout) (steps : List (State T V W × Event T V W)) (s : State T V W) :
    Prop where
  /-- The turns of a call are bounded by the budget it finds. -/
  turns : ∀ (x : SocketId × WakerKind) t w before y after, steps = before ++ y :: after →
    y.2 = .call t x.1 x.2 (some w) → (∀ z ∈ after, ¬Calls t z.2) →
    ∃ p, y.1.sockets x.1 = .live p ∧ after.countP (begins t) ≤ (p.budgets x.2).toNat + 1 ∧
      (p.budgets x.2).toNat + 1 ≤ 129
  /-- Between two yields of a pair. -/
  reached : ∀ x before middle after, steps = before ++ (middle ++ after) →
    (∀ z ∈ middle, ∀ ctx, ¬Yields x ctx z) → middle.countP (reaches L x) ≤ 128
  /-- The last step returns the `Pending` of a call. -/
  pending : ∀ (x : SocketId × WakerKind) t w before y middle z,
    steps = before ++ y :: (middle ++ [z]) → y.2 = .call t x.1 x.2 (some w) →
    (∀ m ∈ middle, ¬Calls t m.2) → z.2 = .step t → s.callers t = .idle →
    ∃ p, s.sockets x.1 = .live p ∧ Leaves x w (middle ++ [z]) s p
  enabled : ∀ t id kind ctx line, s.callers t = .call id kind ctx line →
    line = .inIo ∨ ∃ s', next L s (.step t) = some s'
  returns : ∀ (rest : (system T V W L).Endless) (x : SocketId × WakerKind) t w line, rest.state 0 = s →
    s.callers t = .call x.1 x.2 (some w) line →
    (∀ n, Orderly (rest.state n) (rest.event n)) → Runs rest t → InterruptsEnd rest t →
    ∃ n, (rest.state n).callers t = .idle

/-- A call begins at the first operation of its loop. -/
theorem load_of_calls (sound : Sound L s) (h : next L s (.call t x.1 x.2 (some w)) = some s') :
    ∃ p, s.sockets x.1 = .live p ∧ s'.sockets x.1 = .live p ∧
      s'.callers t = .call x.1 x.2 (some w) .load := by
  obtain ⟨-, p, hLive, rfl⟩ := next_call h
  refine ⟨p, hLive, hLive, ?_⟩
  rw [callers_setCaller, if_pos (sound.owns.used x.1 p.index (by rw [hLive]; rfl)).2]

/-- In every orderly run the calls with a waker behave fairly. A call takes at most one
turn more than the budget it finds, so 129 at the most, and between two yields of a pair
at most 128 turns come to `do_io`. A call that returns `Pending` leaves its waker
registered, has yielded, or its waker has been taken by a wake. No call is ever stuck,
and it returns unless its `do_io` is interrupted for ever. -/
theorem polls_fairly {steps : List (State T V W × Event T V W)}
    (run : (system T V W L).Run steps s) (orderly : Meets Orderly steps) : PollsFairly L steps s where
  turns := by
    rintro x t w before y after rfl hEvent hCalls
    obtain ⟨u, hBefore, hNext, hAfter⟩ := System.Path.split run
    rw [meets_append, meets_cons] at orderly
    have ordered := inOrder_run hBefore orderly.1
    have orderedU := ordered.next orderly.2.1 hNext
    rw [hEvent] at hNext
    obtain ⟨p, hLive, hLive', hCall⟩ := load_of_calls ordered.fine.sound hNext
    have start : Turns x w t (p.budgets x.2).toNat 0 u :=
      ⟨Nat.zero_le _, .inr ⟨.load, p, hCall, hLive', .inr (by simp [Line.spent])⟩⟩
    have hBound := ordered.budgeted.bounded x.1 p x.2 hLive
    exact ⟨p, hLive, (turns_path orderedU start hAfter orderly.2.2 hCalls).1, by omega⟩
  reached := by
    rintro x before middle after rfl hYields
    obtain ⟨u, hBefore, hRest⟩ := System.Path.cut run
    obtain ⟨v, hMiddle, -⟩ := hRest.cut
    rw [meets_append, meets_append] at orderly
    exact (room_path (inOrder_run hBefore orderly.1) hMiddle orderly.2.1 hYields).bounded
  pending := by
    rintro x t w before y middle z rfl hEvent hCalls hStep hIdle
    obtain ⟨u, hBefore, hNext, hRest⟩ := System.Path.split run
    obtain ⟨hMiddle, hLast⟩ := hRest.unsnoc
    rw [meets_append, meets_cons, meets_append] at orderly
    have ordered := inOrder_run hBefore orderly.1
    have orderedU := ordered.next orderly.2.1 hNext
    rw [hEvent] at hNext
    obtain ⟨p, -, -, hCall⟩ := load_of_calls ordered.fine.sound hNext
    have inCall := inCall_path orderedU (.inr ⟨.load, hCall, trivial, trivial⟩) hMiddle orderly.2.2.1
      hCalls
    obtain ⟨v, e⟩ := z
    obtain rfl : e = .step t := hStep
    exact leaves_of_returns (orderedU.path hMiddle orderly.2.2.1) inCall hLast hIdle
  enabled := by
    intro t id kind ctx line hCall
    by_cases hLine : line = .inIo
    · exact .inl hLine
    · exact .inr (step_enabled (inOrder_run run orderly).fine.sound hCall hLine)
  returns := by
    rintro rest x t w line rfl hCall orderly' runs ends
    exact returns_of_runs (inOrder_run run orderly) orderly' runs ends hCall

/-- The run of one event, up to the second call's load of its budget. -/
theorem polls_fairly_oneEvent :
    ∃ (s : State Unit Unit Unit) (steps : List (State Unit Unit Unit × Event Unit Unit Unit)),
      PollsFairly ⟨1, 1, by decide, by decide, by decide, by decide⟩ steps s ∧
        s.callers () = .call 0 .Read (some ()) .loadBudget := by
  let m := system Unit Unit Unit ⟨1, 1, by decide, by decide, by decide, by decide⟩
  obtain ⟨s, run, hCaller⟩ := m.exists_run_of_replay oneEvent (fun s => s.callers ())
    (.call 0 .Read (some ()) .loadBudget) (by decide)
  exact ⟨s, _, polls_fairly run (orderly_of_lockFree run (by decide)), hCaller⟩

end Yaar.Net.PollIo
