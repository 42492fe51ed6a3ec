import Yaar.Data.Tally
import Yaar.Net.PollIoShared

/-! The count of pending I/O under calls that overlap. It may be too high, but every flag
that is set is covered by it. -/
namespace Yaar.Net.PollIo

open Machine AtomicWaker

variable {T V W : Type*} [Fintype T] [DecidableEq T] [DecidableEq V] [DecidableEq W] {L : Layout}
  {s s' : State T V W}

/-- A call is between the count of its completion and the store of its flag. -/
def Completing (s : State T V W) (x : SocketId × WakerKind) : Prop :=
  ∃ t ctx, s.callers t = .call x.1 x.2 ctx .storeCompleted

/-- The pairs that have a count to give back: their flag is set and no call is between
the count of its completion and the store of the flag. -/
def Owing (s : State T V W) : Set (SocketId × WakerKind) :=
  {x | (s.sockets x.1).owed x.2 = true ∧ ¬Completing s x}

/-- A call that has counted and not yet set the flag. -/
def Caller.begun : Caller W → Nat
  | .call _ _ _ .storePending => 1
  | _ => 0

/-- Calls that overlap may count a pair twice, but none gives back what was not counted. -/
structure Covered (s : State T V W) : Prop where
  finite : (Owing s).Finite
  count : (Owing s).ncard + Tally.total Caller.begun s.callers ≤ s.pending
  bound : s.pending ≤ usizeMAX

namespace Covered

omit [DecidableEq T] [DecidableEq V] [DecidableEq W]

variable {x : SocketId × WakerKind}

/-- Nothing is counted, and no more is owed. -/
theorem less (covered : Covered s) (hOwing : Owing s' ⊆ Owing s)
    (hBegun : Tally.total Caller.begun s'.callers ≤ Tally.total Caller.begun s.callers)
    (hPending : s'.pending = s.pending) : Covered s' := by
  have hCount := covered.count
  have hCard := Set.ncard_le_ncard hOwing covered.finite
  exact ⟨covered.finite.subset hOwing, by omega, hPending ▸ covered.bound⟩

/-- A call counts before it sets the flag. -/
theorem begins (covered : Covered s) (hOwing : Owing s' ⊆ Owing s)
    (hBegun : Tally.total Caller.begun s'.callers ≤ Tally.total Caller.begun s.callers + 1)
    (hPending : s'.pending = fetchAdd s.pending) (hRoom : s.pending ≠ usizeMAX) : Covered s' := by
  have hCount := covered.count
  have hBound := covered.bound
  have hCard := Set.ncard_le_ncard hOwing covered.finite
  have hSucc : s'.pending = s.pending + 1 := by
    rw [hPending, fetchAdd]
    refine Nat.mod_eq_of_lt ?_
    unfold usizeMAX at hBound hRoom
    omega
  exact ⟨covered.finite.subset hOwing, by omega, by omega⟩

/-- A call sets the flag for its count. -/
theorem stores (covered : Covered s) (hOwing : Owing s' ⊆ insert x (Owing s))
    (hBegun : Tally.total Caller.begun s'.callers + 1 = Tally.total Caller.begun s.callers)
    (hPending : s'.pending = s.pending) : Covered s' := by
  have hCount := covered.count
  have hCard := Set.ncard_le_ncard hOwing (covered.finite.insert x)
  have hInsert := Set.ncard_insert_le x (Owing s)
  exact ⟨(covered.finite.insert x).subset hOwing, by omega, hPending ▸ covered.bound⟩

/-- What is owed has been counted. -/
theorem pos (covered : Covered s) (hOwes : x ∈ Owing s) : s.pending ≠ 0 := by
  have hCount := covered.count
  have hCard := (Set.ncard_pos covered.finite).mpr ⟨x, hOwes⟩
  omega

/-- A count that is owed is given back. -/
theorem completes (covered : Covered s) (hOwes : x ∈ Owing s) (hOwing : Owing s' ⊆ Owing s \ {x})
    (hBegun : Tally.total Caller.begun s'.callers ≤ Tally.total Caller.begun s.callers)
    (hPending : s'.pending = fetchSub s.pending) : Covered s' := by
  have hCount := covered.count
  have hBound := covered.bound
  have hSome := covered.pos hOwes
  have hCard := Set.ncard_le_ncard hOwing covered.finite.sdiff
  have hLess := Set.ncard_sdiff_singleton_add_one hOwes covered.finite
  have hPred : s'.pending = s.pending - 1 := by
    rw [hPending, fetchSub]
    unfold usizeMAX at hBound ⊢
    omega
  exact ⟨covered.finite.sdiff.subset hOwing, by omega, by omega⟩

end Covered

section Counting

variable {t : T} {id : SocketId} {kind : WakerKind} {ctx : Option W} {p p' : Pollable}
  {caller : Caller W} {line : Line W}

omit [Fintype T] [DecidableEq V] [DecidableEq W] in
/-- The pairs that owe a count after an operation of a call: none but those that did and
those whose flag it has set. -/
theorem owing_calling (added : Set (SocketId × WakerKind)) (hLive : s.sockets id = .live p)
    (hCall : s.callers t = .call id kind ctx line) (done : Calling s s' t id kind p p' caller)
    (hFlags : ∀ k, p'.pendings k = true → p.pendings k = true ∨ (id, k) ∈ added)
    (hLine : line = .storeCompleted → p'.pendings kind = false) :
    Owing s' ⊆ added ∪ Owing s := by
  rintro ⟨id', k⟩ ⟨hOwed, hCompleting⟩
  by_cases hAdded : (id', k) ∈ added
  · exact .inl hAdded
  refine .inr ⟨?_, ?_⟩
  · rw [done.sockets] at hOwed
    by_cases hEq : id' = id
    · subst hEq
      rw [Function.update_self] at hOwed
      rw [hLive]
      exact (hFlags k hOwed).resolve_right hAdded
    · rwa [Function.update_of_ne hEq] at hOwed
  · rintro ⟨u, ctx', hThere⟩
    by_cases hEq : u = t
    · subst hEq
      obtain ⟨rfl, rfl, -, rfl⟩ : id = id' ∧ kind = k ∧ ctx = ctx' ∧ line = .storeCompleted := by
        simpa [hCall] using hThere
      rw [done.sockets, Function.update_self] at hOwed
      exact absurd hOwed (by simp [Socket.owed, hLine rfl])
    · exact hCompleting ⟨u, ctx', by rw [done.callers, Function.update_of_ne hEq]; exact hThere⟩

omit [DecidableEq V] [DecidableEq W] in
/-- The calls that have counted and not stored, after an operation of one call. -/
theorem begun_calling (done : Calling s s' t id kind p p' caller) :
    Caller.begun (s.callers t) + Tally.total Caller.begun s'.callers =
      caller.begun + Tally.total Caller.begun s.callers := by
  rw [done.callers]
  exact Tally.total_update Caller.begun s.callers t caller

omit [Fintype T] [DecidableEq T] [DecidableEq V] [DecidableEq W] in
theorem begun_polled (id : SocketId) (kind : WakerKind) (ctx : Option W) (isPending : Bool)
    (at_ : AtomicWaker.Poller W) : (Caller.polled id kind ctx isPending at_).begun = 0 := by
  unfold Caller.polled
  split
  · cases isPending <;> cases ctx <;> rfl
  · cases isPending <;> rfl
  · rfl
  · rfl

omit [Fintype T] [DecidableEq T] [DecidableEq V] [DecidableEq W] in
theorem begun_resetting (id : SocketId) (kind : WakerKind) (ctx : Option W)
    (at_ : AtomicWaker.Poller W) : (Caller.resetting id kind ctx at_).begun = 0 := by
  unfold Caller.resetting
  split <;> rfl

omit [DecidableEq V] in
/-- One operation of a call that gives back no count but its own. -/
theorem Covered.callStep (covered : Covered s) (hCall : s.callers t = .call id kind ctx line)
    (hLive : s.sockets id = .live p)
    (hBegins : line = .begin → s.pending ≠ usizeMAX)
    (hCompletes : line = .complete → p.pendings kind = true ∧ ¬Completing s (id, kind))
    (h : s.callStep t id p kind ctx line = some s') : Covered s' := by
  have hCall' : ∀ line : Line W, ∀ x, (Caller.call id kind ctx line).pair? = some x →
      x = (id, kind) := fun line x hx => by simpa [Caller.pair?] using hx.symm
  -- All but three operations leave the counts, and set no flag.
  have hLess : ∀ {p' : Pollable} {caller : Caller W}, Calling s s' t id kind p p' caller →
      (∀ k, p'.pendings k = true → p.pendings k = true) →
      (line = .storeCompleted → p'.pendings kind = false) → caller.begun = 0 →
      s'.pending = s.pending → Covered s' := by
    intro p' caller done hFlags hLine hNone hPending
    have hTotal := begun_calling done
    refine covered.less ?_ (by omega) hPending
    have hOwing := owing_calling ∅ hLive hCall done (fun k hk => .inl (hFlags k hk)) hLine
    rwa [Set.empty_union] at hOwing
  cases line with
  | inIo => simp [State.callStep] at h
  | load | loadBudget | doIo =>
      obtain rfl := Option.some.inj h
      exact hLess (.of_setCaller hLive (hCall' _)) (fun _ hk => hk) (by simp) rfl rfl
  | yield =>
      obtain rfl := Option.some.inj h
      exact hLess (.of_setCaller hLive fun x hx => by simp [Caller.pair?] at hx) (fun _ hk => hk)
        (by simp) rfl rfl
  | poll isPending at_ =>
      obtain ⟨r, -, rfl⟩ := Option.map_eq_some_iff.mp h
      exact hLess (.of_setCell hLive fun x => pair_polled) (fun _ hk => hk) (by simp)
        (begun_polled id kind ctx isPending r.2) rfl
  | reset at_ =>
      obtain ⟨r, -, rfl⟩ := Option.map_eq_some_iff.mp h
      exact hLess (.of_setCell hLive fun x => pair_resetting) (fun _ hk => hk) (by simp)
        (begun_resetting id kind ctx r.2) rfl
  | storeBudget budget =>
      obtain rfl := Option.some.inj h
      refine hLess (.of_setSocket rfl (hCall' _)) (fun _ hk => hk) (by simp) ?_ rfl
      split <;> rfl
  | storeCompleted =>
      obtain rfl := Option.some.inj h
      refine hLess (.of_setSocket rfl (hCall' _)) (fun k hk => ?_) (fun _ => ?_) ?_ rfl
      · by_cases hKind : k = kind
        · subst hKind
          simp [Pollable.setPending] at hk
        · simpa [Pollable.setPending, hKind] using hk
      · simp [Pollable.setPending]
      · cases ctx <;> rfl
  | begin =>
      have hRoom := hBegins rfl
      simp only [State.callStep, if_neg hRoom] at h
      obtain rfl := Option.some.inj h
      have done : Calling s ({ s with pending := fetchAdd s.pending }.setCaller t
          (.call id kind ctx .storePending)) t id kind p p (.call id kind ctx .storePending) :=
        .of_setCaller hLive (hCall' _)
      have hTotal := begun_calling done
      have hOwing := owing_calling ∅ hLive hCall done (fun _ hk => .inl hk) (by simp)
      rw [Set.empty_union] at hOwing
      refine covered.begins hOwing ?_ rfl hRoom
      simp only [Caller.begun] at hTotal
      omega
  | storePending =>
      obtain rfl := Option.some.inj h
      have done : Calling s ((s.setSocket id (.live (p.setPending kind true))).setCaller t .idle) t
          id kind p (p.setPending kind true) .idle :=
        .of_setSocket rfl fun x hx => by simp [Caller.pair?] at hx
      have hTotal := begun_calling done
      rw [hCall] at hTotal
      refine covered.stores (x := (id, kind)) (owing_calling {(id, kind)} hLive hCall done (fun k hk => ?_) (by simp)) ?_ rfl
      · by_cases hKind : k = kind
        · exact .inr (by rw [hKind]; rfl)
        · exact .inl (by simpa [Pollable.setPending, hKind] using hk)
      · simp only [Caller.begun] at hTotal
        omega
  | complete =>
      obtain ⟨hFlag, hCompleting⟩ := hCompletes rfl
      have hOwes : (id, kind) ∈ Owing s := ⟨by rw [hLive]; exact hFlag, hCompleting⟩
      simp only [State.callStep, if_neg (covered.pos hOwes)] at h
      obtain rfl := Option.some.inj h
      have done : Calling s ({ s with pending := fetchSub s.pending }.setCaller t
          (.call id kind ctx .storeCompleted)) t id kind p p (.call id kind ctx .storeCompleted) :=
        .of_setCaller hLive (hCall' _)
      have hTotal := begun_calling done
      have hOwing := owing_calling ∅ hLive hCall done (fun _ hk => .inl hk) (by simp)
      rw [Set.empty_union] at hOwing
      refine covered.completes hOwes (fun x hx => ⟨hOwing hx, ?_⟩) ?_ rfl
      · rintro rfl
        exact hx.2 ⟨t, ctx, callers_setCaller ..⟩
      · simp only [Caller.begun] at hTotal
        omega

end Counting

/-! ## Drops -/

/-- A drop has not failed, and is about to give back a count only for a flag that is set. -/
def DropsFine (s : State T V W) : Prop :=
  ∀ id p at_, s.sockets id = .dropping p at_ →
    at_ ≠ .panicked ∧ ∀ kind, at_ = .complete kind → p.pendings kind = true

section Drops

omit [Fintype T] [DecidableEq T] [DecidableEq V] [DecidableEq W]

variable {id : SocketId} {socket : Socket} {p : Pollable} {at_ : Dropping}

/-- A socket that comes to be dropped owes a count only for a flag that is set. -/
theorem DropsFine.setSocket (fine : DropsFine s)
    (hSockets : s'.sockets = Function.update s.sockets id socket)
    (hSocket : ∀ p at_, socket = .dropping p at_ →
      at_ ≠ .panicked ∧ ∀ kind, at_ = .complete kind → p.pendings kind = true) : DropsFine s' := by
  intro id' p at_ h
  rw [hSockets] at h
  by_cases hEq : id' = id
  · rw [hEq, Function.update_self] at h
    exact hSocket p at_ h
  · rw [Function.update_of_ne hEq] at h
    exact fine id' p at_ h

/-- A socket with fewer flags to give back owes no more than before. -/
theorem owing_setSocket (hCallers : s'.callers = s.callers)
    (hSockets : s'.sockets = Function.update s.sockets id socket)
    (hOwed : ∀ k, socket.owed k = true → (s.sockets id).owed k = true) : Owing s' ⊆ Owing s := by
  rintro ⟨id', k⟩ ⟨hThere, hCompleting⟩
  refine ⟨?_, ?_⟩
  · rw [hSockets] at hThere
    by_cases hEq : id' = id
    · subst hEq
      rw [Function.update_self] at hThere
      exact hOwed k hThere
    · rwa [Function.update_of_ne hEq] at hThere
  · unfold Completing at hCompleting ⊢
    rwa [hCallers] at hCompleting

variable [Fintype T]

/-- A socket changes that owes no more than before. -/
theorem Covered.setSocket (covered : Covered s) (hCallers : s'.callers = s.callers)
    (hSockets : s'.sockets = Function.update s.sockets id socket)
    (hOwed : ∀ k, socket.owed k = true → (s.sockets id).owed k = true)
    (hPending : s'.pending = s.pending) : Covered s' :=
  covered.less (owing_setSocket hCallers hSockets hOwed) (by rw [hCallers]) hPending

/-- One operation of a drop: it gives back the counts of the flags that it finds set. -/
theorem Covered.dropStep [DecidableEq V] (covered : Covered s) (fine : DropsFine s) (owns : Owns L s)
    (hDropping : s.sockets id = .dropping p at_) (h : s.dropStep id p at_ = some s') :
    Covered s' ∧ DropsFine s' := by
  have hOwed : ∀ k, (s.sockets id).owed k = (p.pendings k && at_.owes k) := fun k => by
    rw [hDropping]
    rfl
  have hAfter : ∀ k, Dropping.after k ≠ .panicked ∧ ∀ kind, Dropping.after k ≠ .complete kind := by
    intro k
    cases k <;> simp [Dropping.after]
  cases at_ with
  | wake kind =>
      simp only [State.dropStep] at h
      split at h
      · simp at h
      · obtain rfl := Option.some.inj h
        refine ⟨covered.setSocket rfl rfl (fun k hk => by rwa [hOwed]) rfl, fine.setSocket rfl ?_⟩
        rintro p' at_ h'
        cases h'
        simp
      · obtain rfl := Option.some.inj h
        refine ⟨covered.setSocket rfl rfl (fun k hk => ?_) rfl, fine.setSocket rfl ?_⟩
        · rw [hOwed]
          simp only [Socket.owed, Bool.and_eq_true] at hk ⊢
          exact ⟨hk.1, rfl⟩
        · rintro p' at_ h'
          cases h'
          simp
  | load kind =>
      obtain rfl := Option.some.inj h
      have hLoad : (Dropping.load kind).owes = (Dropping.complete kind).owes := by
        cases kind <;> rfl
      by_cases hFlag : p.pendings kind = true
      · rw [if_pos hFlag]
        refine ⟨covered.setSocket rfl rfl (fun k hk => ?_) rfl, fine.setSocket rfl ?_⟩
        · rw [hOwed, hLoad]
          exact hk
        · rintro p' at_ h'
          cases h'
          exact ⟨by simp, fun k hk => by rwa [← Dropping.complete.inj hk]⟩
      · rw [if_neg hFlag]
        refine ⟨covered.setSocket rfl rfl (fun k hk => ?_) rfl, fine.setSocket rfl ?_⟩
        · rw [hOwed, hLoad]
          simp only [Socket.owed, owes_after, Bool.and_eq_true] at hk ⊢
          exact ⟨hk.1, hk.2.1⟩
        · rintro p' at_ h'
          cases h'
          exact ⟨(hAfter kind).1, fun k hk => absurd hk ((hAfter kind).2 k)⟩
  | complete kind =>
      have hFlag : p.pendings kind = true := (fine id p _ hDropping).2 kind rfl
      have hSelf : (Dropping.complete kind).owes kind = true := by cases kind <;> rfl
      have hNobody : ¬Completing s (id, kind) := by
        rintro ⟨t, ctx, hCall⟩
        obtain ⟨q, hLive⟩ := owns.live hCall
        simp [hDropping] at hLive
      have hOwes : (id, kind) ∈ Owing s := ⟨by rw [hOwed, hFlag, hSelf]; rfl, hNobody⟩
      simp only [State.dropStep, if_neg (covered.pos hOwes)] at h
      have hNext := Option.some.inj h
      have hCallers : s'.callers = s.callers := by rw [← hNext, State.setSocket]
      have hSockets : s'.sockets = Function.update s.sockets id (.dropping p (.after kind)) := by
        rw [← hNext, State.setSocket]
      have hPending : s'.pending = fetchSub s.pending := by rw [← hNext, State.setSocket]
      have hOwing : Owing s' ⊆ Owing s := owing_setSocket hCallers hSockets fun k hk => by
        rw [hOwed]
        simp only [Socket.owed, owes_after, Bool.and_eq_true] at hk ⊢
        exact ⟨hk.1, hk.2.1⟩
      refine ⟨covered.completes hOwes (fun x hx => ⟨hOwing hx, ?_⟩) (by rw [hCallers]) hPending,
        fine.setSocket hSockets ?_⟩
      · rintro rfl
        have hThere := hx.1
        rw [hSockets, Function.update_self] at hThere
        simp [Socket.owed, owes_after] at hThere
      · rintro p' at_ h'
        cases h'
        exact ⟨(hAfter kind).1, fun k hk => absurd hk ((hAfter kind).2 k)⟩
  | free =>
      obtain rfl := Option.some.inj h
      refine ⟨covered.setSocket rfl rfl (fun k hk => by simp [Socket.owed] at hk) rfl,
        fine.setSocket rfl ?_⟩
      rintro p' at_ h'
      cases h'
  | panicked => simp [State.dropStep] at h

end Drops

section Steps

variable {e : Event T V W}

omit [DecidableEq V] [DecidableEq W] in
/-- A caller moves outside of the counts. -/
theorem Covered.setCaller {t : T} {caller : Caller W} (covered : Covered s)
    (hBefore : ∀ id kind ctx, s.callers t ≠ .call id kind ctx .storeCompleted)
    (hAfter : caller.begun = 0) : Covered (s.setCaller t caller) := by
  have hTotal : Caller.begun (s.callers t) + Tally.total Caller.begun (s.setCaller t caller).callers =
      caller.begun + Tally.total Caller.begun s.callers :=
    Tally.total_update Caller.begun s.callers t caller
  refine covered.less (fun x hx => ⟨hx.1, ?_⟩) (by omega) rfl
  rintro ⟨u, ctx, hThere⟩
  have hNe : u ≠ t := by
    rintro rfl
    exact hBefore _ _ _ hThere
  exact hx.2 ⟨u, ctx, by rw [← hThere]; exact Function.update_of_ne hNe ..⟩

/-- The count covers what is owed, in every step. A call that completes finds its flag
set and is alone with it. -/
theorem covered_next (covered : Covered s) (fine : DropsFine s) (owns : Owns L s)
    (hBegins : ∀ t x p, Operates s e t x p .begin → s.pending ≠ usizeMAX)
    (hCompletes : ∀ t x p, Operates s e t x p .complete → p.pendings x.2 = true ∧ ¬Completing s x)
    (h : next L s e = some s') : Covered s' ∧ DropsFine s' := by
  cases e with
  | alloc id =>
      obtain ⟨-, index?, storage, -, rfl⟩ := next_alloc h
      refine ⟨covered.setSocket rfl rfl (fun k hk => ?_) rfl, fine.setSocket rfl fun p at_ hEq => ?_⟩
      · cases index? <;> simp [Socket.owed] at hk
      · cases index? <;> simp at hEq
  | register id ok =>
      obtain ⟨index, -, rfl | rfl⟩ := next_register h
      · exact ⟨covered.setSocket rfl rfl (fun k hk => by simp [Socket.owed, Pollable.new] at hk) rfl,
          fine.setSocket rfl fun p at_ hEq => by simp at hEq⟩
      · exact ⟨covered.setSocket rfl rfl (fun k hk => by simp [Socket.owed] at hk) rfl,
          fine.setSocket rfl fun p at_ hEq => by simp at hEq⟩
  | call t id kind ctx =>
      obtain ⟨hIdle, p, hLive, rfl⟩ := next_call h
      refine ⟨covered.setCaller (by simp [hIdle]) ?_, fine⟩
      split <;> rfl
  | step t =>
      obtain ⟨id, kind, ctx, line, p, hCall, hLive, hStep⟩ := next_step h
      have operates : Operates s (.step t) t (id, kind) p line := ⟨rfl, ⟨ctx, hCall⟩, hLive⟩
      refine ⟨covered.callStep hCall hLive (fun hLine => ?_) (fun hLine => ?_) hStep, ?_⟩
      · exact hBegins t (id, kind) p (hLine ▸ operates)
      · exact hCompletes t (id, kind) p (hLine ▸ operates)
      · obtain ⟨p', caller, done⟩ := callStep_calling hLive hStep
        exact fine.setSocket done.sockets fun p at_ hEq => by simp at hEq
  | doIo t result =>
      obtain ⟨id, kind, ctx, hCall, rfl⟩ := next_doIo h
      refine ⟨covered.setCaller (by simp [hCall]) ?_, fine⟩
      cases result <;> rfl
  | drop id =>
      obtain ⟨p, hLive, hFree, rfl⟩ := next_drop h
      rw [if_pos (owns.used id p.index (by rw [hLive]; rfl)).2]
      refine ⟨covered.setSocket rfl rfl (fun k hk => ?_) rfl, fine.setSocket rfl ?_⟩
      · rw [hLive]
        simpa [Socket.owed, Dropping.owes] using hk
      · rintro p' at_ h'
        cases h'
        simp
  | dropping id =>
      obtain ⟨p, at_, hDropping, hStep⟩ := next_dropping h
      exact covered.dropStep fine owns hDropping hStep
  | wake v index kind =>
      obtain ⟨-, -, rfl⟩ := next_wake h
      exact ⟨⟨covered.finite, covered.count, covered.bound⟩, fine⟩
  | waker u =>
      obtain ⟨wake, cell, at_, -, -, rfl⟩ := next_waker h
      exact ⟨⟨covered.finite, covered.count, covered.bound⟩, fine⟩

end Steps

end Yaar.Net.PollIo
