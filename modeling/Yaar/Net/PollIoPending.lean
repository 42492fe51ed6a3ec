import Mathlib.Data.Set.Card
import Yaar.Net.PollIo

/-! The count of pending I/O over the calls and drops of the sockets of a poller. -/
namespace Yaar.Net.PollIo

open Machine

variable {T V W : Type*}

/-- Between a count of `pending` and the store of the flag that records it. -/
def Line.stores : Line W → Bool
  | .storePending | .storeCompleted => true
  | _ => false

def Caller.stores : Caller W → Bool
  | .call _ _ _ line => line.stores
  | _ => false

/-- What a call knows of the flag of its pair. -/
def Line.Agrees (flag : Bool) : Line W → Prop
  | .poll isPending _ => isPending = flag
  | .begin | .storePending => flag = false
  | .complete | .storeCompleted => flag = true
  | _ => True

def Caller.Agrees (flag : Bool) : Caller W → Prop
  | .call _ _ _ line => line.Agrees flag
  | _ => True

/-- A drop has not yet come past the flag of a kind. -/
def Dropping.owes : Dropping → WakerKind → Bool
  | .wake _, _ | .load .Read, _ | .complete .Read, _ => true
  | .load .Write, kind | .complete .Write, kind => kind = .Write
  | .free, _ | .panicked, _ => false

/-- The flag of a kind is set and its count is not given back by a drop. -/
def Socket.owed : Socket → WakerKind → Bool
  | .live p, kind => p.pendings kind
  | .dropping p at_, kind => p.pendings kind && at_.owes kind
  | _, _ => false

/-- A call of the pair has counted and not stored. -/
def Transit (s : State T V W) (x : SocketId × WakerKind) : Prop :=
  ∃ t, (s.callers t).pair? = some x ∧ (s.callers t).stores = true

/-- The pairs that `pending` counts: those with their flag set, but for a call that
has changed the count and not the flag. -/
def Counted (s : State T V W) : Set (SocketId × WakerKind) :=
  {x | ¬((s.sockets x.1).owed x.2 = true ↔ Transit s x)}

/-- Each kind of a socket has one caller at a time. -/
def OneCaller (s : State T V W) : Event T V W → Prop
  | .call _ id kind _ => ∀ t, (s.callers t).pair? ≠ some (id, kind)
  | _ => True

/-- No `poll_io`, `try_io` or drop is in progress. -/
structure BetweenCalls (s : State T V W) : Prop where
  calls : ∀ t, (s.callers t).pair? = none
  drops : ∀ id p at_, s.sockets id ≠ .dropping p at_

/-- The live pairs with their flag set. -/
def Flagged (s : State T V W) : Set (SocketId × WakerKind) :=
  {x | ∃ p, s.sockets x.1 = .live p ∧ p.pendings x.2 = true}

/-- The counts are right and their assertions hold. -/
structure Exact (s : State T V W) : Prop where
  exclusive : ∀ t u x, (s.callers t).pair? = some x → (s.callers u).pair? = some x → t = u
  agrees : ∀ t id kind p, (s.callers t).pair? = some (id, kind) → s.sockets id = .live p →
    (s.callers t).Agrees (p.pendings kind)
  drops : ∀ id p at_, s.sockets id = .dropping p at_ →
    at_ ≠ .panicked ∧ ∀ kind, at_ = .complete kind → p.pendings kind = true
  calls : ∀ t, s.callers t ≠ .panicked .begin ∧ s.callers t ≠ .panicked .complete
  finite : (Counted s).Finite
  pending : s.pending = (Counted s).ncard

variable {s s' : State T V W}

theorem mem_counted {x : SocketId × WakerKind} :
    x ∈ Counted s ↔ ¬((s.sockets x.1).owed x.2 = true ↔ Transit s x) := Iff.rfl

/-! ## The bound on the count -/

theorem owed_index {socket : Socket} {kind : WakerKind} (h : socket.owed kind = true) :
    ∃ index, socket.index? = some index := by
  cases socket with
  | live p => exact ⟨_, rfl⟩
  | dropping p at_ => exact ⟨_, rfl⟩
  | absent | allocated index | dropped => simp [Socket.owed] at h

/-- A counted pair has a slot. -/
theorem counted_index {L : Layout} (owns : Owns L s) {x : SocketId × WakerKind}
    (h : x ∈ Counted s) : ∃ index, (s.sockets x.1).index? = some index := by
  by_cases hOwed : (s.sockets x.1).owed x.2 = true
  · exact owed_index hOwed
  · obtain ⟨t, hPair, -⟩ : Transit s x := by
      by_contra hNot
      exact h (iff_of_false hOwed hNot)
    obtain ⟨p, hLive⟩ := owns.calls t x hPair
    exact ⟨p.index, by rw [hLive]; rfl⟩

/-- A slot as a number, and one more bit for the kind. -/
def code (index : WakerIndex) (kind : WakerKind) : Nat :=
  2 * index.into + if kind = .Read then 0 else 1

/-- Two slots, or the two kinds of one slot, have two codes. -/
theorem code_inj {index index' : WakerIndex} {kind kind' : WakerKind}
    (h : code index kind = code index' kind') : index = index' ∧ kind = kind' := by
  have hInto : index.into = index'.into := by
    unfold code at h
    split at h <;> split at h <;> omega
  have hIndex : index = index' := by
    rw [← WakerIndex.ofUsize_into index, hInto, WakerIndex.ofUsize_into]
  refine ⟨hIndex, ?_⟩
  subst hIndex
  cases kind <;> cases kind' <;> simp [code] at h ⊢

/-- The codes are below `2 ^ 33`, as an index has 32 bits. -/
theorem code_lt (index : WakerIndex) (kind : WakerKind) : code index kind < 2 ^ 33 := by
  have hInto := index.into_lt
  unfold code
  split <;> omega

/-- There are fewer pairs than the counter can hold. -/
theorem counted_lt {L : Layout} (owns : Owns L s) : (Counted s).ncard ≤ 2 ^ 33 := by
  classical
  have hCode : ∀ x ∈ Counted s, ∃ index, (s.sockets x.1).index? = some index :=
    fun x hx => counted_index owns hx
  have : Nonempty WakerIndex := ⟨⟨0, 0⟩⟩
  choose! index hIndex using hCode
  have hInj : Set.InjOn (fun x => code (index x) x.2) (Counted s) := by
    intro x hx y hy hEq
    obtain ⟨hSlot, hKind⟩ := code_inj hEq
    exact Prod.ext (owns.apart _ _ _ (hIndex x hx) (hSlot ▸ hIndex y hy)) hKind
  have hMaps : ∀ x ∈ Counted s, code (index x) x.2 ∈ (Finset.range (2 ^ 33) : Set Nat) :=
    fun x _ => by simpa using code_lt (index x) x.2
  have hCard := Set.ncard_le_ncard_of_injOn _ hMaps hInj (Finset.finite_toSet _)
  rwa [Set.ncard_coe_finset, Finset.card_range] at hCard

/-! ## Calls -/

/-- With one caller for each pair the call decides whether the pair is in transit. -/
theorem transit_iff {t : T} {x : SocketId × WakerKind}
    (exclusive : ∀ t u x, (s.callers t).pair? = some x → (s.callers u).pair? = some x → t = u)
    (hPair : (s.callers t).pair? = some x) : Transit s x ↔ (s.callers t).stores = true := by
  constructor
  · rintro ⟨u, hu, hStores⟩
    rwa [exclusive t u x hPair hu]
  · exact fun h => ⟨t, hPair, h⟩

/-- A caller of another pair has no part in the count of this one. -/
theorem transit_setCaller [DecidableEq T] {t : T} {caller : Caller W} {x : SocketId × WakerKind}
    (hCallers : s'.callers = Function.update s.callers t caller)
    (hBefore : (s.callers t).pair? ≠ some x ∨ (s.callers t).stores = false)
    (hAfter : caller.pair? ≠ some x ∨ caller.stores = false) : Transit s' x ↔ Transit s x := by
  unfold Transit
  rw [hCallers]
  constructor
  · rintro ⟨u, hu, hStores⟩
    by_cases hEq : u = t
    · subst hEq
      rw [Function.update_self] at hu hStores
      exact (hAfter.elim (fun h => h hu) fun h => by simp [h] at hStores).elim
    · rw [Function.update_of_ne hEq] at hu hStores
      exact ⟨u, hu, hStores⟩
  · rintro ⟨u, hu, hStores⟩
    have hNe : u ≠ t := by
      rintro rfl
      exact hBefore.elim (fun h => h hu) fun h => by simp [h] at hStores
    exact ⟨u, by rwa [Function.update_of_ne hNe], by rwa [Function.update_of_ne hNe]⟩

/-- The count of a pair during a call for it. -/
theorem mem_counted_call {t : T} {id : SocketId} {kind : WakerKind} {p : Pollable}
    (exclusive : ∀ t u x, (s.callers t).pair? = some x → (s.callers u).pair? = some x → t = u)
    (hPair : (s.callers t).pair? = some (id, kind)) (hLive : s.sockets id = .live p) :
    (id, kind) ∈ Counted s ↔ (p.pendings kind ^^ (s.callers t).stores) = true := by
  rw [mem_counted, transit_iff exclusive hPair, hLive]
  simp only [Socket.owed]
  cases p.pendings kind <;> cases (s.callers t).stores <;> simp

/-- A step of a call as the counts see it. -/
structure Counting (s s' : State T V W) (kind : WakerKind) (p p' : Pollable)
    (line : Line W) (caller : Caller W) : Prop where
  other : ∀ k, k ≠ kind → p'.pendings k = p.pendings k
  agrees : caller.Agrees (p'.pendings kind)
  sound : caller ≠ .panicked .begin ∧ caller ≠ .panicked .complete
  moves :
    (s'.pending = s.pending ∧ (p'.pendings kind ^^ caller.stores) = (p.pendings kind ^^ line.stores)) ∨
    (s'.pending = fetchAdd s.pending ∧
      (p'.pendings kind ^^ caller.stores) = true ∧ (p.pendings kind ^^ line.stores) = false) ∨
    (s'.pending = fetchSub s.pending ∧
      (p'.pendings kind ^^ caller.stores) = false ∧ (p.pendings kind ^^ line.stores) = true)

/-- After the `poll` a call still knows the flag that it has loaded. -/
theorem agrees_polled (id : SocketId) (kind : WakerKind) (ctx : Option W) (isPending : Bool)
    (at_ : AtomicWaker.Poller W) : (Caller.polled id kind ctx isPending at_).Agrees isPending ∧
      (Caller.polled id kind ctx isPending at_).stores = false := by
  unfold Caller.polled
  split
  · cases isPending <;> cases ctx <;> simp [Caller.Agrees, Line.Agrees, Caller.stores, Line.stores,
      Line.spend]
  · cases isPending <;> simp [Caller.Agrees, Line.Agrees, Caller.stores, Line.stores]
  · exact ⟨trivial, rfl⟩
  · exact ⟨rfl, rfl⟩

theorem polled_ne_count (id : SocketId) (kind : WakerKind) (ctx : Option W) (isPending : Bool)
    (at_ : AtomicWaker.Poller W) :
    Caller.polled id kind ctx isPending at_ ≠ .panicked .begin ∧
      Caller.polled id kind ctx isPending at_ ≠ .panicked .complete := by
  unfold Caller.polled
  split <;> try simp
  split <;> simp

theorem agrees_resetting (id : SocketId) (kind : WakerKind) (ctx : Option W) (flag : Bool)
    (at_ : AtomicWaker.Poller W) : (Caller.resetting id kind ctx at_).Agrees flag ∧
      (Caller.resetting id kind ctx at_).stores = false ∧
      Caller.resetting id kind ctx at_ ≠ .panicked .begin ∧
      Caller.resetting id kind ctx at_ ≠ .panicked .complete := by
  unfold Caller.resetting
  split <;> simp [Caller.Agrees, Line.Agrees, Caller.stores, Line.stores]

theorem agrees_spend (id : SocketId) (kind : WakerKind) (ctx : Option W) (flag : Bool) :
    (Caller.call id kind ctx (.spend ctx)).Agrees flag ∧
      (Caller.call id kind ctx (.spend ctx)).stores = false := by
  cases ctx <;> simp [Caller.Agrees, Line.Agrees, Caller.stores, Line.stores, Line.spend]

/-- An operation of a call and the count: it counts, gives a count back, or changes
nothing. What it knows of the flag is why the flag and the count agree afterwards. -/
theorem callStep_counting [DecidableEq T] [DecidableEq V] [DecidableEq W] {t : T} {id : SocketId}
    {kind : WakerKind} {ctx : Option W} {p : Pollable} {line : Line W}
    (hLive : s.sockets id = .live p) (agrees : line.Agrees (p.pendings kind))
    (hRoom : s.pending ≠ usizeMAX)
    (hCounted : (p.pendings kind ^^ line.stores) = true → s.pending ≠ 0)
    (h : s.callStep t id p kind ctx line = some s') :
    ∃ p' caller, Calling s s' t id kind p p' caller ∧ Counting s s' kind p p' line caller := by
  have hCall : ∀ line : Line W, ∀ x, (Caller.call id kind ctx line).pair? = some x →
      x = (id, kind) := fun line x hx => by simpa [Caller.pair?] using hx.symm
  cases line with
  | load =>
      obtain rfl := Option.some.inj h
      exact ⟨p, _, .of_setCaller hLive (hCall _), fun _ _ => rfl, rfl, by simp, .inl ⟨rfl, rfl⟩⟩
  | loadBudget | doIo =>
      obtain rfl := Option.some.inj h
      exact ⟨p, _, .of_setCaller hLive (hCall _), fun _ _ => rfl, trivial, by simp, .inl ⟨rfl, rfl⟩⟩
  | poll isPending at_ =>
      obtain ⟨r, -, rfl⟩ := Option.map_eq_some_iff.mp h
      obtain ⟨hAgrees, hStores⟩ := agrees_polled id kind ctx isPending r.2
      have hFlag : isPending = p.pendings kind := agrees
      exact ⟨p, _, .of_setCell hLive fun x => pair_polled, fun _ _ => rfl, hFlag ▸ hAgrees,
        polled_ne_count .., .inl ⟨rfl, by rw [hStores]; rfl⟩⟩
  | begin =>
      have hFlag : p.pendings kind = false := agrees
      simp only [State.callStep, if_neg hRoom] at h
      obtain rfl := Option.some.inj h
      exact ⟨p, _, .of_setCaller hLive (hCall _), fun _ _ => rfl, hFlag, by simp,
        .inr (.inl ⟨rfl, by simp [hFlag, Caller.stores, Line.stores], by simp [hFlag, Line.stores]⟩)⟩
  | storePending =>
      obtain rfl := Option.some.inj h
      refine ⟨_, _, .of_setSocket rfl fun x hx => by simp [Caller.pair?] at hx, fun k hk => ?_,
        trivial, by simp, .inl ⟨rfl, ?_⟩⟩
      · simp [Pollable.setPending, hk]
      · have hFlag : p.pendings kind = false := agrees
        simp [Pollable.setPending, hFlag, Caller.stores, Line.stores]
  | complete =>
      have hFlag : p.pendings kind = true := agrees
      have hSome := hCounted (by simp [hFlag, Line.stores])
      simp only [State.callStep, if_neg hSome] at h
      obtain rfl := Option.some.inj h
      exact ⟨p, _, .of_setCaller hLive (hCall _), fun _ _ => rfl, hFlag, by simp,
        .inr (.inr ⟨rfl, by simp [hFlag, Caller.stores, Line.stores], by simp [hFlag, Line.stores]⟩)⟩
  | storeCompleted =>
      obtain rfl := Option.some.inj h
      obtain ⟨hAgrees, hStores⟩ := agrees_spend id kind ctx false
      have hFlag : p.pendings kind = true := agrees
      refine ⟨_, _, .of_setSocket rfl (hCall _), fun k hk => ?_, ?_, by simp, .inl ⟨rfl, ?_⟩⟩
      · simp [Pollable.setPending, hk]
      · simpa [Pollable.setPending] using hAgrees
      · rw [hStores]
        simp [Pollable.setPending, hFlag, Line.stores]
  | storeBudget budget =>
      obtain rfl := Option.some.inj h
      refine ⟨_, _, .of_setSocket rfl (hCall _), fun _ _ => rfl, ?_, by simp, .inl ⟨rfl, ?_⟩⟩
      · split <;> trivial
      · split <;> rfl
  | yield =>
      obtain rfl := Option.some.inj h
      exact ⟨p, _, .of_setCaller hLive fun x hx => by simp [Caller.pair?] at hx, fun _ _ => rfl,
        trivial, by simp, .inl ⟨rfl, rfl⟩⟩
  | inIo => simp [State.callStep] at h
  | reset at_ =>
      obtain ⟨r, -, rfl⟩ := Option.map_eq_some_iff.mp h
      obtain ⟨hAgrees, hStores, hSound⟩ := agrees_resetting id kind ctx (p.pendings kind) r.2
      exact ⟨p, _, .of_setCell hLive fun x => pair_resetting, fun _ _ => rfl, hAgrees, hSound,
        .inl ⟨rfl, by rw [hStores]; rfl⟩⟩

/-! ## The counter follows the pairs -/

theorem Exact.count_same (exact : Exact s) (hPending : s'.pending = s.pending)
    (h : ∀ x, x ∈ Counted s' ↔ x ∈ Counted s) :
    (Counted s').Finite ∧ s'.pending = (Counted s').ncard := by
  rw [Set.ext h, hPending]
  exact ⟨exact.finite, exact.pending⟩

/-- `io_pending_begin` of a pair that is not counted. -/
theorem Exact.count_add (exact : Exact s) {x : SocketId × WakerKind}
    (hPending : s'.pending = fetchAdd s.pending) (hRoom : s.pending < usizeMAX)
    (hNew : x ∉ Counted s) (hAdded : x ∈ Counted s')
    (h : ∀ y, y ≠ x → (y ∈ Counted s' ↔ y ∈ Counted s)) :
    (Counted s').Finite ∧ s'.pending = (Counted s').ncard := by
  have hSet : Counted s' = insert x (Counted s) := by
    ext y
    by_cases hEq : y = x
    · simp [hEq, hAdded]
    · simp [hEq, h y hEq]
  rw [hSet, Set.ncard_insert_of_notMem hNew exact.finite, hPending, ← exact.pending, fetchAdd,
    Nat.mod_eq_of_lt (by unfold usizeMAX at hRoom; omega)]
  exact ⟨exact.finite.insert x, rfl⟩

/-- `io_pending_complete` of a counted pair. -/
theorem Exact.count_sub (exact : Exact s) {x : SocketId × WakerKind}
    (hPending : s'.pending = fetchSub s.pending) (hRoom : s.pending ≤ usizeMAX)
    (hOld : x ∈ Counted s) (hRemoved : x ∉ Counted s')
    (h : ∀ y, y ≠ x → (y ∈ Counted s' ↔ y ∈ Counted s)) :
    (Counted s').Finite ∧ s'.pending = (Counted s').ncard := by
  have hSet : Counted s' = Counted s \ {x} := by
    ext y
    by_cases hEq : y = x
    · simp [hEq, hRemoved]
    · simp [hEq, h y hEq]
  have hSome : 0 < s.pending := by
    rw [exact.pending]
    exact (Set.ncard_pos exact.finite).mpr ⟨x, hOld⟩
  have hOne := Set.ncard_sdiff_singleton_add_one hOld exact.finite
  rw [← hSet, ← exact.pending] at hOne
  refine ⟨hSet ▸ exact.finite.subset Set.sdiff_subset, ?_⟩
  rw [hPending, fetchSub]
  unfold usizeMAX at hRoom ⊢
  omega

/-- A counted pair shows that the counter is not 0. -/
theorem Exact.pending_pos (exact : Exact s) {x : SocketId × WakerKind} (h : x ∈ Counted s) :
    s.pending ≠ 0 := by
  rw [exact.pending]
  exact ((Set.ncard_pos exact.finite).mpr ⟨x, h⟩).ne'

/-- The count cannot overflow: there are no more pairs than slots and kinds. -/
theorem Exact.pending_lt {L : Layout} (exact : Exact s) (owns : Owns L s) : s.pending < usizeMAX := by
  rw [exact.pending]
  exact (counted_lt owns).trans_lt (by decide)

section Steps

variable [DecidableEq T] {L : Layout} {t : T} {id : SocketId} {kind : WakerKind}

/-- Callers of other pairs stay apart from the one that moved. -/
theorem exclusive_update {caller : Caller W} (exact : Exact s)
    (hCallers : s'.callers = Function.update s.callers t caller)
    (hPair : ∀ x, caller.pair? = some x → ∀ u, u ≠ t → (s.callers u).pair? ≠ some x) :
    ∀ u v x, (s'.callers u).pair? = some x → (s'.callers v).pair? = some x → u = v := by
  intro u v x hu hv
  rw [hCallers] at hu hv
  by_cases hEqU : u = t <;> by_cases hEqV : v = t
  · rw [hEqU, hEqV]
  · subst hEqU
    rw [Function.update_self] at hu
    rw [Function.update_of_ne hEqV] at hv
    exact absurd hv (hPair x hu v hEqV)
  · subst hEqV
    rw [Function.update_self] at hv
    rw [Function.update_of_ne hEqU] at hu
    exact absurd hu (hPair x hv u hEqU)
  · rw [Function.update_of_ne hEqU] at hu
    rw [Function.update_of_ne hEqV] at hv
    exact exact.exclusive u v x hu hv

/-- A caller moves outside the operations on the count and the flag. -/
theorem Exact.setCaller {caller : Caller W} (exact : Exact s)
    (hBefore : (s.callers t).stores = false) (hAfter : caller.stores = false)
    (hPair : ∀ x, caller.pair? = some x → ∀ u, u ≠ t → (s.callers u).pair? ≠ some x)
    (hAgrees : ∀ flag, caller.Agrees flag)
    (hSound : caller ≠ .panicked .begin ∧ caller ≠ .panicked .complete) :
    Exact (s.setCaller t caller) := by
  have hCount : (Counted (s.setCaller t caller)).Finite ∧
      (s.setCaller t caller).pending = (Counted (s.setCaller t caller)).ncard :=
    exact.count_same rfl fun x => not_congr
      (iff_congr Iff.rfl (transit_setCaller rfl (.inr hBefore) (.inr hAfter)))
  refine ⟨exclusive_update exact rfl hPair, fun u id kind p hu hLive => ?_, exact.drops, fun u => ?_,
    hCount.1, hCount.2⟩
  · by_cases hEq : u = t
    · subst hEq
      simpa [State.setCaller] using hAgrees _
    · simp only [State.setCaller, Function.update_of_ne hEq] at hu ⊢
      exact exact.agrees u id kind p hu hLive
  · by_cases hEq : u = t
    · subst hEq
      simpa [State.setCaller] using hSound
    · simpa [State.setCaller, hEq] using exact.calls u

theorem pair_of_stores {caller : Caller W} (h : caller.stores = true) :
    ∃ x, caller.pair? = some x := by
  cases caller with
  | call id kind ctx line => exact ⟨(id, kind), rfl⟩
  | idle | panicked failure => simp [Caller.stores] at h

/-- One operation of a call. -/
theorem Exact.calling {p p' : Pollable} {line : Line W} {caller : Caller W} {ctx : Option W}
    (exact : Exact s) (owns : Owns L s) (hCall : s.callers t = .call id kind ctx line)
    (hLive : s.sockets id = .live p) (done : Calling s s' t id kind p p' caller)
    (counts : Counting s s' kind p p' line caller) : Exact s' := by
  have hPair : (s.callers t).pair? = some (id, kind) := by rw [hCall]; rfl
  have hStores : (s.callers t).stores = line.stores := by rw [hCall]; rfl
  have hExclusive := exclusive_update exact done.callers fun x hx u hu hSame =>
    hu (exact.exclusive u t x hSame (done.pair x hx ▸ hPair))
  have hLive' : s'.sockets id = .live p' := by rw [done.sockets, Function.update_self]
  have hOther : ∀ y, y ≠ (id, kind) → (y ∈ Counted s' ↔ y ∈ Counted s) := by
    intro y hy
    refine not_congr (iff_congr ?_ (transit_setCaller done.callers
      (.inl fun h => hy (Option.some.inj (h.symm.trans hPair))) (.inl fun h => hy (done.pair y h))))
    rw [done.sockets]
    by_cases hEq : y.1 = id
    · have hKind : y.2 ≠ kind := fun h => hy (Prod.ext hEq h)
      rw [hEq, Function.update_self, hLive]
      simp only [Socket.owed, counts.other _ hKind]
    · rw [Function.update_of_ne hEq]
  have hBefore : (id, kind) ∈ Counted s ↔ (p.pendings kind ^^ line.stores) = true := by
    rw [← hStores]
    exact mem_counted_call exact.exclusive hPair hLive
  have hAfter : (id, kind) ∈ Counted s' ↔ (p'.pendings kind ^^ caller.stores) = true := by
    rw [mem_counted, hLive']
    have hTransit : Transit s' (id, kind) ↔ caller.stores = true := by
      unfold Transit
      rw [done.callers]
      constructor
      · rintro ⟨u, hu, hStored⟩
        by_cases hEq : u = t
        · rwa [hEq, Function.update_self] at hStored
        · rw [Function.update_of_ne hEq] at hu
          exact absurd (exact.exclusive u t _ hu hPair) hEq
      · intro hStored
        obtain ⟨x, hx⟩ := pair_of_stores hStored
        exact ⟨t, by rw [Function.update_self, hx, done.pair x hx],
          by rwa [Function.update_self]⟩
    rw [hTransit]
    simp only [Socket.owed]
    cases p'.pendings kind <;> cases caller.stores <;> simp
  have hCount : (Counted s').Finite ∧ s'.pending = (Counted s').ncard := by
    obtain ⟨hPending, hSame⟩ | ⟨hPending, hNew, hOld⟩ | ⟨hPending, hNew, hOld⟩ := counts.moves
    · refine exact.count_same hPending fun y => ?_
      by_cases hEq : y = (id, kind)
      · rw [hEq, hBefore, hAfter, hSame]
      · exact hOther y hEq
    · exact exact.count_add hPending (exact.pending_lt owns) (by rw [hBefore, hOld]; simp)
        (hAfter.mpr hNew) hOther
    · exact exact.count_sub hPending (exact.pending_lt owns).le (hBefore.mpr hOld)
        (by rw [hAfter, hNew]; simp) hOther
  refine ⟨hExclusive, fun u id' kind' q hu hq => ?_, fun id' q at_ hq => ?_, fun u => ?_,
    hCount.1, hCount.2⟩
  · by_cases hEq : u = t
    · subst hEq
      rw [done.callers, Function.update_self] at hu ⊢
      obtain ⟨rfl, rfl⟩ : id' = id ∧ kind' = kind := by simpa using done.pair _ hu
      obtain rfl : p' = q := by simpa [hLive'] using hq
      exact counts.agrees
    · rw [done.callers, Function.update_of_ne hEq] at hu ⊢
      by_cases hSocket : id' = id
      · subst hSocket
        obtain rfl : p' = q := by simpa [hLive'] using hq
        have hKind : kind' ≠ kind := by
          rintro rfl
          exact hEq (exact.exclusive u t _ hu hPair)
        rw [counts.other _ hKind]
        exact exact.agrees u id' kind' p hu hLive
      · rw [done.sockets, Function.update_of_ne hSocket] at hq
        exact exact.agrees u id' kind' q hu hq
  · rw [done.sockets] at hq
    by_cases hEq : id' = id
    · subst hEq
      simp at hq
    · rw [Function.update_of_ne hEq] at hq
      exact exact.drops id' q at_ hq
  · rw [done.callers]
    by_cases hEq : u = t
    · subst hEq
      rw [Function.update_self]
      exact counts.sound
    · rw [Function.update_of_ne hEq]
      exact exact.calls u

end Steps

section Drops

variable {L : Layout} {id : SocketId}

/-- A socket that nobody calls changes, with or without giving back a count. -/
theorem Exact.setSocket {socket : Socket} (exact : Exact s) (hCallers : s'.callers = s.callers)
    (hSockets : s'.sockets = Function.update s.sockets id socket)
    (hFree : ∀ t, (s.callers t).socket? ≠ some id)
    (hDrops : ∀ p at_, socket = .dropping p at_ →
      at_ ≠ .panicked ∧ ∀ kind, at_ = .complete kind → p.pendings kind = true)
    (hCount : (Counted s').Finite ∧ s'.pending = (Counted s').ncard) : Exact s' := by
  refine ⟨hCallers ▸ exact.exclusive, fun u id' kind' q hu hq => ?_, fun id' q at_ hq => ?_,
    hCallers ▸ exact.calls, hCount.1, hCount.2⟩
  · rw [hCallers] at hu ⊢
    have hNe : id' ≠ id := by
      rintro rfl
      exact hFree u (by rw [Caller.socket?, hu]; rfl)
    rw [hSockets, Function.update_of_ne hNe] at hq
    exact exact.agrees u id' kind' q hu hq
  · rw [hSockets] at hq
    by_cases hEq : id' = id
    · subst hEq
      rw [Function.update_self] at hq
      exact hDrops q at_ hq
    · rw [Function.update_of_ne hEq] at hq
      exact exact.drops id' q at_ hq

/-- The counts of a socket that nobody calls are its own. -/
theorem mem_counted_free {k : WakerKind} (hFree : ∀ t, (s.callers t).socket? ≠ some id) :
    (id, k) ∈ Counted s ↔ (s.sockets id).owed k = true := by
  have hNot : ¬Transit s (id, k) := fun ⟨t, hPair, _⟩ => hFree t (by rw [Caller.socket?, hPair]; rfl)
  rw [mem_counted]
  simp [hNot]

/-- Where only a socket changes that no call borrows, its own pairs alone are counted
differently. -/
theorem mem_counted_update {socket : Socket} (hCallers : s'.callers = s.callers)
    (hSockets : s'.sockets = Function.update s.sockets id socket)
    (hFree : ∀ t, (s.callers t).socket? ≠ some id) (x : SocketId × WakerKind) :
    x ∈ Counted s' ↔ if x.1 = id then socket.owed x.2 = true else x ∈ Counted s := by
  obtain ⟨id', k⟩ := x
  by_cases hEq : id' = id
  · subst hEq
    rw [mem_counted_free (by rwa [hCallers]), hSockets, Function.update_self, if_pos rfl]
  · rw [if_neg hEq, mem_counted, mem_counted]
    simp only [Transit, hCallers, hSockets, Function.update_of_ne hEq]

/-- A socket that nobody calls changes and owes what it did. -/
theorem Exact.setSocket_same {socket : Socket} (exact : Exact s) (hCallers : s'.callers = s.callers)
    (hSockets : s'.sockets = Function.update s.sockets id socket) (hPending : s'.pending = s.pending)
    (hFree : ∀ t, (s.callers t).socket? ≠ some id)
    (hOwed : ∀ k, socket.owed k = (s.sockets id).owed k)
    (hDrops : ∀ p at_, socket = .dropping p at_ →
      at_ ≠ .panicked ∧ ∀ kind, at_ = .complete kind → p.pendings kind = true) : Exact s' := by
  refine exact.setSocket hCallers hSockets hFree hDrops (exact.count_same hPending fun x => ?_)
  rw [mem_counted_update hCallers hSockets hFree]
  split
  · next hEq =>
      obtain ⟨id', k⟩ := x
      obtain rfl : id' = id := hEq
      rw [mem_counted_free hFree, hOwed]
  · exact Iff.rfl

/-- Past a kind a drop owes what it has owed before, but for that kind. -/
theorem owes_after (kind k : WakerKind) :
    (Dropping.after kind).owes k = ((Dropping.complete kind).owes k && decide (k ≠ kind)) := by
  cases kind <;> cases k <;> rfl

/-- One operation of a drop. -/
theorem Exact.dropStep [DecidableEq V] {p : Pollable} {at_ : Dropping} (exact : Exact s)
    (owns : Owns L s) (hDropping : s.sockets id = .dropping p at_)
    (h : s.dropStep id p at_ = some s') : Exact s' := by
  have hFree : ∀ u, (s.callers u).socket? ≠ some id :=
    owns.uncalled fun p' => by simp [hDropping]
  have hOwed : ∀ k, (s.sockets id).owed k = (p.pendings k && at_.owes k) := fun k => by
    rw [hDropping]
    rfl
  have hAfter : ∀ k, Dropping.after k ≠ .panicked ∧ ∀ kind, Dropping.after k ≠ .complete kind := by
    intro k
    cases k <;> simp [Dropping.after]
  cases at_ with
  | wake kind =>
      simp only [State.dropStep] at h
      split at h
      · simp at h
      · obtain rfl := Option.some.inj h
        refine exact.setSocket_same rfl rfl rfl hFree (fun k => by rw [hOwed]; rfl) ?_
        rintro p' at_ h'
        cases h'
        simp
      · obtain rfl := Option.some.inj h
        refine exact.setSocket_same rfl rfl rfl hFree (fun k => by rw [hOwed]; rfl) ?_
        rintro p' at_ h'
        cases h'
        simp
  | load kind =>
      obtain rfl := Option.some.inj h
      have hLoad : (Dropping.load kind).owes = (Dropping.complete kind).owes := by
        cases kind <;> rfl
      by_cases hFlag : p.pendings kind = true
      · rw [if_pos hFlag]
        refine exact.setSocket_same rfl rfl rfl hFree (fun k => ?_) ?_
        · rw [hOwed, hLoad]
          rfl
        · rintro p' at_ h'
          cases h'
          exact ⟨by simp, fun k hk => by rwa [← Dropping.complete.inj hk]⟩
      · rw [if_neg hFlag]
        refine exact.setSocket_same rfl rfl rfl hFree (fun k => ?_) ?_
        · rw [hOwed, hLoad]
          simp only [Socket.owed, owes_after]
          by_cases hKind : k = kind
          · subst hKind
            simp [hFlag]
          · simp [hKind]
        · rintro p' at_ h'
          cases h'
          exact ⟨(hAfter kind).1, fun k hk => absurd hk ((hAfter kind).2 k)⟩
  | complete kind =>
      have hFlag : p.pendings kind = true := (exact.drops id p _ hDropping).2 kind rfl
      have hSelf : (Dropping.complete kind).owes kind = true := by cases kind <;> rfl
      have hOld : (id, kind) ∈ Counted s := by
        rw [mem_counted_free hFree, hOwed, hFlag, hSelf]
        rfl
      simp only [State.dropStep, if_neg (exact.pending_pos hOld)] at h
      have hNext := Option.some.inj h
      have hCallers : s'.callers = s.callers := by rw [← hNext, State.setSocket]
      have hSockets : s'.sockets = Function.update s.sockets id (.dropping p (.after kind)) := by
        rw [← hNext, State.setSocket]
      have hPending : s'.pending = fetchSub s.pending := by rw [← hNext, State.setSocket]
      have hMem := mem_counted_update hCallers hSockets hFree
      refine exact.setSocket hCallers hSockets hFree ?_ ?_
      · rintro p' at_ h'
        cases h'
        exact ⟨(hAfter kind).1, fun k hk => absurd hk ((hAfter kind).2 k)⟩
      · refine exact.count_sub hPending (exact.pending_lt owns).le hOld ?_ fun y hy => ?_
        · rw [hMem, if_pos rfl]
          simp [Socket.owed, owes_after]
        · rw [hMem]
          split
          · next hEq =>
              obtain ⟨id', k⟩ := y
              obtain rfl : id' = id := hEq
              have hKind : k ≠ kind := fun hk => hy (by rw [hk])
              rw [mem_counted_free hFree, hOwed]
              simp [Socket.owed, owes_after, hKind]
          · exact Iff.rfl
  | free =>
      obtain rfl := Option.some.inj h
      refine exact.setSocket_same rfl rfl rfl hFree (fun k => by rw [hOwed]; simp [Socket.owed, Dropping.owes]) ?_
      rintro p' at_ h'
      cases h'
  | panicked => simp [State.dropStep] at h

end Drops

variable [Fintype T] [DecidableEq T] [DecidableEq V] [DecidableEq W] {L : Layout}

/-- The step of a call from the counts' point of view, in a state where they are right. -/
theorem Exact.step {t : T} (exact : Exact s) (owns : Owns L s) (h : next L s (.step t) = some s') :
    ∃ id kind ctx line p p' caller, s.callers t = .call id kind ctx line ∧
      s.sockets id = .live p ∧ s.callStep t id p kind ctx line = some s' ∧
      Calling s s' t id kind p p' caller ∧ Counting s s' kind p p' line caller := by
  obtain ⟨id, kind, ctx, line, p, hCall, hLive, hStep⟩ := next_step h
  have hPair : (s.callers t).pair? = some (id, kind) := by rw [hCall]; rfl
  have hAgrees : line.Agrees (p.pendings kind) := by
    have hBoth := exact.agrees t id kind p hPair hLive
    rwa [hCall] at hBoth
  have hCounted : (p.pendings kind ^^ line.stores) = true → s.pending ≠ 0 := by
    intro hFlag
    refine exact.pending_pos ((mem_counted_call exact.exclusive hPair hLive).mpr ?_)
    rw [hCall]
    exact hFlag
  obtain ⟨p', caller, done, counts⟩ :=
    callStep_counting hLive hAgrees (exact.pending_lt owns).ne hCounted hStep
  exact ⟨id, kind, ctx, line, p, p', caller, hCall, hLive, hStep, done, counts⟩

/-- Every step keeps the count exact. Calls and drops change one pair at a time. -/
theorem exact_next {e : Event T V W} (exact : Exact s) (owns : Owns L s) (one : OneCaller s e)
    (h : next L s e = some s') : Exact s' := by
  cases e with
  | alloc id =>
      obtain ⟨hAbsent, index?, storage, -, rfl⟩ := next_alloc h
      refine exact.setSocket_same rfl rfl rfl (owns.uncalled fun p => by simp [hAbsent])
        (fun k => ?_) fun p at_ hEq => ?_
      · rw [hAbsent]
        cases index? <;> rfl
      · cases index? <;> simp at hEq
  | register id ok =>
      obtain ⟨index, hAllocated, rfl | rfl⟩ := next_register h
      · exact exact.setSocket_same rfl rfl rfl (owns.uncalled fun p => by simp [hAllocated])
          (fun k => by rw [hAllocated]; rfl) fun p at_ hEq => by simp at hEq
      · exact exact.setSocket_same rfl rfl rfl (owns.uncalled fun p => by simp [hAllocated])
          (fun k => by rw [hAllocated]; rfl) fun p at_ hEq => by simp at hEq
  | call t id kind ctx =>
      obtain ⟨hIdle, p, hLive, rfl⟩ := next_call h
      refine exact.setCaller (by rw [hIdle]; rfl) ?_ (fun x hx u _ => ?_) (fun flag => ?_) ?_
      · split <;> rfl
      · split at hx
        · obtain rfl : (id, kind) = x := by simpa [Caller.pair?] using hx
          exact one u
        · simp [Caller.pair?] at hx
      · split <;> trivial
      · split <;> simp
  | step t =>
      obtain ⟨id, kind, ctx, line, p, p', caller, hCall, hLive, -, done, counts⟩ := exact.step owns h
      exact exact.calling owns hCall hLive done counts
  | doIo t result =>
      obtain ⟨id, kind, ctx, hCall, rfl⟩ := next_doIo h
      have hPair : (s.callers t).pair? = some (id, kind) := by rw [hCall]; rfl
      refine exact.setCaller (by rw [hCall]; rfl) (by cases result <;> rfl) (fun x hx u hu => ?_)
        (fun flag => by cases result <;> trivial) (by cases result <;> simp [Caller.returned])
      exact fun hSame => hu (exact.exclusive u t x hSame (pair_returned hx ▸ hPair))
  | drop id =>
      obtain ⟨p, hLive, hFree, rfl⟩ := next_drop h
      have hCreated := (owns.used id p.index (by rw [hLive]; rfl)).2
      rw [if_pos hCreated]
      refine exact.setSocket_same rfl rfl rfl hFree (fun k => ?_) fun p' at_ hEq => ?_
      · rw [hLive]
        simp [Socket.owed, Dropping.owes]
      · cases hEq
        simp
  | dropping id =>
      obtain ⟨p, at_, hDropping, hStep⟩ := next_dropping h
      exact exact.dropStep owns hDropping hStep
  | wake v index kind =>
      obtain ⟨-, -, rfl⟩ := next_wake h
      exact ⟨exact.exclusive, exact.agrees, exact.drops, exact.calls, exact.finite, exact.pending⟩
  | waker u =>
      obtain ⟨wake, cell, at_, -, -, rfl⟩ := next_waker h
      exact ⟨exact.exclusive, exact.agrees, exact.drops, exact.calls, exact.finite, exact.pending⟩

/-- At the start there are no sockets, and the count is 0. -/
theorem exact_initial : Exact (system T V W L).initial := by
  have hEmpty : Counted (system T V W L).initial = ∅ := by
    ext x
    simp [Counted, Transit, system, Socket.owed, Caller.pair?]
  refine ⟨?_, ?_, ?_, ?_, ?_, ?_⟩
  · simp [system, Caller.pair?]
  · simp [system]
  · simp [system]
  · simp [system]
  · rw [hEmpty]
    exact Set.finite_empty
  · rw [hEmpty, Set.ncard_empty]
    rfl

/-- So the count is exact after any run in which each pair has one caller at a time. -/
theorem exact_run {steps : List (State T V W × Event T V W)}
    (run : (system T V W L).Run steps s) (one : Meets OneCaller steps) : Exact s :=
  System.Path.keeps run OneCaller (Owns L) one
    (fun first _ path _ => owns_reachable ⟨first, path⟩) exact_initial
    fun _ _ _ owns exact one h => exact_next exact owns one h

/-! ## Between calls -/

/-- A call of the pair returns `Pending` for its waker, not for its budget. -/
def ReturnsPending (L : Layout) (x : SocketId × WakerKind) (y : State T V W × Event T V W) : Prop :=
  ∃ t ctx line s', y.2 = .step t ∧ y.1.callers t = .call x.1 x.2 ctx line ∧ line ≠ .yield ∧
    next L y.1 y.2 = some s' ∧ s'.callers t = .idle

/-- A step that starts another call of the pair, or the drop of its socket. -/
def Resumes (x : SocketId × WakerKind) : Event T V W → Prop
  | .call _ id kind _ => (id, kind) = x
  | .drop id => id = x.1
  | _ => False

/-- A live pair with its flag set that nobody calls. -/
def Waits (x : SocketId × WakerKind) (s : State T V W) : Prop :=
  (∃ p, s.sockets x.1 = .live p ∧ p.pendings x.2 = true) ∧ ∀ t, (s.callers t).pair? ≠ some x

omit [Fintype T] [DecidableEq T] [DecidableEq V] [DecidableEq W] in
/-- A pair that waits is counted, as it has no call in transit. -/
theorem Waits.counted {x : SocketId × WakerKind} (waits : Waits x s) : x ∈ Counted s := by
  obtain ⟨⟨p, hLive, hFlag⟩, hFree⟩ := waits
  have hNot : ¬Transit s x := fun ⟨t, hPair, _⟩ => hFree t hPair
  rw [mem_counted, hLive]
  simp [Socket.owed, hFlag, hNot]

omit [Fintype T] [DecidableEq T] [DecidableEq V] [DecidableEq W] in
/-- `poll` ends a call with its flag set only. -/
theorem polled_idle {id : SocketId} {kind : WakerKind} {ctx : Option W} {isPending : Bool}
    {at_ : AtomicWaker.Poller W} (h : Caller.polled id kind ctx isPending at_ = .idle) :
    isPending = true := by
  unfold Caller.polled at h
  split at h
  · simp at h
  · cases isPending
    · simp at h
    · rfl
  · simp at h
  · simp at h

omit [Fintype T] [DecidableEq V] in
/-- A call that returns `Pending` for its waker has set the flag or found it set. -/
theorem flag_of_returns {t : T} {id : SocketId} {kind : WakerKind} {ctx : Option W} {p : Pollable}
    {line : Line W} (hLive : s.sockets id = .live p) (agrees : line.Agrees (p.pendings kind))
    (hLine : line ≠ .yield) (h : s.callStep t id p kind ctx line = some s')
    (hIdle : s'.callers t = .idle) : ∃ p', s'.sockets id = .live p' ∧ p'.pendings kind = true := by
  cases line with
  | load | loadBudget | doIo | storeCompleted | storeBudget budget =>
      obtain rfl := Option.some.inj h
      simp [State.setCaller] at hIdle
  | begin | complete =>
      obtain rfl := Option.some.inj h
      simp only [State.setCaller, Function.update_self] at hIdle
      split at hIdle <;> simp at hIdle
  | poll isPending at_ =>
      obtain ⟨r, -, rfl⟩ := Option.map_eq_some_iff.mp h
      simp only [State.setCaller, Function.update_self] at hIdle
      have hFlag : isPending = p.pendings kind := agrees
      exact ⟨p, hLive, hFlag ▸ polled_idle hIdle⟩
  | storePending =>
      obtain rfl := Option.some.inj h
      exact ⟨_, Function.update_self .., by simp [Pollable.setPending]⟩
  | yield => exact absurd rfl hLine
  | inIo => simp [State.callStep] at h
  | reset at_ =>
      obtain ⟨r, -, rfl⟩ := Option.map_eq_some_iff.mp h
      simp only [State.setCaller, Function.update_self, Caller.resetting] at hIdle
      split at hIdle <;> simp at hIdle

theorem waits_of_returnsPending {x : SocketId × WakerKind} {e : Event T V W} (exact : Exact s)
    (owns : Owns L s) (hReturns : ReturnsPending L x (s, e)) (h : next L s e = some s') :
    Waits x s' := by
  obtain ⟨t, ctx, line, v, rfl, hCall, hLine, hNext, hIdle⟩ := hReturns
  obtain rfl : v = s' := Option.some.inj (hNext.symm.trans h)
  have hCall : s.callers t = .call x.1 x.2 ctx line := hCall
  obtain ⟨id, kind, ctx', line', p, p', caller, hCall', hLive, hStep, done, counts⟩ := exact.step owns h
  obtain ⟨rfl, rfl, rfl, rfl⟩ : x.1 = id ∧ x.2 = kind ∧ ctx = ctx' ∧ line = line' := by
    simpa [hCall] using hCall'
  have hPair : (s.callers t).pair? = some x := by rw [hCall]; rfl
  have hAgrees : line.Agrees (p.pendings x.2) := by
    have hBoth := exact.agrees t x.1 x.2 p hPair hLive
    rwa [hCall] at hBoth
  refine ⟨flag_of_returns hLive hAgrees hLine hStep hIdle, fun u hu => ?_⟩
  by_cases hEq : u = t
  · subst hEq
    rw [hIdle] at hu
    simp [Caller.pair?] at hu
  · rw [done.callers, Function.update_of_ne hEq] at hu
    exact hEq (exact.exclusive u t x hu hPair)

/-- A pair waits until a call for it begins or its socket is dropped. -/
theorem waits_next {x : SocketId × WakerKind} {e : Event T V W} (exact : Exact s) (owns : Owns L s)
    (waits : Waits x s) (hRest : ¬Resumes x e) (h : next L s e = some s') : Waits x s' := by
  obtain ⟨⟨p, hLive, hFlag⟩, hFree⟩ := waits
  have hSocket : ∀ {id : SocketId} {socket : Socket}, id ≠ x.1 →
      Function.update s.sockets id socket x.1 = .live p := fun hNe => by
    rw [Function.update_of_ne hNe.symm, hLive]
  cases e with
  | alloc id =>
      obtain ⟨hAbsent, index?, storage, -, rfl⟩ := next_alloc h
      exact ⟨⟨p, hSocket fun hEq => by simp [hEq, hLive] at hAbsent, hFlag⟩, hFree⟩
  | register id ok =>
      obtain ⟨index, hAllocated, rfl | rfl⟩ := next_register h <;>
        exact ⟨⟨p, hSocket fun hEq => by simp [hEq, hLive] at hAllocated, hFlag⟩, hFree⟩
  | call t id kind ctx =>
      obtain ⟨-, q, -, rfl⟩ := next_call h
      refine ⟨⟨p, hLive, hFlag⟩, fun u hu => ?_⟩
      by_cases hEq : u = t
      · subst hEq
        simp only [State.setCaller, Function.update_self] at hu
        split at hu
        · exact hRest (Option.some.inj hu)
        · simp [Caller.pair?] at hu
      · simp only [State.setCaller, Function.update_of_ne hEq] at hu
        exact hFree u hu
  | step t =>
      obtain ⟨id, kind, ctx, line, q, q', caller, hCall, hLive', -, done, counts⟩ := exact.step owns h
      have hPair : (s.callers t).pair? = some (id, kind) := by rw [hCall]; rfl
      have hNe : (id, kind) ≠ x := fun hEq => hFree t (hEq ▸ hPair)
      refine ⟨?_, fun u hu => ?_⟩
      · rw [done.sockets]
        by_cases hEq : x.1 = id
        · subst hEq
          obtain rfl : p = q := by simpa [hLive] using hLive'
          have hKind : x.2 ≠ kind := fun hEq => hNe (Prod.ext rfl hEq.symm)
          exact ⟨q', Function.update_self .., (counts.other _ hKind).trans hFlag⟩
        · exact ⟨p, hSocket (Ne.symm hEq), hFlag⟩
      · rw [done.callers] at hu
        by_cases hEq : u = t
        · subst hEq
          rw [Function.update_self] at hu
          exact hNe (done.pair x hu).symm
        · rw [Function.update_of_ne hEq] at hu
          exact hFree u hu
  | doIo t result =>
      obtain ⟨id, kind, ctx, hCall, rfl⟩ := next_doIo h
      refine ⟨⟨p, hLive, hFlag⟩, fun u hu => ?_⟩
      by_cases hEq : u = t
      · subst hEq
        simp only [State.setCaller, Function.update_self] at hu
        refine hFree u ?_
        rw [hCall, pair_returned hu]
        rfl
      · simp only [State.setCaller, Function.update_of_ne hEq] at hu
        exact hFree u hu
  | drop id =>
      obtain ⟨q, -, -, rfl⟩ := next_drop h
      have hNe : id ≠ x.1 := hRest
      split <;> exact ⟨⟨p, hSocket hNe, hFlag⟩, hFree⟩
  | dropping id =>
      obtain ⟨q, at_, hDropping, hStep⟩ := next_dropping h
      obtain ⟨socket, hSockets, hCallers, -⟩ := dropStep_sockets hStep
      rw [Waits, hSockets, hCallers]
      exact ⟨⟨p, hSocket fun hEq => by simp [hEq, hLive] at hDropping, hFlag⟩, hFree⟩
  | wake v index kind =>
      obtain ⟨-, -, rfl⟩ := next_wake h
      exact ⟨⟨p, hLive, hFlag⟩, hFree⟩
  | waker u =>
      obtain ⟨wake, cell, at_, -, -, rfl⟩ := next_waker h
      exact ⟨⟨p, hLive, hFlag⟩, hFree⟩

/-- The counter over a run: it is right between calls and during them, counts each
pair that waits, never fails an assertion and ends at 0. -/
structure CountExact (L : Layout) (steps : List (State T V W × Event T V W)) (s : State T V W) :
    Prop where
  between : BetweenCalls s → (Flagged s).Finite ∧ s.pending = (Flagged s).ncard
  during : (Counted s).Finite ∧ s.pending = (Counted s).ncard
  waiting : ∀ before y after x, steps = before ++ y :: after → ReturnsPending L x y →
    (∀ z ∈ after, ¬Resumes x z.2) → x ∈ Flagged s ∧ x ∈ Counted s
  asserted : (∀ t, s.callers t ≠ .panicked .begin ∧ s.callers t ≠ .panicked .complete) ∧
    ∀ id p, s.sockets id ≠ .dropping p .panicked
  dropped : (∀ id p, s.sockets id ≠ .live p) → (∀ id p at_, s.sockets id ≠ .dropping p at_) →
    s.pending = 0

omit [Fintype T] [DecidableEq T] [DecidableEq V] [DecidableEq W] in
/-- Between calls no pair is in transit, and the counted pairs are those with their flag
set. -/
theorem counted_between (between : BetweenCalls s) : Counted s = Flagged s := by
  ext x
  have hNot : ¬Transit s x := fun ⟨t, hPair, _⟩ => by simp [between.calls t] at hPair
  rw [mem_counted]
  simp only [hNot, iff_false, not_not, Flagged, Set.mem_ofPred_eq]
  cases hSocket : s.sockets x.1 with
  | live p => simp [Socket.owed]
  | dropping p at_ => exact absurd hSocket (between.drops x.1 p at_)
  | absent | allocated index | dropped => simp [Socket.owed]

omit [Fintype T] [DecidableEq T] [DecidableEq V] [DecidableEq W] in
theorem counted_dropped (owns : Owns L s) (hLive : ∀ id p, s.sockets id ≠ .live p)
    (hDropping : ∀ id p at_, s.sockets id ≠ .dropping p at_) : Counted s = ∅ := by
  have hCalls : ∀ t, (s.callers t).pair? = none := by
    intro t
    by_contra hSome
    obtain ⟨x, hx⟩ := Option.ne_none_iff_exists'.mp hSome
    obtain ⟨p, hp⟩ := owns.calls t x hx
    exact hLive x.1 p hp
  rw [counted_between ⟨hCalls, hDropping⟩]
  exact Set.eq_empty_of_forall_notMem fun x ⟨p, hp, _⟩ => hLive x.1 p hp

/-- A pair waits along a run which does not take it up again. -/
theorem waits_path {x : SocketId × WakerKind} {steps : List (State T V W × Event T V W)}
    (exact : Exact s) (owns : Owns L s) (waits : Waits x s) (path : (system T V W L).Path s steps s')
    (one : Meets OneCaller steps) (hRest : ∀ z ∈ steps, ¬Resumes x z.2) : Waits x s' := by
  suffices Exact s' ∧ Owns L s' ∧ Waits x s' from this.2.2
  induction path with
  | refl => exact ⟨exact, owns, waits⟩
  | @step steps u v e prior last ih =>
      rw [meets_append, meets_singleton] at one
      obtain ⟨exact', owns', waits'⟩ := ih one.1 fun z hz => hRest z (List.mem_append_left _ hz)
      exact ⟨exact_next exact' owns' one.2 last, owns_next owns' last,
        waits_next exact' owns' waits' (hRest (u, e) (by simp)) last⟩

/-- With one caller for each kind of a socket the count of pending I/O is exact. -/
theorem pending_exact {steps : List (State T V W × Event T V W)}
    (run : (system T V W L).Run steps s) (one : Meets OneCaller steps) : CountExact L steps s := by
  have exact := exact_run run one
  refine ⟨fun between => ?_, ⟨exact.finite, exact.pending⟩, ?_, ⟨exact.calls, fun id p hDropping =>
    (exact.drops id p _ hDropping).1 rfl⟩, fun hLive hDropping => ?_⟩
  · rw [← counted_between between]
    exact ⟨exact.finite, exact.pending⟩
  · rintro before y after x rfl hReturns hRest
    obtain ⟨u, hBefore, hNext, hAfter⟩ := System.Path.split run
    rw [Meets, List.forall_mem_append, List.forall_mem_cons] at one
    have exact₀ := exact_run hBefore one.1
    have owns₀ : Owns L y.1 := owns_reachable ⟨before, hBefore⟩
    have waits := waits_of_returnsPending exact₀ owns₀ hReturns hNext
    have waits' := waits_path (exact_next exact₀ owns₀ one.2.1 hNext) (owns_next owns₀ hNext) waits
      hAfter one.2.2 hRest
    exact ⟨waits'.1, waits'.counted⟩
  · rw [exact.pending, counted_dropped (owns_reachable run.reachable) hLive hDropping,
      Set.ncard_empty]

/-- A single thread is one caller. -/
theorem oneCaller_of_next [Subsingleton T] {e : Event T V W} (h : next L s e = some s') :
    OneCaller s e := by
  cases e with
  | call t id kind ctx =>
      obtain ⟨hIdle, -⟩ := next_call h
      intro u
      rw [Subsingleton.elim u t, hIdle]
      simp [Caller.pair?]
  | _ => trivial

/-- A socket whose `poll_io` returned `Pending` for the waker of its caller. -/
def onePending : List (Event Unit Unit Unit) :=
  [.alloc 0, .register 0 true, .call () 0 .Read (some ())] ++ List.replicate 9 (.step ())

theorem pending_exact_onePending :
    ∃ (s : State Unit Unit Unit) (steps : List (State Unit Unit Unit × Event Unit Unit Unit)),
      CountExact ⟨1, 1, by decide, by decide, by decide, by decide⟩ steps s ∧ s.pending = 1 := by
  obtain ⟨s, run, hPending⟩ :=
    (system Unit Unit Unit ⟨1, 1, by decide, by decide, by decide, by decide⟩).exists_run_of_replay
      onePending State.pending 1 (by decide)
  refine ⟨s, _, pending_exact run fun x hx => ?_, hPending⟩
  obtain ⟨first, rest, hSplit⟩ := List.append_of_mem hx
  rw [hSplit] at run
  obtain ⟨u, -, hNext, -⟩ := System.Path.split run
  exact oneCaller_of_next hNext

end Yaar.Net.PollIo
