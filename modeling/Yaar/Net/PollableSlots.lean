import Yaar.Net.Pollable

/-! Which socket occupies which slot, and what the calls do to it. -/
namespace Yaar.Net

open Machine

variable {W : Type*} [DecidableEq W]

/-! ## Who owns a slot -/

/-- What every step keeps: each socket occupies a slot of its own, and no event
goes to a slot that was never made. -/
structure Owns (L : Layout) (s : World W) : Prop where
  valid : s.poller.wakerStorage.Valid L
  apart : ∀ id id' index, (s.sockets id).index? = some index →
    (s.sockets id').index? = some index → id = id'
  used : ∀ id index, (s.sockets id).index? = some index →
    index ∉ s.poller.wakerStorage.available ∧ s.poller.wakerStorage.Created index
  events : ∀ b, ∀ event ∈ s.batches b, event.token ≠ usizeMAX →
    s.poller.wakerStorage.Created (.ofUsize event.token)
  calm : ∀ index kind, (s.poller.wakerStorage.wakers index kind).Calm

section Owns

omit [DecidableEq W]

variable {L : Layout} {s : World W}

/-- A waker that is replaced by a calm one leaves all wakers calm. -/
theorem calm_set {storage : WakerStorage W} {index : WakerIndex} {kind : WakerKind}
    {waker : AtomicWaker W} (calm : ∀ index kind, (storage.wakers index kind).Calm)
    (hWaker : waker.Calm) (i : WakerIndex) (k : WakerKind) :
    ((storage.set index kind waker).wakers i k).Calm := by
  by_cases hIndex : i = index
  · subst hIndex
    by_cases hKind : k = kind
    · subst hKind
      simpa using hWaker
    · rw [WakerStorage.set_of_kind _ _ _ hKind]
      exact calm i k
  · rw [WakerStorage.set_of_index _ _ _ _ hIndex]
    exact calm i k

theorem owns_failed (owns : Owns L s) : Owns L { s with failed := true } :=
  ⟨owns.valid, owns.apart, owns.used, owns.events, owns.calm⟩

/-- A step on a waker of a slot. -/
theorem owns_poller {poller : Poller W} {index : WakerIndex} {kind : WakerKind}
    {waker : AtomicWaker W} (owns : Owns L s) (hWaker : waker.Calm)
    (hStorage : poller.wakerStorage = s.poller.wakerStorage.set index kind waker) :
    Owns L { s with poller := poller } := by
  obtain ⟨pending, storage⟩ := poller
  obtain rfl : storage = _ := hStorage
  exact ⟨⟨owns.valid.blocks, owns.valid.nodup, owns.valid.created⟩, owns.apart, owns.used,
    owns.events, calm_set owns.calm hWaker⟩

/-- A socket that keeps its slot, or gives it up, keeps the owners. -/
theorem owns_setSocket {id : SocketId} {socket : Socket W} (owns : Owns L s)
    (hSame : ∀ index, socket.index? = some index → (s.sockets id).index? = some index) :
    Owns L (s.setSocket id socket) := by
  have hIndex : ∀ id' index, ((s.setSocket id socket).sockets id').index? = some index →
      (s.sockets id').index? = some index := by
    intro id' index h
    by_cases hEq : id' = id
    · subst hEq
      exact hSame index (by simpa [World.setSocket] using h)
    · simpa [World.setSocket, hEq] using h
  exact ⟨owns.valid, fun id₁ id₂ index h₁ h₂ => owns.apart id₁ id₂ index (hIndex _ _ h₁)
    (hIndex _ _ h₂), fun id' index h => owns.used id' index (hIndex _ _ h), owns.events, owns.calm⟩

/-- A batch may be replaced by one whose events are for slots that were made. -/
theorem owns_setBatch {b : BatchId} {batch : List Event} (owns : Owns L s)
    (hBatch : ∀ event ∈ batch, event.token ≠ usizeMAX →
      s.poller.wakerStorage.Created (.ofUsize event.token)) : Owns L (s.setBatch b batch) := by
  refine ⟨owns.valid, owns.apart, owns.used, fun b' event hMem => ?_, owns.calm⟩
  by_cases hEq : b' = b
  · subst hEq
    exact hBatch event (by simpa [World.setBatch] using hMem)
  · exact owns.events b' event (by simpa [World.setBatch, hEq] using hMem)

/-- A socket gives its slot back. -/
theorem owns_free {id : SocketId} {index : WakerIndex} (owns : Owns L s)
    (hIndex : (s.sockets id).index? = some index) :
    Owns L ({ s with poller := { s.poller with
      wakerStorage := s.poller.wakerStorage.free index } }.setSocket id .dropped) := by
  have hOther : ∀ id' i, ((s.setSocket id .dropped).sockets id').index? = some i →
      (s.sockets id').index? = some i ∧ i ≠ index := by
    intro id' i h
    by_cases hEq : id' = id
    · simp [World.setSocket, hEq, Socket.index?] at h
    · have hi : (s.sockets id').index? = some i := by simpa [World.setSocket, hEq] using h
      exact ⟨hi, fun hEqI => hEq (owns.apart id' id index (hEqI ▸ hi) hIndex)⟩
  obtain ⟨hUsed, hCreated⟩ := owns.used id index hIndex
  refine ⟨WakerStorage.valid_free owns.valid hUsed hCreated, fun id₁ id₂ i h₁ h₂ =>
    owns.apart id₁ id₂ i (hOther _ _ h₁).1 (hOther _ _ h₂).1, fun id' i h => ?_, owns.events,
    owns.calm⟩
  obtain ⟨hi, hNe⟩ := hOther id' i h
  obtain ⟨hUsed', hCreated'⟩ := owns.used id' i hi
  refine ⟨?_, hCreated'⟩
  simpa [World.setSocket, WakerStorage.free] using ⟨hUsed', hNe⟩

/-- A new socket gets a slot. -/
theorem owns_alloc {id : SocketId} {index : WakerIndex} {storage : WakerStorage W}
    (owns : Owns L s) (done : WakerStorage.Allocating L s.poller.wakerStorage storage index) :
    Owns L ({ s with poller := { s.poller with wakerStorage := storage } }.setSocket id
      (.allocated index)) := by
  have hNew : ∀ id', (s.sockets id').index? ≠ some index := by
    intro id' h
    obtain ⟨hUsed, hCreated⟩ := owns.used id' index h
    cases done.source with
    | recycled last _ => exact hUsed (List.mem_of_getLast? last)
    | fresh created _ => exact created hCreated
  have hOther : ∀ id' i, ((s.setSocket id (.allocated index)).sockets id').index? = some i →
      id' = id ∧ i = index ∨ id' ≠ id ∧ (s.sockets id').index? = some i := by
    intro id' i h
    by_cases hEq : id' = id
    · refine Or.inl ⟨hEq, ?_⟩
      simpa [World.setSocket, hEq, Socket.index?, eq_comm] using h
    · exact Or.inr ⟨hEq, by simpa [World.setSocket, hEq] using h⟩
  refine ⟨done.valid, fun id₁ id₂ i h₁ h₂ => ?_, fun id' i h => ?_, fun b event hMem hToken =>
    (done.older _ (owns.events b event hMem hToken)).1, fun i kind => ?_⟩
  · rcases hOther id₁ i h₁ with ⟨rfl, rfl⟩ | ⟨-, hi₁⟩
    · rcases hOther id₂ i h₂ with ⟨rfl, -⟩ | ⟨-, hi₂⟩
      · rfl
      · exact (hNew id₂ hi₂).elim
    · rcases hOther id₂ i h₂ with ⟨-, rfl⟩ | ⟨-, hi₂⟩
      · exact (hNew id₁ hi₁).elim
      · exact owns.apart id₁ id₂ i hi₁ hi₂
  · rcases hOther id' i h with ⟨-, rfl⟩ | ⟨-, hi⟩
    · exact ⟨done.taken, done.created⟩
    · obtain ⟨hUsed, hCreated⟩ := owns.used id' i hi
      refine ⟨fun hMem => ?_, (done.older i hCreated).1⟩
      exact (done.available i hMem).elim hUsed fun hNot => hNot hCreated
  · change (storage.wakers i kind).Calm
    rcases done.wakers i with hWakers | hWakers <;> rw [hWakers]
    · exact owns.calm i kind
    · exact AtomicWaker.calm_new

end Owns

/-! ## What the calls do to a slot -/

section Calls

omit [DecidableEq W]

variable {poller poller' : Poller W} {p : Pollable} {kind : WakerKind}

theorem ioPendingBegin_storage (h : poller.ioPendingBegin = some poller') :
    poller'.wakerStorage = poller.wakerStorage := by
  unfold Poller.ioPendingBegin at h
  split at h
  · simp at h
  · exact Option.some.inj h ▸ rfl

theorem ioPendingComplete_storage (h : poller.ioPendingComplete = some poller') :
    poller'.wakerStorage = poller.wakerStorage := by
  unfold Poller.ioPendingComplete at h
  split at h
  · simp at h
  · exact Option.some.inj h ▸ rfl

theorem completePendings_storage (h : p.completePendings poller = some poller') :
    poller'.wakerStorage = poller.wakerStorage := by
  have hOne : ∀ {q q' : Poller W} {kind : WakerKind},
      (if p.pendings kind then q.ioPendingComplete else some q) = some q' →
        q'.wakerStorage = q.wakerStorage := by
    intro q q' kind hq
    split at hq
    · exact ioPendingComplete_storage hq
    · exact Option.some.inj hq ▸ rfl
  simp only [Pollable.completePendings, List.foldlM_cons, List.foldlM_nil, Option.bind_eq_bind,
    Option.bind_eq_some_iff] at h
  obtain ⟨first, hFirst, second, hSecond, hLast⟩ := h
  rw [← Option.some.inj hLast, hOne hSecond, hOne hFirst]

/-- A wake replaces the waker of its slot and kind, and touches nothing else of the
storage. -/
theorem wake_storage {index : WakerIndex} (h : poller.wake index kind = some poller') :
    poller'.wakerStorage =
      poller.wakerStorage.set index kind (poller.wakerStorage.wakers index kind).wake.1 := by
  obtain ⟨waker, hGet, rfl⟩ := Option.map_eq_some_iff.mp h
  unfold WakerStorage.get? at hGet
  split at hGet
  · exact Option.some.inj hGet ▸ rfl
  · simp at hGet

theorem reset_storage (h : p.reset poller kind = some poller') :
    ∃ waker, (poller.wakerStorage.wakers p.index kind).reset = some waker ∧
      poller'.wakerStorage = poller.wakerStorage.set p.index kind waker := by
  obtain ⟨waker, hGet, rfl⟩ := Option.map_eq_some_iff.mp h
  obtain ⟨old, hOld, hReset⟩ := Option.bind_eq_some_iff.mp hGet
  unfold WakerStorage.get? at hOld
  split at hOld
  · exact ⟨waker, Option.some.inj hOld ▸ hReset, rfl⟩
  · simp at hOld

theorem spend_index (ctx : Option W) : (p.spend kind ctx).1.index = p.index := by
  unfold Pollable.spend
  cases ctx with
  | none => rfl
  | some w => cases Pollable.checkedPred (p.budgets kind) <;> rfl

end Calls

/-- What a turn of `poll_io` has done. With no wake recorded for it, it ends in
`Pending`. -/
structure Turning (poller poller' : Poller W) (p p' : Pollable) (kind : WakerKind) (turn : Turn)
    (waker : AtomicWaker W) : Prop where
  storage : poller'.wakerStorage = poller.wakerStorage.set p.index kind waker
  index : p'.index = p.index
  calm : waker.Calm
  silent : ¬(poller.wakerStorage.wakers p.index kind).Notified →
    turn = .pending ∧ ¬waker.Notified

/-- What a turn of `poll_io` does. It can get past the waker only where a wake has been
recorded. -/
theorem turn_spec {poller poller' : Poller W} {p p' : Pollable} {kind : WakerKind}
    {ctx : Option W} {turn : Turn} (calm : (poller.wakerStorage.wakers p.index kind).Calm)
    (h : p.turn poller kind ctx = some (poller', p', turn)) :
    ∃ waker, Turning poller poller' p p' kind turn waker := by
  obtain ⟨waker, r, hPoll, hCalm, hSilent⟩ := AtomicWaker.poll_calm calm ctx
  unfold Pollable.turn WakerStorage.get? at h
  by_cases hCreated : poller.wakerStorage.Created p.index
  · simp only [hCreated, if_true, Option.bind_some, hPoll] at h
    cases r with
    | pending =>
        dsimp only at h
        split at h
        · obtain ⟨rfl, rfl, rfl⟩ := by simpa using h
          exact ⟨waker, rfl, rfl, hCalm, fun hNot => ⟨rfl, (hSilent hNot).2⟩⟩
        · obtain ⟨begun, hBegin, hEq⟩ := Option.map_eq_some_iff.mp h
          obtain ⟨rfl, rfl, rfl⟩ := by simpa using hEq
          exact ⟨waker, ioPendingBegin_storage hBegin, rfl, hCalm,
            fun hNot => ⟨rfl, (hSilent hNot).2⟩⟩
    | ready u =>
        dsimp only at h
        obtain ⟨completed, hComplete, hEq⟩ := Option.map_eq_some_iff.mp h
        have hStorage : completed.wakerStorage =
            poller.wakerStorage.set p.index kind waker := by
          split at hComplete
          · exact ioPendingComplete_storage hComplete
          · exact Option.some.inj hComplete ▸ rfl
        rw [Prod.mk.injEq] at hEq
        obtain ⟨rfl, hSpend⟩ := hEq
        have hIndex : p'.index = p.index := by
          have hSpent : ((p.setPending kind false).spend kind ctx).1.index = p.index :=
            spend_index ctx
          rw [hSpend] at hSpent
          exact hSpent
        exact ⟨waker, hStorage, hIndex, hCalm, fun hNot => by simpa using (hSilent hNot).1⟩
  · simp [hCreated] at h

/-! ## Every step keeps the slots apart -/

/-- A turn keeps the owners, as it replaces a waker in a slot of its own. -/
theorem owns_turn {L : Layout} {s : World W} {id : SocketId} {p : Pollable}
    {io : WakerKind → Io W} {kind : WakerKind} {ctx : Option W} (owns : Owns L s)
    (hLive : s.sockets id = .live p io) : Owns L (s.turn id p io kind ctx) := by
  unfold World.turn
  cases hTurn : p.turn s.poller kind ctx with
  | none => exact owns_failed owns
  | some result =>
      obtain ⟨poller, p', turn⟩ := result
      obtain ⟨waker, done⟩ := turn_spec (owns.calm p.index kind) hTurn
      refine owns_setSocket (owns_poller owns done.calm done.storage) fun index h => ?_
      change (s.sockets id).index? = some index
      rw [hLive]
      simpa [Socket.index?, done.index] using h

section

omit [DecidableEq W]

theorem index?_of_registered? {socket : Socket W} {index : WakerIndex}
    (h : socket.registered? = some index) : socket.index? = some index := by
  cases socket with
  | live p io => exact h
  | dropping p at_ =>
      simp only [Socket.registered?] at h
      split at h
      · simp at h
      · exact h
  | _ => simp [Socket.registered?] at h

/-- A step that may panic keeps the owners if it does so where it goes through. -/
theorem owns_checked {L : Layout} {s : World W} {poller? : Option (Poller W)}
    {f : World W → World W} (owns : Owns L s)
    (hf : ∀ poller, poller? = some poller → Owns L (f { s with poller := poller })) :
    Owns L (s.checked poller? f) := by
  cases poller? with
  | none => exact owns_failed owns
  | some poller => exact hf poller rfl

theorem owns_woken {L : Layout} {s : World W} {poller : Poller W} {index : WakerIndex}
    {kind : WakerKind} (owns : Owns L s) (h : s.poller.wake index kind = some poller) :
    Owns L { s with poller := poller } :=
  owns_poller owns (AtomicWaker.calm_wake (owns.calm index kind)) (wake_storage h)

theorem owns_completed {L : Layout} {s : World W} {p : Pollable} {poller : Poller W}
    (owns : Owns L s) (h : p.completePendings s.poller = some poller) :
    Owns L { s with poller := poller } := by
  obtain ⟨pending, storage⟩ := poller
  obtain rfl : storage = _ := completePendings_storage h
  exact ⟨owns.valid, owns.apart, owns.used, owns.events, owns.calm⟩

/-- A drop gives the slot back with its last operation, and wakes both kinds before. -/
theorem owns_dropStep {L : Layout} {s : World W} {id : SocketId} {p : Pollable} {at_ : Dropping}
    (owns : Owns L s) (hDropping : s.sockets id = .dropping p at_) :
    Owns L (s.dropStep id p at_) := by
  have hSame : ∀ next index, (Socket.dropping p next : Socket W).index? = some index →
      (s.sockets id).index? = some index := by
    intro next index h
    rw [hDropping]
    exact h
  unfold World.dropStep
  cases at_ with
  | wakeRead =>
      exact owns_checked owns fun poller h => owns_setSocket (owns_woken owns h) (hSame _)
  | wakeWrite =>
      exact owns_checked owns fun poller h => owns_setSocket (owns_woken owns h) (hSame _)
  | pendings =>
      exact owns_checked owns fun poller h => owns_setSocket (owns_completed owns h) (hSame _)
  | deregister => exact owns_setSocket owns (hSame _)
  | free => exact owns_free owns (by rw [hDropping]; rfl)

/-- The events of a batch after one of them was looked at. -/
theorem owns_rest {L : Layout} {s : World W} {b : BatchId} {event : Event}
    {rest batch : List Event} (event' : Event) (owns : Owns L s) (hBatch : s.batches b = event :: rest)
    (hToken : event'.token = event.token) (h : ∀ e ∈ batch, e = event' ∨ e ∈ rest) :
    Owns L (s.setBatch b batch) := by
  refine owns_setBatch owns fun e he hNe => ?_
  rcases h e he with rfl | he
  · rw [hToken] at hNe ⊢
    exact owns.events b event (hBatch ▸ List.mem_cons_self) hNe
  · exact owns.events b e (hBatch ▸ List.mem_cons_of_mem _ he) hNe

theorem owns_process {L : Layout} {s : World W} {b : BatchId} {event : Event} {rest : List Event}
    (owns : Owns L s) (hBatch : s.batches b = event :: rest) : Owns L (s.process b event rest) := by
  have hPop : Owns L (s.setBatch b rest) :=
    owns_rest event owns hBatch rfl fun e he => Or.inr he
  unfold World.process
  split
  · exact hPop
  · dsimp only
    split
    · exact owns_checked owns fun poller h => owns_rest { event with readable := false }
        (owns_woken owns h) hBatch rfl fun e => List.mem_cons.mp
    · split
      · exact owns_checked owns fun poller h => owns_rest { event with writable := false }
          (owns_woken owns h) hBatch rfl fun e => List.mem_cons.mp
      · exact hPop

end

/-- Every step keeps the owners of the slots. -/
theorem owns_next {L : Layout} {s s' : World W} {e : Step W} (owns : Owns L s)
    (h : s.next L e = some s') : Owns L s' := by
  cases e with
  | alloc id =>
      cases hSocket : s.sockets id with
      | absent =>
          rcases hAlloc : s.poller.wakerStorage.alloc L with ⟨index?, storage⟩
          cases index? with
          | none =>
              obtain rfl := WakerStorage.alloc_none hAlloc
              simp only [World.next, hSocket, hAlloc, Option.some.injEq] at h
              exact h ▸ owns_setSocket owns fun index hIndex => by simp [Socket.index?] at hIndex
          | some index =>
              simp only [World.next, hSocket, hAlloc, Option.some.injEq] at h
              exact h ▸ owns_alloc owns (WakerStorage.alloc_some owns.valid hAlloc)
      | _ => simp [World.next, hSocket] at h
  | register id ok =>
      cases hSocket : s.sockets id with
      | allocated index =>
          simp only [World.next, hSocket] at h
          split at h
          · exact Option.some.inj h ▸ owns_setSocket owns fun i hi => by rw [hSocket]; exact hi
          · exact Option.some.inj h ▸ owns_free owns (by rw [hSocket]; rfl)
      | _ => simp [World.next, hSocket] at h
  | pollIo id kind ctx =>
      cases hSocket : s.sockets id with
      | live p io =>
          simp only [World.next, hSocket] at h
          split at h
          · exact Option.some.inj h ▸ owns_turn owns hSocket
          · simp at h
      | _ => simp [World.next, hSocket] at h
  | doIo id kind result =>
      cases hSocket : s.sockets id with
      | live p io =>
          have hSame : ∀ (io' : WakerKind → Io W) index, (Socket.live p io').index? = some index →
              (s.sockets id).index? = some index := fun io' index hi => by rw [hSocket]; exact hi
          simp only [World.next, hSocket] at h
          split at h
          · split at h
            · exact Option.some.inj h ▸ owns
            · refine Option.some.inj h ▸ owns_checked owns fun poller hReset => ?_
              obtain ⟨waker, hWaker, hStorage⟩ := reset_storage hReset
              exact owns_setSocket (owns_poller owns
                (AtomicWaker.calm_reset (owns.calm p.index kind) hWaker) hStorage) (hSame _)
            · exact Option.some.inj h ▸ owns_setSocket owns (hSame _)
          · simp at h
      | _ => simp [World.next, hSocket] at h
  | again id kind =>
      cases hSocket : s.sockets id with
      | live p io =>
          simp only [World.next, hSocket] at h
          split at h
          · exact Option.some.inj h ▸ owns_turn owns hSocket
          · simp at h
      | _ => simp [World.next, hSocket] at h
  | drop id =>
      cases hSocket : s.sockets id with
      | live p io =>
          simp only [World.next, hSocket] at h
          split at h
          · exact Option.some.inj h ▸ owns_setSocket owns fun i hi => by rw [hSocket]; exact hi
          · simp at h
      | _ => simp [World.next, hSocket] at h
  | dropping id =>
      cases hSocket : s.sockets id with
      | dropping p at_ =>
          simp only [World.next, hSocket, Option.some.injEq] at h
          exact h ▸ owns_dropStep owns hSocket
      | _ => simp [World.next, hSocket] at h
  | raise b id readable writable =>
      cases hRegistered : (s.sockets id).registered? with
      | none => simp [World.next, hRegistered] at h
      | some index =>
          simp only [World.next, hRegistered, Option.some.injEq] at h
          refine h ▸ owns_setBatch owns fun e he hNe => ?_
          rcases List.mem_append.mp he with he | he
          · exact owns.events b e he hNe
          · obtain rfl := List.mem_singleton.mp he
            simpa using (owns.used id index (index?_of_registered? hRegistered)).2
  | signal b =>
      simp only [World.next, Option.some.injEq] at h
      refine h ▸ owns_setBatch owns fun e he hNe => ?_
      rcases List.mem_append.mp he with he | he
      · exact owns.events b e he hNe
      · exact (hNe (List.mem_singleton.mp he ▸ rfl)).elim
  | process b =>
      cases hBatch : s.batches b with
      | nil => simp [World.next, hBatch] at h
      | cons event rest =>
          simp only [World.next, hBatch, Option.some.injEq] at h
          exact h ▸ owns_process owns hBatch

/-- So each socket has a slot of its own in every reachable state. -/
theorem reachable_owns {L : Layout} {s : World W} (h : (system W L).Reachable s) : Owns L s := by
  refine h.keeps ⟨WakerStorage.valid_new L, ?_, ?_, ?_, fun _ _ => AtomicWaker.calm_new⟩
    fun _ _ _ => owns_next
  · intro id id' index hIndex
    simp [system, Socket.index?] at hIndex
  · intro id index hIndex
    simp [system, Socket.index?] at hIndex
  · intro b event hMem
    simp [system] at hMem

end Yaar.Net
