import Yaar.Net.PollableSlots

/-! What a new socket can see of the readiness of others. -/
namespace Yaar.Net

open Machine

variable {W : Type*} [DecidableEq W]

/-! ## Histories of sockets -/

def Allocates (id : SocketId) (x : World W × Step W) : Prop := x.2 = .alloc id

/-- A `poll_io` of the socket calls `do_io`. A `Ready` is returned from there
only. -/
def CallsIo (id : SocketId) (x : World W × Step W) : Prop := ∃ kind result, x.2 = .doIo id kind result

/-- `PollEvents::process` wakes for an event raised for the socket. -/
def Delivers (id : SocketId) (x : World W × Step W) : Prop :=
  ∃ b event rest, x.2 = .process b ∧ x.1.batches b = event :: rest ∧ event.source = some id ∧
    (event.readable = true ∨ event.writable = true)

/-- Every socket does I/O only after an event of its own. -/
def Isolated (steps : List (World W × Step W)) : Prop :=
  ∀ before between after id new io, steps = before ++ new :: between ++ io :: after →
    Allocates id new → CallsIo id io → ∃ x ∈ between, Delivers id x

/-- An allocation takes no slot with a wake left over from the socket that had it
before, neither recorded in its wakers nor still to come from an event batch. -/
def CleanSlot (s : World W) : Step W → Prop
  | .alloc _ => ∀ index, s.poller.wakerStorage.available.getLast? = some index →
      (∀ kind, ¬(s.poller.wakerStorage.wakers index kind).Notified) ∧
        ∀ b, ∀ event ∈ s.batches b, event.token ≠ usizeMAX → .ofUsize event.token ≠ index
  | _ => True

/-! ## Waiting for the first event -/

section Silent

omit [DecidableEq W]

/-- A socket that waits in its slot: no wake is recorded there, none but for the
socket itself is still to come, and no `poll_io` is past the slot's waker. -/
structure Silent (id : SocketId) (index : WakerIndex) (s : World W) : Prop where
  socket : s.sockets id = .allocated index ∨
    ∃ p io, s.sockets id = .live p io ∧ p.index = index ∧ ∀ kind, io kind = .idle
  wakers : ∀ kind, ¬(s.poller.wakerStorage.wakers index kind).Notified
  events : ∀ b, ∀ event ∈ s.batches b, event.token ≠ usizeMAX →
    .ofUsize event.token = index → event.source = some id

/-- The socket is being dropped, or was, or never came to be. -/
def Ended (id : SocketId) (s : World W) : Prop :=
  (∃ p at_, s.sockets id = .dropping p at_) ∨ s.sockets id = .dropped

def Waits (id : SocketId) (s : World W) : Prop :=
  (∃ index, Silent id index s) ∨ Ended id s

variable {L : Layout} {s : World W} {id : SocketId} {index : WakerIndex}

theorem Silent.index? (silent : Silent id index s) : (s.sockets id).index? = some index := by
  rcases silent.socket with hSocket | ⟨p, io, hSocket, rfl, -⟩ <;> rw [hSocket] <;> rfl

theorem Silent.not_doIo {p : Pollable} {io : WakerKind → Io W} {kind : WakerKind}
    {ctx : Option W} (silent : Silent id index s) (hLive : s.sockets id = .live p io)
    (hIo : io kind = .doIo ctx) : False := by
  rcases silent.socket with hSocket | ⟨p', io', hSocket, -, hIdle⟩
  · simp [hLive] at hSocket
  · obtain ⟨rfl, rfl⟩ := by simpa [hLive] using hSocket
    simp [hIdle kind] at hIo

/-- Another socket has another slot. -/
theorem Silent.apart {id' : SocketId} {index' : WakerIndex} (silent : Silent id index s)
    (owns : Owns L s) (hIndex : (s.sockets id').index? = some index') (hNe : id' ≠ id) :
    index ≠ index' := fun hEq =>
  hNe (owns.apart id' id index (hEq ▸ hIndex) silent.index?)

theorem Silent.failed (silent : Silent id index s) : Silent id index { s with failed := true } :=
  ⟨silent.socket, silent.wakers, silent.events⟩

theorem Silent.setSocket {id' : SocketId} {socket : Socket W} (silent : Silent id index s)
    (hNe : id' ≠ id) : Silent id index (s.setSocket id' socket) := by
  have hSame : (s.setSocket id' socket).sockets id = s.sockets id := by
    simp [World.setSocket, hNe.symm]
  exact ⟨by rw [hSame]; exact silent.socket, silent.wakers, silent.events⟩

/-- A batch may be replaced by one that has no event of another socket for the slot. -/
theorem Silent.setBatch {b : BatchId} {batch : List Event} (silent : Silent id index s)
    (h : ∀ event ∈ batch, event.token ≠ usizeMAX → .ofUsize event.token = index →
      event.source = some id) : Silent id index (s.setBatch b batch) := by
  refine ⟨silent.socket, silent.wakers, fun b' event hMem => ?_⟩
  by_cases hEq : b' = b
  · subst hEq
    exact h event (by simpa [World.setBatch] using hMem)
  · exact silent.events b' event (by simpa [World.setBatch, hEq] using hMem)

/-- A change of the storage that leaves the slot alone. -/
theorem Silent.poller (poller : Poller W) (silent : Silent id index s)
    (h : poller.wakerStorage.wakers index = s.poller.wakerStorage.wakers index) :
    Silent id index { s with poller := poller } :=
  ⟨silent.socket, fun kind => by rw [h]; exact silent.wakers kind, silent.events⟩

theorem Silent.setWaker {poller : Poller W} {index' : WakerIndex} {kind : WakerKind}
    {waker : AtomicWaker W} (silent : Silent id index s) (hNe : index ≠ index')
    (hStorage : poller.wakerStorage = s.poller.wakerStorage.set index' kind waker) :
    Silent id index { s with poller := poller } := by
  refine silent.poller poller ?_
  funext kind'
  rw [hStorage]
  exact WakerStorage.set_of_index _ _ _ _ hNe

theorem Silent.checked {poller? : Option (Poller W)} {f : World W → World W}
    (silent : Silent id index s) (hf : ∀ poller, poller? = some poller →
      Silent id index (f { s with poller := poller })) : Silent id index (s.checked poller? f) := by
  cases poller? with
  | none => exact silent.failed
  | some poller => exact hf poller rfl

theorem Silent.dropStep {id' : SocketId} {p : Pollable} {at_ : Dropping}
    (silent : Silent id index s) (owns : Owns L s) (hDropping : s.sockets id' = .dropping p at_)
    (hNe : id' ≠ id) : Silent id index (s.dropStep id' p at_) := by
  have hApart : index ≠ p.index := silent.apart owns (by rw [hDropping]; rfl) hNe
  unfold World.dropStep
  cases at_ with
  | wakeRead =>
      exact silent.checked fun poller h => (silent.setWaker hApart (wake_storage h)).setSocket hNe
  | wakeWrite =>
      exact silent.checked fun poller h => (silent.setWaker hApart (wake_storage h)).setSocket hNe
  | pendings =>
      refine silent.checked fun poller h => (silent.poller poller ?_).setSocket hNe
      rw [completePendings_storage h]
  | deregister => exact silent.setSocket hNe
  | free =>
      exact (silent.poller { s.poller with
        wakerStorage := s.poller.wakerStorage.free p.index } rfl).setSocket hNe

/-- Processing an event of another socket reaches another slot. -/
theorem Silent.process {b : BatchId} {event : Event} {rest : List Event}
    (silent : Silent id index s) (hBatch : s.batches b = event :: rest)
    (hDelivers : event.readable = true ∨ event.writable = true → event.source ≠ some id) :
    Silent id index (s.process b event rest) := by
  have hRest : ∀ e ∈ rest, e.token ≠ usizeMAX → .ofUsize e.token = index → e.source = some id :=
    fun e he => silent.events b e (hBatch ▸ List.mem_cons_of_mem _ he)
  have hPop : Silent id index (s.setBatch b rest) := silent.setBatch hRest
  have hFirst : event.token ≠ usizeMAX → .ofUsize event.token = index →
      event.source = some id := silent.events b event (hBatch ▸ List.mem_cons_self)
  have hWake : ∀ (kind : WakerKind) (event' : Event), event.token ≠ usizeMAX →
      event.readable = true ∨ event.writable = true → event'.token = event.token →
      event'.source = event.source →
      Silent id index (s.checked (s.poller.wake (.ofUsize event.token) kind) fun s =>
        s.setBatch b (event' :: rest)) := by
    intro kind event' hNe hSet hToken hSource
    have hApart : index ≠ .ofUsize event.token := fun hEq => hDelivers hSet (hFirst hNe hEq.symm)
    refine silent.checked fun poller h =>
      (silent.setWaker hApart (wake_storage h)).setBatch fun e he => ?_
    rcases List.mem_cons.mp he with rfl | he
    · rw [hToken, hSource]
      exact hFirst
    · exact hRest e he
  unfold World.process
  split
  · exact hPop
  · next hNe =>
      dsimp only
      split
      · next hReadable => exact hWake _ _ hNe (Or.inl hReadable) rfl rfl
      · split
        · next hWritable => exact hWake _ _ hNe (Or.inr hWritable) rfl rfl
        · exact hPop

end Silent

/-- A turn of `poll_io` finds the slot of a waiting socket without a wake and ends in
`Pending`, and those of other sockets are in other slots. -/
theorem Silent.turn {L : Layout} {s : World W} {id id' : SocketId} {index : WakerIndex}
    {p : Pollable} {io : WakerKind → Io W} {kind : WakerKind} {ctx : Option W}
    (silent : Silent id index s) (owns : Owns L s) (hLive : s.sockets id' = .live p io) :
    Silent id index (s.turn id' p io kind ctx) := by
  unfold World.turn
  cases hTurn : p.turn s.poller kind ctx with
  | none => exact silent.failed
  | some result =>
      obtain ⟨poller, p', turn⟩ := result
      obtain ⟨waker, done⟩ := turn_spec (owns.calm p.index kind) hTurn
      by_cases hEq : id' = id
      · -- The turn of the socket itself finds no wake and ends in `Pending`.
        subst hEq
        obtain ⟨rfl, hIdle⟩ : p.index = index ∧ ∀ kind, io kind = .idle := by
          rcases silent.socket with hSocket | ⟨p', io', hSocket, hIndex, hIdle⟩
          · simp [hLive] at hSocket
          · obtain ⟨rfl, rfl⟩ := by simpa [hLive] using hSocket
            exact ⟨hIndex, hIdle⟩
        obtain ⟨rfl, hQuiet⟩ := done.silent (silent.wakers kind)
        refine ⟨Or.inr ⟨p', _, Function.update_self _ _ _, done.index, fun kind' => ?_⟩,
          fun kind' => ?_, silent.events⟩
        · by_cases hKind : kind' = kind <;> simp [hKind, hIdle]
        · change ¬(poller.wakerStorage.wakers p.index kind').Notified
          rw [done.storage]
          by_cases hKind : kind' = kind
          · subst hKind
            simpa using hQuiet
          · rw [WakerStorage.set_of_kind _ _ _ hKind]
            exact silent.wakers kind'
      · have hApart : index ≠ p.index := silent.apart owns (by rw [hLive]; rfl) hEq
        exact (silent.setWaker hApart done.storage).setSocket hEq

/-- A socket waits until an event of its own is delivered, or it is dropped. -/
theorem silent_next {L : Layout} {s s' : World W} {e : Step W} {id : SocketId}
    {index : WakerIndex} (silent : Silent id index s) (owns : Owns L s)
    (hDelivers : ¬Delivers id (s, e)) (h : s.next L e = some s') : Waits id s' := by
  cases e with
  | alloc id' =>
      cases hSocket : s.sockets id' with
      | absent =>
          have hNe : id' ≠ id := by
            rintro rfl
            have hIndex := silent.index?
            simp [hSocket, Socket.index?] at hIndex
          rcases hAlloc : s.poller.wakerStorage.alloc L with ⟨index?, storage⟩
          cases index? with
          | none =>
              obtain rfl := WakerStorage.alloc_none hAlloc
              simp only [World.next, hSocket, hAlloc, Option.some.injEq] at h
              exact h ▸ Or.inl ⟨index, silent.setSocket hNe⟩
          | some index' =>
              have done := WakerStorage.alloc_some owns.valid hAlloc
              simp only [World.next, hSocket, hAlloc, Option.some.injEq] at h
              refine h ▸ Or.inl ⟨index, (silent.poller { s.poller with
                wakerStorage := storage } ?_).setSocket hNe⟩
              exact (done.older index (owns.used id index silent.index?).2).2
      | _ => simp [World.next, hSocket] at h
  | register id' ok =>
      cases hSocket : s.sockets id' with
      | allocated index' =>
          simp only [World.next, hSocket] at h
          by_cases hEq : id' = id
          · subst hEq
            obtain rfl : index' = index := by simpa [hSocket, Socket.index?] using silent.index?
            split at h
            · refine Option.some.inj h ▸ Or.inl ⟨index', ?_, silent.wakers, silent.events⟩
              exact Or.inr ⟨.new index', _, by simp [World.setSocket], rfl, fun _ => rfl⟩
            · exact Option.some.inj h ▸ Or.inr (Or.inr (by simp [World.setSocket]))
          · split at h
            · exact Option.some.inj h ▸ Or.inl ⟨index, silent.setSocket hEq⟩
            · exact Option.some.inj h ▸ Or.inl ⟨index, (silent.poller { s.poller with
                wakerStorage := s.poller.wakerStorage.free index' } rfl).setSocket hEq⟩
      | _ => simp [World.next, hSocket] at h
  | pollIo id' kind ctx =>
      cases hSocket : s.sockets id' with
      | live p io =>
          simp only [World.next, hSocket] at h
          split at h
          · exact Option.some.inj h ▸ Or.inl ⟨index, silent.turn owns hSocket⟩
          · simp at h
      | _ => simp [World.next, hSocket] at h
  | doIo id' kind result =>
      cases hSocket : s.sockets id' with
      | live p io =>
          simp only [World.next, hSocket] at h
          split at h
          · next ctx hIo =>
              have hNe : id' ≠ id := fun hEq => silent.not_doIo (hEq ▸ hSocket) hIo
              split at h
              · exact Option.some.inj h ▸ Or.inl ⟨index, silent⟩
              · refine Option.some.inj h ▸ Or.inl ⟨index, silent.checked fun poller hReset => ?_⟩
                obtain ⟨waker, -, hStorage⟩ := reset_storage hReset
                have hApart : index ≠ p.index := silent.apart owns (by rw [hSocket]; rfl) hNe
                exact (silent.setWaker hApart hStorage).setSocket hNe
              · exact Option.some.inj h ▸ Or.inl ⟨index, silent.setSocket hNe⟩
          · simp at h
      | _ => simp [World.next, hSocket] at h
  | again id' kind =>
      cases hSocket : s.sockets id' with
      | live p io =>
          simp only [World.next, hSocket] at h
          split at h
          · exact Option.some.inj h ▸ Or.inl ⟨index, silent.turn owns hSocket⟩
          · simp at h
      | _ => simp [World.next, hSocket] at h
  | drop id' =>
      cases hSocket : s.sockets id' with
      | live p io =>
          simp only [World.next, hSocket] at h
          split at h
          · by_cases hEq : id' = id
            · subst hEq
              exact Option.some.inj h ▸ Or.inr (Or.inl ⟨p, .wakeRead, by simp [World.setSocket]⟩)
            · exact Option.some.inj h ▸ Or.inl ⟨index, silent.setSocket hEq⟩
          · simp at h
      | _ => simp [World.next, hSocket] at h
  | dropping id' =>
      cases hSocket : s.sockets id' with
      | dropping p at_ =>
          have hNe : id' ≠ id := by
            rintro rfl
            rcases silent.socket with hOther | ⟨_, _, hOther, -⟩ <;> simp [hSocket] at hOther
          simp only [World.next, hSocket, Option.some.injEq] at h
          exact h ▸ Or.inl ⟨index, silent.dropStep owns hSocket hNe⟩
      | _ => simp [World.next, hSocket] at h
  | raise b id' readable writable =>
      cases hRegistered : (s.sockets id').registered? with
      | none => simp [World.next, hRegistered] at h
      | some index' =>
          simp only [World.next, hRegistered, Option.some.injEq] at h
          refine h ▸ Or.inl ⟨index, silent.setBatch fun e he hNe hIndex => ?_⟩
          rcases List.mem_append.mp he with he | he
          · exact silent.events b e he hNe hIndex
          · obtain rfl := List.mem_singleton.mp he
            have hIndex' : index' = index := by simpa using hIndex
            exact congrArg some (owns.apart id' id index
              (hIndex' ▸ index?_of_registered? hRegistered) silent.index?)
  | signal b =>
      simp only [World.next, Option.some.injEq] at h
      refine h ▸ Or.inl ⟨index, silent.setBatch fun e he hNe => ?_⟩
      rcases List.mem_append.mp he with he | he
      · exact silent.events b e he hNe
      · exact (hNe (List.mem_singleton.mp he ▸ rfl)).elim
  | process b =>
      cases hBatch : s.batches b with
      | nil => simp [World.next, hBatch] at h
      | cons event rest =>
          simp only [World.next, hBatch, Option.some.injEq] at h
          refine h ▸ Or.inl ⟨index, silent.process hBatch fun hSet hSource => ?_⟩
          exact hDelivers ⟨b, event, rest, rfl, hBatch, hSource, hSet⟩

/-- The socket a step belongs to. -/
def Step.socket? : Step W → Option SocketId
  | .alloc id | .register id _ | .pollIo id _ _ | .doIo id _ _ | .again id _ | .drop id
  | .dropping id => some id
  | .raise _ _ _ _ | .signal _ | .process _ => none

omit [DecidableEq W] in
/-- A socket that is replaced leaves the other ones as they are. -/
theorem sockets_setSocket {s : World W} {id id' : SocketId} {socket : Socket W} (h : id' ≠ id) :
    (s.setSocket id' socket).sockets id = s.sockets id := by
  simp [World.setSocket, h.symm]

omit [DecidableEq W] in
theorem sockets_checked {s : World W} {id : SocketId} {poller? : Option (Poller W)}
    {f : World W → World W} (hf : ∀ t : World W, (f t).sockets id = t.sockets id) :
    (s.checked poller? f).sockets id = s.sockets id := by
  cases poller? with
  | none => rfl
  | some poller => exact hf _

theorem sockets_turn {s : World W} {id id' : SocketId} {p : Pollable} {io : WakerKind → Io W}
    {kind : WakerKind} {ctx : Option W} (h : id' ≠ id) :
    (s.turn id' p io kind ctx).sockets id = s.sockets id := by
  unfold World.turn
  cases p.turn s.poller kind ctx with
  | none => rfl
  | some result => exact sockets_setSocket h

omit [DecidableEq W] in
theorem sockets_dropStep {s : World W} {id id' : SocketId} {p : Pollable} {at_ : Dropping}
    (h : id' ≠ id) : (s.dropStep id' p at_).sockets id = s.sockets id := by
  cases at_ with
  | wakeRead | wakeWrite | pendings => exact sockets_checked fun _ => sockets_setSocket h
  | deregister | free => exact sockets_setSocket h

omit [DecidableEq W] in
theorem sockets_process {s : World W} {id : SocketId} {b : BatchId} {event : Event}
    {rest : List Event} : (s.process b event rest).sockets id = s.sockets id := by
  unfold World.process
  split
  · rfl
  · dsimp only
    split
    · exact sockets_checked fun _ => rfl
    · split
      · exact sockets_checked fun _ => rfl
      · rfl

/-- A step of another socket, or of a batch, does not move a socket. -/
theorem sockets_next {L : Layout} {s s' : World W} {e : Step W} {id : SocketId}
    (hOther : e.socket? ≠ some id) (h : s.next L e = some s') : s'.sockets id = s.sockets id := by
  have hNe : ∀ id', e.socket? = some id' → id' ≠ id := fun id' hId hEq => hOther (hEq ▸ hId)
  cases e with
  | alloc id' =>
      simp only [World.next] at h
      split at h
      · split at h <;> exact Option.some.inj h ▸ sockets_setSocket (hNe id' rfl)
      · simp at h
  | register id' ok =>
      simp only [World.next] at h
      split at h
      · split at h <;> exact Option.some.inj h ▸ sockets_setSocket (hNe id' rfl)
      · simp at h
  | pollIo id' kind ctx =>
      simp only [World.next] at h
      split at h
      · split at h
        · exact Option.some.inj h ▸ sockets_turn (hNe id' rfl)
        · simp at h
      · simp at h
  | doIo id' kind result =>
      simp only [World.next] at h
      split at h
      · split at h
        · split at h
          · exact Option.some.inj h ▸ rfl
          · exact Option.some.inj h ▸ sockets_checked fun _ => sockets_setSocket (hNe id' rfl)
          · exact Option.some.inj h ▸ sockets_setSocket (hNe id' rfl)
        · simp at h
      · simp at h
  | again id' kind =>
      simp only [World.next] at h
      split at h
      · split at h
        · exact Option.some.inj h ▸ sockets_turn (hNe id' rfl)
        · simp at h
      · simp at h
  | drop id' =>
      simp only [World.next] at h
      split at h
      · split at h
        · exact Option.some.inj h ▸ sockets_setSocket (hNe id' rfl)
        · simp at h
      · simp at h
  | dropping id' =>
      simp only [World.next] at h
      split at h
      · exact Option.some.inj h ▸ sockets_dropStep (hNe id' rfl)
      · simp at h
  | raise b id' readable writable =>
      simp only [World.next] at h
      split at h
      · exact Option.some.inj h ▸ rfl
      · simp at h
  | signal b => exact Option.some.inj h ▸ rfl
  | process b =>
      simp only [World.next] at h
      split at h
      · simp at h
      · exact Option.some.inj h ▸ sockets_process

omit [DecidableEq W] in
theorem ended_checked {s : World W} {id : SocketId} {poller? : Option (Poller W)}
    {f : World W → World W} (ended : Ended id s) (hf : ∀ t, Ended id (f t)) :
    Ended id (s.checked poller? f) := by
  cases poller? with
  | none => exact ended
  | some poller => exact hf _

omit [DecidableEq W] in
theorem ended_setSocket {s : World W} {id : SocketId} {p : Pollable} {at_ : Dropping} :
    Ended id (s.setSocket id (.dropping p at_)) :=
  Or.inl ⟨p, at_, by simp [World.setSocket]⟩

/-- A socket that has ended stays so. -/
theorem ended_next {L : Layout} {s s' : World W} {e : Step W} {id : SocketId}
    (ended : Ended id s) (h : s.next L e = some s') : Ended id s' := by
  by_cases hOther : e.socket? = some id
  · rcases ended with ⟨p, at_, hDropping⟩ | hDropped
    · cases e with
      | raise | signal | process => simp [Step.socket?] at hOther
      | dropping id' =>
          obtain rfl : id' = id := by simpa [Step.socket?] using hOther
          simp only [World.next, hDropping, Option.some.injEq] at h
          subst h
          have hHere : Ended id' s := Or.inl ⟨p, at_, hDropping⟩
          unfold World.dropStep
          cases at_ with
          | wakeRead | wakeWrite | pendings => exact ended_checked hHere fun _ => ended_setSocket
          | deregister => exact ended_setSocket
          | free => exact Or.inr (by simp [World.setSocket])
      | _ id' =>
          obtain rfl : id' = id := by simpa [Step.socket?] using hOther
          simp [World.next, hDropping] at h
    · cases e with
      | raise | signal | process => simp [Step.socket?] at hOther
      | _ id' =>
          obtain rfl : id' = id := by simpa [Step.socket?] using hOther
          simp [World.next, hDropped] at h
  · unfold Ended
    rw [sockets_next hOther h]
    exact ended

/-- An allocation that meets the condition starts the wait. -/
theorem waits_of_allocates {L : Layout} {s s' : World W} {e : Step W} {id : SocketId}
    (owns : Owns L s) (hAlloc : Allocates id (s, e)) (hClean : CleanSlot s e)
    (h : s.next L e = some s') : Waits id s' := by
  obtain rfl : e = .alloc id := hAlloc
  cases hSocket : s.sockets id with
  | absent =>
      rcases hCall : s.poller.wakerStorage.alloc L with ⟨index?, storage⟩
      cases index? with
      | none =>
          simp only [World.next, hSocket, hCall, Option.some.injEq] at h
          exact h ▸ Or.inr (Or.inr (by simp [World.setSocket]))
      | some index =>
          have done := WakerStorage.alloc_some owns.valid hCall
          simp only [World.next, hSocket, hCall, Option.some.injEq] at h
          refine h ▸ Or.inl ⟨index, Or.inl (by simp [World.setSocket]), fun kind => ?_,
            fun b event hMem hNe hIndex => ?_⟩
          · change ¬(storage.wakers index kind).Notified
            cases done.source with
            | recycled last wakers => exact wakers ▸ (hClean index last).1 kind
            | fresh created empty => simp [empty, AtomicWaker.Notified, AtomicWaker.new]
          · cases done.source with
            | recycled last wakers => exact ((hClean index last).2 b event hMem hNe hIndex).elim
            | fresh created empty => exact (created (hIndex ▸ owns.events b event hMem hNe)).elim
  | _ => simp [World.next, hSocket] at h

/-- Every history whose allocations get a clean slot keeps sockets apart. -/
theorem isolated_of_cleanSlot {L : Layout} {steps : List (World W × Step W)} {s : World W}
    (run : (system W L).Run steps s) (clean : Meets CleanSlot steps) : Isolated steps := by
  rintro before between after id new io rfl hNew hIo
  by_contra hNone
  obtain ⟨s₁, hPrior, hLast, -⟩ := System.Path.split run
  obtain ⟨s₂, hBefore, hNext, hBetween⟩ := hPrior.split
  have hReach : (system W L).Reachable new.1 := ⟨_, hBefore⟩
  have hStart : Waits id s₂ :=
    waits_of_allocates (reachable_owns hReach) hNew (clean new (by simp)) hNext
  have hWaits : Waits id io.1 := by
    refine hBetween.keeps (fun u e => ¬Delivers id (u, e)) (Owns L) (fun x hx h => hNone ⟨x, hx, h⟩)
      (fun _ _ first _ => reachable_owns ((hReach.next hNext).path first)) hStart ?_
    rintro u e v owns (⟨index, silent⟩ | ended) hDelivers hStep
    · exact silent_next silent owns hDelivers hStep
    · exact Or.inr (ended_next ended hStep)
  obtain ⟨u, e⟩ := io
  obtain ⟨kind, result, hEvent⟩ := hIo
  obtain rfl : e = .doIo id kind result := hEvent
  change Waits id u at hWaits
  simp only [system, World.next] at hLast
  split at hLast
  · next p io hLive =>
      split at hLast
      · next ctx hCtx =>
          rcases hWaits with ⟨index, silent⟩ | ⟨_, _, hEnded⟩ | hEnded
          · exact silent.not_doIo hLive hCtx
          · simp [hLive] at hEnded
          · simp [hLive] at hEnded
      · simp at hLast
  · simp at hLast

/-- `size_of` for a 64-bit target: 64 bytes for an entry and 8 for a block. -/
def layout64 : Layout := ⟨1024, 8192, by decide, by decide, by decide, by decide⟩

/-- Making a socket leaves the events that are to be processed alone. -/
theorem batches_made {L : Layout} {s s' : World W} {e : Step W}
    (hMade : (∃ id, e = .alloc id) ∨ ∃ id ok, e = .register id ok)
    (h : World.next L s e = some s') : s'.batches = s.batches := by
  rcases hMade with ⟨id, rfl⟩ | ⟨id, ok, rfl⟩
  · simp only [World.next] at h
    split at h
    · split at h <;> obtain rfl := Option.some.inj h <;> rfl
    · simp at h
  · simp only [World.next] at h
    split at h
    · split at h <;> obtain rfl := Option.some.inj h <;> rfl
    · simp at h

/-- A socket whose registration fails. -/
def failedRegister : List (Step Unit) := [.alloc 0, .register 0 false]

/-- A socket after it that waits for an event and reads when it has come. -/
def nextSocket : List (Step Unit) :=
  [.alloc 1, .register 1 true, .pollIo 1 .Read (some ()), .raise 0 1 true false, .process 0,
    .pollIo 1 .Read (some ()), .doIo 1 .Read .other]

/-- The second socket gets the slot that the first has given back, in which no wake is
left over. -/
theorem isolated_of_cleanSlot_nextSocket : ∃ steps s, (system Unit layout64).Run steps s ∧
    Meets CleanSlot steps ∧ Isolated steps := by
  obtain ⟨t, hFirst, hFacts⟩ := Option.map_eq_some_iff.mp
    (by decide +kernel : ((system Unit layout64).replay (system Unit layout64).initial
      failedRegister).map (fun t => (t.poller.wakerStorage.available.getLast?.map fun index =>
        (decide (t.poller.wakerStorage.wakers index .Read).Notified,
          decide (t.poller.wakerStorage.wakers index .Write).Notified),
        ((system Unit layout64).replay t nextSocket).isSome)) = some (some (false, false), true))
  have hBatches : ∀ b, t.batches b = [] := by
    obtain ⟨u, hAlloc, v, hRegister, hEq⟩ : ∃ u,
        World.next layout64 (system Unit layout64).initial (.alloc 0) = some u ∧
          ∃ v, World.next layout64 u (.register 0 false) = some v ∧ some v = some t := by
      simpa [System.replay, failedRegister, Option.bind_eq_some_iff, system] using hFirst
    intro b
    rw [← Option.some.inj hEq, batches_made (Or.inr ⟨0, false, rfl⟩) hRegister,
      batches_made (Or.inl ⟨0, rfl⟩) hAlloc]
    rfl
  simp only [Prod.mk.injEq, Option.map_eq_some_iff, decide_eq_false_iff_not] at hFacts
  obtain ⟨⟨slot, hSlot, hRead, hWrite⟩, hNext⟩ := hFacts
  obtain ⟨s, hNext⟩ := Option.isSome_iff_exists.mp hNext
  have run := (System.path_of_replay hFirst).trans (System.path_of_replay hNext)
  have hClean : Meets CleanSlot ((system Unit layout64).trace (system Unit layout64).initial
      failedRegister ++ (system Unit layout64).trace t nextSocket) := by
    rintro ⟨u, e⟩ hx
    rcases List.mem_append.mp hx with hx | hx <;> rcases System.mem_trace_cons hx with hEq | hMem
    · obtain ⟨rfl, rfl⟩ := Prod.mk.inj hEq
      intro index hIndex
      simp [system, Poller.new, WakerStorage.new] at hIndex
    · simp only [List.mem_cons, List.not_mem_nil, or_false] at hMem
      exact hMem ▸ trivial
    · obtain ⟨rfl, rfl⟩ := Prod.mk.inj hEq
      intro index hIndex
      obtain rfl : slot = index := Option.some.inj (hSlot.symm.trans hIndex)
      refine ⟨fun kind => ?_, fun b => by simp [hBatches]⟩
      cases kind
      · exact hRead
      · exact hWrite
    · simp only [List.mem_cons, List.not_mem_nil, or_false] at hMem
      rcases hMem with rfl | rfl | rfl | rfl | rfl | rfl <;> trivial
  exact ⟨_, s, run, hClean, isolated_of_cleanSlot run hClean⟩

/-- A socket that is made and dropped. -/
def recycledSlot : List (Step Unit) :=
  [.alloc 0, .register 0 true, .drop 0, .dropping 0, .dropping 0, .dropping 0, .dropping 0,
    .dropping 0]

/-- A second socket gets the slot of the first, with the wakes `drop` left there,
and calls `do_io` at its first poll although no event was ever raised. -/
theorem recycledSlot_not_isolated :
    ¬∀ steps s, (system Unit layout64).Run steps s → Isolated steps := by
  intro h
  obtain ⟨t, hFirst, hSecond⟩ := Option.map_eq_some_iff.mp
    (by decide +kernel : ((system Unit layout64).replay (system Unit layout64).initial
      recycledSlot).map (fun t => ((system Unit layout64).replay t
        [.alloc 1, .register 1 true, .pollIo 1 .Write (some ()), .doIo 1 .Write .other]).isSome) =
      some true)
  obtain ⟨s, hSecond⟩ := Option.isSome_iff_exists.mp hSecond
  simp only [System.replay, List.foldlM_cons, List.foldlM_nil, Option.bind_eq_bind,
    Option.bind_eq_some_iff] at hSecond
  obtain ⟨u, hAlloc, v, hRegister, w, hPoll, x, hIo, -⟩ := hSecond
  have run := ((((System.path_of_replay hFirst).step hAlloc).step hRegister).step hPoll).step hIo
  obtain ⟨y, hy, b, event, rest, hEvent, -⟩ := h _ x run _
    [(u, .register 1 true), (v, .pollIo 1 .Write (some ()))] [] 1 (t, .alloc 1)
    (w, .doIo 1 .Write .other) (by simp only [List.append_assoc]; rfl) rfl ⟨_, _, rfl⟩
  simp only [List.mem_cons, List.not_mem_nil, or_false] at hy
  rcases hy with rfl | rfl <;> simp at hEvent

end Yaar.Net
