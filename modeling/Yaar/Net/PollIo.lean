import Yaar.Net.Pollable

/-! `poll_io` and `drop` of `net/internal/pollable.rs`, one atomic operation at a
time: any number of threads call, drop and wake, over any sockets of one poller. -/
namespace Yaar.Net.PollIo

open Machine

/-- The places where `poll_io` can panic. `unwrap` is the block of `with_wakers`. -/
inductive Failure where
  | unwrap
  | waker (failure : AtomicWaker.Failure)
  | begin
  | complete
  deriving DecidableEq

/-- The next operation of a `poll_io`: its own, or that of the `poll` or `reset` of
the slot's waker it is inside. -/
inductive Line (W : Type*) where
  | load
  | poll (isPending : Bool) (at_ : AtomicWaker.Poller W)
  | begin
  | storePending
  | complete
  | storeCompleted
  | loadBudget
  | storeBudget (budget : UInt8)
  | yield
  | doIo
  /-- inside `do_io` -/
  | inIo
  | reset (at_ : AtomicWaker.Poller W)
  deriving DecidableEq

/-- A thread or task that calls `poll_io` or, without a context, `try_io`. -/
inductive Caller (W : Type*) where
  | idle
  | call (id : SocketId) (kind : WakerKind) (ctx : Option W) (line : Line W)
  | panicked (failure : Failure)
  deriving DecidableEq

/-- The next operation of `drop`, where `wake` lasts until the wake has returned. -/
inductive Dropping where
  | wake (kind : WakerKind)
  | load (kind : WakerKind)
  | complete (kind : WakerKind)
  | free
  | panicked
  deriving DecidableEq

/-- The loop over `pendings` in `drop`. -/
def Dropping.after : WakerKind → Dropping
  | .Read => .load .Write
  | .Write => .free

inductive Socket where
  | absent
  /-- in `register`, between the allocation and the registration -/
  | allocated (index : WakerIndex)
  | live (p : Pollable)
  | dropping (p : Pollable) (at_ : Dropping)
  | dropped

/-- A call of `wake` on the waker of a slot. -/
structure Wake (W : Type*) where
  index : WakerIndex
  kind : WakerKind
  at_ : AtomicWaker.Waking W

/-- One net poller, its sockets and their callers. Wakes are made by threads `V` that
process events and by the drops of sockets. -/
structure State (T V W : Type*) where
  pending : Nat
  storage : WakerStorage W
  locks : WakerIndex → WakerKind → Option (AtomicWaker.Holder (V ⊕ SocketId))
  sockets : SocketId → Socket
  callers : T → Caller W
  wakes : V ⊕ SocketId → Option (Wake W)

inductive Event (T V W : Type*) where
  /-- the allocation in `Pollable::new` -/
  | alloc (id : SocketId)
  /-- the registration in `Pollable::new`, which frees the slot when it fails -/
  | register (id : SocketId) (ok : Bool)
  /-- a call of `poll_io` -/
  | call (t : T) (id : SocketId) (kind : WakerKind) (ctx : Option W)
  /-- the next operation of a call -/
  | step (t : T)
  /-- `do_io` returns; with any other result the call returns too -/
  | doIo (t : T) (result : IoResult)
  /-- the start of `drop` -/
  | drop (id : SocketId)
  /-- the next operation of a `drop` -/
  | dropping (id : SocketId)
  /-- `PollEvents::process` wakes a slot -/
  | wake (v : V) (index : WakerIndex) (kind : WakerKind)
  /-- the next operation of a wake -/
  | waker (u : V ⊕ SocketId)

variable {T V W : Type*}

/-- `fetch_add(1)` and `fetch_sub(1)` of a `usize`, which wrap. -/
def fetchAdd (pending : Nat) : Nat := (pending + 1) % 2 ^ 64

def fetchSub (pending : Nat) : Nat := (pending + usizeMAX) % 2 ^ 64

/-- The socket and the kind a call is for. -/
def Caller.pair? : Caller W → Option (SocketId × WakerKind)
  | .call id kind _ _ => some (id, kind)
  | _ => none

def Caller.socket? (caller : Caller W) : Option SocketId := caller.pair?.map Prod.fst

/-- Where a call goes on once its waker is ready: `try_io` has no budget. -/
def Line.spend (ctx : Option W) : Line W := if ctx.isSome then .loadBudget else .doIo

/-- Where a call goes on after an operation inside `poll`. -/
def Caller.polled (id : SocketId) (kind : WakerKind) (ctx : Option W) (isPending : Bool) :
    AtomicWaker.Poller W → Caller W
  | .idle true => .call id kind ctx (if isPending then .complete else .spend ctx)
  -- With `isPending` the call returns `Pending`.
  | .idle false => if isPending then .idle else .call id kind ctx .begin
  | .panicked failure => .panicked (.waker failure)
  | at_ => .call id kind ctx (.poll isPending at_)

/-- Where a call goes on after an operation inside `reset`. -/
def Caller.resetting (id : SocketId) (kind : WakerKind) (ctx : Option W) :
    AtomicWaker.Poller W → Caller W
  | .idle _ => .call id kind ctx .load
  | .panicked failure => .panicked (.waker failure)
  | at_ => .call id kind ctx (.reset at_)

/-- Where a call goes on when `do_io` returns. -/
def Caller.returned (id : SocketId) (kind : WakerKind) (ctx : Option W) : IoResult → Caller W
  | .interrupted => .call id kind ctx .doIo
  | .wouldBlock => .call id kind ctx (.reset .resetLoad)
  | .other => .idle

namespace State

variable [DecidableEq V]

def cell (s : State T V W) (index : WakerIndex) (kind : WakerKind) :
    AtomicWaker.Cell (V ⊕ SocketId) W :=
  { s.storage.wakers index kind with lock := s.locks index kind }

def setCell (s : State T V W) (index : WakerIndex) (kind : WakerKind)
    (cell : AtomicWaker.Cell (V ⊕ SocketId) W) : State T V W :=
  { s with
    storage := s.storage.set index kind cell.toAtomicWaker
    locks := Function.update s.locks index (Function.update (s.locks index) kind cell.lock) }

def setSocket (s : State T V W) (id : SocketId) (socket : Socket) : State T V W :=
  { s with sockets := Function.update s.sockets id socket }

def setCaller [DecidableEq T] (s : State T V W) (t : T) (caller : Caller W) : State T V W :=
  { s with callers := Function.update s.callers t caller }

def setWake (s : State T V W) (u : V ⊕ SocketId) (wake : Option (Wake W)) : State T V W :=
  { s with wakes := Function.update s.wakes u wake }

section Steps

variable [DecidableEq T] [DecidableEq W]

/-- One operation of a `poll_io`. It is none while `do_io` runs. -/
def callStep (s : State T V W) (t : T) (id : SocketId) (p : Pollable) (kind : WakerKind)
    (ctx : Option W) : Line W → Option (State T V W)
  | .load => some (s.setCaller t (.call id kind ctx (.poll (p.pendings kind) (.loadNotified ctx))))
  | .poll isPending at_ =>
      (AtomicWaker.pollerStep (s.cell p.index kind) at_).map fun (cell, at_) =>
        (s.setCell p.index kind cell).setCaller t (.polled id kind ctx isPending at_)
  | .begin =>
      some ({ s with pending := fetchAdd s.pending }.setCaller t
        (if s.pending = usizeMAX then .panicked .begin else .call id kind ctx .storePending))
  | .storePending =>
      some ((s.setSocket id (.live (p.setPending kind true))).setCaller t .idle)
  | .complete =>
      some ({ s with pending := fetchSub s.pending }.setCaller t
        (if s.pending = 0 then .panicked .complete else .call id kind ctx .storeCompleted))
  | .storeCompleted =>
      some ((s.setSocket id (.live (p.setPending kind false))).setCaller t
        (.call id kind ctx (.spend ctx)))
  | .loadBudget => some (s.setCaller t (.call id kind ctx (.storeBudget (p.budgets kind))))
  | .storeBudget budget =>
      let newBudget := Pollable.checkedPred budget
      let p := { p with
        budgets := Function.update p.budgets kind (newBudget.getD BUDGET) }
      some ((s.setSocket id (.live p)).setCaller t
        (.call id kind ctx (if newBudget.isNone then .yield else .doIo)))
  | .yield => some (s.setCaller t .idle)
  | .doIo => some (s.setCaller t (.call id kind ctx .inIo))
  | .inIo => none
  | .reset at_ =>
      (AtomicWaker.pollerStep (s.cell p.index kind) at_).map fun (cell, at_) =>
        (s.setCell p.index kind cell).setCaller t (.resetting id kind ctx at_)

/-- One operation of `drop`. -/
def dropStep (s : State T V W) (id : SocketId) (p : Pollable) : Dropping → Option (State T V W)
  | .wake kind =>
      match s.wakes (.inr id), kind with
      | some _, _ => none
      | none, .Read =>
          some ((s.setWake (.inr id) (some ⟨p.index, .Write, .update⟩)).setSocket id
            (.dropping p (.wake .Write)))
      | none, .Write => some (s.setSocket id (.dropping p (.load .Read)))
  | .load kind =>
      some (s.setSocket id (.dropping p (if p.pendings kind then .complete kind else .after kind)))
  | .complete kind =>
      some ({ s with pending := fetchSub s.pending }.setSocket id
        (.dropping p (if s.pending = 0 then .panicked else .after kind)))
  | .free => some ({ s with storage := s.storage.free p.index }.setSocket id .dropped)
  | .panicked => none

/-- One operation of a wake. -/
def wakeStep (s : State T V W) (u : V ⊕ SocketId) (wake : Wake W) : Option (State T V W) :=
  (AtomicWaker.wakerStep (s.cell wake.index wake.kind) u wake.at_).map fun (cell, at_) =>
    (s.setCell wake.index wake.kind cell).setWake u
      (if at_ = .idle then none else some { wake with at_ := at_ })

end Steps

end State

section Machine

variable [Fintype T] [DecidableEq T] [DecidableEq V] [DecidableEq W]

/-- A socket is dropped by its owner, when nobody borrows it for a call. -/
def next (L : Layout) (s : State T V W) : Event T V W → Option (State T V W)
  | .alloc id =>
      match s.sockets id with
      | .absent =>
          let (index?, storage) := s.storage.alloc L
          -- Without a slot `new` returns `OutOfMemory`.
          some ({ s with storage := storage }.setSocket id (index?.elim .dropped .allocated))
      | _ => none
  | .register id ok =>
      match s.sockets id with
      | .allocated index =>
          if ok then some (s.setSocket id (.live (.new index)))
          else some ({ s with storage := s.storage.free index }.setSocket id .dropped)
      | _ => none
  | .call t id kind ctx =>
      match s.callers t, s.sockets id with
      | .idle, .live p =>
          some (s.setCaller t
            (if s.storage.Created p.index then .call id kind ctx .load else .panicked .unwrap))
      | _, _ => none
  | .step t =>
      match s.callers t with
      | .call id kind ctx line =>
          match s.sockets id with
          | .live p => s.callStep t id p kind ctx line
          | _ => none
      | _ => none
  | .doIo t result =>
      match s.callers t with
      | .call id kind ctx .inIo => some (s.setCaller t (.returned id kind ctx result))
      | _ => none
  | .drop id =>
      match s.sockets id with
      | .live p =>
          if ∀ t, (s.callers t).socket? ≠ some id then
            if s.storage.Created p.index then
              some ((s.setWake (.inr id) (some ⟨p.index, .Read, .update⟩)).setSocket id
                (.dropping p (.wake .Read)))
            else some (s.setSocket id (.dropping p .panicked))
          else none
      | _ => none
  | .dropping id =>
      match s.sockets id with
      | .dropping p at_ => s.dropStep id p at_
      | _ => none
  | .wake v index kind =>
      if (s.wakes (.inl v)).isNone ∧ s.storage.Created index then
        some (s.setWake (.inl v) (some ⟨index, kind, .update⟩))
      else none
  | .waker u => (s.wakes u).bind fun wake => s.wakeStep u wake

variable (T V W) in
def system (L : Layout) : System (State T V W) (Event T V W) where
  initial := ⟨0, .new, fun _ _ => none, fun _ => .absent, fun _ => .idle, fun _ => none⟩
  next := next L

variable {L : Layout} {s s' : State T V W}

/-- A socket takes a slot where there is one. Otherwise the call fails and the socket is
as good as dropped. -/
theorem next_alloc {id : SocketId} (h : next L s (.alloc id) = some s') :
    s.sockets id = .absent ∧ ∃ index? storage, s.storage.alloc L = (index?, storage) ∧
      s' = { s with storage := storage }.setSocket id (index?.elim .dropped .allocated) := by
  simp only [next] at h
  split at h
  · next hAbsent => exact ⟨hAbsent, _, _, rfl, (Option.some.inj h).symm⟩
  · simp at h

/-- A socket that the selector takes has the slot it has allocated. If the selector
refuses it, the slot is freed. -/
theorem next_register {id : SocketId} {ok : Bool} (h : next L s (.register id ok) = some s') :
    ∃ index, s.sockets id = .allocated index ∧ (s' = s.setSocket id (.live (.new index)) ∨
      s' = { s with storage := s.storage.free index }.setSocket id .dropped) := by
  simp only [next] at h
  split at h
  · next index hAllocated =>
      refine ⟨index, hAllocated, ?_⟩
      split at h
      · exact .inl (Option.some.inj h).symm
      · exact .inr (Option.some.inj h).symm
  · simp at h

/-- A call begins on a live socket. The `unwrap` of the slot fails only where the slot
has never been allocated. -/
theorem next_call {t : T} {id : SocketId} {kind : WakerKind} {ctx : Option W}
    (h : next L s (.call t id kind ctx) = some s') :
    s.callers t = .idle ∧ ∃ p, s.sockets id = .live p ∧ s' = s.setCaller t
      (if s.storage.Created p.index then .call id kind ctx .load else .panicked .unwrap) := by
  simp only [next] at h
  split at h
  · next p hIdle hLive => exact ⟨hIdle, p, hLive, (Option.some.inj h).symm⟩
  · simp at h

/-- A step of a thread is an operation of the call it is in, on the socket that the call
borrows. -/
theorem next_step {t : T} (h : next L s (.step t) = some s') :
    ∃ id kind ctx line p, s.callers t = .call id kind ctx line ∧ s.sockets id = .live p ∧
      s.callStep t id p kind ctx line = some s' := by
  simp only [next] at h
  split at h
  · next id kind ctx line hCall =>
      split at h
      · next p hLive => exact ⟨id, kind, ctx, line, p, hCall, hLive, h⟩
      · simp at h
  · simp at h

theorem next_doIo {t : T} {result : IoResult} (h : next L s (.doIo t result) = some s') :
    ∃ id kind ctx, s.callers t = .call id kind ctx .inIo ∧
      s' = s.setCaller t (.returned id kind ctx result) := by
  simp only [next] at h
  split at h
  · next id kind ctx hCall => exact ⟨id, kind, ctx, hCall, (Option.some.inj h).symm⟩
  · simp at h

/-- A socket is dropped when no call borrows it. The wakes of its drop come first. -/
theorem next_drop {id : SocketId} (h : next L s (.drop id) = some s') :
    ∃ p, s.sockets id = .live p ∧ (∀ t, (s.callers t).socket? ≠ some id) ∧
      s' = if s.storage.Created p.index then
          (s.setWake (.inr id) (some ⟨p.index, .Read, .update⟩)).setSocket id
            (.dropping p (.wake .Read))
        else s.setSocket id (.dropping p .panicked) := by
  simp only [next] at h
  split at h
  · next p hLive =>
      split at h
      · next hFree =>
          refine ⟨p, hLive, hFree, ?_⟩
          split at h
          · next hCreated => rw [if_pos hCreated, Option.some.inj h]
          · next hCreated => rw [if_neg hCreated, Option.some.inj h]
      · simp at h
  · simp at h

/-- A drop goes on from where it stands, with the socket as it was. -/
theorem next_dropping {id : SocketId} (h : next L s (.dropping id) = some s') :
    ∃ p at_, s.sockets id = .dropping p at_ ∧ s.dropStep id p at_ = some s' := by
  simp only [next] at h
  split at h
  · next p at_ hDropping => exact ⟨p, at_, hDropping, h⟩
  · simp at h

/-- An event is processed for a slot that has been allocated, by a thread with no other
wake. -/
theorem next_wake {v : V} {index : WakerIndex} {kind : WakerKind}
    (h : next L s (.wake v index kind) = some s') :
    s.wakes (.inl v) = none ∧ s.storage.Created index ∧
      s' = s.setWake (.inl v) (some ⟨index, kind, .update⟩) := by
  simp only [next] at h
  split at h
  · next hIdle => exact ⟨Option.isNone_iff_eq_none.mp hIdle.1, hIdle.2, (Option.some.inj h).symm⟩
  · simp at h

/-- A wake goes on in the cell of its slot and is over when it comes to be idle. -/
theorem next_waker {u : V ⊕ SocketId} (h : next L s (.waker u) = some s') :
    ∃ wake cell at_, s.wakes u = some wake ∧
      AtomicWaker.wakerStep (s.cell wake.index wake.kind) u wake.at_ = some (cell, at_) ∧
      s' = (s.setCell wake.index wake.kind cell).setWake u
        (if at_ = .idle then none else some { wake with at_ := at_ }) := by
  obtain ⟨wake, hWake, hStep⟩ := Option.bind_eq_some_iff.mp h
  obtain ⟨⟨cell, at_⟩, hCell, rfl⟩ := Option.map_eq_some_iff.mp hStep
  exact ⟨wake, cell, at_, hWake, hCell, rfl⟩

end Machine

/-! ## Who owns a slot -/

/-- The slot a socket occupies. -/
def Socket.index? : Socket → Option WakerIndex
  | .allocated index => some index
  | .live p | .dropping p _ => some p.index
  | .absent | .dropped => none

/-- Each socket occupies a slot of its own, and calls are made on live sockets. -/
structure Owns (L : Layout) (s : State T V W) : Prop where
  valid : s.storage.Valid L
  apart : ∀ id id' index, (s.sockets id).index? = some index →
    (s.sockets id').index? = some index → id = id'
  used : ∀ id index, (s.sockets id).index? = some index →
    index ∉ s.storage.available ∧ s.storage.Created index
  calls : ∀ t x, (s.callers t).pair? = some x → ∃ p, s.sockets x.1 = .live p

/-- A call is on a live socket: it borrows it, so no drop has begun. -/
theorem Owns.live {L : Layout} {s : State T V W} {t : T} {id : SocketId} {kind : WakerKind}
    {ctx : Option W} {line : Line W} (owns : Owns L s) (h : s.callers t = .call id kind ctx line) :
    ∃ p, s.sockets id = .live p :=
  owns.calls t (id, kind) (by rw [h]; rfl)

/-- What a step of a call has done to the rest of the state. -/
structure Calling [DecidableEq T] (s s' : State T V W) (t : T) (id : SocketId) (kind : WakerKind) (p p' : Pollable)
    (caller : Caller W) : Prop where
  blocks : s'.storage.nextBlock = s.storage.nextBlock
  available : s'.storage.available = s.storage.available
  sockets : s'.sockets = Function.update s.sockets id (.live p')
  index : p'.index = p.index
  callers : s'.callers = Function.update s.callers t caller
  pair : ∀ x, caller.pair? = some x → x = (id, kind)
  wakes : s'.wakes = s.wakes

theorem pair_polled {id : SocketId} {kind : WakerKind} {ctx : Option W} {isPending : Bool}
    {at_ : AtomicWaker.Poller W} {x : SocketId × WakerKind}
    (h : (Caller.polled id kind ctx isPending at_).pair? = some x) : x = (id, kind) := by
  unfold Caller.polled at h
  split at h
  · simpa [Caller.pair?] using h.symm
  · cases isPending <;> simp_all [Caller.pair?]
  · simp [Caller.pair?] at h
  · simpa [Caller.pair?] using h.symm

theorem pair_resetting {id : SocketId} {kind : WakerKind} {ctx : Option W}
    {at_ : AtomicWaker.Poller W} {x : SocketId × WakerKind}
    (h : (Caller.resetting id kind ctx at_).pair? = some x) : x = (id, kind) := by
  unfold Caller.resetting at h
  split at h <;> simp_all [Caller.pair?]

theorem pair_returned {id : SocketId} {kind : WakerKind} {ctx : Option W} {result : IoResult}
    {x : SocketId × WakerKind} (h : (Caller.returned id kind ctx result).pair? = some x) :
    x = (id, kind) := by
  cases result <;> simp_all [Caller.returned, Caller.pair?]

section Calling

variable [DecidableEq T] {s s' : State T V W} {t : T} {id : SocketId} {kind : WakerKind}
  {ctx : Option W} {p : Pollable} {line : Line W}

/-- A call that changes neither the sockets nor the slots. -/
theorem Calling.of_setCaller {caller : Caller W} {pending : Nat} (hLive : s.sockets id = .live p)
    (pair : ∀ x, caller.pair? = some x → x = (id, kind)) :
    Calling s ({ s with pending := pending }.setCaller t caller) t id kind p p caller :=
  ⟨rfl, rfl, by rw [← hLive, Function.update_eq_self]; rfl, rfl, rfl, pair, rfl⟩

theorem Calling.of_setCell {caller : Caller W} {index : WakerIndex}
    {cell : AtomicWaker.Cell (V ⊕ SocketId) W} (hLive : s.sockets id = .live p)
    (pair : ∀ x, caller.pair? = some x → x = (id, kind)) :
    Calling s ((s.setCell index kind cell).setCaller t caller) t id kind p p caller :=
  ⟨rfl, rfl, by rw [← hLive, Function.update_eq_self]; rfl, rfl, rfl, pair, rfl⟩

theorem Calling.of_setSocket {caller : Caller W} {p' : Pollable} (hIndex : p'.index = p.index)
    (pair : ∀ x, caller.pair? = some x → x = (id, kind)) :
    Calling s ((s.setSocket id (.live p')).setCaller t caller) t id kind p p' caller :=
  ⟨rfl, rfl, rfl, hIndex, rfl, pair, rfl⟩

/-- An operation of a call changes its own socket and its own stand, and leaves the
owners of the slots as they are. -/
theorem callStep_calling [DecidableEq W] (hLive : s.sockets id = .live p)
    (h : s.callStep t id p kind ctx line = some s') :
    ∃ p' caller, Calling s s' t id kind p p' caller := by
  have hCall : ∀ line : Line W, ∀ x, (Caller.call id kind ctx line).pair? = some x →
      x = (id, kind) := fun line x hx => by simpa [Caller.pair?] using hx.symm
  cases line with
  | load | loadBudget | doIo =>
      obtain rfl := Option.some.inj h
      exact ⟨p, _, .of_setCaller hLive (hCall _)⟩
  | poll isPending at_ =>
      obtain ⟨r, -, rfl⟩ := Option.map_eq_some_iff.mp h
      exact ⟨p, _, .of_setCell hLive fun x => pair_polled⟩
  | begin | complete =>
      obtain rfl := Option.some.inj h
      refine ⟨p, _, .of_setCaller hLive fun x hx => ?_⟩
      split at hx
      · simp [Caller.pair?] at hx
      · exact hCall _ x hx
  | storePending =>
      obtain rfl := Option.some.inj h
      exact ⟨_, _, .of_setSocket rfl fun x hx => by simp [Caller.pair?] at hx⟩
  | storeCompleted | storeBudget budget =>
      obtain rfl := Option.some.inj h
      exact ⟨_, _, .of_setSocket rfl (hCall _)⟩
  | yield =>
      obtain rfl := Option.some.inj h
      exact ⟨p, _, .of_setCaller hLive fun x hx => by simp [Caller.pair?] at hx⟩
  | inIo => simp [State.callStep] at h
  | reset at_ =>
      obtain ⟨r, -, rfl⟩ := Option.map_eq_some_iff.mp h
      exact ⟨p, _, .of_setCell hLive fun x => pair_resetting⟩

end Calling

section Owns

variable {L : Layout} {s s' : State T V W}

/-- A step that leaves every slot with its socket. -/
theorem Owns.stays (owns : Owns L s) (hBlocks : s'.storage.nextBlock = s.storage.nextBlock)
    (hAvailable : s'.storage.available = s.storage.available)
    (hIndex : ∀ id, (s'.sockets id).index? = (s.sockets id).index?)
    (hCalls : ∀ t x, (s'.callers t).pair? = some x → ∃ p, s'.sockets x.1 = .live p) :
    Owns L s' := by
  obtain ⟨⟨blocks, nodup, created⟩, apart, used, -⟩ := owns
  refine ⟨⟨hBlocks ▸ blocks, hAvailable ▸ nodup, fun i hi => ?_⟩, fun id id' i h h' => ?_,
    fun id i h => ?_, hCalls⟩
  · unfold WakerStorage.Created
    rw [hBlocks]
    exact created i (hAvailable ▸ hi)
  · exact apart id id' i (hIndex id ▸ h) (hIndex id' ▸ h')
  · unfold WakerStorage.Created
    rw [hBlocks, hAvailable]
    exact used id i (hIndex id ▸ h)

theorem Owns.calling [DecidableEq T] {t : T} {id : SocketId} {kind : WakerKind} {p p' : Pollable}
    {caller : Caller W} (owns : Owns L s) (hLive : s.sockets id = .live p)
    (done : Calling s s' t id kind p p' caller) : Owns L s' := by
  refine owns.stays done.blocks done.available (fun id' => ?_) fun u x hx => ?_
  · rw [done.sockets]
    by_cases hEq : id' = id
    · subst hEq
      simp [hLive, Socket.index?, done.index]
    · rw [Function.update_of_ne hEq]
  · rw [done.sockets]
    by_cases hEq : x.1 = id
    · exact ⟨p', by rw [hEq, Function.update_self]⟩
    · rw [Function.update_of_ne hEq]
      rw [done.callers] at hx
      by_cases hCaller : u = t
      · subst hCaller
        rw [Function.update_self] at hx
        exact absurd (congrArg Prod.fst (done.pair x hx)) hEq
      · rw [Function.update_of_ne hCaller] at hx
        exact owns.calls u x hx

/-- A socket that nobody calls changes its state and keeps its slot. -/
theorem Owns.setSocket {id : SocketId} {socket : Socket} (owns : Owns L s)
    (hIndex : socket.index? = (s.sockets id).index?)
    (hFree : ∀ t, (s.callers t).socket? ≠ some id) : Owns L (s.setSocket id socket) := by
  refine owns.stays rfl rfl (fun id' => ?_) fun u x hx => ?_
  · by_cases hEq : id' = id
    · subst hEq
      simp [State.setSocket, hIndex]
    · simp [State.setSocket, hEq]
  · have hNe : x.1 ≠ id := fun hEq => hFree u (by
      have hPair : (s.callers u).pair? = some x := hx
      rw [Caller.socket?, hPair, Option.map_some, hEq])
    obtain ⟨p, hp⟩ := owns.calls u x hx
    exact ⟨p, by simp [State.setSocket, hNe, hp]⟩

/-- Nobody calls a socket that is not live. -/
theorem Owns.uncalled {id : SocketId} (owns : Owns L s) (h : ∀ p, s.sockets id ≠ .live p) (t : T) :
    (s.callers t).socket? ≠ some id := by
  intro hSocket
  obtain ⟨x, hPair, rfl⟩ := Option.map_eq_some_iff.mp hSocket
  obtain ⟨p, hp⟩ := owns.calls t x hPair
  exact h p hp

/-- A socket gives its slot back. -/
theorem Owns.free {id : SocketId} {index : WakerIndex} (owns : Owns L s)
    (hIndex : (s.sockets id).index? = some index) (h : ∀ p, s.sockets id ≠ .live p) :
    Owns L ({ s with storage := s.storage.free index }.setSocket id .dropped) := by
  have hOther : ∀ id' i, ((s.setSocket id .dropped).sockets id').index? = some i →
      (s.sockets id').index? = some i ∧ i ≠ index := by
    intro id' i hi
    by_cases hEq : id' = id
    · simp [State.setSocket, hEq, Socket.index?] at hi
    · have hi' : (s.sockets id').index? = some i := by simpa [State.setSocket, hEq] using hi
      exact ⟨hi', fun hSame => hEq (owns.apart id' id index (hSame ▸ hi') hIndex)⟩
  obtain ⟨hUsed, hCreated⟩ := owns.used id index hIndex
  refine ⟨WakerStorage.valid_free owns.valid hUsed hCreated, fun id₁ id₂ i h₁ h₂ =>
    owns.apart id₁ id₂ i (hOther _ _ h₁).1 (hOther _ _ h₂).1, fun id' i hi => ?_, fun u x hx => ?_⟩
  · obtain ⟨hi', hNe⟩ := hOther id' i hi
    obtain ⟨hUsed', hCreated'⟩ := owns.used id' i hi'
    exact ⟨by simpa [State.setSocket, WakerStorage.free] using ⟨hUsed', hNe⟩, hCreated'⟩
  · obtain ⟨p, hp⟩ := owns.calls u x hx
    have hNe : x.1 ≠ id := fun hEq => h p (hEq ▸ hp)
    exact ⟨p, by simp [State.setSocket, hNe, hp]⟩

/-- A new socket gets a slot. -/
theorem Owns.alloc {id : SocketId} {index : WakerIndex} {storage : WakerStorage W}
    (owns : Owns L s) (done : WakerStorage.Allocating L s.storage storage index)
    (hAbsent : s.sockets id = .absent) :
    Owns L ({ s with storage := storage }.setSocket id (.allocated index)) := by
  have hNew : ∀ id', (s.sockets id').index? ≠ some index := by
    intro id' h
    obtain ⟨hUsed, hCreated⟩ := owns.used id' index h
    cases done.source with
    | recycled last _ => exact hUsed (List.mem_of_getLast? last)
    | fresh created _ => exact created hCreated
  have hOther : ∀ id' i, ((s.setSocket id (.allocated index)).sockets id').index? = some i →
      id' = id ∧ i = index ∨ id' ≠ id ∧ (s.sockets id').index? = some i := by
    intro id' i h
    by_cases hEq : id' = id
    · refine Or.inl ⟨hEq, ?_⟩
      simpa [State.setSocket, hEq, Socket.index?, eq_comm] using h
    · exact Or.inr ⟨hEq, by simpa [State.setSocket, hEq] using h⟩
  refine ⟨done.valid, fun id₁ id₂ i h₁ h₂ => ?_, fun id' i h => ?_, fun u x hx => ?_⟩
  · rcases hOther id₁ i h₁ with ⟨rfl, rfl⟩ | ⟨-, hi₁⟩
    · rcases hOther id₂ i h₂ with ⟨rfl, -⟩ | ⟨-, hi₂⟩
      · rfl
      · exact (hNew id₂ hi₂).elim
    · rcases hOther id₂ i h₂ with ⟨-, rfl⟩ | ⟨-, hi₂⟩
      · exact (hNew id₁ hi₁).elim
      · exact owns.apart id₁ id₂ i hi₁ hi₂
  · rcases hOther id' i h with ⟨-, rfl⟩ | ⟨-, hi⟩
    · exact ⟨done.taken, done.created⟩
    · obtain ⟨hUsed, hCreated⟩ := owns.used id' i hi
      refine ⟨fun hMem => ?_, (done.older i hCreated).1⟩
      exact (done.available i hMem).elim hUsed fun hNot => hNot hCreated
  · obtain ⟨p, hp⟩ := owns.calls u x hx
    have hNe : x.1 ≠ id := fun hEq => by simp [hEq, hAbsent] at hp
    exact ⟨p, by simp [State.setSocket, hNe, hp]⟩

/-- A drop gives its slot back with its last operation only, when no call can have the
socket any more. -/
theorem Owns.dropStep [DecidableEq V] {id : SocketId} {p : Pollable} {at_ : Dropping} (owns : Owns L s)
    (hDropping : s.sockets id = .dropping p at_) (h : s.dropStep id p at_ = some s') :
    Owns L s' := by
  have hFree : ∀ u, (s.callers u).socket? ≠ some id :=
    owns.uncalled fun p' => by simp [hDropping]
  have hKeep : ∀ at_', (Socket.dropping p at_').index? = (s.sockets id).index? := fun at_' => by
    rw [hDropping]
    rfl
  cases at_ with
  | wake kind =>
      simp only [State.dropStep] at h
      split at h
      · simp at h
      · obtain rfl := Option.some.inj h
        exact Owns.setSocket (owns.stays rfl rfl (fun _ => rfl) owns.calls) (hKeep _) hFree
      · obtain rfl := Option.some.inj h
        exact owns.setSocket (hKeep _) hFree
  | load kind =>
      obtain rfl := Option.some.inj h
      exact owns.setSocket (hKeep _) hFree
  | complete kind =>
      obtain rfl := Option.some.inj h
      exact Owns.setSocket (owns.stays rfl rfl (fun _ => rfl) owns.calls) (hKeep _) hFree
  | free =>
      obtain rfl := Option.some.inj h
      exact owns.free (by rw [hDropping]; rfl) fun p' => by simp [hDropping]
  | panicked => simp [State.dropStep] at h

/-- A drop changes its own socket only. -/
theorem dropStep_sockets [DecidableEq V] {id : SocketId} {p : Pollable} {at_ : Dropping}
    (h : s.dropStep id p at_ = some s') :
    ∃ socket, s'.sockets = Function.update s.sockets id socket ∧ s'.callers = s.callers ∧
      ((∃ at_', socket = .dropping p at_') ∨ socket = .dropped) := by
  cases at_ with
  | wake kind =>
      simp only [State.dropStep] at h
      split at h
      · simp at h
      · obtain rfl := Option.some.inj h
        exact ⟨_, rfl, rfl, .inl ⟨_, rfl⟩⟩
      · obtain rfl := Option.some.inj h
        exact ⟨_, rfl, rfl, .inl ⟨_, rfl⟩⟩
  | load kind =>
      obtain rfl := Option.some.inj h
      exact ⟨_, rfl, rfl, .inl ⟨_, rfl⟩⟩
  | complete kind =>
      have hNext := Option.some.inj h
      exact ⟨_, by rw [← hNext, State.setSocket], by rw [← hNext, State.setSocket], .inl ⟨_, rfl⟩⟩
  | free =>
      obtain rfl := Option.some.inj h
      exact ⟨_, rfl, rfl, .inr rfl⟩
  | panicked => simp [State.dropStep] at h

variable [Fintype T] [DecidableEq T] [DecidableEq V] [DecidableEq W]

/-- Every slot has at most one socket, and that remains so in every step. -/
theorem owns_next {e : Event T V W} (owns : Owns L s) (h : next L s e = some s') : Owns L s' := by
  cases e with
  | alloc id =>
      obtain ⟨hAbsent, index?, storage, hAlloc, rfl⟩ := next_alloc h
      cases index? with
      | none =>
          obtain rfl := WakerStorage.alloc_none hAlloc
          exact owns.setSocket (by rw [hAbsent]; rfl) (owns.uncalled fun p => by simp [hAbsent])
      | some index => exact owns.alloc (WakerStorage.alloc_some owns.valid hAlloc) hAbsent
  | register id ok =>
      obtain ⟨index, hAllocated, rfl | rfl⟩ := next_register h
      · exact owns.setSocket (by rw [hAllocated]; rfl)
          (owns.uncalled fun p => by simp [hAllocated])
      · exact owns.free (by rw [hAllocated]; rfl) fun p => by simp [hAllocated]
  | call t id kind ctx =>
      obtain ⟨-, p, hLive, rfl⟩ := next_call h
      have hPair : ∀ x, Caller.pair? (if s.storage.Created p.index then
          .call id kind ctx .load else .panicked .unwrap) = some x → x = (id, kind) := by
        intro x hx
        split at hx
        · simpa [Caller.pair?] using hx.symm
        · simp [Caller.pair?] at hx
      exact owns.calling hLive (Calling.of_setCaller hLive hPair)
  | step t =>
      obtain ⟨id, kind, ctx, line, p, -, hLive, hStep⟩ := next_step h
      obtain ⟨p', caller, done⟩ := callStep_calling hLive hStep
      exact owns.calling hLive done
  | doIo t result =>
      obtain ⟨id, kind, ctx, hCall, rfl⟩ := next_doIo h
      obtain ⟨p, hLive⟩ := owns.live hCall
      exact owns.calling hLive (Calling.of_setCaller hLive fun x => pair_returned)
  | drop id =>
      obtain ⟨p, hLive, hFree, rfl⟩ := next_drop h
      have hKeep : ∀ at_, (Socket.dropping p at_).index? = (s.sockets id).index? := fun at_ => by
        rw [hLive]
        rfl
      split
      · exact Owns.setSocket (owns.stays rfl rfl (fun _ => rfl) owns.calls) (hKeep _) hFree
      · exact owns.setSocket (hKeep _) hFree
  | dropping id =>
      obtain ⟨p, at_, hDropping, hStep⟩ := next_dropping h
      exact owns.dropStep hDropping hStep
  | wake v index kind =>
      obtain ⟨-, -, rfl⟩ := next_wake h
      exact owns.stays rfl rfl (fun _ => rfl) owns.calls
  | waker u =>
      obtain ⟨wake, cell, at_, -, -, rfl⟩ := next_waker h
      exact owns.stays rfl rfl (fun _ => rfl) owns.calls

/-- So it is in every state of a run, whatever the order of the steps. -/
theorem owns_reachable (h : (system T V W L).Reachable s) : Owns L s := by
  refine h.keeps ⟨WakerStorage.valid_new L, ?_, ?_, ?_⟩ fun _ _ _ => owns_next
  · intro id id' index hIndex
    simp [system, Socket.index?] at hIndex
  · intro id index hIndex
    simp [system, Socket.index?] at hIndex
  · intro t x hx
    simp [system, Caller.pair?] at hx

end Owns

end Yaar.Net.PollIo
