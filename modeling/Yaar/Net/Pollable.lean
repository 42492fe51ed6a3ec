import Mathlib.Algebra.Group.Nat.Defs
import Yaar.Machine.Execution
import Yaar.Net.Wakers

/-! `net/internal/pollable.rs` and `poller.rs`. Every call of the storage or of
a slot's waker is one step, so that the turns of a `poll_io`, the parts of `new`
and of `drop`, and the processing of event batches interleave. -/
namespace Yaar.Net

open Machine

def BUDGET : UInt8 := 128

/-- `usize::MAX`, which is also the token of the poller's own signal. -/
def usizeMAX : Nat := 2 ^ 64 - 1

/-- A `Pollable` without its source. -/
structure Pollable where
  index : WakerIndex
  budgets : WakerKind → UInt8
  pendings : WakerKind → Bool

def Pollable.new (index : WakerIndex) : Pollable := ⟨index, fun _ => BUDGET, fun _ => false⟩

structure Poller (W : Type*) where
  pending : Nat
  wakerStorage : WakerStorage W

namespace Poller

variable {W : Type*}

def new : Poller W := ⟨0, .new⟩

def ioPendingBegin (poller : Poller W) : Option (Poller W) :=
  if poller.pending = usizeMAX then none else some { poller with pending := poller.pending + 1 }

def ioPendingComplete (poller : Poller W) : Option (Poller W) :=
  if poller.pending = 0 then none else some { poller with pending := poller.pending - 1 }

def setWaker (poller : Poller W) (index : WakerIndex) (kind : WakerKind) (waker : AtomicWaker W) :
    Poller W :=
  { poller with wakerStorage := poller.wakerStorage.set index kind waker }

/-- `with_wakers(index, |wakers| wakers[kind].wake())` -/
def wake (poller : Poller W) (index : WakerIndex) (kind : WakerKind) : Option (Poller W) :=
  (poller.wakerStorage.get? index kind).map fun waker => poller.setWaker index kind waker.wake.1

end Poller

/-- How a turn of the loop in `poll_io` ends: with a `Pending`, with the yield
of an exhausted budget, which is a `Pending` too, or at the call of `do_io`. -/
inductive Turn where
  | pending
  | yield
  | doIo
  deriving DecidableEq

namespace Pollable

variable {W : Type*} [DecidableEq W]

/-- `checked_sub(1)` -/
def checkedPred (budget : UInt8) : Option UInt8 := if budget = 0 then none else some (budget - 1)

def setPending (p : Pollable) (kind : WakerKind) (pending : Bool) : Pollable :=
  { p with pendings := Function.update p.pendings kind pending }

/-- The budget check, which only a call with a context makes. -/
def spend (p : Pollable) (kind : WakerKind) (ctx : Option W) : Pollable × Turn :=
  match ctx with
  | none => (p, .doIo)
  | some _ =>
      match checkedPred (p.budgets kind) with
      | some budget => ({ p with budgets := Function.update p.budgets kind budget }, .doIo)
      | none => ({ p with budgets := Function.update p.budgets kind BUDGET }, .yield)

/-- One turn of the loop in `poll_io` up to the call of `do_io`. It has no
result when an assertion or an unwrap fails. -/
def turn (poller : Poller W) (p : Pollable) (kind : WakerKind) (ctx : Option W) :
    Option (Poller W × Pollable × Turn) :=
  match (poller.wakerStorage.get? p.index kind).bind fun waker => waker.poll ctx with
  | none => none
  | some (waker, .pending) =>
      let poller := poller.setWaker p.index kind waker
      if p.pendings kind then some (poller, p, .pending)
      else poller.ioPendingBegin.map fun poller => (poller, p.setPending kind true, .pending)
  | some (waker, .ready _) =>
      let poller := poller.setWaker p.index kind waker
      let completed := if p.pendings kind then poller.ioPendingComplete else some poller
      completed.map fun poller => (poller, (p.setPending kind false).spend kind ctx)

/-- The reset after a `do_io` that would block. -/
def reset (poller : Poller W) (p : Pollable) (kind : WakerKind) : Option (Poller W) :=
  ((poller.wakerStorage.get? p.index kind).bind AtomicWaker.reset).map fun waker =>
    poller.setWaker p.index kind waker

/-- The loop over `pendings` in `drop`. -/
def completePendings (poller : Poller W) (p : Pollable) : Option (Poller W) :=
  [WakerKind.Read, WakerKind.Write].foldlM
    (fun poller kind => if p.pendings kind then poller.ioPendingComplete else some poller) poller

end Pollable

abbrev SocketId := Nat
abbrev BatchId := Nat

/-- A readiness event of the selector. `source` is the socket it was raised for,
`none` for the poller's own signal. -/
structure Event where
  token : Nat
  readable : Bool
  writable : Bool
  source : Option SocketId

/-- What a call of `do_io` gives: an interrupt, `WouldBlock`, or any other
result, with which `poll_io` returns `Ready`. -/
inductive IoResult where
  | interrupted
  | wouldBlock
  | other
  deriving DecidableEq

/-- Where the `poll_io` of one kind is: between calls, at `do_io`, or back at
the start of its loop. -/
inductive Io (W : Type*) where
  | idle
  | doIo (ctx : Option W)
  | again (ctx : Option W)
  deriving DecidableEq

/-- The next operation of `drop`. -/
inductive Dropping where
  | wakeRead
  | wakeWrite
  | pendings
  | deregister
  | free
  deriving DecidableEq

inductive Socket (W : Type*) where
  | absent
  /-- in `register`, between the allocation and the registration -/
  | allocated (index : WakerIndex)
  | live (p : Pollable) (io : WakerKind → Io W)
  | dropping (p : Pollable) (at_ : Dropping)
  | dropped

/-- The slot a socket occupies. -/
def Socket.index? {W : Type*} : Socket W → Option WakerIndex
  | .allocated index => some index
  | .live p _ | .dropping p _ => some p.index
  | .absent | .dropped => none

/-- The token mio raises events with, while the source is registered. -/
def Socket.registered? {W : Type*} : Socket W → Option WakerIndex
  | .live p _ => some p.index
  | .dropping p at_ => if at_ = .free then none else some p.index
  | _ => none

/-- One net poller with its sockets and the event batches taken from the
selector and not yet processed. `failed` records a panic. -/
structure World (W : Type*) where
  poller : Poller W
  sockets : SocketId → Socket W
  batches : BatchId → List Event
  failed : Bool

inductive Step (W : Type*) where
  /-- the allocation in `Pollable::new` -/
  | alloc (id : SocketId)
  /-- the registration in `Pollable::new`, which frees the slot when it fails -/
  | register (id : SocketId) (ok : Bool)
  /-- `poll_io`, up to `do_io` or the return -/
  | pollIo (id : SocketId) (kind : WakerKind) (ctx : Option W)
  /-- a call of `do_io`; any result but a retry is returned as `Ready` -/
  | doIo (id : SocketId) (kind : WakerKind) (result : IoResult)
  /-- the next turn of `poll_io` after `WouldBlock` -/
  | again (id : SocketId) (kind : WakerKind)
  /-- the start of `drop` -/
  | drop (id : SocketId)
  /-- the next operation of `drop` -/
  | dropping (id : SocketId)
  /-- the selector adds an event for a registered source to a batch -/
  | raise (b : BatchId) (id : SocketId) (readable writable : Bool)
  /-- the selector adds the poller's signal to a batch -/
  | signal (b : BatchId)
  /-- `PollEvents::process`: a wake for the first event of a batch, or its end -/
  | process (b : BatchId)

namespace World

variable {W : Type*} [DecidableEq W]

def setSocket (s : World W) (id : SocketId) (socket : Socket W) : World W :=
  { s with sockets := Function.update s.sockets id socket }

def setBatch (s : World W) (b : BatchId) (batch : List Event) : World W :=
  { s with batches := Function.update s.batches b batch }

/-- Go on with the poller of a call that did not panic. -/
def checked (s : World W) (poller? : Option (Poller W)) (f : World W → World W) : World W :=
  match poller? with
  | none => { s with failed := true }
  | some poller => f { s with poller := poller }

/-- One turn of a `poll_io`. -/
def turn (s : World W) (id : SocketId) (p : Pollable) (io : WakerKind → Io W) (kind : WakerKind)
    (ctx : Option W) : World W :=
  match p.turn s.poller kind ctx with
  | none => { s with failed := true }
  | some (poller, p, turn) =>
      let at_ := if turn = .doIo then .doIo ctx else .idle
      { s with poller := poller }.setSocket id (.live p (Function.update io kind at_))

/-- The operation of `drop` a socket has come to. -/
def dropStep (s : World W) (id : SocketId) (p : Pollable) : Dropping → World W
  | .wakeRead => s.checked (s.poller.wake p.index .Read) fun s =>
      s.setSocket id (.dropping p .wakeWrite)
  | .wakeWrite => s.checked (s.poller.wake p.index .Write) fun s =>
      s.setSocket id (.dropping p .pendings)
  | .pendings => s.checked (p.completePendings s.poller) fun s =>
      s.setSocket id (.dropping p .deregister)
  -- From here on the selector raises no event for the source.
  | .deregister => s.setSocket id (.dropping p .free)
  | .free =>
      { s with
        poller := { s.poller with
          wakerStorage := s.poller.wakerStorage.free p.index } }.setSocket id .dropped

/-- One wake of `PollEvents::process`, or the step to the next event. -/
def process (s : World W) (b : BatchId) (event : Event) (rest : List Event) : World W :=
  if event.token = usizeMAX then s.setBatch b rest
  else
    let index := WakerIndex.ofUsize event.token
    if event.readable then
      s.checked (s.poller.wake index .Read) fun s =>
        s.setBatch b ({ event with readable := false } :: rest)
    else if event.writable then
      s.checked (s.poller.wake index .Write) fun s =>
        s.setBatch b ({ event with writable := false } :: rest)
    else s.setBatch b rest

def next (L : Layout) (s : World W) : Step W → Option (World W)
  | .alloc id =>
      match s.sockets id with
      | .absent =>
          let (index?, storage) := s.poller.wakerStorage.alloc L
          let s := { s with poller := { s.poller with wakerStorage := storage } }
          match index? with
          -- `OutOfMemory`
          | none => some (s.setSocket id .dropped)
          | some index => some (s.setSocket id (.allocated index))
      | _ => none
  | .register id ok =>
      match s.sockets id with
      | .allocated index =>
          if ok then some (s.setSocket id (.live (.new index) fun _ => .idle))
          else
            let storage := s.poller.wakerStorage.free index
            some ({ s with
              poller := { s.poller with wakerStorage := storage } }.setSocket id .dropped)
      | _ => none
  | .pollIo id kind ctx =>
      match s.sockets id with
      | .live p io => if io kind = .idle then some (s.turn id p io kind ctx) else none
      | _ => none
  | .doIo id kind result =>
      match s.sockets id with
      | .live p io =>
          match io kind with
          | .doIo ctx =>
              match result with
              | .interrupted => some s
              | .wouldBlock => some (s.checked (p.reset s.poller kind) fun s =>
                  s.setSocket id (.live p (Function.update io kind (.again ctx))))
              | .other => some (s.setSocket id (.live p (Function.update io kind .idle)))
          | _ => none
      | _ => none
  | .again id kind =>
      match s.sockets id with
      | .live p io =>
          match io kind with
          | .again ctx => some (s.turn id p io kind ctx)
          | _ => none
      | _ => none
  | .drop id =>
      match s.sockets id with
      | .live p io =>
          if io .Read = .idle ∧ io .Write = .idle then some (s.setSocket id (.dropping p .wakeRead))
          else none
      | _ => none
  | .dropping id =>
      match s.sockets id with
      | .dropping p at_ => some (s.dropStep id p at_)
      | _ => none
  | .raise b id readable writable =>
      match (s.sockets id).registered? with
      | some index =>
          some (s.setBatch b (s.batches b ++ [⟨index.into, readable, writable, some id⟩]))
      | none => none
  | .signal b => some (s.setBatch b (s.batches b ++ [⟨usizeMAX, true, false, none⟩]))
  | .process b =>
      match s.batches b with
      | [] => none
      | event :: rest => some (s.process b event rest)

end World

def system (W : Type*) [DecidableEq W] (L : Layout) : System (World W) (Step W) where
  initial := ⟨.new, fun _ => .absent, fun _ => [], false⟩
  next := World.next L

end Yaar.Net
