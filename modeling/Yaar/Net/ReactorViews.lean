import Yaar.Net.Reactor
import Yaar.Sync.AtomicWakerResting

/-! What a task sees of the sockets, and how its own operations change that. -/
namespace Yaar.Net.Reactor

open Machine PollIo AtomicWaker Yaar.Runtime Yaar.Runtime.TaskState

variable {T V D E : Type*}

/-- The socket of a number, where it is live. -/
def pollable {W : Type*} (s : PollIo.State T V W) (id : SocketId) : Pollable :=
  match s.sockets id with
  | .live p => p
  | _ => .new ⟨0, 0⟩

/-- A socket that is live is read as it is; the default is for sockets that are gone. -/
theorem pollable_live {W : Type*} {s : PollIo.State T V W} {id : SocketId} {p : Pollable}
    (hLive : s.sockets id = .live p) : pollable s id = p := by
  simp only [pollable, hLive]

/-- A task with the slot of its socket and the wakes in there. -/
structure View (U T : Type*) where
  caller : Caller T
  phase : Phase
  state : TaskState
  cell : Cell U T
  budget : UInt8
  flag : Bool
  wakes : U → Option (Waking T)

/-- The wakes of a slot. -/
def slotWakes {W : Type*} (s : PollIo.State T V W) (index : WakerIndex) (kind : WakerKind)
    (u : V ⊕ SocketId) : Option (Waking W) :=
  (s.wakes u).bind fun wake => if wake.index = index ∧ wake.kind = kind then some wake.at_ else none

def State.view (s : State T V D) (x : SocketId × WakerKind) (t : T) : View (V ⊕ SocketId) T where
  caller := s.io.callers t
  phase := s.phases t
  state := s.tasks t
  cell := s.io.cell (pollable s.io x.1).index x.2
  budget := (pollable s.io x.1).budgets x.2
  flag := (pollable s.io x.1).pendings x.2
  wakes := slotWakes s.io (pollable s.io x.1).index x.2

/-! ## An operation of a call -/

section Calls

variable [DecidableEq T]

/-- An operation of a call, as the slot, the budget and the flag of its pair have it. -/
inductive Goes (x : SocketId × WakerKind) (ctx : Option T) (c : Cell (V ⊕ SocketId) T) (b : UInt8)
    (f : Bool) : Line T → Cell (V ⊕ SocketId) T → UInt8 → Bool → Caller T → Prop where
  | load : Goes x ctx c b f .load c b f (.call x.1 x.2 ctx (.poll f (.loadNotified ctx)))
  | poll (isPending : Bool) {at_ at_' : AtomicWaker.Poller T} {c' : Cell (V ⊕ SocketId) T}
      (step : pollerStep c at_ = some (c', at_')) :
      Goes x ctx c b f (.poll isPending at_) c' b f (.polled x.1 x.2 ctx isPending at_')
  | begin : Goes x ctx c b f .begin c b f (.call x.1 x.2 ctx .storePending)
  | storePending : Goes x ctx c b f .storePending c b true .idle
  | complete : Goes x ctx c b f .complete c b f (.call x.1 x.2 ctx .storeCompleted)
  | storeCompleted : Goes x ctx c b f .storeCompleted c b false (.call x.1 x.2 ctx (.spend ctx))
  | loadBudget : Goes x ctx c b f .loadBudget c b f (.call x.1 x.2 ctx (.storeBudget b))
  | spends {budget b' : UInt8} (spent : Pollable.checkedPred budget = some b') :
      Goes x ctx c b f (.storeBudget budget) c b' f (.call x.1 x.2 ctx .doIo)
  | yields {budget : UInt8} (empty : Pollable.checkedPred budget = none) :
      Goes x ctx c b f (.storeBudget budget) c BUDGET f (.call x.1 x.2 ctx .yield)
  | yield : Goes x ctx c b f .yield c b f .idle
  | doIo : Goes x ctx c b f .doIo c b f (.call x.1 x.2 ctx .inIo)
  | reset {at_ at_' : AtomicWaker.Poller T} {c' : Cell (V ⊕ SocketId) T}
      (step : pollerStep c at_ = some (c', at_')) :
      Goes x ctx c b f (.reset at_) c' b f (.resetting x.1 x.2 ctx at_')

/-- What a step of a call leaves as it is. -/
structure Keeps (s s' : PollIo.State T V T) (t : T) (x : SocketId × WakerKind) (p p' : Pollable) :
    Prop where
  sockets : s'.sockets = Function.update s.sockets x.1 (.live p')
  index : p'.index = p.index
  callers : ∀ u, u ≠ t → s'.callers u = s.callers u
  wakes : s'.wakes = s.wakes
  cells : ∀ index kind, ¬(index = p.index ∧ kind = x.2) → s'.cell index kind = s.cell index kind
  budgets : ∀ kind, kind ≠ x.2 → p'.budgets kind = p.budgets kind
  pendings : ∀ kind, kind ≠ x.2 → p'.pendings kind = p.pendings kind

theorem Keeps.setCaller {s : PollIo.State T V T} {t : T} {x : SocketId × WakerKind} {p : Pollable}
    (hLive : s.sockets x.1 = .live p) (pending : Nat) (caller : Caller T) :
    Keeps s ({ s with pending := pending }.setCaller t caller) t x p p :=
  ⟨by rw [← hLive, Function.update_eq_self]; rfl, rfl, fun u hu => Function.update_of_ne hu .., rfl,
    fun _ _ _ => rfl, fun _ _ => rfl, fun _ _ => rfl⟩

/-- An operation of a call changes the slot, the budget and the flag of its own pair,
and nothing else. Only a call that panics is left out. -/
theorem callStep_goes {s s' : PollIo.State T V T} {t : T} {x : SocketId × WakerKind} {ctx : Option T}
    {p : Pollable} {line : Line T} (hLive : s.sockets x.1 = .live p)
    (h : s.callStep t x.1 p x.2 ctx line = some s') (hFine : ∀ f, s'.callers t ≠ .panicked f) :
    ∃ p', Keeps s s' t x p p' ∧ Goes x ctx (s.cell p.index x.2) (p.budgets x.2) (p.pendings x.2) line
      (s'.cell p.index x.2) (p'.budgets x.2) (p'.pendings x.2) (s'.callers t) := by
  have hSame : Function.update s.sockets x.1 (.live p) = s.sockets := by
    rw [← hLive, Function.update_eq_self]
  have hStays (n : Nat) (caller : Caller T) :
      Keeps s ({ s with pending := n }.setCaller t caller) t x p p := .setCaller hLive n caller
  have hCell {caller : Caller T} {cell : Cell (V ⊕ SocketId) T} :
      Keeps s ((s.setCell p.index x.2 cell).setCaller t caller) t x p p :=
    ⟨hSame.symm, rfl, fun u hu => Function.update_of_ne hu .., rfl, fun index kind hNe => by
      rw [cell_setCaller, cell_setCell, if_neg hNe], fun _ _ => rfl, fun _ _ => rfl⟩
  cases line with
  | inIo => simp [State.callStep] at h
  | load =>
      obtain rfl := Option.some.inj h
      exact ⟨p, hStays s.pending _, by rw [callers_setCaller]; exact .load⟩
  | loadBudget =>
      obtain rfl := Option.some.inj h
      exact ⟨p, hStays s.pending _, by rw [callers_setCaller]; exact .loadBudget⟩
  | doIo =>
      obtain rfl := Option.some.inj h
      exact ⟨p, hStays s.pending _, by rw [callers_setCaller]; exact .doIo⟩
  | yield =>
      obtain rfl := Option.some.inj h
      exact ⟨p, hStays s.pending _, by rw [callers_setCaller]; exact .yield⟩
  | poll isPending at_ =>
      obtain ⟨⟨cell, at_'⟩, hStep, rfl⟩ := Option.map_eq_some_iff.mp h
      refine ⟨p, hCell, ?_⟩
      rw [callers_setCaller, cell_setCaller, cell_setCell, if_pos ⟨rfl, rfl⟩]
      exact .poll isPending hStep
  | reset at_ =>
      obtain ⟨⟨cell, at_'⟩, hStep, rfl⟩ := Option.map_eq_some_iff.mp h
      refine ⟨p, hCell, ?_⟩
      rw [callers_setCaller, cell_setCaller, cell_setCell, if_pos ⟨rfl, rfl⟩]
      exact .reset hStep
  | begin =>
      obtain rfl := Option.some.inj h
      rw [callers_setCaller] at hFine
      refine ⟨p, hStays (fetchAdd s.pending) _, ?_⟩
      rw [callers_setCaller, cell_setCaller, cell_pending (fetchAdd s.pending)]
      split
      · next hFull => exact absurd (if_pos hFull) (hFine .begin)
      · exact .begin
  | complete =>
      obtain rfl := Option.some.inj h
      rw [callers_setCaller] at hFine
      refine ⟨p, hStays (fetchSub s.pending) _, ?_⟩
      rw [callers_setCaller, cell_setCaller, cell_pending (fetchSub s.pending)]
      split
      · next hEmpty => exact absurd (if_pos hEmpty) (hFine .complete)
      · exact .complete
  | storePending =>
      obtain rfl := Option.some.inj h
      refine ⟨p.setPending x.2 true, ⟨rfl, rfl, fun u hu => Function.update_of_ne hu .., rfl,
        fun _ _ _ => rfl, fun _ _ => rfl, fun kind hNe => Function.update_of_ne hNe ..⟩, ?_⟩
      rw [callers_setCaller]
      have hFlag : (p.setPending x.2 true).pendings x.2 = true := Function.update_self ..
      rw [hFlag]
      exact .storePending
  | storeCompleted =>
      obtain rfl := Option.some.inj h
      refine ⟨p.setPending x.2 false, ⟨rfl, rfl, fun u hu => Function.update_of_ne hu .., rfl,
        fun _ _ _ => rfl, fun _ _ => rfl, fun kind hNe => Function.update_of_ne hNe ..⟩, ?_⟩
      rw [callers_setCaller]
      have hFlag : (p.setPending x.2 false).pendings x.2 = false := Function.update_self ..
      rw [hFlag]
      exact .storeCompleted
  | storeBudget budget =>
      obtain rfl := Option.some.inj h
      refine ⟨_, ⟨rfl, rfl, fun u hu => Function.update_of_ne hu .., rfl, fun _ _ _ => rfl,
        fun kind hNe => Function.update_of_ne hNe .., fun _ _ => rfl⟩, ?_⟩
      rw [callers_setCaller]
      simp only [Function.update_self]
      cases hPred : Pollable.checkedPred budget with
      | none => exact .yields hPred
      | some b' => exact .spends hPred

end Calls

end Yaar.Net.Reactor
