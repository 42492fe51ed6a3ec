import Yaar.Net.PollIoShared
import Yaar.Net.ReactorStages

/-! What each event does to the views of the tasks. -/
namespace Yaar.Net.Reactor

open Machine PollIo AtomicWaker Yaar.Runtime Yaar.Runtime.TaskState

variable {T V D E : Type*} {L : Layout} {prog : Program T D E} {s s' : State T V D} {t u : T} {v : V}

def State.views (s : State T V D) (prog : Program T D E) (t : T) : View (V ⊕ SocketId) T :=
  s.view (prog.pair t) t

/-- The sockets of the tasks are live. -/
structure Open (L : Layout) (prog : Program T D E) (s : State T V D) : Prop where
  owns : PollIo.Owns L s.io
  live : ∀ t, ∃ p, s.io.sockets (prog.pair t).1 = .live p

theorem Open.created (opened : Open L prog s) {p : Pollable}
    (hLive : s.io.sockets (prog.pair t).1 = .live p) : s.io.storage.Created p.index :=
  (opened.owns.used _ p.index (by rw [hLive]; rfl)).2

/-- Two tasks have two slots. -/
theorem Open.apart (opened : Open L prog s) (hNe : u ≠ t) :
    ¬((pollable s.io (prog.pair u).1).index = (pollable s.io (prog.pair t).1).index ∧
      (prog.pair u).2 = (prog.pair t).2) := by
  rintro ⟨hIndex, hKind⟩
  obtain ⟨p, hLive⟩ := opened.live t
  obtain ⟨q, hLive'⟩ := opened.live u
  rw [pollable_live hLive, pollable_live hLive'] at hIndex
  have hSocket := opened.owns.apart _ _ p.index (by rw [hLive', ← hIndex]; rfl) (by rw [hLive]; rfl)
  exact hNe (prog.apart (Prod.ext hSocket hKind))

/-- The view of a task, as its socket has it. -/
theorem views_live {p : Pollable} (hLive : s.io.sockets (prog.pair t).1 = .live p) :
    s.views prog t = ⟨s.io.callers t, s.phases t, s.tasks t, s.io.cell p.index (prog.pair t).2,
      p.budgets (prog.pair t).2, p.pendings (prog.pair t).2,
      slotWakes s.io p.index (prog.pair t).2⟩ := by
  simp only [State.views, State.view, pollable_live hLive]

theorem slotWakes_congr {W : Type*} {s s' : PollIo.State T V W} (h : s'.wakes = s.wakes) :
    slotWakes s' = slotWakes s := by
  funext index kind u
  rw [slotWakes, slotWakes, h]

/-! ## A call -/

/-- A task's own operation is not seen by the others. -/
theorem Keeps.other {p p' : Pollable} (keeps : Keeps s.io s'.io t (prog.pair t) p p')
    (hLive : s.io.sockets (prog.pair t).1 = .live p) (opened : Open L prog s)
    (hPhase : s'.phases u = s.phases u) (hTask : s'.tasks u = s.tasks u) (hNe : u ≠ t) :
    s'.views prog u = s.views prog u := by
  have hApart := opened.apart hNe
  obtain ⟨q, hLive'⟩ := opened.live u
  -- The socket of the task may be that of the other task, for the other kind.
  obtain ⟨q', hLive'', hIndex, hBudget, hFlag⟩ : ∃ q', s'.io.sockets (prog.pair u).1 = .live q' ∧
      q'.index = q.index ∧ q'.budgets (prog.pair u).2 = q.budgets (prog.pair u).2 ∧
        q'.pendings (prog.pair u).2 = q.pendings (prog.pair u).2 := by
    rw [keeps.sockets]
    by_cases hSocket : (prog.pair u).1 = (prog.pair t).1
    · rw [hSocket, hLive] at hLive'
      obtain rfl : p = q := by simpa using hLive'
      have hKind : (prog.pair u).2 ≠ (prog.pair t).2 :=
        fun hKind => hNe (prog.apart (Prod.ext hSocket hKind))
      exact ⟨p', by rw [hSocket, Function.update_self], keeps.index, keeps.budgets _ hKind,
        keeps.pendings _ hKind⟩
    · exact ⟨q, by rw [Function.update_of_ne hSocket, hLive'], rfl, rfl, rfl⟩
  rw [pollable_live hLive', pollable_live hLive] at hApart
  rw [views_live hLive', views_live hLive'', hIndex, hBudget, hFlag, keeps.callers u hNe, hPhase, hTask,
    keeps.cells _ _ hApart, slotWakes_congr keeps.wakes]

/-- A task's own operation, as it sees it itself. -/
theorem Keeps.own {p p' : Pollable} (keeps : Keeps s.io s'.io t (prog.pair t) p p')
    (hLive : s.io.sockets (prog.pair t).1 = .live p) :
    s'.views prog t = ⟨s'.io.callers t, s'.phases t, s'.tasks t, s'.io.cell p.index (prog.pair t).2,
      p'.budgets (prog.pair t).2, p'.pendings (prog.pair t).2, (s.views prog t).wakes⟩ := by
  have hLive' : s'.io.sockets (prog.pair t).1 = .live p' := by rw [keeps.sockets, Function.update_self]
  rw [views_live hLive, views_live hLive', keeps.index, slotWakes_congr keeps.wakes]

/-! ## A wake -/

section Wakes

variable [DecidableEq V] {c : Cell (V ⊕ SocketId) T} {wake? : Option (Wake T)} {p : Pollable}

/-- A thread begins a wake in a slot or goes on with it. -/
structure Handles (s s' : PollIo.State T V T) (v : V) (index : WakerIndex) (kind : WakerKind)
    (c : Cell (V ⊕ SocketId) T) (wake? : Option (Wake T)) : Prop where
  sockets : s'.sockets = s.sockets
  callers : s'.callers = s.callers
  cells : ∀ i k, s'.cell i k = if i = index ∧ k = kind then c else s.cell i k
  wakes : s'.wakes = Function.update s.wakes (.inl v) wake?
  before : ∀ wake, s.wakes (.inl v) = some wake → wake.index = index ∧ wake.kind = kind
  after : ∀ wake, wake? = some wake → wake.index = index ∧ wake.kind = kind

/-- Seen from any slot, the thread's wake is there or it is not. No other wake of the
slot changes. -/
theorem Handles.slot {io io' : PollIo.State T V T} {index : WakerIndex} {kind : WakerKind}
    (handles : Handles io io' v index kind c wake?) (i : WakerIndex) (k : WakerKind) :
    slotWakes io' i k = Function.update (slotWakes io i k) (.inl v)
      (if i = index ∧ k = kind then wake?.map Wake.at_ else none) := by
  funext w
  by_cases hEq : w = .inl v
  · subst hEq
    rw [Function.update_self, slotWakes, handles.wakes, Function.update_self]
    cases hWake : wake? with
    | none => simp
    | some wake =>
        obtain ⟨rfl, rfl⟩ := handles.after wake hWake
        simp [eq_comm]
  · rw [Function.update_of_ne hEq, slotWakes, slotWakes, handles.wakes,
      Function.update_of_ne hEq]

/-- An operation of a wake is not seen by the tasks of the other slots. -/
theorem Handles.other (handles : Handles s.io s'.io v p.index (prog.pair t).2 c wake?)
    (hLive : s.io.sockets (prog.pair t).1 = .live p) (opened : Open L prog s)
    (hPhase : s'.phases u = s.phases u) (hTask : s'.tasks u = s.tasks u) (hNe : u ≠ t) :
    s'.views prog u = s.views prog u := by
  have hApart := opened.apart hNe
  obtain ⟨q, hLive'⟩ := opened.live u
  rw [pollable_live hLive', pollable_live hLive] at hApart
  have hLive'' : s'.io.sockets (prog.pair u).1 = .live q := by rw [handles.sockets, hLive']
  have hNone : slotWakes s.io q.index (prog.pair u).2 (.inl v) = none := by
    unfold slotWakes
    cases hWake : s.io.wakes (.inl v) with
    | none => rfl
    | some wake =>
        obtain ⟨hIndex, hKind⟩ := handles.before wake hWake
        exact if_neg fun hHere => hApart ⟨hHere.1.symm.trans hIndex, hHere.2.symm.trans hKind⟩
  rw [views_live hLive', views_live hLive'', handles.slot, if_neg hApart, handles.cells, if_neg hApart,
    handles.callers, hPhase, hTask, ← hNone, Function.update_eq_self]

/-- The task of the slot sees the new cell and the thread's wake. -/
theorem Handles.own (handles : Handles s.io s'.io v p.index (prog.pair t).2 c wake?)
    (hLive : s.io.sockets (prog.pair t).1 = .live p) :
    s'.views prog t = { s.views prog t with
      phase := s'.phases t
      state := s'.tasks t
      cell := c
      wakes := Function.update (s.views prog t).wakes (.inl v) (wake?.map Wake.at_) } := by
  have hLive' : s'.io.sockets (prog.pair t).1 = .live p := by rw [handles.sockets, hLive]
  rw [views_live hLive, views_live hLive', handles.slot, if_pos ⟨rfl, rfl⟩, handles.cells,
    if_pos ⟨rfl, rfl⟩, handles.callers]

end Wakes

end Yaar.Net.Reactor
