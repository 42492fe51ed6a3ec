import Yaar.Net.ReactorTurns

/-! The invariant of the tasks, the selector and the threads that handle its events, and what
each event does where it holds. -/
namespace Yaar.Net.Reactor

open Machine PollIo AtomicWaker Yaar.Runtime Yaar.Runtime.TaskState

variable {T V D E : Type*} {L : Layout} {prog : Program T D E} {s s' : State T V D} {t : T} {v : V}

/-- The sockets of the tasks stay live, their wakes are those of the threads, and a task that
has not seen that its operation is possible will be told. -/
structure Inv [DecidableEq V] (L : Layout) (prog : Program T D E) (s : State T V D) : Prop where
  ordered : InOrder L s.io
  live : ∀ t, ∃ p, s.io.sockets (prog.pair t).1 = .live p
  noDrops : ∀ id, s.io.wakes (.inr id) = none
  placed : ∀ v wake, s.io.wakes (.inl v) = some wake →
    ∃ t, (s.views prog t).wakes (.inl v) = some wake.at_
  fits : ∀ t, Fits (prog.pair t) t (s.views prog t)
  goesOn : ∀ t, s.io.callers t ≠ .idle → prog.device.goesOn s.device t = true
  hears : ∀ t, s.phases t ≠ .done → prog.device.ready s.device t = true →
    s.raised t = true ∨ (∃ v, t ∈ s.batches v) ∨ (s.views prog t).Hears
  sound : s.failed = false

variable [DecidableEq V]

theorem Inv.opened (inv : Inv L prog s) : Open L prog s :=
  ⟨inv.ordered.fine.sound.owns, inv.live⟩

/-- A task that is in a call is there for its own pair and with its own waker. -/
theorem Inv.call (inv : Inv L prog s) {id : SocketId} {kind : WakerKind} {ctx : Option T} {line : Line T}
    (hCall : s.io.callers t = .call id kind ctx line) :
    id = (prog.pair t).1 ∧ kind = (prog.pair t).2 ∧ ctx = some t :=
  ((inv.fits t).of_call (x := prog.pair t) hCall).2

/-- A wake is in the slot of a socket that is live, for the kind of the task which has
the socket. -/
theorem Inv.placed_live (inv : Inv L prog s) {wake : Wake T} (hWake : s.io.wakes (.inl v) = some wake) :
    ∃ t p, s.io.sockets (prog.pair t).1 = .live p ∧ wake.index = p.index ∧
      wake.kind = (prog.pair t).2 ∧ (s.views prog t).wakes (.inl v) = some wake.at_ := by
  obtain ⟨t, hView⟩ := inv.placed v wake hWake
  obtain ⟨p, hLive⟩ := inv.live t
  obtain ⟨wake', hWake', hSlot⟩ := Option.bind_eq_some_iff.mp hView
  obtain rfl := Option.some.inj (hWake'.symm.trans hWake)
  split at hSlot
  · next hHere => exact ⟨t, p, hLive, by rw [hHere.1, pollable_live hLive], hHere.2, hView⟩
  · cases hSlot

/-! ## What an event does -/

section Does

variable [DecidableEq T]

/-- The edges of a change of the device. -/
def Posts (prog : Program T D E) (s s' : State T V D) : Prop :=
  ∀ u, s'.raised u = (s.raised u || prog.device.ready s'.device u && !prog.device.ready s.device u)

/-- What an event does to the tasks, the selector and the threads. -/
inductive Does (prog : Program T D E) (s s' : State T V D) : Event T V E → Prop where
  /-- a turn of a task that leaves the device as it is -/
  | turn {e : Event T V E} {t : T} {view : View (V ⊕ SocketId) T}
      (turns : Turns (prog.pair t) t (prog.device.goesOn s.device t) (s.views prog t) e view)
      (views : s'.views prog = Function.update (s.views prog) t view)
      (wakes : s'.io.wakes = s.io.wakes) (batches : s'.batches = s.batches)
      (device : s'.device = s.device) (raised : s'.raised = s.raised)
      (blocks : e = .wouldBlock t → prog.device.ready s.device t = false) : Does prog s s' e
  /-- an operation of a task, or its return -/
  | posts {e : Event T V E} {t : T} {view : View (V ⊕ SocketId) T}
      (turns : Turns (prog.pair t) t (prog.device.goesOn s.device t) (s.views prog t) e view)
      (views : s'.views prog = Function.update (s.views prog) t view)
      (wakes : s'.io.wakes = s.io.wakes) (batches : s'.batches = s.batches)
      (others : ∀ u, u ≠ t → prog.device.goesOn s'.device u = prog.device.goesOn s.device u)
      (posts : Posts prog s s') (counts : e = .finish t ∨ ∃ n, e = .operate t n) : Does prog s s' e
  | select {v : V} {ts : List T} (empty : s.batches v = []) (some : ts ≠ []) (nodup : ts.Nodup)
      (raised : ∀ t ∈ ts, s.raised t = true)
      (result : s' = { s with raised := fun t => s.raised t && decide (t ∉ ts) }.setBatch v ts) :
      Does prog s s' (.select v ts)
  | spurious {v : V} {t : T} (result : s' = s.setBatch v (s.batches v ++ [t])) : Does prog s s' (.spurious v t)
  | process {v : V} {t : T} {rest : List T} {wake : Wake T} (batch : s.batches v = t :: rest)
      (free : s.io.wakes (.inl v) = none) (begins : wake.at_ = .update)
      (views : s'.views prog = Function.update (s.views prog) t { s.views prog t with
        wakes := Function.update (s.views prog t).wakes (.inl v) (some .update) })
      (wakes : s'.io.wakes = Function.update s.io.wakes (.inl v) (some wake))
      (batches : s'.batches = Function.update s.batches v rest)
      (device : s'.device = s.device) (raised : s'.raised = s.raised) : Does prog s s' (.process v)
  | waker {v : V} {t : T} {wake : Wake T} {wake? : Option (Wake T)} {c : Cell (V ⊕ SocketId) T}
      {a : Waking T}
      (waking : s.io.wakes (.inl v) = some wake)
      (placed : (s.views prog t).wakes (.inl v) = some wake.at_)
      (step : wakerStep (s.views prog t).cell (.inl v) wake.at_ = some (c, a))
      (goes : wake?.map Wake.at_ = if a = .idle then none else some a)
      (views : s'.views prog = Function.update (s.views prog) t { s.views prog t with
        state := if wake.at_ = .invoke t then (transitionToScheduled (s.tasks t)).1 else s.tasks t
        cell := c
        wakes := Function.update (s.views prog t).wakes (.inl v) (wake?.map Wake.at_) })
      (wakes : s'.io.wakes = Function.update s.io.wakes (.inl v) wake?)
      (batches : s'.batches = s.batches)
      (device : s'.device = s.device) (raised : s'.raised = s.raised) : Does prog s s' (.waker v)
  | outside {e : E} (views : s'.views prog = s.views prog) (wakes : s'.io.wakes = s.io.wakes)
      (batches : s'.batches = s.batches)
      (goesOn : ∀ u, prog.device.goesOn s'.device u = prog.device.goesOn s.device u)
      (posts : Posts prog s s') : Does prog s s' (.outside e)

end Does

/-! ## What an event does to the sockets -/

/-- Any operation of a call is orderly: two tasks never meet in one slot. -/
theorem Inv.orderly_step (inv : Inv L prog s) (t : T) : Orderly s.io (.step t : PollIo.Event T V T) := by
  refine ⟨trivial, fun u id kind ctx isPending w p hEvent hCall hLive => ?_⟩
  obtain ⟨rfl, rfl, rfl⟩ := inv.call hCall
  have holds := ((inv.fits u).awake_of_call (x := prog.pair u) hCall (by simp)).2.holds
  rw [views_live hLive] at holds
  exact holds.2

/-- So is a new call, as the slot of the task has no other caller. -/
theorem Inv.orderly_call (inv : Inv L prog s) (hIdle : s.io.callers t = .idle) :
    Orderly s.io (.call t (prog.pair t).1 (prog.pair t).2 (some t) : PollIo.Event T V T) := by
  refine ⟨fun u hPair => ?_, by simp⟩
  obtain ⟨ctx, line, hCall⟩ := call_of_pair hPair
  obtain ⟨hSocket, hKind, -⟩ := inv.call hCall
  obtain rfl : t = u := prog.apart (Prod.ext hSocket hKind)
  simp [hIdle] at hCall

omit [DecidableEq V] in
theorem orderly_rest {io : PollIo.State T V T} {e : PollIo.Event T V T} (hCall : ∀ t id kind ctx, e ≠ .call t id kind ctx)
    (hStep : ∀ t, e ≠ .step t) : Orderly io e := by
  refine ⟨?_, fun t id kind ctx isPending w p hEvent => absurd hEvent (hStep t)⟩
  cases e with
  | call t id kind ctx => exact absurd rfl (hCall t id kind ctx)
  | _ => trivial

section Sockets

variable [DecidableEq T]

omit [DecidableEq V] in
theorem stepped_io (t : T) (io : PollIo.State T V T) : (s.stepped t io).io = io := by
  unfold State.stepped
  split
  · split <;> rfl
  · rfl

omit [DecidableEq V] in
theorem woken_io (wake? : Option (Wake T)) (io : PollIo.State T V T) : (s.woken wake? io).io = io := by
  unfold State.woken
  split <;> rfl

variable [Fintype T]

/-- A socket that is not dropped stays live. -/
theorem live_stays {io io' : PollIo.State T V T} {e : PollIo.Event T V T} {id : SocketId} {p : Pollable}
    (h : PollIo.next L io e = some io') (hLive : io.sockets id = .live p) (hDrop : e ≠ .drop id) :
    ∃ q, io'.sockets id = .live q := by
  have hOther {id' : SocketId} (hNe : id ≠ id') (socket : PollIo.Socket) :
      ∃ q, Function.update io.sockets id' socket id = .live q :=
    ⟨p, by rw [Function.update_of_ne hNe, hLive]⟩
  cases e with
  | alloc id' =>
      obtain ⟨hAbsent, index?, storage, -, rfl⟩ := next_alloc h
      refine hOther ?_ _
      rintro rfl
      simp [hLive] at hAbsent
  | register id' ok =>
      obtain ⟨index, hAllocated, rfl | rfl⟩ := next_register h <;>
      · refine hOther ?_ _
        rintro rfl
        simp [hLive] at hAllocated
  | call t id' kind ctx =>
      obtain ⟨-, q, -, rfl⟩ := PollIo.next_call h
      exact ⟨p, hLive⟩
  | step t =>
      obtain ⟨id', kind, ctx, line, q, -, hLive', hStep⟩ := PollIo.next_step h
      obtain ⟨q', caller, done⟩ := callStep_calling hLive' hStep
      rw [done.sockets]
      by_cases hEq : id = id'
      · exact ⟨q', by rw [hEq, Function.update_self]⟩
      · exact hOther hEq _
  | doIo t result =>
      obtain ⟨id', kind, ctx, -, rfl⟩ := next_doIo h
      exact ⟨p, hLive⟩
  | drop id' =>
      obtain ⟨q, -, -, hNext⟩ := next_drop h
      have hNe : id ≠ id' := by
        rintro rfl
        exact hDrop rfl
      split at hNext <;>
      · rw [hNext]
        exact hOther hNe _
  | dropping id' =>
      obtain ⟨q, at_, hDropping, hStep⟩ := next_dropping h
      obtain ⟨socket, hSockets, -⟩ := dropStep_sockets hStep
      rw [hSockets]
      refine hOther ?_ _
      rintro rfl
      simp [hLive] at hDropping
  | wake v index kind =>
      obtain ⟨-, -, rfl⟩ := next_wake h
      exact ⟨p, hLive⟩
  | waker u =>
      obtain ⟨wake, cell, at_, -, -, rfl⟩ := PollIo.next_waker h
      exact ⟨p, hLive⟩

/-- The events of the sockets are in order, and none of them is dropped. -/
theorem Inv.io_next {e : Event T V E} (inv : Inv L prog s) (h : next L prog s e = some s') :
    s'.io = s.io ∨ ∃ e', PollIo.next L s.io e' = some s'.io ∧ Orderly s.io e' ∧
      ∀ id, e' ≠ .drop id := by
  have hRest {e' : PollIo.Event T V T} (hIo : PollIo.next L s.io e' = some s'.io)
      (hCall : ∀ t id kind ctx, e' ≠ .call t id kind ctx) (hStep : ∀ t, e' ≠ .step t)
      (hDrop : ∀ id, e' ≠ .drop id) :
      s'.io = s.io ∨ ∃ e', PollIo.next L s.io e' = some s'.io ∧ Orderly s.io e' ∧ ∀ id, e' ≠ .drop id :=
    .inr ⟨e', hIo, orderly_rest hCall hStep, hDrop⟩
  cases e with
  | run t =>
      obtain ⟨-, -, rfl⟩ := next_run h
      exact .inl rfl
  | call t =>
      obtain ⟨-, -, io, hIo, rfl⟩ := next_call h
      exact .inr ⟨_, hIo, inv.orderly_call (PollIo.next_call hIo).1, by simp⟩
  | finish t =>
      obtain ⟨-, -, -, rfl⟩ := next_finish h
      exact .inl rfl
  | step t =>
      obtain ⟨io, hIo, rfl⟩ := next_step h
      exact .inr ⟨_, hIo.trans (congrArg _ (stepped_io t io).symm), inv.orderly_step t, by simp⟩
  | leave t =>
      obtain ⟨-, ⟨state, answer, -, rfl⟩ | ⟨-, rfl⟩⟩ := next_leave h <;> exact .inl rfl
  | operate t n =>
      obtain ⟨d, io, -, hIo, rfl⟩ := next_operate h
      exact hRest hIo (by simp) (by simp) (by simp)
  | wouldBlock t =>
      obtain ⟨-, io, hIo, rfl⟩ := next_wouldBlock h
      exact hRest hIo (by simp) (by simp) (by simp)
  | interrupt t =>
      obtain ⟨io, hIo, rfl⟩ := next_interrupt h
      exact hRest hIo (by simp) (by simp) (by simp)
  | select v ts =>
      obtain ⟨-, -, -, -, rfl⟩ := next_select h
      exact .inl rfl
  | spurious v t =>
      obtain rfl := Option.some.inj h
      exact .inl rfl
  | process v =>
      obtain ⟨t, rest, p, io, -, -, hIo, rfl⟩ := next_process h
      exact hRest hIo (by simp) (by simp) (by simp)
  | waker v =>
      obtain ⟨io, hIo, rfl⟩ := next_waker h
      exact hRest (hIo.trans (congrArg _ (woken_io _ io).symm)) (by simp) (by simp) (by simp)
  | outside e =>
      obtain ⟨d, -, rfl⟩ := next_outside h
      exact .inl rfl

/-- The sockets stay in order, whatever the tasks and the network do. -/
theorem Inv.ordered_next {e : Event T V E} (inv : Inv L prog s) (h : next L prog s e = some s') :
    InOrder L s'.io := by
  obtain hSame | ⟨e', hIo, orderly, -⟩ := inv.io_next h
  · exact hSame ▸ inv.ordered
  · exact inv.ordered.next orderly hIo

/-- No socket is closed, so that of every task is live after any event. -/
theorem Inv.live_next {e : Event T V E} (inv : Inv L prog s) (h : next L prog s e = some s') (t : T) :
    ∃ p, s'.io.sockets (prog.pair t).1 = .live p := by
  obtain ⟨p, hLive⟩ := inv.live t
  obtain hSame | ⟨e', hIo, -, hDrop⟩ := inv.io_next h
  · exact ⟨p, hSame ▸ hLive⟩
  · exact live_stays hIo hLive (hDrop _)

end Sockets

/-! ## What an event does to the views -/

section Views

variable [DecidableEq T]

omit [DecidableEq V] in
/-- A state in which one view differs, as an update of the views. -/
theorem views_update {view : View (V ⊕ SocketId) T} (hOwn : s'.views prog t = view)
    (hOther : ∀ u, u ≠ t → s'.views prog u = s.views prog u) :
    s'.views prog = Function.update (s.views prog) t view := by
  funext u
  by_cases hEq : u = t
  · subst hEq
    rw [Function.update_self, hOwn]
  · rw [Function.update_of_ne hEq, hOther u hEq]

/-- A turn that changes the caller of its task. -/
theorem Inv.views_caller {io : PollIo.State T V T} {caller : Caller T} (inv : Inv L prog s)
    (hIo : io = s.io.setCaller t caller) :
    ({ s with io := io } : State T V D).views prog =
      Function.update (s.views prog) t { s.views prog t with caller := caller } := by
  subst hIo
  obtain ⟨p, hLive⟩ := inv.live t
  have keeps : Keeps s.io ({ s with io := s.io.setCaller t caller } : State T V D).io t (prog.pair t) p p :=
    .setCaller hLive s.io.pending caller
  refine views_update ?_ fun u hNe => keeps.other hLive inv.opened rfl rfl hNe
  rw [keeps.own hLive, views_live hLive]
  simp only [callers_setCaller, cell_setCaller]

omit [DecidableEq V] in
theorem views_setPhase (phase : Phase) : (s.setPhase t phase).views prog =
    Function.update (s.views prog) t { s.views prog t with phase := phase } := by
  refine views_update ?_ fun u hNe => ?_
  · simp [State.views, State.view, State.setPhase]
  · simp [State.views, State.view, State.setPhase, hNe]

omit [DecidableEq V] in
theorem views_setTask (state : TaskState) : (s.setTask t state).views prog =
    Function.update (s.views prog) t { s.views prog t with state := state } := by
  refine views_update ?_ fun u hNe => ?_
  · simp [State.views, State.view, State.setTask]
  · simp [State.views, State.view, State.setTask, hNe]

omit [DecidableEq V] in
theorem stepped_other {u : T} (t : T) (io : PollIo.State T V T) (hNe : u ≠ t) :
    (s.stepped t io).phases u = s.phases u ∧ (s.stepped t io).tasks u = s.tasks u := by
  unfold State.stepped
  split
  · split <;> simp [State.setPhase, State.wakeTask, State.setTask, hNe]
  · exact ⟨rfl, rfl⟩

omit [DecidableEq V] in
/-- An operation of a call, in the view of its task. -/
theorem Keeps.stepped {io : PollIo.State T V T} {p p' : Pollable}
    (keeps : Keeps s.io io t (prog.pair t) p p') (hLive : s.io.sockets (prog.pair t).1 = .live p) :
    (s.stepped t io).views prog t = (s.views prog t).stepped (io.callers t)
      (io.cell p.index (prog.pair t).2) (p'.budgets (prog.pair t).2) (p'.pendings (prog.pair t).2) := by
  have keeps' : Keeps s.io (s.stepped t io).io t (prog.pair t) p p' := (stepped_io t io).symm ▸ keeps
  rw [keeps'.own hLive, stepped_io]
  have hYields : yields (s.views prog t).caller = yields (s.io.callers t) := rfl
  unfold State.stepped View.stepped
  cases hCaller : io.callers t with
  | idle =>
      simp only [hYields]
      split <;> simp [State.setPhase, State.wakeTask, State.setTask] <;> rfl
  | call | panicked => rfl

omit [DecidableEq V] in
theorem woken_other {u : T} (t : T) (wake? : Option (Wake T)) (io : PollIo.State T V T)
    (hWake : ∀ wake, wake? = some wake → wake.at_ = .invoke t ∨ ∀ w, wake.at_ ≠ .invoke w) (hNe : u ≠ t) :
    (s.woken wake? io).phases u = s.phases u ∧ (s.woken wake? io).tasks u = s.tasks u := by
  unfold State.woken
  split
  · next index kind w =>
      obtain hEq | hNot := hWake _ rfl
      · obtain rfl : w = t := by simpa using hEq
        exact ⟨rfl, Function.update_of_ne hNe ..⟩
      · exact absurd rfl (hNot w)
  · exact ⟨rfl, rfl⟩

omit [DecidableEq V] in
/-- The task of the slot is scheduled exactly if the wake calls its waker in this step. -/
theorem woken_own (t : T) (wake : Wake T) (io : PollIo.State T V T)
    (hWake : wake.at_ = .invoke t ∨ ∀ w, wake.at_ ≠ .invoke w) :
    (s.woken (some wake) io).phases t = s.phases t ∧ (s.woken (some wake) io).tasks t =
      if wake.at_ = .invoke t then (transitionToScheduled (s.tasks t)).1 else s.tasks t := by
  obtain ⟨index, kind, at_⟩ := wake
  cases at_ with
  | invoke w =>
      obtain rfl : w = t := by simpa using hWake
      exact ⟨rfl, by simp [State.woken, State.wakeTask, State.setTask]⟩
  | _ => exact ⟨rfl, by simp [State.woken]⟩

section Next

variable [Fintype T]

/-- A result of `do_io` is an event of the task whose call it is. The slot is not
touched. -/
theorem Inv.does_doIo {io : PollIo.State T V T} {result : IoResult} (inv : Inv L prog s)
    (hIo : PollIo.next L s.io (.doIo t result) = some io) :
    (s.views prog t).caller = .call (prog.pair t).1 (prog.pair t).2 (some t) .inIo ∧
      ({ s with io := io } : State T V D).views prog = Function.update (s.views prog) t
        { s.views prog t with caller := .returned (prog.pair t).1 (prog.pair t).2 (some t) result } ∧
      io.wakes = s.io.wakes := by
  obtain ⟨id, kind, ctx, hCall, hNext⟩ := next_doIo hIo
  obtain ⟨rfl, rfl, rfl⟩ := inv.call hCall
  exact ⟨hCall, inv.views_caller hNext, by rw [hNext]; rfl⟩

/-- An operation of a call, as an event of the task. It does not panic, as the sockets
are in order. -/
theorem Inv.does_step (inv : Inv L prog s) (h : next L prog s (.step t) = some s') :
    Does prog s s' (.step t) := by
  have fine' := (inv.ordered_next h).fine
  obtain ⟨io, hIo, rfl⟩ := next_step h
  rw [stepped_io] at fine'
  obtain ⟨id, kind, ctx, line, p, hCall, hLive, hStep⟩ := PollIo.next_step hIo
  obtain ⟨rfl, rfl, rfl⟩ := inv.call hCall
  have sound := inv.ordered.fine.sound
  have finds := sound.facts.calls t p.index (prog.pair t).2 line ⟨_, _, p, hCall, hLive, rfl⟩
  have agrees := sound.exact_.agrees t _ _ p (by rw [hCall]; rfl) hLive
  have knows := inv.ordered.budgeted.knows t _ _ _ line p hCall hLive
  rw [hCall] at agrees
  obtain ⟨p', keeps, goes⟩ := callStep_goes hLive hStep (fine'.unfailed t)
  have hView := views_live hLive
  have hGoes : Goes (prog.pair t) (some t) (s.views prog t).cell (s.views prog t).budget
      (s.views prog t).flag line (io.cell p.index (prog.pair t).2) (p'.budgets (prog.pair t).2)
      (p'.pendings (prog.pair t).2) (io.callers t) := by
    rw [hView]
    exact goes
  refine .turn (.step hCall (by rwa [hView]) (by rwa [hView]) (by rwa [hView]) hGoes (fine'.unfailed t))
    (views_update (keeps.stepped hLive) fun u hNe => ?_) ?_ ?_ ?_ ?_ (by simp)
  · obtain ⟨hPhase, hTask⟩ := stepped_other (s := s) t io hNe
    exact Keeps.other ((stepped_io t io).symm ▸ keeps) hLive inv.opened hPhase hTask hNe
  · rw [stepped_io, keeps.wakes]
  all_goals
    unfold State.stepped
    split
    · split <;> rfl
    · rfl

/-- A wake begins in the slot of the task which the event is for. -/
theorem Inv.does_process (inv : Inv L prog s) (h : next L prog s (.process v) = some s') :
    Does prog s s' (.process v) := by
  obtain ⟨t, rest, p, io, hBatch, hLive, hIo, rfl⟩ := next_process h
  obtain ⟨hFree, -, rfl⟩ := PollIo.next_wake hIo
  have handles : Handles s.io (State.setBatch { s with
        io := s.io.setWake (.inl v) (some ⟨p.index, (prog.pair t).2, .update⟩) } v rest).io v p.index
      (prog.pair t).2 (s.io.cell p.index (prog.pair t).2) (some ⟨p.index, (prog.pair t).2, .update⟩) := by
    refine ⟨rfl, rfl, fun i k => ?_, rfl, fun wake hWake => by simp [hFree] at hWake, fun wake hWake => ?_⟩
    · split
      · next hHere => rw [hHere.1, hHere.2]; rfl
      · rfl
    · obtain rfl := Option.some.inj hWake
      exact ⟨rfl, rfl⟩
  refine .process hBatch hFree rfl (views_update ?_ fun u hNe => ?_) rfl rfl rfl rfl
  · rw [handles.own hLive, views_live hLive]
    rfl
  · exact handles.other hLive inv.opened rfl rfl hNe

/-- A wake goes on in the slot of one task. It calls that task's waker or none. -/
theorem Inv.does_waker (inv : Inv L prog s) (h : next L prog s (.waker v) = some s') :
    Does prog s s' (.waker v) := by
  obtain ⟨io, hIo, rfl⟩ := next_waker h
  obtain ⟨wake, cell, a, hWake, hStep, hNext⟩ := PollIo.next_waker hIo
  obtain ⟨t, p, hLive, hIndex, hKind, hView⟩ := inv.placed_live hWake
  have hCell : (s.views prog t).cell = s.io.cell wake.index wake.kind := by
    rw [views_live hLive, hIndex, hKind]
  rw [← hCell] at hStep
  have valid := inv.ordered.fine.sound.facts.valid wake.index wake.kind
  obtain ⟨-, wakes⟩ := (inv.fits t).wake (hCell ▸ valid) hView hStep
  have hInvoke : wake.at_ = .invoke t ∨ ∀ w, wake.at_ ≠ .invoke w := by
    cases wakes with
    | invoked operation => exact .inl operation
    | other a' operation => exact .inr operation
  have handles : Handles s.io (s.woken (some wake) io).io v wake.index wake.kind cell
      (if a = .idle then none else some { wake with at_ := a }) := by
    rw [woken_io, hNext]
    refine ⟨rfl, rfl, fun i k => cell_setCell .., rfl, fun wake' hWake' => ?_, fun wake' hWake' => ?_⟩
    · obtain rfl := Option.some.inj (hWake.symm.trans hWake')
      exact ⟨rfl, rfl⟩
    · obtain rfl := Option.some.inj (Option.ite_none_left_eq_some.mp hWake').2
      exact ⟨rfl, rfl⟩
  rw [hIndex, hKind] at handles
  obtain ⟨hPhase, hTask⟩ := woken_own (s := s) t wake io hInvoke
  rw [hWake]
  refine .waker hWake hView hStep (by split <;> rfl) (views_update ?_ fun u hNe => ?_) handles.wakes ?_ ?_ ?_
  · rw [handles.own hLive, hPhase, hTask]
    rfl
  · obtain ⟨hPhase, hTask⟩ := woken_other (s := s) t (some wake) io
      (fun wake' hWake' => Option.some.inj hWake' ▸ hInvoke) hNe
    exact handles.other hLive inv.opened hPhase hTask hNe
  all_goals
    unfold State.woken
    split <;> rfl

/-- Each event does what it says. -/
theorem Inv.does {e : Event T V E} (inv : Inv L prog s) (h : next L prog s e = some s') :
    Does prog s s' e ∧ s'.failed = false := by
  cases e with
  | step t =>
      refine ⟨inv.does_step h, ?_⟩
      obtain ⟨io, -, rfl⟩ := next_step h
      unfold State.stepped
      split
      · split <;> exact inv.sound
      · exact inv.sound
  | process v =>
      refine ⟨inv.does_process h, ?_⟩
      obtain ⟨t, rest, p, io, -, -, -, rfl⟩ := next_process h
      exact inv.sound
  | waker v =>
      refine ⟨inv.does_waker h, ?_⟩
      obtain ⟨io, -, rfl⟩ := next_waker h
      unfold State.woken
      split <;> exact inv.sound
  | run t =>
      obtain ⟨hPhase, hRunning, rfl⟩ := next_run h
      refine ⟨.turn (.run ?_ hPhase hRunning) ?_ rfl rfl rfl rfl (by simp), inv.sound⟩
      · exact (inv.fits t).idle_of_away hPhase
      · rw [views_setPhase, views_setTask]
        simp
  | call t =>
      obtain ⟨hPhase, hMore, io, hIo, rfl⟩ := next_call h
      obtain ⟨hIdle, p, hLive, hNext⟩ := PollIo.next_call hIo
      rw [if_pos (inv.opened.created hLive)] at hNext
      exact ⟨.turn (.call hIdle hPhase hMore) (inv.views_caller hNext) (by rw [hNext]; rfl) rfl rfl rfl
        (by simp), inv.sound⟩
  | finish t =>
      obtain ⟨hPhase, hIdle, -, rfl⟩ := next_finish h
      exact ⟨.posts (.finish hIdle hPhase) (views_setPhase .done) rfl rfl
        (fun u hNe => prog.device.finish_others s.device t u hNe) (fun _ => rfl) (.inl rfl), inv.sound⟩
  | leave t =>
      obtain ⟨hPhase, ⟨state, answer, hIdle, rfl⟩ | ⟨hNone, rfl⟩⟩ := next_leave h
      · refine ⟨.turn (.leave hPhase hIdle) ?_ rfl rfl rfl rfl (by simp), inv.sound⟩
        rw [views_setPhase, views_setTask]
        simp
      · obtain ⟨state, answer, hIdle, -⟩ := (inv.fits t).leave hPhase
        exact absurd (hNone.symm.trans hIdle) (by simp)
  | operate t n =>
      obtain ⟨d, io, hDevice, hIo, rfl⟩ := next_operate h
      obtain ⟨hCall, hViews, hWakes⟩ := inv.does_doIo hIo
      exact ⟨.posts (.operate n hCall) hViews hWakes rfl
        (fun u hNe => prog.device.operate_others s.device t n d u hDevice hNe) (fun _ => rfl)
        (.inr ⟨n, rfl⟩), inv.sound⟩
  | wouldBlock t =>
      obtain ⟨hReady, io, hIo, rfl⟩ := next_wouldBlock h
      obtain ⟨hCall, hViews, hWakes⟩ := inv.does_doIo hIo
      exact ⟨.turn (.wouldBlock hCall) hViews hWakes rfl rfl rfl fun _ => hReady, inv.sound⟩
  | interrupt t =>
      obtain ⟨io, hIo, rfl⟩ := next_interrupt h
      obtain ⟨hCall, hViews, hWakes⟩ := inv.does_doIo hIo
      exact ⟨.turn (.interrupt hCall) hViews hWakes rfl rfl rfl (by simp), inv.sound⟩
  | select v ts =>
      obtain ⟨hEmpty, hSome, hNodup, hRaised, rfl⟩ := next_select h
      exact ⟨.select hEmpty hSome hNodup hRaised rfl, inv.sound⟩
  | spurious v t =>
      obtain rfl := Option.some.inj h
      exact ⟨.spurious rfl, inv.sound⟩
  | outside e =>
      obtain ⟨d, hDevice, rfl⟩ := next_outside h
      exact ⟨.outside rfl rfl rfl (fun u => prog.device.outside_others s.device e d u hDevice)
        fun _ => rfl, inv.sound⟩

end Next

end Views

end Yaar.Net.Reactor
