import Yaar.Net.ReactorEvents

/-! Every event keeps the invariant. -/
namespace Yaar.Net.Reactor

open Machine PollIo AtomicWaker Yaar.Runtime Yaar.Runtime.TaskState

variable {T V D E : Type*} [DecidableEq T] [DecidableEq V] {L : Layout} {prog : Program T D E}
  {s s' : State T V D} {t : T} {e : Event T V E}

omit [DecidableEq V] in
/-- Where one view is replaced, a task is the one it belongs to or sees what it saw. -/
theorem views_cases {view : View (V ⊕ SocketId) T}
    (hViews : s'.views prog = Function.update (s.views prog) t view) (u : T) :
    u = t ∧ s'.views prog u = view ∨ u ≠ t ∧ s'.views prog u = s.views prog u := by
  rw [hViews]
  by_cases hEq : u = t
  · exact .inl ⟨hEq, by rw [hEq, Function.update_self]⟩
  · exact .inr ⟨hEq, by rw [Function.update_of_ne hEq]⟩

omit [DecidableEq T] in
/-- The state of a task's slot is one of the four that `AtomicWaker` gives it. -/
theorem Inv.valid (inv : Inv L prog s) (t : T) : (s.views prog t).cell.state = EMPTY ∨
    (s.views prog t).cell.state = UPDATING ∨ (s.views prog t).cell.state = WAITING ∨
      (s.views prog t).cell.state = NOTIFIED := by
  obtain ⟨p, hLive⟩ := inv.live t
  rw [views_live hLive]
  exact inv.ordered.fine.sound.facts.valid p.index (prog.pair t).2

omit [DecidableEq V] in
/-- It is enough to find the stage of the task whose view is replaced. -/
theorem fits_update {view : View (V ⊕ SocketId) T} (fits : ∀ u, Fits (prog.pair u) u (s.views prog u))
    (hViews : s'.views prog = Function.update (s.views prog) t view) (h : Fits (prog.pair t) t view) (u : T) :
    Fits (prog.pair u) u (s'.views prog u) := by
  obtain ⟨rfl, hView⟩ | ⟨hNe, hView⟩ := views_cases hViews u
  · rwa [hView]
  · rw [hView]
    exact fits u

/-- After every event each task is at one of its stages. A wake that calls the waker
leaves the stage in which the task rests. -/
theorem Does.fits (does : Does prog s s' e) (inv : Inv L prog s) (u : T) :
    Fits (prog.pair u) u (s'.views prog u) := by
  cases does with
  | turn turns views => exact fits_update inv.fits views (turns.fits (inv.fits _)) u
  | posts turns views => exact fits_update inv.fits views (turns.fits (inv.fits _)) u
  | select empty some nodup raised result => exact result ▸ inv.fits u
  | spurious result => exact result ▸ inv.fits u
  | @process v t rest wake batch free begins views =>
      refine fits_update inv.fits views ((inv.fits t).begin ?_) u
      simp [State.views, State.view, slotWakes, free]
  | @waker v t wake wake? c a waking placed step goes views =>
      refine fits_update inv.fits views ?_ u
      rw [goes]
      cases ((inv.fits t).wake (inv.valid t) placed step).2 with
      | invoked operation cell fits =>
          rw [if_pos operation, if_pos rfl, cell]
          exact fits
      | other a' operation fits =>
          rw [if_neg (operation t)]
          exact fits
  | outside views =>
      rw [views]
      exact inv.fits u

/-! ## The wakes -/

omit [DecidableEq T] [DecidableEq V] in
/-- Wakes stay where they are placed if neither they nor what the tasks see of them
changes. -/
theorem placed_same (placed : ∀ v wake, s.io.wakes (.inl v) = some wake →
      ∃ t, (s.views prog t).wakes (.inl v) = some wake.at_)
    (hWakes : s'.io.wakes = s.io.wakes)
    (hViews : ∀ u, (s'.views prog u).wakes = (s.views prog u).wakes) (v : V) (wake : Wake T)
    (hWake : s'.io.wakes (.inl v) = some wake) :
    ∃ t, (s'.views prog t).wakes (.inl v) = some wake.at_ := by
  rw [hWakes] at hWake
  obtain ⟨t, hView⟩ := placed v wake hWake
  exact ⟨t, by rw [hViews, hView]⟩

/-- A wake that goes on is placed with the task whose view has it; the others are placed
as before. -/
theorem placed_update {v : V} {wake? : Option (Wake T)} {view : View (V ⊕ SocketId) T}
    (placed : ∀ v wake, s.io.wakes (.inl v) = some wake →
      ∃ t, (s.views prog t).wakes (.inl v) = some wake.at_)
    (hWakes : s'.io.wakes = Function.update s.io.wakes (.inl v) wake?)
    (hViews : s'.views prog = Function.update (s.views prog) t view)
    (hView : view.wakes = Function.update (s.views prog t).wakes (.inl v) (wake?.map Wake.at_))
    (v' : V) (wake : Wake T) (hWake : s'.io.wakes (.inl v') = some wake) :
    ∃ u, (s'.views prog u).wakes (.inl v') = some wake.at_ := by
  rw [hWakes] at hWake
  by_cases hEq : v' = v
  · subst hEq
    rw [Function.update_self] at hWake
    exact ⟨t, by rw [hViews, Function.update_self, hView, Function.update_self, hWake]; rfl⟩
  · have hNe : (Sum.inl v' : V ⊕ SocketId) ≠ .inl v := by simpa using hEq
    rw [Function.update_of_ne hNe] at hWake
    obtain ⟨u, hOld⟩ := placed v' wake hWake
    refine ⟨u, ?_⟩
    obtain ⟨rfl, hHere⟩ | ⟨-, hHere⟩ := views_cases hViews u
    · rw [hHere, hView, Function.update_of_ne hNe, hOld]
    · rw [hHere, hOld]

omit [DecidableEq V] in
/-- An event of a task itself leaves the wakes in all slots as they are. -/
theorem wakes_turn {goesOn : Bool} {view : View (V ⊕ SocketId) T}
    (turns : Turns (prog.pair t) t goesOn (s.views prog t) e view)
    (hViews : s'.views prog = Function.update (s.views prog) t view) (u : T) :
    (s'.views prog u).wakes = (s.views prog u).wakes := by
  obtain ⟨rfl, hView⟩ | ⟨hNe, hView⟩ := views_cases hViews u
  · rw [hView, turns.wakes]
  · rw [hView]

/-- Every wake of a thread is in the slot of a task. No socket is dropped, so no slot is
given away under it. -/
theorem Does.placed (does : Does prog s s' e) (inv : Inv L prog s) (v : V) (wake : Wake T)
    (hWake : s'.io.wakes (.inl v) = some wake) :
    ∃ t, (s'.views prog t).wakes (.inl v) = some wake.at_ := by
  cases does with
  | turn turns views wakes => exact placed_same inv.placed wakes (wakes_turn turns views) v wake hWake
  | posts turns views wakes => exact placed_same inv.placed wakes (wakes_turn turns views) v wake hWake
  | select empty some nodup raised result =>
      subst result
      exact inv.placed v wake hWake
  | spurious result =>
      subst result
      exact inv.placed v wake hWake
  | process batch free begins views wakes =>
      exact placed_update inv.placed wakes views (by rw [Option.map_some, begins]) v wake hWake
  | waker waking placed step goes views wakes =>
      exact placed_update inv.placed wakes views rfl v wake hWake
  | outside views wakes => exact placed_same inv.placed wakes (fun u => by rw [views]) v wake hWake

theorem Does.noDrops (does : Does prog s s' e) (inv : Inv L prog s) (id : SocketId) :
    s'.io.wakes (.inr id) = none := by
  cases does with
  | turn turns views wakes | posts turns views wakes | outside views wakes => rw [wakes, inv.noDrops]
  | select empty some nodup raised result => exact result ▸ inv.noDrops id
  | spurious result => exact result ▸ inv.noDrops id
  | process batch free begins views wakes => rw [wakes, Function.update_of_ne (by simp), inv.noDrops]
  | waker waking placed step goes views wakes =>
      rw [wakes, Function.update_of_ne (by simp), inv.noDrops]

/-! ## The device -/

/-- A task in a call has an operation to do. Other tasks do not change that, as the
device promises for each of its operations. -/
theorem Does.goesOn (does : Does prog s s' e) (inv : Inv L prog s) (u : T)
    (hBusy : (s'.views prog u).caller ≠ .idle) : prog.device.goesOn s'.device u = true := by
  cases does with
  | turn turns views wakes batches device =>
      rw [device]
      obtain ⟨rfl, hView⟩ | ⟨-, hView⟩ := views_cases views u <;> rw [hView] at hBusy
      · exact (turns.busy hBusy).1.elim (inv.goesOn u) id
      · exact inv.goesOn u hBusy
  | posts turns views wakes batches others posts counts =>
      obtain ⟨rfl, hView⟩ | ⟨hNe, hView⟩ := views_cases views u <;> rw [hView] at hBusy
      · obtain ⟨-, hFinish, hOperate⟩ := turns.busy hBusy
        obtain hEvent | ⟨n, hEvent⟩ := counts
        · exact absurd hEvent hFinish
        · exact absurd hEvent (hOperate n)
      · rw [others u hNe]
        exact inv.goesOn u hBusy
  | select empty some nodup raised result =>
      subst result
      exact inv.goesOn u hBusy
  | spurious result =>
      subst result
      exact inv.goesOn u hBusy
  | process batch free begins views wakes batches device =>
      rw [device]
      obtain ⟨rfl, hView⟩ | ⟨-, hView⟩ := views_cases views u <;> rw [hView] at hBusy <;>
        exact inv.goesOn u hBusy
  | waker waking placed step goes views wakes batches device =>
      rw [device]
      obtain ⟨rfl, hView⟩ | ⟨-, hView⟩ := views_cases views u <;> rw [hView] at hBusy <;>
        exact inv.goesOn u hBusy
  | outside views wakes batches goesOn =>
      rw [views] at hBusy
      rw [goesOn]
      exact inv.goesOn u hBusy

/-! ## The events of the selector -/

/-- The task will be told that its operation is possible. -/
def Told (prog : Program T D E) (s : State T V D) (u : T) : Prop :=
  s.raised u = true ∨ (∃ v, u ∈ s.batches v) ∨ (s.views prog u).Hears

omit [DecidableEq T] [DecidableEq V] in
/-- A task that will be told is told still, where nothing of the three is taken from it. -/
theorem Told.mono {u : T} (told : Told prog s u) (hRaised : s.raised u = true → s'.raised u = true)
    (hBatches : ∀ v, u ∈ s.batches v → u ∈ s'.batches v)
    (hHears : (s.views prog u).Hears → (s'.views prog u).Hears) : Told prog s' u :=
  told.imp hRaised (Or.imp (fun ⟨v, hv⟩ => ⟨v, hBatches v hv⟩) hHears)

/-- Where an operation is possible, its task will be told of it. An edge goes from the
selector to a batch, from there to a wake, and the wake leaves its mark in the slot.
Only an operation that would block may use up the mark, and it is not possible then. -/
theorem Does.told (does : Does prog s s' e) (inv : Inv L prog s) (u : T)
    (hPhase : (s'.views prog u).phase ≠ .done) (hReady : prog.device.ready s'.device u = true) :
    Told prog s' u := by
  have hTurn {goesOn : Bool} {t : T} {view : View (V ⊕ SocketId) T}
      (turns : Turns (prog.pair t) t goesOn (s.views prog t) e view)
      (hViews : s'.views prog = Function.update (s.views prog) t view)
      (hRaised : s.raised u = true → s'.raised u = true) (hBatches : s'.batches = s.batches)
      (hBefore : prog.device.ready s.device u = true) (hBlocks : u = t → e ≠ .wouldBlock t) :
      Told prog s' u := by
    obtain ⟨rfl, hView⟩ | ⟨-, hView⟩ := views_cases hViews u
    · have told : Told prog s u := inv.hears u (turns.phase (inv.fits u)) hBefore
      exact told.mono hRaised (by simp [hBatches]) fun hears => by
        rw [hView]
        exact turns.hears hears (hBlocks rfl)
    · rw [hView] at hPhase
      have told : Told prog s u := inv.hears u hPhase hBefore
      exact told.mono hRaised (by simp [hBatches]) fun hears => by rwa [hView]
  cases does with
  | turn turns views wakes batches device raised blocks =>
      rw [device] at hReady
      refine hTurn turns views (by rw [raised]; exact id) batches hReady ?_
      rintro rfl rfl
      simp [blocks rfl] at hReady
  | posts turns views wakes batches others posts counts =>
      by_cases hBefore : prog.device.ready s.device u = true
      · refine hTurn turns views (fun h => by simp [posts u, h]) batches hBefore ?_
        rintro - rfl
        simp at counts
      · exact .inl (by simp [posts u, hReady, hBefore])
  | @select v ts empty some nodup raised result =>
      subst result
      by_cases hMem : u ∈ ts
      · exact .inr (.inl ⟨v, by simpa [State.setBatch] using hMem⟩)
      · have told : Told prog s u := inv.hears u hPhase hReady
        refine told.mono (fun hRaised => by simp [State.setBatch, hRaised, hMem]) (fun w hw => ?_) id
        have hNe : w ≠ v := by
          rintro rfl
          simp [empty] at hw
        simpa [State.setBatch, hNe] using hw
  | @spurious v t result =>
      subst result
      have told : Told prog s u := inv.hears u hPhase hReady
      refine told.mono id (fun w hw => ?_) id
      by_cases hEq : w = v
      · subst hEq
        simp [State.setBatch, hw]
      · simpa [State.setBatch, hEq] using hw
  | @process v t rest wake batch free begins views wakes batches device raised =>
      obtain ⟨rfl, hView⟩ | ⟨hNe, hView⟩ := views_cases views u
      · exact .inr (.inr (by rw [hView]; exact .inl ⟨.inl v, Function.update_self ..⟩))
      · rw [hView] at hPhase
        rw [device] at hReady
        have told : Told prog s u := inv.hears u hPhase hReady
        refine told.mono (by rw [raised]; exact id) (fun w hw => ?_) fun hears => by rwa [hView]
        rw [batches]
        by_cases hEq : w = v
        · subst hEq
          rw [batch, List.mem_cons] at hw
          rw [Function.update_self]
          exact hw.resolve_left hNe
        · rwa [Function.update_of_ne hEq]
  | @waker v t wake wake? c a waking placed step goes views wakes batches device raised =>
      obtain ⟨rfl, hView⟩ | ⟨hNe, hView⟩ := views_cases views u
      · -- The wake leaves its mark in the state of the slot.
        have hState := ((inv.fits u).wake (inv.valid u) placed step).1
        exact .inr (.inr (by rw [hView]; exact .inr (.inl hState)))
      · rw [hView] at hPhase
        rw [device] at hReady
        have told : Told prog s u := inv.hears u hPhase hReady
        exact told.mono (by rw [raised]; exact id) (by simp [batches]) fun hears => by rwa [hView]
  | outside views wakes batches goesOn posts =>
      by_cases hBefore : prog.device.ready s.device u = true
      · rw [views] at hPhase
        have told : Told prog s u := inv.hears u hPhase hBefore
        exact told.mono (fun h => by simp [posts u, h]) (by simp [batches]) fun hears => by rwa [views]
      · exact .inl (by simp [posts u, hReady, hBefore])

/-- The invariant is kept by every event. The unreachable branch is not taken either. -/
theorem Inv.next [Fintype T] (inv : Inv L prog s) (h : next L prog s e = some s') : Inv L prog s' := by
  obtain ⟨does, hFailed⟩ := inv.does h
  exact ⟨inv.ordered_next h, inv.live_next h, does.noDrops inv, does.placed inv, does.fits inv,
    does.goesOn inv, does.told inv, hFailed⟩

/-! ## What the operating system sees -/

/-- What an event is for the device, with the tasks that have returned. -/
inductive Drives (prog : Program T D E) (s s' : State T V D) : Event T V E → Prop where
  | rests {e : Event T V E} (device : s'.device = s.device)
      (done : ∀ u, s'.phases u = .done ↔ s.phases u = .done)
      (free : (∀ t, e ≠ .finish t) ∧ (∀ t n, e ≠ .operate t n) ∧ ∀ o, e ≠ .outside o) : Drives prog s s' e
  | operate {t : T} {n : Nat} (more : prog.device.goesOn s.device t = true)
      (device : prog.device.operate s.device t n = some s'.device) (done : s'.phases = s.phases) :
      Drives prog s s' (.operate t n)
  | finish {t : T} (noMore : prog.device.goesOn s.device t = false) (unfinished : s.phases t ≠ .done)
      (device : s'.device = prog.device.finish s.device t)
      (done : s'.phases = Function.update s.phases t .done) : Drives prog s s' (.finish t)
  | outside {e : E} (device : prog.device.outside s.device e = some s'.device)
      (done : s'.phases = s.phases) : Drives prog s s' (.outside e)

/-- Each event changes the device as its name says: it operates for a task that goes on,
finishes one that does not, or leaves it as it is. -/
theorem Inv.drives [Fintype T] (inv : Inv L prog s) (h : Reactor.next L prog s e = some s') :
    Drives prog s s' e := by
  have hPhases {t : T} {phase : Phase} (hBefore : s.phases t ≠ .done) (hAfter : phase ≠ .done) (u : T) :
      Function.update s.phases t phase u = .done ↔ s.phases u = .done := by
    by_cases hEq : u = t
    · rw [hEq, Function.update_self]
      exact iff_of_false hAfter hBefore
    · rw [Function.update_of_ne hEq]
  cases e with
  | run t =>
      obtain ⟨hPhase, -, rfl⟩ := next_run h
      exact .rests rfl (hPhases (by simp [hPhase]) (by simp)) (by simp)
  | call t =>
      obtain ⟨-, -, io, -, rfl⟩ := next_call h
      exact .rests rfl (fun _ => Iff.rfl) (by simp)
  | finish t =>
      obtain ⟨hPhase, -, hOver, rfl⟩ := next_finish h
      exact .finish hOver (by simp [hPhase]) rfl rfl
  | step t =>
      obtain ⟨io, hIo, rfl⟩ := next_step h
      obtain ⟨id, kind, ctx, line, p, hCall, -, -⟩ := PollIo.next_step hIo
      have hPhase : s.phases t = .inside := ((inv.fits t).of_call (x := prog.pair t) hCall).1
      unfold State.stepped
      split
      · split <;> exact .rests rfl (hPhases (by simp [hPhase]) (by simp)) (by simp)
      · exact .rests rfl (fun _ => Iff.rfl) (by simp)
  | leave t =>
      obtain ⟨hPhase, ⟨state, answer, -, rfl⟩ | ⟨-, rfl⟩⟩ := next_leave h
      · exact .rests rfl (hPhases (by simp [hPhase]) (by simp)) (by simp)
      · exact .rests rfl (fun _ => Iff.rfl) (by simp)
  | operate t n =>
      obtain ⟨d, io, hDevice, hIo, rfl⟩ := next_operate h
      obtain ⟨id, kind, ctx, hCall, -⟩ := next_doIo hIo
      exact .operate (inv.goesOn t (by simp [hCall])) hDevice rfl
  | wouldBlock t =>
      obtain ⟨-, io, -, rfl⟩ := next_wouldBlock h
      exact .rests rfl (fun _ => Iff.rfl) (by simp)
  | interrupt t =>
      obtain ⟨io, -, rfl⟩ := next_interrupt h
      exact .rests rfl (fun _ => Iff.rfl) (by simp)
  | select v ts =>
      obtain ⟨-, -, -, -, rfl⟩ := next_select h
      exact .rests rfl (fun _ => Iff.rfl) (by simp)
  | spurious v t =>
      obtain rfl := Option.some.inj h
      exact .rests rfl (fun _ => Iff.rfl) (by simp)
  | process v =>
      obtain ⟨t, rest, p, io, -, -, -, rfl⟩ := next_process h
      exact .rests rfl (fun _ => Iff.rfl) (by simp)
  | waker v =>
      obtain ⟨io, -, rfl⟩ := next_waker h
      unfold State.woken
      split <;> exact .rests rfl (fun _ => Iff.rfl) (by simp)
  | outside e =>
      obtain ⟨d, hDevice, rfl⟩ := next_outside h
      exact .outside hDevice rfl

end Yaar.Net.Reactor
