import Yaar.Data.Tally
import Yaar.Net.PollIoReturns
import Yaar.Net.ReactorSound

/-! Tasks run until each of them has returned or its operation would block. -/
namespace Yaar.Net.Reactor

open Machine PollIo AtomicWaker Yaar.Runtime Yaar.Runtime.TaskState

variable {T V D E : Type*} [Fintype T] [DecidableEq T] {L : Layout}
  {prog : Program T D E} {s s' : State T V D} {t : T} {v : V} {e : Event T V E}

/-! ## What is left to do -/

section Rank

/-- What a thread has still to do with the events it has taken. -/
def hand (s : State T V D) (v : V) : Nat :=
  (s.io.wakes (.inl v)).elim 0 (fun wake => wakeWeight wake.at_) + 81 * (s.batches v).length

def raisedWeight (raised : Bool) : Nat := if raised then 82 else 0

/-- A bound on the steps until every task has returned or would block. -/
def rank [Fintype V] (prog : Program T D E) (s : State T V D) : Nat :=
  Tally.total View.weight (s.views prog) + Tally.total id (hand s) + Tally.total raisedWeight s.raised

/-- The events that give the tasks something to do. -/
def Event.feeds : Event T V E → Bool
  | .finish _ | .operate _ _ | .interrupt _ | .spurious _ _ | .outside _ => true
  | _ => false

/-- What such an event adds at most. -/
def feed (T : Type*) [Fintype T] : Nat := 82 * Fintype.card T + 33

omit [DecidableEq T] in
theorem raised_le (raised : T → Bool) : Tally.total raisedWeight raised ≤ 82 * Fintype.card T := by
  refine Tally.total_le fun t => ?_
  unfold raisedWeight
  split <;> omega

/-- Events that are taken are no longer raised. -/
theorem raised_select {raised : T → Bool} {ts : List T} (hNodup : ts.Nodup)
    (hRaised : ∀ t ∈ ts, raised t = true) :
    Tally.total raisedWeight (fun t => raised t && decide (t ∉ ts)) + 82 * ts.length =
      Tally.total raisedWeight raised := by
  have hTaken : ∑ t, (if t ∈ ts then 82 else 0) = 82 * ts.length := by
    rw [← Finset.sum_filter, Finset.sum_const, smul_eq_mul, Nat.mul_comm]
    congr 1
    rw [← List.toFinset_card_of_nodup hNodup]
    congr 1
    ext t
    simp
  rw [← hTaken, Tally.total, Tally.total, ← Finset.sum_add_distrib]
  refine Finset.sum_congr rfl fun t _ => ?_
  by_cases hMem : t ∈ ts
  · simp [hMem, hRaised t hMem, raisedWeight]
  · simp [hMem]

omit [Fintype T] [DecidableEq T] in
/-- What the threads have at hand depends on their wakes and batches only. -/
theorem hand_same (hWakes : s'.io.wakes = s.io.wakes) (hBatches : s'.batches = s.batches) :
    hand s' = hand s := by
  funext v
  rw [hand, hand, hWakes, hBatches]

variable [DecidableEq V]

omit [Fintype T] [DecidableEq T] in
/-- One thread has something else in its hands. -/
theorem hand_total [Fintype V] {n : Nat} (hHere : hand s' v = n)
    (hWakes : ∀ w, w ≠ v → s'.io.wakes (.inl w) = s.io.wakes (.inl w))
    (hBatches : ∀ w, w ≠ v → s'.batches w = s.batches w) :
    hand s v + Tally.total id (hand s') = n + Tally.total id (hand s) := by
  have hUpdate : hand s' = Function.update (hand s) v n := by
    funext w
    by_cases hEq : w = v
    · rw [hEq, Function.update_self, hHere]
    · rw [Function.update_of_ne hEq, hand, hand, hWakes w hEq, hBatches w hEq]
  rw [hUpdate]
  exact Tally.total_update id (hand s) v n

omit [DecidableEq V] in
/-- A change of one view changes the sum by what it changes that view's weight. -/
theorem weight_update {view : View (V ⊕ SocketId) T} {m n : Nat}
    (hViews : s'.views prog = Function.update (s.views prog) t view)
    (h : view.weight + m ≤ (s.views prog t).weight + n) :
    Tally.total View.weight (s'.views prog) + m ≤ Tally.total View.weight (s.views prog) + n := by
  have hTotal := Tally.total_update View.weight (s.views prog) t view
  rw [hViews]
  omega

omit [Fintype T] in
theorem wake_elim {wake? : Option (Wake T)} {a : Waking T}
    (h : wake?.map Wake.at_ = if a = .idle then none else some a) :
    wake?.elim 0 (fun wake => wakeWeight wake.at_) = wakeWeight a := by
  cases wake? with
  | none =>
      split at h
      · next hIdle => rw [hIdle]; rfl
      · cases h
  | some wake =>
      split at h
      · cases h
      · rw [Option.elim_some, Option.some.inj h]

omit [Fintype T] in
/-- An operation of a wake, with the task it may have scheduled. -/
theorem waker_weight {x : SocketId × WakerKind} {view : View (V ⊕ SocketId) T} {u : V ⊕ SocketId}
    {c : Cell (V ⊕ SocketId) T} {a a' : Waking T} (fits : Fits x t view)
    (valid : view.cell.state = EMPTY ∨ view.cell.state = UPDATING ∨ view.cell.state = WAITING ∨
      view.cell.state = NOTIFIED) (hWake : view.wakes u = some a)
    (hStep : wakerStep view.cell u a = some (c, a')) (next : Option (Waking T)) :
    View.weight { view with
      state := if a = .invoke t then (transitionToScheduled view.state).1 else view.state
      cell := c
      wakes := Function.update view.wakes u next } + wakeWeight a' < view.weight + wakeWeight a := by
  cases (fits.wake valid hWake hStep).2 with
  | invoked operation cell =>
      rw [if_pos operation, cell, operation]
      exact invoked_weight _ _
  | other a' operation =>
      rw [if_neg (operation t)]
      exact wake_weight operation hStep _

variable [Fintype V]

/-- Every event makes the rank less, but for what feeds it: an operation, a spurious
event, and what the network or a finished task may raise. -/
theorem Does.rank (does : Does prog s s' e) (inv : Inv L prog s) :
    rank prog s' + 1 ≤ rank prog s + if e.feeds then feed T else 0 := by
  have hTurn {goesOn : Bool} {t : T} {view : View (V ⊕ SocketId) T}
      (turns : Turns (prog.pair t) t goesOn (s.views prog t) e view)
      (hViews : s'.views prog = Function.update (s.views prog) t view) :
      Tally.total View.weight (s'.views prog) + 1 ≤ Tally.total View.weight (s.views prog) + e.cost :=
    weight_update hViews (turns.weight (inv.fits t))
  have hRaised := raised_le s'.raised
  unfold Reactor.rank feed
  cases does with
  | turn turns views wakes batches device raised blocks =>
      have hWeight := hTurn turns views
      rw [hand_same wakes batches, raised]
      cases turns <;> simp only [Event.cost, Event.feeds, if_true, Bool.false_eq_true, if_false] at hWeight ⊢ <;>
        omega
  | posts turns views wakes batches others posts counts =>
      have hWeight := hTurn turns views
      rw [hand_same wakes batches]
      obtain rfl | ⟨n, rfl⟩ := counts <;>
        simp only [Event.cost, Event.feeds, if_true] at hWeight ⊢ <;> omega
  | @select v ts empty some nodup raised result =>
      have hTaken := raised_select nodup raised
      have hTotal : hand s v + Tally.total id (hand s') =
          hand s v + 81 * ts.length + Tally.total id (hand s) := by
        subst result
        exact hand_total (by simp [hand, State.setBatch, empty]) (fun w hw => rfl)
          fun w hw => by simp [State.setBatch, hw]
      have hPos := List.length_pos_iff.mpr some
      subst result
      simp only [Event.feeds, Bool.false_eq_true, if_false]
      change Tally.total View.weight (s.views prog) + _ +
        Tally.total raisedWeight (fun t => s.raised t && decide (t ∉ ts)) + 1 ≤ _
      omega
  | @spurious v t result =>
      have hTotal : hand s v + Tally.total id (hand s') =
          hand s v + 81 + Tally.total id (hand s) := by
        subst result
        refine hand_total ?_ (fun w hw => rfl) fun w hw => by simp [State.setBatch, hw]
        simp only [hand, State.setBatch, Function.update_self, List.length_append, List.length_singleton]
        omega
      have hTask : 0 < Fintype.card T := Fintype.card_pos_iff.mpr ⟨t⟩
      subst result
      simp only [Event.feeds, if_true]
      change Tally.total View.weight (s.views prog) + _ + Tally.total raisedWeight s.raised + 1 ≤ _
      omega
  | @process v t rest wake batch free begins views wakes batches device raised =>
      have hHere : hand s v = 81 * (rest.length + 1) := by
        rw [hand, free, batch, Option.elim_none, List.length_cons, Nat.zero_add]
      have hTotal : hand s v + Tally.total id (hand s') =
          80 + 81 * rest.length + Tally.total id (hand s) := by
        refine hand_total ?_ (fun w hw => ?_) fun w hw => ?_
        · rw [hand, wakes, batches, Function.update_self, Function.update_self, Option.elim_some, begins]
          rfl
        · rw [wakes, Function.update_of_ne (by simpa using hw)]
        · rw [batches, Function.update_of_ne hw]
      have hWeight := weight_update (m := 0) (n := 0) views (Nat.le_refl _)
      rw [raised]
      simp only [Event.feeds, Bool.false_eq_true, if_false]
      omega
  | @waker v t wake wake? c a waking placed step goes views wakes batches device raised =>
      have hHere : hand s v = wakeWeight wake.at_ + 81 * (s.batches v).length := by
        rw [hand, waking, Option.elim_some]
      have hTotal : hand s v + Tally.total id (hand s') =
          wakeWeight a + 81 * (s.batches v).length + Tally.total id (hand s) := by
        refine hand_total ?_ (fun w hw => ?_) fun w hw => by rw [batches]
        · rw [hand, wakes, batches, Function.update_self, wake_elim goes]
        · rw [wakes, Function.update_of_ne (by simpa using hw)]
      have hWeight := weight_update (m := wakeWeight a + 1) views
        (waker_weight (inv.fits t) (inv.valid t) placed step (wake?.map Wake.at_))
      rw [raised]
      simp only [Event.feeds, Bool.false_eq_true, if_false]
      omega
  | outside views wakes batches goesOn posts =>
      rw [hand_same wakes batches, views]
      simp only [Event.feeds, if_true]
      omega

/-- Along a run the rank pays for every step. Each step that feeds may add its share
once. -/
theorem Inv.path {start : State T V D} {steps : List (State T V D × Event T V E)} (inv : Inv L prog s)
    (path : (system L prog start).Path s steps s') :
    Inv L prog s' ∧ rank prog s' + steps.length ≤ rank prog s + feed T * steps.countP (·.2.feeds) := by
  induction path with
  | refl => exact ⟨inv, Nat.le_refl _⟩
  | @step steps u w e prior last ih =>
      obtain ⟨inv', hRank⟩ := ih
      have hStep := (inv'.does last).1.rank inv'
      refine ⟨inv'.next last, ?_⟩
      rw [List.countP_append, List.countP_singleton, List.length_append, List.length_singleton, Nat.mul_add]
      split at hStep
      · next hFeeds => rw [if_pos hFeeds]; omega
      · next hFeeds => rw [if_neg hFeeds]; omega

end Rank

/-! ## Where nothing is left to do -/

/-- The events that no thread takes by itself. -/
def Event.given : Event T V E → Bool
  | .interrupt _ | .spurious _ _ | .outside _ => true
  | _ => false

/-- No task and no thread can go on by itself. -/
def Stuck [DecidableEq V] (L : Layout) (prog : Program T D E) (s : State T V D) : Prop :=
  ∀ e : Event T V E, e.given = false → next L prog s e = none

section Stuck

variable [DecidableEq V]

/-- In a state without a next step no wake is under way, since every wake can go on. -/
theorem Stuck.wakes (stuck : Stuck L prog s) (inv : Inv L prog s) (u : V ⊕ SocketId) :
    s.io.wakes u = none := by
  cases u with
  | inr id => exact inv.noDrops id
  | inl v =>
      by_contra hSome
      obtain ⟨wake, hWake⟩ := Option.ne_none_iff_exists'.mp hSome
      obtain ⟨t, p, hLive, hIndex, hKind, hView⟩ := inv.placed_live hWake
      obtain ⟨⟨c, a⟩, hStep⟩ := (inv.fits t).wake_enabled hView
      have hCell : (s.views prog t).cell = s.io.cell wake.index wake.kind := by
        rw [views_live hLive, hIndex, hKind]
      have hNone := stuck (.waker v) rfl
      simp [Reactor.next, PollIo.next, hWake, State.wakeStep, ← hCell, hStep] at hNone

/-- Nor has a thread an event to process: the socket of its task is live. -/
theorem Stuck.batches (stuck : Stuck L prog s) (inv : Inv L prog s) (v : V) : s.batches v = [] := by
  cases hBatch : s.batches v with
  | nil => rfl
  | cons t rest =>
      obtain ⟨p, hLive⟩ := inv.live t
      have hNone := stuck (.process v) rfl
      simp [Reactor.next, hBatch, hLive, PollIo.next, stuck.wakes inv, inv.opened.created hLive] at hNone

/-- A task that is polled can go on. -/
theorem Stuck.not_inside (stuck : Stuck L prog s) (inv : Inv L prog s) : s.phases t ≠ .inside := by
  intro hPhase
  obtain ⟨p, hLive⟩ := inv.live t
  cases hCaller : s.io.callers t with
  | panicked failure => exact inv.ordered.fine.unfailed t failure hCaller
  | idle =>
      by_cases hMore : prog.device.goesOn s.device t = true
      · have hNone := stuck (.call t) rfl
        simp [Reactor.next, hPhase, hMore, PollIo.next, hCaller, hLive] at hNone
      · have hNone := stuck (.finish t) rfl
        simp [Reactor.next, hPhase, hMore, hCaller] at hNone
  | call id kind ctx line =>
      by_cases hLine : line = .inIo
      · subst hLine
        by_cases hReady : prog.device.ready s.device t = true
        · obtain ⟨n, hSome⟩ :=
            prog.device.able s.device t (inv.goesOn t (by simp [hCaller])) hReady
          obtain ⟨d, hDevice⟩ := Option.isSome_iff_exists.mp hSome
          have hNone := stuck (.operate t n) rfl
          simp [Reactor.next, hDevice, PollIo.next, hCaller] at hNone
        · have hNone := stuck (.wouldBlock t) rfl
          simp [Reactor.next, hReady, PollIo.next, hCaller] at hNone
      · obtain ⟨io, hStep⟩ := step_enabled inv.ordered.fine.sound hCaller hLine
        have hNone := stuck (.step t) rfl
        simp [Reactor.next, hStep] at hNone

theorem Stuck.not_pending (stuck : Stuck L prog s) (inv : Inv L prog s) : s.phases t ≠ .pending := by
  intro hPhase
  obtain ⟨state, answer, hIdle, -⟩ := (inv.fits t).leave hPhase
  have hIdle : transitionToIdle (s.tasks t) = some (state, answer) := hIdle
  have hNone := stuck (.leave t) rfl
  cases answer <;> simp [Reactor.next, hPhase, hIdle] at hNone

/-- A task that nobody polls waits in its slot. -/
theorem Stuck.resting (stuck : Stuck L prog s) (inv : Inv L prog s) (hPhase : s.phases t = .away) :
    s.io.callers t = .idle ∧ s.tasks t = TASK_IDLE ∧ (s.views prog t).flag = true ∧
      Resting (s.views prog t).cell t (s.views prog t).wakes := by
  have hAway : (s.views prog t).phase = .away := hPhase
  cases inv.fits t with
  | resting stopped counted rests =>
      rw [hAway] at stopped
      obtain ⟨hCaller, hState⟩ := stopped.of_away
      exact ⟨hCaller, hState, counted hCaller, rests⟩
  | woken state stopped scheduled awake =>
      rw [hAway] at stopped
      have hTask : s.tasks t = TASK_SCHEDULED := by
        rw [stopped.of_away.2] at scheduled
        exact scheduled
      have hNone := stuck (.run t) rfl
      simp [Reactor.next, hPhase, hTask, transitionToRunning] at hNone
  | between caller phase | calling line caller runs phase | finished caller phase => simp [hAway] at phase

omit [Fintype T] [DecidableEq T] in
/-- A task that has counted its pending I/O makes `try_poll` look at the network. -/
theorem pending_of_flag (inv : Inv L prog s) (hCaller : s.io.callers t = .idle)
    (hFlag : (s.views prog t).flag = true) : s.io.pending ≠ 0 := by
  obtain ⟨p, hLive⟩ := inv.live t
  rw [views_live hLive] at hFlag
  have waits : PollIo.Waits (prog.pair t) s.io := by
    refine ⟨⟨p, hLive, hFlag⟩, fun u hPair => ?_⟩
    obtain ⟨ctx, line, hCall⟩ := call_of_pair hPair
    obtain ⟨hSocket, hKind, -⟩ := inv.call hCall
    obtain rfl : t = u := prog.apart (Prod.ext hSocket hKind)
    simp [hCaller] at hCall
  exact inv.ordered.fine.sound.exact_.pending_pos waits.counted

/-- Every task has returned, or sleeps and its operation would block. -/
theorem Stuck.rests (stuck : Stuck L prog s) (inv : Inv L prog s) (v : V) :
    s.phases t = .done ∨
      s.phases t = .away ∧ s.tasks t = TASK_IDLE ∧ prog.device.ready s.device t = false := by
  cases hPhase : s.phases t with
  | inside => exact absurd hPhase (stuck.not_inside inv)
  | pending => exact absurd hPhase (stuck.not_pending inv)
  | done => exact .inl rfl
  | away =>
      obtain ⟨hCaller, hState, hFlag, rests⟩ := stuck.resting inv hPhase
      refine .inr ⟨rfl, hState, Bool.eq_false_iff.mpr fun hReady => ?_⟩
      have hNoWake (u : V ⊕ SocketId) : (s.views prog t).wakes u = none := by
        simp [State.views, State.view, slotWakes, stuck.wakes inv]
      obtain hRaised | ⟨w, hw⟩ | ⟨u, hWake⟩ | hHears := inv.hears t (by simp [hPhase]) hReady
      · -- Its flag is set, so a thread polls the selector.
        have hPending := pending_of_flag inv hCaller hFlag
        have hNone := stuck (.select v [t]) rfl
        simp [Reactor.next, hPending, stuck.batches inv, stuck.wakes inv, hRaised] at hNone
      · simp [stuck.batches inv] at hw
      · simp [hNoWake] at hWake
      · cases rests with
        | waiting state unread => simp [Cell.Hears, state, unread] at hHears
        | taken u a state taker => simp [hNoWake] at taker

end Stuck

/-! ## Runs -/

section Runs

variable [DecidableEq V]

/-- The sockets have been made, nobody uses them yet, every task is scheduled, and the
selector has its first events. -/
structure Start (L : Layout) (prog : Program T D E) (s : State T V D) : Prop where
  made : ∃ steps, (PollIo.system T V T L).Run steps s.io ∧ Meets Orderly steps
  live : ∀ t, ∃ p, s.io.sockets (prog.pair t).1 = .live p ∧
    (s.io.cell p.index (prog.pair t).2).state ≠ WAITING ∧ (s.io.cell p.index (prog.pair t).2).lock = none
  callers : ∀ t, s.io.callers t = .idle
  wakes : ∀ u, s.io.wakes u = none
  tasks : ∀ t, s.tasks t = TASK_SCHEDULED
  phases : ∀ t, s.phases t = .away
  raised : ∀ t, prog.device.ready s.device t = true → s.raised t = true
  batches : ∀ v, s.batches v = []
  failed : s.failed = false

/-- To make sockets is in order. -/
theorem made_of_replay {events : List (PollIo.Event T V T)} {io : PollIo.State T V T}
    (h : (PollIo.system T V T L).replay (PollIo.system T V T L).initial events = some io)
    (hMakes : ∀ e ∈ events, (∀ t id kind ctx, e ≠ .call t id kind ctx) ∧ ∀ t, e ≠ .step t) :
    ∃ steps, (PollIo.system T V T L).Run steps io ∧ Meets Orderly steps :=
  ⟨_, System.path_of_replay h, fun _ hx =>
    have hMake := hMakes _ (System.mem_trace hx)
    orderly_rest hMake.1 hMake.2⟩

/-- The start is in order: no task has been polled, and all of them are scheduled. -/
theorem Start.inv (start : Start L prog s) : Inv L prog s := by
  obtain ⟨steps, run, orderly⟩ := start.made
  refine ⟨inOrder_run run orderly, fun t => ?_, fun id => start.wakes _, fun v wake hWake => ?_, fun t => ?_,
    fun t hBusy => absurd (start.callers t) hBusy, fun t _ hReady => .inl (start.raised t hReady),
    start.failed⟩
  · obtain ⟨p, hLive, -⟩ := start.live t
    exact ⟨p, hLive⟩
  · simp [start.wakes] at hWake
  · obtain ⟨p, hLive, hState, hLock⟩ := start.live t
    rw [views_live hLive, start.callers, start.phases, start.tasks]
    exact .woken TASK_IDLE .away (by simp [transitionToScheduled])
      ⟨hState, fun u a hWake => by simp [slotWakes, start.wakes] at hWake, hLock⟩

/-- The rank of the start is bounded by the number of tasks. -/
theorem Start.rank_le [Fintype V] (start : Start L prog s) :
    rank prog s ≤ 215 * Fintype.card T := by
  have hWeight : Tally.total View.weight (s.views prog) ≤ 133 * Fintype.card T := by
    refine Tally.total_le fun t => ?_
    have hPhase : (s.views prog t).phase = .away := start.phases t
    have hCredit := credit_le (s.views prog t).cell (poller (s.views prog t).caller)
    have hBudget := budgetWeight_le (s.views prog t).budget
    have hScheduled := scheduledWeight_le (s.views prog t).state TASK_SCHEDULED
    simp only [View.weight, View.turnWeight, hPhase]
    omega
  have hHand : Tally.total id (hand s) ≤ 0 * Fintype.card V := by
    refine Tally.total_le fun v => ?_
    simp [hand, start.wakes, start.batches]
  have hRaised := raised_le s.raised
  unfold rank
  omega

/-- What holds of a run: nothing fails, a task whose operation is possible will be told, the
tasks and the threads go on until each task has returned or its operation would block, and
they take no more steps than they have been given. -/
structure Driven [Fintype V] (L : Layout) (prog : Program T D E)
    (steps : List (State T V D × Event T V E)) (s : State T V D) : Prop where
  callers : ∀ t failure, s.io.callers t ≠ .panicked failure
  wakes : ∀ u wake, s.io.wakes u = some wake → wake.at_ ≠ .panicked
  tasks : s.failed = false
  told : ∀ t, s.phases t ≠ .done → prog.device.ready s.device t = true → Told prog s t
  rests : Nonempty V → Stuck L prog s → ∀ t, s.phases t = .done ∨
    s.phases t = .away ∧ s.tasks t = TASK_IDLE ∧ prog.device.ready s.device t = false
  bounded : steps.length ≤ 215 * Fintype.card T + feed T * steps.countP (·.2.feeds)

/-- In every run the tasks are safe and driven. No call panics and no state is broken,
no event is lost, no run gets stuck while a task has something to do that is possible,
and the number of steps is bounded by the operations and by what comes from outside. The
operating system may make any choices, and the events of the selector may come in any
batches. -/
theorem tasks_driven [Fintype V] {start : State T V D} {steps : List (State T V D × Event T V E)}
    (hStart : Start L prog start) (run : (system L prog start).Run steps s) : Driven L prog steps s := by
  obtain ⟨inv, hRank⟩ := hStart.inv.path run
  have hFirst := hStart.rank_le
  exact ⟨inv.ordered.fine.unfailed, inv.ordered.fine.wakes, inv.sound, inv.hears,
    fun ⟨v⟩ stuck t => stuck.rests inv v, by omega⟩

/-- A task that reads once from its socket. The device is whether bytes have arrived and
whether they have been read. -/
def oneRead : Program Unit (Bool × Bool) Unit where
  pair _ := (0, .Read)
  apart _ _ _ := rfl
  device :=
    { ready := fun d _ => d.1
      goesOn := fun d _ => !d.2
      operate := fun d _ _ => if d.1 then some (true, true) else none
      finish := fun d _ => d
      outside := fun d _ => if d.1 then none else some (true, d.2)
      able := fun d _ _ hReady => ⟨0, by simp [hReady]⟩
      operate_others := fun _ _ _ _ _ _ hNe => absurd rfl hNe
      finish_others := fun _ _ _ _ => rfl
      outside_others := fun d _ d' _ h => by
        split at h
        · cases h
        · rw [← Option.some.inj h] }

def oneSlot : Layout := ⟨1, 1, by decide, by decide, by decide, by decide⟩

def oneSocket : PollIo.State Unit Unit Unit :=
  ((PollIo.system Unit Unit Unit oneSlot).replay (PollIo.system Unit Unit Unit oneSlot).initial
    [.alloc 0, .register 0 true]).get (by decide)

def oneReadStart : State Unit Unit (Bool × Bool) :=
  ⟨oneSocket, fun _ => TASK_SCHEDULED, fun _ => .away, (false, false), fun _ => false, fun _ => [], false⟩

/-- The task gets `Pending`, is woken when bytes have arrived, reads them and returns. -/
def waitAndRead : List (Event Unit Unit Unit) :=
  List.flatten [[.run (), .call ()], List.replicate 9 (.step ()),
    [.leave (), .outside (), .select () [()], .process ()], List.replicate 4 (.waker ()),
    [.run (), .call ()], List.replicate 10 (.step ()), [.operate () 0, .finish ()]]

/-- One task that reads once: it waits, the network brings data, and the event wakes it.
Then the task is done. -/
theorem tasks_driven_oneRead : ∃ (steps : List (State Unit Unit (Bool × Bool) × Event Unit Unit Unit))
    (s : State Unit Unit (Bool × Bool)), Driven oneSlot oneRead steps s ∧ s.phases () = .done := by
  obtain ⟨s, run, hDone⟩ := (system oneSlot oneRead oneReadStart).exists_run_of_replay waitAndRead
    (fun s => s.phases ()) .done (by decide +kernel)
  have hMade : (PollIo.system Unit Unit Unit oneSlot).replay (PollIo.system Unit Unit Unit oneSlot).initial
      [.alloc 0, .register 0 true] = some oneSocket := (Option.some_get _).symm
  have hLive : ∃ p, oneSocket.sockets 0 = .live p ∧ (oneSocket.cell p.index .Read).state ≠ WAITING ∧
      (oneSocket.cell p.index .Read).lock = none :=
    ⟨pollable oneSocket 0, rfl, by decide, by decide⟩
  have start : Start oneSlot oneRead oneReadStart :=
    ⟨made_of_replay hMade (by simp), fun _ => hLive, fun _ => rfl, fun _ => rfl, fun _ => rfl, fun _ => rfl,
      by simp [oneRead, oneReadStart], fun _ => rfl, rfl⟩
  exact ⟨_, s, tasks_driven start run, hDone⟩

end Runs

end Yaar.Net.Reactor
