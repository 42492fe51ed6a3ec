import Yaar.Runtime.TaskState
import Yaar.Time.QueueRefinement
import Yaar.Time.Sleep

/-! `Poller::poll_timers` of `runtime/internal/poller.rs`. Other threads may use the
timer queue between the load of `expires` and the call of `poll`. -/
namespace Yaar.Runtime.PollTimers

open Time TaskState

/-- Whom the waker in an entry wakes: a task, the parker of a `block_on`, or
nothing of the runtime. -/
inductive Waker where
  | task (id : Nat)
  | parker (id : Nat)
  | other
  deriving DecidableEq

/-- What `poll_timers` reads and writes of its poller and caller, and the states of
the tasks and parkers it wakes. `ready` holds tasks. -/
structure Turn where
  ready : List Nat
  now : Option Instant
  timeout : Option Duration
  states : Waker → TaskState

/-- `Duration::from_millis` -/
def fromMillis (millis : Nat) : Duration := millis * 1000000

/-- `Waker::wake` while runnables are intercepted. -/
def Turn.wakeBy (s : Turn) (waker : Waker) : Turn :=
  match waker with
  | .task id =>
      let (state, scheduled) := transitionToScheduled (s.states waker)
      { s with
        states := Function.update s.states waker state
        ready := if scheduled then s.ready ++ [id] else s.ready }
  | .parker _ =>
      { s with
        states := Function.update s.states waker (transitionToScheduled (s.states waker)).1 }
  | .other => s

/-- `Expired::process` -/
def process : Turn → Queue Waker → EntryList → Turn × Queue Waker
  | s, q, [] => (s, q)
  | s, q, entry :: expired =>
      let (waker, woken) := (q.raw entry).waker.wake
      process (woken.elim s s.wakeBy) (q.setWaker entry waker) expired

/-- `Queue::expires` -/
def expires (q : Queue Waker) : Option Deadline := if q.expires = 0 then none else some q.expires

/-- `poll_timers`, where `later` is the queue when it comes to the call of `poll`. It
has no result when `poll` fails. -/
def pollTimers (s : Turn) (q later : Queue Waker) (clock : Instant) :
    Option (Turn × Queue Waker) :=
  match expires q with
  | none => some (s, q)
  | some expires =>
      let now := s.now.getD clock
      let s := { s with now := some now }
      let current := q.since now
      if current < expires then
        let duration := fromMillis (expires - current)
        some ({ s with timeout := some (s.timeout.elim duration (min duration)) }, q)
      else
        (later.poll current []).map fun (q, expired) => process s q expired

/-- The timeout covers the earliest deadline that is still to come. -/
def Covered (s : Turn) (q : Queue Waker) : Prop :=
  ∀ e : Deadline, Agenda.earliest Delay.deadline q.agenda = e →
    ∃ now, s.now = some now ∧
      (q.since now < e → ∃ t, s.timeout = some t ∧ t ≤ fromMillis (e - q.since now))

/-- `poll_timers` covers what it leaves in the queue unless it has a runnable, and
does not raise the timeout. -/
def TimeoutKept (s : Turn) (q later : Queue Waker) (clock : Instant) : Prop :=
  ∃ s' q', pollTimers s q later clock = some (s', q') ∧ (s'.ready = [] → Covered s' q') ∧
    ∀ t, s.timeout = some t → ∃ t', s'.timeout = some t' ∧ t' ≤ t

/-- The entry of the delay has the waker of a task that is not scheduled yet. -/
def Schedules (s : Turn) (q : Queue Waker) (entry : Entry) : Prop :=
  ∃ id, (q.raw entry).waker.wake.2 = some (.task id) ∧ s.states (.task id) = TASK_IDLE

/-- Where a deadline has come and others are left in the queue, there is a runnable,
one of the expired entries makes one, or the timeout was short enough before. -/
def Enough (s : Turn) (q later : Queue Waker) (clock : Instant) : Prop :=
  let current := q.since (s.now.getD clock)
  q.expires ≠ 0 → q.expires ≤ current →
    ∀ e : Deadline, Agenda.earliest Delay.deadline
      (Agenda.later Delay.deadline later.agenda (max later.current current)) = e →
    s.ready ≠ [] ∨
      (∃ x ∈ Agenda.due Delay.deadline later.agenda (max later.current current),
        Schedules s later x.entry) ∨
      ∃ t, s.timeout = some t ∧ t ≤ fromMillis (e - current)

/-! ## The wakers of expired entries -/

@[simp] theorem wakeBy_timeout (s : Turn) (waker : Waker) : (s.wakeBy waker).timeout = s.timeout := by
  cases waker <;> rfl

@[simp] theorem wakeBy_now (s : Turn) (waker : Waker) : (s.wakeBy waker).now = s.now := by
  cases waker <;> rfl

/-- A wake of a task that is idle makes a runnable. -/
theorem wakeBy_idle {s : Turn} {id : Nat} (h : s.states (.task id) = TASK_IDLE) :
    (s.wakeBy (.task id)).ready = s.ready ++ [id] := by
  simp [Turn.wakeBy, transitionToScheduled, h]

/-- Any other wake makes none, and leaves the same tasks idle. -/
theorem wakeBy_busy {s : Turn} {waker : Waker}
    (h : ∀ id, waker = .task id → s.states (.task id) ≠ TASK_IDLE) :
    (s.wakeBy waker).ready = s.ready ∧ ∀ id, (s.wakeBy waker).states (.task id) = TASK_IDLE ↔
      s.states (.task id) = TASK_IDLE := by
  cases waker with
  | task id =>
      have hBusy := h id rfl
      have hStill : (transitionToScheduled (s.states (.task id))).1 ≠ TASK_IDLE := by
        unfold transitionToScheduled
        split
        · simp
        · split
          · simp
          · exact hBusy
      have hFalse := mt (transitionToScheduled_snd (s.states (.task id))).mp hBusy
      refine ⟨by simp [Turn.wakeBy, hFalse], fun id' => ?_⟩
      by_cases hEq : id' = id
      · subst hEq
        simp [Turn.wakeBy, hStill, hBusy]
      · simp [Turn.wakeBy, hEq]
  | parker id => exact ⟨rfl, fun id' => by simp [Turn.wakeBy]⟩
  | other => exact ⟨rfl, fun id' => Iff.rfl⟩

/-- An entry that schedules nothing leaves the same tasks idle. -/
theorem elim_busy {s : Turn} {woken : Option Waker}
    (h : ∀ id, woken = some (.task id) → s.states (.task id) ≠ TASK_IDLE) :
    (woken.elim s s.wakeBy).ready = s.ready ∧
      ∀ id, (woken.elim s s.wakeBy).states (.task id) = TASK_IDLE ↔
        s.states (.task id) = TASK_IDLE := by
  cases woken with
  | none => exact ⟨rfl, fun id => Iff.rfl⟩
  | some waker => exact wakeBy_busy fun id hEq => h id (congrArg some hEq)

theorem process_cons (s : Turn) (q : Queue Waker) (entry : Entry) (expired : EntryList) :
    process s q (entry :: expired) =
      process ((q.raw entry).waker.wake.2.elim s s.wakeBy)
        (q.setWaker entry (q.raw entry).waker.wake.1) expired := rfl

/-- To process expired entries changes neither the time and the timeout of the turn nor
the tree. -/
theorem process_kept (s : Turn) (q : Queue Waker) (expired : EntryList) :
    (process s q expired).1.timeout = s.timeout ∧ (process s q expired).1.now = s.now ∧
      (process s q expired).2.tree = q.tree ∧ (process s q expired).2.started = q.started := by
  induction expired generalizing s q with
  | nil => exact ⟨rfl, rfl, rfl, rfl⟩
  | cons entry expired ih =>
      rw [process_cons]
      obtain ⟨hTimeout, hNow, hTree, hStarted⟩ :=
        ih ((q.raw entry).waker.wake.2.elim s s.wakeBy) (q.setWaker entry (q.raw entry).waker.wake.1)
      refine ⟨hTimeout.trans ?_, hNow.trans ?_, hTree, hStarted⟩ <;>
        cases (q.raw entry).waker.wake.2 <;> simp

theorem process_ready_ne_nil {s : Turn} {q : Queue Waker} {expired : EntryList}
    (h : s.ready ≠ []) : (process s q expired).1.ready ≠ [] := by
  induction expired generalizing s q with
  | nil => exact h
  | cons entry expired ih =>
      rw [process_cons]
      refine ih ?_
      by_cases hSchedules : Schedules s q entry
      · obtain ⟨id, hWaker, hIdle⟩ := hSchedules
        simp [hWaker, wakeBy_idle hIdle]
      · rwa [(elim_busy fun id hWaker hIdle => hSchedules ⟨id, hWaker, hIdle⟩).1]

/-- There is no runnable after the expired entries exactly if there was none and none
of them makes one. -/
theorem process_ready {s : Turn} {q : Queue Waker} {expired : EntryList} (nodup : expired.Nodup) :
    (process s q expired).1.ready = [] ↔
      s.ready = [] ∧ ∀ entry ∈ expired, ¬Schedules s q entry := by
  induction expired generalizing s q with
  | nil => simp [process]
  | cons entry expired ih =>
      obtain ⟨hEntry, hRest⟩ := List.nodup_cons.mp nodup
      rw [process_cons, List.forall_mem_cons]
      by_cases hSchedules : Schedules s q entry
      · refine iff_of_false (process_ready_ne_nil ?_) fun h => h.2.1 hSchedules
        obtain ⟨id, hWaker, hIdle⟩ := hSchedules
        simp [hWaker, wakeBy_idle hIdle]
      · obtain ⟨hReady, hIdle⟩ :=
          elim_busy fun id hWaker hIdle => hSchedules ⟨id, hWaker, hIdle⟩
        -- The entries that are left make what they made before.
        have hSame : ∀ other ∈ expired,
            (Schedules ((q.raw entry).waker.wake.2.elim s s.wakeBy)
              (q.setWaker entry (q.raw entry).waker.wake.1) other ↔ Schedules s q other) := by
          intro other hMem
          have hNe : other ≠ entry := fun hEq => hEntry (hEq ▸ hMem)
          simp only [Schedules, Queue.setWaker, Function.update_of_ne hNe, hIdle]
        rw [ih hRest, hReady]
        simp only [hSchedules, not_false_eq_true, true_and]
        exact and_congr_right fun _ => forall₂_congr fun other hMem => not_congr (hSame other hMem)

/-! ## The queue between the load and the poll -/

theorem pollLoop_started {fuel : Nat} {q q' : Queue Waker} {expired expired' : EntryList}
    (h : Queue.pollLoop fuel q expired = some (q', expired')) : q'.started = q.started := by
  induction fuel generalizing q expired with
  | zero => simp [Queue.pollLoop] at h
  | succ fuel ih =>
      simp only [Queue.pollLoop] at h
      split at h
      · obtain ⟨rfl, -⟩ : _ ∧ _ := by simpa using h
        rfl
      · split at h
        · obtain ⟨rfl, -⟩ : _ ∧ _ := by simpa using h
          rfl
        · split at h
          · simp at h
          · split at h
            · simp at h
            · have hRest := ih h
              exact hRest

theorem since_eq_of_started {q q' : Queue Waker} (h : q'.started = q.started) (t : Instant) :
    q'.since t = q.since t := by
  simp only [Queue.since, h]

/-- Nothing is scheduled, so nothing is to be covered. -/
theorem covered_of_expires_zero {q : Queue Waker} {live : List Delay} (sound : q.Sound live)
    (h : q.expires = 0) (s : Turn) : Covered s q := by
  intro e hEarliest
  have hExpires := Queue.expires_eq_earliest sound
  obtain ⟨⟨x, hx, rfl⟩, -⟩ := Agenda.earliest_eq_coe.mp hEarliest
  obtain ⟨list, hList, -⟩ := Queue.mem_agenda.mp hx
  have hPos := (sound.lists.used _ _ hList).2.2
  rw [hEarliest, h] at hExpires
  exact absurd hExpires.symm hPos.ne'

theorem agenda_congr {q q' : Queue Waker} (h : q'.tree = q.tree) : q'.agenda = q.agenda := by
  ext x
  simp only [Queue.mem_agenda, Queue.Scheduled, h]

/-- What the due branch leaves to be covered. -/
theorem covered_due_iff {s' : Turn} {q' : Queue Waker} {items : Finset Delay} {now : Instant}
    {t : Deadline} (hNow : s'.now = some now) (hLe : q'.since now ≤ t)
    (hAgenda : q'.agenda = Agenda.later Delay.deadline items t) :
    Covered s' q' ↔
      ∀ e : Deadline, Agenda.earliest Delay.deadline (Agenda.later Delay.deadline items t) = e →
        ∃ d, s'.timeout = some d ∧ d ≤ fromMillis (e - q'.since now) := by
  unfold Covered
  rw [hAgenda]
  refine forall₂_congr fun e hEarliest => ?_
  have hLt : q'.since now < e := lt_of_le_of_lt hLe (Agenda.earliest_later hEarliest)
  constructor
  · rintro ⟨now', hNow', hCovers⟩
    obtain rfl : now = now' := by simpa [hNow] using hNow'
    exact hCovers hLt
  · intro hCovers
    exact ⟨now, hNow, fun _ => hCovers⟩

/-- Where a deadline has come `poll` is called and the timeout is left as it was. So
what is left in the queue has to be covered in another way. -/
theorem timeoutKept_due {s : Turn} {q later : Queue Waker} {clock : Instant} {live' : List Delay}
    (sound : later.Sound live') (hStarted : later.started = q.started) (hUsed : q.expires ≠ 0)
    (hDue : q.expires ≤ q.since (s.now.getD clock)) :
    TimeoutKept s q later clock ↔ Enough s q later clock := by
  obtain ⟨q', due, hPoll, -, done⟩ := Queue.poll_spec sound (q.since (s.now.getD clock)) []
  obtain ⟨q₁, due₁, hPoll₁, -, -, hExpired, hAgenda⟩ :=
    Queue.poll_agenda sound (q.since (s.now.getD clock)) []
  obtain ⟨rfl, hEntries⟩ : q' = q₁ ∧ due.map Delay.entry = due₁.map Delay.entry := by
    simpa using hPoll.symm.trans hPoll₁
  have hReached := (pollLoop_started hPoll).trans hStarted
  obtain ⟨s₁, hRunnables, hClock, hSet, hStates, hCall⟩ : ∃ s₁ : Turn, s₁.ready = s.ready ∧
      s₁.now = some (s.now.getD clock) ∧ s₁.timeout = s.timeout ∧ s₁.states = s.states ∧
      pollTimers s q later clock = some (process s₁ q' (due.map Delay.entry)) := by
    refine ⟨{ s with now := some (s.now.getD clock) }, rfl, rfl, rfl, rfl, ?_⟩
    simp only [pollTimers, expires, if_neg hUsed, if_neg (not_lt.mpr hDue), hPoll,
      List.nil_append, Option.map_some]
  obtain ⟨hTimeout, hNow, hTree, hSame⟩ := process_kept s₁ q' (due.map Delay.entry)
  have hReady : (process s₁ q' (due.map Delay.entry)).1.ready = [] ↔
      s.ready = [] ∧ ∀ x ∈ Agenda.due Delay.deadline later.agenda
        (max later.current (q.since (s.now.getD clock))), ¬Schedules s later x.entry := by
    have hWakers : ∀ entry, Schedules s₁ q' entry ↔ Schedules s later entry := by
      intro entry
      have hWaker : (q'.raw entry).waker = (later.raw entry).waker := done.waker entry
      simp only [Schedules, hWaker, hStates]
    rw [process_ready done.nodup, hEntries, ← hExpired, hRunnables]
    simp only [hWakers, List.mem_toFinset, List.forall_mem_map]
  have hSince := since_eq_of_started (hSame.trans hReached) (s.now.getD clock)
  have hCovered := covered_due_iff (hNow.trans hClock)
    (hSince.trans_le (le_max_right later.current _)) ((agenda_congr hTree).trans hAgenda)
  rw [hSince, hTimeout.trans hSet] at hCovered
  constructor
  · rintro ⟨s', q₂, hResult, hCovers, -⟩ - - e hEarliest
    have hPair : process s₁ q' (due.map Delay.entry) = (s', q₂) :=
      Option.some.inj (hCall.symm.trans hResult)
    rw [hPair] at hCovered hReady
    by_cases hEmpty : s'.ready = []
    · exact .inr (.inr (hCovered.mp (hCovers hEmpty) e hEarliest))
    · by_cases hNone : s.ready = []
      · have hSome := mt hReady.mpr hEmpty
        push Not at hSome
        exact .inr (.inl (hSome hNone))
      · exact .inl hNone
  · intro hEnough
    refine ⟨_, _, hCall, fun hEmpty => hCovered.mpr fun e hEarliest => ?_, fun t hBefore => ?_⟩
    · obtain ⟨hNone, hIdle⟩ := hReady.mp hEmpty
      obtain hSome | ⟨x, hx, hSchedules⟩ | hShort := hEnough hUsed hDue e hEarliest
      · exact absurd hNone hSome
      · exact absurd hSchedules (hIdle x hx)
      · exact hShort
    · exact ⟨t, (hTimeout.trans hSet).trans hBefore, le_rfl⟩

/-- The timeout is cut to a duration. -/
theorem elim_min_le (timeout : Option Duration) (duration : Duration) :
    timeout.elim duration (min duration) ≤ duration ∧
      ∀ t, timeout = some t → timeout.elim duration (min duration) ≤ t := by
  cases timeout with
  | none => exact ⟨le_rfl, by simp⟩
  | some t =>
      refine ⟨min_le_left _ _, fun t' hSet => ?_⟩
      obtain rfl := Option.some.inj hSet
      exact min_le_right _ _

/-- Before the first deadline the timeout is cut to it. -/
theorem timeoutKept_early {s : Turn} {q later : Queue Waker} {clock : Instant} {live : List Delay}
    (sound : q.Sound live) (hUsed : q.expires ≠ 0)
    (hEarly : q.since (s.now.getD clock) < q.expires) : TimeoutKept s q later clock := by
  have hCall : pollTimers s q later clock = some ({ s with
      now := some (s.now.getD clock)
      timeout := some (s.timeout.elim
        (fromMillis (q.expires - q.since (s.now.getD clock)))
        (min (fromMillis (q.expires - q.since (s.now.getD clock))))) }, q) := by
    simp only [pollTimers, expires, if_neg hUsed, if_pos hEarly]
  refine ⟨_, _, hCall, fun _ e hEarliest => ⟨_, rfl, fun _ => ⟨_, rfl, ?_⟩⟩, fun t hSet => ?_⟩
  · have hExpires := Queue.expires_eq_earliest sound
    rw [hEarliest] at hExpires
    obtain rfl : q.expires = e := hExpires
    exact (elim_min_le s.timeout _).1
  · exact ⟨_, rfl, (elim_min_le s.timeout _).2 t hSet⟩

/-- The timeout is kept for what remains exactly where there is enough without it:
the due branch polls the queue and does not look at it again. -/
theorem timeoutKept_iff {s : Turn} {q later : Queue Waker} {clock : Instant}
    {live live' : List Delay} (sound : q.Sound live) (sound' : later.Sound live')
    (hStarted : later.started = q.started) :
    TimeoutKept s q later clock ↔ Enough s q later clock := by
  by_cases hUsed : q.expires = 0
  · refine iff_of_true ⟨s, q, ?_, fun _ => covered_of_expires_zero sound hUsed s, ?_⟩
      fun h => absurd hUsed h
    · simp only [pollTimers, expires, if_pos hUsed]
    · exact fun t hSet => ⟨t, hSet, le_rfl⟩
  · obtain hEarly | hDue := lt_or_ge (q.since (s.now.getD clock)) q.expires
    · exact iff_of_true (timeoutKept_early sound hUsed hEarly)
        fun _ hDue => absurd hDue (not_le.mpr hEarly)
    · exact timeoutKept_due sound' hStarted hUsed hDue

/-- A worker with nothing to do. -/
def idle : Turn := ⟨[], none, none, fun _ => TASK_IDLE⟩

/-- Deadlines after 1 and 5 milliseconds, whose entries have no waker. -/
def oneAndFive : Queue Waker :=
  ((Queue.new 0).schedule (.ok 1000000) 0).1.schedule (.ok 5000000) 0 |>.1

theorem oneAndFive_sound : ∃ live, oneAndFive.Sound live := by
  obtain ⟨x, hx⟩ : ∃ x, ((Queue.new 0 : Queue Waker).schedule (.ok 1000000) 0).2 = some x := by
    exact Option.isSome_iff_exists.mp (by decide)
  have hFirst := Queue.schedule_sound (Queue.sound_new 0) (Prod.ext rfl hx)
  obtain ⟨y, hy⟩ : ∃ y, (((Queue.new 0 : Queue Waker).schedule (.ok 1000000) 0).1.schedule
      (.ok 5000000) 0).2 = some y := by
    exact Option.isSome_iff_exists.mp (by decide)
  exact ⟨[y, x], Queue.schedule_sound hFirst (Prod.ext rfl hy)⟩

/-- None of its entries makes a runnable, as they have no waker. -/
theorem oneAndFive_unwatched {live : List Delay} (sound : oneAndFive.Sound live) {x : Delay}
    (h : x ∈ oneAndFive.agenda) : ¬Schedules idle oneAndFive x.entry := by
  rintro ⟨id, hWaker, -⟩
  have hLive := (sound.flagged.listed x (Queue.mem_agenda.mp h)).1
  have hEntry : x.entry < oneAndFive.fresh :=
    sound.owned.bound _ (List.mem_append_left _ (List.mem_map_of_mem hLive))
  have hNobody : ∀ e < oneAndFive.fresh, (oneAndFive.raw e).waker.wake.2 = none := by decide
  simp [hNobody _ hEntry] at hWaker

/-- The first deadline is polled at 1 millisecond, the second stays. -/
theorem oneAndFive_later {live : List Delay} (sound : oneAndFive.Sound live) :
    Agenda.earliest Delay.deadline
      (Agenda.later Delay.deadline oneAndFive.agenda (max oneAndFive.current 1)) = (5 : Nat) := by
  obtain ⟨q', due, hPoll, sound', -⟩ := Queue.poll_spec sound 1 []
  obtain ⟨q₁, due₁, hPoll₁, -, -, -, hAgenda⟩ := Queue.poll_agenda sound 1 []
  obtain ⟨rfl, -⟩ : q' = q₁ ∧ _ := by simpa using hPoll.symm.trans hPoll₁
  have hFive : (oneAndFive.poll 1 []).map (fun r => r.1.expires) = some 5 := by decide
  have hExpires : q'.expires = 5 := by simpa [hPoll] using hFive
  have hEarliest := hExpires.symm.trans (Queue.expires_eq_earliest sound')
  rw [← hAgenda]
  cases hKey : Agenda.earliest Delay.deadline q'.agenda with
  | top => simp [hKey] at hEarliest
  | coe e =>
      rw [hKey] at hEarliest
      exact congrArg _ hEarliest.symm

/-- A worker that another queue lets wait for four milliseconds. -/
def hurried : Turn := { idle with timeout := some 4000000 }

/-- Before the first deadline, and at it where the timeout is short enough before. -/
theorem timeoutKept_iff_oneAndFive : TimeoutKept idle oneAndFive oneAndFive 0 ∧
    TimeoutKept hurried oneAndFive oneAndFive 1000000 := by
  obtain ⟨live, sound⟩ := oneAndFive_sound
  refine ⟨(timeoutKept_iff sound sound rfl).mpr fun _ hDue => absurd hDue (by decide),
    (timeoutKept_iff sound sound rfl).mpr ?_⟩
  have hSince : oneAndFive.since (hurried.now.getD 1000000) = 1 := by decide
  unfold Enough
  rw [hSince]
  intro current hUsed hDue e hLater
  rw [show max oneAndFive.current current = max oneAndFive.current 1 from rfl,
    oneAndFive_later sound] at hLater
  obtain rfl : 5 = e := by exact_mod_cast hLater
  exact Or.inr (Or.inr ⟨4000000, rfl, by decide⟩)

/-- After one millisecond the first is expired and wakes nobody, and the timeout does
not know of the second. -/
theorem oneAndFive_forgotten :
    ¬∀ (s : Turn) (q : Queue Waker) (live : List Delay) (clock : Instant), q.Sound live →
      TimeoutKept s q q clock := by
  intro h
  obtain ⟨live, sound⟩ := oneAndFive_sound
  have hSince : oneAndFive.since (idle.now.getD 1000000) = 1 := by decide
  have hDue : oneAndFive.expires ≠ 0 ∧ oneAndFive.expires ≤ 1 := by decide
  have hEnough := (timeoutKept_due sound rfl hDue.1 (hDue.2.trans hSince.ge)).mp
    (h idle oneAndFive live 1000000 sound)
  unfold Enough at hEnough
  rw [hSince] at hEnough
  obtain hSome | ⟨x, hx, hSchedules⟩ | ⟨t, hShort, -⟩ :=
    hEnough hDue.1 hDue.2 5 (oneAndFive_later sound)
  · exact hSome rfl
  · exact oneAndFive_unwatched sound (Finset.mem_filter.mp hx).1 hSchedules
  · simp [idle] at hShort

end Yaar.Runtime.PollTimers
