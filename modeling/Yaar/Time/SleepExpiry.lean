import Yaar.Time.QueueRefinement
import Yaar.Time.Sleep

namespace Yaar.Time.Sleep

open Machine Queue

variable {W : Type*}

/-! ## Histories of sleeps -/

/-- The schedule call of a sleep returns a delay. -/
def Schedules (id : SleepId) (d : Delay) (x : World W × Event W) : Prop :=
  ∃ now delay, x.2 = .schedule id now ∧ x.1.sleeps id = .start delay ∧
    (x.1.queue.schedule delay now).2 = some d

/-- `Sleep::poll` returns `Ready`. -/
def ReturnsReady (id : SleepId) (x : World W × Event W) : Prop :=
  x.2 = .complete id ∨ x.2 = .polled id

/-- A poll of the queue whose effective time reaches the deadline of `d` moves
its entry out of the tree and into an `Expired` list. -/
def Expires (d : Delay) (x : World W × Event W) : Prop :=
  ∃ p current, x.2 = .poll p current ∧ d.deadline ≤ max x.1.queue.current current ∧
    x.1.queue.Scheduled d ∧
    ∃ q' moved, x.1.queue.poll current (x.1.expired p) = some (q', x.1.expired p ++ moved) ∧
      d.entry ∈ moved ∧ ¬q'.Scheduled d

/-- Every sleep that was scheduled returns `Ready` after its own timer only. -/
def OwnTimer (steps : List (World W × Event W)) : Prop :=
  ∀ before between after sched ready id d, steps = before ++ sched :: between ++ ready :: after →
    Schedules id d sched → ReturnsReady id ready → ∃ x ∈ between, Expires d x

/-- A schedule call that allocates takes no entry with a wake left over from the
sleep that had it before, neither recorded in its waker nor still to come from
an `Expired` list. -/
def FreshEntry (s : World W) : Event W → Prop
  | .schedule id now => ∀ delay, s.sleeps id = .start delay → ¬s.queue.Late delay now →
      ∀ e, s.queue.entryCache.cached.getLast? = some e →
        ¬(s.queue.raw e).waker.Notified ∧ ∀ p, e ∉ s.expired p
  | _ => True

/-! ## Who owns an entry -/

/-- What every step keeps: each sleep holds a live delay of its own, and no call
has panicked. -/
structure Owns (s : World W) : Prop where
  running : s.failed = false
  sound : Sound s.queue s.live
  held : ∀ id d, (s.sleeps id).delay? = some d → d ∈ s.live
  apart : ∀ id id' d, (s.sleeps id).delay? = some d → (s.sleeps id').delay? = some d → id = id'
  expired : ∀ p, ∀ e ∈ s.expired p, e < s.queue.fresh
  calm : ∀ e, (s.queue.raw e).waker.Calm

theorem sound_setWaker {q : Queue W} {live : List Delay} (sound : Sound q live) (e : Entry)
    (waker : AtomicWaker W) : Sound (q.setWaker e waker) live := by
  have hFlag : ∀ e', ((q.setWaker e waker).raw e').queued = (q.raw e').queued := by
    intro e'
    by_cases hEq : e' = e <;> simp [setWaker, hEq]
  refine ⟨⟨sound.lists.used, sound.lists.cached⟩, ⟨sound.owned.nodup, sound.owned.bound⟩,
    ⟨fun x hx => ?_, fun e' he' => ?_⟩, sound.expires⟩
  · rw [hFlag]
    exact sound.flagged.listed x hx
  · rw [hFlag] at he'
    exact sound.flagged.queued e' he'

theorem calm_setWaker {q : Queue W} {e : Entry} {waker : AtomicWaker W}
    (calm : ∀ e, (q.raw e).waker.Calm) (hWaker : waker.Calm) (e' : Entry) :
    ((q.setWaker e waker).raw e').waker.Calm := by
  by_cases hEq : e' = e
  · simpa [setWaker, hEq] using hWaker
  · simpa [setWaker, hEq] using calm e'

/-- Moving one sleep to a state that holds no other delay than before. -/
theorem owns_setSleep {s : World W} {id : SleepId} {state : State} (owns : Owns s)
    (h : state.delay? = none ∨ state.delay? = (s.sleeps id).delay?) :
    Owns (s.setSleep id state) := by
  have hHeld : ∀ id' d, ((s.setSleep id state).sleeps id').delay? = some d →
      (s.sleeps id').delay? = some d := by
    intro id' d hd
    by_cases hEq : id' = id
    · subst hEq
      simp only [World.setSleep, Function.update_self] at hd
      rcases h with h | h
      · simp [h] at hd
      · exact h ▸ hd
    · simpa [World.setSleep, hEq] using hd
  exact ⟨owns.running, owns.sound, fun id' d hd => owns.held id' d (hHeld id' d hd),
    fun id₁ id₂ d h₁ h₂ => owns.apart id₁ id₂ d (hHeld id₁ d h₁) (hHeld id₂ d h₂),
    owns.expired, owns.calm⟩

theorem owns_schedule_none {s : World W} {delay : Except Instant Duration} {now : Instant}
    {queue : Queue W} (owns : Owns s) (h : s.queue.schedule delay now = (queue, none)) :
    Owns { s with queue := queue } := by
  have hSound := schedule_none_sound owns.sound h
  rcases Queue.schedule_none h with rfl | rfl <;>
    exact ⟨owns.running, hSound, owns.held, owns.apart, owns.expired, owns.calm⟩

/-- A delay that is handed out is held by the sleep that has asked for it, and by no
other. -/
theorem owns_schedule_some {s : World W} {delay : Except Instant Duration} {now : Instant}
    {queue : Queue W} {id : SleepId} {d : Delay} (owns : Owns s)
    (h : s.queue.schedule delay now = (queue, some d)) :
    Owns ({ s with queue := queue, live := d :: s.live }.setSleep id (.scheduled d)) := by
  obtain ⟨done, -, -, hNew⟩ := Queue.schedule_some owns.sound h
  have hOther : ∀ id' d', ((({ s with queue := queue, live := d :: s.live }.setSleep id
      (.scheduled d)).sleeps id').delay? = some d') →
      (id' = id ∧ d' = d) ∨ (id' ≠ id ∧ d' ≠ d ∧ (s.sleeps id').delay? = some d') := by
    intro id' d' hd
    by_cases hEq : id' = id
    · simp only [World.setSleep, hEq, Function.update_self, State.delay?, Option.some.injEq] at hd
      exact Or.inl ⟨hEq, hd.symm⟩
    · simp only [World.setSleep, ne_eq, hEq, not_false_eq_true, Function.update_of_ne] at hd
      exact Or.inr ⟨hEq, fun hd' => hNew (hd' ▸ owns.held id' d' hd), hd⟩
  have hAlloc := schedule_allocated h
  have hFresh : s.queue.fresh ≤ queue.fresh := by
    cases hAlloc with
    | recycled _ _ fresh => exact fresh.ge
    | fresh _ _ fresh => exact fresh ▸ Nat.le_succ _
  refine ⟨owns.running, schedule_sound owns.sound h, fun id' d' hd => ?_,
    fun id₁ id₂ d' h₁ h₂ => ?_, fun p e he => (owns.expired p e he).trans_le hFresh, fun e => ?_⟩
  · rcases hOther id' d' hd with ⟨-, rfl⟩ | ⟨-, -, hd⟩
    · exact List.mem_cons_self
    · exact List.mem_cons_of_mem _ (owns.held id' d' hd)
  · rcases hOther id₁ d' h₁ with ⟨rfl, rfl⟩ | ⟨-, hNe, h₁⟩
    · rcases hOther id₂ d' h₂ with ⟨rfl, -⟩ | ⟨-, hNe, -⟩
      · rfl
      · exact (hNe rfl).elim
    · rcases hOther id₂ d' h₂ with ⟨-, rfl⟩ | ⟨-, -, h₂⟩
      · exact (hNe rfl).elim
      · exact owns.apart id₁ id₂ d' h₁ h₂
  · change (queue.raw e).waker.Calm
    by_cases hEq : e = d.entry
    · subst hEq
      cases hAlloc with
      | recycled _ waker _ => exact waker ▸ owns.calm d.entry
      | fresh _ waker _ => exact waker ▸ AtomicWaker.calm_new
    · rw [done.raw e hEq]
      exact owns.calm e

/-- The state `complete` leads to. -/
theorem complete_eq {s : World W} {id : SleepId} {d : Delay} (state : State) (owns : Owns s)
    (hHeld : (s.sleeps id).delay? = some d) :
    ∃ queue, s.complete id d state =
        { s with queue := queue, live := s.live.erase d }.setSleep id state ∧
      Sound queue (s.live.erase d) ∧ Completing s.queue queue d := by
  obtain ⟨queue, hComplete, hSound, done⟩ := complete_spec owns.sound (owns.held id d hHeld)
  exact ⟨queue, by simp [World.complete, hComplete], hSound, done⟩

theorem sleeps_complete {s : World W} {id id' : SleepId} {d : Delay} {state : State}
    (hNe : id ≠ id') : (s.complete id' d state).sleeps id = s.sleeps id := by
  unfold World.complete
  split <;> simp [World.setSleep, hNe]

theorem owns_complete {s : World W} {id : SleepId} {d : Delay} {state : State} (owns : Owns s)
    (hHeld : (s.sleeps id).delay? = some d) (hNone : state.delay? = none) :
    Owns (s.complete id d state) := by
  obtain ⟨queue, hEq, hSound, done⟩ := complete_eq state owns hHeld
  rw [hEq]
  have hOther : ∀ id' d', ((({ s with queue := queue, live := s.live.erase d }.setSleep id
      state).sleeps id').delay? = some d') → id' ≠ id ∧ (s.sleeps id').delay? = some d' := by
    intro id' d' hd
    by_cases hEq : id' = id
    · simp [World.setSleep, hEq, hNone] at hd
    · exact ⟨hEq, by simpa [World.setSleep, hEq] using hd⟩
  refine ⟨owns.running, hSound, fun id' d' hd => ?_, fun id₁ id₂ d' h₁ h₂ => ?_,
    fun p e he => ?_, fun e => ?_⟩
  · obtain ⟨hNe, hd⟩ := hOther id' d' hd
    have hNeD : d' ≠ d := fun hEq => hNe (owns.apart id' id d (hEq ▸ hd) hHeld)
    exact (List.mem_erase_of_ne hNeD).mpr (owns.held id' d' hd)
  · exact owns.apart id₁ id₂ d' (hOther id₁ d' h₁).2 (hOther id₂ d' h₂).2
  · change e < queue.fresh
    rw [done.fresh]
    exact owns.expired p e he
  · change (queue.raw e).waker.Calm
    rw [done.raw]
    exact owns.calm e

variable [DecidableEq W]

/-- A sleep polls the waker of its own entry only, so `AtomicWaker` is not polled twice
at once. -/
theorem owns_waker {s : World W} {id : SleepId} {d : Delay} {ctx : W} (owns : Owns s)
    (hHeld : (s.sleeps id).delay? = some d) : Owns (s.pollWaker id d ctx) := by
  obtain ⟨waker, r, hPoll, hCalm, -⟩ := AtomicWaker.poll_calm (owns.calm d.entry) (some ctx)
  have hOwns : Owns { s with queue := s.queue.setWaker d.entry waker } :=
    ⟨owns.running, sound_setWaker owns.sound _ _, owns.held, owns.apart, owns.expired,
      calm_setWaker owns.calm hCalm⟩
  unfold World.pollWaker
  rw [hPoll]
  cases r with
  | ready => exact owns_setSleep hOwns (Or.inr hHeld.symm)
  | pending => exact owns_setSleep hOwns (Or.inr hHeld.symm)

/-- A poll of the queue moves entries of live delays into the list of the thread. -/
theorem owns_poll {s s' : World W} {p : PollerId} {current : Deadline} (owns : Owns s)
    (h : s.next (.poll p current) = some s') : Owns s' := by
  obtain ⟨queue, due, hPoll, hSound, done⟩ := poll_spec owns.sound current (s.expired p)
  simp only [World.next, hPoll, Option.some.injEq] at h
  subst h
  have hFresh : queue.fresh = s.queue.fresh := done.fresh
  refine ⟨owns.running, hSound, owns.held, owns.apart, fun p' e he => ?_, fun e => ?_⟩
  · change e < queue.fresh
    rw [hFresh]
    by_cases hEq : p' = p
    · subst hEq
      simp only [Function.update_self, List.mem_append, List.mem_map] at he
      rcases he with he | ⟨x, hx, rfl⟩
      · exact owns.expired p' e he
      · have hLive := (owns.sound.flagged.listed x ((done.due x).mp hx).1).1
        exact owns.sound.owned.bound _ (List.mem_append_left _ (List.mem_map_of_mem hLive))
    · simp only [ne_eq, hEq, not_false_eq_true, Function.update_of_ne] at he
      exact owns.expired p' e he
  · change (queue.raw e).waker.Calm
    rw [done.waker]
    exact owns.calm e

/-- To process an entry takes it off the list of the thread and wakes its waker, which
may be that of no sleep any more. -/
theorem owns_process {s s' : World W} {p : PollerId} (owns : Owns s)
    (h : s.next (.process p) = some s') : Owns s' := by
  cases hList : s.expired p with
  | nil => simp [World.next, hList] at h
  | cons e rest =>
      simp only [World.next, hList, Option.some.injEq] at h
      subst h
      refine ⟨owns.running, sound_setWaker owns.sound _ _, owns.held, owns.apart,
        fun p' e' he' => ?_, calm_setWaker owns.calm (AtomicWaker.calm_wake (owns.calm e))⟩
      change e' < s.queue.fresh
      by_cases hEq : p' = p
      · subst hEq
        simp only [Function.update_self] at he'
        exact owns.expired p' e' (hList ▸ List.mem_cons_of_mem e he')
      · simp only [ne_eq, hEq, not_false_eq_true, Function.update_of_ne] at he'
        exact owns.expired p' e' he'

/-- Every event keeps each sleep with a delay of its own. No call panics. -/
theorem owns_next {s s' : World W} {e : Event W} (owns : Owns s) (h : s.next e = some s') :
    Owns s' := by
  cases e with
  | new id delay =>
      simp only [World.next] at h
      split at h
      · obtain rfl := Option.some.inj h
        exact owns_setSleep owns (Or.inl rfl)
      · simp at h
  | schedule id now =>
      cases hState : s.sleeps id with
      | start delay =>
          rcases hCall : s.queue.schedule delay now with ⟨queue, result⟩
          cases result with
          | none =>
              simp only [World.next, hState, hCall, Option.some.injEq] at h
              exact h ▸ owns_setSleep (owns_schedule_none owns hCall) (Or.inl rfl)
          | some d =>
              simp only [World.next, hState, hCall, Option.some.injEq] at h
              exact h ▸ owns_schedule_some owns hCall
      | _ => simp [World.next, hState] at h
  | waker id ctx =>
      cases hState : s.sleeps id with
      | scheduled d | polling d =>
          simp only [World.next, hState, Option.some.injEq] at h
          exact h ▸ owns_waker owns (by rw [hState]; rfl)
      | _ => simp [World.next, hState] at h
  | complete id =>
      cases hState : s.sleeps id with
      | ready d =>
          simp only [World.next, hState, Option.some.injEq] at h
          exact h ▸ owns_complete owns (by rw [hState]; rfl) rfl
      | _ => simp [World.next, hState] at h
  | polled id =>
      simp only [World.next] at h
      split at h
      · exact Option.some.inj h ▸ owns
      · simp at h
  | drop id =>
      cases hState : s.sleeps id with
      | start | polled =>
          simp only [World.next, hState, Option.some.injEq] at h
          exact h ▸ owns_setSleep owns (Or.inl rfl)
      | polling d =>
          simp only [World.next, hState, Option.some.injEq] at h
          exact h ▸ owns_complete owns (by rw [hState]; rfl) rfl
      | _ => simp [World.next, hState] at h
  | poll p current => exact owns_poll owns h
  | process p => exact owns_process owns h

theorem reachable_owns {started : Instant} {s : World W} (h : (system W started).Reachable s) :
    Owns s := by
  refine h.keeps ⟨rfl, sound_new started, ?_, ?_, ?_, ?_⟩ fun _ _ _ => owns_next
  · intro id d hd
    simp [system, State.delay?] at hd
  · intro id id' d hd
    simp [system, State.delay?] at hd
  · intro p e he
    simp [system] at he
  · exact fun _ => AtomicWaker.calm_new

/-! ## Waiting for the own timer -/

/-- The sleep still waits for its delay, with no wake under way to its entry, or
it was dropped. -/
def Waits (id : SleepId) (d : Delay) (s : World W) : Prop :=
  (s.sleeps id = .scheduled d ∨ s.sleeps id = .polling d) ∧
      ¬(s.queue.raw d.entry).waker.Notified ∧ (∀ p, d.entry ∉ s.expired p) ∨
    s.sleeps id = .dropped

/-- A schedule call that meets the condition starts the wait. -/
theorem waits_of_schedules {s s' : World W} {e : Event W} {id : SleepId} {d : Delay}
    (owns : Owns s) (hSched : Schedules id d (s, e)) (hFresh : FreshEntry s e)
    (h : s.next e = some s') : Waits id d s' := by
  obtain ⟨now, delay, rfl, hState, hSome⟩ := hSched
  change s.sleeps id = .start delay at hState
  rcases hCall : s.queue.schedule delay now with ⟨queue, result⟩
  simp only [hCall] at hSome
  subst hSome
  simp only [World.next, hState, hCall, Option.some.injEq] at h
  subst h
  have hUnused : ¬(queue.raw d.entry).waker.Notified ∧ ∀ p, d.entry ∉ s.expired p := by
    cases schedule_allocated hCall with
    | recycled cached waker _ =>
        rw [waker]
        exact hFresh delay hState (not_late_of_schedule hCall) d.entry cached
    | fresh entry waker _ =>
        rw [waker, entry]
        exact ⟨by simp [AtomicWaker.Notified, AtomicWaker.new], fun p hMem =>
          lt_irrefl _ (owns.expired p _ hMem)⟩
  exact Or.inl ⟨Or.inl (by simp [World.setSleep]), hUnused⟩

omit [DecidableEq W] in
/-- A poll that moves the entry of a live delay has expired that delay. -/
theorem expires_of_moved {s : World W} {p : PollerId} {current : Deadline} {d : Delay}
    {queue : Queue W} {due : List Delay} (owns : Owns s) (hLive : d ∈ s.live)
    (hPoll : s.queue.poll current (s.expired p) =
      some (queue, s.expired p ++ due.map Delay.entry))
    (done : Polling { s.queue with current := max s.queue.current current } queue due)
    (hMoved : d.entry ∈ due.map Delay.entry) : Expires d (s, .poll p current) := by
  obtain ⟨x, hx, hEntry⟩ := List.mem_map.mp hMoved
  obtain ⟨hSched, hDue⟩ := (done.due x).mp hx
  obtain rfl : x = d :=
    owns.sound.owned.entry_inj (owns.sound.flagged.listed x hSched).1 hLive hEntry
  exact ⟨p, current, rfl, hDue, hSched, queue, _, hPoll, hMoved, fun hKept =>
    absurd ((done.kept x).mp hKept).2 (not_lt.mpr hDue)⟩

/-- The sleep an event is a step of. -/
def Event.sleep? : Event W → Option SleepId
  | .new id _ | .schedule id _ | .waker id _ | .complete id | .polled id | .drop id => some id
  | .poll _ _ | .process _ => none

/-- An event of another sleep, or of the queue, leaves a sleep as it is. -/
theorem sleeps_next {s s' : World W} {e : Event W} {id : SleepId}
    (hOther : e.sleep? ≠ some id) (h : s.next e = some s') : s'.sleeps id = s.sleeps id := by
  have hNe : ∀ id', e.sleep? = some id' → id ≠ id' := fun id' hId hEq => hOther (hEq ▸ hId)
  cases e with
  | new id' delay =>
      simp only [World.next] at h
      split at h
      · obtain rfl := Option.some.inj h
        simp [World.setSleep, hNe id' rfl]
      · simp at h
  | schedule id' now =>
      simp only [World.next] at h
      split at h
      · split at h <;> obtain rfl := Option.some.inj h <;> simp [World.setSleep, hNe id' rfl]
      · simp at h
  | waker id' ctx =>
      have hPoll : ∀ d, (s.pollWaker id' d ctx).sleeps id = s.sleeps id := by
        intro d
        unfold World.pollWaker
        split <;> simp [World.setSleep, hNe id' rfl]
      simp only [World.next] at h
      split at h
      · exact Option.some.inj h ▸ hPoll _
      · exact Option.some.inj h ▸ hPoll _
      · simp at h
  | complete id' =>
      simp only [World.next] at h
      split at h
      · exact Option.some.inj h ▸ sleeps_complete (hNe id' rfl)
      · simp at h
  | polled id' =>
      simp only [World.next] at h
      split at h
      · exact Option.some.inj h ▸ rfl
      · simp at h
  | drop id' =>
      simp only [World.next] at h
      split at h
      · obtain rfl := Option.some.inj h
        simp [World.setSleep, hNe id' rfl]
      · obtain rfl := Option.some.inj h
        simp [World.setSleep, hNe id' rfl]
      · exact Option.some.inj h ▸ sleeps_complete (hNe id' rfl)
      · simp at h
  | poll p current =>
      simp only [World.next] at h
      split at h <;> exact Option.some.inj h ▸ rfl
  | process p =>
      simp only [World.next] at h
      split at h
      · simp at h
      · exact Option.some.inj h ▸ rfl

/-- Until its timer expires nothing touches the entry of a waiting sleep but the
sleep itself. -/
theorem entry_next {s s' : World W} {e : Event W} {id : SleepId} {d : Delay} (owns : Owns s)
    (hHeld : (s.sleeps id).delay? = some d) (hOther : e.sleep? ≠ some id)
    (hList : ∀ p, d.entry ∉ s.expired p) (hExpires : ¬Expires d (s, e))
    (h : s.next e = some s') :
    (s'.queue.raw d.entry).waker = (s.queue.raw d.entry).waker ∧ ∀ p, d.entry ∉ s'.expired p := by
  have hLive := owns.held id d hHeld
  have hApart : ∀ id' d', e.sleep? = some id' → (s.sleeps id').delay? = some d' → d' ≠ d := by
    rintro id' d' hSleep hd rfl
    exact hOther (owns.apart id' id d' hd hHeld ▸ hSleep)
  have hComplete : ∀ id' d' state, e.sleep? = some id' → (s.sleeps id').delay? = some d' →
      ((s.complete id' d' state).queue.raw d.entry).waker = (s.queue.raw d.entry).waker ∧
        ∀ p, d.entry ∉ (s.complete id' d' state).expired p := by
    intro id' d' state hSleep hd
    obtain ⟨queue, hEq, -, done⟩ := complete_eq state owns hd
    rw [hEq]
    exact ⟨done.raw d.entry, hList⟩
  cases e with
  | new id' delay =>
      simp only [World.next] at h
      split at h
      · exact Option.some.inj h ▸ ⟨rfl, hList⟩
      · simp at h
  | schedule id' now =>
      cases hState : s.sleeps id' with
      | start delay =>
          rcases hCall : s.queue.schedule delay now with ⟨queue, result⟩
          cases result with
          | none =>
              simp only [World.next, hState, hCall, Option.some.injEq] at h
              subst h
              rcases Queue.schedule_none hCall with rfl | rfl <;> exact ⟨rfl, hList⟩
          | some d' =>
              simp only [World.next, hState, hCall, Option.some.injEq] at h
              subst h
              obtain ⟨done, -, owned, -⟩ := Queue.schedule_some owns.sound hCall
              have hNe : d.entry ≠ d'.entry := by
                intro hEq
                have hNodup := (List.nodup_append.mp owned.nodup).1
                rw [List.map_cons, List.nodup_cons] at hNodup
                exact hNodup.1 (hEq ▸ List.mem_map_of_mem hLive)
              exact ⟨congrArg RawEntry.waker (done.raw _ hNe), hList⟩
      | _ => simp [World.next, hState] at h
  | waker id' ctx =>
      cases hState : s.sleeps id' with
      | scheduled d' | polling d' =>
          simp only [World.next, hState, Option.some.injEq] at h
          have hd : (s.sleeps id').delay? = some d' := by rw [hState]; rfl
          have hNe : d.entry ≠ d'.entry := fun hEq => hApart id' d' rfl hd
            (owns.sound.owned.entry_inj (owns.held id' d' hd) hLive hEq.symm)
          subst h
          unfold World.pollWaker
          split <;> simp [World.setSleep, setWaker, hNe, hList]
      | _ => simp [World.next, hState] at h
  | complete id' =>
      cases hState : s.sleeps id' with
      | ready d' =>
          simp only [World.next, hState, Option.some.injEq] at h
          exact h ▸ hComplete id' d' .polled rfl (by rw [hState]; rfl)
      | _ => simp [World.next, hState] at h
  | polled id' =>
      simp only [World.next] at h
      split at h
      · exact Option.some.inj h ▸ ⟨rfl, hList⟩
      · simp at h
  | drop id' =>
      cases hState : s.sleeps id' with
      | start | polled =>
          simp only [World.next, hState, Option.some.injEq] at h
          exact h ▸ ⟨rfl, hList⟩
      | polling d' =>
          simp only [World.next, hState, Option.some.injEq] at h
          exact h ▸ hComplete id' d' .dropped rfl (by rw [hState]; rfl)
      | _ => simp [World.next, hState] at h
  | poll p current =>
      obtain ⟨queue, due, hPoll, -, done⟩ := poll_spec owns.sound current (s.expired p)
      have hMoved : d.entry ∉ due.map Delay.entry := fun hMoved =>
        hExpires (expires_of_moved owns hLive hPoll done hMoved)
      simp only [World.next, hPoll, Option.some.injEq] at h
      subst h
      refine ⟨done.waker d.entry, fun p' => ?_⟩
      by_cases hEq : p' = p
      · subst hEq
        simp only [Function.update_self, List.mem_append, not_or]
        exact ⟨hList p', hMoved⟩
      · simpa [hEq] using hList p'
  | process p =>
      cases hHead : s.expired p with
      | nil => simp [World.next, hHead] at h
      | cons e rest =>
          have hNot := hHead ▸ hList p
          simp only [List.mem_cons, not_or] at hNot
          simp only [World.next, hHead, Option.some.injEq] at h
          subst h
          refine ⟨by simp [setWaker, hNot.1], fun p' => ?_⟩
          by_cases hEq : p' = p
          · simpa [hEq] using hNot.2
          · simpa [hEq] using hList p'

/-- The poll of a waker with no wake recorded keeps the sleep waiting. -/
theorem waits_waker {s : World W} {id : SleepId} {d : Delay} (owns : Owns s) (ctx : W)
    (hWaker : ¬(s.queue.raw d.entry).waker.Notified) (hList : ∀ p, d.entry ∉ s.expired p) :
    Waits id d (s.pollWaker id d ctx) := by
  obtain ⟨waker, r, hPoll, -, hPending⟩ := AtomicWaker.poll_calm (owns.calm d.entry) (some ctx)
  obtain ⟨rfl, hQuiet⟩ := hPending hWaker
  unfold World.pollWaker
  rw [hPoll]
  exact Or.inl ⟨Or.inr (by simp [World.setSleep]), by simpa [World.setSleep, setWaker] using hQuiet,
    hList⟩

/-- A sleep waits until its own delay expires: only that moves its entry to a list, and
only from there the entry is woken. -/
theorem waits_next {s s' : World W} {e : Event W} {id : SleepId} {d : Delay} (owns : Owns s)
    (waits : Waits id d s) (hExpires : ¬Expires d (s, e)) (h : s.next e = some s') :
    Waits id d s' := by
  by_cases hOther : e.sleep? = some id
  · rcases waits with ⟨hState, hWaker, hList⟩ | hDropped
    · cases e with
      | waker id' ctx =>
          obtain rfl : id' = id := by simpa [Event.sleep?] using hOther
          rcases hState with hState | hState <;>
            simp only [World.next, hState, Option.some.injEq] at h <;>
            exact h ▸ waits_waker owns ctx hWaker hList
      | drop id' =>
          obtain rfl : id' = id := by simpa [Event.sleep?] using hOther
          rcases hState with hState | hState
          · simp [World.next, hState] at h
          · simp only [World.next, hState, Option.some.injEq] at h
            have hHeld : (s.sleeps id').delay? = some d := by
              rw [hState]
              rfl
            obtain ⟨queue, hEq, -⟩ := complete_eq .dropped owns hHeld
            exact h ▸ hEq ▸ Or.inr (by simp [World.setSleep])
      | poll p current => simp [Event.sleep?] at hOther
      | process p => simp [Event.sleep?] at hOther
      | _ id' =>
          obtain rfl : id' = id := by simpa [Event.sleep?] using hOther
          rcases hState with hState | hState <;> simp [World.next, hState] at h
    · cases e with
      | poll p current => simp [Event.sleep?] at hOther
      | process p => simp [Event.sleep?] at hOther
      | _ id' =>
          obtain rfl : id' = id := by simpa [Event.sleep?] using hOther
          simp [World.next, hDropped] at h
  · have hSleep := sleeps_next hOther h
    rcases waits with ⟨hState, hWaker, hList⟩ | hDropped
    · have hHeld : (s.sleeps id).delay? = some d := by
        rcases hState with hState | hState <;> rw [hState] <;> rfl
      obtain ⟨hKept, hList'⟩ := entry_next owns hHeld hOther hList hExpires h
      exact Or.inl ⟨hSleep.symm ▸ hState, hKept.symm ▸ hWaker, hList'⟩
    · exact Or.inr (hSleep.trans hDropped)

/-- Every history whose schedule calls get a fresh entry keeps the contract of
`Sleep`. -/
theorem ready_after_own_timer {started : Instant} {steps : List (World W × Event W)}
    {s : World W} (run : (system W started).Run steps s) (fresh : Meets FreshEntry steps) :
    OwnTimer steps := by
  rintro before between after sched ready id d rfl hSched hReady
  by_contra hNone
  obtain ⟨s₁, hPrior, hLast, -⟩ := System.Path.split run
  obtain ⟨s₂, hBefore, hNext, hBetween⟩ := hPrior.split
  have hReach : (system W started).Reachable sched.1 := ⟨_, hBefore⟩
  have hStart : Waits id d s₂ :=
    waits_of_schedules (reachable_owns hReach) hSched (fresh sched (by simp)) hNext
  have hWaits : Waits id d ready.1 :=
    hBetween.keeps (fun u e => ¬Expires d (u, e)) Owns (fun x hx h => hNone ⟨x, hx, h⟩)
      (fun _ _ first _ => reachable_owns ((hReach.next hNext).path first)) hStart
      fun _ _ _ owns hu hx => waits_next owns hu hx
  rcases ready with ⟨u, e⟩
  change Waits id d u at hWaits
  rcases hReady with rfl | rfl <;>
    rcases hWaits with ⟨hState | hState, -⟩ | hState <;>
    simp [system, World.next, hState] at hLast

/-- A sleep of one second that is dropped while it waits. -/
def cancelledSleep : List (Event Unit) :=
  [.new 0 (.ok 1000000000), .new 1 (.ok 1000000), .schedule 0 0, .waker 0 (), .drop 0]

/-- A sleep of one millisecond after it. -/
def nextSleep : List (Event Unit) :=
  [.schedule 1 0, .waker 1 (), .poll 0 1, .process 0, .waker 1 (), .complete 1]

/-- The second sleep gets the entry of the first, in which no wake is left over. -/
theorem ready_after_own_timer_nextSleep : ∃ steps s, (system Unit 0).Run steps s ∧
    s.sleeps 1 = .polled ∧ Meets FreshEntry steps ∧ OwnTimer steps := by
  obtain ⟨t, hFirst, hFacts⟩ := Option.map_eq_some_iff.mp
    (by decide : ((system Unit 0).replay (system Unit 0).initial cancelledSleep).map (fun t =>
      (t.queue.entryCache.cached, decide (t.queue.raw 0).waker.Notified,
        ((system Unit 0).replay t nextSleep).map fun s => s.sleeps 1)) =
      some ([0], false, some .polled))
  have hExpired : ((system Unit 0).replay (system Unit 0).initial cancelledSleep).map
      (·.expired) = some fun _ => [] := rfl
  have hUncached : ∀ x ∈ (system Unit 0).trace (system Unit 0).initial cancelledSleep,
      x.1.queue.entryCache.cached = [] := by decide
  rw [hFirst] at hExpired
  simp only [Prod.mk.injEq, Option.map_eq_some_iff, decide_eq_false_iff_not] at hFacts
  obtain ⟨hCached, hQuiet, s, hNext, hPolled⟩ := hFacts
  have run := (System.path_of_replay hFirst).trans (System.path_of_replay hNext)
  have hFresh : Meets FreshEntry ((system Unit 0).trace (system Unit 0).initial cancelledSleep ++
      (system Unit 0).trace t nextSleep) := by
    rintro ⟨u, e⟩ hx
    rcases List.mem_append.mp hx with hx | hx
    · have hEmpty : u.queue.entryCache.cached = [] := hUncached _ hx
      cases e <;> simp [FreshEntry, hEmpty]
    · rcases System.mem_trace_cons hx with hEq | hMem
      · obtain ⟨rfl, rfl⟩ := Prod.mk.inj hEq
        rintro delay - - e hLast
        obtain rfl : 0 = e := by simpa [hCached] using hLast
        exact ⟨hQuiet, fun p => by simp [Option.some.inj hExpired]⟩
      · simp only [List.mem_cons, List.not_mem_nil, or_false] at hMem
        rcases hMem with rfl | rfl | rfl | rfl | rfl <;> trivial
  exact ⟨_, s, run, hPolled, hFresh, ready_after_own_timer run hFresh⟩

/-- A sleep of one millisecond, from its schedule call to its return. -/
def oneSleep : List (Event Unit) :=
  [.schedule 0 0, .waker 0 (), .poll 0 1, .process 0, .waker 0 (), .complete 0]

/-- A second sleep, of one second, made when the first has run its course. -/
def secondSleep : List (Event Unit) :=
  .new 0 (.ok 1000000) :: oneSleep ++ [.new 1 (.ok 1000000000)]

/-- The second sleep gets the entry of the first, whose waker is still notified,
and returns `Ready` at once. -/
theorem secondSleep_ready : ¬∀ steps s, (system Unit 0).Run steps s → OwnTimer steps := by
  intro h
  obtain ⟨t, hFirst, hFacts⟩ := Option.map_eq_some_iff.mp
    (by decide : ((system Unit 0).replay (system Unit 0).initial secondSleep).map (fun t =>
      (t.sleeps 1, (t.queue.schedule (.ok 1000000000) 1000000).2,
        ((system Unit 0).replay t [.schedule 1 1000000, .waker 1 (), .complete 1]).isSome)) =
      some (.start (.ok 1000000000), some ⟨1001, 0⟩, true))
  simp only [Prod.mk.injEq, Option.isSome_iff_exists] at hFacts
  obtain ⟨hState, hSome, s, hRest⟩ := hFacts
  simp only [System.replay, List.foldlM_cons, List.foldlM_nil, Option.bind_eq_bind,
    Option.bind_eq_some_iff] at hRest
  obtain ⟨u, hSchedule, v, hWaker, w, hComplete, -⟩ := hRest
  have run := (((System.path_of_replay hFirst).step hSchedule).step hWaker).step hComplete
  obtain ⟨x, hx, p, current, hEvent, -⟩ := h _ w run _ [(u, .waker 1 ())] []
    (t, .schedule 1 1000000) (v, .complete 1) 1 ⟨1001, 0⟩ (by simp only [List.append_assoc]; rfl)
    ⟨_, _, rfl, hState, hSome⟩ (Or.inl rfl)
  obtain rfl := List.mem_singleton.mp hx
  simp at hEvent

end Yaar.Time.Sleep
