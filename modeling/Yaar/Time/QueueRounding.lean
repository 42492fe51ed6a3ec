import Yaar.Time.Sleep

/-! How `schedule` rounds a delay to the milliseconds of its queue. -/
namespace Yaar.Time.Queue

variable {W : Type*}

/-- `Deadline::MAX` milliseconds. -/
def spanNanos : Nat := Deadline.MAX * 1000000

/-- No instant at which the deadline of the delay has come is before the delay is
over, and only a delay that is over already gets no deadline. -/
def NeverEarly (q : Queue W) (now : Instant) : Except Instant Duration → Prop
  | .ok duration =>
      (∀ x, (q.schedule (.ok duration) now).2 = some x →
        ∀ t, x.deadline ≤ q.since t → now + duration ≤ t) ∧
      ((q.schedule (.ok duration) now).2 = none → duration = 0)
  | .error instant =>
      (∀ x, (q.schedule (.error instant) now).2 = some x →
        ∀ t, x.deadline ≤ q.since t → instant ≤ t) ∧
      ((q.schedule (.error instant) now).2 = none → instant ≤ now)

/-- The delay ends with a whole millisecond of the queue, or is so short that the
least delay of one millisecond covers it. -/
def Whole (q : Queue W) (now : Instant) : Except Instant Duration → Prop
  | .ok duration => duration = 0 ∨ now - q.started + duration ≤ spanNanos ∧
      (if duration < 1000000 then (now - q.started) % 1000000 + duration ≤ 1000000
      else (now - q.started) % 1000000 = 0 ∧ duration % 1000000 = 0)
  | .error instant => instant ≤ now ∨
      instant - q.started ≤ spanNanos ∧ (instant - q.started) % 1000000 = 0

/-- The deadline that `schedule` hands out. -/
theorem schedule_deadline (q : Queue W) (delay : Except Instant Duration) (now : Instant) :
    (q.schedule delay now).2.map Delay.deadline =
      if q.Late delay now then none
      else some ({ q with current := q.since now }.deadline delay) := by
  by_cases hZero : delay = .ok 0
  · simp [schedule, Late, hZero]
  · by_cases hLate : { q with current := q.since now }.deadline delay ≤ q.since now
    · simp [schedule, Late, hZero, hLate]
    · simp [schedule, Late, hZero, hLate]

/-- A call of `schedule` returns none exactly if the deadline is not after the current
time. -/
theorem schedule_none_iff (q : Queue W) (delay : Except Instant Duration) (now : Instant) :
    (q.schedule delay now).2 = none ↔ q.Late delay now := by
  have h := schedule_deadline q delay now
  constructor
  · intro hNone
    by_contra hLate
    simp [hNone, hLate] at h
  · intro hLate
    simpa [hLate] using h

/-- The delay has the deadline that was computed from its duration, after the queue has
taken the time. -/
theorem deadline_of_schedule {q : Queue W} {delay : Except Instant Duration} {now : Instant}
    {x : Delay} (h : (q.schedule delay now).2 = some x) :
    ¬q.Late delay now ∧ x.deadline = { q with current := q.since now }.deadline delay := by
  have hDeadline := schedule_deadline q delay now
  by_cases hLate : q.Late delay now
  · simp [h, hLate] at hDeadline
  · refine ⟨hLate, ?_⟩
    simpa [h, hLate] using hDeadline

/-- The time of the queue in whole milliseconds, which is where the fraction is lost. -/
theorem since_eq {q : Queue W} {t : Instant} (h : q.started ≤ t) :
    (q.since t : Nat) = min ((t - q.started) / 1000000) Deadline.MAX := by
  have hSince : q.since t = if (t - q.started) / 1000000 ≤ Deadline.MAX
      then (t - q.started) / 1000000 else Deadline.MAX := by
    simp only [since, if_pos h, asMillis]
    rfl
  rw [hSince, min_def]

theorem since_le_max (q : Queue W) (t : Instant) : (q.since t : Nat) ≤ Deadline.MAX := by
  by_cases hStarted : q.started ≤ t
  · rw [since_eq hStarted]
    exact min_le_right _ _
  · simp [since, hStarted]

/-- A deadline comes with the start of its millisecond. -/
theorem le_since_iff {q : Queue W} {d : Nat} (hPos : 0 < d) (hMax : d ≤ Deadline.MAX)
    (t : Nat) : d ≤ q.since t ↔ q.started + d * 1000000 ≤ t := by
  by_cases hStarted : q.started ≤ t
  · rw [since_eq hStarted, le_min_iff, and_iff_left hMax, Nat.le_div_iff_mul_le (by decide)]
    exact Nat.le_sub_iff_add_le' hStarted
  · have hZero : (q.since t : Nat) = 0 := by simp [since, hStarted]
    have hNever : ¬q.started + d * 1000000 ≤ t := fun h => hStarted ((Nat.le_add_right _ _).trans h)
    exact iff_of_false (Nat.not_le_of_gt (hZero ▸ hPos)) hNever

/-- A bound holds for every instant since a deadline exactly if it holds for the
first of them. -/
theorem forall_since_iff {q : Queue W} {d : Nat} (hPos : 0 < d) (hMax : d ≤ Deadline.MAX)
    (bound : Nat) :
    (∀ t : Nat, d ≤ q.since t → bound ≤ t) ↔ bound ≤ q.started + d * 1000000 := by
  constructor
  · intro h
    exact h _ ((le_since_iff hPos hMax _).mpr le_rfl)
  · intro h t ht
    exact h.trans ((le_since_iff hPos hMax t).mp ht)

/-- The deadline of a duration, saturated. -/
theorem deadline_ok (q : Queue W) (duration : Nat) :
    (q.deadline (.ok duration) : Nat) =
      if max (duration / 1000000) 1 + q.current ≤ Deadline.MAX
      then max (duration / 1000000) 1 + q.current else Deadline.MAX := by
  by_cases hFits : duration / 1000000 ≤ Deadline.MAX
  · by_cases hSum : max (duration / 1000000) 1 + q.current ≤ Deadline.MAX
    · simp [deadline, asMillis, hFits, hSum]
    · simp [deadline, asMillis, hFits, hSum]
  · have hSum : ¬max (duration / 1000000) 1 + q.current ≤ Deadline.MAX := fun hSum =>
      hFits ((le_max_left _ _).trans ((Nat.le_add_right _ _).trans hSum))
    simp [deadline, asMillis, hFits, hSum]

theorem deadline_le_max (q : Queue W) (delay : Except Instant Duration) :
    (q.deadline delay : Nat) ≤ Deadline.MAX := by
  cases delay with
  | error instant => exact since_le_max q instant
  | ok duration =>
      rw [deadline_ok]
      split_ifs with hSum
      · exact hSum
      · exact le_rfl

/-- What `NeverEarly` says of the deadline that `schedule` computes. -/
theorem neverEarly_iff {q : Queue W} {delay : Except Instant Duration} {now : Instant} {bound : Nat}
    {ended : Prop} :
    ((∀ x, (q.schedule delay now).2 = some x → ∀ t : Nat, x.deadline ≤ q.since t → bound ≤ t) ∧
        ((q.schedule delay now).2 = none → ended)) ↔
      if q.Late delay now then ended
      else bound ≤ q.started + { q with current := q.since now }.deadline delay * 1000000 := by
  split_ifs with hLate
  · have hNone := (schedule_none_iff q delay now).mpr hLate
    simp [hNone]
  · have hSome := mt (schedule_none_iff q delay now).mp hLate
    obtain ⟨x, hx⟩ := Option.ne_none_iff_exists'.mp hSome
    obtain ⟨-, hDeadline⟩ := deadline_of_schedule hx
    have hPos : 0 < x.deadline := by
      rw [hDeadline]
      unfold Late at hLate
      push Not at hLate
      exact Nat.zero_lt_of_lt hLate.2
    have hMax : x.deadline ≤ Deadline.MAX := hDeadline ▸ deadline_le_max _ delay
    rw [← hDeadline, ← forall_since_iff hPos hMax]
    simp [hx]

/-- Whether the deadline of a duration covers it, in nanoseconds. -/
theorem covers_iff {elapsed duration top current deadline : Nat} (hPos : duration ≠ 0)
    (hCurrent : current = min (elapsed / 1000000) top)
    (hDeadline : deadline = if max (duration / 1000000) 1 + current ≤ top
      then max (duration / 1000000) 1 + current else top) :
    (¬deadline ≤ current ∧ elapsed + duration ≤ deadline * 1000000) ↔
      elapsed + duration ≤ top * 1000000 ∧
        (if duration < 1000000 then elapsed % 1000000 + duration ≤ 1000000
        else elapsed % 1000000 = 0 ∧ duration % 1000000 = 0) := by
  by_cases hShort : duration < 1000000
  · rw [show max (duration / 1000000) 1 = 1 by omega] at hDeadline
    rw [if_pos hShort]
    split_ifs at hDeadline <;> omega
  · rw [show max (duration / 1000000) 1 = duration / 1000000 by omega] at hDeadline
    rw [if_neg hShort]
    split_ifs at hDeadline <;> omega

/-- For a duration: the deadline may be early by the fraction of a millisecond that is
lost from now and from the duration. -/
theorem neverEarly_ok {q : Queue W} {now : Instant} (hNow : q.started ≤ now) {duration : Nat}
    (hPos : duration ≠ 0) : q.NeverEarly now (.ok duration) ↔ q.Whole now (.ok duration) := by
  have hDeadline := deadline_ok { q with current := q.since now } duration
  have hLate : q.Late (.ok duration) now ↔
      ({ q with current := q.since now }.deadline (.ok duration) : Nat) ≤ q.since now := by
    simp [Late, hPos]
  have hCovers := covers_iff hPos (since_eq hNow) hDeadline
  refine neverEarly_iff.trans ?_
  generalize ({ q with current := q.since now } : Queue W).deadline (.ok duration) = deadline at *
  have hWhole : q.Whole now (.ok duration) ↔ _ := (or_iff_right hPos).trans hCovers.symm
  obtain ⟨elapsed, rfl⟩ := Nat.exists_eq_add_of_le hNow
  rw [hWhole, ← hLate, Nat.add_sub_cancel_left, Nat.add_assoc, Nat.add_le_add_iff_left]
  split_ifs with h
  · simp [h, hPos]
  · simp [h]

/-- Whether the deadline of an instant does not come before it, in nanoseconds. -/
theorem reaches_iff {elapsed instant top current deadline : Nat}
    (hCurrent : current = min (elapsed / 1000000) top)
    (hDeadline : deadline = min (instant / 1000000) top) :
    (if deadline ≤ current then instant ≤ elapsed else instant ≤ deadline * 1000000) ↔
      instant ≤ elapsed ∨ instant ≤ top * 1000000 ∧ instant % 1000000 = 0 := by
  rw [Nat.min_def] at hCurrent hDeadline
  split_ifs at hCurrent hDeadline ⊢ <;> omega

theorem neverEarly_error {q : Queue W} {now : Instant} (hNow : q.started ≤ now) (instant : Nat) :
    q.NeverEarly now (.error instant) ↔ q.Whole now (.error instant) := by
  have hLate : q.Late (.error instant) now ↔ (q.since instant : Nat) ≤ q.since now := by
    simp [Late, deadline, since]
  refine neverEarly_iff.trans ?_
  by_cases hStarted : q.started ≤ instant
  · have hReaches := reaches_iff (since_eq hNow) (since_eq hStarted)
    obtain ⟨elapsed, rfl⟩ := Nat.exists_eq_add_of_le hNow
    obtain ⟨delay, rfl⟩ := Nat.exists_eq_add_of_le hStarted
    have hWhole : q.Whole (q.started + elapsed) (.error (q.started + delay)) ↔
        delay ≤ elapsed ∨ delay ≤ spanNanos ∧ delay % 1000000 = 0 := by
      change q.started + delay ≤ q.started + elapsed ∨ q.started + delay - q.started ≤ spanNanos ∧
        (q.started + delay - q.started) % 1000000 = 0 ↔ _
      rw [Nat.add_sub_cancel_left, Nat.add_le_add_iff_left]
    rw [Nat.add_sub_cancel_left, Nat.add_sub_cancel_left] at hReaches
    have hDeadline : ({ q with current := q.since (q.started + elapsed) }.deadline
        (.error (q.started + delay)) : Nat) = q.since (q.started + delay) := rfl
    refine Iff.trans ?_ (hReaches.trans hWhole.symm)
    rw [hDeadline]
    by_cases hDue : q.Late (.error (q.started + delay)) (q.started + elapsed)
    · rw [if_pos hDue, if_pos (hLate.mp hDue), Nat.add_le_add_iff_left]
    · rw [if_neg hDue, if_neg (mt hLate.mpr hDue), Nat.add_le_add_iff_left]
  · have hZero : (q.since instant : Nat) = 0 := by simp [since, hStarted]
    have hBefore : instant ≤ now := (Nat.le_of_not_le hStarted).trans hNow
    have hDue : q.Late (.error instant) now := hLate.mpr (hZero ▸ Nat.zero_le _)
    rw [if_pos hDue]
    exact iff_of_true hBefore (Or.inl hBefore)

/-- A delay is never early exactly if it ends with a whole millisecond of the queue,
or is covered by the least delay there is. -/
theorem neverEarly_iff_whole (q : Queue W) (now : Instant) (hNow : q.started ≤ now)
    (delay : Except Instant Duration) : q.NeverEarly now delay ↔ q.Whole now delay := by
  cases delay with
  | error instant => exact neverEarly_error hNow instant
  | ok duration =>
      by_cases hZero : duration = 0
      · exact iff_of_true (by simp [NeverEarly, schedule, hZero]) (Or.inl hZero)
      · exact neverEarly_ok hNow hZero

/-- Two milliseconds from the start of the queue. -/
theorem neverEarly_iff_whole_twoMillis :
    (.new 0 : Queue Unit).NeverEarly 0 (.ok 2000000) ↔ (.new 0 : Queue Unit).Whole 0 (.ok 2000000) :=
  neverEarly_iff_whole (.new 0) 0 (Nat.le_refl 0) (.ok 2000000)

/-- A delay of one and a half milliseconds ends after the first of them. -/
theorem halfMilli_early : ¬∀ (q : Queue Unit) (now : Instant), q.started ≤ now →
    ∀ delay, q.NeverEarly now delay := by
  intro h
  have hEarly := (h (.new 0) 0 (Nat.le_refl 0) (.ok 1500000)).1 ⟨1, 0⟩ (by decide) 1000000 (by decide)
  exact absurd hEarly (by decide)

end Yaar.Time.Queue
