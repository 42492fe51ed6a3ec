import Yaar.Runtime.PollWorker

/-! What a search that fails has looked at. -/
namespace Yaar.Runtime.PollWorker

variable {target : Target} {S R : Type}

/-- What a call says of a queue: the injector, or the run queue of a worker. -/
@[simp] def Event.answerOf : Option Nat → Event R → Option (Steal R)
  | none, .consume _ answer => some answer
  | some workerIndex, .steal _ stealIndex answer =>
      if stealIndex = workerIndex then some answer else none
  | _, _ => none

def answers (queue : Option Nat) (events : List (Event R)) : List (Steal R) :=
  events.filterMap (Event.answerOf queue)

/-- The answer at the last visit of a queue. -/
def lastAnswer (queue : Option Nat) (events : List (Event R)) : Option (Steal R) :=
  (answers queue events).getLast?

@[simp] def Event.beginsAttempt : Event R → Bool
  | .consume attempt _ => attempt.isSome
  | _ => false

def attempts (events : List (Event R)) : Nat := events.countP Event.beginsAttempt

/-- A queue that answers `Retry` in this attempt. -/
@[simp] def Event.retries (attempt : Nat) : Event R → Bool
  | .consume begun answer => begun == some attempt && answer.isRetry
  | .steal begun _ answer => begun == attempt && answer.isRetry
  | _ => false

def Contended (attempt : Nat) (events : List (Event R)) : Prop :=
  ∃ event ∈ events, event.retries attempt

/-- The queues that a worker searches besides its own. -/
def Searched (workers : Workers target) (workerIndex : Nat) : Option Nat → Prop
  | none => True
  | some stealIndex => stealIndex < workers.count.get ∧ stealIndex ≠ workerIndex

structure LookedEverywhere (workers : Workers target) (workerIndex : Nat)
    (events : List (Event R)) : Prop where
  timers : ∀ stealIndex < workers.count.get, stealIndex ≠ workerIndex →
    ∃ answer, .pollTimers stealIndex answer ∈ events
  queues : ∀ queue, Searched workers workerIndex queue → lastAnswer queue events = some .empty

/-! ## Calls one after another -/

@[simp] theorem answers_append (queue : Option Nat) (first second : List (Event R)) :
    answers queue (first ++ second) = answers queue first ++ answers queue second :=
  List.filterMap_append

theorem answers_cons (queue : Option Nat) (event : Event R) (events : List (Event R)) :
    answers queue (event :: events) = (event.answerOf queue).toList ++ answers queue events := by
  rw [answers, List.filterMap_cons]
  cases event.answerOf queue <;> rfl

theorem lastAnswer_append {queue : Option Nat} {answer : Steal R} (first : List (Event R))
    {second : List (Event R)} (h : lastAnswer queue second = some answer) :
    lastAnswer queue (first ++ second) = some answer := by
  rw [lastAnswer, answers_append, List.getLast?_append, show (answers queue second).getLast? =
    some answer from h, Option.some_or]

@[simp] theorem attempts_append (first second : List (Event R)) :
    attempts (first ++ second) = attempts first + attempts second := List.countP_append

@[simp] theorem contended_append {attempt : Nat} {first second : List (Event R)} :
    Contended attempt (first ++ second) ↔ Contended attempt first ∨ Contended attempt second := by
  simp [Contended, or_and_right, exists_or]

@[simp] theorem contended_cons {attempt : Nat} {event : Event R} {events : List (Event R)} :
    Contended attempt (event :: events) ↔ event.retries attempt = true ∨ Contended attempt events := by
  simp [Contended]

@[simp] theorem not_contended_nil (attempt : Nat) : ¬Contended attempt ([] : List (Event R)) := by
  simp [Contended]

/-! ## One attempt -/

/-- The calls of the victims that are visited, when none gives a runnable. The flag
is `was_contended` before and after. -/
inductive Pass (workerIndex retries attempt : Nat) :
    List Nat → Bool → List (Event R) → Bool → Prop where
  | done (contended : Bool) : Pass workerIndex retries attempt [] contended [] contended
  | own {victims : List Nat} {contended contended' : Bool} {events : List (Event R)}
      (rest : Pass workerIndex retries attempt victims contended events contended') :
      Pass workerIndex retries attempt (workerIndex :: victims) contended events contended'
  | empty {stealIndex : Nat} {victims : List Nat} {events : List (Event R)} {contended' : Bool}
      (other : stealIndex ≠ workerIndex) (early : retries ≠ 1 ∧ attempt ≠ MAX_ATTEMPTS - 1)
      (rest : Pass workerIndex retries attempt victims false events contended') :
      Pass workerIndex retries attempt (stealIndex :: victims) false
        (.steal attempt stealIndex .empty :: events) contended'
  | timers {stealIndex : Nat} {victims : List Nat} {events : List (Event R)} {contended' : Bool}
      (other : stealIndex ≠ workerIndex) (late : retries = 1 ∨ attempt = MAX_ATTEMPTS - 1)
      (rest : Pass workerIndex retries attempt victims false events contended') :
      Pass workerIndex retries attempt (stealIndex :: victims) false
        (.steal attempt stealIndex .empty :: .pollTimers stealIndex none :: events) contended'
  | contended {stealIndex : Nat} {victims : List Nat} {contended contended' : Bool}
      {answer : Steal R} {events : List (Event R)} (other : stealIndex ≠ workerIndex)
      (answered : answer = .retry ∨ answer = .empty ∧ contended = true)
      (rest : Pass workerIndex retries attempt victims true events contended') :
      Pass workerIndex retries attempt (stealIndex :: victims) contended
        (.steal attempt stealIndex answer :: events) contended'

namespace Pass

variable {workerIndex retries attempt : Nat} {victims : List Nat} {contended contended' : Bool}
  {events : List (Event R)}

/-- A pass ends contended when it begins so, or a victim answers `Retry`. -/
theorem contended_iff
    (pass : Pass workerIndex retries attempt victims contended events contended') :
    contended' = true ↔ contended = true ∨ Contended attempt events := by
  induction pass with
  | done contended => simp
  | own rest ih => exact ih
  | empty other early rest ih => simpa using ih
  | timers other late rest ih => simpa using ih
  | contended other answered rest ih =>
      have hAfter := ih.mpr (.inl rfl)
      rcases answered with rfl | ⟨rfl, hBefore⟩
      · simp [hAfter]
      · simp [hAfter, hBefore]

theorem only {other : Nat}
    (pass : Pass workerIndex retries attempt victims contended events contended')
    (h : Contended other events) : attempt = other := by
  induction pass with
  | done contended => exact absurd h (not_contended_nil other)
  | own rest ih => exact ih h
  | empty _ early rest ih => exact ih (by simpa using h)
  | timers _ late rest ih => exact ih (by simpa using h)
  | contended _ answered rest ih =>
      rcases contended_cons.mp h with hHead | hRest
      · simp only [Event.retries, Bool.and_eq_true, beq_iff_eq] at hHead
        exact hHead.1
      · exact ih hRest

theorem injector (pass : Pass workerIndex retries attempt victims contended events contended') :
    answers none events = [] := by
  induction pass with
  | done contended => rfl
  | own rest ih => exact ih
  | empty other early rest ih => simpa [answers, Event.answerOf] using ih
  | timers other late rest ih => simpa [answers, Event.answerOf] using ih
  | contended other answered rest ih => simpa [answers, Event.answerOf] using ih

/-- A late pass that is not contended looks at the timers of all victims. -/
theorem timers_mem
    (pass : Pass workerIndex retries attempt victims contended events contended')
    (hLate : retries = 1 ∨ attempt = MAX_ATTEMPTS - 1) (hQuiet : contended' = false) :
    ∀ stealIndex ∈ victims, stealIndex ≠ workerIndex → .pollTimers stealIndex none ∈ events := by
  induction pass with
  | done contended => simp
  | own rest ih =>
      intro stealIndex member hOther
      exact ih hQuiet stealIndex ((List.mem_cons.mp member).resolve_left hOther) hOther
  | empty other early rest ih => exact absurd hLate (by simpa using early)
  | timers other late rest ih =>
      intro stealIndex member hOther
      rcases List.mem_cons.mp member with rfl | member
      · simp
      · simp [ih hQuiet stealIndex member hOther]
  | contended other answered rest ih =>
      have hAfter := rest.contended_iff.mpr (.inl rfl)
      rw [hQuiet] at hAfter
      cases hAfter

/-- What a victim answers first, when it is not visited again. -/
theorem answers_head {stealIndex : Nat} {answer : Steal R}
    (h : answers (some stealIndex) events = []) :
    answers (some stealIndex) (.steal attempt stealIndex answer :: events) = [answer] := by
  simp [answers_cons, h]

theorem answers_tail {stealIndex other : Nat} {answer : Steal R} (h : other ≠ stealIndex) :
    answers (some stealIndex) (.steal attempt other answer :: events) =
      answers (some stealIndex) events := by
  simp [answers_cons, h]

/-- A worker that is no victim answers nothing. -/
theorem answers_absent {stealIndex : Nat}
    (pass : Pass workerIndex retries attempt victims contended events contended')
    (h : stealIndex ∉ victims) : answers (some stealIndex) events = [] := by
  induction pass with
  | done contended => rfl
  | own rest ih => exact ih (List.not_mem_of_not_mem_cons h)
  | empty other early rest ih =>
      rw [answers_tail (List.ne_of_not_mem_cons h).symm]
      exact ih (List.not_mem_of_not_mem_cons h)
  | timers other late rest ih =>
      rw [answers_tail (List.ne_of_not_mem_cons h).symm]
      exact ih (List.not_mem_of_not_mem_cons h)
  | contended other answered rest ih =>
      rw [answers_tail (List.ne_of_not_mem_cons h).symm]
      exact ih (List.not_mem_of_not_mem_cons h)

/-- A victim that is visited once answers once, with `Empty` or `Retry`. -/
theorem answers_once {stealIndex : Nat}
    (pass : Pass workerIndex retries attempt victims contended events contended')
    (hNodup : victims.Nodup) (h : stealIndex ∈ victims) (hOther : stealIndex ≠ workerIndex) :
    answers (some stealIndex) events = [.empty] ∨
      answers (some stealIndex) events = [.retry] ∧ Contended attempt events := by
  induction pass with
  | done contended => simp at h
  | own rest ih => exact ih hNodup.of_cons ((List.mem_cons.mp h).resolve_left hOther)
  | @empty head victims events contended' other early rest ih =>
      by_cases hHead : head = stealIndex
      · subst hHead
        exact .inl (answers_head (rest.answers_absent hNodup.notMem))
      · rw [answers_tail hHead]
        simpa [answers_cons] using ih hNodup.of_cons ((List.mem_cons.mp h).resolve_left (Ne.symm hHead))
  | @timers head victims events contended' other late rest ih =>
      by_cases hHead : head = stealIndex
      · subst hHead
        exact .inl (answers_head (rest.answers_absent hNodup.notMem))
      · rw [answers_tail hHead]
        simpa [answers_cons] using ih hNodup.of_cons ((List.mem_cons.mp h).resolve_left (Ne.symm hHead))
  | @contended head victims contended contended' answer events other answered rest ih =>
      by_cases hHead : head = stealIndex
      · subst hHead
        rw [answers_head (rest.answers_absent hNodup.notMem)]
        rcases answered with rfl | ⟨rfl, _⟩
        · exact .inr ⟨rfl, by simp⟩
        · exact .inl rfl
      · rw [answers_tail hHead]
        rcases ih hNodup.of_cons ((List.mem_cons.mp h).resolve_left (Ne.symm hHead)) with
          hEmpty | ⟨hRetry, hContended⟩
        · exact .inl hEmpty
        · exact .inr ⟨hRetry, contended_cons.mpr (.inr hContended)⟩

/-- Of a pass that a victim makes contended, some victim answers `Retry`. -/
theorem exists_retry
    (pass : Pass workerIndex retries attempt victims contended events contended')
    (h : Contended attempt events) :
    ∃ stealIndex ∈ victims, stealIndex ≠ workerIndex ∧
      .retry ∈ answers (some stealIndex) events := by
  induction pass with
  | done contended => exact absurd h (not_contended_nil attempt)
  | own rest ih =>
      obtain ⟨stealIndex, member, hOther, hRetry⟩ := ih h
      exact ⟨stealIndex, List.mem_cons_of_mem _ member, hOther, hRetry⟩
  | empty other early rest ih =>
      obtain ⟨stealIndex, member, hOther, hRetry⟩ := ih (by simpa using h)
      exact ⟨stealIndex, List.mem_cons_of_mem _ member, hOther, by simp [answers_cons, hRetry]⟩
  | timers other late rest ih =>
      obtain ⟨stealIndex, member, hOther, hRetry⟩ := ih (by simpa using h)
      exact ⟨stealIndex, List.mem_cons_of_mem _ member, hOther, by simp [answers_cons, hRetry]⟩
  | @contended head victims contended contended' answer events other answered rest ih =>
      rcases answered with rfl | ⟨rfl, _⟩
      · exact ⟨head, List.mem_cons_self, other, by simp [answers_cons]⟩
      · obtain ⟨stealIndex, member, hOther, hRetry⟩ := ih (by simpa using h)
        exact ⟨stealIndex, List.mem_cons_of_mem _ member, hOther, by simp [answers_cons, hRetry]⟩

end Pass

/-- The calls of one attempt that gives no runnable. -/
structure Attempt (R : Type) (workers : Workers target) (workerIndex retries attempt : Nat)
    (contended : Bool) where
  answer : Steal R
  answered : answer = .empty ∨ answer = .retry
  victims : List Nat
  visited : victims.Perm (List.range workers.count.get)
  calls : List (Event R)
  pass : Pass workerIndex retries attempt victims answer.isRetry calls contended

namespace Attempt

variable {workers : Workers target} {workerIndex retries attempt : Nat} {contended : Bool}

def events (a : Attempt R workers workerIndex retries attempt contended) : List (Event R) :=
  .consume (some attempt) a.answer :: a.calls

theorem nodup (a : Attempt R workers workerIndex retries attempt contended) :
    a.victims.Nodup := a.visited.nodup_iff.mpr List.nodup_range

theorem mem_victims (a : Attempt R workers workerIndex retries attempt contended)
    {stealIndex : Nat} (h : stealIndex < workers.count.get) : stealIndex ∈ a.victims :=
  a.visited.mem_iff.mpr (List.mem_range.mpr h)

theorem injector (a : Attempt R workers workerIndex retries attempt contended) :
    answers none a.events = [a.answer] := by
  rw [events, answers_cons, a.pass.injector]
  rfl

theorem runQueue (a : Attempt R workers workerIndex retries attempt contended)
    (stealIndex : Nat) : answers (some stealIndex) a.events = answers (some stealIndex) a.calls := by
  rw [events, answers_cons]
  rfl

theorem contended_iff (a : Attempt R workers workerIndex retries attempt contended) :
    contended = true ↔ Contended attempt a.events := by
  rw [a.pass.contended_iff, events, contended_cons]
  simp

theorem only {other : Nat} (a : Attempt R workers workerIndex retries attempt contended)
    (h : Contended other a.events) : attempt = other := by
  rw [events, contended_cons] at h
  rcases h with hHead | hRest
  · simp only [Event.retries, Bool.and_eq_true, beq_iff_eq, Option.some.injEq] at hHead
    exact hHead.1
  · exact a.pass.only hRest

/-- An attempt that is not contended finds all queues empty. -/
theorem quiet (a : Attempt R workers workerIndex retries attempt false) {queue : Option Nat}
    (h : Searched workers workerIndex queue) : lastAnswer queue a.events = some .empty := by
  have hQuiet : ¬Contended attempt a.events := by
    intro hContended
    cases a.contended_iff.mpr hContended
  rw [events, contended_cons, not_or] at hQuiet
  cases queue with
  | none =>
      rcases a.answered with hEmpty | hRetry
      · rw [lastAnswer, a.injector, hEmpty]
        rfl
      · exact absurd (by simp [hRetry]) hQuiet.1
  | some stealIndex =>
      rw [lastAnswer, a.runQueue]
      rcases a.pass.answers_once a.nodup (a.mem_victims h.1) h.2 with hEmpty | ⟨_, hContended⟩
      · rw [hEmpty]
        rfl
      · exact absurd hContended hQuiet.2

/-- One that is contended leaves a queue that has answered `Retry`. -/
theorem retried (a : Attempt R workers workerIndex retries attempt contended)
    (h : Contended attempt a.events) :
    ∃ queue, Searched workers workerIndex queue ∧ lastAnswer queue a.events = some .retry := by
  rw [events, contended_cons] at h
  rcases h with hHead | hRest
  · refine ⟨none, trivial, ?_⟩
    rw [lastAnswer, a.injector]
    rcases a.answered with hEmpty | hRetry
    · simp [hEmpty] at hHead
    · rw [hRetry]
      rfl
  · obtain ⟨stealIndex, member, hOther, hRetry⟩ := a.pass.exists_retry hRest
    have hLt : stealIndex < workers.count.get :=
      List.mem_range.mp (a.visited.mem_iff.mp member)
    refine ⟨some stealIndex, ⟨hLt, hOther⟩, ?_⟩
    rw [lastAnswer, a.runQueue]
    rcases a.pass.answers_once a.nodup member hOther with hEmpty | ⟨hOnce, _⟩
    · simp [hEmpty] at hRetry
    · rw [hOnce]
      rfl

/-- A late attempt that is not contended looks at all timers. -/
theorem timers (a : Attempt R workers workerIndex retries attempt false)
    (hLate : retries = 1 ∨ attempt = MAX_ATTEMPTS - 1) {stealIndex : Nat}
    (h : stealIndex < workers.count.get) (hOther : stealIndex ≠ workerIndex) :
    .pollTimers stealIndex none ∈ a.events := by
  rw [events]
  exact List.mem_cons_of_mem _ (a.pass.timers_mem hLate rfl stealIndex (a.mem_victims h) hOther)

end Attempt

/-! ## The attempts -/

/-- The calls of a search that gives no runnable, with so many attempts and retries
left at its beginning. -/
inductive Failed (workers : Workers target) (workerIndex : Nat) :
    Nat → Nat → List (Event R) → Prop where
  | exhausted (retries : Nat) : Failed workers workerIndex 0 retries []
  | again {left retries : Nat} {rest : List (Event R)} {contended : Bool}
      (attempt : Attempt R workers workerIndex retries (MAX_ATTEMPTS - (left + 1)) contended)
      (more : Failed workers workerIndex left (retries - (!contended).toNat) rest) :
      Failed workers workerIndex (left + 1) retries (attempt.events ++ rest)
  | stopped {left : Nat}
      (attempt : Attempt R workers workerIndex 0 (MAX_ATTEMPTS - (left + 1)) false) :
      Failed workers workerIndex (left + 1) 0 attempt.events

namespace Failed

variable {workers : Workers target} {workerIndex left retries : Nat} {events : List (Event R)}

/-- No attempt is made when none is left. -/
theorem nil (failed : Failed workers workerIndex 0 retries events) : events = [] := by
  cases failed
  rfl

/-- When the last attempt is not contended, each queue is found empty at the end. -/
theorem queues (failed : Failed workers workerIndex left retries events) (hLeft : 0 < left)
    (hMax : left ≤ MAX_ATTEMPTS) (hQuiet : ¬Contended (MAX_ATTEMPTS - 1) events)
    {queue : Option Nat} (h : Searched workers workerIndex queue) :
    lastAnswer queue events = some .empty := by
  induction failed with
  | exhausted retries => omega
  | @again left retries rest contended attempt more ih =>
      rw [contended_append, not_or] at hQuiet
      cases left with
      | succ left => exact lastAnswer_append attempt.events (ih (by omega) (by omega) hQuiet.2)
      | zero =>
          have hContended : contended = false := by
            simpa using mt attempt.contended_iff.mp hQuiet.1
          subst hContended
          rw [more.nil, List.append_nil]
          exact attempt.quiet h
  | stopped attempt => exact attempt.quiet h

/-- When it is contended, some queue has answered `Retry` at the end. -/
theorem retried (failed : Failed workers workerIndex left retries events)
    (hMax : left ≤ MAX_ATTEMPTS) (h : Contended (MAX_ATTEMPTS - 1) events) :
    ∃ queue, Searched workers workerIndex queue ∧ lastAnswer queue events = some .retry := by
  induction failed with
  | exhausted retries => exact absurd h (not_contended_nil _)
  | @again left retries rest contended attempt more ih =>
      rcases contended_append.mp h with hHead | hRest
      · have hLast : MAX_ATTEMPTS - (left + 1) = MAX_ATTEMPTS - 1 := attempt.only hHead
        have hLeft : left = 0 := by omega
        subst hLeft
        rw [more.nil, List.append_nil]
        exact attempt.retried hHead
      · obtain ⟨queue, hSearched, hRetry⟩ := ih (by omega) hRest
        exact ⟨queue, hSearched, lastAnswer_append attempt.events hRetry⟩
  | stopped attempt =>
      have hLast := attempt.only h
      exact attempt.retried ((congrArg (Contended · attempt.events) hLast).mpr h)

/-- When it is not, the timers of each other worker have been looked at. -/
theorem timers (failed : Failed workers workerIndex left retries events) (hLeft : 0 < left)
    (hRetries : 0 < retries) (hQuiet : ¬Contended (MAX_ATTEMPTS - 1) events) {stealIndex : Nat}
    (h : stealIndex < workers.count.get) (hOther : stealIndex ≠ workerIndex) :
    .pollTimers stealIndex none ∈ events := by
  induction failed with
  | exhausted retries => omega
  | stopped attempt => omega
  | @again left retries rest contended attempt more ih =>
      rw [contended_append, not_or] at hQuiet
      by_cases hLate : contended = false ∧ (retries = 1 ∨ left = 0)
      · obtain ⟨hContended, hLate⟩ := hLate
        subst hContended
        apply List.mem_append_left
        exact attempt.timers (hLate.imp_right fun hLeft => by omega) h hOther
      · apply List.mem_append_right
        have hMore : 0 < left := by
          by_contra hNone
          have hLast : left = 0 := by omega
          subst hLast
          have hContended : contended = false := by
            simpa using mt attempt.contended_iff.mp hQuiet.1
          exact hLate ⟨hContended, .inr rfl⟩
        have hStill : 0 < retries - (!contended).toNat := by
          cases contended with
          | true => simpa using hRetries
          | false =>
              simp only [true_and, not_or] at hLate
              simp only [Bool.not_false, Bool.toNat_true]
              omega
        exact ih hMore hStill hQuiet.2

end Failed

/-! ## The loops -/

namespace Outside

variable {outside : Outside S R} {workers : Workers target} {workerIndex retries attempt : Nat}

/-- A victim that gives no runnable comes first in the pass. -/
theorem stealFrom_pass {stealIndex : Nat} {victims : List Nat} {contended contended' : Bool}
    {events : List (Event R)} {turn : Turn target S} (hOther : stealIndex ≠ workerIndex)
    (h : (outside.stealFrom retries attempt stealIndex contended turn).1.runnable = none)
    (rest : Pass workerIndex retries attempt victims
      (outside.stealFrom retries attempt stealIndex contended turn).2 events contended') :
    Pass workerIndex retries attempt (stealIndex :: victims) contended
      ((outside.stealFrom retries attempt stealIndex contended turn).1.events ++ events)
      contended' := by
  unfold stealFrom at h rest ⊢
  cases hSteal : (outside.steal stealIndex turn.outside).1 with
  | success runnable => simp [hSteal] at h
  | retry =>
      simp only [hSteal, Steal.isRetry, Bool.or_true, Bool.not_true, Bool.false_and] at h rest ⊢
      exact .contended hOther (.inl rfl) rest
  | empty =>
      simp only [hSteal, Steal.isRetry, Bool.or_false] at h rest ⊢
      cases contended with
      | true => exact .contended hOther (.inr ⟨rfl, rfl⟩) rest
      | false =>
          by_cases hLate : retries = 1 ∨ attempt = MAX_ATTEMPTS - 1
          · have hTimers : (!false && (retries == 1 || attempt == MAX_ATTEMPTS - 1)) = true := by
              simpa using hLate
            rw [if_pos hTimers] at h rest ⊢
            simp only at h
            rw [h]
            exact .timers hOther hLate rest
          · have hTimers : ¬(!false && (retries == 1 || attempt == MAX_ATTEMPTS - 1)) = true := by
              simpa using hLate
            rw [if_neg hTimers] at h rest ⊢
            exact .empty hOther (not_or.mp hLate) rest

/-- The visit of a victim begins no attempt and leaves the flag of the context. -/
theorem stealFrom_keeps (outside : Outside S R) (retries attempt stealIndex : Nat)
    (contended : Bool) (turn : Turn target S) :
    attempts (outside.stealFrom retries attempt stealIndex contended turn).1.events = 0 ∧
      (outside.stealFrom retries attempt stealIndex contended turn).1.turn.searching =
        turn.searching := by
  unfold stealFrom
  rcases hSteal : outside.steal stealIndex turn.outside with ⟨answer, s⟩
  cases answer with
  | success runnable => exact ⟨rfl, rfl⟩
  | retry =>
      simp only
      split
      · exact ⟨rfl, rfl⟩
      · exact ⟨rfl, rfl⟩
  | empty =>
      simp only
      split
      · exact ⟨rfl, rfl⟩
      · exact ⟨rfl, rfl⟩

/-- A victim that is not the worker itself is stolen from before the others. -/
theorem visit_cons_of_ne {stealIndex : Nat} (h : stealIndex ≠ workerIndex) (victims : List Nat)
    (contended : Bool) (turn : Turn target S) :
    outside.visit workerIndex retries attempt (stealIndex :: victims) contended turn =
      let stolen := outside.stealFrom retries attempt stealIndex contended turn
      if stolen.1.runnable.isSome then stolen else
        let others := outside.visit workerIndex retries attempt victims stolen.2 stolen.1.turn
        (others.1.after stolen.1.events, others.2) := by
  rw [visit, if_neg h]

/-- A visit of all victims that gives no runnable is a pass. -/
theorem visit_pass {victims : List Nat} {contended : Bool} {turn : Turn target S}
    (h : (outside.visit workerIndex retries attempt victims contended turn).1.runnable = none) :
    Pass workerIndex retries attempt victims contended
      (outside.visit workerIndex retries attempt victims contended turn).1.events
      (outside.visit workerIndex retries attempt victims contended turn).2 := by
  induction victims generalizing contended turn with
  | nil => exact .done contended
  | cons stealIndex victims ih =>
      by_cases hOwn : stealIndex = workerIndex
      · subst hOwn
        simp only [visit, if_true] at h ⊢
        exact .own (ih h)
      · rw [visit_cons_of_ne hOwn] at h ⊢
        by_cases hSome : (outside.stealFrom retries attempt stealIndex contended
            turn).1.runnable.isSome
        · simp only [hSome, if_true] at h
          simp [h] at hSome
        · simp only [hSome] at h ⊢
          exact stealFrom_pass hOwn (by simpa using hSome) (ih h)

/-- To visit the victims begins no attempt and leaves the flag of the context. -/
theorem visit_keeps (outside : Outside S R) (workerIndex retries attempt : Nat)
    (victims : List Nat) (contended : Bool) (turn : Turn target S) :
    attempts (outside.visit workerIndex retries attempt victims contended turn).1.events = 0 ∧
      (outside.visit workerIndex retries attempt victims contended turn).1.turn.searching =
        turn.searching := by
  induction victims generalizing contended turn with
  | nil => exact ⟨rfl, rfl⟩
  | cons stealIndex victims ih =>
      by_cases hOwn : stealIndex = workerIndex
      · subst hOwn
        simpa [visit] using ih contended turn
      · rw [visit_cons_of_ne hOwn]
        have hKeeps := outside.stealFrom_keeps retries attempt stealIndex contended turn
        by_cases hSome : (outside.stealFrom retries attempt stealIndex contended
            turn).1.runnable.isSome
        · simp only [hSome, if_true]
          exact hKeeps
        · obtain ⟨hAttempts, hSearching⟩ := ih
            (outside.stealFrom retries attempt stealIndex contended turn).2
            (outside.stealFrom retries attempt stealIndex contended turn).1.turn
          simp only [hSome]
          exact ⟨by simp [hAttempts, hKeeps.1], hSearching.trans hKeeps.2⟩

/-- An attempt in which the injector gives no runnable. -/
theorem search_succ {left : Nat} {turn : Turn target S} {answer : Steal R} {s : S}
    {victims : List Nat} {rng : RandomGenerator target} {polled : Polled target S R}
    {contended : Bool} (hConsume : outside.consume turn.outside = (answer, s))
    (hAnswered : answer = .empty ∨ answer = .retry)
    (hVictims : turn.rng.genIter workers.rngIterSource = .ok (victims, rng))
    (hVisit : outside.visit workerIndex retries (MAX_ATTEMPTS - (left + 1)) victims answer.isRetry
      ⟨turn.searching, rng, s⟩ = (polled, contended)) :
    outside.search workers workerIndex (left + 1) retries turn =
      if polled.runnable.isSome then
        .ok (polled.after [.consume (some (MAX_ATTEMPTS - (left + 1))) answer])
      else if contended || retries > 0 then do
        let retries ← target.sub retries (!contended).toNat
        let others ← outside.search workers workerIndex left retries polled.turn
        return others.after (.consume (some (MAX_ATTEMPTS - (left + 1))) answer :: polled.events)
      else .ok (polled.after [.consume (some (MAX_ATTEMPTS - (left + 1))) answer]) := by
  rcases hAnswered with rfl | rfl
  · rw [search]
    simp only [hConsume, hVictims, bind, Except.bind, hVisit]
    rfl
  · rw [search]
    simp only [hConsume, hVictims, bind, Except.bind, hVisit]
    rfl

/-- A search ends within its attempts, and has looked at what `Failed` says when it
gives no runnable. -/
theorem search_ok (outside : Outside S R) (workers : Workers target) (workerIndex : Nat)
    (left retries : Nat) (turn : Turn target S) :
    ∃ polled, outside.search workers workerIndex left retries turn = .ok polled ∧
      attempts polled.events ≤ left ∧ polled.turn.searching = turn.searching ∧
      (polled.runnable = none → Failed workers workerIndex left retries polled.events) := by
  induction left generalizing retries turn with
  | zero => exact ⟨_, rfl, Nat.le_refl 0, rfl, fun _ => .exhausted retries⟩
  | succ left ih =>
      rcases hConsume : outside.consume turn.outside with ⟨answer, s⟩
      by_cases hSuccess : ∃ runnable, answer = .success runnable
      · obtain ⟨runnable, rfl⟩ := hSuccess
        refine ⟨⟨some runnable, { turn with outside := s },
          [.consume (some (MAX_ATTEMPTS - (left + 1))) (.success runnable)]⟩, ?_, ?_, rfl, by simp⟩
        · rw [search]
          simp only [hConsume]
          rfl
        · show 1 ≤ left + 1
          omega
      have hAnswered : answer = .empty ∨ answer = .retry := by
        cases answer with
        | empty => exact .inl rfl
        | success runnable => exact absurd ⟨runnable, rfl⟩ hSuccess
        | retry => exact .inr rfl
      obtain ⟨victims, hVictims, hPerm⟩ := RandomGenerator.genIter_perm workers.source workers.fits turn.rng
      rcases hVisit : outside.visit workerIndex retries (MAX_ATTEMPTS - (left + 1)) victims
        answer.isRetry ⟨turn.searching, turn.rng.next, s⟩ with ⟨polled, contended⟩
      have hKeeps := outside.visit_keeps workerIndex retries (MAX_ATTEMPTS - (left + 1)) victims
        answer.isRetry ⟨turn.searching, turn.rng.next, s⟩
      rw [hVisit] at hKeeps
      have hOne : attempts (.consume (some (MAX_ATTEMPTS - (left + 1))) answer :: polled.events) = 1 := by
        rw [attempts, List.countP_cons, show polled.events.countP Event.beginsAttempt = 0 from hKeeps.1]
        rfl
      rw [search_succ hConsume hAnswered hVictims hVisit]
      by_cases hSome : polled.runnable.isSome
      · rw [if_pos hSome]
        refine ⟨_, rfl, ?_, hKeeps.2, fun hNone => ?_⟩
        · show attempts (_ :: polled.events) ≤ left + 1
          omega
        · rw [Polled.after_runnable] at hNone
          simp [hNone] at hSome
      rw [if_neg hSome]
      have hNone : polled.runnable = none := by simpa using hSome
      have hPass := visit_pass (by rw [hVisit]; exact hNone)
      rw [hVisit] at hPass
      let attempt : Attempt R workers workerIndex retries (MAX_ATTEMPTS - (left + 1)) contended :=
        ⟨answer, hAnswered, victims, hPerm, polled.events, hPass⟩
      by_cases hAgain : (contended || decide (retries > 0)) = true
      · rw [if_pos hAgain]
        have hSub : (!contended).toNat ≤ retries := by
          cases contended with
          | true => exact Nat.zero_le _
          | false => exact Nat.succ_le_of_lt (by simpa using hAgain)
        obtain ⟨others, hSearch, hAttempts, hSearching, hFailed⟩ :=
          ih (retries - (!contended).toNat) polled.turn
        rw [Target.sub_of_le hSub]
        simp only [bind, Except.bind, pure, Except.pure, hSearch]
        refine ⟨_, rfl, ?_, hSearching.trans hKeeps.2, fun hNone => ?_⟩
        · rw [Polled.after_events, attempts_append]
          show attempts (_ :: polled.events) + attempts others.events ≤ left + 1
          omega
        · exact .again attempt (hFailed hNone)
      · rw [if_neg hAgain]
        refine ⟨_, rfl, ?_, hKeeps.2, fun _ => ?_⟩
        · show attempts (_ :: polled.events) ≤ left + 1
          omega
        · simp only [Bool.or_eq_true, decide_eq_true_eq, not_or, Bool.not_eq_true] at hAgain
          obtain ⟨hQuiet, hRetries⟩ := hAgain
          obtain rfl : retries = 0 := by omega
          subst hQuiet
          exact .stopped attempt

end Outside

/-! ## The whole function -/

/-- A part that begins no attempt and leaves the flag of the context. -/
def Part.Plain (part : Part target S R) : Prop :=
  ∀ turn, ∃ polled, part turn = .ok polled ∧ attempts polled.events = 0 ∧
    (∀ attempt, ¬Contended attempt polled.events) ∧ polled.turn.searching = turn.searching

/-- A part that gives a runnable unless all attempts fail. -/
def Part.Searches (workers : Workers target) (workerIndex : Nat) (part : Part target S R) : Prop :=
  ∀ turn, ∃ polled, part turn = .ok polled ∧ attempts polled.events ≤ MAX_ATTEMPTS ∧
    (polled.runnable = none → polled.turn.searching = true → ∃ before events,
      polled.events = before ++ events ∧ (∀ attempt, ¬Contended attempt before) ∧
      Failed workers workerIndex MAX_ATTEMPTS MAX_RETRIES events)

namespace Part

variable {workers : Workers target} {workerIndex : Nat}

theorem Plain.orElse {first rest : Part target S R} (hFirst : first.Plain) (hRest : rest.Plain) :
    (first.orElse rest).Plain := by
  intro turn
  obtain ⟨polled, hOk, hAttempts, hQuiet, hSearching⟩ := hFirst turn
  by_cases hSome : polled.runnable.isSome
  · exact ⟨polled, orElse_some hOk hSome, hAttempts, hQuiet, hSearching⟩
  · obtain ⟨others, hOk', hAttempts', hQuiet', hSearching'⟩ := hRest polled.turn
    refine ⟨_, orElse_none hOk (by simpa using hSome) hOk', ?_, fun attempt => ?_,
      hSearching'.trans hSearching⟩
    · simp [hAttempts, hAttempts']
    · simp [hQuiet attempt, hQuiet' attempt]

theorem Searches.orElse {first rest : Part target S R} (hFirst : first.Plain)
    (hRest : rest.Searches workers workerIndex) :
    (first.orElse rest).Searches workers workerIndex := by
  intro turn
  obtain ⟨polled, hOk, hAttempts, hQuiet, hSearching⟩ := hFirst turn
  by_cases hSome : polled.runnable.isSome
  · refine ⟨polled, orElse_some hOk hSome, by omega, fun hNone => ?_⟩
    simp [hNone] at hSome
  · obtain ⟨others, hOk', hAttempts', hFailed⟩ := hRest polled.turn
    refine ⟨_, orElse_none hOk (by simpa using hSome) hOk', ?_, fun hNone hSearching => ?_⟩
    · rw [Polled.after_events, attempts_append]
      omega
    · obtain ⟨before, events, hEvents, hBefore, hAll⟩ := hFailed hNone hSearching
      refine ⟨polled.events ++ before, events, ?_, fun attempt => ?_, hAll⟩
      · rw [Polled.after_events, hEvents, List.append_assoc]
      · simp [hQuiet attempt, hBefore attempt]

end Part

namespace Outside

variable (outside : Outside S R) (workers : Workers target) (workerIndex : Nat)

theorem skip_plain : (Part.skip : Part target S R).Plain :=
  fun _ => ⟨_, rfl, rfl, not_contended_nil, rfl⟩

theorem ioPart_plain : (outside.ioPart : Part target S R).Plain :=
  fun _ => ⟨_, rfl, rfl, by simp, rfl⟩

theorem consumePart_plain : (outside.consumePart : Part target S R).Plain :=
  fun _ => ⟨_, rfl, rfl, by simp, rfl⟩

theorem timersPart_plain : (outside.timersPart workerIndex : Part target S R).Plain :=
  fun _ => ⟨_, rfl, rfl, by simp, rfl⟩

theorem popPart_plain (beFair : Bool) : (outside.popPart beFair : Part target S R).Plain :=
  fun _ => ⟨_, rfl, rfl, by simp, rfl⟩

theorem search_searches :
    (outside.search workers workerIndex MAX_ATTEMPTS MAX_RETRIES).Searches workers workerIndex := by
  intro turn
  obtain ⟨polled, hOk, hAttempts, _, hFailed⟩ :=
    outside.search_ok workers workerIndex MAX_ATTEMPTS MAX_RETRIES turn
  exact ⟨polled, hOk, hAttempts, fun hNone _ => ⟨[], polled.events, rfl, not_contended_nil, hFailed hNone⟩⟩

/-- The search after `search_begin` or without it. -/
theorem searchPart_searches :
    (outside.searchPart workers workerIndex).Searches workers workerIndex := by
  intro turn
  have hSearch := Part.Searches.orElse outside.ioPart_plain
    (outside.search_searches workers workerIndex)
  obtain ⟨searching, rng, s⟩ := turn
  cases searching with
  | true =>
      obtain ⟨polled, hOk, hAttempts, hFailed⟩ := hSearch ⟨true, rng, s⟩
      refine ⟨polled.after [], ?_, hAttempts, hFailed⟩
      simp only [searchPart, if_true, bind, Except.bind, pure, Except.pure, hOk]
  | false =>
      rcases hBegin : outside.searchBegin s with ⟨searching, s⟩
      cases searching with
      | true =>
          obtain ⟨polled, hOk, hAttempts, hFailed⟩ := hSearch ⟨true, rng, s⟩
          refine ⟨polled.after [.searchBegin true], ?_, ?_, fun hNone hSearching => ?_⟩
          · simp only [searchPart, hBegin, Bool.false_eq_true, if_false, if_true, bind,
              Except.bind, pure, Except.pure, hOk]
          · simpa [attempts] using hAttempts
          · obtain ⟨before, events, hEvents, hBefore, failed⟩ := hFailed hNone hSearching
            refine ⟨.searchBegin true :: before, events, ?_, fun attempt => ?_, failed⟩
            · rw [Polled.after_events, hEvents]
              rfl
            · simpa using hBefore attempt
      | false =>
          refine ⟨⟨none, ⟨false, rng, s⟩, [.searchBegin false]⟩, ?_, Nat.zero_le _, ?_⟩
          · simp only [searchPart, hBegin]
            rfl
          · intro _ hSearching
            cases hSearching

/-- All of `poll_worker` gives a runnable unless the search fails, whatever the tick has
it do first. -/
theorem pollWorker_searches (tick : BitVec target.width) :
    (outside.pollWorker workers workerIndex tick).Searches workers workerIndex := by
  have hFair : (if (tick % 61 == 0 : Bool) then outside.ioPart.orElse outside.consumePart
      else Part.skip : Part target S R).Plain := by
    split
    · exact outside.ioPart_plain.orElse outside.consumePart_plain
    · exact skip_plain
  apply Part.Searches.orElse hFair
  apply Part.Searches.orElse (outside.timersPart_plain workerIndex)
  apply Part.Searches.orElse (outside.popPart_plain (tick % 61 == 0))
  exact outside.searchPart_searches workers workerIndex

end Outside

/-- A search makes its attempts without a panic. When it gives no runnable, it has
looked everywhere unless it has used the last attempt and met a `Retry` in it. -/
theorem pollWorker_looked (outside : Outside S R) (workers : Workers target) (workerIndex : Nat)
    (tick : BitVec target.width) (turn : Turn target S) :
    ∃ polled, outside.pollWorker workers workerIndex tick turn = .ok polled ∧
      attempts polled.events ≤ 32 ∧
      (polled.runnable = none → polled.turn.searching = true →
        (LookedEverywhere workers workerIndex polled.events ↔ ¬Contended 31 polled.events)) := by
  obtain ⟨polled, hOk, hAttempts, hFailed⟩ :=
    outside.pollWorker_searches workers workerIndex tick turn
  refine ⟨polled, hOk, hAttempts, fun hNone hSearching => ?_⟩
  obtain ⟨before, events, hEvents, hBefore, failed⟩ := hFailed hNone hSearching
  have hContended : Contended 31 polled.events ↔ Contended 31 events := by
    rw [hEvents, contended_append, or_iff_right (hBefore 31)]
  rw [hContended]
  constructor
  · intro looked hLast
    obtain ⟨queue, hSearched, hRetry⟩ := failed.retried le_rfl hLast
    have hEmpty := looked.queues queue hSearched
    rw [hEvents, lastAnswer_append before hRetry] at hEmpty
    cases hEmpty
  · intro hQuiet
    constructor
    · intro stealIndex hLt hOther
      have member := failed.timers (by decide) (by decide) hQuiet hLt hOther
      exact ⟨none, hEvents ▸ List.mem_append_right before member⟩
    · intro queue hSearched
      rw [hEvents]
      exact lastAnswer_append before (failed.queues (by decide) le_rfl hQuiet hSearched)

/-- Queues that other threads always take from at the same time. -/
def alwaysRetry : Outside Unit Nat where
  pollIo := fun s => (none, s)
  consume := fun s => (.retry, s)
  pollTimers := fun _ s => (none, s)
  pop := fun _ s => (none, s)
  searchBegin := fun s => (true, s)
  steal := fun _ s => (.retry, s)

def twoWorkers : Workers .bits64 where
  count := ⟨2, by decide⟩
  rngIterSource := ⟨⟨2, by decide⟩, ⟨1, by decide⟩⟩
  source := RandomIterSource.from_eq (by decide)
  fits := by decide

/-- Each other worker is asked once, and nothing else is. -/
theorem alwaysRetry_visit (retries attempt : Nat) (victims : List Nat)
    (turn : Turn Target.bits64 Unit) :
    alwaysRetry.visit 0 retries attempt victims true turn =
      (⟨none, turn, (victims.filter (· ≠ 0)).map (.steal attempt · .retry)⟩, true) := by
  induction victims with
  | nil => rfl
  | cons stealIndex victims ih =>
      by_cases hOwn : stealIndex = 0
      · subst hOwn
        simpa [Outside.visit] using ih
      · rw [Outside.visit_cons_of_ne hOwn]
        have hSteal : alwaysRetry.stealFrom retries attempt stealIndex true turn =
            (⟨none, turn, [.steal attempt stealIndex .retry]⟩, true) := rfl
        simp only [hSteal, ih]
        simp [Polled.after, hOwn]

/-- No attempt looks at the timers of the other worker, and each of them ends with
`Retry` from both queues. -/
theorem alwaysRetry_search (left retries : Nat) (turn : Turn Target.bits64 Unit) :
    ∃ rng events, alwaysRetry.search twoWorkers 0 left retries turn =
      .ok ⟨none, ⟨turn.searching, rng, ()⟩, events⟩ ∧
      (∀ answer, .pollTimers 1 answer ∉ events) ∧
      (0 < left → lastAnswer none events = some .retry ∧ lastAnswer (some 1) events = some .retry) := by
  induction left generalizing turn with
  | zero => exact ⟨turn.rng, [], rfl, by simp, by simp⟩
  | succ left ih =>
      obtain ⟨victims, hVictims, hPerm⟩ :=
        RandomGenerator.genIter_perm twoWorkers.source twoWorkers.fits turn.rng
      have hOther : victims.filter (· ≠ 0) = [1] := by
        apply List.perm_singleton.mp
        exact hPerm.filter _
      have hVisit := alwaysRetry_visit retries (MAX_ATTEMPTS - (left + 1)) victims
        ⟨turn.searching, turn.rng.next, ()⟩
      rw [hOther] at hVisit
      obtain ⟨rng, events, hSearch, hTimers, hLast⟩ := ih ⟨turn.searching, turn.rng.next, ()⟩
      refine ⟨rng, .consume (some (MAX_ATTEMPTS - (left + 1))) .retry ::
        .steal (MAX_ATTEMPTS - (left + 1)) 1 .retry :: events, ?_, by simpa using hTimers, fun _ => ?_⟩
      · rw [Outside.search_succ rfl (.inr rfl) hVictims hVisit]
        simp only [Option.isSome_none, Bool.false_eq_true, if_false, Bool.true_or, if_true,
          Bool.not_true, Bool.toNat_false, Target.sub_of_le (Nat.zero_le retries), bind,
          Except.bind, Nat.sub_zero, hSearch]
        rfl
      · cases left with
        | zero =>
            cases hSearch
            exact ⟨rfl, rfl⟩
        | succ left =>
            obtain ⟨hInjector, hWorker⟩ := hLast (by omega)
            exact ⟨lastAnswer_append [_, _] hInjector, lastAnswer_append [_, _] hWorker⟩

/-- A worker that searches, with a generator of its own. -/
def searcher : Turn Target.bits64 Unit := ⟨true, ⟨⟨1, by decide⟩⟩, ()⟩

/-- After 32 attempts the search gives up without a look at the timers of the other
worker, and all that it has heard of the queues is `Retry`. -/
theorem alwaysRetry_unlooked : ∃ polled : Polled .bits64 Unit Nat,
    alwaysRetry.pollWorker twoWorkers 0 1 searcher = .ok polled ∧
    polled.runnable = none ∧ polled.turn.searching = true ∧
    (∀ answer, .pollTimers 1 answer ∉ polled.events) ∧
    lastAnswer none polled.events = some .retry ∧
    lastAnswer (some 1) polled.events = some .retry ∧
    ¬LookedEverywhere twoWorkers 0 polled.events := by
  obtain ⟨rng, events, hSearch, hTimers, hLast⟩ :=
    alwaysRetry_search MAX_ATTEMPTS MAX_RETRIES searcher
  obtain ⟨hInjector, hWorker⟩ := hLast (by decide)
  have hUnlooked : ∀ answer, .pollTimers 1 answer ∉
      [.pollTimers 0 none, .pop false none, .pollIo none] ++ events := by
    simpa using hTimers
  have hSkip : (Part.skip : Part .bits64 Unit Nat) searcher = .ok ⟨none, searcher, []⟩ := rfl
  have hTimersPart : alwaysRetry.timersPart 0 searcher =
      .ok ⟨none, searcher, [.pollTimers 0 none]⟩ := rfl
  have hPop : alwaysRetry.popPart false searcher = .ok ⟨none, searcher, [.pop false none]⟩ := rfl
  have hIo : alwaysRetry.ioPart searcher = .ok ⟨none, searcher, [.pollIo none]⟩ := rfl
  have hPart : alwaysRetry.searchPart twoWorkers 0 searcher =
      .ok ⟨none, ⟨true, rng, ()⟩, .pollIo none :: events⟩ := by
    simp only [Outside.searchPart, show searcher.searching = true from rfl, if_true, bind,
      Except.bind, Part.orElse_none hIo rfl hSearch]
    rfl
  refine ⟨⟨none, ⟨true, rng, ()⟩, [.pollTimers 0 none, .pop false none, .pollIo none] ++ events⟩,
    ?_, rfl, rfl, hUnlooked, lastAnswer_append _ hInjector, lastAnswer_append _ hWorker, ?_⟩
  · have hRest := Part.orElse_none hTimersPart rfl (Part.orElse_none hPop rfl hPart)
    exact Part.orElse_none hSkip rfl hRest
  · intro looked
    obtain ⟨answer, member⟩ := looked.timers 1 (by decide) (by decide)
    exact hUnlooked answer member

end Yaar.Runtime.PollWorker
