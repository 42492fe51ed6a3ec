import Yaar.Data.Tally
import Yaar.Runtime.ThreadPool

/-! The count of unfinished tasks and calls of `block_on`, and whether its last
decrement shuts the pool down. -/
namespace Yaar.Runtime.ThreadPool

open Machine

variable {T K : Type*} [DecidableEq T] [DecidableEq K]

/-- `pending` counts the unfinished jobs while nothing has called `shutdown`. -/
structure Completion [Fintype K] (s : State T K) : Prop where
  counted : s.pending = Tally.total (fun job => if job = .unfinished then 1 else 0) s.jobs
  found : ∀ t n, (s.threads t).pc = .completed n → 0 < n
  running : s.running = true
  calm : ∀ t, (s.threads t).pc.shuts = false

/-- The calls of `shutdown` other than those of `task_complete`. -/
def Event.callsShutdown : Event T K → Bool
  | .shutdown _ => true
  | _ => false

variable [Fintype K]

omit [DecidableEq T] [DecidableEq K] in
/-- Where a step leaves the count and the jobs alone, only its own thread has to be
looked at. -/
theorem Completion.frame {s s' : State T K} {t : T} (inv : Completion s) (frame : Frame s s' t)
    (hCalm : (s'.threads t).pc.shuts = false) (hFound : ∀ n, (s'.threads t).pc = .completed n → 0 < n) :
    Completion s' := by
  refine ⟨by rw [frame.pending, frame.jobs, inv.counted], fun u n hp => ?_,
    by rw [frame.running, inv.running], fun u => ?_⟩
  · by_cases hEq : u = t
    · exact hFound n (hEq ▸ hp)
    · rw [frame.others u hEq] at hp
      exact inv.found u n hp
  · by_cases hEq : u = t
    · rw [hEq, hCalm]
    · rw [frame.others u hEq, inv.calm]

/-- As long as `shutdown` is not called the count is exact and the pool runs. The last
`task_complete` finds a count of one before it, not of zero. -/
theorem Completion.next {maxThreads : Nat} {s s' : State T K} {e : Event T K}
    (inv : Completion s) (hCalls : e.callsShutdown = false)
    (h : next maxThreads s e = some s') : Completion s' := by
  have hGoto : ∀ (t : T) (pc : Pc T), pc.shuts = false → (∀ n, pc ≠ .completed n) →
      Completion (s.goto t pc) := fun t pc hShuts hNot =>
    inv.frame (t := t) (.of rfl rfl rfl rfl) (by simpa using hShuts)
      fun n hp => (hNot n (by simpa using hp)).elim
  cases e <;> simp only [ThreadPool.next, Event.callsShutdown, reduceCtorEq] at h hCalls
  case step t =>
    obtain ⟨hShuts, hNot⟩ := line_step (inv.calm t) h
    have hCalm := inv.calm t
    refine inv.frame (frame_step (Or.inl fun hp => ?_) h) hShuts fun n hp => (hNot n hp).elim
    simp [hp, Pc.shuts] at hCalm
  case spawn t workerIndex | wait t =>
    obtain ⟨-, rfl⟩ := call_eq h
    exact hGoto t _ rfl (by simp)
  case taskBegin t job =>
    split at h
    · next hFresh =>
        obtain ⟨hOutside, rfl⟩ := call_eq h
        have hTotal := Tally.total_update (fun job => if job = .unfinished then 1 else 0)
          s.jobs job .unfinished
        have hCounted := inv.counted
        simp only [hFresh, reduceCtorEq, if_false, if_true] at hTotal
        refine ⟨?_, fun u n hp => ?_, inv.running, fun u => ?_⟩
        · change s.pending + 1 = Tally.total _ (Function.update s.jobs job .unfinished)
          omega
        · by_cases hEq : u = t
          · rw [hEq, goto_self] at hp
            simp at hp
          · rw [goto_of_ne _ _ hEq] at hp
            exact inv.found u n hp
        · by_cases hEq : u = t
          · rw [hEq, goto_self]
            rfl
          · rw [goto_of_ne _ _ hEq]
            exact inv.calm u
    · simp at h
  case taskComplete t job =>
    split at h
    · next hUnfinished =>
        obtain ⟨hOutside, rfl⟩ := call_eq h
        have hTotal := Tally.total_update (fun job => if job = .unfinished then 1 else 0)
          s.jobs job .finished
        have hCounted := inv.counted
        simp only [hUnfinished, reduceCtorEq, if_false, if_true] at hTotal
        refine ⟨?_, fun u n hp => ?_, inv.running, fun u => ?_⟩
        · change s.pending - 1 = Tally.total _ (Function.update s.jobs job .finished)
          omega
        · by_cases hEq : u = t
          · rw [hEq, goto_self] at hp
            obtain rfl := Pc.completed.inj hp
            omega
          · rw [goto_of_ne _ _ hEq] at hp
            exact inv.found u n hp
        · by_cases hEq : u = t
          · rw [hEq, goto_self]
            rfl
          · rw [goto_of_ne _ _ hEq]
            exact inv.calm u
    · simp at h
  case finish t =>
    split at h
    · next hPooled =>
        obtain rfl := Option.some.inj h
        have hLine : (s.finish maxThreads t { s.threads t with pooled := false }).threads t =
            { s.threads t with pooled := false } ∨
            ((s.finish maxThreads t { s.threads t with pooled := false }).threads t).pc =
              .panicked := by
          unfold State.finish
          split <;> simp
        refine inv.frame (frame_finish _ _ _ _) ?_ fun n hp => ?_
        · rcases hLine with hEq | hEq <;> rw [hEq]
          · exact inv.calm t
          · rfl
        · rcases hLine with hEq | hEq <;> rw [hEq] at hp
          · exact inv.found t n hp
          · simp at hp
    · simp at h
  case poll t isPolling =>
    split at h
    · obtain rfl := Option.some.inj h
      exact hGoto t _ rfl (by simp)
    · simp at h
  case wakeUp t | error t =>
    split at h
    · obtain rfl := Option.some.inj h
      exact hGoto t _ rfl (by simp)
    · simp at h
  case start t u =>
    split at h
    · next hp =>
        split at h
        · next hOther =>
            obtain rfl := Option.some.inj h
            have hNe : t ≠ u := by
              rintro rfl
              simp [hp] at hOther
            have hMiddle : Completion (s.setThread u { s.threads u with pooled := true }) :=
              inv.frame (t := u) (.of rfl rfl rfl rfl) (by simp [hOther.1, Pc.shuts])
                (by simp [hOther.1])
            exact hMiddle.frame (t := t) (.of rfl rfl rfl rfl) (by simp [Pc.shuts]) (by simp)
        · simp at h
    · simp at h
  case wake t =>
    have hPc := unpark_pc h
    obtain ⟨park, -, rfl⟩ := unpark_eq h
    exact inv.frame (t := t) ⟨rfl, rfl, rfl, fun u _ => hPc u⟩ (by rw [hPc, inv.calm])
      fun n hp => inv.found t n (by rw [← hPc, hp])

omit [DecidableEq T] in
theorem completion_initial [DecidableEq T] (maxThreads : Nat) :
    Completion (system T K maxThreads).initial := by
  refine ⟨?_, fun t n hp => by simp [system] at hp, rfl, fun _ => rfl⟩
  exact (Finset.sum_eq_zero fun _ _ => rfl).symm

/-- The count is exact along every run without a call of `shutdown`. -/
theorem completion_of_run {maxThreads : Nat} {steps : List (State T K × Event T K)}
    {s : State T K} (run : (system T K maxThreads).Run steps s)
    (hCalls : ∀ x ∈ steps, x.2.callsShutdown = false) : Completion s :=
  System.Path.keeps_of_meets run (fun _ e => e.callsShutdown = false) hCalls
    (completion_initial maxThreads) fun _ _ _ inv hCall h => inv.next hCall h

/-- The call of `task_complete` by `t` that took `pending` from one to zero in the
state `u` has just returned: `second` are the steps since. -/
structure LastReturned (steps second : List (State T K × Event T K)) (s u : State T K) (t : T) :
    Prop where
  last : u.pending = 1
  call : ∃ first job, steps = first ++ (u, .taskComplete t job) :: second
  inside : ∀ x ∈ second, (x.1.threads t).pc ≠ .outside
  returned : (s.threads t).pc = .outside

/-- In these steps a thread goes through `shutdown`: it takes the idle list and
unparks each of it. -/
def ShutDownBy (t : T) (second : List (State T K × Event T K)) : Prop :=
  ∃ x ∈ second, x.2 = .step t ∧ (x.1.threads t).pc = .shutdownLock ∧ x.1.running = true ∧
    ∀ parker ∈ x.1.idle, ∃ y ∈ second, y.2 = .step t ∧
      ∃ rest, (y.1.threads t).pc = .shutdownUnpark (parker :: rest)

/-- The count is exact, and the call that takes it to zero, and no other, shuts the
pool down before it returns. -/
structure Settled (steps : List (State T K × Event T K)) (s : State T K) : Prop where
  counted : s.pending = Tally.total (fun job => if job = .unfinished then 1 else 0) s.jobs
  shutDown : ∀ second u t, LastReturned steps second s u t →
    s.running = false ∧ ShutDownBy t second
  earlier : ∀ first u t job second, steps = first ++ (u, .taskComplete t job) :: second →
    u.pending ≠ 1 → (∀ x ∈ second, (x.1.threads t).pc ≠ .outside) → ¬ShutDownBy t second

/-- The count is exact in every run, and the pool is settled as long as no call that took
the count from one to zero has returned: such a call never runs `shutdown`. -/
theorem settled_iff (maxThreads : Nat) (steps : List (State T K × Event T K)) (s : State T K)
    (run : (system T K maxThreads).Run steps s) (hCalls : ∀ x ∈ steps, x.2.callsShutdown = false) :
    Settled steps s ↔ ∀ second u t, ¬LastReturned steps second s u t := by
  have inv := completion_of_run run hCalls
  constructor
  · intro settled second u t hLast
    have hStopped := (settled.shutDown second u t hLast).1
    rw [inv.running] at hStopped
    simp at hStopped
  · intro hNone
    refine ⟨inv.counted, fun second u t hLast => (hNone second u t hLast).elim, ?_⟩
    rintro first u t job second rfl - - ⟨x, hMem, -, hLine, -⟩
    obtain ⟨before, after, rfl⟩ := List.append_of_mem hMem
    have hSplit : first ++ (u, .taskComplete t job) :: (before ++ x :: after) =
        (first ++ (u, .taskComplete t job) :: before) ++ x :: after := by simp
    rw [hSplit] at run hCalls
    obtain ⟨v, prior, -⟩ := System.Path.split run
    have hCalm := (completion_of_run prior fun y hy => hCalls y (List.mem_append_left _ hy)).calm t
    simp [hLine, Pc.shuts] at hCalm

/-- A task ends while another has begun and not yet ended. -/
theorem settled_iff_twoTasks : ∃ steps s, (system Bool Bool 1).Run steps s ∧ s.pending = 1 ∧
    Settled steps s := by
  let events : List (Event Bool Bool) :=
    [.taskBegin false true, .taskBegin true false, .taskComplete true true, .step true]
  obtain ⟨s, run, hs⟩ := (system Bool Bool 1).exists_run_of_replay events
    (fun s => (s.pending, (s.threads true).pc)) (1, .outside) (by decide)
  have hEarlier : ∀ x ∈ (system Bool Bool 1).trace (system Bool Bool 1).initial events,
      ∀ t job, x.2 = .taskComplete t job → x.1.pending ≠ 1 := by decide
  simp only [Prod.mk.injEq] at hs
  refine ⟨_, s, run, hs.1, (settled_iff 1 _ s run (by decide)).mpr fun second u t hLast => ?_⟩
  obtain ⟨first, job, hCall⟩ := hLast.call
  have hMem : (u, Event.taskComplete t job) ∈
      (system Bool Bool 1).trace (system Bool Bool 1).initial events := by
    rw [hCall]
    simp
  exact hEarlier _ hMem t job rfl hLast.last

/-- The only task of a pool ends; its `task_complete` returns and the pool still runs. -/
theorem onlyTask_keepsRunning : ¬∀ maxThreads steps s,
    (system Bool Unit maxThreads).Run steps s → (∀ x ∈ steps, x.2.callsShutdown = false) →
      Settled steps s := by
  intro h
  obtain ⟨s, run, hs⟩ := (system Bool Unit 1).exists_run_of_replay
    [.taskBegin false (), .taskComplete false (), .step false]
    (fun s => (s.running, (s.threads false).pc)) (true, .outside) (by decide)
  simp only [Prod.mk.injEq] at hs
  have hStopped := ((h 1 _ s run (by decide)).shutDown _ _ false
    ⟨rfl, ⟨[_], (), rfl⟩, by decide, hs.2⟩).1
  rw [hs.1] at hStopped
  simp at hStopped

end Yaar.Runtime.ThreadPool
