import Yaar.Runtime.ThreadPoolIdle

/-! Whether `shutdown` leaves a thread asleep. -/
namespace Yaar.Runtime.ThreadPool

open Machine

variable {T K : Type*} [DecidableEq T]

omit [DecidableEq T] in
/-- The condition is about the push of a parker to a pool that has stopped. -/
theorem notLate_of {s : State T K} {e : Event T K}
    (h : s.running = true ∨ ∀ t, e = .step t → (s.threads t).pc ≠ .waitLock) : NotLate s e := by
  cases e with
  | step t => exact fun hp _ => h.resolve_right fun hLine => hLine t rfl hp
  | _ => trivial

/-- A pool that has stopped has no idle list. -/
def Drained (s : State T K) : Prop := s.running = false → s.idle = []

/-- Once the pool has stopped its list stays empty, as nothing is pushed to it any more. -/
theorem Drained.step {maxThreads : Nat} {s s' : State T K} {t : T} (drained : Drained s)
    (hLate : NotLate s (.step t)) (h : step maxThreads s t = some s') : Drained s' := by
  have hKeep : ∀ s' : State T K, s'.idle = s.idle → s'.running = s.running → Drained s' := by
    intro s' hIdle hRunning
    unfold Drained
    rw [hIdle, hRunning]
    exact drained
  cases hp : (s.threads t).pc <;> simp only [ThreadPool.step, hp, reduceCtorEq] at h
  case spawnUnpark i parker =>
    split at h
    · next s'' hUnpark =>
        obtain rfl := Option.some.inj h
        obtain ⟨park, -, rfl⟩ := unpark_eq hUnpark
        exact hKeep _ rfl rfl
    · obtain rfl := Option.some.inj h
      exact hKeep _ rfl rfl
  case shutdownUnpark idle =>
    cases idle with
    | nil =>
        obtain rfl := Option.some.inj h
        exact hKeep _ rfl rfl
    | cons parker idle =>
        obtain rfl := Option.some.inj h
        cases hUnpark : s.unpark parker none with
        | none => exact hKeep _ rfl rfl
        | some s'' =>
            obtain ⟨park, -, rfl⟩ := unpark_eq hUnpark
            exact hKeep _ rfl rfl
  case waitFirst | waitThird | waitUnwrap =>
    obtain rfl := Option.some.inj h
    obtain ⟨th, hEq, -⟩ := pollUnparked_eq s t _ _ _
    rw [hEq]
    exact hKeep _ rfl rfl
  case waitLock =>
    split at h
    · obtain rfl := Option.some.inj h
      obtain ⟨th, hEq, -⟩ := pollUnparked_eq s t _ _ _
      rw [hEq]
      exact hKeep _ rfl rfl
    · next hNot =>
        obtain rfl := Option.some.inj h
        intro hStopped
        have hRunning := hLate hp hNot
        change s.running = false at hStopped
        simp [hRunning] at hStopped
  case waitRemove =>
    obtain rfl := Option.some.inj h
    intro hStopped
    have hNil := drained hStopped
    simp [State.goto, State.setThread, hNil]
  case spawnLock i =>
    obtain rfl := Option.some.inj h
    split
    · exact hKeep _ rfl rfl
    · next hRunning =>
        split
        · intro hStopped
          exact (hRunning hStopped).elim
        · repeat' split
          all_goals exact hKeep _ rfl rfl
  case shutdownLock =>
    obtain rfl := Option.some.inj h
    split
    · exact fun _ => rfl
    · exact hKeep _ rfl rfl
  case createFailed i =>
    obtain rfl := Option.some.inj h
    unfold State.finish
    split <;> exact hKeep _ rfl rfl
  case waitPark | waitEmpty =>
    split at h <;> obtain rfl := Option.some.inj h <;> exact hKeep _ rfl rfl
  all_goals
    obtain rfl := Option.some.inj h
    exact hKeep _ rfl rfl

theorem Drained.quiet {s s' : State T K} (drained : Drained s) (quiet : Quiet s s') :
    Drained s' := by
  unfold Drained
  rw [quiet.idle, quiet.running]
  exact drained

/-- The pool has stopped and the thread is not between the push and the return of
`wait`. -/
def Kept (t : T) (s : State T K) : Prop :=
  s.running = false ∧ (s.threads t).pc.between = false

/-- A thread that is not in `wait` when the pool stops does not come past the push any
more. -/
theorem Kept.step {maxThreads : Nat} {s s' : State T K} {t u : T} (kept : Kept u s)
    (hLate : NotLate s (.step t)) (h : step maxThreads s t = some s') : Kept u s' := by
  have frame := frame_step (Or.inr kept.1) h
  refine ⟨frame.running.trans kept.1, ?_⟩
  by_cases hEq : u = t
  · subst hEq
    have hBetween := kept.2
    cases hp : (s.threads u).pc <;> simp only [hp, Pc.between, reduceCtorEq] at hBetween <;>
      simp only [ThreadPool.step, hp, reduceCtorEq] at h
    case spawnUnpark i parker =>
      split at h <;> obtain rfl := Option.some.inj h <;> simp [Pc.between]
    case waitFirst =>
      obtain rfl := Option.some.inj h
      obtain ⟨th, hEq, hPc⟩ := pollUnparked_eq s u .outside .outside .waitLock
      rw [hEq, setThread_self]
      rcases hPc with hPc | hPc | hPc <;> simp [hPc, Pc.between]
    case waitLock =>
      split at h
      · next w hPark =>
          obtain rfl := Option.some.inj h
          cases w <;> simp [State.pollUnparked, hPark, Pc.between]
      · next hNot =>
          have hRunning := hLate hp hNot
          rw [kept.1] at hRunning
          simp at hRunning
    case shutdownUnpark idle =>
      cases idle <;> obtain rfl := Option.some.inj h <;> simp [Pc.between]
    case createFailed i =>
      obtain rfl := Option.some.inj h
      unfold State.finish
      split <;> simp [Pc.between]
    case spawnLock i =>
      obtain rfl := Option.some.inj h
      rw [if_pos kept.1]
      simp [Pc.between]
    all_goals
      obtain rfl := Option.some.inj h
      (repeat' split) <;> simp [Pc.between]
  · rw [frame.others u hEq]
    exact kept.2

theorem Kept.quiet {s s' : State T K} {u : T} (kept : Kept u s) (quiet : Quiet s s') :
    Kept u s' := by
  refine ⟨quiet.running.trans kept.1, ?_⟩
  by_contra hNot
  have hBetween := quiet.between u (by simpa using hNot)
  simp [kept.2] at hBetween

variable [DecidableEq K]

theorem Kept.next {maxThreads : Nat} {s s' : State T K} {e : Event T K} {u : T} (kept : Kept u s)
    (hLate : NotLate s e) (h : next maxThreads s e = some s') : Kept u s' := by
  by_cases hStep : ∃ t, e = .step t
  · obtain ⟨t, rfl⟩ := hStep
    exact kept.step hLate h
  · push Not at hStep
    exact kept.quiet (quiet_next hStep h)

/-- The list of a pool that has stopped is empty along a run that meets the condition. -/
theorem run_drained {maxThreads : Nat} {steps : List (State T K × Event T K)} {s : State T K}
    (run : (system T K maxThreads).Run steps s) (hLate : Meets NotLate steps) : Drained s := by
  refine System.Path.keeps_of_meets run NotLate hLate (fun h => by simp [system] at h)
    fun u e v drained hLate h => ?_
  by_cases hStep : ∃ t, e = .step t
  · obtain ⟨t, rfl⟩ := hStep
    exact drained.step hLate h
  · push Not at hStep
    exact drained.quiet (quiet_next hStep h)

/-- Once `shutdown` has returned no thread is blocked but one that a call of `spawn`
is about to unpark, and a thread that enters `wait` after the pool has stopped does
not block. -/
structure AllAwake (steps : List (State T K × Event T K)) (s : State T K) : Prop where
  returned : s.running = false → (∀ v idle, (s.threads v).pc ≠ .shutdownUnpark idle) →
    ∀ u, (s.threads u).Blocked → ∃ v i, (s.threads v).pc = .spawnUnpark i u
  entered : ∀ first x second u, steps = first ++ x :: second → x.2 = .wait u →
    x.1.running = false → ¬(s.threads u).Blocked

/-- So it is in every run in which no parker is pushed after the pool has stopped and
no call of `spawn` gives up on a parker whose thread is about to park. -/
theorem shutdown_allAwake (maxThreads : Nat) (steps : List (State T K × Event T K))
    (s : State T K) (run : (system T K maxThreads).Run steps s)
    (hMeets : Meets (fun s e => NotLost s e ∧ NotLate s e) steps) : AllAwake steps s := by
  have found := run_found run fun x hx => (hMeets x hx).1
  have hLate : Meets NotLate steps := fun x hx => (hMeets x hx).2
  have drained := run_drained run hLate
  refine ⟨fun hStopped hReturned u hBlocked => ?_, ?_⟩
  · have hNone : u ∉ s.idle := by
      rw [drained hStopped]
      exact List.not_mem_nil
    obtain ⟨v, hv⟩ := (found u hBlocked.asleep).resolve_left hNone
    cases hp : (s.threads v).pc <;> simp only [hp, Pc.holds, reduceCtorEq] at hv
    case spawnUnpark i parker =>
      obtain rfl : parker = u := by simpa using hv
      exact ⟨v, i, hp⟩
    case shutdownUnpark idle => exact (hReturned v idle hp).elim
  · rintro first ⟨u₀, e⟩ second u rfl rfl hStopped hBlocked
    obtain ⟨t, before, hNext, after⟩ := System.Path.split run
    rw [meets_append] at hLate
    have hRest : Meets NotLate second := fun x hx => hLate.2 x (List.mem_cons_of_mem _ hx)
    have hOutside : (u₀.threads u).pc = .outside := (call_eq hNext).1
    have hCall : ThreadPool.next maxThreads u₀ (.wait u) = some t := hNext
    have entered : Kept u u₀ := ⟨hStopped, by rw [hOutside]; rfl⟩
    have kept : Kept u s := after.keeps_of_meets NotLate hRest
      (entered.next (hLate.2 (u₀, .wait u) List.mem_cons_self) hCall)
      fun _ _ _ kept hLate h => kept.next hLate h
    have hBetween := hBlocked.between
    rw [kept.2] at hBetween
    simp at hBetween

/-- A thread parks, and `shutdown` takes the list and unparks it. -/
theorem shutdown_allAwake_parked : ∃ steps s, (system (Fin 2) Unit 4).Run steps s ∧
    (s.running, (s.threads 0).park, (s.threads 1).pc) = (false, .notified none, .outside) ∧
    AllAwake steps s := by
  obtain ⟨s, run, hs⟩ := (system (Fin 2) Unit 4).exists_run_of_replay
    [.wait 0, .step 0, .step 0, .step 0, .poll 0 false, .step 0, .shutdown 1, .step 1, .step 1,
      .step 1, .step 1]
    (fun s => (s.running, (s.threads 0).park, (s.threads 1).pc)) (false, .notified none, .outside)
    (by decide)
  refine ⟨_, s, run, hs, shutdown_allAwake 4 _ s run fun x hx => ⟨?_, ?_⟩⟩
  · exact (conditions_of_not_unparks
      ((show ∀ x ∈ _, Unparks x.1 x.2 = false by decide) x hx)).1
  · exact notLate_of ((show ∀ x ∈ _, x.1.running = true ∨
      ∀ t, x.2 = .step t → (x.1.threads t).pc ≠ .waitLock by decide) x hx)

/-- A thread looks at its parker, `shutdown` runs, and the thread pushes its parker and
blocks. -/
theorem lateWait_asleep : ¬∀ maxThreads steps s,
    (system (Fin 2) Unit maxThreads).Run steps s → AllAwake steps s := by
  intro h
  obtain ⟨s, run, hs⟩ := (system (Fin 2) Unit 4).exists_run_of_replay
    [.wait 0, .step 0, .shutdown 1, .step 1, .step 1, .step 1, .step 0, .step 0, .poll 0 false,
      .step 0]
    (fun s => (s.running, s.threads 0, (s.threads 1).pc))
    (false, ⟨.parked false, .waiting, false⟩, .outside) (by decide)
  simp only [Prod.mk.injEq] at hs
  obtain ⟨hStopped, hThread, hOther⟩ := hs
  have hLines : ∀ v : Fin 2, (s.threads v).pc = .parked false ∨ (s.threads v).pc = .outside := by
    intro v
    obtain rfl | rfl : v = 0 ∨ v = 1 := by omega
    · exact Or.inl (by rw [hThread])
    · exact Or.inr hOther
  obtain ⟨v, i, hp⟩ := (h 4 _ s run).returned hStopped
    (fun v idle hp => by rcases hLines v with hLine | hLine <;> simp [hLine] at hp) 0
    ⟨false, by rw [hThread], by rw [hThread]; rfl⟩
  rcases hLines v with hLine | hLine <;> simp [hLine] at hp

end Yaar.Runtime.ThreadPool
