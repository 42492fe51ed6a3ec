import Mathlib.Data.List.Induction
import Mathlib.Data.Option.Basic

namespace Machine

/-- A machine takes one atomic step for each event. An event that the current
state does not enable has no successor, so a blocked thread simply has no
enabled event of its own. -/
structure System (State Event : Type*) where
  initial : State
  next : State → Event → Option State

variable {State Event : Type*} {m : System State Event}

/-- A sequence of steps from a state. Each entry records an event and the
state it was taken in, so that a step can be judged by what it saw. -/
inductive System.Path (m : System State Event) (s : State) :
    List (State × Event) → State → Prop where
  | refl : m.Path s [] s
  | step {steps : List (State × Event)} {t u : State} {e : Event}
      (prior : m.Path s steps t) (last : m.next t e = some u) :
      m.Path s (steps ++ [(t, e)]) u

/-- A finite run of the machine. -/
def System.Run (m : System State Event) (steps : List (State × Event)) (s : State) : Prop :=
  m.Path m.initial steps s

/-- A state some run of the machine ends in. -/
def System.Reachable (m : System State Event) (s : State) : Prop :=
  ∃ steps, m.Run steps s

/-- Every step of the sequence meets a condition on the state before it. -/
def Meets (guard : State → Event → Prop) (steps : List (State × Event)) : Prop :=
  ∀ x ∈ steps, guard x.1 x.2

@[simp] theorem meets_nil {guard : State → Event → Prop} : Meets guard [] := by
  simp [Meets]

/-- The steps of two parts meet a condition exactly if both parts do. -/
@[simp] theorem meets_append {guard : State → Event → Prop}
    {first second : List (State × Event)} :
    Meets guard (first ++ second) ↔ Meets guard first ∧ Meets guard second := by
  simp [Meets, or_imp, forall_and]

@[simp] theorem meets_singleton {guard : State → Event → Prop} {x : State × Event} :
    Meets guard [x] ↔ guard x.1 x.2 := by
  simp [Meets]

theorem meets_cons {guard : State → Event → Prop} {x : State × Event}
    {steps : List (State × Event)} :
    Meets guard (x :: steps) ↔ guard x.1 x.2 ∧ Meets guard steps := by
  simp [Meets]

theorem System.Path.trans {s t u : State} {first second : List (State × Event)}
    (left : m.Path s first t) (right : m.Path t second u) :
    m.Path s (first ++ second) u := by
  induction right with
  | refl => simpa using left
  | step prior last ih => simpa using ih.step last

theorem System.Path.cons {s t u : State} {e : Event} {steps : List (State × Event)}
    (head : m.next s e = some t) (tail : m.Path t steps u) : m.Path s ((s, e) :: steps) u := by
  have hFirst : m.Path s [(s, e)] t := by simpa using (Path.refl (m := m) (s := s)).step head
  exact hFirst.trans tail

theorem System.Path.eq_of_nil {s u : State} (path : m.Path s [] u) : u = s := by
  generalize hEq : ([] : List (State × Event)) = steps at path
  cases path with
  | refl => rfl
  | step prior last => simp at hEq

/-- A path that ends in a given step ends in that step's state. -/
theorem System.Path.unsnoc {s u : State} {steps : List (State × Event)} {x : State × Event}
    (path : m.Path s (steps ++ [x]) u) : m.Path s steps x.1 ∧ m.next x.1 x.2 = some u := by
  generalize hEq : steps ++ [x] = all at path
  cases path with
  | refl => simp at hEq
  | step prior last =>
      obtain ⟨rfl, hx⟩ := List.append_inj' hEq rfl
      obtain rfl : x = _ := by simpa using hx
      exact ⟨prior, last⟩

/-- Cut a path at one of its steps. -/
theorem System.Path.split {s u : State} {first second : List (State × Event)} {x : State × Event}
    (path : m.Path s (first ++ x :: second) u) :
    ∃ t, m.Path s first x.1 ∧ m.next x.1 x.2 = some t ∧ m.Path t second u := by
  induction second using List.reverseRecOn generalizing u with
  | nil =>
      obtain ⟨hPrior, hLast⟩ := path.unsnoc
      exact ⟨u, hPrior, hLast, .refl⟩
  | append_singleton second y ih =>
      have hPath : m.Path s ((first ++ x :: second) ++ [y]) u := by simpa using path
      obtain ⟨hPrior, hLast⟩ := hPath.unsnoc
      obtain ⟨t, hFirst, hNext, hSecond⟩ := ih hPrior
      exact ⟨t, hFirst, hNext, hSecond.step hLast⟩

/-- A path that begins with a given step begins in that step's state. -/
theorem System.Path.eq_of_cons {s u : State} {steps : List (State × Event)} {x : State × Event}
    (path : m.Path s (x :: steps) u) : x.1 = s := by
  have hPath : m.Path s ([] ++ x :: steps) u := path
  obtain ⟨_, hNil, _⟩ := hPath.split
  exact hNil.eq_of_nil

theorem System.Path.cut {s u : State} {first second : List (State × Event)}
    (path : m.Path s (first ++ second) u) : ∃ t, m.Path s first t ∧ m.Path t second u := by
  cases second with
  | nil => exact ⟨u, by simpa using path, .refl⟩
  | cons x second =>
      obtain ⟨t, hFirst, hNext, hSecond⟩ := path.split
      exact ⟨x.1, hFirst, hSecond.cons hNext⟩

theorem System.Run.reachable {steps : List (State × Event)} {s : State}
    (run : m.Run steps s) : m.Reachable s :=
  ⟨steps, run⟩

theorem System.Reachable.next {s t : State} {e : Event} (h : m.Reachable s)
    (last : m.next s e = some t) : m.Reachable t := by
  obtain ⟨steps, run⟩ := h
  exact ⟨_, System.Path.step run last⟩

theorem System.Reachable.path {s t : State} {steps : List (State × Event)} (h : m.Reachable s)
    (path : m.Path s steps t) : m.Reachable t := by
  obtain ⟨before, run⟩ := h
  exact ⟨_, System.Path.trans run path⟩

/-- A property kept by every step that meets `guard` and starts in a state
with the facts `known` reaches the end of every such path. -/
theorem System.Path.keeps {inv : State → Prop} {s t : State} {steps : List (State × Event)}
    (path : m.Path s steps t) (guard : State → Event → Prop) (known : State → Prop)
    (hMeets : Meets guard steps) (hKnown : ∀ first u, m.Path s first u → Meets guard first → known u)
    (start : inv s)
    (step : ∀ u e v, known u → inv u → guard u e → m.next u e = some v → inv v) : inv t := by
  induction path with
  | refl => exact start
  | step prior last ih =>
      rw [meets_append, meets_singleton] at hMeets
      exact step _ _ _ (hKnown _ _ prior hMeets.1) (ih hMeets.1) hMeets.2 last

/-- The steps of the path need no facts but the property itself. -/
theorem System.Path.keeps_of_meets {inv : State → Prop} {s t : State}
    {steps : List (State × Event)} (path : m.Path s steps t) (guard : State → Event → Prop)
    (hMeets : Meets guard steps) (start : inv s)
    (step : ∀ u e v, inv u → guard u e → m.next u e = some v → inv v) : inv t :=
  path.keeps guard (fun _ => True) hMeets (fun _ _ _ _ => trivial) start
    fun u e v _ => step u e v

/-- An inductive invariant of all steps holds in every reachable state. -/
theorem System.Reachable.keeps {inv : State → Prop} {s : State} (h : m.Reachable s)
    (start : inv m.initial)
    (step : ∀ u e v, inv u → m.next u e = some v → inv v) : inv s := by
  obtain ⟨steps, run⟩ := h
  exact System.Path.keeps_of_meets run (fun _ _ => True) (fun _ _ => trivial) start
    fun u e v hu _ => step u e v hu

/-- A run that does not end. -/
structure System.Endless (m : System State Event) where
  state : Nat → State
  event : Nat → Event
  step : ∀ n, m.next (state n) (event n) = some (state (n + 1))

/-- A run in which a rank never rises, and falls again and again while some condition
holds, comes to a state without the condition. -/
theorem System.Endless.leaves (run : m.Endless) (holds : State → Prop) (rank : State → Nat)
    (falls : Nat → Prop) (hOften : ∀ n, ∃ k, n ≤ k ∧ falls k) (start : Nat)
    (hKeep : ∀ n, start ≤ n → holds (run.state n) → holds (run.state (n + 1)) →
      rank (run.state (n + 1)) ≤ rank (run.state n))
    (hFalls : ∀ n, start ≤ n → falls n → holds (run.state n) → holds (run.state (n + 1)) →
      rank (run.state (n + 1)) < rank (run.state n)) :
    ∃ n, start ≤ n ∧ ¬holds (run.state n) := by
  by_contra hNone
  push Not at hNone
  have hMono (n d : Nat) (hn : start ≤ n) : rank (run.state (n + d)) ≤ rank (run.state n) := by
    induction d with
    | zero => exact Nat.le_refl _
    | succ d ih =>
        have hStep := hKeep (n + d) (by omega) (hNone _ (by omega)) (hNone _ (by omega))
        exact Nat.le_trans hStep ih
  have hDescent : ∀ r n, start ≤ n → rank (run.state n) < r → False := by
    intro r
    induction r with
    | zero =>
        intro n _ hRank
        omega
    | succ r ih =>
        intro n hn hRank
        obtain ⟨k, hk, hFall⟩ := hOften n
        have hBelow := hFalls k (by omega) hFall (hNone k (by omega)) (hNone (k + 1) (by omega))
        have hLe := hMono n (k - n) hn
        rw [Nat.add_sub_cancel' hk] at hLe
        exact ih (k + 1) (by omega) (by omega)
  exact hDescent _ start (Nat.le_refl start) (Nat.lt_succ_self _)

/-- Replay a list of events from a given state. -/
def System.replay (m : System State Event) (s : State) (events : List Event) : Option State :=
  events.foldlM m.next s

/-- The steps of a replay, up to the first event that is not enabled. -/
def System.trace (m : System State Event) : State → List Event → List (State × Event)
  | _, [] => []
  | s, e :: events => (s, e) ::
      match m.next s e with
      | none => []
      | some t => m.trace t events

/-- Beyond its first step a trace takes the events that are left. -/
theorem System.mem_trace_cons {s : State} {e : Event} {events : List Event} {x : State × Event}
    (h : x ∈ m.trace s (e :: events)) : x = (s, e) ∨ x.2 ∈ events := by
  induction events generalizing s e with
  | nil =>
      refine Or.inl ?_
      cases hNext : m.next s e <;> simpa [System.trace, hNext] using h
  | cons f events ih =>
      rw [System.trace, List.mem_cons] at h
      refine h.imp id fun hRest => ?_
      cases hNext : m.next s e with
      | none => simp [hNext] at hRest
      | some t =>
          simp only [hNext] at hRest
          rcases ih hRest with rfl | hMem
          · exact List.mem_cons_self
          · exact List.mem_cons_of_mem _ hMem

theorem System.mem_trace {s : State} {events : List Event} {x : State × Event}
    (h : x ∈ m.trace s events) : x.2 ∈ events := by
  cases events with
  | nil => simp [System.trace] at h
  | cons e events =>
      rcases mem_trace_cons h with rfl | hMem
      · exact List.mem_cons_self
      · exact List.mem_cons_of_mem _ hMem

/-- A replay that comes to its end has taken the steps of its trace. -/
theorem System.path_of_replay {events : List Event} {s t : State}
    (h : m.replay s events = some t) : m.Path s (m.trace s events) t := by
  induction events generalizing s with
  | nil =>
      obtain rfl : s = t := by simpa [System.replay] using h
      exact .refl
  | cons e events ih =>
      simp only [System.replay, List.foldlM_cons, Option.bind_eq_bind,
        Option.bind_eq_some_iff] at h
      obtain ⟨middle, hNext, hRest⟩ := h
      simpa [System.trace, hNext] using (ih hRest).cons hNext

/-- Decide a fact about a concrete replay by projecting its final state to
decidable data. -/
theorem System.exists_run_of_replay {β : Type*} (m : System State Event) (events : List Event)
    (f : State → β) (b : β) (h : (m.replay m.initial events).map f = some b) :
    ∃ s, m.Run (m.trace m.initial events) s ∧ f s = b := by
  obtain ⟨s, hs, hf⟩ := Option.map_eq_some_iff.mp h
  exact ⟨s, System.path_of_replay hs, hf⟩

/-- Where runs are bounded and go on until they are done, some run is done. -/
theorem System.exists_run_of_bound (done : State → Prop) (bound : Nat)
    (hBound : ∀ steps s, m.Run steps s → steps.length ≤ bound)
    (hNext : ∀ steps s, m.Run steps s → ¬done s → ∃ e t, m.next s e = some t) :
    ∃ steps s, m.Run steps s ∧ done s := by
  by_contra hNone
  push Not at hNone
  have hLong : ∀ n, ∃ steps s, m.Run steps s ∧ steps.length = n := by
    intro n
    induction n with
    | zero => exact ⟨[], m.initial, .refl, rfl⟩
    | succ n ih =>
        obtain ⟨steps, s, run, hLength⟩ := ih
        obtain ⟨e, t, h⟩ := hNext steps s run (hNone steps s run)
        exact ⟨_, t, run.step h, by simp [hLength]⟩
  obtain ⟨steps, s, run, hLength⟩ := hLong (bound + 1)
  have hLe := hBound steps s run
  omega

end Machine
