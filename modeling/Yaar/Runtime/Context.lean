import Mathlib.Data.List.Perm.Basic
import Yaar.Machine.Execution

/-! The context of one thread: `runtime/internal/context.rs`, as `Handle::enter`
and `Handle::block_on` of any runtimes use it. -/
namespace Yaar.Runtime

open Machine

/-- A context, known by its `Rc`, and the executor it was made for. -/
structure Context (E : Type*) where
  id : Nat
  executor : E
  deriving DecidableEq

structure ContextRef (E : Type*) where
  owned : Bool
  context : Context E
  deriving DecidableEq

namespace Context

variable {E : Type*}

/-- `ContextRef::clone` -/
def clone (ref : ContextRef E) : ContextRef E := { ref with owned := false }

inductive Kind where
  | guard
  | blockOn
  deriving DecidableEq

/-- An `EnterGuard` or a call of `block_on`, with the executor it was asked for. -/
structure Entered (E : Type*) where
  kind : Kind
  executor : E
  ref : ContextRef E
  deriving DecidableEq

/-- The slot of the thread and what is live on it, the most recently entered
first. `fresh` is the identity of the next context, `failed` records a panic. -/
structure State (E : Type*) where
  tls : Option (ContextRef E)
  live : List (Entered E)
  fresh : Nat
  failed : Bool

inductive Event (E : Type*) where
  | enter (executor : E)
  | blockOn (executor : E)
  /-- drop the guard at a place among those live -/
  | drop (index : Nat)
  /-- the innermost call of `block_on` returns or unwinds -/
  | leave
  deriving DecidableEq

/-- `Context::try_current` -/
def tryCurrent (s : State E) : Option (ContextRef E) := s.tls.map clone

/-- `Context::enter` -/
def enter (s : State E) (kind : Kind) (executor : E) : State E :=
  match s.tls with
  | some ref => { s with live := ⟨kind, executor, clone ref⟩ :: s.live }
  | none =>
      let ref : ContextRef E := ⟨true, ⟨s.fresh, executor⟩⟩
      { s with
        tls := some (clone ref)
        live := ⟨kind, executor, ref⟩ :: s.live
        fresh := s.fresh + 1 }

/-- `drop_slow`, with its assertions. -/
def dropSlow (s : State E) (ref : ContextRef E) : State E :=
  match s.tls with
  | some old => { s with tls := none, failed := s.failed || old.context.id != ref.context.id }
  | none => { s with failed := true }

/-- `ContextRef::drop` -/
def dropRef (s : State E) (ref : ContextRef E) : State E :=
  if ref.owned then dropSlow s ref else s

/-- What is live at a place goes out of scope. -/
def release (s : State E) (index : Nat) (entered : Entered E) : State E :=
  dropRef { s with live := s.live.eraseIdx index } entered.ref

/-- The place of the innermost call of `block_on`. -/
def innermost (s : State E) : Option Nat := s.live.findIdx? (·.kind = .blockOn)

/-- The place an event releases. -/
def released (s : State E) : Event E → Option Nat
  | .drop index => if (s.live[index]?.map Entered.kind) = some .guard then some index else none
  | .leave => innermost s
  | .enter _ | .blockOn _ => none

def next (s : State E) : Event E → Option (State E)
  | .enter executor => some (enter s .guard executor)
  | .blockOn executor => some (enter s .blockOn executor)
  | .drop index => (released s (.drop index)).bind fun index => s.live[index]?.map (release s index)
  | .leave => (released s .leave).bind fun index => s.live[index]?.map (release s index)

variable (E) in
def system : System (State E) (Event E) where
  initial := ⟨none, [], 0, false⟩
  next := next

/-- The current context is of the runtime that was entered most recently, and
there is one exactly while something is live. -/
def Follows (s : State E) : Prop :=
  (tryCurrent s).map (·.context.executor) = s.live.head?.map Entered.executor

/-- A runtime is entered while no other one is, and what owns the context outlives
everything else that is live. -/
def Nested (s : State E) : Event E → Prop
  | .enter executor | .blockOn executor => ∀ ref, s.tls = some ref → ref.context.executor = executor
  | e => ∀ index entered, released s e = some index → s.live[index]? = some entered →
      entered.ref.owned → s.live.length = 1

/-! ## The owner of the context -/

/-- The slot is filled while the one `ContextRef` that owns its context is live. -/
structure Owner (s : State E) : Prop where
  owns : ∀ entered ∈ s.live, entered.ref.owned →
    ∃ ref, s.tls = some ref ∧ ref.context = entered.ref.context
  one : s.live.countP (·.ref.owned) = if s.tls.isSome then 1 else 0
  ok : s.failed = false

/-- What is entered borrows the current context, or owns the new one where there is
none. -/
theorem Owner.enter {s : State E} (owner : Owner s) (kind : Kind) (executor : E) :
    Owner (enter s kind executor) := by
  obtain ⟨owns, one, ok⟩ := owner
  unfold Context.enter
  cases hTls : s.tls with
  | some ref =>
      refine ⟨fun entered hMem hOwned => ?_, ?_, ok⟩
      · rcases List.mem_cons.mp hMem with rfl | hMem
        · simp [clone] at hOwned
        · simpa [hTls] using owns entered hMem hOwned
      · simpa [clone, hTls] using one
  | none =>
      have hNone : ∀ entered ∈ s.live, ¬entered.ref.owned := by
        rw [hTls] at one
        simpa [List.countP_eq_zero] using one
      refine ⟨fun entered hMem hOwned => ?_, ?_, ok⟩
      · rcases List.mem_cons.mp hMem with rfl | hMem
        · exact ⟨_, rfl, rfl⟩
        · exact (hNone entered hMem hOwned).elim
      · simpa [List.countP_eq_zero] using hNone

/-- The slot is cleared where the owner of the context is dropped, and the assertions of
`drop_slow` hold then. -/
theorem Owner.release {s : State E} {index : Nat} {entered : Entered E} (owner : Owner s)
    (hLive : s.live[index]? = some entered) : Owner (release s index entered) := by
  obtain ⟨owns, one, ok⟩ := owner
  obtain ⟨hIndex, hEntered⟩ := List.getElem?_eq_some_iff.mp hLive
  have hMem : entered ∈ s.live := List.mem_of_getElem? hLive
  have hCount : (s.live.eraseIdx index).countP (·.ref.owned) +
      (if entered.ref.owned then 1 else 0) = s.live.countP (·.ref.owned) := by
    rw [← (List.getElem_cons_eraseIdx_perm hIndex).countP_eq, hEntered, List.countP_cons]
  cases hOwned : entered.ref.owned with
  | false =>
      simp only [Context.release, dropRef, hOwned, Bool.false_eq_true, if_false]
      refine ⟨fun other hOther => owns other (List.mem_of_mem_eraseIdx hOther), ?_, ok⟩
      simpa [hOwned, one] using hCount
  | true =>
      obtain ⟨ref, hTls, hContext⟩ := owns entered hMem hOwned
      have hNone : (s.live.eraseIdx index).countP (·.ref.owned) = 0 := by
        simpa [hOwned, one, hTls] using hCount
      simp only [Context.release, dropRef, hOwned, if_true, dropSlow, hTls]
      refine ⟨fun other hOther hOther' => ?_, by simpa using hNone, by simp [ok, hContext]⟩
      exact (List.countP_eq_zero.mp hNone other hOther hOther').elim

/-- What a step does: it enters a runtime or releases what is live at a place. -/
theorem next_cases {s s' : State E} {e : Event E} (h : next s e = some s') :
    (∃ kind executor, (e = .enter executor ∨ e = .blockOn executor) ∧ s' = enter s kind executor) ∨
      ∃ index entered, released s e = some index ∧ s.live[index]? = some entered ∧
        s' = release s index entered := by
  cases e with
  | enter executor => exact Or.inl ⟨.guard, executor, Or.inl rfl, (Option.some.inj h).symm⟩
  | blockOn executor => exact Or.inl ⟨.blockOn, executor, Or.inr rfl, (Option.some.inj h).symm⟩
  | drop index =>
      obtain ⟨index', hReleased, h⟩ := Option.bind_eq_some_iff.mp h
      obtain ⟨entered, hLive, rfl⟩ := Option.map_eq_some_iff.mp h
      exact Or.inr ⟨index', entered, hReleased, hLive, rfl⟩
  | leave =>
      obtain ⟨index, hReleased, h⟩ := Option.bind_eq_some_iff.mp h
      obtain ⟨entered, hLive, rfl⟩ := Option.map_eq_some_iff.mp h
      exact Or.inr ⟨index, entered, hReleased, hLive, rfl⟩

/-- So the slot is filled exactly while the owner is live, in every reachable state. -/
theorem owner_reachable {s : State E} (h : (system E).Reachable s) : Owner s := by
  refine h.keeps ⟨by simp [system], by simp [system], rfl⟩ fun s e s' owner hNext => ?_
  rcases next_cases hNext with ⟨kind, executor, -, rfl⟩ | ⟨index, entered, -, hLive, rfl⟩
  · exact owner.enter kind executor
  · exact owner.release hLive

/-! ## The runtime of the context -/

/-- Everything that is live was asked for the runtime of the current context. -/
def Agreed (s : State E) : Prop :=
  ∀ entered ∈ s.live, ∃ ref, s.tls = some ref ∧ ref.context.executor = entered.executor

/-- Where all contexts agree on the executor, the current one is that of the latest
entry. -/
theorem Agreed.follows {s : State E} (agreed : Agreed s) (owner : Owner s) : Follows s := by
  unfold Follows tryCurrent
  cases hLive : s.live with
  | nil =>
      have hOne := owner.one
      rw [hLive] at hOne
      cases hTls : s.tls with
      | none => rfl
      | some ref => simp [hTls] at hOne
  | cons entered rest =>
      obtain ⟨ref, hTls, hExecutor⟩ := agreed entered (by simp [hLive])
      simp [hTls, clone, hExecutor]

theorem Agreed.enter {s : State E} {kind : Kind} {executor : E} (agreed : Agreed s)
    (nested : ∀ ref, s.tls = some ref → ref.context.executor = executor) :
    Agreed (enter s kind executor) := by
  unfold Context.enter
  cases hTls : s.tls with
  | some ref =>
      intro entered hMem
      rcases List.mem_cons.mp hMem with rfl | hMem
      · exact ⟨ref, rfl, nested ref hTls⟩
      · simpa [hTls] using agreed entered hMem
  | none =>
      intro entered hMem
      rcases List.mem_cons.mp hMem with rfl | hMem
      · exact ⟨_, rfl, rfl⟩
      · obtain ⟨ref, hSome, -⟩ := agreed entered hMem
        simp [hTls] at hSome

/-- A drop keeps the agreement, if what owns the context is the last that is live. -/
theorem Agreed.release {s : State E} {index : Nat} {entered : Entered E} (agreed : Agreed s)
    (hLive : s.live[index]? = some entered)
    (nested : entered.ref.owned → s.live.length = 1) : Agreed (release s index entered) := by
  cases hOwned : entered.ref.owned with
  | false =>
      simp only [Context.release, dropRef, hOwned, Bool.false_eq_true, if_false]
      exact fun other hOther => agreed other (List.mem_of_mem_eraseIdx hOther)
  | true =>
      obtain ⟨hIndex, -⟩ := List.getElem?_eq_some_iff.mp hLive
      have hNil : s.live.eraseIdx index = [] := by
        rw [← List.length_eq_zero_iff, List.length_eraseIdx_of_lt hIndex, nested hOwned]
      have hNone : (Context.release s index entered).live = [] := by
        simp only [Context.release, dropRef, hOwned, if_true, dropSlow]
        split <;> exact hNil
      intro other hOther
      simp [hNone] at hOther

/-- Where a step is not nested, the current context does not follow what is live
after it. -/
theorem nested_of_follows {s s' : State E} {e : Event E} (owner : Owner s) (h : next s e = some s')
    (follows : Follows s') : Nested s e := by
  rcases next_cases h with ⟨kind, executor, hEvent, rfl⟩ | ⟨index, entered, hReleased, hLive, rfl⟩
  · have hNested : ∀ ref, s.tls = some ref → ref.context.executor = executor := by
      intro ref hTls
      simpa [Follows, tryCurrent, enter, hTls, clone] using follows
    rcases hEvent with rfl | rfl <;> exact hNested
  · have hNested : entered.ref.owned → s.live.length = 1 := by
      intro hOwned
      obtain ⟨ref, hTls, -⟩ := owner.owns entered (List.mem_of_getElem? hLive) hOwned
      have hNil : s.live.eraseIdx index = [] := by
        simpa [Follows, tryCurrent, release, dropRef, hOwned, dropSlow, hTls, eq_comm] using follows
      obtain ⟨hIndex, -⟩ := List.getElem?_eq_some_iff.mp hLive
      have hLength := List.length_eraseIdx_of_lt hIndex
      rw [hNil, List.length_nil] at hLength
      omega
    cases e with
    | enter executor | blockOn executor => simp [released] at hReleased
    | drop _ | leave =>
        intro index' entered' hReleased' hLive'
        obtain rfl : index = index' := by simpa [hReleased] using hReleased'
        obtain rfl : entered = entered' := by simpa [hLive] using hLive'
        exact hNested

/-- Hence the contexts agree along a run that is nested. -/
theorem Agreed.next {s s' : State E} {e : Event E} (agreed : Agreed s) (nested : Nested s e)
    (h : next s e = some s') : Agreed s' := by
  rcases next_cases h with ⟨kind, executor, hEvent, rfl⟩ | ⟨index, entered, hReleased, hLive, rfl⟩
  · rcases hEvent with rfl | rfl <;> exact agreed.enter nested
  · cases e with
    | enter executor | blockOn executor => simp [released] at hReleased
    | drop _ | leave => exact agreed.release hLive (nested index entered hReleased hLive)

/-- No assertion of a dropped `ContextRef` fails, and the current context follows
what is live through a run exactly if the steps of the run are nested. -/
theorem follows_iff_nested (steps : List (State E × Event E)) (s : State E)
    (run : (system E).Run steps s) :
    s.failed = false ∧ (((∀ x ∈ steps, Follows x.1) ∧ Follows s) ↔ Meets Nested steps) := by
  refine ⟨(owner_reachable run.reachable).ok, ?_⟩
  suffices hAgreed : Meets Nested steps → Agreed s ∧ ∀ x ∈ steps, Follows x.1 by
    refine ⟨?_, fun nested => ?_⟩
    · rintro ⟨hBefore, hAfter⟩
      clear hAgreed
      induction run with
      | refl => simp
      | step prior last ih =>
          rw [meets_append, meets_singleton]
          have owner := owner_reachable (System.Run.reachable prior)
          simp only [List.mem_append, List.mem_singleton, or_imp, forall_and, forall_eq] at hBefore
          exact ⟨ih hBefore.1 hBefore.2, nested_of_follows owner last hAfter⟩
    · obtain ⟨agreed, hBefore⟩ := hAgreed nested
      exact ⟨hBefore, agreed.follows (owner_reachable run.reachable)⟩
  intro nested
  induction run with
  | refl => simp [Agreed, system]
  | step prior last ih =>
      rw [meets_append, meets_singleton] at nested
      obtain ⟨agreed, hBefore⟩ := ih nested.1
      refine ⟨agreed.next nested.2 last, fun x hMem => ?_⟩
      rcases List.mem_append.mp hMem with hMem | hMem
      · exact hBefore x hMem
      · obtain rfl := List.mem_singleton.mp hMem
        exact agreed.follows (owner_reachable (System.Run.reachable prior))

/-- A guard, a call of `block_on` within it, and the guard dropped after the call. -/
theorem follows_iff_nested_blockOn : ∃ steps s, (system Bool).Run steps s ∧
    s.live = [] ∧ s.failed = false ∧
    (((∀ x ∈ steps, Follows x.1) ∧ Follows s) ↔ Meets Nested steps) := by
  obtain ⟨s, run, hLive⟩ := (system Bool).exists_run_of_replay
    [.enter true, .blockOn true, .leave, .drop 0] State.live [] (by decide)
  exact ⟨_, s, run, hLive, follows_iff_nested _ s run⟩

/-- A runtime is entered while a guard of another one is live. -/
theorem secondRuntime_hidden : ¬∀ steps s, (system Bool).Run steps s → Follows s := by
  intro h
  obtain ⟨s, run, hs⟩ := (system Bool).exists_run_of_replay [.enter true, .enter false]
    (fun s => ((tryCurrent s).map (·.context.executor), s.live.head?.map Entered.executor))
    (some true, some false) (by decide)
  have hFollows := h _ s run
  simp only [Prod.mk.injEq] at hs
  rw [Follows, hs.1, hs.2] at hFollows
  simp at hFollows

end Context
end Yaar.Runtime
