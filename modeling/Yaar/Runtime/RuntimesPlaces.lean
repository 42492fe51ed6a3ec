import Yaar.Runtime.Runtimes

/-! Where the runnables of an executor are, and the steps that only move them. -/
namespace Yaar.Runtime.Runtimes

open Yaar.Runtime.Task (TaskData)

variable {T R C K : Type*}

/-- The executor a task was spawned on. -/
def State.On (s : State T R C K) (k : K) (executor : R) : Prop :=
  (s.tasks k).map TaskCell.executor = some executor

def State.executorOf (s : State T R C K) (c : C) : Option R :=
  (s.contexts c).map Context.executor

/-- The executor of the current context of a thread. -/
def State.currentExecutor (s : State T R C K) (t : T) : Option R :=
  (s.threads t).current.bind s.executorOf

/-- An executor has a runnable in its injector, in a run queue or in a buffer of
one of its threads, or one of its threads runs it. -/
inductive State.Has (s : State T R C K) (executor : R) (k : K) : Prop where
  | injector (h : k ∈ s.injectors executor)
  | queue (i : Nat) (h : k ∈ s.queues executor i)
  | intercept (c : C) (context : Context R K) (ready : List K) (hc : s.contexts c = some context)
      (hExecutor : context.executor = executor) (hReady : context.intercept = some ready)
      (h : k ∈ ready)
  | ready (t : T) (call : Call R C K) (hCall : call ∈ (s.threads t).calls)
      (hc : s.executorOf call.context = some executor) (h : k ∈ call.ready ∨ call.taken = some k)
  | running (t : T) (call : Call R C K) (hCall : call ∈ (s.threads t).calls)
      (hc : s.executorOf call.context = some executor) (h : call.running = some k)

/-- The part of a task, and of a call, that its buffers and wakes leave alone. -/
def TaskCell.kept (task : TaskCell R) : R × TaskData := (task.executor, task.data)

def Call.kept (call : Call R C K) : R × C × Bool × Option K :=
  (call.executor, call.context, call.searching, call.running)

/-- A step that only moves runnables about and leads to `new` ones in places. -/
structure Keeps (s s' : State T R C K) (new : R → K → Prop) : Prop where
  tasks : ∀ k, (s'.tasks k).map TaskCell.kept = (s.tasks k).map TaskCell.kept
  pending : s'.pending = s.pending
  searching : s'.searching = s.searching
  tokens : s'.tokens = s.tokens
  refused : ∀ t, (s'.threads t).refused = (s.threads t).refused
  calls : ∀ t, (s'.threads t).calls.map Call.kept = (s.threads t).calls.map Call.kept
  contexts : ∀ c executor, s.executorOf c = some executor → s'.executorOf c = some executor
  current : ∀ t c, (s'.threads t).current = some c →
    (s.threads t).current = some c ∨ s'.executorOf c ≠ none
  has : ∀ executor k, s'.Has executor k → s.Has executor k ∨ new executor k

theorem Keeps.refl (s : State T R C K) : Keeps s s fun _ _ => False :=
  ⟨fun _ => rfl, rfl, rfl, rfl, fun _ => rfl, fun _ => rfl, fun _ _ => id, fun _ _ => Or.inl,
    fun _ _ => Or.inl⟩

theorem Keeps.trans {s s' s'' : State T R C K} {new new' : R → K → Prop} (first : Keeps s s' new)
    (second : Keeps s' s'' new') :
    Keeps s s'' fun executor k => new executor k ∨ new' executor k where
  tasks k := (second.tasks k).trans (first.tasks k)
  pending := second.pending.trans first.pending
  searching := second.searching.trans first.searching
  tokens := second.tokens.trans first.tokens
  refused t := (second.refused t).trans (first.refused t)
  calls t := (second.calls t).trans (first.calls t)
  contexts c executor h := second.contexts c executor (first.contexts c executor h)
  current t c h := by
    rcases second.current t c h with hSame | hSome
    · refine (first.current t c hSame).imp id fun hOpen => ?_
      obtain ⟨executor, hExecutor⟩ := Option.ne_none_iff_exists'.mp hOpen
      simp [second.contexts c executor hExecutor]
    · exact Or.inr hSome
  has executor k h := by
    rcases second.has executor k h with hHas | hNew
    · exact (first.has executor k hHas).imp id Or.inl
    · exact Or.inr (Or.inr hNew)

theorem Keeps.mono {s s' : State T R C K} {new new' : R → K → Prop} (keeps : Keeps s s' new)
    (h : ∀ executor k, new executor k → s.Has executor k ∨ new' executor k) : Keeps s s' new' :=
  { keeps with has := fun executor k hHas => (keeps.has executor k hHas).elim Or.inl (h executor k) }

/-- A task stays on the executor it was spawned on. -/
theorem Keeps.on {s s' : State T R C K} {new : R → K → Prop} (keeps : Keeps s s' new) {k : K}
    {executor : R} : s'.On k executor ↔ s.On k executor := by
  have hTasks := congrArg (Option.map Prod.fst) (keeps.tasks k)
  simp only [Option.map_map] at hTasks
  have hSame : (s'.tasks k).map TaskCell.executor = (s.tasks k).map TaskCell.executor := hTasks
  rw [State.On, hSame, State.On]

theorem keeps_setInjector [DecidableEq R] (s : State T R C K) (executor : R) (injector : List K) :
    Keeps s { s with injectors := Function.update s.injectors executor injector } fun other k =>
      other = executor ∧ k ∈ injector :=
  { Keeps.refl s with
    has := fun other k h => by
      cases h with
      | injector h =>
          simp only [Function.update_apply] at h
          split at h
          · next hEq => exact Or.inr ⟨hEq, h⟩
          · exact Or.inl (.injector h)
      | queue i h => exact Or.inl (.queue i h)
      | intercept c context ready hc hExecutor hReady h =>
          exact Or.inl (.intercept c context ready hc hExecutor hReady h)
      | ready t call hCall hc h => exact Or.inl (.ready t call hCall hc h)
      | running t call hCall hc h => exact Or.inl (.running t call hCall hc h) }

theorem keeps_inject [DecidableEq R] (s : State T R C K) (executor : R) (runnables : List K) :
    Keeps s (s.inject executor runnables) fun other k => other = executor ∧ k ∈ runnables :=
  (keeps_setInjector s executor _).mono fun _ _ ⟨hEq, hMem⟩ =>
    (List.mem_append.mp hMem).imp (fun hOld => .injector (hEq ▸ hOld)) fun hNew => ⟨hEq, hNew⟩

theorem keeps_setQueue [DecidableEq R] (s : State T R C K) (executor : R) (i : Nat) (queue : List K) :
    Keeps s (s.setQueue executor i queue) fun other k => other = executor ∧ k ∈ queue :=
  { Keeps.refl s with
    has := fun other k h => by
      cases h with
      | injector h => exact Or.inl (.injector h)
      | queue j h =>
          by_cases hEq : other = executor
          · subst hEq
            simp only [State.setQueue, Function.update_self, Function.update_apply] at h
            split at h
            · exact Or.inr ⟨rfl, h⟩
            · exact Or.inl (.queue j h)
          · simp only [State.setQueue, Function.update_of_ne hEq] at h
            exact Or.inl (.queue j h)
      | intercept c context ready hc hExecutor hReady h =>
          exact Or.inl (.intercept c context ready hc hExecutor hReady h)
      | ready t call hCall hc h => exact Or.inl (.ready t call hCall hc h)
      | running t call hCall hc h => exact Or.inl (.running t call hCall hc h) }

/-- A change to an open context of anything but its executor. -/
theorem keeps_setContext [DecidableEq C] (s : State T R C K) {c : C} {context context' : Context R K}
    (hc : s.contexts c = some context) (hSame : context'.executor = context.executor) :
    Keeps s (s.setContext c context') fun executor k =>
      executor = context.executor ∧ ∃ ready, context'.intercept = some ready ∧ k ∈ ready := by
  have hExecutor : ∀ d, (s.setContext c context').executorOf d = s.executorOf d := by
    intro d
    by_cases hEq : d = c
    · subst hEq
      simp [State.executorOf, State.setContext, hc, hSame]
    · simp [State.executorOf, State.setContext, Function.update_of_ne hEq]
  refine { Keeps.refl s with
    contexts := fun d executor h => by rw [hExecutor, h]
    current := fun t d h => Or.inl h
    has := fun executor k h => ?_ }
  cases h with
  | injector h => exact Or.inl (.injector h)
  | queue i h => exact Or.inl (.queue i h)
  | intercept d other ready hd hOther hReady h =>
      by_cases hEq : d = c
      · subst hEq
        obtain rfl : context' = other := by simpa [State.setContext] using hd
        exact Or.inr ⟨by rw [← hOther, hSame], ready, hReady, h⟩
      · simp only [State.setContext, Function.update_of_ne hEq] at hd
        exact Or.inl (.intercept d other ready hd hOther hReady h)
  | ready t call hCall hd h => exact Or.inl (.ready t call hCall (hExecutor _ ▸ hd) h)
  | running t call hCall hd h => exact Or.inl (.running t call hCall (hExecutor _ ▸ hd) h)

/-- A new buffer, and a new runnable to run, for the innermost call of a thread. -/
theorem keeps_setCall [DecidableEq T] (s : State T R C K) {t : T} {call : Call R C K} {rest : List (Call R C K)}
    (hCalls : (s.threads t).calls = call :: rest) (ready : List K) (taken : Option K) :
    Keeps s (s.setCall t { call with ready := ready, taken := taken } rest) fun executor k =>
      s.executorOf call.context = some executor ∧ (k ∈ ready ∨ taken = some k) := by
  have hThread : ∀ u, ((s.setCall t { call with ready := ready, taken := taken } rest).threads u).calls =
      if u = t then { call with ready := ready, taken := taken } :: rest else (s.threads u).calls := by
    intro u
    simp only [State.setCall, State.setThread, Function.update_apply]
    split <;> rfl
  have hOther : ∀ u, ((s.setCall t { call with ready := ready, taken := taken } rest).threads u).refused =
      (s.threads u).refused ∧ ((s.setCall t { call with ready := ready, taken := taken } rest).threads u).current =
      (s.threads u).current := by
    intro u
    simp only [State.setCall, State.setThread, Function.update_apply]
    split
    · next hEq => simp [hEq]
    · simp
  have hMem : ∀ u other, other ∈ ((s.setCall t { call with ready := ready, taken := taken } rest).threads u).calls →
      other ∈ (s.threads u).calls ∨ u = t ∧ other = { call with ready := ready, taken := taken } := by
    intro u other h
    rw [hThread] at h
    split at h
    · next hEq =>
        rcases List.mem_cons.mp h with rfl | hRest
        · exact Or.inr ⟨hEq, rfl⟩
        · exact Or.inl (by rw [hEq, hCalls]; exact List.mem_cons_of_mem _ hRest)
    · exact Or.inl h
  refine { Keeps.refl s with
    refused := fun u => (hOther u).1
    calls := fun u => ?_
    current := fun u c h => Or.inl ((hOther u).2 ▸ h)
    has := fun executor k h => ?_ }
  · rw [hThread]
    split
    · next hEq => simp [hEq, hCalls, Call.kept]
    · rfl
  · cases h with
    | injector h => exact Or.inl (.injector h)
    | queue i h => exact Or.inl (.queue i h)
    | intercept c context ready hc hExecutor hReady h =>
        exact Or.inl (.intercept c context ready hc hExecutor hReady h)
    | ready u other hCall hc h =>
        rcases hMem u other hCall with hOld | ⟨rfl, rfl⟩
        · exact Or.inl (.ready u other hOld hc h)
        · exact Or.inr ⟨hc, h⟩
    | running u other hCall hc h =>
        rcases hMem u other hCall with hOld | ⟨rfl, rfl⟩
        · exact Or.inl (.running u other hOld hc h)
        · exact Or.inl (.running u call (by simp [hCalls]) hc h)

theorem keeps_setProducer [DecidableEq R] (s : State T R C K) (executor : R) (i : Nat) (present : Bool) :
    Keeps s (s.setProducer executor i present) fun _ _ => False :=
  { Keeps.refl s with
    has := fun other k h => by
      cases h with
      | injector h => exact Or.inl (.injector h)
      | queue j h => exact Or.inl (.queue j h)
      | intercept c context ready hc hExecutor hReady h =>
          exact Or.inl (.intercept c context ready hc hExecutor hReady h)
      | ready t call hCall hc h => exact Or.inl (.ready t call hCall hc h)
      | running t call hCall hc h => exact Or.inl (.running t call hCall hc h) }

/-- A new state word of a task. -/
theorem keeps_setTask [DecidableEq K] (s : State T R C K) {k : K} {task task' : TaskCell R}
    (hTask : s.tasks k = some task) (hSame : task'.kept = task.kept) :
    Keeps s (s.setTask k task') fun _ _ => False :=
  { Keeps.refl s with
    tasks := fun j => by
      simp only [State.setTask, Function.update_apply]
      split
      · next hEq => simp [hEq, hTask, hSame]
      · rfl
    has := fun other j h => by
      cases h with
      | injector h => exact Or.inl (.injector h)
      | queue i h => exact Or.inl (.queue i h)
      | intercept c context ready hc hExecutor hReady h =>
          exact Or.inl (.intercept c context ready hc hExecutor hReady h)
      | ready t call hCall hc h => exact Or.inl (.ready t call hCall hc h)
      | running t call hCall hc h => exact Or.inl (.running t call hCall hc h) }

/-- A context that is closed leaves no runnable behind, or its buffer was elsewhere
already. -/
theorem keeps_release [DecidableEq R] [DecidableEq C] (s : State T R C K) {c : C} {context : Context R K}
    (hc : s.contexts c = some context)
    (hReady : ∀ ready k, context.intercept = some ready → k ∈ ready → s.Has context.executor k) :
    Keeps s (s.release c context) fun _ _ => False := by
  unfold State.release
  split
  · exact Keeps.refl s
  · next i hProducer =>
      refine Keeps.mono ((keeps_setProducer s context.executor i true).trans
        (keeps_setContext _ hc ?_)) ?_
      · rfl
      rintro executor k (hNone | ⟨rfl, ready, hSome, hk⟩)
      · exact hNone.elim
      · exact Or.inl (hReady ready k hSome hk)

/-- A runnable is scheduled into a place of the executor. -/
theorem keeps_schedule [DecidableEq R] [DecidableEq C] {s s' : State T R C K} {executor : R} {k : K} {context : Option C}
    (h : s.schedule executor k context = some s') :
    Keeps s s' fun other j => other = executor ∧ j = k := by
  cases context with
  | none =>
      obtain rfl := Option.some.inj h
      exact (keeps_inject s executor [k]).mono fun other j hNew =>
        Or.inr ⟨hNew.1, by simpa using hNew.2⟩
  | some c =>
      obtain ⟨context, hc, hNext⟩ := Option.bind_eq_some_iff.mp h
      split at hNext
      · simp at hNext
      · next hSame =>
          obtain rfl : executor = context.executor := by simpa using hSame
          split at hNext
          · next ready hReady =>
              obtain rfl := Option.some.inj hNext
              refine Keeps.mono (keeps_setContext s hc ?_) ?_
              · rfl
              rintro other j ⟨rfl, ready', hReady', hj⟩
              obtain rfl : ready ++ [k] = ready' := by simpa using hReady'
              rcases List.mem_append.mp hj with hOld | hNew
              · exact Or.inl (.intercept c context ready hc rfl hReady hOld)
              · exact Or.inr ⟨rfl, by simpa using hNew⟩
          · next i _ hProducer =>
              obtain rfl := Option.some.inj hNext
              refine (keeps_setQueue s context.executor i _).mono ?_
              rintro other j ⟨rfl, hj⟩
              rcases List.mem_append.mp hj with hOld | hNew
              · exact Or.inl (.queue i hOld)
              · exact Or.inr ⟨rfl, by simpa using hNew⟩
          · obtain rfl := Option.some.inj hNext
            exact (keeps_inject s context.executor [k]).mono fun other j hNew =>
              Or.inr ⟨hNew.1, by simpa using hNew.2⟩

/-- A thread enters a new context, or leaves the one it has. -/
theorem keeps_setCurrent [DecidableEq T] (s : State T R C K) (t : T) {current : Option C}
    (hOpen : ∀ c, current = some c → s.executorOf c ≠ none) :
    Keeps s (s.setThread t { s.threads t with current := current }) fun _ _ => False := by
  have hCalls : ∀ u, ((s.setThread t { s.threads t with current := current }).threads u).calls =
      (s.threads u).calls := by
    intro u
    simp only [State.setThread, Function.update_apply]
    split
    · next hEq => rw [hEq]
    · rfl
  refine { Keeps.refl s with
    refused := fun u => ?_
    calls := fun u => by rw [hCalls]
    current := fun u c h => ?_
    has := fun executor k h => ?_ }
  · simp only [State.setThread, Function.update_apply]
    split
    · next hEq => rw [hEq]
    · rfl
  · simp only [State.setThread, Function.update_apply] at h
    split at h
    · exact Or.inr (hOpen c h)
    · exact Or.inl h
  · cases h with
    | injector h => exact Or.inl (.injector h)
    | queue i h => exact Or.inl (.queue i h)
    | intercept c context ready hc hExecutor hReady h =>
        exact Or.inl (.intercept c context ready hc hExecutor hReady h)
    | ready u call hCall hc h => exact Or.inl (.ready u call (hCalls u ▸ hCall) hc h)
    | running u call hCall hc h => exact Or.inl (.running u call (hCalls u ▸ hCall) hc h)

/-- A context that no call is in is opened. -/
theorem keeps_open [DecidableEq C] (s : State T R C K) {c : C} (executor : R)
    (hFresh : s.contexts c = none)
    (hCalls : ∀ t, ∀ call ∈ (s.threads t).calls, s.executorOf call.context ≠ none) :
    Keeps s (s.setContext c ⟨executor, none, none⟩) fun _ _ => False := by
  have hNe : ∀ d, s.executorOf d ≠ none → d ≠ c := by
    rintro d h rfl
    simp [State.executorOf, hFresh] at h
  have hExecutor : ∀ d, d ≠ c →
      (s.setContext c ⟨executor, none, none⟩).executorOf d = s.executorOf d := fun d hd => by
    simp [State.executorOf, State.setContext, Function.update_of_ne hd]
  refine { Keeps.refl s with
    contexts := fun d other h => by rw [hExecutor d (hNe d (by simp [h])), h]
    current := fun t d h => Or.inl h
    has := fun other k h => ?_ }
  cases h with
  | injector h => exact Or.inl (.injector h)
  | queue i h => exact Or.inl (.queue i h)
  | intercept d context ready hd hSame hReady h =>
      by_cases hEq : d = c
      · subst hEq
        obtain rfl : ⟨executor, none, none⟩ = context := by simpa [State.setContext] using hd
        simp at hReady
      · simp only [State.setContext, Function.update_of_ne hEq] at hd
        exact Or.inl (.intercept d context ready hd hSame hReady h)
  | ready t call hCall hd h =>
      exact Or.inl (.ready t call hCall (hExecutor _ (hNe _ (hCalls t call hCall)) ▸ hd) h)
  | running t call hCall hd h =>
      exact Or.inl (.running t call hCall (hExecutor _ (hNe _ (hCalls t call hCall)) ▸ hd) h)

theorem keeps_enter [DecidableEq T] [DecidableEq C] {s s' : State T R C K} {t : T} {executor : R}
    {c d : C} {owned : Bool}
    (hCalls : ∀ t, ∀ call ∈ (s.threads t).calls, s.executorOf call.context ≠ none)
    (h : s.enter t executor c = some (s', d, owned)) : Keeps s s' fun _ _ => False := by
  unfold State.enter at h
  split at h
  · obtain ⟨rfl, -⟩ := Prod.mk.inj (Option.some.inj h)
    exact Keeps.refl s
  · split at h
    · next hFresh =>
        obtain ⟨rfl, -⟩ := Prod.mk.inj (Option.some.inj h)
        refine ((keeps_open s executor hFresh hCalls).trans
          (keeps_setCurrent _ t fun e he => ?_)).mono fun _ _ hNone =>
            (or_self_iff.mp hNone).elim
        obtain rfl := Option.some.inj he
        simp [State.executorOf, State.setContext]
    · simp at h

section
variable [DecidableEq R] [DecidableEq C]

/-- `transition_to_running` returns only where the context has no producer, the call is
not searching and the producer of the worker is in its place. -/
theorem transitionToRunning_eq {s s' : State T R C K} {call call' : Call R C K} {i : Nat}
    (h : s.transitionToRunning call i = some (s', call')) :
    call.searching = false ∧ call' = { call with searching := true } ∧
      ∃ context, s.contexts call.context = some context ∧ context.producer = none ∧
        s' = (s.setProducer context.executor i false).setContext call.context
          { context with producer := some i } := by
  obtain ⟨context, hContext, h⟩ := Option.bind_eq_some_iff.mp h
  split at h
  · next hOk =>
      obtain ⟨rfl, rfl⟩ := Prod.mk.inj (Option.some.inj h)
      exact ⟨hOk.2.1, rfl, context, hContext, hOk.1, rfl⟩
  · simp at h

theorem keeps_transitionToRunning {s s' : State T R C K} {call call' : Call R C K} {i : Nat}
    (h : s.transitionToRunning call i = some (s', call')) : Keeps s s' fun _ _ => False := by
  obtain ⟨-, -, context, hContext, -, rfl⟩ := transitionToRunning_eq h
  refine Keeps.mono ((keeps_setProducer s context.executor i false).trans
    (keeps_setContext _ hContext ?_)) ?_
  · rfl
  · rintro executor k (hNone | ⟨rfl, ready, hReady, hk⟩)
    · exact hNone.elim
    · exact Or.inl (.intercept call.context context ready hContext rfl hReady hk)

end

end Yaar.Runtime.Runtimes
