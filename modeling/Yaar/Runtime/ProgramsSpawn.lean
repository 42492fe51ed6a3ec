import Yaar.Runtime.ProgramsSteps

/-! A future that gets on by itself, and one that spawns another. -/
namespace Yaar.Runtime.Programs

open Machine TaskState
open AtomicWaker (Polled Woken Fits)

variable {T E V : Type} {s s' : State T E V} {v v' : View E V} {stage stage' : TaskId → Stage T E V}
  {t : T} {id c count : TaskId} {body : Body E V} {line line' : Line E V}

/-! ## A future that gets on -/

/-- Something else is left of a future. -/
def View.become (v : View E V) (id : TaskId) (next : Option (Body E V)) : View E V :=
  { v with body := Function.update v.body id next }

variable {next : Option (Body E V)}

theorem View.become_self : (v.become id next).body id = next := Function.update_self ..

theorem View.become_of_ne {j : TaskId} (hj : j ≠ id) : (v.become id next).body j = v.body j :=
  Function.update_of_ne hj ..

/-- A future after the step is the new one, or was there before. -/
theorem View.body_become {j : TaskId} {rest : Body E V} (h : (v.become id next).body j = some rest) :
    j = id ∧ next = some rest ∨ j ≠ id ∧ v.body j = some rest := by
  by_cases hj : j = id
  · subst hj
    rw [View.become_self] at h
    exact .inl ⟨rfl, h⟩
  · rw [View.become_of_ne hj] at h
    exact .inr ⟨hj, h⟩

/-- Handles may go, as long as the task waits for nobody. -/
theorem Linked.become (linked : Linked count v) (hBody : v.body id = some body)
    (hMeans : ∀ rest, next = some rest → rest.meaning v.output = v.output id)
    (hHandles : ∀ rest i c, next = some rest → rest.Handle i c →
      body.Handle i c ∧ v.polled c = .away)
    (hWaits : ∀ c, v.polled c ≠ .waiting id) : Linked count (v.become id next) where
  means j rest hRest := by
    rcases View.body_become hRest with ⟨rfl, hNext⟩ | ⟨-, hOld⟩
    · exact hMeans rest hNext
    · exact linked.means j rest hOld
  held j rest i c hRest hHandle := by
    have held : Held count v j c := by
      rcases View.body_become hRest with ⟨rfl, hNext⟩ | ⟨-, hOld⟩
      · exact linked.held j body i c hBody (hHandles rest i c hNext hHandle).1
      · exact linked.held j rest i c hOld hHandle
    exact ⟨held.owner, held.below, held.ordered, held.notMain⟩
  distinct j rest i k c hRest hi hk := by
    rcases View.body_become hRest with ⟨rfl, hNext⟩ | ⟨-, hOld⟩
    · exact linked.distinct j body i k c hBody (hHandles rest i c hNext hi).1
        (hHandles rest k c hNext hk).1
    · exact linked.distinct j rest i k c hOld hi hk
  away j rest i c hRest hHandle hAwaits := by
    rcases View.body_become hRest with ⟨rfl, hNext⟩ | ⟨-, hOld⟩
    · exact (hHandles rest i c hNext hHandle).2
    · exact linked.away j rest i c hOld hHandle hAwaits
  waiting c j hWaiting := by
    have hj : j ≠ id := by
      rintro rfl
      exact hWaits c hWaiting
    obtain ⟨rest, hRest, hAwaits⟩ := linked.waiting c j hWaiting
    exact ⟨rest, by rw [View.become_of_ne hj, hRest], hAwaits⟩

/-- A task without a handle to await waits for nobody. -/
theorem Linked.not_waiting (linked : Linked count v) (hBody : v.body id = some body)
    (hAwaits : body.awaits = none) (c : TaskId) : v.polled c ≠ .waiting id := by
  intro hWaiting
  obtain ⟨body', hBody', hAwaits'⟩ := linked.waiting c id hWaiting
  obtain rfl := Option.some.inj (hBody.symm.trans hBody')
  rw [hAwaits] at hAwaits'
  cases hAwaits'

/-- No handle is kept that was not kept before, if the new future has none besides. -/
theorem View.kept_of_become (hBody : v.body id = some body)
    (hHandles : ∀ rest i c, next = some rest → rest.Handle i c → body.Handle i c)
    (h : (v.become id next).Kept c) : v.Kept c := by
  rcases h with rfl | ⟨j, rest, i, hRest, hHandle⟩
  · exact .inl rfl
  · rcases View.body_become hRest with ⟨rfl, hNext⟩ | ⟨-, hOld⟩
    · exact .inr ⟨j, body, i, hBody, hHandles rest i c hNext hHandle⟩
    · exact .inr ⟨j, rest, i, hOld, hHandle⟩

variable [DecidableEq T]

/-- A thread does what its future says next, at which no waker is touched. -/
theorem Fine.become (fine : Fine s v stage) (tasks : TaskId → Task E V) (next : Option (Body E V))
    (hRun : stage id = .running t line) (hBefore : (Stage.running t line).woken = .before)
    (hBefore' : (Stage.running t line').woken = .before)
    (hWaker : ∀ j, (tasks j).waker = (s.tasks j).waker)
    (hFinds : ∀ j, j ≠ id → (stage j).Finds v (Over stage) (tasks j) j)
    (linked : Linked s.count (v.become id next))
    (finds : line'.Finds (v.become id next) (Over stage) (tasks id) id)
    (hKept : ∀ c, (v.become id next).Kept c → (tasks c).data ≠ .joined)
    (hWeight : line'.weight (next.elim 0 (Body.cost v.output)) < line.weight (v.cost id)) :
    Goes s ({ s with tasks }.goto t id line') v stage := by
  have hOver : Over (Function.update stage id (.running t line')) = Over stage :=
    over_update (by rw [hRun, hBefore, hBefore'])
  have same (j : TaskId) (hj : j ≠ id) : Same { s with tasks } ({ s with tasks }.goto t id line') v
      (v.become id next) stage (Function.update stage id (.running t line')) j := by
    constructor
    · exact Function.update_of_ne hj ..
    · rfl
    · rfl
    · exact Function.update_of_ne hj ..
    · rfl
    · exact fun _ _ _ _ => rfl
    · exact fun _ _ => by rw [hOver]
  have fine' : Fine ({ s with tasks }.goto t id line') (v.become id next)
      (Function.update stage id (.running t line')) := by
    refine ⟨fine.placed.goto hRun line', linked, fun j => ?_, fun j hj => ?_, hKept, fine.main⟩
    · by_cases hj : j = id
      · subst hj
        rw [hOver, Function.update_self]
        exact finds
      · exact (same j hj).finds (hFinds j hj)
    · have fits := fine.fits j hj
      rw [← hWaker j] at fits
      by_cases hEq : j = id
      · subst hEq
        rw [Function.update_self, hBefore']
        rwa [hRun, hBefore] at fits
      · rwa [Function.update_of_ne hEq]
  refine ⟨_, _, fine', rfl, rank_lt_of_one rfl (fine.below_of_run hRun) ?_ fun j hj => ?_⟩
  · have hCost : (v.become id next).cost id = next.elim 0 (Body.cost v.output) := by
      rw [View.cost, View.become_self]
      rfl
    rw [weight, weight, hCost, Function.update_self, hRun]
    exact Nat.add_lt_add_of_lt_of_le hWeight (by rw [← hWaker]; rfl)
  · refine (((same j hj).weight_eq (fun _ _ _ _ _ => rfl) rfl).trans ?_).le
    rw [weight, weight, ← hWaker]

/-- A future comes to its end in a poll. -/
theorem Fine.settle {output : Output E V} (fine : Fine s v stage)
    (hRun : stage id = .running t (.poll body)) (hAwaits : body.awaits = none)
    (hMeans : body.meaning v.output = output) :
    Goes s (s.goto t id (.storeReady output)) v stage := by
  obtain ⟨hBody, hState, hData, -⟩ := fine.findsLine hRun
  have hOutput : output = v.output id := hMeans.symm.trans (fine.linked.means id body hBody)
  refine fine.become s.tasks none hRun rfl rfl (fun _ => rfl)
    (fun j _ => fine.finds j) ?_ ⟨View.become_self, hData, hOutput⟩ ?_ ?_
  · exact fine.linked.become hBody (by simp) (by simp)
      (fine.linked.not_waiting hBody hAwaits)
  · intro c hKept
    have hHandles (rest : Body E V) (i : Nat) (c : TaskId) (hRest : none = some rest)
        (_ : rest.Handle i c) : body.Handle i c := by
      cases hRest
    exact fine.unjoined c (View.kept_of_become hBody hHandles hKept)
  · simp only [Line.weight]
    omega

/-- A future yields, and has its handles as before. -/
theorem Fine.yieldNow {future : Future E V} (fine : Fine s v stage)
    (hRun : stage id = .running t (.poll body)) (hFuture : body.future = .yieldNow future) :
    Goes s (s.goto t id (.wakeByRef ⟨future, body.handles⟩)) v stage := by
  obtain ⟨hBody, hState, hData, -⟩ := fine.findsLine hRun
  have hAwaits : body.awaits = none := by rw [Body.awaits, hFuture]
  have hAway (i : Nat) (c : TaskId) (hHandle : body.Handle i c) : v.polled c = .away :=
    fine.linked.away id body i c hBody hHandle (by simp [hAwaits])
  have hHandles (rest : Body E V) (i : Nat) (c : TaskId)
      (hRest : some (⟨future, body.handles⟩ : Body E V) = some rest) (hHandle : rest.Handle i c) :
      body.Handle i c := by
    obtain rfl := Option.some.inj hRest
    exact hHandle
  refine fine.become s.tasks (some ⟨future, body.handles⟩) hRun rfl rfl
    (fun _ => rfl) (fun j _ => fine.finds j) ?_ ⟨View.become_self, hState, hData, ?_⟩ ?_ ?_
  · refine fine.linked.become hBody (fun rest hRest => ?_) (fun rest i c hRest hHandle => ?_)
      (fine.linked.not_waiting hBody hAwaits)
    · obtain rfl := Option.some.inj hRest
      have hMeans := fine.linked.means id body hBody
      rw [Body.meaning, hFuture] at hMeans
      exact hMeans
    · exact ⟨hHandles rest i c hRest hHandle, hAway i c (hHandles rest i c hRest hHandle)⟩
  · intro c hSome
    obtain ⟨handle, _, -, hHandle⟩ := Body.awaits_iff.mp hSome
    exact .inl (hAway handle c hHandle)
  · exact fun c hKept => fine.unjoined c (View.kept_of_become hBody hHandles hKept)
  · have hCost : v.cost id = 8 + Body.cost v.output ⟨future, body.handles⟩ := by
      rw [View.cost, hBody, Option.elim_some, Body.cost, hFuture]
      rfl
    rw [hCost]
    simp only [Line.weight, Option.elim_some]
    omega

/-! ## `spawn` -/

/-- The new task comes right after the one that spawns it. -/
def View.spawn (v : View E V) (id new : TaskId) (child rest : Body E V) : View E V where
  body := Function.update (Function.update v.body id (some rest)) new (some child)
  output := Function.update v.output new (child.meaning v.output)
  polled := Function.update v.polled new .away
  owner := fun c => if c = new then id else if some c ∈ child.handles then new else v.owner c
  order := fun c => if c = new then v.order id + 1
    else if v.order c ≤ v.order id then v.order c else v.order c + 1

section Spawn

variable {future after : Future E V} {moved : Nat}

/-- The future that is spawned. -/
abbrev Body.child (body : Body E V) (future : Future E V) (moved : Nat) : Body E V :=
  ⟨future, body.handles.take moved⟩

/-- What is left of the future that spawns it. -/
abbrev Body.parent (body : Body E V) (new : TaskId) (after : Future E V) (moved : Nat) : Body E V :=
  ⟨after, some new :: body.handles.drop moved⟩

/-- The spawned future has the first handles of the one that spawns it. -/
theorem Body.handle_child {i : Nat} (h : (body.child future moved).Handle i c) :
    i < moved ∧ body.Handle i c := by
  rw [Body.Handle, List.getElem?_take] at h
  split at h
  · next hLt => exact ⟨hLt, h⟩
  · cases h

/-- The other has the new handle and the rest of its own. -/
theorem Body.handle_parent {i : Nat} {new : TaskId} (h : (body.parent new after moved).Handle i c) :
    i = 0 ∧ c = new ∨ ∃ k, i = k + 1 ∧ body.Handle (moved + k) c := by
  cases i with
  | zero => exact .inl ⟨rfl, (Option.some.inj (Option.some.inj h)).symm⟩
  | succ k =>
      rw [Body.Handle, List.getElem?_cons_succ, List.getElem?_drop] at h
      exact .inr ⟨k, rfl, h⟩

variable {j new : TaskId} {child rest : Body E V}

theorem View.spawn_body_new : (v.spawn id new child rest).body new = some child :=
  Function.update_self ..

theorem View.spawn_body_self (hNew : id ≠ new) : (v.spawn id new child rest).body id = some rest :=
  (Function.update_of_ne hNew ..).trans (Function.update_self ..)

theorem View.spawn_body_of_ne (hNew : j ≠ new) (hj : j ≠ id) :
    (v.spawn id new child rest).body j = v.body j :=
  (Function.update_of_ne hNew ..).trans (Function.update_of_ne hj ..)

/-- The output of the new task is what its future comes to. -/
theorem View.spawn_output_new : (v.spawn id new child rest).output new = child.meaning v.output :=
  Function.update_self ..

theorem View.spawn_output_of_ne (hNew : j ≠ new) :
    (v.spawn id new child rest).output j = v.output j :=
  Function.update_of_ne hNew ..

theorem View.spawn_polled_new : (v.spawn id new child rest).polled new = .away :=
  Function.update_self ..

theorem View.spawn_polled_of_ne (hNew : j ≠ new) :
    (v.spawn id new child rest).polled j = v.polled j :=
  Function.update_of_ne hNew ..

theorem View.spawn_owner_new : (v.spawn id new child rest).owner new = id := if_pos rfl

theorem View.spawn_owner_moved (hNew : j ≠ new) (h : some j ∈ child.handles) :
    (v.spawn id new child rest).owner j = new :=
  (if_neg hNew).trans (if_pos h)

theorem View.spawn_owner_of_ne (hNew : j ≠ new) (h : some j ∉ child.handles) :
    (v.spawn id new child rest).owner j = v.owner j :=
  (if_neg hNew).trans (if_neg h)

/-- The new task comes right after the one that spawns it, and before those that it may
hold. -/
theorem View.spawn_order_new : (v.spawn id new child rest).order new = v.order id + 1 := if_pos rfl

theorem View.spawn_order_self (hNew : id ≠ new) :
    (v.spawn id new child rest).order id = v.order id :=
  (if_neg hNew).trans (if_pos le_rfl)

theorem View.spawn_order_after (hNew : j ≠ new) (h : v.order id < v.order j) :
    (v.spawn id new child rest).order j = v.order j + 1 :=
  (if_neg hNew).trans (if_neg (not_le.mpr h))

/-- The order of the tasks that there are stays. -/
theorem View.spawn_order_lt (hj : j ≠ new) (hc : c ≠ new) (h : v.order j < v.order c) :
    (v.spawn id new child rest).order j < (v.spawn id new child rest).order c := by
  simp only [View.spawn, if_neg hj, if_neg hc]
  split <;> split <;> omega

/-- A future after a spawn is the spawned one, what is left of the one that spawns, or
was there before. -/
theorem View.body_spawn (hNew : id ≠ new) (h : (v.spawn id new child rest).body j = some body) :
    j = new ∧ body = child ∨ j = id ∧ body = rest ∨ j ≠ new ∧ j ≠ id ∧ v.body j = some body := by
  by_cases hj : j = new
  · subst hj
    rw [View.spawn_body_new] at h
    exact .inl ⟨rfl, (Option.some.inj h).symm⟩
  · by_cases hEq : j = id
    · subst hEq
      rw [View.spawn_body_self hNew] at h
      exact .inr (.inl ⟨rfl, (Option.some.inj h).symm⟩)
    · rw [View.spawn_body_of_ne hj hEq] at h
      exact .inr (.inr ⟨hj, hEq, h⟩)

/-- What a task comes to is the same for those that know it. -/
theorem Linked.meaning_spawn (linked : Linked count v) (hBody : v.body j = some body)
    {known : Body E V} (hKnown : ∀ i c, known.Handle i c → ∃ k, body.Handle k c) :
    known.outputs (v.spawn id count child rest).output = known.outputs v.output := by
  refine known.outputs_congr fun i c hHandle => ?_
  obtain ⟨k, hOld⟩ := hKnown i c hHandle
  exact View.spawn_output_of_ne (Nat.ne_of_lt (linked.held j body k c hBody hOld).below)

/-- The view after a future has spawned another. -/
def View.spawned (v : View E V) (id new : TaskId) (body : Body E V) (future : Future E V)
    (moved : Nat) (after : Future E V) : View E V :=
  v.spawn id new (body.child future moved) (body.parent new after moved)

variable (linked : Linked count v) (hNew : v.body count = none) (hBelow : id < count)
  (hBody : v.body id = some body)

include linked hBody

/-- The spawned future has the outputs of the handles that are moved to it. -/
theorem Linked.outputs_child : (body.child future moved).outputs
    (v.spawned id count body future moved after).output = (body.outputs v.output).take moved := by
  rw [View.spawned, linked.meaning_spawn hBody fun i c hHandle => ⟨i, (Body.handle_child hHandle).2⟩,
    Body.outputs, Body.outputs, List.map_take]

/-- What is left has the new output and those of the rest. -/
theorem Linked.outputs_parent : (body.parent count after moved).outputs
    (v.spawned id count body future moved after).output =
      some (future.meaning ((body.outputs v.output).take moved)) ::
        (body.outputs v.output).drop moved := by
  have hDrop : (⟨after, body.handles.drop moved⟩ : Body E V).outputs
      (v.spawned id count body future moved after).output = (body.outputs v.output).drop moved := by
    rw [View.spawned, linked.meaning_spawn hBody, Body.outputs, Body.outputs, List.map_drop]
    intro i c hHandle
    rw [Body.Handle, List.getElem?_drop] at hHandle
    exact ⟨_, hHandle⟩
  rw [← hDrop, Body.outputs, List.map_cons, Option.map_some, View.spawned, View.spawn_output_new,
    Body.meaning, Body.outputs, List.map_take]
  rfl

/-- Nobody waits for a handle that is moved: the future that had it was at a spawn, not
at a join. -/
theorem Linked.away_child {i : Nat} (hFuture : body.future = .spawn future moved after)
    (hHandle : (body.child future moved).Handle i c) :
    (v.spawned id count body future moved after).polled c = .away := by
  have hOld := (Body.handle_child hHandle).2
  have hNone : body.awaits = none := by rw [Body.awaits, hFuture]
  have hc := Nat.ne_of_lt (linked.held id body i c hBody hOld).below
  rw [View.spawned, View.spawn_polled_of_ne hc]
  exact linked.away id body i c hBody hOld (by simp [hNone])

theorem Linked.away_parent {i : Nat} (hFuture : body.future = .spawn future moved after)
    (hHandle : (body.parent count after moved).Handle i c) :
    (v.spawned id count body future moved after).polled c = .away := by
  rcases Body.handle_parent hHandle with ⟨rfl, rfl⟩ | ⟨k, rfl, hOld⟩
  · exact View.spawn_polled_new
  · have hNone : body.awaits = none := by rw [Body.awaits, hFuture]
    have hc := Nat.ne_of_lt (linked.held id body _ c hBody hOld).below
    rw [View.spawned, View.spawn_polled_of_ne hc]
    exact linked.away id body _ c hBody hOld (by simp [hNone])

include hNew hBelow

/-- Each handle is still held once, by a task that comes before. -/
theorem Linked.held_spawn {held : Body E V} {i : Nat}
    (hHeld : (v.spawned id count body future moved after).body j = some held)
    (hHandle : held.Handle i c) :
    Held (count + 1) (v.spawned id count body future moved after) j c := by
  have hNe : id ≠ count := Nat.ne_of_lt hBelow
  rcases View.body_spawn hNe hHeld with ⟨rfl, rfl⟩ | ⟨rfl, rfl⟩ | ⟨hj, hjId, hOld⟩
  · have held := linked.held id body i c hBody (Body.handle_child hHandle).2
    have hc : c ≠ j := Nat.ne_of_lt held.below
    refine ⟨View.spawn_owner_moved hc (List.mem_of_getElem? hHandle), Nat.lt_succ_of_lt held.below,
      ?_, held.notMain⟩
    rw [View.spawned, View.spawn_order_new, View.spawn_order_after hc held.ordered]
    exact Nat.succ_lt_succ held.ordered
  · rcases Body.handle_parent hHandle with ⟨rfl, rfl⟩ | ⟨k, rfl, hOld⟩
    · refine ⟨View.spawn_owner_new, Nat.lt_succ_self c, ?_, Nat.ne_of_gt (Nat.zero_lt_of_lt hBelow)⟩
      rw [View.spawned, View.spawn_order_new, View.spawn_order_self hNe]
      exact Nat.lt_succ_self _
    · have held := linked.held j body (moved + k) c hBody hOld
      have hc : c ≠ count := Nat.ne_of_lt held.below
      have hStays : some c ∉ (body.child future moved).handles := by
        intro hMem
        obtain ⟨i, hMoved⟩ := List.mem_iff_getElem?.mp hMem
        obtain ⟨hLt, hMoved⟩ : i < moved ∧ body.Handle i c := Body.handle_child hMoved
        have hEq := linked.distinct j body i (moved + k) c hBody hMoved hOld
        omega
      refine ⟨(View.spawn_owner_of_ne hc hStays).trans held.owner, Nat.lt_succ_of_lt held.below,
        ?_, held.notMain⟩
      exact View.spawn_order_lt hNe hc held.ordered
  · have held' := linked.held j held i c hOld hHandle
    have hc : c ≠ count := Nat.ne_of_lt held'.below
    have hStays : some c ∉ (body.child future moved).handles := by
      intro hMem
      obtain ⟨i, hMoved⟩ := List.mem_iff_getElem?.mp hMem
      have hOwner := (linked.held id body i c hBody (Body.handle_child hMoved).2).owner
      exact hjId (held'.owner.symm.trans hOwner)
    refine ⟨(View.spawn_owner_of_ne hc hStays).trans held'.owner, Nat.lt_succ_of_lt held'.below,
      ?_, held'.notMain⟩
    exact View.spawn_order_lt hj hc held'.ordered

/-- A spawn keeps the links. The two futures share out the handles between them, and
together they come to what there was before. -/
theorem Linked.spawn (hFuture : body.future = .spawn future moved after) :
    Linked (count + 1) (v.spawned id count body future moved after) where
  means j held hHeld := by
    rcases View.body_spawn (Nat.ne_of_lt hBelow) hHeld with ⟨rfl, rfl⟩ | ⟨rfl, rfl⟩ | ⟨hj, hjId, hOld⟩
    · rw [Body.meaning, linked.outputs_child hBody, View.spawned, View.spawn_output_new,
        Body.meaning, Body.outputs, Body.outputs, List.map_take]
    · have hMeans := linked.means j body hBody
      rw [Body.meaning, hFuture] at hMeans
      rw [Body.meaning, linked.outputs_parent hBody, View.spawned,
        View.spawn_output_of_ne (Nat.ne_of_lt hBelow), ← hMeans]
      rfl
    · rw [Body.meaning, View.spawned, linked.meaning_spawn hOld fun i c h => ⟨i, h⟩,
        View.spawn_output_of_ne hj]
      exact linked.means j held hOld
  held j held i c hHeld hHandle := linked.held_spawn hNew hBelow hBody hHeld hHandle
  distinct j held i k c hHeld hi hk := by
    rcases View.body_spawn (Nat.ne_of_lt hBelow) hHeld with ⟨rfl, rfl⟩ | ⟨rfl, rfl⟩ | ⟨hj, hjId, hOld⟩
    · exact linked.distinct id body i k c hBody (Body.handle_child hi).2 (Body.handle_child hk).2
    · rcases Body.handle_parent hi with ⟨rfl, rfl⟩ | ⟨i, rfl, hi'⟩
      · rcases Body.handle_parent hk with ⟨rfl, -⟩ | ⟨k, rfl, hk'⟩
        · rfl
        · exact absurd (linked.held j body _ _ hBody hk').below (lt_irrefl _)
      · rcases Body.handle_parent hk with ⟨rfl, rfl⟩ | ⟨k, rfl, hk'⟩
        · exact absurd (linked.held j body _ _ hBody hi').below (lt_irrefl _)
        · have hEq := linked.distinct j body (moved + i) (moved + k) c hBody hi' hk'
          omega
    · exact linked.distinct j held i k c hOld hi hk
  away j held i c hHeld hHandle hAwaits := by
    have hNe := Nat.ne_of_lt hBelow
    rcases View.body_spawn hNe hHeld with ⟨rfl, rfl⟩ | ⟨rfl, rfl⟩ | ⟨hj, hjId, hOld⟩
    · exact linked.away_child hBody hFuture hHandle
    · exact linked.away_parent hBody hFuture hHandle
    · have hBelow := (linked.held j held i c hOld hHandle).below
      rw [View.spawned, View.spawn_polled_of_ne (Nat.ne_of_lt hBelow)]
      exact linked.away j held i c hOld hHandle hAwaits
  waiting c j hWaiting := by
    have hc : c ≠ count := by
      rintro rfl
      rw [View.spawned, View.spawn_polled_new] at hWaiting
      cases hWaiting
    rw [View.spawned, View.spawn_polled_of_ne hc] at hWaiting
    obtain ⟨rest, hRest, hAwaits⟩ := linked.waiting c j hWaiting
    have hj : j ≠ count := by
      rintro rfl
      cases hNew.symm.trans hRest
    have hjId : j ≠ id := by
      rintro rfl
      exact linked.not_waiting hBody (by rw [Body.awaits, hFuture]) c hWaiting
    exact ⟨rest, (View.spawn_body_of_ne hj hjId).trans hRest, hAwaits⟩

omit linked hNew in
/-- Apart from the new one, no handle is kept that was not kept before. -/
theorem View.kept_of_spawned (h : (v.spawned id count body future moved after).Kept c)
    (hc : c ≠ count) : v.Kept c := by
  rcases h with rfl | ⟨j, held, i, hHeld, hHandle⟩
  · exact .inl rfl
  · rcases View.body_spawn (Nat.ne_of_lt hBelow) hHeld with ⟨rfl, rfl⟩ | ⟨rfl, rfl⟩ | ⟨-, -, hOld⟩
    · exact .inr ⟨id, body, i, hBody, (Body.handle_child hHandle).2⟩
    · rcases Body.handle_parent hHandle with ⟨-, hNew⟩ | ⟨k, -, hOld⟩
      · exact absurd hNew hc
      · exact .inr ⟨j, body, moved + k, hBody, hOld⟩
    · exact .inr ⟨j, held, i, hOld, hHandle⟩

end Spawn

/-- A task that has been spawned is queued, and the future goes on with its handle. -/
theorem Fine.spawn {future after : Future E V} {moved : Nat} (fine : Fine s v stage)
    (hRun : stage id = .running t (.poll body)) (hFuture : body.future = .spawn future moved after) :
    Goes s ((s.spawn (body.child future moved)).1.goto t id (.poll (body.parent s.count after moved)))
      v stage := by
  obtain ⟨hBody, hState, hData, -⟩ := fine.findsLine hRun
  have hBelow := fine.below_of_run hRun
  have hNe := Nat.ne_of_lt hBelow
  have hAbsent : stage s.count = .absent := (fine.placed.absent s.count).mpr le_rfl
  have hNew : v.body s.count = none := by
    have finds := fine.finds s.count
    rw [hAbsent] at finds
    exact finds
  let s' := (s.spawn (body.child future moved)).1.goto t id (.poll (body.parent s.count after moved))
  let v' := v.spawned id s.count body future moved after
  let stage' := Function.update (Function.update stage s.count .queued) id
    (.running t (.poll (body.parent s.count after moved)))
  have hRun' : stage' id = .running t (.poll (body.parent s.count after moved)) :=
    Function.update_self ..
  have hQueued : stage' s.count = .queued :=
    (Function.update_of_ne hNe.symm ..).trans (Function.update_self ..)
  have hStays (j : TaskId) (hj : j ≠ id) (hCount : j ≠ s.count) : stage' j = stage j :=
    (Function.update_of_ne hj ..).trans (Function.update_of_ne hCount ..)
  have hTasks (j : TaskId) (hCount : j ≠ s.count) : s'.tasks j = s.tasks j :=
    Function.update_of_ne hCount ..
  have hTask : s'.tasks s.count = ⟨TASK_SCHEDULED, ⟨AtomicWaker.new, none⟩,
      .pending (body.child future moved)⟩ := Function.update_self ..
  have hOver : Over stage' = Over stage := by
    funext j
    by_cases hj : j = id
    · subst hj
      simp [Over, hRun, hRun', Stage.woken]
    · by_cases hCount : j = s.count
      · subst hCount
        simp [Over, hQueued, hAbsent, Stage.woken]
      · rw [Over, Over, hStays j hj hCount]
  have same (j : TaskId) (hj : j ≠ id) (hCount : j ≠ s.count) : Same s s' v v' stage stage' j := by
    constructor
    · exact hStays j hj hCount
    · rw [hTasks j hCount]
    · rw [hTasks j hCount]
    · exact View.spawn_body_of_ne hCount hj
    · exact View.spawn_output_of_ne hCount
    · intro held c hHeld hAwaits
      exact View.spawn_polled_of_ne (Nat.ne_of_lt (fine.linked.held_of_awaits hHeld hAwaits).below)
    · exact fun c _ => by rw [hOver]
  have fine' : Fine s' v' stage' := by
    refine ⟨?_, fine.linked.spawn hNew hBelow hBody hFuture, fun j => ?_, fun j hj => ?_,
      fun c hKept => ?_, Nat.succ_pos _⟩
    · exact fine.placed.spawn.goto ((Function.update_of_ne hNe ..).trans hRun) _
    · by_cases hj : j = id
      · subst hj
        rw [hRun']
        refine ⟨View.spawn_body_self hNe, ?_, ?_, fun c hAwaits => ?_⟩
        · rw [hTasks j hNe, hState]
        · rw [hTasks j hNe, hData]
        · obtain ⟨handle, -, -, hHandle⟩ := Body.awaits_iff.mp hAwaits
          exact .inl (fine.linked.away_parent hBody hFuture hHandle)
      · by_cases hCount : j = s.count
        · subst hCount
          rw [hQueued, hTask]
          refine ⟨body.child future moved, View.spawn_body_new, rfl, rfl, fun c hAwaits => ?_⟩
          obtain ⟨handle, -, -, hHandle⟩ := Body.awaits_iff.mp hAwaits
          exact .inl (fine.linked.away_child hBody hFuture hHandle)
        · exact (same j hj hCount).finds (fine.finds j)
    · by_cases hCount : j = s.count
      · subst hCount
        rw [hQueued, hTask, show v'.polled s.count = .away from View.spawn_polled_new]
        exact AtomicWaker.fits_new
      · have fits := fine.fits j (Nat.lt_of_le_of_ne (Nat.le_of_lt_succ hj) hCount)
        rw [hTasks j hCount, show v'.polled j = v.polled j from View.spawn_polled_of_ne hCount]
        by_cases hEq : j = id
        · subst hEq
          rw [hRun']
          rwa [hRun] at fits
        · rwa [hStays j hEq hCount]
    · by_cases hCount : c = s.count
      · subst hCount
        rw [hTask]
        simp
      · rw [hTasks c hCount]
        exact fine.unjoined c (View.kept_of_spawned hBelow hBody hKept hCount)
  have hCost : weight s' v' stage' id + weight s' v' stage' s.count < weight s v stage id := by
    have hParent : v'.cost id = after.cost (some (future.meaning ((body.outputs v.output).take moved)) ::
        (body.outputs v.output).drop moved) := by
      rw [View.cost, show v'.body id = _ from View.spawn_body_self hNe, Option.elim_some, Body.cost,
        fine.linked.outputs_parent hBody]
    have hChild : v'.cost s.count = future.cost ((body.outputs v.output).take moved) := by
      rw [View.cost, show v'.body s.count = _ from View.spawn_body_new, Option.elim_some, Body.cost,
        fine.linked.outputs_child hBody]
    have hPrior : v.cost id = 44 + future.cost ((body.outputs v.output).take moved) +
        after.cost (some (future.meaning ((body.outputs v.output).take moved)) ::
          (body.outputs v.output).drop moved) := by
      rw [View.cost, hBody, Option.elim_some, Body.cost, hFuture]
      rfl
    rw [weight, weight, weight, hRun', hQueued, hRun, hTask, hTasks id hNe, AtomicWaker.fresh_new,
      hParent, hChild, hPrior]
    simp only [Stage.weight, Line.weight]
    omega
  refine ⟨v', stage', fine', View.spawn_output_of_ne (Nat.ne_of_lt fine.main), ?_⟩
  rw [rank, show s'.count = s.count + 1 from rfl, Finset.sum_range_succ]
  refine sum_add_lt hBelow hCost fun j hj hj' => ?_
  have hCount := Nat.ne_of_lt hj
  refine (same j hj' hCount).weight_eq (fun held i c hHeld hHandle => ?_) (by rw [hTasks j hCount])
  exact View.spawn_output_of_ne (Nat.ne_of_lt (fine.linked.held j held i c hHeld hHandle).below)

end Yaar.Runtime.Programs
