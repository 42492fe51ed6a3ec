import Yaar.Runtime.ProgramsSpawn

/-! The poll of a handle, and the wake of the task that has it. -/
namespace Yaar.Runtime.Programs

open Machine TaskState
open AtomicWaker (Polled Woken Fits)

variable {T E V : Type} {s s' : State T E V} {v v' : View E V} {stage stage' : TaskId → Stage T E V}
  {t : T} {id c count : TaskId} {body : Body E V} {line line' : Line E V}

/-! ## The poll -/

/-- The poll of a handle gets on. -/
def View.poll (v : View E V) (c : TaskId) (polled : Polled TaskId) : View E V :=
  { v with polled := Function.update v.polled c polled }

variable {polled : Polled TaskId}

theorem View.poll_self : (v.poll c polled).polled c = polled := Function.update_self ..

/-- The poll of one handle does not change how far the others are. -/
theorem View.poll_of_ne {j : TaskId} (hj : j ≠ c) : (v.poll c polled).polled j = v.polled j :=
  Function.update_of_ne hj ..

/-- Only the task that has a handle awaits it. -/
theorem Linked.awaits_unique {j : TaskId} {held : Body E V} {i : Nat} (linked : Linked count v)
    (hBody : v.body id = some body) (hAwaits : body.awaits = some c) (hHeld : v.body j = some held)
    (hHandle : held.Handle i c) : j = id :=
  (linked.held j held i c hHeld hHandle).owner.symm.trans (linked.held_of_awaits hBody hAwaits).owner

/-- The links do not depend on the poll of a handle that is being awaited, if only its
own task comes to wait for it. -/
theorem Linked.poll (linked : Linked count v) (hBody : v.body id = some body)
    (hAwaits : body.awaits = some c) (hWaiting : ∀ j, polled = .waiting j → j = id) :
    Linked count (v.poll c polled) where
  means := linked.means
  held j held i d hHeld hHandle := by
    have held := linked.held j held i d hHeld hHandle
    exact ⟨held.owner, held.below, held.ordered, held.notMain⟩
  distinct := linked.distinct
  away j held i d hHeld hHandle hOther := by
    have hd : d ≠ c := by
      rintro rfl
      obtain rfl := linked.awaits_unique hBody hAwaits hHeld hHandle
      obtain rfl := Option.some.inj (hBody.symm.trans hHeld)
      exact hOther hAwaits
    rw [View.poll_of_ne hd]
    exact linked.away j held i d hHeld hHandle hOther
  waiting d j hWaits := by
    by_cases hd : d = c
    · subst hd
      rw [View.poll_self] at hWaits
      obtain rfl := hWaiting j hWaits
      exact ⟨body, hBody, hAwaits⟩
    · rw [View.poll_of_ne hd] at hWaits
      exact linked.waiting d j hWaits

variable [DecidableEq T]

/-- A thread does something to the waker of the task that is awaited. -/
theorem Fine.poll (fine : Fine s v stage) (waker : AtomicWaker.Cell Unit TaskId)
    (polled : Polled TaskId) (line' : Line E V) (hRun : stage id = .running t line) (hBefore : (Stage.running t line).woken = .before)
    (hBefore' : (Stage.running t line').woken = .before) (hBody : v.body id = some body)
    (hAwaits : body.awaits = some c) (hWaiting : ∀ j, polled = .waiting j → j = id)
    (fits : Fits waker polled (stage c).woken)
    (finds : line'.Finds (v.poll c polled) (Over stage) (s.tasks id) id)
    (hWeight : line'.weight (v.cost id) + waker.fresh <
      line.weight (v.cost id) + (s.tasks c).waker.fresh) :
    Goes s ((s.setTask c { s.tasks c with waker }).goto t id line') v stage := by
  have held := fine.linked.held_of_awaits hBody hAwaits
  have hc : id ≠ c := by
    rintro rfl
    exact lt_irrefl _ held.ordered
  let s' := (s.setTask c { s.tasks c with waker }).goto t id line'
  let stage' := Function.update stage id (.running t line')
  have hOver : Over stage' = Over stage := over_update (by rw [hRun, hBefore, hBefore'])
  have hTasks (j : TaskId) (hj : j ≠ c) : s'.tasks j = s.tasks j := Function.update_of_ne hj ..
  have hTask : s'.tasks c = { s.tasks c with waker } := Function.update_self ..
  have hKeeps (j : TaskId) : (s'.tasks j).state = (s.tasks j).state ∧
      (s'.tasks j).data = (s.tasks j).data := by
    by_cases hj : j = c
    · subst hj
      rw [hTask]
      exact ⟨rfl, rfl⟩
    · rw [hTasks j hj]
      exact ⟨rfl, rfl⟩
  have same (j : TaskId) (hj : j ≠ id) : Same s s' v (v.poll c polled) stage stage' j := by
    constructor
    · exact Function.update_of_ne hj ..
    · exact (hKeeps j).1
    · exact (hKeeps j).2
    · rfl
    · rfl
    · intro held d hHeld hAwaits'
      have hd : d ≠ c := by
        rintro rfl
        obtain ⟨handle, -, -, hHandle⟩ := Body.awaits_iff.mp hAwaits'
        exact hj (fine.linked.awaits_unique hBody hAwaits hHeld hHandle)
      exact View.poll_of_ne hd
    · exact fun _ _ => by rw [hOver]
  have fine' : Fine s' (v.poll c polled) stage' := by
    refine ⟨fine.placed.goto hRun line', fine.linked.poll hBody hAwaits hWaiting, fun j => ?_,
      fun j hj => ?_, fun d hKept => ?_, fine.main⟩
    · by_cases hj : j = id
      · subst hj
        rw [hOver, show stage' j = _ from Function.update_self .., hTasks j hc]
        exact finds
      · exact (same j hj).finds (fine.finds j)
    · have hWoken : (stage' j).woken = (stage j).woken := by
        by_cases hEq : j = id
        · subst hEq
          rw [show stage' j = _ from Function.update_self .., hRun, hBefore, hBefore']
        · rw [show stage' j = stage j from Function.update_of_ne hEq ..]
      rw [hWoken]
      by_cases hEq : j = c
      · subst hEq
        rw [hTask, View.poll_self]
        exact fits
      · rw [hTasks j hEq, View.poll_of_ne hEq]
        exact fine.fits j hj
    · rw [(hKeeps d).2]
      exact fine.unjoined d hKept
  refine ⟨v.poll c polled, stage', fine', rfl, ?_⟩
  refine sum_lt_of_two (fine.below_of_run hRun) held.below hc ?_ fun j hj hjc => ?_
  · have hStage : stage' c = stage c := Function.update_of_ne hc.symm ..
    rw [weight, weight, weight, weight, hTasks id hc, hTask, hStage, hRun,
      show stage' id = _ from Function.update_self ..]
    have hCost : (v.poll c polled).cost = v.cost := rfl
    simp only [Stage.weight, hCost]
    omega
  · exact (same j hj).weight_eq (fun _ _ _ _ _ => rfl) (by rw [hTasks j hjc])

/-- The poll of a handle begins. -/
theorem Fine.join {handle : Nat} {next : V → Future E V} {handles : List (Option TaskId)}
    (fine : Fine s v stage) (hRun : stage id = .running t (.poll ⟨.join handle next, handles⟩))
    (hHandle : handles.getD handle none = some c) :
    Goes s (s.goto t id (.pollJoin ⟨c, handle, next, handles⟩ (.loadNotified (some id)))) v stage := by
  obtain ⟨hBody, hState, hData, hResumes⟩ := fine.findsLine hRun
  have hAwaits : (⟨.join handle next, handles⟩ : Body E V).awaits = some c := hHandle
  have hBelow := (fine.linked.held_of_awaits hBody hAwaits).below
  have hSelf : s.setTask c { s.tasks c with waker := (s.tasks c).waker } = s := by
    rw [State.setTask, Function.update_eq_self]
  have hAway : v.polled c = .away ∨ (stage c).woken = .after ∧ ∃ w, v.polled c = .waiting w := by
    rcases hResumes c hAwaits with hAway | ⟨hWaiting, hOver⟩
    · exact .inl hAway
    · exact .inr ⟨hOver, id, hWaiting⟩
  have hGoes := fine.poll (s.tasks c).waker (.inside id (.loadNotified (some id)))
    (.pollJoin ⟨c, handle, next, handles⟩ (.loadNotified (some id))) hRun rfl rfl hBody hAwaits
    (by simp) ((fine.fits c hBelow).call hAway id)
    ⟨hBody, hState, hData, hAwaits, View.poll_self⟩ ?_
  · rwa [hSelf] at hGoes
  · simp only [Line.weight, AtomicWaker.Poller.ahead]
    omega

/-- `poll_join` ends with the output when the wake is over, and else the task waits for it. -/
theorem Fine.pollJoin {await : Await E V} {at_ : AtomicWaker.Poller TaskId} (fine : Fine s v stage)
    (hRun : stage id = .running t (.pollJoin await at_)) :
    ∃ s', s.step t id (.pollJoin await at_) = some s' ∧ Goes s s' v stage := by
  obtain ⟨hBody, hState, hData, hAwaits, hPolled⟩ := fine.findsLine hRun
  have hBelow := (fine.linked.held_of_awaits hBody hAwaits).below
  have fits := fine.fits await.task hBelow
  rw [hPolled] at fits
  obtain ⟨waker, at_', hStep, hPolls⟩ := fits.poll
  refine ⟨(s.setTask await.task { s.tasks await.task with waker }).goto t id (.afterPoll await at_'),
    by rw [State.step, hStep]; rfl, ?_⟩
  cases hPolls with
  | ready hOver fits' hFresh hAhead =>
      refine fine.poll waker .ready (.replaceData await) hRun rfl rfl hBody hAwaits (by simp)
        fits' ⟨hBody, hState, hData, hAwaits, View.poll_self⟩ ?_
      simp only [Line.weight]
      omega
  | pending hOpen fits' hFresh hAhead =>
      refine fine.poll waker (.waiting id) (.storePending await.body) hRun rfl rfl hBody hAwaits
        (fun j h => ?_) fits' ⟨hBody, hData, .inr ⟨hState, await.task, hAwaits, View.poll_self, hOpen⟩⟩ ?_
      · cases h
        rfl
      · simp only [Line.weight]
        omega
  | inside _ fits' hFresh hAhead =>
      have hLine : Line.afterPoll await at_' = .pollJoin await at_' := by
        obtain ⟨isWoken, finds, -⟩ := fits'.inside
        cases at_' with
        | idle ready | panicked failure => exact finds.elim
        | loadNotified ctx | loadState ctx | swapUpdating w seen | tryLock w | store w
          | swapWaiting w | storeNotified | storeEmpty | resetLoad | resetStore => rfl
      rw [hLine]
      refine fine.poll waker (.inside id at_') (.pollJoin await at_') hRun rfl rfl hBody hAwaits
        (by simp) fits' ⟨hBody, hState, hData, hAwaits, View.poll_self⟩ ?_
      simp only [Line.weight]
      omega

omit [DecidableEq T] in
/-- A task is over when its wake is, and keeps its output for whoever has the handle. -/
theorem Fine.output_of_ready (fine : Fine s v stage) (hBelow : c < s.count) (hKept : v.Kept c)
    (hPolled : v.polled c = .ready) :
    (s.tasks c).data = .ready (v.output c) ∧
      (stage c).Finds v (Over stage) { s.tasks c with data := .joined } c := by
  have fits := fine.fits c hBelow
  rw [hPolled] at fits
  have hOver := fits.over_of_ready
  have finds := fine.finds c
  have hEnd : v.body c = none ∧ ((s.tasks c).data = .ready (v.output c) ∨ (s.tasks c).data = .joined) ∧
      (stage c).Finds v (Over stage) { s.tasks c with data := .joined } c := by
    cases hStage : stage c with
    | absent | queued | parked =>
        rw [hStage] at hOver
        cases hOver
    | finished =>
        rw [hStage] at finds
        exact ⟨finds.1, finds.2, finds.1, .inr rfl⟩
    | running u line =>
        rw [hStage] at hOver finds
        cases line with
        | taskComplete => exact ⟨finds.1, finds.2, finds.1, .inr rfl⟩
        | toRunning | takeFuture | poll body | wakeByRef body | pollJoin await at_
          | replaceData await | storePending body | toIdle | toScheduled | storeReady output
          | wake at_ | panicked => cases hOver
  exact ⟨hEnd.2.1.resolve_right (fine.unjoined c hKept), hEnd.2.2⟩

/-- The output of a task is handed over, and its handle is gone. -/
theorem Fine.replace {await : Await E V} (fine : Fine s v stage)
    (hRun : stage id = .running t (.replaceData await)) (next : Option (Body E V))
    (hBefore : (Stage.running t line').woken = .before)
    (hMeans : ∀ rest, next = some rest → rest.meaning v.output = v.output id)
    (hHandles : ∀ rest i d, next = some rest → rest.Handle i d →
      i ≠ await.handle ∧ await.body.Handle i d)
    (finds : (∀ rest i d, next = some rest → rest.Handle i d → v.polled d = .away) →
      line'.Finds (v.become id next) (Over stage) (s.tasks id) id)
    (hWeight : line'.weight (next.elim 0 (Body.cost v.output)) < 11 + v.cost id) :
    Goes s ((s.setTask await.task { s.tasks await.task with data := .joined }).goto t id line')
      v stage := by
  obtain ⟨hBody, hState, hData, hAwaits, hPolled⟩ := fine.findsLine hRun
  have held := fine.linked.held_of_awaits hBody hAwaits
  have hc : id ≠ await.task := by
    intro hEq
    have hOrder := held.ordered
    rw [← hEq] at hOrder
    exact lt_irrefl _ hOrder
  obtain ⟨handle, after, hFuture, hHandle⟩ := Body.awaits_iff.mp hAwaits
  obtain ⟨rfl, rfl⟩ := Future.join.inj hFuture
  have hKept : v.Kept await.task := .inr ⟨id, await.body, await.handle, hBody, hHandle⟩
  have hAway (rest : Body E V) (i : Nat) (d : TaskId) (hNext : next = some rest)
      (hRest : rest.Handle i d) : v.polled d = .away := by
    obtain ⟨hi, hOld⟩ := hHandles rest i d hNext hRest
    refine fine.linked.away id await.body i d hBody hOld fun hSome => hi ?_
    obtain rfl := Option.some.inj (hAwaits.symm.trans hSome)
    exact fine.linked.distinct id await.body i await.handle _ hBody hOld hHandle
  refine fine.become _ next hRun rfl hBefore (fun j => ?_) (fun j hj => ?_) ?_ ?_ ?_ hWeight
  · by_cases hj : j = await.task
    · subst hj
      rw [Function.update_self]
    · rw [Function.update_of_ne hj]
  · by_cases hEq : j = await.task
    · subst hEq
      rw [Function.update_self]
      exact (fine.output_of_ready held.below hKept hPolled).2
    · rw [Function.update_of_ne hEq]
      exact fine.finds j
  · refine fine.linked.become hBody hMeans (fun rest i d hNext hRest => ?_) fun d hWaiting => ?_
    · exact ⟨(hHandles rest i d hNext hRest).2, hAway rest i d hNext hRest⟩
    · obtain ⟨body, hBody', hAwaits'⟩ := fine.linked.waiting d id hWaiting
      obtain rfl := Option.some.inj (hBody.symm.trans hBody')
      obtain rfl := Option.some.inj (hAwaits.symm.trans hAwaits')
      cases hPolled.symm.trans hWaiting
  · rw [Function.update_of_ne hc]
    exact finds hAway
  · intro d hKept'
    by_cases hd : d = await.task
    · subst hd
      rcases hKept' with hMain | ⟨j, rest, i, hRest, hHandle'⟩
      · exact absurd hMain held.notMain
      · rcases View.body_become hRest with ⟨-, hNext⟩ | ⟨hj, hOld⟩
        · cases hPolled.symm.trans (hAway rest i _ hNext hHandle')
        · exact absurd (fine.linked.awaits_unique hBody hAwaits hOld hHandle') hj
    · rw [Function.update_of_ne hd]
      exact fine.unjoined d (View.kept_of_become hBody
        (fun rest i d hNext hRest => (hHandles rest i d hNext hRest).2) hKept')

section Await

variable {output : TaskId → Output E V} {await : Await E V}

theorem Body.outputs_getD (body : Body E V) (handle : Nat) :
    (body.outputs output).getD handle none = (body.handles.getD handle none).map output := by
  rw [List.getD_eq_getElem?_getD, List.getD_eq_getElem?_getD, Body.outputs, List.getElem?_map]
  cases body.handles[handle]? with
  | none => rfl
  | some joinable => rfl

/-- The output that a future awaits is that of the task whose handle it has. -/
theorem Await.outputs_getD (handle : await.body.Handle await.handle await.task) :
    (await.body.outputs output).getD await.handle none = some (output await.task) := by
  have hGet : await.body.handles.getD await.handle none = some await.task := by
    rw [List.getD_eq_getElem?_getD, handle, Option.getD_some]
  rw [Body.outputs_getD, hGet, Option.map_some]

/-- A future that awaits a value comes to what it resumes with. The join has its price. -/
theorem Await.body_ok {value : V} (handle : await.body.Handle await.handle await.task)
    (hOk : output await.task = .ok value) :
    await.body.meaning output = (await.resume value).meaning output ∧
      await.body.cost output = 10 + (await.resume value).cost output := by
  have hGet : (await.body.outputs output).getD await.handle none = some (.ok value) :=
    hOk ▸ Await.outputs_getD handle
  have hSet : (await.resume value).outputs output =
      (await.body.outputs output).set await.handle none := by
    rw [Body.outputs, Body.outputs, Await.resume, List.map_set]
    rfl
  rw [Body.meaning, Body.meaning, Body.cost, Body.cost, hSet]
  simp only [Await.body, Await.resume, Future.meaning, Future.cost] at hGet ⊢
  rw [hGet]
  exact ⟨rfl, rfl⟩

/-- With an error it comes to that error, as the handle re-raises it. -/
theorem Await.body_error {error : TaskError E} (handle : await.body.Handle await.handle await.task)
    (hError : output await.task = .error error) :
    await.body.meaning output = .error error ∧ await.body.cost output = 10 := by
  have hGet : (await.body.outputs output).getD await.handle none = some (.error error) :=
    hError ▸ Await.outputs_getD handle
  rw [Body.meaning, Body.cost]
  simp only [Await.body, Future.meaning, Future.cost] at hGet ⊢
  rw [hGet]
  exact ⟨rfl, rfl⟩

end Await

/-- `poll_join` passes on the output of the task, or its panic. -/
theorem Fine.replaceData {await : Await E V} (fine : Fine s v stage)
    (hRun : stage id = .running t (.replaceData await)) :
    ∃ s', s.step t id (.replaceData await) = some s' ∧ Goes s s' v stage := by
  obtain ⟨hBody, hState, hData, hAwaits, hPolled⟩ := fine.findsLine hRun
  obtain ⟨handle, after, hFuture, hHandle⟩ := Body.awaits_iff.mp hAwaits
  obtain ⟨rfl, rfl⟩ := Future.join.inj hFuture
  have hOutput := (fine.output_of_ready (fine.linked.held_of_awaits hBody hAwaits).below
    (.inr ⟨id, await.body, await.handle, hBody, hHandle⟩) hPolled).1
  have hMeans := fine.linked.means id await.body hBody
  have hCost : v.cost id = await.body.cost v.output := by
    rw [View.cost, hBody]
    rfl
  cases hResult : v.output await.task with
  | error error =>
      obtain ⟨hError, hAwaited⟩ := Await.body_error hHandle hResult
      rw [hResult] at hOutput
      refine ⟨_, by simp only [State.step, hOutput]; rfl, ?_⟩
      refine fine.replace hRun none rfl (by simp) (by simp)
        (fun _ => ⟨View.become_self, hData, hError.symm.trans hMeans⟩) ?_
      rw [hCost, hAwaited]
      simp only [Line.weight]
      omega
  | ok value =>
      obtain ⟨hOk, hAwaited⟩ := Await.body_ok hHandle hResult
      rw [hResult] at hOutput
      refine ⟨_, by simp only [State.step, hOutput]; rfl, ?_⟩
      refine fine.replace hRun (some (await.resume value)) rfl (fun rest hRest => ?_)
        (fun rest i d hRest hOld => ?_) (fun hAway => ⟨View.become_self, hState, hData, ?_⟩) ?_
      · obtain rfl := Option.some.inj hRest
        exact hOk.symm.trans hMeans
      · obtain rfl := Option.some.inj hRest
        rw [Body.Handle, Await.resume, List.getElem?_set] at hOld
        split at hOld
        · split at hOld <;> cases hOld
        · next hNe => exact ⟨Ne.symm hNe, hOld⟩
      · intro d hSome
        obtain ⟨i, -, -, hNext⟩ := Body.awaits_iff.mp hSome
        exact .inl (hAway _ i d rfl hNext)
      · rw [hCost, hAwaited, Option.elim_some]
        simp only [Line.weight]
        omega

/-- Whatever a future does next. -/
theorem Fine.pollBody (fine : Fine s v stage) (hRun : stage id = .running t (.poll body)) :
    Goes s (s.pollBody t id body) v stage := by
  obtain ⟨future, handles⟩ := body
  cases future with
  | ready value => exact fine.settle hRun rfl rfl
  | panic payload => exact fine.settle hRun rfl rfl
  | yieldNow next => exact fine.yieldNow hRun rfl
  | spawn future moved next => exact fine.spawn hRun rfl
  | join handle next =>
      cases hHandle : handles.getD handle none with
      | some c =>
          rw [State.pollBody]
          simp only [hHandle]
          exact fine.join hRun hHandle
      | none =>
          have hMeans : (⟨.join handle next, handles⟩ : Body E V).meaning v.output =
              .error .polledAfterCompletion := by
            rw [Body.meaning, Future.meaning, Body.outputs_getD, hHandle]
            rfl
          rw [State.pollBody]
          simp only [hHandle]
          exact fine.settle hRun hHandle hMeans

/-! ## The call of the waker -/

variable {w : TaskId}

omit [DecidableEq T] in
/-- A task that waits is parked, or at the end of its poll. -/
theorem Fine.waits (fine : Fine s v stage) (hWaiting : v.polled c = .waiting w)
    (hOpen : ¬Over stage c) : ∃ body, v.body w = some body ∧ body.awaits = some c ∧
      (stage w = .parked ∧ (s.tasks w).state = TASK_IDLE ∧ (s.tasks w).data = .pending body ∨
      ∃ u, (s.tasks w).state = TASK_RUNNING ∧
        (stage w = .running u (.storePending body) ∧ (s.tasks w).data = .polling ∨
        stage w = .running u .toIdle ∧ (s.tasks w).data = .pending body)) := by
  obtain ⟨body, hBody, hAwaits⟩ := fine.linked.waiting c w hWaiting
  refine ⟨body, hBody, hAwaits, ?_⟩
  have hSame {rest : Body E V} (h : v.body w = some rest) : rest = body :=
    Option.some.inj (h.symm.trans hBody)
  have hNone (h : v.body w = none) : False := by simp [h] at hBody
  have hStuck {rest : Body E V} (h : v.body w = some rest) : ¬Resumes v (Over stage) w rest := by
    intro hResumes
    rcases hResumes c (hSame h ▸ hAwaits) with hAway | ⟨-, hOver⟩
    · cases hWaiting.symm.trans hAway
    · exact hOpen hOver
  have finds := fine.finds w
  cases hStage : stage w with
  | absent =>
      rw [hStage] at finds
      exact (hNone finds).elim
  | queued =>
      rw [hStage] at finds
      obtain ⟨rest, hRest, -, -, hResumes⟩ := finds
      exact absurd hResumes (hStuck hRest)
  | finished =>
      rw [hStage] at finds
      exact (hNone finds.1).elim
  | parked =>
      rw [hStage] at finds
      obtain ⟨rest, hRest, hState, hData, -⟩ := finds
      obtain rfl := hSame hRest
      exact .inl ⟨rfl, hState, hData⟩
  | running u line =>
      rw [hStage] at finds
      cases line with
      | toRunning | takeFuture | toScheduled =>
          obtain ⟨rest, hRest, -, -, hResumes⟩ := finds
          exact absurd hResumes (hStuck hRest)
      | poll rest | wakeByRef rest =>
          obtain ⟨hRest, -, -, hResumes⟩ := finds
          exact absurd hResumes (hStuck hRest)
      | pollJoin await at_ | replaceData await =>
          obtain ⟨hRest, -, -, hAwaits', hPolled⟩ := finds
          obtain rfl := Option.some.inj (hAwaits'.symm.trans (hSame hRest ▸ hAwaits))
          cases hWaiting.symm.trans hPolled
      | storePending rest =>
          obtain ⟨hRest, hData, ⟨-, hResumes⟩ | ⟨hState, -⟩⟩ := finds
          · exact absurd hResumes (hStuck hRest)
          · obtain rfl := hSame hRest
            exact .inr ⟨u, hState, .inl ⟨rfl, hData⟩⟩
      | toIdle =>
          obtain ⟨rest, hRest, hData, ⟨-, hResumes⟩ | ⟨hState, -⟩⟩ := finds
          · exact absurd hResumes (hStuck hRest)
          · obtain rfl := hSame hRest
            exact .inr ⟨u, hState, .inr ⟨rfl, hData⟩⟩
      | storeReady output => exact (hNone finds.1).elim
      | wake at_ => exact (hNone finds.1).elim
      | taskComplete => exact (hNone finds.1).elim
      | panicked => exact finds.elim

omit [DecidableEq T] in
/-- The wake of a task ends, and the one that waits for it moves. -/
theorem Fine.wakes {state : TaskState} (fine : Fine s v stage) (next : Stage T E V)
    (hRun : stage id = .running t (.wake (.invoke w)))
    (hTasks : s'.tasks = Function.update s.tasks w { s.tasks w with state }) (hCount : s'.count = s.count)
    (placed : Placed s'.threads s'.runnables s.count
      (Function.update (Function.update stage w next) id (.running t .taskComplete)))
    (hBefore : (stage w).woken = .before) (hBefore' : next.woken = .before)
    (finds : ∀ ended, ended id → next.Finds v ended { s.tasks w with state } w)
    (hWeight : next.weight (v.cost w) ≤ (stage w).weight (v.cost w)) : Goes s s' v stage := by
  have findsLine := fine.findsLine hRun
  have hBelow := fine.below_of_run hRun
  have fits := fine.fits id hBelow
  rw [hRun] at fits
  obtain ⟨hWaiting, fits'⟩ := fits.invoke
  have hw : w ≠ id := by
    rintro rfl
    rw [hRun] at hBefore
    cases hBefore
  let stage' := Function.update (Function.update stage w next) id (.running t .taskComplete)
  have hRun' : stage' id = .running t .taskComplete := Function.update_self ..
  have hNext : stage' w = next := (Function.update_of_ne hw ..).trans (Function.update_self ..)
  have hStays (j : TaskId) (hj : j ≠ id) (hjw : j ≠ w) : stage' j = stage j :=
    (Function.update_of_ne hj ..).trans (Function.update_of_ne hjw ..)
  have hTask (j : TaskId) (hjw : j ≠ w) : s'.tasks j = s.tasks j := by
    rw [hTasks, Function.update_of_ne hjw]
  have hWoken : s'.tasks w = { s.tasks w with state } := by rw [hTasks, Function.update_self]
  have same (j : TaskId) (hj : j ≠ id) (hjw : j ≠ w) : Same s s' v v stage stage' j := by
    constructor
    · exact hStays j hj hjw
    · rw [hTask j hjw]
    · rw [hTask j hjw]
    · rfl
    · rfl
    · exact fun _ _ _ _ => rfl
    · intro c hc
      have hcId : c ≠ id := by
        rintro rfl
        exact hjw (Polled.waiting.inj (hc.symm.trans hWaiting))
      by_cases hcw : c = w
      · subst hcw
        rw [Over, Over, hNext, hBefore, hBefore']
      · rw [Over, Over, hStays c hcId hcw]
  have fine' : Fine s' v stage' := by
    refine ⟨hCount ▸ placed, hCount ▸ fine.linked, fun j => ?_, fun j hj => ?_, fun c hKept => ?_,
      hCount ▸ fine.main⟩
    · by_cases hj : j = id
      · subst hj
        rw [hRun', hTask j hw.symm]
        exact ⟨findsLine.1, .inl findsLine.2⟩
      · by_cases hjw : j = w
        · subst hjw
          rw [hNext, hWoken]
          exact finds _ (by rw [Over, hRun']; rfl)
        · exact (same j hj hjw).finds (fine.finds j)
    · rw [hCount] at hj
      by_cases hEq : j = id
      · subst hEq
        rw [hRun', hTask j hw.symm]
        exact fits'
      · by_cases hjw : j = w
        · subst hjw
          have fits := fine.fits j hj
          rw [hBefore] at fits
          rw [hNext, hWoken, hBefore']
          exact fits
        · rw [hStays j hEq hjw, hTask j hjw]
          exact fine.fits j hj
    · by_cases hcw : c = w
      · subst hcw
        rw [hWoken]
        exact fine.unjoined c hKept
      · rw [hTask c hcw]
        exact fine.unjoined c hKept
  refine ⟨v, stage', fine', rfl, rank_lt_of_one hCount hBelow ?_ fun j hj => ?_⟩
  · rw [weight, weight, hRun, hRun', hTask id hw.symm]
    simp [Stage.weight, Line.weight, AtomicWaker.Waking.ahead]
  · by_cases hjw : j = w
    · subst hjw
      rw [weight, weight, hNext, hWoken]
      exact Nat.add_le_add_right hWeight _
    · exact ((same j hj hjw).weight_eq (fun _ _ _ _ _ => rfl) (by rw [hTask j hjw])).le

/-- The wake of a task schedules the one that waits for it, or has it scheduled at the end of
its poll. -/
theorem Fine.invoke (fine : Fine s v stage) (hRun : stage id = .running t (.wake (.invoke w))) :
    Goes s ((s.wakeTask w).goto t id .taskComplete) v stage := by
  have hBelow := fine.below_of_run hRun
  have fits := fine.fits id hBelow
  rw [hRun] at fits
  obtain ⟨hWaiting, -⟩ := fits.invoke
  have hOpen : ¬Over stage id := by
    simp [Over, hRun, Stage.woken]
  obtain ⟨body, hBody, hAwaits, ⟨hParked, hState, hData⟩ | ⟨u, hState, hLine⟩⟩ :=
    fine.waits hWaiting hOpen
  · have hTransition : transitionToScheduled (s.tasks w).state = (TASK_SCHEDULED, true) := by
      rw [hState]
      rfl
    have hw : w ≠ id := by
      rintro rfl
      cases hRun.symm.trans hParked
    have placed := (fine.placed.schedule (.inl hParked)).goto
      ((Function.update_of_ne hw.symm ..).trans hRun) .taskComplete
    rw [State.wakeTask, hTransition]
    refine fine.wakes .queued hRun rfl rfl placed (by rw [hParked]; rfl) rfl
      (fun ended hOver => ⟨body, hBody, rfl, hData, fun c hSome => ?_⟩) ?_
    · obtain rfl := Option.some.inj (hAwaits.symm.trans hSome)
      exact .inr ⟨hWaiting, hOver⟩
    · rw [hParked]
      exact Nat.add_le_add_right (by decide) _
  · have hTransition : transitionToScheduled (s.tasks w).state = (TASK_NOTIFIED, false) := by
      rw [hState]
      rfl
    have placed := fine.placed.goto hRun .taskComplete
    rw [← Function.update_eq_self w stage] at placed
    rw [State.wakeTask, hTransition]
    have hResumes (ended : TaskId → Prop) (hOver : ended id) : Resumes v ended w body := by
      intro c hSome
      obtain rfl := Option.some.inj (hAwaits.symm.trans hSome)
      exact .inr ⟨hWaiting, hOver⟩
    rcases hLine with ⟨hLine, hData⟩ | ⟨hLine, hData⟩
    · refine fine.wakes _ hRun rfl rfl placed (by rw [hLine]; rfl) (by rw [hLine]; rfl)
        (fun ended hOver => ?_) le_rfl
      rw [hLine]
      exact ⟨hBody, hData, .inl ⟨rfl, hResumes ended hOver⟩⟩
    · refine fine.wakes _ hRun rfl rfl placed (by rw [hLine]; rfl) (by rw [hLine]; rfl)
        (fun ended hOver => ?_) le_rfl
      rw [hLine]
      exact ⟨body, hBody, hData, .inl ⟨rfl, hResumes ended hOver⟩⟩

/-- A thread never panics, and its next operation keeps to the view. -/
theorem Fine.step (fine : Fine s v stage) (hThread : s.threads t = some (id, line)) :
    ∃ s', s.step t id line = some s' ∧ Goes s s' v stage := by
  have hRun : stage id = .running t line := (fine.placed.threads t id line).mp hThread
  cases line with
  | toRunning => exact fine.toRunning hRun
  | takeFuture => exact fine.takeFuture hRun
  | poll body => exact ⟨_, rfl, fine.pollBody hRun⟩
  | wakeByRef body => exact fine.wakeByRef hRun
  | pollJoin await at_ => exact fine.pollJoin hRun
  | replaceData await => exact fine.replaceData hRun
  | storePending body => exact fine.storePending hRun
  | toIdle => exact fine.toIdle hRun
  | toScheduled => exact fine.toScheduled hRun
  | storeReady output => exact fine.storeReady hRun
  | taskComplete => exact fine.taskComplete hRun
  | panicked => exact (fine.findsLine hRun).elim
  | wake at_ =>
      cases at_ with
      | invoke w => exact ⟨_, rfl, fine.invoke hRun⟩
      | update | lock | take | idle | panicked => exact fine.wake hRun (by simp)

/-- A thread takes a task that is scheduled. -/
theorem Fine.take (fine : Fine s v stage) (hIdle : s.threads t = none) (hMem : id ∈ s.runnables) :
    Goes s ({ s with runnables := s.runnables.erase id }.goto t id .toRunning) v stage := by
  have hQueued : stage id = .queued := (fine.placed.queued id).mp hMem
  have finds := fine.finds id
  rw [hQueued] at finds
  refine fine.keep (s.tasks id) hQueued (by simp) (Function.update_eq_self id s.tasks).symm
    rfl (fine.placed.take hIdle hQueued) rfl (fun _ h => h) (by simp [Stage.woken]) (fun h => h) finds ?_
  simp [Stage.weight, Line.weight]

end Yaar.Runtime.Programs
