import Yaar.Net.PollIoCovered
import Yaar.Net.PollIoOverlap

/-! Tasks that share one socket by reference and call at the same time. -/
namespace Yaar.Net.PollIo

open Machine AtomicWaker

variable {T V W : Type*} [Fintype T] [DecidableEq T] [DecidableEq V] [DecidableEq W] {L : Layout}
  {s s' : State T V W}

/-- The calls for one kind of a socket may overlap as long as they do not meet in its
slot. No call comes between the load of the state and the end of another's registration,
a `try_lock` finds the lock free, a poll that found a wake clears no later registration,
and a registration replaces no waker that still waits. No two calls reset the same
readiness or give back the same count. -/
structure Apart (s : State T V W) (e : Event T V W) : Prop where
  registrations : ∀ t u x p line, Operates s e t x p line → u ≠ t → (s.callers u).pair? = some x →
    ¬Clashes (s.cell p.index x.2).state line.poller (s.callers u).poller
  lock : ∀ t x p isPending w, Operates s e t x p (.poll isPending (.tryLock w)) →
    (s.cell p.index x.2).lock = none
  clears : ∀ x, ¬ClearsWaiting x (s, e)
  keeps : ∀ x w, ¬Loses x w (s, e)
  resets : ∀ t x p, Operates s e t x p (.reset .resetLoad) →
    (s.cell p.index x.2).notified = true
  completes : ∀ t x p, Operates s e t x p .complete →
    p.pendings x.2 = true ∧ ¬Completing s x
  begins : ∀ t x p, Operates s e t x p .begin → s.pending ≠ usizeMAX

/-- No call fails, and an event invokes the waker of every task whose last registration
came before it, if it has not been invoked since. -/
structure AllServed (steps : List (State T V W × Event T V W)) (s : State T V W) : Prop where
  calls : ∀ t failure, s.callers t ≠ .panicked failure
  drops : ∀ id p, s.sockets id ≠ .dropping p .panicked
  wakes : ∀ u wake, s.wakes u = some wake → wake.at_ ≠ .panicked
  woken : ∀ x w before store middle reg early y late,
    steps = before ++ store :: (middle ++ reg :: (early ++ y :: late)) → Stores x w store →
    (∀ z ∈ middle, z.2 ≠ store.2) → Registers x w reg → (∀ z ∈ early, ¬TakesOver x w w z) →
    Processes x y →
    (∃ z ∈ middle ++ reg :: (early ++ y :: late), Invokes x w z) ∨ Taken x w s

/-- What the steps of such a run keep. -/
structure Shared (L : Layout) (s : State T V W) : Prop where
  owns : Owns L s
  drops : DropWakes s
  valid : ∀ index kind, ValidState (s.cell index kind).state
  shaped : ∀ t id kind ctx line, s.callers t = .call id kind ctx line → line.Shaped
  slots : Slots s
  covered : Covered s
  dropsFine : DropsFine s
  unfailed : Unfailed s
  wakes : WakesFine s

omit [Fintype T] [DecidableEq T] [DecidableEq V] [DecidableEq W] in
/-- A call that is between its exchanges stands there in the waker. -/
theorem updating_poller {caller : Caller W} {id : SocketId} {kind : WakerKind} {ctx : Option W}
    {line : Line W} (hCall : caller = .call id kind ctx line) (h : caller.updating?.isSome) :
    (AtomicWaker.updating? line.poller).isSome := by
  subst hCall
  cases line <;> first | exact h | simp [Caller.updating?] at h

omit [DecidableEq T] [DecidableEq V] [DecidableEq W] in
/-- States that such runs reach are steady: a second registration would clash with the
first. -/
theorem Shared.steady (shared : Shared L s) : Steady L s := by
  refine ⟨shared.owns, shared.drops, shared.valid, shared.shaped, fun t u x ht hu hThere hThere' => ?_⟩
  obtain ⟨ctx, line, hCall⟩ := call_of_pair ht
  obtain ⟨ctx', line', hCall'⟩ := call_of_pair hu
  obtain ⟨p, hLive⟩ := shared.owns.live hCall
  refine (shared.slots p.index x.2).alone t u ?_ ?_
  · rw [polls_call hCall hLive]
    exact updating_poller hCall hThere
  · rw [polls_call hCall' hLive]
    exact updating_poller hCall' hThere'

omit [DecidableEq T] [DecidableEq V] [DecidableEq W] in
/-- A call that meets no other one finds what it needs in its slot. -/
theorem Shared.serves {e : Event T V W} (shared : Shared L s) (apart : Apart s e) (t : T)
    (x : SocketId × WakerKind) (p : Pollable) (line : Line W) (operates : Operates s e t x p line) :
    Serves (s.cell p.index x.2) line.poller := by
  obtain ⟨ctx, hCall⟩ := operates.call
  have hPolls := polls_call hCall operates.live
  have shaped := shared.shaped t x.1 x.2 ctx line hCall
  rw [← hPolls]
  refine (shared.slots p.index x.2).serves (shared.valid p.index x.2) (fun u hNe => ?_)
    (fun w hAt => ?_) fun hAt => ?_
  · rw [hPolls]
    by_cases hPair : (s.callers u).pair? = some x
    · obtain ⟨ctx', line', hOther⟩ := call_of_pair hPair
      have hMeets := apart.registrations t u x p line operates hNe hPair
      rw [polls_call hOther operates.live]
      rwa [hOther] at hMeets
    · rw [polls_idle shared.owns operates.live hPair]
      exact not_clashes_idle _ _
  · rw [hPolls] at hAt
    cases line with
    | poll isPending at_ =>
        obtain rfl : at_ = .tryLock w := hAt
        exact apart.lock t x p isPending w operates
    | reset at_ =>
        obtain rfl : at_ = .tryLock w := hAt
        simp [Line.Shaped] at shaped
    | _ => simp [Line.poller] at hAt
  · rw [hPolls] at hAt
    cases line with
    | poll isPending at_ =>
        obtain rfl : at_ = .resetLoad := hAt
        exact shaped.elim
    | reset at_ =>
        obtain rfl : at_ = .resetLoad := hAt
        exact apart.resets t x p operates
    | _ => simp [Line.poller] at hAt

theorem shared_initial : Shared L (system T V W L).initial := by
  have hOwing : Owing (system T V W L).initial = ∅ := by
    ext x
    simp [Owing, system, Socket.owed]
  have hPolls : ∀ index kind t,
      (system T V W L).initial.polls index kind t = .idle false := fun _ _ _ => rfl
  refine ⟨owns_reachable ⟨[], .refl⟩, fun id hSome => ?_, fun _ _ => .inl rfl,
    fun t id kind ctx line hCall => ?_, fun index kind => ⟨fun t => trivial, fun t u ht => ?_,
      fun t u w seen ht => ?_, fun hState => ?_⟩, ⟨?_, ?_, Nat.zero_le _⟩, fun id p at_ hDropping => ?_,
    fun t failure => ?_, fun u wake => ?_⟩
  · simp [system] at hSome
  · simp [system] at hCall
  · simp [hPolls, updating?] at ht
  · simp [hPolls, updating?] at ht
  · exact absurd hState (by decide : EMPTY ≠ UPDATING)
  · rw [hOwing]
    exact Set.finite_empty
  · rw [hOwing, Set.ncard_empty]
    simp [system, Tally.total, Caller.begun]
  · simp [system] at hDropping
  · simp [system]
  · simp [system]

/-- A step that keeps calls apart keeps everything: the slots, the counts and that
nothing has failed. -/
theorem shared_next {e : Event T V W} (shared : Shared L s) (apart : Apart s e)
    (h : next L s e = some s') : Shared L s' := by
  have serves := shared.serves apart
  have completes : ∀ t x p, Operates s e t x p .complete → s.pending ≠ 0 := fun t x p operates => by
    obtain ⟨hFlag, hCompleting⟩ := apart.completes t x p operates
    exact shared.covered.pos (x := x) ⟨by rw [operates.live]; exact hFlag, hCompleting⟩
  obtain ⟨covered, dropsFine⟩ :=
    covered_next shared.covered shared.dropsFine shared.owns apart.begins apart.completes h
  exact {
    owns := owns_next shared.owns h
    drops := dropWakes_next shared.drops h
    valid := valid_next shared.owns shared.valid h
    shaped := shaped_next shared.shaped h
    slots := slots_next shared.slots shared.owns shared.shaped apart.registrations serves h
    covered := covered
    dropsFine := dropsFine
    unfailed := unfailed_next shared.owns shared.unfailed serves apart.begins completes h
    wakes := wakesFine_next shared.valid shared.wakes h }

/-- Where the users of a socket do not meet, all of them are served. -/
theorem allServed_of_apart {steps : List (State T V W × Event T V W)}
    (run : (system T V W L).Run steps s) (apart : Meets Apart steps) : AllServed steps s := by
  have hShared : ∀ {first : List (State T V W × Event T V W)} {u : State T V W},
      (system T V W L).Run first u → Meets Apart first → Shared L u := fun first hApart =>
    System.Path.keeps_of_meets first Apart hApart shared_initial
      fun _ _ _ shared apart h => shared_next shared apart h
  have shared := hShared run apart
  refine ⟨shared.unfailed, fun id p hDropping => (shared.dropsFine id p _ hDropping).1 rfl,
    shared.wakes, ?_⟩
  rintro x w before store middle reg early y late rfl hStores hMiddle hRegisters hAgain hProcesses
  have calm : Meets (Calm L) (before ++ store :: (middle ++ reg :: (early ++ y :: late))) := by
    intro z hz
    obtain ⟨first, rest, hSplit⟩ := List.append_of_mem hz
    rw [hSplit] at run apart
    obtain ⟨u, hFirst, -, -⟩ := System.Path.split run
    exact ⟨(hShared hFirst (meets_append.mp apart).1).steady, (apart z (by simp)).clears⟩
  exact woken run calm hStores hMiddle hRegisters
    (fun z hz => ⟨hAgain z hz, (apart z (by simp [hz])).keeps x w⟩) hProcesses
    fun z hz => (apart z (by simp [hz])).keeps x w

def Caller.completes : Caller W → Bool
  | .call _ _ _ .storeCompleted => true
  | _ => false

/-- What `Apart` asks of an operation when there are two threads and one waker. -/
def operatesApart (s : State Bool Unit Unit) (t : Bool) (x : SocketId × WakerKind) (p : Pollable)
    (line : Line Unit) : Bool :=
  let cell := s.cell p.index x.2
  let other := s.callers !t
  (other.pair? ≠ some x || !decide (Clashes cell.state line.poller other.poller)) &&
    match line with
    | .poll _ (.tryLock _) => cell.lock.isNone
    | .poll _ .storeEmpty => cell.state ≠ WAITING
    | .reset .resetLoad => cell.notified
    | .complete => p.pendings x.2 && !other.completes
    | .begin => s.pending ≠ usizeMAX
    | _ => true

def stepsApart (z : State Bool Unit Unit × Event Bool Unit Unit) : Bool :=
  match z.2 with
  | .step t =>
      match z.1.callers t with
      | .call id kind _ line =>
          match z.1.sockets id with
          | .live p => operatesApart z.1 t (id, kind) p line
          | _ => true
      | _ => true
  | _ => true

theorem apart_of_stepsApart {z : State Bool Unit Unit × Event Bool Unit Unit}
    (h : stepsApart z = true) : Apart z.1 z.2 := by
  have hHere : ∀ {t x p line}, Operates z.1 z.2 t x p line →
      operatesApart z.1 t x p line = true := by
    rintro t x p line ⟨hEvent, ⟨ctx, hCall⟩, hLive⟩
    simpa only [stepsApart, hEvent, hCall, hLive] using h
  simp only [operatesApart, Bool.and_eq_true] at hHere
  refine ⟨fun t u x p line operates hNe hPair => ?_, fun t x p isPending w operates => ?_, ?_, ?_,
    fun t x p operates => ?_, fun t x p operates => ?_, fun t x p operates => ?_⟩
  · obtain rfl : u = !t := by cases t <;> cases u <;> simp at hNe ⊢
    simpa [hPair] using (hHere operates).1
  · simpa using (hHere operates).2
  · rintro x ⟨t, ctx, isPending, p, hEvent, hCall, hLive, hState⟩
    simpa [hState] using (hHere ⟨hEvent, ⟨ctx, hCall⟩, hLive⟩).2
  · rintro x w ⟨w', p, hNe, -⟩
    exact hNe rfl
  · simpa using (hHere operates).2
  · obtain ⟨hFlag, hOther⟩ := Bool.and_eq_true_iff.mp (hHere operates).2
    refine ⟨hFlag, ?_⟩
    rintro ⟨u, ctx, hThere⟩
    obtain ⟨ctx', hCall⟩ := operates.call
    obtain rfl : u = !t := by
      by_contra hNe
      obtain rfl : u = t := by cases t <;> cases u <;> simp at hNe ⊢
      simp [hCall] at hThere
    simp [hThere, Caller.completes] at hOther
  · simpa using (hHere operates).2

/-- A `try_io` on one thread while a task polls on the other: both find nothing, the
waker of the task is registered, and once its event has come both go on to their I/O. -/
def overlappingCalls : List (Event Bool Unit Unit) :=
  [.alloc 0, .register 0 true, .call false 0 .Read (some ()), .call true 0 .Read none,
    -- both load the flag of pending I/O and both find the slot `EMPTY`
    .step false, .step true, .step false, .step true, .step true, .step false,
    -- the registration is made around the count of the other call
    .step false, .step true, .step false, .step true, .step false, .step false, .step false,
    .step false,
    .wake () ⟨0, 0⟩ .Read, .waker (.inl ()), .waker (.inl ()), .waker (.inl ()), .waker (.inl ()),
    .call false 0 .Read (some ()), .call true 0 .Read none] ++
    List.replicate 7 (.step false) ++ List.replicate 2 (.step true)

/-- Two calls for the same kind that overlap throughout. They keep apart, and after the
event both are on the way to their I/O. -/
theorem allServed_of_apart_overlappingCalls :
    ∃ (s : State Bool Unit Unit) (steps : List (State Bool Unit Unit × Event Bool Unit Unit)),
      AllServed steps s ∧ s.callers false = .call 0 .Read (some ()) .loadBudget ∧
        s.callers true = .call 0 .Read none .doIo := by
  let m := system Bool Unit Unit ⟨1, 1, by decide, by decide, by decide, by decide⟩
  obtain ⟨s, run, hCallers⟩ := m.exists_run_of_replay overlappingCalls
    (fun s => (s.callers false, s.callers true))
    (.call 0 .Read (some ()) .loadBudget, .call 0 .Read none .doIo) (by decide)
  obtain ⟨hFalse, hTrue⟩ := Prod.ext_iff.mp hCallers
  have hApart : ∀ z ∈ m.trace m.initial overlappingCalls, stepsApart z = true := by decide
  exact ⟨s, _, allServed_of_apart run fun z hz => apart_of_stepsApart (hApart z hz), hFalse, hTrue⟩

/-- Tasks `false` and `true` wait for the same socket, one after the other. -/
def twoReaders : List (Event Unit Unit Bool) :=
  [.alloc 0, .register 0 true, .call () 0 .Read (some false)] ++ List.replicate 9 (.step ()) ++
    [.call () 0 .Read (some true)] ++ List.replicate 7 (.step ()) ++
    [.wake () ⟨0, 0⟩ .Read] ++ List.replicate 4 (.waker (.inl ()))

/-- The waker that a step invokes. -/
def invoked? (z : State Unit Unit Bool × Event Unit Unit Bool) : Option Bool :=
  match z.2 with
  | .waker u => (z.1.wakes u).bind fun wake => match wake.at_ with
    | .invoke w => some w
    | _ => none
  | _ => none

/-- The waker for which a step takes the slot. -/
def swapping? (z : State Unit Unit Bool × Event Unit Unit Bool) : Option Bool :=
  match z.1.callers () with
  | .call _ _ _ (.poll _ (.swapUpdating w _)) => some w
  | _ => none

def Socket.live? : Socket → Bool
  | .live _ => true
  | _ => false

/-- The second task replaces the waker of the first, which is never invoked though its
event comes. -/
theorem twoReaders_not_allServed :
    ∃ (steps : List (State Unit Unit Bool × Event Unit Unit Bool)) (s : State Unit Unit Bool),
      (system Unit Unit Bool ⟨1, 1, by decide, by decide, by decide, by decide⟩).Run steps s ∧
        ¬AllServed steps s := by
  let m := system Unit Unit Bool ⟨1, 1, by decide, by decide, by decide, by decide⟩
  let steps := m.trace m.initial twoReaders
  let s := (m.replay m.initial twoReaders).get (by decide)
  have run : m.Run steps s := System.path_of_replay (Option.some_get _).symm
  refine ⟨steps, s, run, fun served => ?_⟩
  have hLength : steps.length = 25 := by decide
  have hInvoked : ∀ z ∈ steps, invoked? z ≠ some false := by decide
  have hLive : (s.sockets 0).live? = true := by decide
  have hNone : ∀ u, s.wakes u = none := by rintro (⟨⟩ | id) <;> rfl
  have hSwapping : ∀ z ∈ (steps.drop 10).take 11, swapping? z ≠ some false := by decide
  have hAgain : ∀ z ∈ (steps.drop 10).take 11, ¬TakesOver (0, .Read) false false z := by
    rintro z hz ⟨⟨⟩, ctx, isPending, seen, p, -, hCall, -⟩
    exact hSwapping z hz (by simp [swapping?, hCall])
  -- The store and the registration of the first task, and the event after the second's.
  have hLater : steps.drop 21 = (steps.drop 10).drop 11 := by rw [List.drop_drop]
  have hSplit : steps = steps.take 8 ++ steps[8] :: ([] ++ steps[9] ::
      ((steps.drop 10).take 11 ++ steps[21] :: steps.drop 22)) := by
    rw [List.nil_append, ← List.drop_eq_getElem_cons, hLater, List.take_append_drop,
      ← List.drop_eq_getElem_cons, ← List.drop_eq_getElem_cons, List.take_append_drop]
  obtain ⟨z, hz, u, wake, p, hEvent, hWake, hAt, -⟩ | (⟨p, at_, hDropping⟩ | hDropped) |
      ⟨p, -, ⟨u, wake, hWake, -⟩ | ⟨⟨u, wake, hWake, -⟩ | ⟨u, wake, hWake, -⟩, -⟩⟩ :=
    served.woken (0, .Read) false _ _ _ _ _ _ _ hSplit ⟨(), some false, false, rfl, rfl⟩ (by simp)
      ⟨(), some false, false, .new ⟨0, 0⟩, rfl, rfl, rfl, rfl⟩ hAgain
      ⟨.inl (), ⟨⟨0, 0⟩, .Read, .update⟩, _, rfl, rfl, rfl, rfl, rfl, rfl⟩
  · refine hInvoked z ?_ (by simp [invoked?, hEvent, hWake, hAt])
    rw [hSplit]
    exact List.mem_append_right _ (List.mem_cons_of_mem _ hz)
  · have hDropping : s.sockets 0 = .dropping p at_ := hDropping
    simp [hDropping, Socket.live?] at hLive
  · have hDropped : s.sockets 0 = .dropped := hDropped
    simp [hDropped, Socket.live?] at hLive
  · simp [hNone] at hWake
  · simp [hNone] at hWake
  · simp [hNone] at hWake

/-- Tasks on two threads poll for the same socket at once. -/
def overlappingReaders : List (Event Bool Unit Bool) :=
  [.alloc 0, .register 0 true, .call false 0 .Read (some false), .call true 0 .Read (some true)] ++
    List.replicate 4 (.step false) ++ List.replicate 3 (.step true)

/-- The second poll fails. -/
theorem overlappingReaders_panics :
    ∃ s, (system Bool Unit Bool ⟨1, 1, by decide, by decide, by decide, by decide⟩).Reachable s ∧
      s.callers true = .panicked (.waker .polledByMultipleThreads) := by
  obtain ⟨s, run, hPanicked⟩ :=
    (system Bool Unit Bool ⟨1, 1, by decide, by decide, by decide, by decide⟩).exists_run_of_replay
      overlappingReaders (fun s => s.callers true) (.panicked (.waker .polledByMultipleThreads))
      (by decide)
  exact ⟨s, ⟨_, run⟩, hPanicked⟩

end Yaar.Net.PollIo
