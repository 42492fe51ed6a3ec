import Yaar.Data.Agenda
import Yaar.Machine.Execution
import Yaar.Time.QueueInvariant

/-! The timer queue as a finite set of delays. -/
namespace Yaar.Time.Queue
open Machine

variable {W : Type*} {q q' : Queue W}

/-- The scheduled delays. -/
def agenda (q : Queue W) : Finset Delay :=
  (q.tree.toList.flatMap fun p => p.2.map (Delay.mk p.1)).toFinset

/-- The deadlines an entry is listed under, with repetitions. -/
def occurrences (q : Queue W) (e : Entry) : List Deadline :=
  q.tree.toList.flatMap fun p => List.replicate (p.2.count e) p.1

theorem mem_toList {d : Deadline} {list : EntryList} :
    (d, list) ∈ q.tree.toList ↔ q.tree[d]? = some list :=
  Std.TreeMap.mem_toList_iff_getElem?_eq_some

@[simp] theorem mem_agenda {x : Delay} : x ∈ q.agenda ↔ q.Scheduled x := by
  obtain ⟨d, e⟩ := x
  simp only [agenda, List.mem_toFinset, List.mem_flatMap, List.mem_map, Scheduled]
  constructor
  · rintro ⟨⟨d', list⟩, hMem, e', he, hEq⟩
    obtain ⟨rfl, rfl⟩ := Delay.mk.inj hEq
    exact ⟨list, mem_toList.mp hMem, he⟩
  · rintro ⟨list, hList, he⟩
    exact ⟨(d, list), mem_toList.mpr hList, e, he, rfl⟩

theorem mem_occurrences {e : Entry} {d : Deadline} :
    d ∈ q.occurrences e ↔ q.Scheduled ⟨d, e⟩ := by
  simp only [occurrences, List.mem_flatMap, List.mem_replicate, Scheduled]
  constructor
  · rintro ⟨⟨d', list⟩, hMem, hCount, rfl⟩
    exact ⟨list, mem_toList.mp hMem, List.count_pos_iff.mp (Nat.pos_of_ne_zero hCount)⟩
  · rintro ⟨list, hList, he⟩
    exact ⟨(d, list), mem_toList.mpr hList, (List.count_pos_iff.mpr he).ne', rfl⟩

/-- An entry listed under one deadline only occurs there once. -/
theorem occurrences_eq_singleton {x : Delay} (lists : Lists q) (hx : q.Scheduled x)
    (hOnly : ∀ d, q.Scheduled ⟨d, x.entry⟩ → d = x.deadline) :
    q.occurrences x.entry = [x.deadline] := by
  obtain ⟨list, hList, hMem⟩ := hx
  obtain ⟨before, after, hSplit⟩ := List.append_of_mem (mem_toList.mpr hList)
  have hKeys : (before ++ (x.deadline, list) :: after).Pairwise fun a b => a.1 ≠ b.1 := by
    rw [← hSplit]
    exact Std.TreeMap.distinct_keys_toList.imp fun h hEq => h (by simp [hEq])
  obtain ⟨-, hRest, hBefore⟩ := List.pairwise_append.mp hKeys
  have hNone : ∀ p ∈ q.tree.toList, p.1 ≠ x.deadline → p.2.count x.entry = 0 := by
    intro p hp hNe
    rw [List.count_eq_zero]
    exact fun hIn => hNe (hOnly p.1 ⟨p.2, mem_toList.mp hp, hIn⟩)
  have hOnce : list.count x.entry = 1 :=
    List.count_eq_one_of_mem (lists.used _ _ hList).2.1 hMem
  have hFirst : (before.flatMap fun p => List.replicate (p.2.count x.entry) p.1) = [] := by
    rw [List.flatMap_eq_nil_iff]
    intro p hp
    rw [hNone p (by simp [hSplit, hp]) (hBefore p hp (x.deadline, list) (by simp)), List.replicate_zero]
  have hLast : (after.flatMap fun p => List.replicate (p.2.count x.entry) p.1) = [] := by
    rw [List.flatMap_eq_nil_iff]
    intro p hp
    rw [hNone p (by simp [hSplit, hp]) (((List.pairwise_cons.mp hRest).1 p hp).symm),
      List.replicate_zero]
  simp [occurrences, hSplit, hFirst, hLast, hOnce]

/-- `expires` caches the earliest deadline of the agenda, and is 0 where that is empty. -/
theorem expires_eq_earliest {live : List Delay} (inv : Sound q live) :
    q.expires = (Agenda.earliest Delay.deadline q.agenda).untopD 0 := by
  rw [inv.expires]
  cases hFirst : q.firstDeadline with
  | none =>
      have hEmpty : q.agenda = ∅ := by
        ext x
        simp only [mem_agenda, Finset.notMem_empty, iff_false]
        exact fun ⟨list, hList, _⟩ =>
          firstDeadline_eq_none.mp hFirst _ (mem_tree_iff.mpr ⟨list, hList⟩)
      simp [Agenda.earliest_eq_top.mpr hEmpty]
  | some first =>
      obtain ⟨hIn, hLe⟩ := firstDeadline_eq_some.mp hFirst
      obtain ⟨list, hList⟩ := mem_tree_iff.mp hIn
      obtain ⟨e, he⟩ := List.exists_mem_of_ne_nil list (inv.lists.used _ _ hList).1
      have hEarliest : Agenda.earliest Delay.deadline q.agenda = (first : WithTop Deadline) := by
        refine Agenda.earliest_eq_coe.mpr ⟨⟨⟨first, e⟩, ?_, rfl⟩, fun x hx => ?_⟩
        · exact mem_agenda.mpr ⟨list, hList, he⟩
        · obtain ⟨list', hList', -⟩ := mem_agenda.mp hx
          exact hLe _ (mem_tree_iff.mpr ⟨list', hList'⟩)
      rw [hEarliest]
      rfl

/-! ## Histories of calls -/

/-- A queue with the delays handed out and not yet completed. `failed` records
that an assertion, an unwrap or an unreachable branch was hit. -/
structure Calls (W : Type*) where
  queue : Queue W
  live : List Delay
  failed : Bool

/-- A call by the owner of the queue. A delay is moved into `complete`, so that
it is completed at most once. -/
inductive Call where
  | schedule (delay : Except Instant Duration) (now : Instant)
  | poll (current : Deadline) (expired : EntryList)
  | complete (delay : Delay)

def Calls.next (s : Calls W) : Call → Option (Calls W)
  | .schedule delay now =>
      let (queue, result) := s.queue.schedule delay now
      some { s with queue := queue, live := result.toList ++ s.live }
  | .poll current expired =>
      match s.queue.poll current expired with
      | none => some { s with failed := true }
      | some (queue, _) => some { s with queue := queue }
  | .complete delay =>
      if delay ∈ s.live then
        match s.queue.complete delay with
        | none => some { s with failed := true }
        | some queue => some { s with queue := queue, live := s.live.erase delay }
      else none

def calls (W : Type*) (started : Instant) : System (Calls W) Call where
  initial := ⟨.new started, [], false⟩
  next := Calls.next

theorem sound_new (started : Instant) : Sound (.new started : Queue W) [] where
  lists := ⟨by simp [new], by simp [new]⟩
  owned := ⟨by simp [new], by simp [new]⟩
  flagged := ⟨fun x hx => by simp [Scheduled, new] at hx, fun e he => by
    simp [new, RawEntry.new] at he⟩
  expires := by
    have hNone : (.new started : Queue W).firstDeadline = none :=
      firstDeadline_eq_none.mpr (by simp [new])
    rw [hNone]
    rfl

/-- No call on a sound queue hits an assertion, and it leaves the queue sound. -/
theorem Calls.next_sound {s s' : Calls W} {call : Call} (hNext : s.next call = some s')
    (hRunning : s.failed = false) (inv : Sound s.queue s.live) :
    s'.failed = false ∧ Sound s'.queue s'.live := by
  cases call with
  | schedule delay now =>
      rcases hCall : s.queue.schedule delay now with ⟨queue, result⟩
      simp only [Calls.next, hCall, Option.some.injEq] at hNext
      subst hNext
      refine ⟨hRunning, ?_⟩
      cases result with
      | none => exact schedule_none_sound inv hCall
      | some x => exact schedule_sound inv hCall
  | poll current expired =>
      obtain ⟨queue, due, hCall, hSound, -⟩ := poll_spec inv current expired
      simp only [Calls.next, hCall, Option.some.injEq] at hNext
      subst hNext
      exact ⟨hRunning, hSound⟩
  | complete x =>
      simp only [Calls.next] at hNext
      split at hNext
      · next hLive =>
          obtain ⟨queue, hCall, hSound, -⟩ := complete_spec inv hLive
          simp only [hCall, Option.some.injEq] at hNext
          subst hNext
          exact ⟨hRunning, hSound⟩
      · simp at hNext

theorem reachable_sound {started : Instant} {s : Calls W}
    (h : (calls W started).Reachable s) : s.failed = false ∧ Sound s.queue s.live :=
  h.keeps ⟨rfl, sound_new started⟩ fun _ _ _ hs hNext => Calls.next_sound hNext hs.1 hs.2

/-! ## The refinement -/

/-- The queue stands for its agenda: what it caches agrees with it, and every
call acts on it as on a finite set. -/
structure Refines (s : Calls W) : Prop where
  running : s.failed = false
  expires : s.queue.expires = (Agenda.earliest Delay.deadline s.queue.agenda).untopD 0
  used : ∀ (d : Deadline) (list : EntryList), s.queue.tree[d]? = some list → list ≠ []
  cached : ∀ list ∈ s.queue.listCache.cached, list = []
  /-- A queued entry occurs once, under the deadline of its delay. -/
  queued : ∀ e, (s.queue.raw e).queued = true →
    ∃ x ∈ s.live, x.entry = e ∧ s.queue.occurrences e = [x.deadline]
  idle : ∀ e, (s.queue.raw e).queued = false → s.queue.occurrences e = []
  schedule_some : ∀ delay now q' x, s.queue.schedule delay now = (q', some x) →
    x ∉ s.queue.agenda ∧ q'.agenda = insert x s.queue.agenda
  schedule_none : ∀ delay now q', s.queue.schedule delay now = (q', none) →
    q'.tree = s.queue.tree ∧ q'.expires = s.queue.expires
  poll : ∀ current expired, ∃ (q' : Queue W) (due : List Delay),
    s.queue.poll current expired = some (q', expired ++ due.map Delay.entry) ∧
    due.Pairwise (fun x y => x.deadline ≤ y.deadline) ∧ due.Nodup ∧
    due.toFinset = Agenda.due Delay.deadline s.queue.agenda (max s.queue.current current) ∧
    q'.agenda = Agenda.later Delay.deadline s.queue.agenda (max s.queue.current current)
  complete : ∀ x ∈ s.live, ∃ q', s.queue.complete x = some q' ∧
    ((s.queue.raw x.entry).queued = true →
      x ∈ s.queue.agenda ∧ q'.agenda = s.queue.agenda.erase x) ∧
    ((s.queue.raw x.entry).queued = false →
      q'.tree = s.queue.tree ∧ q'.expires = s.queue.expires)

/-- A queued entry is that of one live delay and occurs once. -/
theorem queued_occurrences {live : List Delay} {e : Entry} (inv : Sound q live)
    (hQueued : (q.raw e).queued = true) :
    ∃ x ∈ live, x.entry = e ∧ q.occurrences e = [x.deadline] := by
  obtain ⟨x, hLive, rfl, hx⟩ := inv.flagged.queued e hQueued
  refine ⟨x, hLive, rfl, occurrences_eq_singleton inv.lists hx fun d hd => ?_⟩
  have hLive' := (inv.flagged.listed _ hd).1
  exact congrArg Delay.deadline (inv.owned.entry_inj hLive' hLive rfl)

theorem idle_occurrences {live : List Delay} {e : Entry} (inv : Sound q live)
    (hIdle : (q.raw e).queued = false) : q.occurrences e = [] := by
  rw [List.eq_nil_iff_forall_not_mem]
  intro d hd
  have hQueued := (inv.flagged.listed _ (mem_occurrences.mp hd)).2
  simp [hIdle] at hQueued

/-- A poll takes the due part of the agenda, in the order of the deadlines, and leaves
the later part. -/
theorem poll_agenda {live : List Delay} (inv : Sound q live) (current : Deadline)
    (expired : EntryList) :
    ∃ (q' : Queue W) (due : List Delay),
      q.poll current expired = some (q', expired ++ due.map Delay.entry) ∧
      due.Pairwise (fun x y => x.deadline ≤ y.deadline) ∧ due.Nodup ∧
      due.toFinset = Agenda.due Delay.deadline q.agenda (max q.current current) ∧
      q'.agenda = Agenda.later Delay.deadline q.agenda (max q.current current) := by
  obtain ⟨q', due, hCall, -, done⟩ := poll_spec inv current expired
  refine ⟨q', due, hCall, done.sorted, done.nodup.of_map, ?_, ?_⟩
  · ext x
    rw [List.mem_toFinset, done.due, Agenda.due, Finset.mem_filter, mem_agenda]
    rfl
  · ext x
    rw [mem_agenda, done.kept, Agenda.later, Finset.mem_filter, mem_agenda]
    rfl

/-- A completed delay leaves the agenda if it was in there. If it has expired before,
the tree stays as it is. -/
theorem complete_agenda {live : List Delay} {x : Delay} (inv : Sound q live) (hLive : x ∈ live) :
    ∃ q', q.complete x = some q' ∧
      ((q.raw x.entry).queued = true → x ∈ q.agenda ∧ q'.agenda = q.agenda.erase x) ∧
      ((q.raw x.entry).queued = false → q'.tree = q.tree ∧ q'.expires = q.expires) := by
  have hIff := queued_iff inv.owned inv.flagged hLive
  obtain ⟨q', hCall, -, done⟩ := complete_spec inv hLive
  refine ⟨q', hCall, fun hQueued => ⟨mem_agenda.mpr (hIff.mp hQueued), ?_⟩, fun hIdle => ?_⟩
  · ext y
    simp [done.scheduled, and_comm]
  · exact done.unchanged fun hx => by simp [hIff.mpr hx] at hIdle

/-- In every history of calls the queue refines its agenda, and no call fails. -/
theorem refines {started : Instant} {s : Calls W} (h : (calls W started).Reachable s) :
    Refines s := by
  obtain ⟨hRunning, inv⟩ := reachable_sound h
  refine ⟨hRunning, expires_eq_earliest inv, fun d list hList => (inv.lists.used d list hList).1,
    inv.lists.cached, fun e => queued_occurrences inv, fun e => idle_occurrences inv, ?_, ?_,
    poll_agenda inv, fun x => complete_agenda inv⟩
  · intro delay now q' x hCall
    obtain ⟨done, -, -, hNew⟩ := Queue.schedule_some inv hCall
    refine ⟨fun hMem => hNew (inv.flagged.listed x (mem_agenda.mp hMem)).1, ?_⟩
    ext y
    simp [done.scheduled, or_comm]
  · intro delay now q' hCall
    rcases Queue.schedule_none hCall with rfl | rfl <;> exact ⟨rfl, rfl⟩

/-- Two delays share a deadline and the first of them is completed early; a third expires
and is completed after that, and a fourth gets its entry. -/
def sharedDeadline : List Call :=
  [.schedule (.ok 2000000) 0, .schedule (.ok 2000000) 0, .schedule (.ok 1000000) 0,
    .complete ⟨2, 0⟩, .poll 1 [], .complete ⟨1, 2⟩, .schedule (.ok 5000000) 1000000]

/-- Four delays, of which two share a deadline and one gets the entry of another, with a
poll and two completions between them. -/
theorem refines_sharedDeadline : ∃ s : Calls Unit, s.live = [⟨6, 2⟩, ⟨2, 1⟩] ∧ Refines s := by
  obtain ⟨s, run, hLive⟩ := (calls Unit 0).exists_run_of_replay sharedDeadline Calls.live
    [⟨6, 2⟩, ⟨2, 1⟩] (by decide)
  exact ⟨s, hLive, refines run.reachable⟩

end Yaar.Time.Queue
