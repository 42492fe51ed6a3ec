import Yaar.Data.FirstKey
import Yaar.Time.Queue

namespace Yaar.Time.Queue

variable {W : Type*} {q q' : Queue W}

/-- The delay's entry is in the list of its deadline. -/
def Scheduled (q : Queue W) (x : Delay) : Prop :=
  ∃ list, q.tree[x.deadline]? = some list ∧ x.entry ∈ list

/-- Every list of the tree is in use and every cached list is empty. -/
structure Lists (q : Queue W) : Prop where
  used : ∀ d list, q.tree[d]? = some list → list ≠ [] ∧ list.Nodup ∧ 0 < d
  cached : ∀ list ∈ q.listCache.cached, list = []

/-- Live delays and cached entries never share an entry. -/
structure Owned (q : Queue W) (live : List Delay) : Prop where
  nodup : (live.map Delay.entry ++ q.entryCache.cached).Nodup
  bound : ∀ e ∈ live.map Delay.entry ++ q.entryCache.cached, e < q.fresh

/-- The flag of an entry tells whether it is in the tree. -/
structure Flagged (q : Queue W) (live : List Delay) : Prop where
  listed : ∀ x, q.Scheduled x → x ∈ live ∧ (q.raw x.entry).queued = true
  queued : ∀ e, (q.raw e).queued = true → ∃ x ∈ live, x.entry = e ∧ q.Scheduled x

/-- What every call of the queue keeps, over the delays handed out and not yet
completed. -/
structure Sound (q : Queue W) (live : List Delay) : Prop where
  lists : Lists q
  owned : Owned q live
  flagged : Flagged q live
  expires : q.expires = q.firstDeadline.getD 0

theorem Owned.entry_inj {live : List Delay} (owned : Owned q live) {x y : Delay} (hx : x ∈ live)
    (hy : y ∈ live) (h : x.entry = y.entry) : x = y :=
  List.inj_on_of_nodup_map (List.nodup_append.mp owned.nodup).1 hx hy h

/-! ## The tree -/

theorem mem_tree_iff {d : Deadline} : d ∈ q.tree ↔ ∃ list, q.tree[d]? = some list := by
  rw [Std.TreeMap.mem_iff_isSome_getElem?, Option.isSome_iff_exists]

theorem firstDeadline_eq_some {d : Deadline} :
    q.firstDeadline = some d ↔ d ∈ q.tree ∧ ∀ d' ∈ q.tree, d ≤ d' := by
  rw [firstDeadline, FirstKey.eq_some_iff]
  simp [Nat.isLE_compare]

theorem firstDeadline_eq_none : q.firstDeadline = none ↔ ∀ d, d ∉ q.tree :=
  FirstKey.eq_none_iff

theorem getElem?_insert {tree : Std.TreeMap Deadline EntryList} {d d' : Deadline}
    {list : EntryList} :
    (tree.insert d list)[d']? = if d = d' then some list else tree[d']? := by
  simp [Std.TreeMap.getElem?_insert]

theorem getElem?_erase {tree : Std.TreeMap Deadline EntryList} {d d' : Deadline} :
    (tree.erase d)[d']? = if d = d' then none else tree[d']? := by
  simp [Std.TreeMap.getElem?_erase]

/-- Adding a deadline makes it the first one exactly when it is smaller. -/
theorem firstDeadline_insert {d : Deadline} {list : EntryList}
    (h : q'.tree = q.tree.insert d list) :
    q'.firstDeadline = some (match q.firstDeadline with
      | none => d
      | some first => if d < first then d else first) := by
  rw [firstDeadline_eq_some]
  have hMem : ∀ d', d' ∈ q'.tree ↔ d = d' ∨ d' ∈ q.tree := by
    intro d'
    simp [h, Std.TreeMap.mem_insert]
  cases hFirst : q.firstDeadline with
  | none =>
      rw [firstDeadline_eq_none] at hFirst
      exact ⟨(hMem d).mpr (Or.inl rfl), fun d' hd' => by
        rcases (hMem d').mp hd' with rfl | hd'
        · exact le_refl _
        · exact (hFirst d' hd').elim⟩
  | some first =>
      obtain ⟨hIn, hLe⟩ := firstDeadline_eq_some.mp hFirst
      dsimp only
      split
      · next hLt =>
          refine ⟨(hMem d).mpr (Or.inl rfl), fun d' hd' => ?_⟩
          rcases (hMem d').mp hd' with rfl | hd'
          · exact le_refl _
          · exact hLt.le.trans (hLe d' hd')
      · next hLt =>
          refine ⟨(hMem first).mpr (Or.inr hIn), fun d' hd' => ?_⟩
          rcases (hMem d').mp hd' with rfl | hd'
          · exact not_lt.mp hLt
          · exact hLe d' hd'

/-- Removing a deadline that is not the first one leaves the first in place. -/
theorem firstDeadline_erase_of_ne {d first : Deadline} (h : q'.tree = q.tree.erase d)
    (hFirst : q.firstDeadline = some first) (hNe : first ≠ d) :
    q'.firstDeadline = some first := by
  obtain ⟨hIn, hLe⟩ := firstDeadline_eq_some.mp hFirst
  rw [firstDeadline_eq_some, h]
  simp only [Std.TreeMap.mem_erase]
  exact ⟨⟨by simpa using hNe.symm, hIn⟩, fun d' hd' => hLe d' hd'.2⟩

/-- Replacing the list of a deadline keeps the first deadline. -/
theorem firstDeadline_replace {d : Deadline} {list : EntryList}
    (h : q'.tree = q.tree.insert d list) (hIn : d ∈ q.tree) :
    q'.firstDeadline = q.firstDeadline := by
  rw [firstDeadline_insert h]
  cases hFirst : q.firstDeadline with
  | none => exact (firstDeadline_eq_none.mp hFirst d hIn).elim
  | some first =>
      have hLe := (firstDeadline_eq_some.mp hFirst).2 d hIn
      simp [not_lt.mpr hLe]

/-! ## Allocation -/

/-- An allocated entry is one that no live delay or cache slot refers to. -/
theorem allocEntry_spec {live : List Delay} {e : Entry} (owned : Owned q live)
    (flagged : Flagged q live) (h : q.allocEntry = (e, q')) :
    (live.map Delay.entry ++ e :: q'.entryCache.cached).Nodup ∧
      (∀ x ∈ live.map Delay.entry ++ e :: q'.entryCache.cached, x < q'.fresh) ∧
      (q'.raw e).queued = false ∧ (∀ x, x ≠ e → q'.raw x = q.raw x) ∧
      q'.tree = q.tree ∧ q'.listCache = q.listCache ∧ q'.expires = q.expires ∧
      q'.current = q.current := by
  have hNot : ∀ x, x ∉ live.map Delay.entry → (q.raw x).queued = false := by
    intro x hx
    by_contra hq
    obtain ⟨y, hy, rfl, -⟩ := flagged.queued x (by simpa using hq)
    exact hx (List.mem_map_of_mem hy)
  unfold allocEntry Cache.alloc at h
  cases hLast : q.entryCache.cached.getLast? with
  | some entry =>
      simp only [hLast, Prod.mk.injEq] at h
      obtain ⟨rfl, rfl⟩ := h
      have hCached : q.entryCache.cached = q.entryCache.cached.dropLast ++ [entry] :=
        (List.dropLast_append_getLast? entry hLast).symm
      have hPerm : (live.map Delay.entry ++ q.entryCache.cached).Perm
          (live.map Delay.entry ++ entry :: q.entryCache.cached.dropLast) := by
        refine List.Perm.append_left _ ?_
        conv_lhs => rw [hCached]
        exact List.perm_append_singleton entry _
      have hNodup := hPerm.nodup_iff.mp owned.nodup
      refine ⟨hNodup, fun x hx => owned.bound x (hPerm.mem_iff.mpr hx), hNot _ ?_, ?_⟩
      · intro hMem
        exact (List.nodup_append.mp hNodup).2.2 entry hMem entry (by simp) rfl
      · simp
  | none =>
      simp only [hLast, Prod.mk.injEq] at h
      obtain ⟨rfl, rfl⟩ := h
      have hNil : q.entryCache.cached = [] := List.getLast?_eq_none_iff.mp hLast
      have hOwned := owned.nodup
      have hBound := owned.bound
      simp only [hNil, List.append_nil] at hOwned hBound
      refine ⟨?_, ?_, ?_, ?_⟩
      · simp only [hNil, List.dropLast_nil]
        rw [(List.perm_append_singleton _ _).nodup_iff, List.nodup_cons]
        exact ⟨fun hMem => lt_irrefl _ (hBound _ hMem), hOwned⟩
      · intro x hx
        simp only [hNil, List.dropLast_nil, List.mem_append, List.mem_singleton] at hx
        rcases hx with hx | rfl
        · exact Nat.lt_succ_of_lt (hBound x hx)
        · exact Nat.lt_succ_self _
      · simp [RawEntry.new]
      · refine ⟨fun x hx => ?_, rfl, rfl, rfl, rfl⟩
        simp [hx]

/-- Freeing an empty list keeps every cached list empty. -/
theorem free_nil {c : Cache EntryList} (h : ∀ list ∈ c.cached, list = []) :
    ∀ list ∈ (c.free []).cached, list = [] := by
  unfold Cache.free
  split
  · intro list hMem
    rcases List.mem_append.mp hMem with hMem | hMem
    · exact h list hMem
    · simpa using hMem
  · exact h

/-- An allocated list is empty, and so are those left in the cache. -/
theorem alloc_nil {c : Cache EntryList} (h : ∀ list ∈ c.cached, list = []) :
    c.alloc.1.getD [] = [] ∧ ∀ list ∈ c.alloc.2.cached, list = [] := by
  constructor
  · cases hLast : c.cached.getLast? with
    | none => simp [Cache.alloc, hLast]
    | some list => simpa [Cache.alloc, hLast] using h list (List.mem_of_getLast? hLast)
  · exact fun list hMem => h list (List.mem_of_mem_dropLast hMem)

/-- An entry goes to the end of the list of its deadline. A list that is made for it
comes from the cache, where all lists are empty. -/
theorem pushEntry_spec {d : Deadline} {e : Entry}
    (cached : ∀ list ∈ q.listCache.cached, list = []) :
    (q.pushEntry d e).tree = q.tree.insert d (q.tree[d]?.getD [] ++ [e]) ∧
      (∀ list ∈ (q.pushEntry d e).listCache.cached, list = []) ∧
      (q.pushEntry d e).raw = q.raw ∧ (q.pushEntry d e).fresh = q.fresh ∧
      (q.pushEntry d e).entryCache = q.entryCache ∧ (q.pushEntry d e).expires = q.expires ∧
      (q.pushEntry d e).current = q.current := by
  obtain ⟨hNil, hRest⟩ := alloc_nil cached
  unfold pushEntry
  cases hList : q.tree[d]? with
  | some occupied =>
      simpa [hNil] using free_nil hRest
  | none =>
      simpa [hNil] using hRest

/-- Whether an entry is scheduled after a push on the list of `d`. -/
theorem scheduled_push {d : Deadline} {e : Entry}
    (h : q'.tree = q.tree.insert d (q.tree[d]?.getD [] ++ [e])) (x : Delay) :
    q'.Scheduled x ↔ q.Scheduled x ∨ x = ⟨d, e⟩ := by
  unfold Scheduled
  rw [h]
  simp only [getElem?_insert]
  obtain ⟨dx, ex⟩ := x
  by_cases hd : d = dx
  · subst hd
    cases hList : q.tree[d]? <;> simp
  · simp [hd, Ne.symm hd]

/-! ## `schedule` -/

/-- What a call of `schedule` that returns a delay has done. -/
structure Scheduling (q q' : Queue W) (x : Delay) : Prop where
  tree : q'.tree = q.tree.insert x.deadline (q.tree[x.deadline]?.getD [] ++ [x.entry])
  expires : q'.expires = if q.expires = 0 ∨ x.deadline < q.expires then x.deadline else q.expires
  late : q'.current < x.deadline
  raw : ∀ e, e ≠ x.entry → q'.raw e = q.raw e
  queued : (q'.raw x.entry).queued = true

/-- A call that returns no delay has set the current time at most. -/
theorem schedule_none {delay : Except Instant Duration} {now : Instant}
    (h : q.schedule delay now = (q', none)) :
    q' = q ∨ q' = { q with current := q.since now } := by
  unfold schedule at h
  split at h
  · exact Or.inl (by simpa using h.symm)
  · dsimp only at h
    split at h
    · exact Or.inr (by simpa using h.symm)
    · simp at h

/-- What a call of `schedule` that returns a delay has done: the entry is a new or a
cached one and is listed under its deadline. -/
theorem schedule_some {live : List Delay} {delay : Except Instant Duration} {now : Instant}
    {x : Delay} (inv : Sound q live) (h : q.schedule delay now = (q', some x)) :
    Scheduling q q' x ∧ Lists q' ∧ Owned q' (x :: live) ∧ x ∉ live := by
  unfold schedule at h
  split at h
  · simp at h
  · dsimp only at h
    split at h
    · simp at h
    · next hLate =>
        -- Name the queue before the entry is pushed.
        generalize hBase : ({ q with
          current := q.since now
          expires := if q.expires = 0 ∨ ({ q with current := q.since now } : Queue W).deadline delay
              < q.expires
            then ({ q with current := q.since now } : Queue W).deadline delay
            else q.expires } : Queue W) = base at h
        generalize hd : ({ q with current := q.since now } : Queue W).deadline delay = d
          at h hLate hBase
        rcases hAlloc : base.allocEntry with ⟨e, middle⟩
        rw [hAlloc] at h
        simp only [Prod.mk.injEq, Option.some.injEq] at h
        obtain ⟨rfl, rfl⟩ := h
        have hOwned : Owned base live := by rw [← hBase]; exact ⟨inv.owned.nodup, inv.owned.bound⟩
        have hFlagged : Flagged base live := by
          rw [← hBase]; exact ⟨inv.flagged.listed, inv.flagged.queued⟩
        obtain ⟨hNodup, hBound, hQueued, hRaw, hTree, hCache, hExpires, hCurrent⟩ :=
          allocEntry_spec hOwned hFlagged hAlloc
        have hTree₀ : base.tree = q.tree := by rw [← hBase]
        have hRaw₀ : base.raw = q.raw := by rw [← hBase]
        have hCache₀ : base.listCache = q.listCache := by rw [← hBase]
        have hExpires₀ : base.expires = if q.expires = 0 ∨ d < q.expires then d else q.expires := by
          rw [← hBase]
        have hCurrent₀ : base.current = q.since now := by rw [← hBase]
        obtain ⟨pTree, pCached, pRaw, pFresh, pEntries, pExpires, pCurrent⟩ :=
          pushEntry_spec (q := middle) (d := d) (e := e)
            (by rw [hCache, hCache₀]; exact inv.lists.cached)
        rw [hTree, hTree₀] at pTree
        have hNew : e ∉ live.map Delay.entry := fun hMem =>
          (List.nodup_append.mp hNodup).2.2 e hMem e (by simp) rfl
        refine ⟨⟨pTree, ?_, ?_, fun e' he' => ?_, by simp [setQueued]⟩, ⟨?_, pCached⟩, ⟨?_, ?_⟩, ?_⟩
        · exact pExpires.trans (hExpires.trans hExpires₀)
        · simp only [pCurrent, hCurrent, hCurrent₀]
          exact not_le.mp hLate
        · simp only [setQueued, Function.update_of_ne he', pRaw]
          rw [hRaw e' he', hRaw₀]
        · intro d' list hList
          simp only [pTree, getElem?_insert] at hList
          split at hList
          · next hEq =>
              subst hEq
              obtain rfl := Option.some.inj hList
              refine ⟨by simp, ?_, Nat.zero_lt_of_lt (not_le.mp hLate)⟩
              -- The entry is new, so it is not in the old list.
              cases hOld : q.tree[d]? with
              | none => simp
              | some old =>
                  have hOldNot : e ∉ old := fun hMem =>
                    hNew (List.mem_map_of_mem (inv.flagged.listed ⟨d, e⟩ ⟨old, hOld, hMem⟩).1)
                  simp only [Option.getD_some]
                  rw [(List.perm_append_singleton e old).nodup_iff, List.nodup_cons]
                  exact ⟨hOldNot, (inv.lists.used d old hOld).2.1⟩
          · exact inv.lists.used d' list hList
        · simp only [pEntries, List.map_cons, List.cons_append]
          exact (List.perm_middle.nodup_iff).mp hNodup
        · intro y hy
          simp only [pEntries, pFresh, List.map_cons, List.cons_append] at hy ⊢
          exact hBound y (List.perm_middle.mem_iff.mpr hy)
        · exact fun hMem => hNew (List.mem_map_of_mem hMem)

/-- Where the entry of a new delay comes from, with the waker it brings along. -/
inductive Allocated (q q' : Queue W) (x : Delay) : Prop where
  | recycled (cached : q.entryCache.cached.getLast? = some x.entry)
      (waker : (q'.raw x.entry).waker = (q.raw x.entry).waker) (fresh : q'.fresh = q.fresh)
  | fresh (entry : x.entry = q.fresh) (waker : (q'.raw x.entry).waker = .new)
      (fresh : q'.fresh = q.fresh + 1)

theorem pushEntry_kept (d : Deadline) (e : Entry) :
    (q.pushEntry d e).raw = q.raw ∧ (q.pushEntry d e).fresh = q.fresh := by
  unfold pushEntry
  cases q.tree[d]? <;> exact ⟨rfl, rfl⟩

theorem schedule_allocated {delay : Except Instant Duration} {now : Instant} {x : Delay}
    (h : q.schedule delay now = (q', some x)) : Allocated q q' x := by
  unfold schedule at h
  split at h
  · simp at h
  · dsimp only at h
    split at h
    · simp at h
    · simp only [Prod.mk.injEq, Option.some.injEq] at h
      obtain ⟨rfl, rfl⟩ := h
      cases hLast : q.entryCache.cached.getLast? with
      | some e =>
          refine .recycled ?_ ?_ ?_ <;>
            simp [allocEntry, Cache.alloc, hLast, pushEntry_kept, setQueued]
      | none =>
          refine .fresh ?_ ?_ ?_ <;>
            simp [allocEntry, Cache.alloc, hLast, pushEntry_kept, setQueued, RawEntry.new]

theorem Scheduling.scheduled {x : Delay} (h : Scheduling q q' x) (y : Delay) :
    q'.Scheduled y ↔ q.Scheduled y ∨ y = x :=
  scheduled_push h.tree y

/-- A delay that is handed out is live from then on, and the queue stays sound. -/
theorem schedule_sound {live : List Delay} {delay : Except Instant Duration} {now : Instant}
    {x : Delay} (inv : Sound q live) (h : q.schedule delay now = (q', some x)) :
    Sound q' (x :: live) := by
  obtain ⟨done, lists, owned, hNew⟩ := schedule_some inv h
  have hEntry : x.entry ∉ live.map Delay.entry := fun hMem =>
    (List.nodup_cons.mp (by simpa using owned.nodup)).1 (List.mem_append_left _ hMem)
  refine ⟨lists, owned, ⟨?_, ?_⟩, ?_⟩
  · intro y hy
    rcases (done.scheduled y).mp hy with hy | rfl
    · obtain ⟨hLive, hQueued⟩ := inv.flagged.listed y hy
      have hNe : y.entry ≠ x.entry := fun hEq => hEntry (hEq ▸ List.mem_map_of_mem hLive)
      exact ⟨List.mem_cons_of_mem _ hLive, by rw [done.raw _ hNe]; exact hQueued⟩
    · exact ⟨by simp, done.queued⟩
  · intro e hQueued
    by_cases hEq : e = x.entry
    · exact ⟨x, by simp, hEq.symm, (done.scheduled x).mpr (Or.inr rfl)⟩
    · rw [done.raw e hEq] at hQueued
      obtain ⟨y, hLive, hy, hSched⟩ := inv.flagged.queued e hQueued
      exact ⟨y, List.mem_cons_of_mem _ hLive, hy, (done.scheduled y).mpr (Or.inl hSched)⟩
  · -- `expires` holds the smallest deadline, and zero only when there is none.
    rw [done.expires, firstDeadline_insert done.tree]
    cases hFirst : q.firstDeadline with
    | none => simp [inv.expires, hFirst]
    | some first =>
        obtain ⟨list, hList⟩ := mem_tree_iff.mp (firstDeadline_eq_some.mp hFirst).1
        have hPos := (inv.lists.used first list hList).2.2
        have hExpires : q.expires = first := by simp [inv.expires, hFirst]
        simp [hExpires, hPos.ne']

theorem schedule_none_sound {live : List Delay} {delay : Except Instant Duration} {now : Instant}
    (inv : Sound q live) (h : q.schedule delay now = (q', none)) : Sound q' live := by
  rcases schedule_none h with rfl | rfl
  · exact inv
  · exact ⟨⟨inv.lists.used, inv.lists.cached⟩, ⟨inv.owned.nodup, inv.owned.bound⟩,
      ⟨inv.flagged.listed, inv.flagged.queued⟩, inv.expires⟩

/-! ## `poll` -/

/-- Draining a list of distinct queued entries succeeds and clears their flags. -/
theorem drain_spec {raw : Entry → RawEntry W} {list : EntryList} (nodup : list.Nodup)
    (queued : ∀ e ∈ list, (raw e).queued = true) :
    ∃ raw', drain raw list = some raw' ∧ (∀ e ∉ list, raw' e = raw e) ∧
      (∀ e ∈ list, (raw' e).queued = false) ∧ ∀ e, (raw' e).waker = (raw e).waker := by
  induction list generalizing raw with
  | nil => exact ⟨raw, rfl, by simp, by simp, by simp⟩
  | cons entry list ih =>
      obtain ⟨hNot, hNodup⟩ := List.nodup_cons.mp nodup
      have hQueued : ∀ e ∈ list, (setQueued raw entry false e).queued = true := by
        intro e he
        have hNe : e ≠ entry := fun hEq => hNot (hEq ▸ he)
        simpa [setQueued, hNe] using queued e (List.mem_cons_of_mem _ he)
      obtain ⟨raw', hDrain, hOther, hCleared, hWaker⟩ := ih hNodup hQueued
      refine ⟨raw', by simp [drain, queued entry, hDrain], ?_, ?_, ?_⟩
      · intro e he
        simp only [List.mem_cons, not_or] at he
        rw [hOther e he.2]
        simp [setQueued, he.1]
      · intro e he
        rcases List.mem_cons.mp he with rfl | he
        · simp [hOther e hNot, setQueued]
        · exact hCleared e he
      · intro e
        rw [hWaker e]
        by_cases hEq : e = entry <;> simp [setQueued, hEq]

/-- Without the list of a deadline the delays of that deadline are no longer scheduled. -/
theorem scheduled_erase {d : Deadline} (h : q'.tree = q.tree.erase d) (x : Delay) :
    q'.Scheduled x ↔ q.Scheduled x ∧ x.deadline ≠ d := by
  unfold Scheduled
  rw [h]
  simp only [getElem?_erase]
  by_cases hd : d = x.deadline <;> simp [hd, Ne.symm]

/-- What a call of `poll` has done, where `due` are the delays it expired. -/
structure Polling (q q' : Queue W) (due : List Delay) : Prop where
  sorted : due.Pairwise fun x y => x.deadline ≤ y.deadline
  nodup : (due.map Delay.entry).Nodup
  due : ∀ x, x ∈ due ↔ q.Scheduled x ∧ x.deadline ≤ q.current
  kept : ∀ x, q'.Scheduled x ↔ q.Scheduled x ∧ q.current < x.deadline
  waker : ∀ e, (q'.raw e).waker = (q.raw e).waker
  current : q'.current = q.current
  fresh : q'.fresh = q.fresh

/-- Removing the list of a deadline unqueues exactly its entries. -/
theorem remove_list {live : List Delay} {d : Deadline} {list : EntryList}
    {raw : Entry → RawEntry W} (lists : Lists q) (owned : Owned q live) (flagged : Flagged q live)
    (hList : q.tree[d]? = some list) (hOther : ∀ e ∉ list, raw e = q.raw e)
    (hCleared : ∀ e ∈ list, (raw e).queued = false)
    (h : q' = { q with tree := q.tree.erase d, raw := raw, listCache := q.listCache.free [] }) :
    Lists q' ∧ Owned q' live ∧ Flagged q' live := by
  have hSched : ∀ x, q'.Scheduled x ↔ q.Scheduled x ∧ x.deadline ≠ d :=
    scheduled_erase (by rw [h])
  have hRaw : q'.raw = raw := by rw [h]
  -- An entry scheduled elsewhere is not in the removed list.
  have hApart : ∀ x, q.Scheduled x → x.deadline ≠ d → x.entry ∉ list := by
    intro x hx hNe hMem
    have hLive := (flagged.listed x hx).1
    have hLive' := (flagged.listed ⟨d, x.entry⟩ ⟨list, hList, hMem⟩).1
    exact hNe (congrArg Delay.deadline (owned.entry_inj hLive hLive' rfl))
  refine ⟨⟨?_, ?_⟩, ?_, ⟨?_, ?_⟩⟩
  · intro d' list' hList'
    simp only [h, getElem?_erase] at hList'
    split at hList'
    · simp at hList'
    · exact lists.used d' list' hList'
  · rw [h]
    exact free_nil lists.cached
  · rw [h]
    exact ⟨owned.nodup, owned.bound⟩
  · intro x hx
    obtain ⟨hx, hNe⟩ := (hSched x).mp hx
    obtain ⟨hLive, hQueued⟩ := flagged.listed x hx
    exact ⟨hLive, by rw [hRaw, hOther _ (hApart x hx hNe)]; exact hQueued⟩
  · intro e hQueued
    rw [hRaw] at hQueued
    have hNot : e ∉ list := fun hMem => by simp [hCleared e hMem] at hQueued
    rw [hOther e hNot] at hQueued
    obtain ⟨x, hLive, rfl, hx⟩ := flagged.queued e hQueued
    refine ⟨x, hLive, rfl, (hSched x).mpr ⟨hx, ?_⟩⟩
    rintro rfl
    obtain ⟨list', hList', hMem⟩ := hx
    exact hNot (Option.some.inj (hList.symm.trans hList') ▸ hMem)

/-- The loop of `poll` takes one list after the other, by their deadlines, and ends with
the first that is still to come. With more fuel than there are lists it does not run
out. -/
theorem pollLoop_spec {live : List Delay} {fuel : Nat} {expired : EntryList} (lists : Lists q)
    (owned : Owned q live) (flagged : Flagged q live) (hFuel : q.tree.size < fuel) :
    ∃ q' due, pollLoop fuel q expired = some (q', expired ++ due.map Delay.entry) ∧
      Sound q' live ∧ Polling q q' due := by
  induction fuel generalizing q expired with
  | zero => simp at hFuel
  | succ fuel ih =>
      cases hFirst : q.firstDeadline with
      | none =>
          have hEmpty : ∀ x, ¬q.Scheduled x := fun x ⟨list, hList, _⟩ =>
            firstDeadline_eq_none.mp hFirst _ (mem_tree_iff.mpr ⟨list, hList⟩)
          refine ⟨{ q with expires := 0 }, [], by simp [pollLoop, hFirst], ?_, ?_⟩
          · refine ⟨⟨lists.used, lists.cached⟩, ⟨owned.nodup, owned.bound⟩,
              ⟨flagged.listed, flagged.queued⟩, ?_⟩
            change 0 = q.firstDeadline.getD 0
            simp [hFirst]
          · exact ⟨by simp, by simp, fun x => by simp [hEmpty], fun x => by
              simp only [Scheduled] at hEmpty ⊢
              simp [hEmpty], fun _ => rfl, rfl, rfl⟩
      | some d =>
          obtain ⟨hIn, hLe⟩ := firstDeadline_eq_some.mp hFirst
          by_cases hLate : d > q.current
          · have hAfter : ∀ x, q.Scheduled x → q.current < x.deadline :=
              fun x ⟨list, hList, _⟩ =>
                lt_of_lt_of_le hLate (hLe _ (mem_tree_iff.mpr ⟨list, hList⟩))
            refine ⟨{ q with expires := d }, [], by simp [pollLoop, hFirst, hLate], ?_, ?_⟩
            · refine ⟨⟨lists.used, lists.cached⟩, ⟨owned.nodup, owned.bound⟩,
                ⟨flagged.listed, flagged.queued⟩, ?_⟩
              change d = q.firstDeadline.getD 0
              simp [hFirst]
            · exact ⟨by simp, by simp, fun x => by
                simp only [List.not_mem_nil, false_iff, not_and, not_le]
                exact hAfter x, fun x => ⟨fun hx => ⟨hx, hAfter x hx⟩, And.left⟩,
                fun _ => rfl, rfl, rfl⟩
          · obtain ⟨list, hList⟩ := mem_tree_iff.mp hIn
            obtain ⟨hUsed, hNodup, -⟩ := lists.used d list hList
            have hQueued : ∀ e ∈ list, (q.raw e).queued = true := fun e he =>
              (flagged.listed ⟨d, e⟩ ⟨list, hList, he⟩).2
            obtain ⟨raw, hDrain, hOther, hCleared, hWaker⟩ := drain_spec hNodup hQueued
            let q₁ : Queue W := { q with
              tree := q.tree.erase d, raw := raw, listCache := q.listCache.free [] }
            obtain ⟨lists₁, owned₁, flagged₁⟩ :=
              remove_list lists owned flagged hList hOther hCleared (rfl : q₁ = _)
            have hSize : q₁.tree.size < fuel :=
              Nat.lt_of_lt_of_le (FirstKey.size_erase_lt hIn) (Nat.lt_succ_iff.mp hFuel)
            obtain ⟨q', due, hLoop, sound, polling⟩ :=
              @ih q₁ (expired ++ list) lists₁ owned₁ flagged₁ hSize
            have hSched : ∀ x, q₁.Scheduled x ↔ q.Scheduled x ∧ x.deadline ≠ d :=
              scheduled_erase rfl
            have hCurrent : q₁.current = q.current := rfl
            have hHere : ∀ x, x ∈ list.map (Delay.mk d) ↔ q.Scheduled x ∧ x.deadline = d := by
              intro x
              simp only [List.mem_map, Scheduled]
              constructor
              · rintro ⟨e, he, rfl⟩
                exact ⟨⟨list, hList, he⟩, rfl⟩
              · rintro ⟨⟨list', hList', hMem⟩, rfl⟩
                exact ⟨x.entry, Option.some.inj (hList.symm.trans hList') ▸ hMem, rfl⟩
            refine ⟨q', list.map (Delay.mk d) ++ due, ?_, sound, ?_⟩
            · simp only [pollLoop, hFirst, if_neg hLate, hList, hDrain]
              rw [hLoop]
              simp [Function.comp_def]
            · refine ⟨?_, ?_, fun x => ?_, fun x => ?_, fun e => ?_, polling.current, polling.fresh⟩
              · -- The first deadline comes before every later one.
                rw [List.pairwise_append]
                refine ⟨List.pairwise_map.mpr (List.pairwise_of_forall fun _ _ => le_refl _),
                  polling.sorted, fun x hx y hy => ?_⟩
                obtain ⟨-, rfl⟩ := (hHere x).mp hx
                obtain ⟨⟨list', hList', -⟩, -⟩ :=
                  (hSched y).mp ((polling.due y).mp hy).1
                exact hLe _ (mem_tree_iff.mpr ⟨list', hList'⟩)
              · rw [List.map_append, List.nodup_append]
                refine ⟨by simpa [Function.comp_def] using hNodup, polling.nodup, ?_⟩
                rintro e he _ hDue rfl
                obtain ⟨x, hx, rfl⟩ := List.mem_map.mp hDue
                have hMem : x.entry ∈ list := by simpa [Function.comp_def] using he
                obtain ⟨hx', hNe⟩ := (hSched x).mp ((polling.due x).mp hx).1
                exact hNe (congrArg Delay.deadline (owned.entry_inj (flagged.listed x hx').1
                  (flagged.listed ⟨d, x.entry⟩ ⟨list, hList, hMem⟩).1 rfl))
              · rw [List.mem_append, hHere, polling.due, hSched, hCurrent]
                have hDue : d ≤ q.current := not_lt.mp hLate
                constructor
                · rintro (⟨hx, rfl⟩ | ⟨⟨hx, -⟩, hLeX⟩)
                  · exact ⟨hx, hDue⟩
                  · exact ⟨hx, hLeX⟩
                · rintro ⟨hx, hLeX⟩
                  by_cases hEq : x.deadline = d
                  · exact Or.inl ⟨hx, hEq⟩
                  · exact Or.inr ⟨⟨hx, hEq⟩, hLeX⟩
              · rw [polling.kept, hSched, hCurrent]
                have hDue : d ≤ q.current := not_lt.mp hLate
                exact ⟨fun ⟨⟨hx, _⟩, hLt⟩ => ⟨hx, hLt⟩, fun ⟨hx, hLt⟩ =>
                  ⟨⟨hx, fun hEq => absurd (hEq ▸ hLt) (not_lt.mpr hDue)⟩, hLt⟩⟩
              · exact (polling.waker e).trans (hWaker e)

/-- `poll` never fails and expires exactly what is due. -/
theorem poll_spec {live : List Delay} (inv : Sound q live) (current : Deadline)
    (expired : EntryList) :
    ∃ q' due, q.poll current expired = some (q', expired ++ due.map Delay.entry) ∧
      Sound q' live ∧ Polling { q with current := max q.current current } q' due :=
  pollLoop_spec (q := { q with current := max q.current current })
    ⟨inv.lists.used, inv.lists.cached⟩ ⟨inv.owned.nodup, inv.owned.bound⟩
    ⟨inv.flagged.listed, inv.flagged.queued⟩ (Nat.lt_succ_self _)

/-! ## `complete` -/

/-- The entry that is removed and what is left make up the list. -/
theorem swapRemove_perm {list : EntryList} {e : Entry} (h : e ∈ list) :
    (e :: swapRemove list e).Perm list := by
  obtain ⟨before, after, rfl, hBefore⟩ := List.eq_append_cons_of_mem h
  have hIndex : (before ++ e :: after).findIdx? (· = e) = some before.length := by
    rw [List.findIdx?_append]
    have hNone : before.findIdx? (· = e) = none := by
      rw [List.findIdx?_eq_none_iff]
      intro x hx
      simpa using fun hEq : x = e => hBefore (hEq ▸ hx)
    simp [hNone, List.findIdx?_cons]
  unfold swapRemove
  rw [hIndex]
  rcases List.eq_nil_or_concat' after with rfl | ⟨middle, last, rfl⟩
  · simpa using (List.perm_append_singleton e before).symm
  · have hLast : (before ++ e :: (middle ++ [last])).getLast? = some last := by
      have hAppend : before ++ e :: (middle ++ [last]) = (before ++ e :: middle) ++ [last] := by simp
      rw [hAppend, List.getLast?_concat]
    have hSet : (before ++ e :: (middle ++ [last])).set before.length last =
        (before ++ last :: middle) ++ [last] := by simp
    simp only [hLast, hSet, List.dropLast_concat]
    have hMove : (last :: middle).Perm (middle ++ [last]) :=
      (List.perm_append_singleton last middle).symm
    exact List.perm_middle.symm.trans ((hMove.cons e).append_left before)

/-- Whether an entry is scheduled after its list lost one of its entries. -/
theorem scheduled_remove {d : Deadline} {e : Entry} {list rest : EntryList}
    (hList : q.tree[d]? = some list) (hNodup : list.Nodup) (hPerm : (e :: rest).Perm list)
    (h : ∀ d', q'.tree[d']? =
      if d = d' then (if rest = [] then none else some rest) else q.tree[d']?) (x : Delay) :
    q'.Scheduled x ↔ q.Scheduled x ∧ x ≠ ⟨d, e⟩ := by
  obtain ⟨hNot, -⟩ := List.nodup_cons.mp (hPerm.nodup_iff.mpr hNodup)
  obtain ⟨dx, ex⟩ := x
  unfold Scheduled
  simp only [h]
  by_cases hd : d = dx
  · subst hd
    have hMem : ex ∈ list ↔ ex = e ∨ ex ∈ rest := by
      rw [← hPerm.mem_iff, List.mem_cons]
    by_cases hNil : rest = []
    · simp [hList, hMem, hNil]
    · have hNe : ex ∈ rest → ex ≠ e := fun hIn hEq => hNot (hEq ▸ hIn)
      simp only [hNil, if_true, if_false, hList, Option.some.injEq, exists_eq_left', hMem,
        ne_eq, Delay.mk.injEq, true_and]
      exact ⟨fun hIn => ⟨Or.inr hIn, hNe hIn⟩, fun ⟨hOr, hEq⟩ => hOr.resolve_left hEq⟩
  · simp [hd, Ne.symm hd]

/-- What the removal of a queued entry has done. -/
structure Unqueued (q q' : Queue W) (x : Delay) : Prop where
  lists : Lists q'
  scheduled : ∀ y, q'.Scheduled y ↔ q.Scheduled y ∧ y ≠ x
  expires : q'.expires = q'.firstDeadline.getD 0
  raw : q'.raw = q.raw
  fresh : q'.fresh = q.fresh
  entryCache : q'.entryCache = q.entryCache

/-- A queued entry is found in the list of its deadline. If it was the last one there,
the list goes to the cache and the first deadline may change. -/
theorem unqueue_spec {live : List Delay} {x : Delay} (inv : Sound q live) (hx : q.Scheduled x) :
    ∃ q', q.unqueue x = some q' ∧ Unqueued q q' x := by
  obtain ⟨list, hList, hMem⟩ := hx
  obtain ⟨-, hNodup, hPos⟩ := inv.lists.used _ _ hList
  have hPerm := swapRemove_perm hMem
  have hIn : x.deadline ∈ q.tree := mem_tree_iff.mpr ⟨list, hList⟩
  -- The tree is not empty, so `expires` is one of its deadlines.
  obtain ⟨first, hFirst⟩ : ∃ first, q.firstDeadline = some first := by
    cases hFirst : q.firstDeadline with
    | none => exact (firstDeadline_eq_none.mp hFirst _ hIn).elim
    | some first => exact ⟨first, rfl⟩
  have hExpires : q.expires = first := by simp [inv.expires, hFirst]
  obtain ⟨firstList, hFirstList⟩ := mem_tree_iff.mp (firstDeadline_eq_some.mp hFirst).1
  have hFirstPos := (inv.lists.used _ _ hFirstList).2.2
  by_cases hNil : swapRemove list x.entry = []
  · let q₁ : Queue W := { q with
      tree := q.tree.erase x.deadline
      listCache := q.listCache.free (swapRemove list x.entry) }
    have hTree : ∀ d', q₁.tree[d']? = if x.deadline = d' then
        (if swapRemove list x.entry = [] then none else some (swapRemove list x.entry))
        else q.tree[d']? := by
      intro d'
      simp only [q₁, getElem?_erase, hNil, if_true]
    have hLists : Lists q₁ := by
      have hCache : q₁.listCache = q.listCache.free [] := by simp only [q₁, hNil]
      refine ⟨fun d' list' hList' => ?_, hCache ▸ free_nil inv.lists.cached⟩
      rw [hTree d'] at hList'
      split at hList'
      · simp at hList'
      · exact inv.lists.used d' list' hList'
    have hSched : ∀ y, q₁.Scheduled y ↔ q.Scheduled y ∧ y ≠ x :=
      scheduled_remove hList hNodup hPerm hTree
    by_cases hEq : first = x.deadline
    · refine ⟨{ q₁ with expires := q₁.firstDeadline.getD 0 }, ?_, ?_⟩
      · simp [unqueue, hList, hNil, hExpires, hEq, hPos.ne', q₁]
      · exact ⟨⟨hLists.used, hLists.cached⟩, hSched, rfl, rfl, rfl, rfl⟩
    · refine ⟨q₁, ?_, ⟨hLists, hSched, ?_, rfl, rfl, rfl⟩⟩
      · simp [unqueue, hList, hNil, hExpires, hEq, hFirstPos.ne', q₁]
      · have hKept : q₁.firstDeadline = some first := firstDeadline_erase_of_ne rfl hFirst hEq
        rw [hKept]
        exact hExpires
  · let q₁ : Queue W := { q with
      tree := q.tree.insert x.deadline (swapRemove list x.entry) }
    have hTree : ∀ d', q₁.tree[d']? = if x.deadline = d' then
        (if swapRemove list x.entry = [] then none else some (swapRemove list x.entry))
        else q.tree[d']? := by
      intro d'
      simp only [q₁, getElem?_insert, hNil, if_false]
    refine ⟨q₁, ?_, ⟨⟨fun d' list' hList' => ?_, inv.lists.cached⟩,
      scheduled_remove hList hNodup hPerm hTree, ?_, rfl, rfl, rfl⟩⟩
    · simp [unqueue, hList, hNil, q₁]
    · rw [hTree d'] at hList'
      split at hList'
      · next hEq =>
          subst hEq
          simp only [Option.some.injEq] at hList'
          subst hList'
          exact ⟨hNil, (List.nodup_cons.mp (hPerm.nodup_iff.mpr hNodup)).2, hPos⟩
      · exact inv.lists.used d' list' hList'
    · have hKept : q₁.firstDeadline = q.firstDeadline := firstDeadline_replace rfl hIn
      rw [hKept]
      exact inv.expires

/-- The flag of a live delay's entry says whether the delay is scheduled. -/
theorem queued_iff {live : List Delay} {x : Delay} (owned : Owned q live)
    (flagged : Flagged q live) (hLive : x ∈ live) :
    (q.raw x.entry).queued = true ↔ q.Scheduled x := by
  constructor
  · intro hQueued
    obtain ⟨y, hy, hEntry, hSched⟩ := flagged.queued _ hQueued
    exact owned.entry_inj hy hLive hEntry ▸ hSched
  · exact fun hSched => (flagged.listed x hSched).2

/-- What a call of `complete` has done. -/
structure Completing (q q' : Queue W) (x : Delay) : Prop where
  scheduled : ∀ y, q'.Scheduled y ↔ q.Scheduled y ∧ y ≠ x
  unchanged : ¬q.Scheduled x → q'.tree = q.tree ∧ q'.expires = q.expires
  raw : ∀ e, (q'.raw e).waker = (q.raw e).waker
  cached : q'.entryCache = q.entryCache.free x.entry
  fresh : q'.fresh = q.fresh

/-- Freeing the entry of a completed delay moves it to the cache or drops it. -/
theorem owned_free {live : List Delay} {x : Delay} (owned : Owned q live) (hLive : x ∈ live)
    (hCached : q'.entryCache = q.entryCache.free x.entry) (hFresh : q'.fresh = q.fresh) :
    Owned q' (live.erase x) := by
  have hPerm : (live.map Delay.entry).Perm (x.entry :: (live.erase x).map Delay.entry) :=
    (List.perm_cons_erase hLive).map Delay.entry
  have hAll : (live.map Delay.entry ++ q.entryCache.cached).Perm
      ((live.erase x).map Delay.entry ++ (q.entryCache.cached ++ [x.entry])) := by
    refine (hPerm.append_right _).trans ?_
    rw [← List.append_assoc]
    exact (List.perm_append_singleton _ _).symm
  have hSub : ((live.erase x).map Delay.entry ++ q'.entryCache.cached).Sublist
      ((live.erase x).map Delay.entry ++ (q.entryCache.cached ++ [x.entry])) := by
    refine List.Sublist.append_left ?_ _
    rw [hCached]
    unfold Cache.free
    split
    · exact List.Sublist.refl _
    · exact List.sublist_append_left _ _
  exact ⟨(hAll.nodup_iff.mp owned.nodup).sublist hSub, fun e he => by
    rw [hFresh]
    exact owned.bound e (hAll.mem_iff.mpr (hSub.subset he))⟩

/-- `complete` never fails on a live delay. -/
theorem complete_spec {live : List Delay} {x : Delay} (inv : Sound q live) (hLive : x ∈ live) :
    ∃ q', q.complete x = some q' ∧ Sound q' (live.erase x) ∧ Completing q q' x := by
  have hQueued := queued_iff inv.owned inv.flagged hLive
  obtain ⟨middle, hMiddle, hDone⟩ : ∃ middle, (if (q.raw x.entry).queued then q.unqueue x
      else some q) = some middle ∧ Unqueued q middle x := by
    by_cases hSched : q.Scheduled x
    · simpa [hQueued.mpr hSched] using unqueue_spec inv hSched
    · refine ⟨q, by simp [Bool.eq_false_iff.mpr (hSched ∘ hQueued.mp)], inv.lists,
        fun y => ⟨fun hy => ⟨hy, ?_⟩, And.left⟩, inv.expires, rfl, rfl, rfl⟩
      rintro rfl
      exact hSched hy
  let q' : Queue W := { middle with
    raw := setQueued middle.raw x.entry false
    entryCache := middle.entryCache.free x.entry }
  have hCached : q'.entryCache = q.entryCache.free x.entry := by
    change middle.entryCache.free x.entry = _
    rw [hDone.entryCache]
  have hRaw : ∀ e, e ≠ x.entry → q'.raw e = q.raw e := by
    intro e hNe
    change setQueued middle.raw x.entry false e = _
    simp [setQueued, hNe, hDone.raw]
  have hClear : (q'.raw x.entry).queued = false := by
    change (setQueued middle.raw x.entry false x.entry).queued = false
    simp [setQueued]
  have hScheduled : ∀ y, q'.Scheduled y ↔ q.Scheduled y ∧ y ≠ x := hDone.scheduled
  have hOther : ∀ y, q.Scheduled y → y ≠ x → y.entry ≠ x.entry := fun y hy hNe hEq =>
    hNe (inv.owned.entry_inj (inv.flagged.listed y hy).1 hLive hEq)
  refine ⟨q', by simp [complete, hMiddle, q'], ⟨⟨hDone.lists.used, hDone.lists.cached⟩,
    owned_free inv.owned hLive hCached hDone.fresh, ⟨fun y hy => ?_, fun e hFlag => ?_⟩,
    hDone.expires⟩, hScheduled, fun hNot => ?_, fun e => ?_, hCached, hDone.fresh⟩
  · obtain ⟨hy, hNe⟩ := (hScheduled y).mp hy
    obtain ⟨hIn, hFlag⟩ := inv.flagged.listed y hy
    exact ⟨(List.mem_erase_of_ne hNe).mpr hIn, by rw [hRaw _ (hOther y hy hNe)]; exact hFlag⟩
  · have hNe : e ≠ x.entry := fun hEq => by simp [hEq, hClear] at hFlag
    rw [hRaw e hNe] at hFlag
    obtain ⟨y, hIn, rfl, hy⟩ := inv.flagged.queued e hFlag
    have hNe' : y ≠ x := fun hEq => hNe (congrArg Delay.entry hEq)
    exact ⟨y, (List.mem_erase_of_ne hNe').mpr hIn, rfl, (hScheduled y).mpr ⟨hy, hNe'⟩⟩
  · have hSame : middle = q := by
      simpa [Bool.eq_false_iff.mpr (hNot ∘ hQueued.mp)] using hMiddle.symm
    change middle.tree = q.tree ∧ middle.expires = q.expires
    rw [hSame]
    exact ⟨rfl, rfl⟩
  · by_cases hEq : e = x.entry
    · subst hEq
      change (setQueued middle.raw x.entry false x.entry).waker = _
      simp [setQueued, hDone.raw]
    · rw [hRaw e hEq]

end Yaar.Time.Queue
