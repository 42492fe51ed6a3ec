import Yaar.Time.SleepExpiry

/-! The entries of a timer queue from one delay to the next, with every call of the
queue and every entry of an `Expired` list processed in one step. -/
namespace Yaar.Time.Entries

open Machine Queue

/-- The queue, the delays handed out and not yet completed, and the `Expired` list of
each thread that polls the queue. -/
structure State (P W : Type*) where
  queue : Queue W
  live : List Delay
  expired : P → EntryList

inductive Event (P W : Type*) where
  | schedule (delay : Except Instant Duration) (now : Instant)
  /-- the owner of a delay polls its waker -/
  | access (d : Delay) (waker : AtomicWaker W)
  | complete (d : Delay)
  | poll (p : P) (current : Deadline)
  /-- `Expired::process`, one entry -/
  | process (p : P)

variable {P W : Type*} [DecidableEq P]

/-- A call of the queue that panics has no successor. -/
def next (s : State P W) : Event P W → Option (State P W)
  | .schedule delay now =>
      match s.queue.schedule delay now with
      | (queue, none) => some { s with queue := queue }
      | (queue, some d) => some { s with queue := queue, live := d :: s.live }
  | .access d waker =>
      if d ∈ s.live then some { s with queue := s.queue.setWaker d.entry waker } else none
  | .complete d =>
      if d ∈ s.live then
        (s.queue.complete d).map fun queue => { s with queue := queue, live := s.live.erase d }
      else none
  | .poll p current =>
      (s.queue.poll current (s.expired p)).map fun r =>
        { s with queue := r.1, expired := Function.update s.expired p r.2 }
  | .process p =>
      match s.expired p with
      | [] => none
      | e :: rest =>
          some { s with
            queue := s.queue.setWaker e (s.queue.raw e).waker.wake.1
            expired := Function.update s.expired p rest }

def system (P W : Type*) [DecidableEq P] (started : Instant) : System (State P W) (Event P W) where
  initial := ⟨.new started, [], fun _ => []⟩
  next := next

/-- Nothing refers to an entry in the cache, and each live delay has an entry of its own. -/
structure Unshared (s : State P W) : Prop where
  live : ∀ e ∈ s.queue.entryCache.cached, ∀ d ∈ s.live, d.entry ≠ e
  tree : ∀ e ∈ s.queue.entryCache.cached, ∀ (deadline : Deadline) (list : EntryList),
    s.queue.tree[deadline]? = some list → e ∉ list
  expired : ∀ e ∈ s.queue.entryCache.cached, ∀ p, e ∉ s.expired p
  own : (s.live.map Delay.entry).Nodup

/-- A poll of `p` collects the entry of a live delay. -/
def Collects (d : Delay) (p : P) (x : State P W × Event P W) : Prop :=
  d ∈ x.1.live ∧ ∃ current, x.2 = .poll p current ∧ ∃ queue moved,
    x.1.queue.poll current (x.1.expired p) = some (queue, x.1.expired p ++ moved) ∧ d.entry ∈ moved

/-- `p` processes an entry. -/
def Wakes (e : Entry) (p : P) (x : State P W × Event P W) : Prop :=
  x.2 = .process p ∧ (x.1.expired p).head? = some e

/-- A completed delay whose entry goes to the cache is in no `Expired` list. -/
def Unexpired (s : State P W) : Event P W → Prop
  | .complete d => s.queue.entryCache.cached.length < Cache.MAX_CACHED →
      ∀ p, d.entry ∉ s.expired p
  | _ => True

/-! ## Entries without an owner -/

omit [DecidableEq P] in
theorem pollLoop_entryCache {fuel : Nat} {q q' : Queue W} {expired expired' : EntryList}
    (h : pollLoop fuel q expired = some (q', expired')) : q'.entryCache = q.entryCache := by
  induction fuel generalizing q expired with
  | zero => simp [pollLoop] at h
  | succ fuel ih =>
      simp only [pollLoop] at h
      split at h
      · obtain ⟨rfl, -⟩ : _ ∧ _ := by simpa using h
        rfl
      · split at h
        · obtain ⟨rfl, -⟩ : _ ∧ _ := by simpa using h
          rfl
        · split at h
          · simp at h
          · split at h
            · simp at h
            · have hRest := ih h
              exact hRest

omit [DecidableEq P] in
theorem poll_entryCache {q q' : Queue W} {current : Deadline} {expired expired' : EntryList}
    (h : q.poll current expired = some (q', expired')) : q'.entryCache = q.entryCache := by
  have hLoop := pollLoop_entryCache h
  exact hLoop

omit [DecidableEq P] in
/-- `schedule` takes entries out of the cache only. -/
theorem schedule_entryCache {q q' : Queue W} {delay : Except Instant Duration} {now : Instant}
    {result : Option Delay} (h : q.schedule delay now = (q', result)) :
    ∀ e ∈ q'.entryCache.cached, e ∈ q.entryCache.cached := by
  have hPush : ∀ (q : Queue W) d e, (q.pushEntry d e).entryCache = q.entryCache := by
    intro q d e
    unfold pushEntry
    cases q.tree[d]? <;> rfl
  have hAlloc : ∀ (q : Queue W), ∀ e ∈ q.allocEntry.2.entryCache.cached,
      e ∈ q.entryCache.cached := by
    intro q e he
    unfold allocEntry Cache.alloc at he
    split at he
    · next hCached =>
        obtain ⟨-, rfl⟩ := Prod.mk.inj hCached
        exact List.mem_of_mem_dropLast he
    · next hCached =>
        obtain ⟨-, rfl⟩ := Prod.mk.inj hCached
        exact List.mem_of_mem_dropLast he
  intro e he
  unfold schedule at h
  split at h
  · obtain ⟨rfl, -⟩ := Prod.mk.inj h
    exact he
  · dsimp only at h
    split at h
    · obtain ⟨rfl, -⟩ := Prod.mk.inj h
      exact he
    · obtain ⟨rfl, -⟩ := Prod.mk.inj h
      simp only [hPush] at he
      have hBefore := hAlloc _ e he
      exact hBefore

/-- What every run keeps of the queue. -/
structure Inv (s : State P W) : Prop where
  sound : Sound s.queue s.live
  bound : ∀ p, ∀ e ∈ s.expired p, e < s.queue.fresh

/-- The delays that a poll has expired, and what it leaves as it is. -/
theorem poll_live {s s' : State P W} {p : P} {current : Deadline} (inv : Inv s)
    (h : next s (.poll p current) = some s') :
    ∃ moved, s.queue.poll current (s.expired p) = some (s'.queue, s.expired p ++ moved) ∧
      (∀ e ∈ moved, ∃ d ∈ s.live, d.entry = e) ∧ s'.live = s.live ∧
      s'.expired = Function.update s.expired p (s.expired p ++ moved) ∧
      s'.queue.entryCache = s.queue.entryCache ∧ Sound s'.queue s'.live ∧
      s'.queue.fresh = s.queue.fresh := by
  obtain ⟨queue, due, hPoll, hSound, done⟩ := poll_spec inv.sound current (s.expired p)
  simp only [next, hPoll, Option.map_some, Option.some.injEq] at h
  subst h
  refine ⟨_, hPoll, fun e he => ?_, rfl, rfl, poll_entryCache hPoll, hSound, done.fresh⟩
  obtain ⟨d, hd, rfl⟩ := List.mem_map.mp he
  exact ⟨d, (inv.sound.flagged.listed d ((done.due d).mp hd).1).1, rfl⟩

/-- Every event keeps the queue sound and the lists to entries that were made. -/
theorem inv_next {s s' : State P W} {e : Event P W} (inv : Inv s) (h : next s e = some s') :
    Inv s' := by
  cases e with
  | schedule delay now =>
      rcases hCall : s.queue.schedule delay now with ⟨queue, result⟩
      cases result with
      | none =>
          simp only [next, hCall, Option.some.injEq] at h
          subst h
          refine ⟨schedule_none_sound inv.sound hCall, ?_⟩
          rcases Queue.schedule_none hCall with rfl | rfl <;> exact inv.bound
      | some d =>
          simp only [next, hCall, Option.some.injEq] at h
          subst h
          refine ⟨schedule_sound inv.sound hCall, fun p e he => (inv.bound p e he).trans_le ?_⟩
          cases schedule_allocated hCall with
          | recycled _ _ fresh => exact fresh.ge
          | fresh _ _ fresh => exact fresh ▸ Nat.le_succ _
  | access d waker =>
      simp only [next] at h
      split at h
      · obtain rfl := Option.some.inj h
        exact ⟨Sleep.sound_setWaker inv.sound _ _, inv.bound⟩
      · simp at h
  | complete d =>
      simp only [next] at h
      split at h
      · next hLive =>
          obtain ⟨queue, hComplete, hSound, done⟩ := complete_spec inv.sound hLive
          simp only [hComplete, Option.map_some, Option.some.injEq] at h
          subst h
          exact ⟨hSound, fun p e he => by rw [done.fresh]; exact inv.bound p e he⟩
      · simp at h
  | poll p current =>
      obtain ⟨moved, _, hMoved, hLive, hExpired, _, hSound, hFresh⟩ := poll_live inv h
      refine ⟨hSound, fun p' e he => ?_⟩
      rw [hFresh]
      rw [hExpired] at he
      by_cases hp : p' = p
      · subst hp
        simp only [Function.update_self, List.mem_append] at he
        rcases he with he | he
        · exact inv.bound p' e he
        · obtain ⟨d, hd, rfl⟩ := hMoved e he
          exact inv.sound.owned.bound _ (List.mem_append_left _ (List.mem_map_of_mem hd))
      · simp only [ne_eq, hp, not_false_eq_true, Function.update_of_ne] at he
        exact inv.bound p' e he
  | process p =>
      simp only [next] at h
      split at h
      · simp at h
      · next e rest hList =>
          obtain rfl := Option.some.inj h
          refine ⟨Sleep.sound_setWaker inv.sound _ _, fun p' e' he' => ?_⟩
          by_cases hp : p' = p
          · subst hp
            simp only [Function.update_self] at he'
            exact inv.bound p' e' (hList ▸ List.mem_cons_of_mem e he')
          · simp only [ne_eq, hp, not_false_eq_true, Function.update_of_ne] at he'
            exact inv.bound p' e' he'

/-- So it is in every reachable state. -/
theorem inv_reachable {started : Instant} {s : State P W} (h : (system P W started).Reachable s) :
    Inv s := by
  refine h.keeps ⟨sound_new started, fun p e he => ?_⟩ fun _ _ _ inv hNext => inv_next inv hNext
  simp [system] at he

/-- No `Expired` list has an entry that the cache would hand out. -/
def Apart (s : State P W) : Prop :=
  ∀ e ∈ s.queue.entryCache.cached, ∀ p, e ∉ s.expired p

omit [DecidableEq P] in
/-- A sound queue without cached entries in the lists shares no entry. -/
theorem Inv.unshared {s : State P W} (inv : Inv s) (apart : Apart s) : Unshared s := by
  have hOwned := List.nodup_append.mp inv.sound.owned.nodup
  have hLive : ∀ e ∈ s.queue.entryCache.cached, ∀ d ∈ s.live, d.entry ≠ e := fun e he d hd hEq =>
    hOwned.2.2 e (hEq ▸ List.mem_map_of_mem hd) e he rfl
  refine ⟨hLive, fun e he deadline list hList hMem => ?_, apart, hOwned.1⟩
  have hListed := inv.sound.flagged.listed ⟨deadline, e⟩ ⟨list, hList, hMem⟩
  exact hLive e he _ hListed.1 rfl

/-- An entry freed into the cache was there before, or it is that of the completed delay. -/
theorem free_cached {c : Cache Entry} {e e' : Entry} (h : e' ∈ (c.free e).cached) :
    e' ∈ c.cached ∨ e' = e ∧ c.cached.length < Cache.MAX_CACHED := by
  unfold Cache.free at h
  split at h
  · next hRoom =>
      simp only [List.mem_append, List.mem_singleton] at h
      exact h.imp id fun hEq => ⟨hEq, hRoom⟩
  · exact Or.inl h

/-- A step that meets the condition caches no entry of a list. A poll takes its entries
from live delays. -/
theorem apart_next {s s' : State P W} {e : Event P W} (inv : Inv s) (apart : Apart s)
    (unexpired : Unexpired s e) (h : next s e = some s') : Apart s' := by
  intro e' he' p' hp'
  cases e with
  | schedule delay now =>
      rcases hCall : s.queue.schedule delay now with ⟨queue, result⟩
      have hCached := schedule_entryCache hCall
      cases result with
      | none =>
          simp only [next, hCall, Option.some.injEq] at h
          subst h
          exact apart e' (hCached e' he') p' hp'
      | some d =>
          simp only [next, hCall, Option.some.injEq] at h
          subst h
          exact apart e' (hCached e' he') p' hp'
  | access d waker =>
      simp only [next] at h
      split at h
      · obtain rfl := Option.some.inj h
        exact apart e' he' p' hp'
      · simp at h
  | complete d =>
      simp only [next] at h
      split at h
      · next hLive =>
          obtain ⟨queue, hComplete, -, done⟩ := complete_spec inv.sound hLive
          simp only [hComplete, Option.map_some, Option.some.injEq] at h
          subst h
          rw [done.cached] at he'
          rcases free_cached he' with hBefore | ⟨rfl, hRoom⟩
          · exact apart e' hBefore p' hp'
          · exact unexpired hRoom p' hp'
      · simp at h
  | poll p current =>
      obtain ⟨moved, _, hMoved, hLive, hExpired, hCached, hSound, _⟩ := poll_live inv h
      rw [hCached] at he'
      rw [hExpired] at hp'
      by_cases hEq : p' = p
      · subst hEq
        simp only [Function.update_self, List.mem_append] at hp'
        rcases hp' with hp' | hp'
        · exact apart e' he' p' hp'
        · obtain ⟨d, hd, rfl⟩ := hMoved e' hp'
          exact (inv.unshared apart).live _ he' d hd rfl
      · simp only [ne_eq, hEq, not_false_eq_true, Function.update_of_ne] at hp'
        exact apart e' he' p' hp'
  | process p =>
      simp only [next] at h
      split at h
      · simp at h
      · next e rest hList =>
          obtain rfl := Option.some.inj h
          by_cases hEq : p' = p
          · subst hEq
            simp only [Function.update_self] at hp'
            exact apart e' he' p' (hList ▸ List.mem_cons_of_mem e hp')
          · simp only [ne_eq, hEq, not_false_eq_true, Function.update_of_ne] at hp'
            exact apart e' he' p' hp'

/-- Hence no list has a cached entry after a run that meets the condition. -/
theorem apart_run {started : Instant} {steps : List (State P W × Event P W)} {s : State P W}
    (run : (system P W started).Run steps s) (unexpired : Meets Unexpired steps) : Apart s := by
  refine run.keeps Unexpired Inv unexpired (fun _ _ run _ => inv_reachable ⟨_, run⟩) ?_
    fun u e v inv apart hGuard hNext => apart_next inv apart hGuard hNext
  intro e he
  simp [system, Queue.new] at he

/-! ## From its collection to its wake -/

/-- The entry is still that of the delay, or nobody's for good. -/
def Kept (d : Delay) (p : P) (s : State P W) : Prop :=
  d ∈ s.live ∧ d.entry ∈ s.expired p

def Gone (e : Entry) (s : State P W) : Prop :=
  e < s.queue.fresh ∧ e ∉ s.queue.entryCache.cached ∧ ∀ d ∈ s.live, d.entry ≠ e

/-- An entry that is neither live nor cached does not come back. -/
theorem gone_next {s s' : State P W} {e : Event P W} {entry : Entry} (inv : Inv s)
    (gone : Gone entry s) (h : next s e = some s') : Gone entry s' := by
  obtain ⟨hUsed, hCached, hLive⟩ := gone
  cases e with
  | schedule delay now =>
      rcases hCall : s.queue.schedule delay now with ⟨queue, result⟩
      have hCache := schedule_entryCache hCall
      cases result with
      | none =>
          simp only [next, hCall, Option.some.injEq] at h
          subst h
          refine ⟨?_, fun hMem => hCached (hCache _ hMem), hLive⟩
          rcases Queue.schedule_none hCall with rfl | rfl <;> exact hUsed
      | some d =>
          simp only [next, hCall, Option.some.injEq] at h
          subst h
          have hAlloc : d.entry ≠ entry ∧ s.queue.fresh ≤ queue.fresh := by
            cases schedule_allocated hCall with
            | recycled cached _ fresh =>
                exact ⟨fun hEq => hCached (hEq ▸ List.mem_of_getLast? cached), fresh.ge⟩
            | fresh hEntry _ fresh =>
                exact ⟨fun hEq => absurd (hEntry ▸ hEq ▸ hUsed) (lt_irrefl _),
                  fresh ▸ Nat.le_succ _⟩
          refine ⟨hUsed.trans_le hAlloc.2, fun hMem => hCached (hCache _ hMem), fun d' hd' => ?_⟩
          rcases List.mem_cons.mp hd' with rfl | hd'
          · exact hAlloc.1
          · exact hLive d' hd'
  | access d waker =>
      simp only [next] at h
      split at h
      · obtain rfl := Option.some.inj h
        exact ⟨hUsed, hCached, hLive⟩
      · simp at h
  | complete d =>
      simp only [next] at h
      split at h
      · next hMem =>
          obtain ⟨queue, hComplete, -, done⟩ := complete_spec inv.sound hMem
          simp only [hComplete, Option.map_some, Option.some.injEq] at h
          subst h
          refine ⟨done.fresh ▸ hUsed, fun hIn => ?_, fun d' hd' =>
            hLive d' (List.mem_of_mem_erase hd')⟩
          rw [done.cached] at hIn
          exact (free_cached hIn).elim hCached fun hEq => hLive d hMem hEq.1.symm
      · simp at h
  | poll p current =>
      obtain ⟨moved, _, hMoved, hSame, hExpired, hCache, _, hFresh⟩ := poll_live inv h
      exact ⟨hFresh ▸ hUsed, hCache ▸ hCached, hSame ▸ hLive⟩
  | process p =>
      simp only [next] at h
      split at h
      · simp at h
      · obtain rfl := Option.some.inj h
        exact ⟨hUsed, hCached, hLive⟩

/-- Until `p` has processed the entry nothing takes it from its delay but a `complete`
that finds the cache full. -/
theorem kept_next {s s' : State P W} {e : Event P W} {d : Delay} {p : P} (inv : Inv s)
    (apart : Apart s) (kept : Kept d p s) (hWakes : ¬Wakes d.entry p (s, e))
    (unexpired : Unexpired s e) (h : next s e = some s') : Kept d p s' ∨ Gone d.entry s' := by
  obtain ⟨hLive, hIn⟩ := kept
  cases e with
  | schedule delay now =>
      rcases hCall : s.queue.schedule delay now with ⟨queue, result⟩
      cases result with
      | none =>
          simp only [next, hCall, Option.some.injEq] at h
          subst h
          exact Or.inl ⟨hLive, hIn⟩
      | some d' =>
          simp only [next, hCall, Option.some.injEq] at h
          subst h
          exact Or.inl ⟨List.mem_cons_of_mem _ hLive, hIn⟩
  | access d' waker =>
      simp only [next] at h
      split at h
      · obtain rfl := Option.some.inj h
        exact Or.inl ⟨hLive, hIn⟩
      · simp at h
  | complete d' =>
      simp only [next] at h
      split at h
      · next hMem =>
          obtain ⟨queue, hComplete, hSound, done⟩ := complete_spec inv.sound hMem
          simp only [hComplete, Option.map_some, Option.some.injEq] at h
          subst h
          by_cases hd : d' = d
          · subst hd
            refine Or.inr ⟨done.fresh ▸ inv.bound p _ hIn, fun hCached => ?_, fun d'' hd'' hEq => ?_⟩
            · rw [done.cached] at hCached
              rcases free_cached hCached with hBefore | ⟨_, hRoom⟩
              · exact apart _ hBefore p hIn
              · exact unexpired hRoom p hIn
            · obtain rfl := inv.sound.owned.entry_inj (List.mem_of_mem_erase hd'') hMem hEq
              have hNodup : s.live.Nodup :=
                (List.nodup_append.mp inv.sound.owned.nodup).1.of_map _
              exact hNodup.not_mem_erase hd''
          · exact Or.inl ⟨(List.mem_erase_of_ne (Ne.symm hd)).mpr hLive, hIn⟩
      · simp at h
  | poll p' current =>
      obtain ⟨moved, _, hMoved, hSame, hExpired, _, _, _⟩ := poll_live inv h
      refine Or.inl ⟨hSame ▸ hLive, ?_⟩
      rw [hExpired]
      by_cases hp : p = p'
      · subst hp
        simp [hIn]
      · simpa [hp] using hIn
  | process p' =>
      simp only [next] at h
      split at h
      · simp at h
      · next e rest hList =>
          obtain rfl := Option.some.inj h
          refine Or.inl ⟨hLive, ?_⟩
          by_cases hp : p = p'
          · subst hp
            rw [hList, List.mem_cons] at hIn
            have hNe : d.entry ≠ e := by
              rintro rfl
              exact hWakes ⟨rfl, by rw [hList]; rfl⟩
            simpa using hIn.resolve_left hNe
          · simpa [hp] using hIn

/-- Up to the wake for which it was collected an entry stays with its delay, or it is
nobody's for good. -/
theorem kept_path {started : Instant} {steps : List (State P W × Event P W)} {s s' : State P W}
    {d : Delay} {p : P} (path : (system P W started).Path s steps s')
    (known : ∀ first u, (system P W started).Path s first u → Meets Unexpired first →
      Inv u ∧ Apart u)
    (unexpired : Meets Unexpired steps) (hWakes : ∀ x ∈ steps, ¬Wakes d.entry p x)
    (kept : Kept d p s) :
    Kept d p s' ∧ (∀ x ∈ steps, d ∈ x.1.live) ∨ Gone d.entry s' := by
  induction path with
  | refl => exact Or.inl ⟨kept, by simp⟩
  | @step steps u v e prior last ih =>
      rw [meets_append, meets_singleton] at unexpired
      obtain ⟨inv, apart⟩ := known _ _ prior unexpired.1
      rcases ih unexpired.1 fun x hx => hWakes x (by simp [hx]) with ⟨hKept, hLive⟩ | hGone
      · refine (kept_next inv apart hKept (hWakes (u, e) (by simp)) unexpired.2 last).imp
          (fun hNow => ⟨hNow, fun x hx => ?_⟩) id
        rcases List.mem_append.mp hx with hx | hx
        · exact hLive x hx
        · rw [List.mem_singleton.mp hx]
          exact hKept.1
      · exact Or.inr (gone_next inv hGone last)

/-- A poll that collects the entry of a delay puts it into the list. -/
theorem kept_of_collects {s s' : State P W} {e : Event P W} {d : Delay} {p : P}
    (hCollects : Collects d p (s, e)) (h : next s e = some s') : Kept d p s' := by
  obtain ⟨hLive, current, rfl, queue, moved, hPoll, hMoved⟩ := hCollects
  change s.queue.poll current (s.expired p) = _ at hPoll
  simp only [next, hPoll, Option.map_some, Option.some.injEq] at h
  subst h
  exact ⟨hLive, by simp [hMoved]⟩

/-- An entry has one life at a time. -/
structure Lives (steps : List (State P W × Event P W)) (s : State P W) : Prop where
  unshared : Unshared s
  /-- Whom the processing of an entry wakes is the delay it was collected for, which has
  been live ever since. -/
  woken : ∀ before between after collect wake d p,
    steps = before ++ collect :: (between ++ wake :: after) → Collects d p collect →
      (∀ x ∈ between, ¬Wakes d.entry p x) → Wakes d.entry p wake →
        ∀ d' ∈ wake.1.live, d'.entry = d.entry → d' = d ∧ ∀ x ∈ between, d ∈ x.1.live

/-- When no entry goes to the cache while an `Expired` list still has it, no entry is
shared between two delays in any run. -/
theorem lives_of_unexpired {started : Instant} {steps : List (State P W × Event P W)}
    {s : State P W} (run : (system P W started).Run steps s) (unexpired : Meets Unexpired steps) :
    Lives steps s := by
  refine ⟨(inv_reachable ⟨_, run⟩).unshared (apart_run run unexpired), ?_⟩
  rintro before between after ⟨u, e⟩ wake d p rfl hCollects hBetween hWake d' hd' hEq
  obtain ⟨s₁, hBefore, hCollect, hAfter⟩ := System.Path.split run
  obtain ⟨s₂, hPath, -, -⟩ := hAfter.split
  rw [meets_append] at unexpired
  obtain ⟨hFirst, hRest⟩ := unexpired
  have hMiddle : Meets Unexpired between := fun x hx => hRest x (by simp [hx])
  have hCollectMeets : Meets Unexpired (before ++ [(u, e)]) :=
    meets_append.mpr ⟨hFirst, meets_singleton.mpr (hRest (u, e) (by simp))⟩
  have run₁ : (system P W started).Run (before ++ [(u, e)]) s₁ := hBefore.step hCollect
  have known : ∀ first v, (system P W started).Path s₁ first v → Meets Unexpired first →
      Inv v ∧ Apart v := fun first v path hMeets =>
    have runV : (system P W started).Run _ v := run₁.trans path
    ⟨inv_reachable ⟨_, runV⟩, apart_run runV (meets_append.mpr ⟨hCollectMeets, hMeets⟩)⟩
  rcases kept_path hPath known hMiddle hBetween (kept_of_collects hCollects hCollect) with
    ⟨hKept, hLive⟩ | hGone
  · exact ⟨(known _ _ hPath hMiddle).1.sound.owned.entry_inj hd' hKept.1 hEq, hLive⟩
  · exact (hGone.2.2 d' hd' hEq).elim

instance (s : State Unit W) (e : Event Unit W) : Decidable (Unexpired s e) := by
  unfold Unexpired
  split <;> infer_instance

/-- A delay of one millisecond that expires and is completed. -/
def oneDelay : List (Event Unit Unit) :=
  [.schedule (.ok 1000000) 0, .poll () 1, .process (), .complete ⟨1, 0⟩]

/-- The delay of one millisecond is completed after its entry has been processed, so the
entry may be cached. -/
theorem lives_of_unexpired_oneDelay : ∃ steps s, (system Unit Unit 0).Run steps s ∧
    s.queue.entryCache.cached = [0] ∧ Lives steps s := by
  obtain ⟨s, run, hs⟩ := (system Unit Unit 0).exists_run_of_replay oneDelay
    (fun s => s.queue.entryCache.cached) [0] (by decide)
  have hUnexpired : ∀ x ∈ (system Unit Unit 0).trace (system Unit Unit 0).initial oneDelay,
      Unexpired x.1 x.2 := by
    decide
  exact ⟨_, s, run, hs, lives_of_unexpired run hUnexpired⟩

/-- A delay that is completed between its collection and the processing leaves its entry
in the cache and in the list. -/
theorem completedEarly_shares : ¬∀ steps s, (system Unit Unit 0).Run steps s → Lives steps s := by
  intro h
  obtain ⟨s, run, hs⟩ := (system Unit Unit 0).exists_run_of_replay
    [.schedule (.ok 1000000) 0, .poll () 1, .complete ⟨1, 0⟩]
    (fun s => (s.queue.entryCache.cached, s.expired ())) ([0], [0]) (by decide)
  simp only [Prod.mk.injEq] at hs
  exact (h _ s run).unshared.expired 0 (by simp [hs.1]) () (by simp [hs.2])

/-! ## The entries of the sleeps -/

def ofSleeps (s : Sleep.World W) : State Sleep.PollerId W := ⟨s.queue, s.live, s.expired⟩

/-- What a sleep does with its waker is an access by the owner of the delay. -/
theorem ofSleeps_waker [DecidableEq W] {s : Sleep.World W} {id : Sleep.SleepId} {d : Delay} {ctx : W}
    (owns : Sleep.Owns s) (hHeld : (s.sleeps id).delay? = some d) :
    ∃ e, next (ofSleeps s) e = some (ofSleeps (s.pollWaker id d ctx)) := by
  obtain ⟨waker, r, hPoll, -⟩ := AtomicWaker.poll_calm (owns.calm d.entry) (some ctx)
  refine ⟨.access d waker, ?_⟩
  have hLive : d ∈ (ofSleeps s).live := owns.held id d hHeld
  simp only [next, hLive, if_true, Sleep.World.pollWaker, hPoll]
  cases r <;> rfl

/-- And its end is a call of `complete`, on a delay that is live. -/
theorem ofSleeps_complete {s : Sleep.World W} {id : Sleep.SleepId} {d : Delay}
    (state : Sleep.State) (owns : Sleep.Owns s) (hHeld : (s.sleeps id).delay? = some d) :
    ∃ e, next (ofSleeps s) e = some (ofSleeps (s.complete id d state)) := by
  have hLive : d ∈ (ofSleeps s).live := owns.held id d hHeld
  obtain ⟨queue, hComplete, -⟩ := complete_spec owns.sound hLive
  refine ⟨.complete d, ?_⟩
  simp only [next, hLive, if_true, show (ofSleeps s).queue.complete d = _ from hComplete,
    Option.map_some, Sleep.World.complete, hComplete]
  rfl

/-- What sleeps do to their queue the machine of its entries does. -/
theorem ofSleeps_next [DecidableEq W] {s s' : Sleep.World W} {e : Sleep.Event W}
    (owns : Sleep.Owns s) (h : s.next e = some s') :
    ofSleeps s' = ofSleeps s ∨ ∃ e', next (ofSleeps s) e' = some (ofSleeps s') := by
  cases e with
  | new id delay =>
      simp only [Sleep.World.next] at h
      split at h
      · obtain rfl := Option.some.inj h
        exact Or.inl rfl
      · simp at h
  | schedule id now =>
      cases hState : s.sleeps id with
      | start delay =>
          rcases hCall : s.queue.schedule delay now with ⟨queue, result⟩
          have hHere : (ofSleeps s).queue.schedule delay now = (queue, result) := hCall
          refine Or.inr ⟨.schedule delay now, ?_⟩
          cases result with
          | none | some d =>
              simp only [Sleep.World.next, hState, hCall, Option.some.injEq] at h
              subst h
              simp only [next, hHere]
              rfl
      | _ => simp [Sleep.World.next, hState] at h
  | waker id ctx =>
      cases hState : s.sleeps id with
      | scheduled d | polling d =>
          simp only [Sleep.World.next, hState, Option.some.injEq] at h
          subst h
          exact Or.inr (ofSleeps_waker owns (by rw [hState]; rfl))
      | _ => simp [Sleep.World.next, hState] at h
  | complete id =>
      cases hState : s.sleeps id with
      | ready d =>
          simp only [Sleep.World.next, hState, Option.some.injEq] at h
          subst h
          exact Or.inr (ofSleeps_complete _ owns (by rw [hState]; rfl))
      | _ => simp [Sleep.World.next, hState] at h
  | polled id =>
      simp only [Sleep.World.next] at h
      split at h
      · obtain rfl := Option.some.inj h
        exact Or.inl rfl
      · simp at h
  | drop id =>
      cases hState : s.sleeps id with
      | start | polled =>
          simp only [Sleep.World.next, hState, Option.some.injEq] at h
          subst h
          exact Or.inl rfl
      | polling d =>
          simp only [Sleep.World.next, hState, Option.some.injEq] at h
          subst h
          exact Or.inr (ofSleeps_complete _ owns (by rw [hState]; rfl))
      | _ => simp [Sleep.World.next, hState] at h
  | poll p current =>
      obtain ⟨queue, due, hPoll, -⟩ := poll_spec owns.sound current (s.expired p)
      have hHere : (ofSleeps s).queue.poll current ((ofSleeps s).expired p) = _ := hPoll
      simp only [Sleep.World.next, hPoll, Option.some.injEq] at h
      subst h
      exact Or.inr ⟨.poll p current, by simp only [next, hHere, Option.map_some]; rfl⟩
  | process p =>
      cases hList : s.expired p with
      | nil => simp [Sleep.World.next, hList] at h
      | cons e rest =>
          have hHere : (ofSleeps s).expired p = e :: rest := hList
          simp only [Sleep.World.next, hList, Option.some.injEq] at h
          subst h
          exact Or.inr ⟨.process p, by simp only [next, hHere]; rfl⟩

/-- Every queue with its sleeps is one of the machine of its entries. -/
theorem ofSleeps_reachable [DecidableEq W] {started : Instant} {s : Sleep.World W}
    (h : (Sleep.system W started).Reachable s) :
    (system Sleep.PollerId W started).Reachable (ofSleeps s) := by
  obtain ⟨steps, run⟩ := h
  induction run with
  | refl => exact ⟨_, .refl⟩
  | step prior last ih =>
      rcases ofSleeps_next (Sleep.reachable_owns ⟨_, prior⟩) last with hSame | ⟨e, hNext⟩
      · rwa [hSame]
      · exact ih.next hNext

end Yaar.Time.Entries
