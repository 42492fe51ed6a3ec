import Mathlib
import Yaar.Sync.AtomicWakerCall

/-! `time/internal/queue.rs`. Every method holds the mutex around the state from
its first to its last access, so a call is one step on the whole queue. -/
namespace Yaar.Time

/-- Instants and durations count nanoseconds. -/
abbrev Instant := Nat
abbrev Duration := Nat

/-- Milliseconds since the start of a queue, a `u64`. -/
abbrev Deadline := Nat

def Deadline.MAX : Deadline := 2 ^ 64 - 1

/-- `Duration::as_millis`. -/
def asMillis (duration : Duration) : Nat := duration / 1000000

/-- An `Arc<RawEntry>`, known by its identity. -/
abbrev Entry := Nat

abbrev EntryList := List Entry

structure RawEntry (W : Type*) where
  waker : AtomicWaker W
  queued : Bool

/-- `RawEntry::default()`. -/
def RawEntry.new {W : Type*} : RawEntry W := ⟨.new, false⟩

structure Delay where
  deadline : Deadline
  entry : Entry
  deriving DecidableEq

/-- A bounded stack of values kept for reuse, the newest last. -/
structure Cache (α : Type*) where
  cached : List α

namespace Cache

def MAX_CACHED : Nat := 64

/-- Take the newest value, or `none` where the source makes a default one. -/
def alloc {α : Type*} (c : Cache α) : Option α × Cache α :=
  (c.cached.getLast?, ⟨c.cached.dropLast⟩)

def free {α : Type*} (c : Cache α) (value : α) : Cache α :=
  if c.cached.length < MAX_CACHED then ⟨c.cached ++ [value]⟩ else c

end Cache

/-- The queue with the state behind its mutex and the entries it refers to.
`fresh` is the identity the next allocated entry gets. -/
structure Queue (W : Type*) where
  expires : Deadline
  current : Deadline
  entryCache : Cache Entry
  listCache : Cache EntryList
  tree : Std.TreeMap Deadline EntryList
  started : Instant
  raw : Entry → RawEntry W
  fresh : Entry

namespace Queue

variable {W : Type*}

/-- `Queue::new(instant)`. -/
def new (instant : Instant) : Queue W where
  expires := 0
  current := 0
  entryCache := ⟨[]⟩
  listCache := ⟨[]⟩
  tree := ∅
  started := instant
  raw := fun _ => .new
  fresh := 0

def since (q : Queue W) (instant : Instant) : Deadline :=
  if q.started ≤ instant then
    let millis := asMillis (instant - q.started)
    if millis ≤ Deadline.MAX then millis else Deadline.MAX
  else 0

/-- The first key of the tree, as its iterator yields it. -/
def firstDeadline (q : Queue W) : Option Deadline := q.tree.keys.head?

def setQueued (raw : Entry → RawEntry W) (entry : Entry) (queued : Bool) : Entry → RawEntry W :=
  Function.update raw entry { raw entry with queued := queued }

/-- Drain a list, asserting that each of its entries is still queued. -/
def drain (raw : Entry → RawEntry W) : EntryList → Option (Entry → RawEntry W)
  | [] => some raw
  | entry :: list =>
      if (raw entry).queued then drain (setQueued raw entry false) list else none

/-- The loop of `poll`. It has no result when an unwrap or assertion fails; the
fuel is never used up. -/
def pollLoop : Nat → Queue W → EntryList → Option (Queue W × EntryList)
  | 0, _, _ => none
  | fuel + 1, q, expired =>
      match q.firstDeadline with
      | none => some ({ q with expires := 0 }, expired)
      | some deadline =>
          if deadline > q.current then some ({ q with expires := deadline }, expired)
          else
            match q.tree[deadline]? with
            | none => none
            | some list =>
                match drain q.raw list with
                | none => none
                | some raw =>
                    -- The list goes to the cache drained.
                    pollLoop fuel
                      { q with
                        tree := q.tree.erase deadline
                        raw := raw
                        listCache := q.listCache.free [] }
                      (expired ++ list)

/-- `poll(current, expired)`. -/
def poll (q : Queue W) (current : Deadline) (expired : EntryList) :
    Option (Queue W × EntryList) :=
  pollLoop (q.tree.size + 1) { q with current := max q.current current } expired

/-- The deadline `schedule` computes for its argument, with saturation. -/
def deadline (q : Queue W) : Except Instant Duration → Deadline
  | .ok duration =>
      let millis := if asMillis duration ≤ Deadline.MAX then some (asMillis duration) else none
      ((millis.map fun m => max m 1).bind fun m =>
        if m + q.current ≤ Deadline.MAX then some (m + q.current) else none).getD Deadline.MAX
  | .error instant => q.since instant

/-- `entry_cache.alloc()`, where a default entry is a newly allocated one. -/
def allocEntry (q : Queue W) : Entry × Queue W :=
  match q.entryCache.alloc with
  | (some entry, entryCache) => (entry, { q with entryCache := entryCache })
  | (none, entryCache) =>
      (q.fresh, { q with
        entryCache := entryCache
        raw := Function.update q.raw q.fresh .new
        fresh := q.fresh + 1 })

/-- Push an entry on the list of a deadline. The list allocated beforehand is
used when the deadline has none yet and freed otherwise. -/
def pushEntry (q : Queue W) (deadline : Deadline) (entry : Entry) : Queue W :=
  let (cached, listCache) := q.listCache.alloc
  let list := cached.getD []
  match q.tree[deadline]? with
  | some occupied =>
      { q with
        tree := q.tree.insert deadline (occupied ++ [entry])
        listCache := listCache.free list }
  | none => { q with tree := q.tree.insert deadline (list ++ [entry]), listCache := listCache }

/-- `schedule(delay)` at the time `now`. -/
def schedule (q : Queue W) (delay : Except Instant Duration) (now : Instant) :
    Queue W × Option Delay :=
  if delay = .ok 0 then (q, none)
  else
    let q := { q with current := q.since now }
    let deadline := q.deadline delay
    if deadline ≤ q.current then (q, none)
    else
      let expires := if q.expires = 0 ∨ deadline < q.expires then deadline else q.expires
      let (entry, q) := { q with expires := expires }.allocEntry
      let q := q.pushEntry deadline entry
      ({ q with raw := setQueued q.raw entry true }, some ⟨deadline, entry⟩)

/-- `swap_remove` at the first index that holds the entry, if there is one. -/
def swapRemove (list : EntryList) (entry : Entry) : EntryList :=
  match list.findIdx? (· = entry) with
  | none => list
  | some index =>
      match list.getLast? with
      | none => list
      | some last => (list.set index last).dropLast

/-- The part of `complete` that takes a still queued entry out of its list. It
has no result when the deadline has no list or `expires` is zero. -/
def unqueue (q : Queue W) (delay : Delay) : Option (Queue W) :=
  match q.tree[delay.deadline]? with
  | none => none
  | some occupied =>
      let list := swapRemove occupied delay.entry
      if list.length = 0 then
        let q := { q with
          tree := q.tree.erase delay.deadline
          listCache := q.listCache.free list }
        if q.expires = 0 then none
        else if q.expires = delay.deadline then some { q with expires := q.firstDeadline.getD 0 }
        else some q
      else some { q with tree := q.tree.insert delay.deadline list }

/-- `complete(delay)`. -/
def complete (q : Queue W) (delay : Delay) : Option (Queue W) :=
  let removed := if (q.raw delay.entry).queued then q.unqueue delay else some q
  removed.map fun q =>
    { q with
      raw := setQueued q.raw delay.entry false
      entryCache := q.entryCache.free delay.entry }

end Queue
end Yaar.Time
