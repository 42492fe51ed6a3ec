import Yaar.Net.Wakers

/-! The slots of a waker storage over any history of `alloc` and `free`. -/
namespace Yaar.Net

open Machine

namespace WakerStorage

/-- A storage with the indices handed out and not yet freed. `array` tells whether
the array of blocks has been created. -/
structure Slots (W : Type*) where
  storage : WakerStorage W
  array : Bool
  live : List WakerIndex

inductive Call (W : Type*) where
  | alloc
  | free (index : WakerIndex)
  /-- an access to a waker of an index in use -/
  | access (index : WakerIndex) (kind : WakerKind) (waker : AtomicWaker W)

namespace Slots

variable {W : Type*}

/-- An index is freed by the one it was handed out to. -/
def next (L : Layout) (s : Slots W) : Call W → Option (Slots W)
  | .alloc =>
      let (index?, storage) := s.storage.alloc L
      some {
        storage := storage
        array := s.array || s.storage.available.isEmpty
        live := index?.toList ++ s.live }
  | .free index =>
      if index ∈ s.live then
        some { s with storage := s.storage.free index, live := s.live.erase index }
      else none
  | .access index kind waker =>
      if index ∈ s.live then some { s with storage := s.storage.set index kind waker } else none

/-- `with(index, ..)`, which has no result when an unwrap or a bound fails. -/
def with? (L : Layout) (s : Slots W) (index : WakerIndex) (kind : WakerKind) :
    Option (AtomicWaker W) :=
  if s.array ∧ index.block.toNat < L.NUM_BLOCKS ∧ index.entry.toNat < L.NUM_ENTRIES then
    s.storage.get? index kind
  else none

end Slots

def slots (W : Type*) (L : Layout) : System (Slots W) (Call W) where
  initial := ⟨.new, false, []⟩
  next := Slots.next L

variable {W : Type*} {L : Layout}

/-- The indices of a block are those with its number and an entry in range. -/
theorem mem_blockIndices_iff {block : UInt16} {index : WakerIndex} :
    index ∈ blockIndices L block ↔ index.block = block ∧ index.entry.toNat < L.NUM_ENTRIES := by
  have hBound := L.entries_le
  simp only [blockIndices, List.mem_map, List.mem_reverse, List.mem_range]
  constructor
  · rintro ⟨entry, hEntry, rfl⟩
    refine ⟨rfl, ?_⟩
    rwa [UInt16.toNat_ofNat', Nat.mod_eq_of_lt (by omega)]
  · rintro ⟨rfl, hEntry⟩
    exact ⟨index.entry.toNat, hEntry, by simp⟩

theorem count_blockIndices (block : UInt16) (index : WakerIndex) :
    (blockIndices L block).count index =
      if index.block = block ∧ index.entry.toNat < L.NUM_ENTRIES then 1 else 0 := by
  rw [(nodup_blockIndices L block).count]
  simp only [mem_blockIndices_iff]

theorem length_blockIndices (block : UInt16) : (blockIndices L block).length = L.NUM_ENTRIES := by
  simp [blockIndices]

/-- A slot of a block that has been created. -/
def Exists (L : Layout) (s : WakerStorage W) (index : WakerIndex) : Prop :=
  s.Created index ∧ index.entry.toNat < L.NUM_ENTRIES

instance (s : WakerStorage W) (index : WakerIndex) : Decidable (s.Exists L index) :=
  inferInstanceAs (Decidable (_ ∧ _))

/-- Every slot that exists is live or available, and so once. -/
structure Shared (L : Layout) (s : Slots W) : Prop where
  blocks : s.storage.nextBlock.toNat ≤ L.NUM_BLOCKS
  count : ∀ index, (s.live ++ s.storage.available).count index =
    if s.storage.Exists L index then 1 else 0
  length : s.live.length + s.storage.available.length =
    s.storage.nextBlock.toNat * L.NUM_ENTRIES
  array : s.storage.nextBlock ≠ 0 → s.array

theorem shared_new : Shared L (slots W L).initial := by
  have hNot : ∀ index, ¬(slots W L).initial.storage.Exists L index := by
    rintro index ⟨hCreated, -⟩
    exact UInt16.not_lt_zero hCreated
  refine ⟨Nat.zero_le _, fun index => ?_, by simp [slots, new], fun hBlocks => (hBlocks rfl).elim⟩
  rw [if_neg (hNot index)]
  rfl

/-- The three ways through `alloc`: the last available index is taken, no block is
left, or a new block is created. -/
theorem alloc_cases (s : WakerStorage W) :
    (∃ rest index, s.available = rest ++ [index] ∧
      s.alloc L = (some index, { s with available := rest })) ∨
    (s.available = [] ∧ s.nextBlock.toNat = L.NUM_BLOCKS ∧ s.alloc L = (none, s)) ∨
    (s.available = [] ∧ s.nextBlock.toNat ≠ L.NUM_BLOCKS ∧
      ∃ rest index, blockIndices L s.nextBlock = rest ++ [index] ∧
        s.alloc L = (some index, {
          nextBlock := s.nextBlock + 1
          available := rest
          wakers := fun i => if i.block = s.nextBlock then fun _ => .new else s.wakers i })) := by
  rcases List.eq_nil_or_concat' s.available with hNil | ⟨rest, index, hAvailable⟩
  · refine Or.inr ?_
    by_cases hFull : s.nextBlock.toNat = L.NUM_BLOCKS
    · exact Or.inl ⟨hNil, hFull, by simp [alloc, hNil, hFull]⟩
    · rcases List.eq_nil_or_concat' (blockIndices L s.nextBlock) with hEmpty | ⟨rest, index, hBlock⟩
      · exact (blockIndices_ne_nil L s.nextBlock hEmpty).elim
      · exact Or.inr ⟨hNil, hFull, rest, index, hBlock, by simp [alloc, hNil, hFull, hBlock]⟩
  · exact Or.inl ⟨rest, index, hAvailable, by simp [alloc, hAvailable]⟩

/-- One more block exists than before. -/
theorem exists_succ {s : WakerStorage W} {available : List WakerIndex}
    {wakers : WakerIndex → WakerKind → AtomicWaker W} (hRoom : s.nextBlock.toNat < L.NUM_BLOCKS)
    (index : WakerIndex) :
    (⟨s.nextBlock + 1, available, wakers⟩ : WakerStorage W).Exists L index ↔
      s.Exists L index ∨ index ∈ blockIndices L s.nextBlock := by
  have hMax := L.blocks_le
  have hSucc : (s.nextBlock + 1).toNat = s.nextBlock.toNat + 1 := by
    rw [UInt16.toNat_add]
    exact Nat.mod_eq_of_lt (by simp; omega)
  rw [mem_blockIndices_iff, Exists, Exists, Created, Created, UInt16.lt_iff_toNat_lt,
    UInt16.lt_iff_toNat_lt, hSucc, ← UInt16.toNat_inj]
  omega

/-- A call of `alloc` moves an index from the free ones to those in use. If it makes a
block, all of its entries come in. -/
theorem Shared.alloc {s s' : Slots W} (shared : Shared L s) (h : s.next L .alloc = some s') :
    Shared L s' := by
  obtain ⟨blocks, count, length, array⟩ := shared
  rcases alloc_cases (L := L) s.storage with ⟨rest, index, hAvailable, hAlloc⟩ |
    ⟨hNil, hFull, hAlloc⟩ | ⟨hNil, hFull, rest, index, hBlock, hAlloc⟩
  · simp only [Slots.next, hAlloc, Option.toList_some, List.singleton_append,
      Option.some.injEq] at h
    subst h
    refine ⟨blocks, fun i => ?_, ?_, fun hBlocks => by simp [array hBlocks]⟩
    · refine Eq.trans ?_ (count i)
      simp only [hAvailable, List.count_append, List.count_cons, List.cons_append, List.count_nil]
      omega
    · simp only [hAvailable, List.length_append, List.length_singleton] at length
      simp only [List.length_cons]
      omega
  · simp only [Slots.next, hAlloc, Option.toList_none, List.nil_append, Option.some.injEq] at h
    subst h
    exact ⟨blocks, count, length, by simp [hNil]⟩
  · have hRoom : s.storage.nextBlock.toNat < L.NUM_BLOCKS := lt_of_le_of_ne blocks hFull
    have hMax := L.blocks_le
    have hSucc : (s.storage.nextBlock + 1).toNat = s.storage.nextBlock.toNat + 1 := by
      rw [UInt16.toNat_add]
      exact Nat.mod_eq_of_lt (by simp; omega)
    simp only [Slots.next, hAlloc, Option.toList_some, List.singleton_append,
      Option.some.injEq] at h
    subst h
    refine ⟨by rw [hSucc]; exact hRoom, fun i => ?_, ?_, by simp [hNil]⟩
    · have hNew := count_blockIndices (L := L) s.storage.nextBlock i
      have hBefore := count i
      rw [hBlock] at hNew
      simp only [← mem_blockIndices_iff] at hNew
      have hApart : s.storage.Exists L i → i ∉ blockIndices L s.storage.nextBlock := by
        rintro ⟨hCreated, -⟩ hMem
        rw [Created, mem_blockIndices hMem] at hCreated
        exact UInt16.lt_irrefl _ hCreated
      rw [if_congr (exists_succ hRoom i) rfl rfl]
      simp only [hNil, List.append_nil] at hBefore
      simp only [List.count_append, List.count_cons, List.cons_append, List.count_nil] at hNew ⊢
      by_cases hExists : s.storage.Exists L i
      · rw [if_pos hExists] at hBefore
        rw [if_neg (hApart hExists)] at hNew
        rw [if_pos (Or.inl hExists)]
        omega
      · rw [if_neg hExists] at hBefore
        simp only [hExists, false_or]
        omega
    · have hLength := length_blockIndices (L := L) s.storage.nextBlock
      rw [hBlock, List.length_append, List.length_singleton] at hLength
      rw [hNil, List.length_nil] at length
      rw [hSucc, Nat.succ_mul]
      simp only [List.length_cons]
      omega

theorem Shared.free {s s' : Slots W} {index : WakerIndex} (shared : Shared L s)
    (h : s.next L (.free index) = some s') : Shared L s' := by
  obtain ⟨blocks, count, length, array⟩ := shared
  simp only [Slots.next] at h
  split at h
  · next hLive =>
      obtain rfl := Option.some.inj h
      have hPerm := List.perm_cons_erase hLive
      refine ⟨blocks, fun i => ?_, ?_, array⟩
      · refine Eq.trans ?_ (count i)
        rw [List.count_append, List.count_append, hPerm.count_eq, List.count_cons]
        simp only [WakerStorage.free, List.count_append, List.count_cons, List.count_nil]
        omega
      · have hLength := hPerm.length_eq
        simp only [WakerStorage.free, List.length_append, List.length_cons, List.length_nil]
          at hLength ⊢
        omega
  · simp at h

/-- Every call keeps the indices shared out between users and storage. -/
theorem Shared.next {s s' : Slots W} {call : Call W} (shared : Shared L s)
    (h : s.next L call = some s') : Shared L s' := by
  cases call with
  | alloc => exact shared.alloc h
  | free index => exact shared.free h
  | access index kind waker =>
      simp only [Slots.next] at h
      split at h
      · obtain rfl := Option.some.inj h
        exact ⟨shared.blocks, shared.count, shared.length, shared.array⟩
      · simp at h

/-- They are shared out in every reachable state, for any layout. -/
theorem shared_reachable {s : Slots W} (h : (slots W L).Reachable s) : Shared L s :=
  h.keeps shared_new fun _ _ _ shared hNext => shared.next hNext

/-- What the indices in use may rely on. The signal has the token `usize::MAX`, of
a pointer of at least 32 bits. -/
structure Allocated (L : Layout) (s : Slots W) : Prop where
  unique : s.live.Nodup
  addressed : ∀ index ∈ s.live, ∀ kind,
    s.with? L index kind = some (s.storage.wakers index kind)
  token : ∀ index ∈ s.live, WakerIndex.ofUsize index.into = index ∧
    ∀ bits, 32 ≤ bits → index.into ≠ 2 ^ bits - 1
  once : ∀ index, (s.live ++ s.storage.available).count index =
    if s.storage.Exists L index then 1 else 0
  full : (s.storage.alloc L).1 = none ↔ s.live.length = L.NUM_BLOCKS * L.NUM_ENTRIES

/-- No call of `alloc` or `free` replaces the block of an index in use. -/
def KeepsBlocks (L : Layout) (s : Slots W) : Prop :=
  ∀ call s', s.next L call = some s' → (∀ index kind waker, call ≠ .access index kind waker) →
    ∀ index ∈ s.live, s'.storage.Created index ∧ s'.storage.wakers index = s.storage.wakers index

theorem Shared.exists_of_live {s : Slots W} (shared : Shared L s) {index : WakerIndex}
    (h : index ∈ s.live) : s.storage.Exists L index := by
  by_contra hNot
  have hCount := shared.count index
  rw [if_neg hNot, List.count_append] at hCount
  have hPos := List.count_pos_iff.mpr h
  omega

/-- An index in use has its block, so the unwrap of `with` does not fail. -/
theorem Shared.with_eq {s : Slots W} (shared : Shared L s) {index : WakerIndex}
    (h : index ∈ s.live) (kind : WakerKind) :
    s.with? L index kind = some (s.storage.wakers index kind) := by
  obtain ⟨hCreated, hEntry⟩ := shared.exists_of_live h
  have hBlock : index.block.toNat < s.storage.nextBlock.toNat := UInt16.lt_iff_toNat_lt.mp hCreated
  have hArray : s.array := by
    refine shared.array fun hZero => ?_
    simp [hZero] at hBlock
  have hBounds : s.array ∧ index.block.toNat < L.NUM_BLOCKS ∧ index.entry.toNat < L.NUM_ENTRIES :=
    ⟨hArray, hBlock.trans_le shared.blocks, hEntry⟩
  rw [Slots.with?, if_pos hBounds, get?, if_pos hCreated]

/-- The word of an index in use is below that of the signal, since no block has the
number `0xffff`. -/
theorem Shared.token_lt {s : Slots W} (shared : Shared L s) {index : WakerIndex}
    (h : index ∈ s.live) : index.into < 2 ^ 32 - 1 := by
  obtain ⟨hCreated, hEntry⟩ := shared.exists_of_live h
  have hBlock : index.block.toNat < s.storage.nextBlock.toNat := UInt16.lt_iff_toNat_lt.mp hCreated
  have hBlocks := shared.blocks
  have hMax := L.blocks_le
  have hMaxEntry := L.entries_le
  rw [WakerIndex.into_eq]
  omega

/-- An allocation fails only where every entry of every block is in use. -/
theorem Shared.full_iff {s : Slots W} (shared : Shared L s) :
    (s.storage.alloc L).1 = none ↔ s.live.length = L.NUM_BLOCKS * L.NUM_ENTRIES := by
  have hPos := L.entries_pos
  have hLength := shared.length
  have hLe := Nat.mul_le_mul_right L.NUM_ENTRIES shared.blocks
  rcases alloc_cases (L := L) s.storage with ⟨rest, index, hAvailable, hAlloc⟩ |
    ⟨hNil, hFull, hAlloc⟩ | ⟨hNil, hFull, rest, index, hBlock, hAlloc⟩
  · rw [hAvailable, List.length_append, List.length_singleton] at hLength
    simp only [hAlloc, reduceCtorEq, false_iff]
    omega
  · rw [hNil, List.length_nil, hFull] at hLength
    simpa [hAlloc] using hLength
  · have hLt := Nat.mul_lt_mul_of_pos_right (lt_of_le_of_ne shared.blocks hFull) hPos
    rw [hNil, List.length_nil] at hLength
    simp only [hAlloc, reduceCtorEq, false_iff]
    omega

/-- A new block has a number that no index in use has, so no block is replaced under
one. -/
theorem Shared.keepsBlocks {s : Slots W} (shared : Shared L s) : KeepsBlocks L s := by
  intro call s' hNext hCall index hLive
  obtain ⟨hCreated, -⟩ := shared.exists_of_live hLive
  cases call with
  | alloc =>
      rcases alloc_cases (L := L) s.storage with ⟨rest, last, hAvailable, hAlloc⟩ |
        ⟨hNil, hFull, hAlloc⟩ | ⟨hNil, hFull, rest, last, hBlock, hAlloc⟩
      · simp only [Slots.next, hAlloc, Option.some.injEq] at hNext
        subst hNext
        exact ⟨hCreated, rfl⟩
      · simp only [Slots.next, hAlloc, Option.some.injEq] at hNext
        subst hNext
        exact ⟨hCreated, rfl⟩
      · have hRoom : s.storage.nextBlock.toNat < L.NUM_BLOCKS := lt_of_le_of_ne shared.blocks hFull
        have hOld : index.block ≠ s.storage.nextBlock := fun hEq => by
          rw [Created, hEq] at hCreated
          exact UInt16.lt_irrefl _ hCreated
        simp only [Slots.next, hAlloc, Option.some.injEq] at hNext
        subst hNext
        refine ⟨((exists_succ hRoom index).mpr (Or.inl (shared.exists_of_live hLive))).1, ?_⟩
        simp [hOld]
  | free other =>
      simp only [Slots.next] at hNext
      split at hNext
      · obtain rfl := Option.some.inj hNext
        exact ⟨hCreated, rfl⟩
      · simp at hNext
  | access other kind waker => exact (hCall other kind waker rfl).elim

/-- In every history of calls in which only indices in use are freed, these are
distinct and stay valid, and a slot is refused only when all are in use. -/
theorem allocated {s : Slots W} (h : (slots W L).Reachable s) : Allocated L s ∧ KeepsBlocks L s := by
  have shared := shared_reachable h
  refine ⟨⟨?_, fun index hLive kind => shared.with_eq hLive kind, fun index hLive => ?_,
    shared.count, shared.full_iff⟩, shared.keepsBlocks⟩
  · rw [List.nodup_iff_count_le_one]
    intro index
    have hCount := shared.count index
    rw [List.count_append] at hCount
    split at hCount <;> omega
  · refine ⟨WakerIndex.ofUsize_into index, fun bits hBits => ?_⟩
    have hLt := shared.token_lt hLive
    have hPow : 2 ^ 32 ≤ 2 ^ bits := Nat.pow_le_pow_right (by decide) hBits
    omega

/-- Two slots of one block, of which the first is freed and handed out again. -/
theorem allocated_reuse : ∃ s : Slots Unit, s.live = [⟨0, 0⟩, ⟨0, 1⟩] ∧
    Allocated ⟨2, 1, by decide, by decide, by decide, by decide⟩ s ∧
    KeepsBlocks ⟨2, 1, by decide, by decide, by decide, by decide⟩ s := by
  obtain ⟨s, run, hLive⟩ :=
    (slots Unit ⟨2, 1, by decide, by decide, by decide, by decide⟩).exists_run_of_replay
      [.alloc, .alloc, .free ⟨0, 0⟩, .alloc] Slots.live [⟨0, 0⟩, ⟨0, 1⟩] (by decide)
  exact ⟨s, hLive, allocated run.reachable⟩

end WakerStorage
end Yaar.Net
