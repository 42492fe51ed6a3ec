import Mathlib.Algebra.Group.Nat.Defs
import Mathlib.Data.List.Nodup
import Mathlib.Logic.Function.Basic
import Yaar.Sync.AtomicWakerCall

/-! `net/internal/wakers.rs`: the slots that hold the wakers of sockets. -/
namespace Yaar.Net

inductive WakerKind where
  | Read
  | Write
  deriving DecidableEq

structure WakerIndex where
  block : UInt16
  entry : UInt16
  deriving DecidableEq

namespace WakerIndex

/-- `Into<usize>` -/
def into (index : WakerIndex) : Nat := (index.block.toNat <<< 16) ||| index.entry.toNat

/-- `From<usize>` -/
def ofUsize (value : Nat) : WakerIndex where
  block := .ofNat ((value >>> 16) &&& 0xffff)
  entry := .ofNat (value &&& 0xffff)

/-- The two fields of an index do not overlap in the word, so the word is their sum. -/
theorem into_eq (index : WakerIndex) : index.into = index.block.toNat * 65536 + index.entry.toNat := by
  have hEntry : index.entry.toNat < 2 ^ 16 := index.entry.toNat_lt
  rw [into, ← Nat.shiftLeft_add_eq_or_of_lt hEntry, Nat.shiftLeft_eq]

/-- A token decodes back to the index it was made from. -/
@[simp] theorem ofUsize_into (index : WakerIndex) : ofUsize index.into = index := by
  have hBlock : index.block.toNat < 65536 := index.block.toNat_lt
  have hEntry : index.entry.toNat < 65536 := index.entry.toNat_lt
  have hMask : ∀ n : Nat, n &&& 0xffff = n % 65536 := fun n => Nat.and_two_pow_sub_one_eq_mod n 16
  have hValue := into_eq index
  generalize index.into = value at hValue
  obtain ⟨block, entry⟩ := index
  simp only at hBlock hEntry hValue
  simp only [ofUsize, hMask, Nat.shiftRight_eq_div_pow, mk.injEq, ← UInt16.toNat_inj,
    UInt16.toNat_ofNat']
  omega

theorem into_lt (index : WakerIndex) : index.into < 2 ^ 32 := by
  have hBlock : index.block.toNat < 65536 := index.block.toNat_lt
  have hEntry : index.entry.toNat < 65536 := index.entry.toNat_lt
  rw [into_eq]
  omega

end WakerIndex

/-- `NUM_ENTRIES` and `NUM_BLOCKS`, which depend on the memory layout of the
target. Both are positive and fit the `u16` fields of an index. -/
structure Layout where
  NUM_ENTRIES : Nat
  NUM_BLOCKS : Nat
  entries_pos : 0 < NUM_ENTRIES
  blocks_pos : 0 < NUM_BLOCKS
  entries_le : NUM_ENTRIES ≤ 65535
  blocks_le : NUM_BLOCKS ≤ 65535

/-- The blocks created so far are those below `nextBlock`. -/
structure WakerStorage (W : Type*) where
  nextBlock : UInt16
  available : List WakerIndex
  wakers : WakerIndex → WakerKind → AtomicWaker W

namespace WakerStorage

variable {W : Type*}

def new : WakerStorage W := ⟨0, [], fun _ _ => .new⟩

/-- The indices of a new block, the entry that is popped first at the back. -/
def blockIndices (L : Layout) (block : UInt16) : List WakerIndex :=
  (List.range L.NUM_ENTRIES).reverse.map fun entry => ⟨block, .ofNat entry⟩

def alloc (L : Layout) (s : WakerStorage W) : Option WakerIndex × WakerStorage W :=
  match s.available.getLast? with
  | some index => (some index, { s with available := s.available.dropLast })
  | none =>
      if s.nextBlock.toNat = L.NUM_BLOCKS then (none, s)
      else
        let available := s.available ++ blockIndices L s.nextBlock
        (available.getLast?,
          { nextBlock := s.nextBlock + 1
            available := available.dropLast
            -- The stored block is a new one, with every entry empty.
            wakers := fun index => if index.block = s.nextBlock then fun _ => .new
              else s.wakers index })

def free (s : WakerStorage W) (index : WakerIndex) : WakerStorage W :=
  { s with available := s.available ++ [index] }

/-- The block an index addresses exists. -/
def Created (s : WakerStorage W) (index : WakerIndex) : Prop := index.block < s.nextBlock

instance (s : WakerStorage W) (index : WakerIndex) : Decidable (s.Created index) :=
  inferInstanceAs (Decidable (_ < _))

/-- The waker that `with(index, ..)` gives for a kind. The unwrap of the block
is what can fail. -/
def get? (s : WakerStorage W) (index : WakerIndex) (kind : WakerKind) : Option (AtomicWaker W) :=
  if s.Created index then some (s.wakers index kind) else none

def set (s : WakerStorage W) (index : WakerIndex) (kind : WakerKind) (waker : AtomicWaker W) :
    WakerStorage W :=
  { s with
    wakers := Function.update s.wakers index (Function.update (s.wakers index) kind waker) }

@[simp] theorem set_self (s : WakerStorage W) (index : WakerIndex) (kind : WakerKind)
    (waker : AtomicWaker W) : (s.set index kind waker).wakers index kind = waker := by
  simp [set]

theorem set_of_kind (s : WakerStorage W) (index : WakerIndex) {kind kind' : WakerKind}
    (waker : AtomicWaker W) (h : kind' ≠ kind) :
    (s.set index kind waker).wakers index kind' = s.wakers index kind' := by
  simp [set, h]

theorem set_of_index (s : WakerStorage W) {index index' : WakerIndex} (kind kind' : WakerKind)
    (waker : AtomicWaker W) (h : index' ≠ index) :
    (s.set index kind waker).wakers index' kind' = s.wakers index' kind' := by
  simp [set, h]

/-! ## The slots handed out -/

theorem mem_blockIndices {L : Layout} {block : UInt16} {index : WakerIndex}
    (h : index ∈ blockIndices L block) : index.block = block := by
  simp only [blockIndices, List.mem_map] at h
  obtain ⟨entry, -, rfl⟩ := h
  rfl

/-- The entries of a block have different indices, as their number fits a `u16`. -/
theorem nodup_blockIndices (L : Layout) (block : UInt16) : (blockIndices L block).Nodup := by
  refine List.Nodup.map_on ?_ (List.nodup_reverse.mpr List.nodup_range)
  intro a ha b hb hEq
  have hBound : ∀ n ∈ (List.range L.NUM_ENTRIES).reverse, n < 65536 := fun n hn =>
    (List.mem_range.mp (List.mem_reverse.mp hn)).trans_le (L.entries_le.trans (by decide))
  have hEntry := congrArg (fun index => index.entry.toNat) hEq
  simpa [UInt16.toNat_ofNat', Nat.mod_eq_of_lt, hBound a ha, hBound b hb] using hEntry

/-- A block has an entry at least, so `alloc` has one to take right away. -/
theorem blockIndices_ne_nil (L : Layout) (block : UInt16) : blockIndices L block ≠ [] := by
  have hPos := L.entries_pos
  simp only [blockIndices, ne_eq, List.map_eq_nil_iff, List.reverse_eq_nil_iff, List.range_eq_nil]
  omega

/-- What `alloc` and `free` keep of the available slots. -/
structure Valid (L : Layout) (s : WakerStorage W) : Prop where
  blocks : s.nextBlock.toNat ≤ L.NUM_BLOCKS
  nodup : s.available.Nodup
  created : ∀ index ∈ s.available, s.Created index

theorem valid_new (L : Layout) : Valid L (new : WakerStorage W) :=
  ⟨Nat.zero_le _, by simp [new], by simp [new]⟩

/-- Where an allocated slot comes from. A slot of a new block is empty. -/
inductive Source (s s' : WakerStorage W) (index : WakerIndex) : Prop where
  | recycled (last : s.available.getLast? = some index) (wakers : s'.wakers = s.wakers)
  | fresh (created : ¬s.Created index) (empty : ∀ kind, s'.wakers index kind = .new)

/-- What a successful `alloc` has done. -/
structure Allocating (L : Layout) (s s' : WakerStorage W) (index : WakerIndex) : Prop where
  valid : Valid L s'
  taken : index ∉ s'.available
  created : s'.Created index
  older : ∀ i, s.Created i → s'.Created i ∧ s'.wakers i = s.wakers i
  wakers : ∀ i, s'.wakers i = s.wakers i ∨ s'.wakers i = fun _ => .new
  available : ∀ i ∈ s'.available, i ∈ s.available ∨ ¬s.Created i
  source : Source s s' index

/-- With one more block the created indices are those before and those of the block. The
number of blocks does not wrap around. -/
theorem created_succ {s : WakerStorage W} {L : Layout} (valid : Valid L s)
    (hRoom : s.nextBlock.toNat ≠ L.NUM_BLOCKS) (index : WakerIndex) :
    index.block < s.nextBlock + 1 ↔ s.Created index ∨ index.block = s.nextBlock := by
  have hMax := L.blocks_le
  have hLe := valid.blocks
  have hSucc : (s.nextBlock + 1).toNat = s.nextBlock.toNat + 1 := by
    rw [UInt16.toNat_add]
    exact Nat.mod_eq_of_lt (by simp; omega)
  rw [Created, UInt16.lt_iff_toNat_lt, UInt16.lt_iff_toNat_lt, hSucc, ← UInt16.toNat_inj]
  omega

/-- What an allocation does: it takes an index that was free, from the list or from a
new block. -/
theorem alloc_some {L : Layout} {s s' : WakerStorage W} {index : WakerIndex} (valid : Valid L s)
    (h : s.alloc L = (some index, s')) : Allocating L s s' index := by
  unfold alloc at h
  cases hLast : s.available.getLast? with
  | some last =>
      simp only [hLast, Prod.mk.injEq, Option.some.injEq] at h
      obtain ⟨rfl, rfl⟩ := h
      have hSplit : s.available = s.available.dropLast ++ [last] :=
        (List.dropLast_append_getLast? last hLast).symm
      have hNodup := valid.nodup
      rw [hSplit, (List.perm_append_singleton _ _).nodup_iff, List.nodup_cons] at hNodup
      exact ⟨⟨valid.blocks, hNodup.2, fun i hi => valid.created i (List.mem_of_mem_dropLast hi)⟩,
        hNodup.1, valid.created last (List.mem_of_getLast? hLast), fun i hi => ⟨hi, rfl⟩,
        fun i => Or.inl rfl, fun i hi => Or.inl (List.mem_of_mem_dropLast hi), .recycled hLast rfl⟩
  | none =>
      have hNil : s.available = [] := List.getLast?_eq_none_iff.mp hLast
      simp only [hLast] at h
      split at h
      · simp at h
      · next hRoom =>
          simp only [hNil, List.nil_append, Prod.mk.injEq] at h
          obtain ⟨hIndex, rfl⟩ := h
          have hSplit : blockIndices L s.nextBlock =
              (blockIndices L s.nextBlock).dropLast ++ [index] :=
            (List.dropLast_append_getLast? index hIndex).symm
          have hNodup := nodup_blockIndices L s.nextBlock
          rw [hSplit, (List.perm_append_singleton _ _).nodup_iff, List.nodup_cons] at hNodup
          have hBlock : index.block = s.nextBlock :=
            mem_blockIndices (List.mem_of_getLast? hIndex)
          have hNew : ∀ i : WakerIndex, i.block = s.nextBlock → ¬s.Created i := by
            intro i hi hCreated
            rw [Created, hi] at hCreated
            exact UInt16.lt_irrefl _ hCreated
          have hCreated := created_succ valid hRoom
          refine ⟨⟨?_, hNodup.2, fun i hi => (hCreated i).mpr (Or.inr ?_)⟩, hNodup.1,
            (hCreated index).mpr (Or.inr hBlock), fun i hi => ⟨(hCreated i).mpr (Or.inl hi), ?_⟩,
            fun i => ?_, fun i hi => Or.inr (hNew i ?_), .fresh (hNew index hBlock) fun kind => by simp [hBlock]⟩
          · have hMax := L.blocks_le
            have hLe := valid.blocks
            change (s.nextBlock + 1).toNat ≤ L.NUM_BLOCKS
            rw [UInt16.toNat_add]
            exact (Nat.mod_le _ _).trans (by simp; omega)
          · exact mem_blockIndices (List.mem_of_mem_dropLast hi)
          · have hNe : i.block ≠ s.nextBlock := fun hEq => hNew i hEq hi
            simp [hNe]
          · by_cases hEq : i.block = s.nextBlock
            · exact Or.inr (by simp [hEq])
            · exact Or.inl (by simp [hEq])
          · exact mem_blockIndices (List.mem_of_mem_dropLast hi)

theorem alloc_none {L : Layout} {s s' : WakerStorage W} (h : s.alloc L = (none, s')) : s' = s := by
  unfold alloc at h
  cases hLast : s.available.getLast? with
  | some last => simp [hLast] at h
  | none =>
      have hNil : s.available = [] := List.getLast?_eq_none_iff.mp hLast
      simp only [hLast] at h
      split at h
      · simpa using h.symm
      · simp [hNil, blockIndices_ne_nil] at h

theorem valid_free {L : Layout} {s : WakerStorage W} {index : WakerIndex} (valid : Valid L s)
    (hUsed : index ∉ s.available) (hCreated : s.Created index) : Valid L (s.free index) := by
  refine ⟨valid.blocks, ?_, fun i hi => ?_⟩
  · exact (List.perm_append_singleton _ _).nodup_iff.mpr (List.nodup_cons.mpr ⟨hUsed, valid.nodup⟩)
  · rcases List.mem_append.mp hi with hi | hi
    · exact valid.created i hi
    · exact List.mem_singleton.mp hi ▸ hCreated

end WakerStorage
end Yaar.Net
