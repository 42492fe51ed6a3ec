import Mathlib.Data.List.Sort
import Yaar.Data.XorShift
import Yaar.Examples.QuickSort

/-! `main` of `examples/qsort/yaar.rs`, which sorts a shuffled array and verifies the
result. -/
namespace Yaar.Examples.QuickSort

open ForkJoin Memory

/-- `i32` -/
abbrev I32 := {n : Int // -2 ^ 31 ≤ n ∧ n < 2 ^ 31}

/-- `usize::try_into` -/
def tryInto (i : Nat) : Option I32 := if h : i < 2 ^ 31 then some ⟨i, by omega⟩ else none

/-- The collected `Vec<i32>`, or a panic of the `unwrap`. -/
def fill (size : Nat) : Option (List I32) := (List.range size).mapM tryInto

section Array

variable {α : Type}

def Slice.elements (arr : Slice) (mem : Nat → α) : List α :=
  (List.range' arr.start arr.length).map mem

/-- The turns of the `for` of `shuffle` from `i` on. -/
def shuffleFrom (arr : Slice) : Nat → Nat → BitVec 32 → (Nat → α) → Option (Nat → α)
  | 0, _, _, mem => some mem
  | count + 1, i, xs, mem => do
      let xs := xs ^^^ (xs <<< 13)
      let xs := xs ^^^ (xs >>> 17)
      let xs := xs ^^^ (xs <<< 5)
      let j := xs.toNat % (i + 1)
      let mem' ← arr.swap mem i j
      shuffleFrom arr count (i + 1) xs mem'

def shuffle (arr : Slice) (mem : Nat → α) : Option (Nat → α) :=
  shuffleFrom arr arr.length 0 0xdeadbeef#32 mem

/-- `verify`, which compares the elements of each of the `windows(2)`. -/
def verify [LinearOrder α] (list : List α) : Bool :=
  (list.zip list.tail).all fun window => decide (window.1 ≤ window.2)

end Array

/-- `main` up to the `await`, with the tasks of the call of `quick_sort` it comes to. -/
def main (size : Nat) : Option (Machine.System ((Nat → I32) × Tasks Line Halves) (List Bool)) := do
  let list ← fill size
  let arr : Slice := ⟨0, list.length⟩
  let mem ← shuffle arr fun i => list.getD i ⟨0, by decide⟩
  return system quickSort mem (.quickSort arr)

/-- Each turn of the loop swaps two elements within the bounds, so `shuffle` does not
panic and loses nothing. -/
theorem shuffleFrom_rearranges {α : Type} (arr : Slice) {count i : Nat} (xs : BitVec 32)
    (mem : Nat → α) (h : i + count ≤ arr.length) :
    ∃ mem', shuffleFrom arr count i xs mem = some mem' ∧ Rearranges arr.cells mem mem' := by
  induction count generalizing i xs mem with
  | zero => exact ⟨mem, rfl, .refl _ _⟩
  | succ count ih =>
      simp only [shuffleFrom, Option.bind_eq_bind]
      generalize (xs ^^^ xs <<< 13 ^^^ (xs ^^^ xs <<< 13) >>> 17 ^^^
        (xs ^^^ xs <<< 13 ^^^ (xs ^^^ xs <<< 13) >>> 17) <<< 5) = xs'
      have hIndex : xs'.toNat % (i + 1) < i + 1 := Nat.mod_lt _ (Nat.succ_pos i)
      rw [Slice.swap_of_lt (by omega) (by omega), Option.bind_some]
      obtain ⟨mem', hShuffle, hRearranges⟩ := ih (i := i + 1) xs' (mem ∘ Equiv.swap (arr.start + i)
        (arr.start + xs'.toNat % (i + 1))) (by omega)
      exact ⟨mem', hShuffle, (rearranges_swap (by omega) (by omega)).trans hRearranges⟩

theorem verify_of_pairwise {α : Type} [LinearOrder α] {list : List α}
    (h : list.Pairwise (· ≤ ·)) : verify list = true := by
  unfold verify
  induction h with
  | nil => rfl
  | @cons a list hAll hRest ih =>
      cases list with
      | nil => rfl
      | cons b list => simpa [hAll b List.mem_cons_self] using ih

theorem Slice.pairwise_elements {α : Type} [LinearOrder α] {arr : Slice} {mem : Nat → α}
    (h : MonotoneOn mem arr.cells) : (arr.elements mem).Pairwise (· ≤ ·) := by
  rw [Slice.elements, List.pairwise_map]
  refine (List.pairwise_lt_range' (s := arr.start) (n := arr.length)).imp_of_mem ?_
  intro i j hi hj hLess
  rw [List.mem_range'_1] at hi hj
  exact h hi hj hLess.le

/-- The elements after a rearrangement are those before it, in another order. -/
theorem Slice.elements_perm {α : Type} {arr : Slice} {mem mem' : Nat → α}
    (h : Rearranges arr.cells mem mem') : (arr.elements mem').Perm (arr.elements mem) :=
  h.map_perm List.nodup_range' fun i => List.mem_range'_1

theorem Slice.elements_getD {α : Type} (list : List α) (a : α) :
    Slice.elements ⟨0, list.length⟩ (fun i => list.getD i a) = list := by
  apply List.ext_getElem
  · simp [Slice.elements]
  · intro i hi hi'
    simp [Slice.elements, hi']

theorem tryInto_eq_some {i : Nat} {a : I32} : tryInto i = some a ↔ a.1 = i := by
  unfold tryInto
  split
  · rw [Option.some_inj, Subtype.ext_iff, eq_comm]
  · next hLarge =>
      refine iff_of_false (Option.some_ne_none a).symm fun hEq => ?_
      have hBelow := a.2.2
      omega

/-- The integers that are filled in are the indices, as far as they fit. -/
theorem mapM_tryInto {is : List Nat} {list : List I32} :
    is.mapM tryInto = some list ↔ list.map Subtype.val = is.map Int.ofNat := by
  induction is generalizing list with
  | nil =>
      rw [List.mapM_nil, Option.pure_def, Option.some_inj, List.map_nil, List.map_eq_nil_iff,
        eq_comm]
  | cons i is ih =>
      simp only [List.mapM_cons, Option.pure_def, Option.bind_eq_bind, Option.bind_eq_some_iff,
        tryInto_eq_some, ih, Option.some_inj, List.map_cons]
      constructor
      · rintro ⟨a, ha, rest, hRest, rfl⟩
        rw [List.map_cons, hRest, ha, Int.ofNat_eq_natCast]
      · intro hEq
        obtain ⟨a, rest, rfl, ha, hRest⟩ := List.map_eq_cons_iff.mp hEq
        exact ⟨a, ha, rest, hRest, rfl⟩

theorem fill_of_le {size : Nat} (h : size ≤ 2 ^ 31) :
    ∃ list, fill size = some list ∧ list.length = size ∧ list.Pairwise (· ≤ ·) := by
  have hSmall : ∀ i ∈ List.range size, (i : Int) < 2 ^ 31 := fun i hi => by
    rw [List.mem_range] at hi
    omega
  let list : List I32 :=
    (List.range size).pmap (fun (i : Nat) hi => (⟨(i : Int), by omega, hi⟩ : I32)) hSmall
  have hValues : list.map Subtype.val = (List.range size).map Int.ofNat := by
    rw [List.map_pmap, List.pmap_eq_map]
    rfl
  have hSorted : (list.map Subtype.val).Pairwise (fun a b => a ≤ b) := by
    rw [hValues, List.pairwise_map]
    exact List.pairwise_lt_range.imp fun hLess => by
      simp only [Int.ofNat_eq_natCast]
      omega
  rw [List.pairwise_map] at hSorted
  exact ⟨list, mapM_tryInto.mpr hValues, by simp only [list, List.length_pmap, List.length_range],
    hSorted⟩

/-- Above that the `unwrap` of the conversion panics at the first index which is not. -/
theorem fill_of_lt {size : Nat} (h : 2 ^ 31 < size) : fill size = none := by
  rw [Option.eq_none_iff_forall_ne_some]
  intro list hFill
  have hValues := mapM_tryInto.mp hFill
  have hMem : (2 ^ 31 : Int) ∈ list.map Subtype.val := by
    rw [hValues]
    exact List.mem_map.mpr ⟨2 ^ 31, List.mem_range.mpr h, rfl⟩
  obtain ⟨a, -, ha⟩ := List.mem_map.mp hMem
  have := a.2
  omega

/-- Unless the sizes do not fit into an `i32`, `main` comes to its assertion in every order
of the steps, and the assertion holds: the array is as it was filled. -/
theorem main_verifies (size : Nat) :
    (main size = none ↔ 2 ^ 31 < size) ∧ ∀ m, main size = some m →
      ∃ bound, ∀ steps s, m.Run steps s → ¬s.2.Panics ∧ steps.length ≤ bound ∧
        (s.2 ≠ .done → ∃ path t, m.next s path = some t) ∧
        (s.2 = .done → verify (Slice.elements ⟨0, size⟩ s.1) = true ∧
          fill size = some (Slice.elements ⟨0, size⟩ s.1)) := by
  rcases Nat.lt_or_ge (2 ^ 31) size with hLarge | hSmall
  · have hMain : main size = none := by rw [main, fill_of_lt hLarge]; rfl
    exact ⟨iff_of_true hMain hLarge, fun m hSome => by simp [hMain] at hSome⟩
  obtain ⟨list, hFill, rfl, hSorted⟩ := fill_of_le hSmall
  obtain ⟨mem, hShuffle, hShuffled⟩ := shuffleFrom_rearranges ⟨0, list.length⟩ (i := 0)
    0xdeadbeef#32 (fun i => list.getD i ⟨0, by decide⟩) (Nat.zero_add list.length).le
  have hMain : main list.length = some (system quickSort mem (.quickSort ⟨0, list.length⟩)) := by
    simp only [main, hFill, Option.bind_eq_bind, Option.bind_some, shuffle, hShuffle]
    rfl
  refine ⟨iff_of_false (by simp [hMain]) hSmall.not_gt, fun m hSome => ?_⟩
  obtain rfl := Option.some.inj (hMain.symm.trans hSome)
  refine ⟨(Line.quickSort ⟨0, list.length⟩).cost mem, fun steps s run => ?_⟩
  have start : outline.At (Slice.cells ⟨0, list.length⟩) (.quickSort ⟨0, list.length⟩) mem :=
    ⟨rfl, trivial⟩
  obtain ⟨hChanges, holds, hSteps⟩ := outline.holds_of_run start run
  refine ⟨holds.not_panics, (Nat.le_add_right _ _).trans hSteps, holds.enabled, fun hDone => ?_⟩
  rw [hDone] at holds
  have hResult : (Slice.elements ⟨0, list.length⟩ s.1).Pairwise (· ≤ ·) :=
    Slice.pairwise_elements holds
  have hPerm := Slice.elements_perm (hShuffled.trans hChanges)
  rw [Slice.elements_getD] at hPerm
  rw [hFill, hPerm.eq_of_pairwise' hResult hSorted]
  exact ⟨verify_of_pairwise hSorted, rfl⟩

/-- An array of 40 elements, more than `insertion_sort` takes at once. -/
theorem main_verifies_forty : ∃ m steps s, main 40 = some m ∧ m.Run steps s ∧ s.2 = .done ∧
    verify (Slice.elements ⟨0, 40⟩ s.1) = true := by
  obtain ⟨hPanics, hVerifies⟩ := main_verifies 40
  obtain ⟨m, hMain⟩ := Option.ne_none_iff_exists'.mp fun hNone => absurd (hPanics.mp hNone) (by decide)
  obtain ⟨bound, hRuns⟩ := hVerifies m hMain
  obtain ⟨steps, s, run, hDone⟩ := m.exists_run_of_bound (·.2 = .done) bound
    (fun steps s run => (hRuns steps s run).2.1) fun steps s run => (hRuns steps s run).2.2.1
  exact ⟨m, steps, s, hMain, run, hDone, ((hRuns steps s run).2.2.2 hDone).1⟩

end Yaar.Examples.QuickSort
