import Mathlib.Data.Set.Monotone
import Mathlib.Tactic.Ring
import Mathlib.Tactic.Linarith
import Yaar.Data.Rearrange
import Yaar.Machine.ForkJoin

/-! `examples/qsort/yaar.rs`: a quicksort whose tasks each have a slice of one array to
themselves. -/
namespace Yaar.Examples.QuickSort

open ForkJoin Memory

/-- A `&'static mut [i32]`: the elements from `start` on. -/
structure Slice where
  start : Nat
  length : Nat
  deriving DecidableEq

namespace Slice

variable {α : Type*}

def cells (arr : Slice) : Set Nat := Set.Ico arr.start (arr.start + arr.length)

/-- `arr[i]`, which panics out of bounds. -/
def get (arr : Slice) (mem : Nat → α) (i : Nat) : Option α :=
  if i < arr.length then some (mem (arr.start + i)) else none

/-- `arr.swap(i, j)`, which panics out of bounds. -/
def swap (arr : Slice) (mem : Nat → α) (i j : Nat) : Option (Nat → α) :=
  if i < arr.length ∧ j < arr.length then
    some (mem ∘ Equiv.swap (arr.start + i) (arr.start + j))
  else none

/-- `arr.len() - 1`, which panics on an empty slice. -/
def last (arr : Slice) : Option Nat := if arr.length = 0 then none else some (arr.length - 1)

end Slice

/-- Where the task of a slice is: at the head of a function or of a loop. -/
inductive Line where
  | quickSort (arr : Slice)
  /-- the `for` of `insertion_sort` -/
  | insertionSort (arr : Slice) (i : Nat)
  /-- its `while` -/
  | insert (arr : Slice) (i n : Nat)
  /-- the `for` of `partition` -/
  | partition (arr : Slice) (i j : Nat)
  | splitAtMut (arr : Slice) (mid : Nat)
  deriving DecidableEq

/-- The two slices of a `split_at_mut`. -/
structure Halves where
  arr : Slice
  mid : Nat
  deriving DecidableEq

def Halves.low (halves : Halves) : Slice := ⟨halves.arr.start, halves.mid⟩

def Halves.high (halves : Halves) : Slice :=
  ⟨halves.arr.start + halves.mid, halves.arr.length - halves.mid⟩

section Program

variable {α : Type} [LinearOrder α]

def next (mem : Nat → α) : Line → Option (Next (Nat → α) Line Halves)
  | .quickSort arr =>
      if arr.length ≤ 32 then some (.goes mem (.insertionSort arr 1))
      else some (.goes mem (.partition arr 0 0))
  | .insertionSort arr i =>
      if i < arr.length then some (.goes mem (.insert arr i i)) else some .ends
  | .insert arr i n =>
      if 0 < n then do
        let a ← arr.get mem n
        let b ← arr.get mem (n - 1)
        if a < b then
          let mem' ← arr.swap mem n (n - 1)
          return .goes mem' (.insert arr i (n - 1))
        else return .goes mem (.insertionSort arr (i + 1))
      else some (.goes mem (.insertionSort arr (i + 1)))
  | .partition arr i j => do
      let pivot ← arr.last
      if j < pivot then
        let a ← arr.get mem j
        let b ← arr.get mem pivot
        if a ≤ b then
          let mem' ← arr.swap mem i j
          return .goes mem' (.partition arr (i + 1) (j + 1))
        else return .goes mem (.partition arr i (j + 1))
      else
        let mem' ← arr.swap mem i pivot
        return .goes mem' (.splitAtMut arr i)
  | .splitAtMut arr mid => if mid ≤ arr.length then some (.splits ⟨arr, mid⟩) else none

/-- `quick_sort` -/
def quickSort : Program (Nat → α) Line Halves where
  next := next
  left := fun halves => .quickSort halves.low
  right := fun halves => .quickSort halves.high

end Program

/-! ## Elements of a slice -/

variable {α : Type} [LinearOrder α] {arr : Slice} {mem mem' : Nat → α} {i j n mid : Nat}

/-- The elements by their index, whether or not it is within the bounds. -/
def Slice.at (arr : Slice) (mem : Nat → α) (i : Nat) : α := mem (arr.start + i)

omit [LinearOrder α] in
theorem Slice.get_of_lt (h : i < arr.length) : arr.get mem i = some (arr.at mem i) := if_pos h

omit [LinearOrder α] in
theorem Slice.swap_of_lt (hi : i < arr.length) (hj : j < arr.length) :
    arr.swap mem i j = some (mem ∘ Equiv.swap (arr.start + i) (arr.start + j)) := if_pos ⟨hi, hj⟩

theorem Slice.last_of_pos (h : 0 < arr.length) : arr.last = some (arr.length - 1) :=
  if_neg h.ne'

theorem Slice.mem_cells (h : i < arr.length) : arr.start + i ∈ arr.cells := by
  simp only [Slice.cells, Set.mem_Ico]
  omega

theorem Slice.exists_of_mem {cell : Nat} (h : cell ∈ arr.cells) :
    ∃ i, i < arr.length ∧ cell = arr.start + i := by
  simp only [Slice.cells, Set.mem_Ico] at h
  exact ⟨cell - arr.start, by omega, by omega⟩

omit [LinearOrder α] in
/-- A swap of two elements, read by their indices in the slice. -/
theorem Slice.at_swap (k : Nat) :
    arr.at (mem ∘ Equiv.swap (arr.start + i) (arr.start + j)) k =
      if k = i then arr.at mem j else if k = j then arr.at mem i else arr.at mem k := by
  simp only [Slice.at, Function.comp_apply, Equiv.swap_apply_def, Nat.add_left_cancel_iff]
  split
  · rfl
  · split <;> rfl

omit [LinearOrder α] in
/-- The elements within the bounds depend on the cells of the slice only. -/
theorem Slice.at_congr (h : ∀ i ∈ arr.cells, mem' i = mem i) {k : Nat} (hk : k < arr.length) :
    arr.at mem' k = arr.at mem k :=
  h _ (Slice.mem_cells hk)

/-- A slice is sorted if each of its elements is at most every later one. -/
theorem Slice.monotoneOn_cells :
    MonotoneOn mem arr.cells ↔ ∀ a b, a < b → b < arr.length → arr.at mem a ≤ arr.at mem b := by
  constructor
  · intro hMono a b hLess hLt
    exact hMono (Slice.mem_cells (by omega)) (Slice.mem_cells hLt) (by omega)
  · intro hSorted i hi j hj hLe
    obtain ⟨a, ha, rfl⟩ := Slice.exists_of_mem hi
    obtain ⟨b, hb, rfl⟩ := Slice.exists_of_mem hj
    rcases Nat.lt_or_ge a b with hLess | hGe
    · exact hSorted a b hLess hb
    · obtain rfl : a = b := by omega
      exact le_rfl

/-! ## What holds at each line -/

/-- The elements before `i` are sorted. -/
def SortedTo (arr : Slice) (mem : Nat → α) (i : Nat) : Prop :=
  ∀ a b, a < b → b < i → b < arr.length → arr.at mem a ≤ arr.at mem b

/-- The elements up to `i` are sorted but for the `n`-th, which is below those after it. -/
def Inserting (arr : Slice) (mem : Nat → α) (i n : Nat) : Prop :=
  ∀ a b, a < b → b ≤ i → b ≠ n → arr.at mem a ≤ arr.at mem b

/-- The elements before `i` are at most the pivot, those from there up to `j` above it. -/
structure Partitioned (arr : Slice) (mem : Nat → α) (i j : Nat) : Prop where
  low : ∀ k, k < i → arr.at mem k ≤ arr.at mem (arr.length - 1)
  high : ∀ k, i ≤ k → k < j → arr.at mem (arr.length - 1) < arr.at mem k

/-- Nothing before `mid` is above anything from there on. -/
def Halved (arr : Slice) (mem : Nat → α) (mid : Nat) : Prop :=
  ∀ a b, a < mid → mid ≤ b → b < arr.length → arr.at mem a ≤ arr.at mem b

def Line.slice : Line → Slice
  | .quickSort arr | .insertionSort arr _ | .insert arr _ _ | .partition arr _ _ | .splitAtMut arr _ => arr

/-- What holds at a line of the task's own slice. -/
def Line.Fits (mem : Nat → α) : Line → Prop
  | .quickSort _ => True
  | .insertionSort arr i => 1 ≤ i ∧ SortedTo arr mem i
  | .insert arr i n => n ≤ i ∧ i < arr.length ∧ Inserting arr mem i n
  | .partition arr i j => 2 ≤ arr.length ∧ i ≤ j ∧ j ≤ arr.length - 1 ∧ Partitioned arr mem i j
  | .splitAtMut arr mid => mid < arr.length ∧ Halved arr mem mid

/-- Once the element has come to its place the sorted part is longer by one. -/
theorem sortedTo_of_inserting (hInserting : Inserting arr mem i n)
    (hPlaced : n = 0 ∨ arr.at mem (n - 1) ≤ arr.at mem n) : SortedTo arr mem (i + 1) := by
  intro a b hLess hTo hLt
  by_cases hEq : b = n
  · subst hEq
    rcases hPlaced with rfl | hPlaced
    · omega
    · rcases Nat.lt_or_ge a (b - 1) with hBefore | hLast
      · exact (hInserting a (b - 1) hBefore (by omega) (by omega)).trans hPlaced
      · obtain rfl : a = b - 1 := by omega
        exact hPlaced
  · exact hInserting a b hLess (by omega) hEq

/-- A swap with the element before keeps the invariant of the `while`: the rest is
sorted and the one that moves is below what it has passed. -/
theorem inserting_swap (hPos : 0 < n) (hLe : n ≤ i) (hInserting : Inserting arr mem i n)
    (hLess : arr.at mem n < arr.at mem (n - 1)) :
    Inserting arr (mem ∘ Equiv.swap (arr.start + n) (arr.start + (n - 1))) i (n - 1) := by
  intro a b hab hb hNe
  rw [Slice.at_swap, Slice.at_swap]
  have hBefore : ∀ k, k < n → k ≠ n - 1 → arr.at mem k ≤ arr.at mem (n - 1) := fun k hk hNe =>
    hInserting k (n - 1) (by omega) (by omega) (by omega)
  rcases eq_or_ne b n with rfl | hbn
  · rw [if_pos rfl, if_neg (by omega)]
    split
    · exact hLess.le
    · next hNeA => exact hBefore a (by omega) hNeA
  · rw [if_neg hbn, if_neg hNe]
    split
    · exact hInserting (n - 1) b (by omega) hb hbn
    · split
      · exact hInserting n b (by omega) hb hbn
      · exact hInserting a b hab hb hbn

/-- A swap keeps the invariant of `partition`: the element at `j` goes to the low part,
and one of the high part takes its place. -/
theorem partitioned_swap (hij : i ≤ j) (hj : j < arr.length - 1) (part : Partitioned arr mem i j)
    (hLe : arr.at mem j ≤ arr.at mem (arr.length - 1)) :
    Partitioned arr (mem ∘ Equiv.swap (arr.start + i) (arr.start + j)) (i + 1) (j + 1) := by
  have hPivot : arr.at (mem ∘ Equiv.swap (arr.start + i) (arr.start + j)) (arr.length - 1) =
      arr.at mem (arr.length - 1) := by
    rw [Slice.at_swap, if_neg (by omega), if_neg (by omega)]
  constructor
  · intro k hk
    rw [hPivot, Slice.at_swap]
    split
    · exact hLe
    · next hNe =>
        split
        · next hEq => exact absurd hEq (by omega)
        · exact part.low k (by omega)
  · intro k hk hkj
    rw [hPivot, Slice.at_swap, if_neg (by omega)]
    split
    · exact part.high i le_rfl (by omega)
    · exact part.high k (by omega) (by omega)

/-- So does an element above the pivot, which stays where it is. -/
theorem partitioned_skip (part : Partitioned arr mem i j)
    (hLess : arr.at mem (arr.length - 1) < arr.at mem j) : Partitioned arr mem i (j + 1) := by
  refine ⟨part.low, fun k hk hkj => ?_⟩
  rcases Nat.lt_or_ge k j with hBefore | hLast
  · exact part.high k hk hBefore
  · obtain rfl : k = j := by omega
    exact hLess

/-- The pivot comes between the two halves, as the first of the high ones. -/
theorem halved_swap (hi : i ≤ arr.length - 1) (part : Partitioned arr mem i (arr.length - 1)) :
    Halved arr (mem ∘ Equiv.swap (arr.start + i) (arr.start + (arr.length - 1))) i := by
  intro a b ha hb hLt
  rw [Slice.at_swap, Slice.at_swap, if_neg (show a ≠ i by omega), if_neg (show a ≠ arr.length - 1 by omega)]
  have hLow := part.low a ha
  split
  · exact hLow
  · next hNe =>
      have hHigh := part.high i le_rfl
      split
      · exact hLow.trans (hHigh (by omega)).le
      · exact hLow.trans (part.high b hb (by omega)).le

/-! ## A bound on the steps -/

/-- Nothing in the slice is below its first element. -/
def Slice.StartsLowest (arr : Slice) (mem : Nat → α) : Prop :=
  ∀ k, k < arr.length → arr.at mem 0 ≤ arr.at mem k

instance : Decidable (arr.StartsLowest mem) := inferInstanceAs (Decidable (∀ _, _ → _))

/-- The length alone need not get less in a split: a pivot below everything else leaves all
elements in the high half, but then as the first of them. -/
def Slice.weight (arr : Slice) (mem : Nat → α) : Nat :=
  2 * arr.length + if arr.StartsLowest mem then 0 else 1

def steps (weight : Nat) : Nat := 4 ^ (weight + 2)

/-- How many steps a task may take from a line on, with all that it spawns. -/
def Line.cost (line : Line) (mem : Nat → α) : Nat :=
  match line with
  | .quickSort arr => steps (arr.weight mem)
  | .insertionSort arr i => (arr.length - i) * (arr.length + 2) + 1
  | .insert arr i n => (arr.length - (i + 1)) * (arr.length + 2) + n + 2
  | .partition arr _ j => 2 * steps (arr.weight mem - 1) + (arr.length - j) + 5
  | .splitAtMut arr mid =>
      let halves : Halves := ⟨arr, mid⟩
      steps (halves.low.weight mem) + steps (halves.high.weight mem) + 4

theorem steps_mono {w w' : Nat} (h : w ≤ w') : steps w ≤ steps w' :=
  Nat.pow_le_pow_right (by decide) (by omega)

theorem steps_succ (w : Nat) : steps (w + 1) = 4 * steps w := by
  unfold steps
  ring

/-- The weight of a slice is twice its length, or one more. -/
theorem two_mul_length_le (arr : Slice) (mem : Nat → α) : 2 * arr.length ≤ arr.weight mem := by
  unfold Slice.weight
  omega

theorem weight_le (arr : Slice) (mem : Nat → α) : arr.weight mem ≤ 2 * arr.length + 1 := by
  unfold Slice.weight
  split <;> omega

/-- The bound of a call is above what `insertion_sort` takes on its slice. -/
theorem square_lt_steps {w : Nat} (h : n ≤ w) : (n + 1) * (n + 1) < steps w := by
  have hPow : n + 1 ≤ 2 ^ n := Nat.lt_two_pow_self
  calc (n + 1) * (n + 1) ≤ 2 ^ n * 2 ^ n := Nat.mul_le_mul hPow hPow
    _ = 4 ^ n := by rw [← Nat.mul_pow]
    _ < 4 ^ (w + 2) := Nat.pow_lt_pow_right (by decide) (by omega)

theorem weight_congr (h : ∀ i ∈ arr.cells, mem' i = mem i) : arr.weight mem' = arr.weight mem := by
  have hLowest : arr.StartsLowest mem' ↔ arr.StartsLowest mem := by
    unfold Slice.StartsLowest
    refine forall_congr' fun k => imp_congr_right fun hk => ?_
    rw [Slice.at_congr h hk, Slice.at_congr h (show 0 < arr.length by omega)]
  simp only [Slice.weight, hLowest]

/-- A step of the scan keeps a lowest element at the start. -/
theorem weight_swap_le (hij : i ≤ j) (hj : j < arr.length - 1) (part : Partitioned arr mem i j)
    (hLe : arr.at mem j ≤ arr.at mem (arr.length - 1)) :
    arr.weight (mem ∘ Equiv.swap (arr.start + i) (arr.start + j)) ≤ arr.weight mem := by
  unfold Slice.weight
  by_cases hLowest : arr.StartsLowest mem
  · have hAt : ∀ k, k < arr.length →
        arr.at mem 0 ≤ arr.at (mem ∘ Equiv.swap (arr.start + i) (arr.start + j)) k := by
      intro k hk
      rw [Slice.at_swap]
      split
      · exact hLowest j (by omega)
      · split
        · exact hLowest i (by omega)
        · exact hLowest k hk
    have hFirst : arr.at (mem ∘ Equiv.swap (arr.start + i) (arr.start + j)) 0 ≤ arr.at mem 0 := by
      rw [Slice.at_swap]
      split
      · next hEq =>
          subst hEq
          rcases Nat.eq_zero_or_pos j with rfl | hPos
          · exact le_rfl
          · exact absurd (hLowest (arr.length - 1) (by omega)) (not_le.mpr (part.high 0 le_rfl hPos))
      · next hNe => rw [if_neg (by omega)]
    have hLowest' : arr.StartsLowest (mem ∘ Equiv.swap (arr.start + i) (arr.start + j)) :=
      fun k hk => hFirst.trans (hAt k hk)
    rw [if_pos hLowest, if_pos hLowest']
  · rw [if_neg hLowest]
    split <;> omega

/-- Each half of a split weighs less than the slice did before the pivot was placed. -/
theorem weight_halves (hLength : 2 ≤ arr.length) (hi : i ≤ arr.length - 1)
    (part : Partitioned arr mem i (arr.length - 1)) {halves : Halves} (hHalves : halves = ⟨arr, i⟩) :
    halves.low.weight (mem ∘ Equiv.swap (arr.start + i) (arr.start + (arr.length - 1))) ≤
        arr.weight mem - 1 ∧
      halves.high.weight (mem ∘ Equiv.swap (arr.start + i) (arr.start + (arr.length - 1))) ≤
        arr.weight mem - 1 := by
  subst hHalves
  have hParent := two_mul_length_le arr mem
  constructor
  · have hLow := weight_le (Halves.low ⟨arr, i⟩)
      (mem ∘ Equiv.swap (arr.start + i) (arr.start + (arr.length - 1)))
    simp only [Halves.low] at hLow ⊢
    omega
  · rcases Nat.eq_zero_or_pos i with rfl | hPos
    · -- Nothing but the pivot is at most the pivot.
      have hNot : ¬arr.StartsLowest mem := fun hLowest =>
        absurd (hLowest (arr.length - 1) (by omega)) (not_le.mpr (part.high 0 le_rfl (by omega)))
      have hLowest : (Halves.high ⟨arr, 0⟩).StartsLowest
          (mem ∘ Equiv.swap (arr.start + 0) (arr.start + (arr.length - 1))) := by
        intro k hk
        change arr.at _ 0 ≤ arr.at _ k
        rw [Slice.at_swap, Slice.at_swap, if_pos rfl]
        split
        · exact le_rfl
        · split
          · exact (part.high 0 le_rfl (by omega)).le
          · exact (part.high k (Nat.zero_le k) (by simp [Halves.high] at hk; omega)).le
      rw [Slice.weight, if_pos hLowest, Slice.weight, if_neg hNot]
      simp [Halves.high]
    · have hHigh := weight_le (Halves.high ⟨arr, i⟩)
        (mem ∘ Equiv.swap (arr.start + i) (arr.start + (arr.length - 1)))
      simp only [Halves.high] at hHigh ⊢
      omega

/-! ## Every order of the steps sorts -/

omit [LinearOrder α] in
theorem rearranges_swap (hi : i < arr.length) (hj : j < arr.length) :
    Rearranges arr.cells mem (mem ∘ Equiv.swap (arr.start + i) (arr.start + j)) :=
  .swap mem (Slice.mem_cells hi) (Slice.mem_cells hj)

/-- What a line does when its assertion holds: it goes on, keeps the assertion and comes
closer to the end, hands on the two halves, or has sorted its slice. -/
inductive Steps (arr : Slice) (line : Line) (mem : Nat → α) :
    Option (Next (Nat → α) Line Halves) → Prop where
  | goes (mem' : Nat → α) (line' : Line) (changes : Rearranges arr.cells mem mem')
      (slice : line'.slice = arr) (fits : line'.Fits mem') (cost : line'.cost mem' < line.cost mem) :
      Steps arr line mem (some (.goes mem' line'))
  | splits (mid : Nat) (bound : mid ≤ arr.length) (halved : Halved arr mem mid)
      (cost : (Line.quickSort (Halves.low ⟨arr, mid⟩)).cost mem +
        (Line.quickSort (Halves.high ⟨arr, mid⟩)).cost mem + 3 < line.cost mem) :
      Steps arr line mem (some (.splits ⟨arr, mid⟩))
  | ends (sorted : MonotoneOn mem arr.cells) (cost : 0 < line.cost mem) :
      Steps arr line mem (some .ends)

/-- A call goes on to `insertion_sort` or `partition`, and to fewer steps than it has. -/
theorem next_quickSort : Steps arr (.quickSort arr) mem (next mem (.quickSort arr)) := by
  have hWeight := two_mul_length_le arr mem
  rw [next]
  split
  · refine .goes _ _ (.refl _ _) rfl ⟨le_rfl, fun a b hLess hTo _ => absurd hLess (by omega)⟩ ?_
    have hBound := square_lt_steps (n := arr.length) (w := arr.weight mem) (by omega)
    simp only [Line.cost]
    nlinarith [Nat.mul_le_mul_right (arr.length + 2) (Nat.sub_le arr.length 1)]
  · refine .goes _ _ (.refl _ _) rfl ⟨by omega, le_rfl, Nat.zero_le _, ?_, ?_⟩ ?_
    · exact fun k hk => absurd hk (Nat.not_lt_zero k)
    · exact fun k _ hk => absurd hk (Nat.not_lt_zero k)
    · have hBound := square_lt_steps (n := arr.length) (w := arr.weight mem - 1) (by omega)
      have hSteps : steps (arr.weight mem) = 4 * steps (arr.weight mem - 1) := by
        rw [← steps_succ, Nat.sub_add_cancel (by omega)]
      have hLinear : arr.length + 1 ≤ (arr.length + 1) * (arr.length + 1) := Nat.le_mul_self _
      simp only [Line.cost, hSteps]
      omega

/-- The `for` of `insertion_sort`. At its end the whole slice is sorted. -/
theorem next_insertionSort (h : (Line.insertionSort arr i).Fits mem) :
    Steps arr (.insertionSort arr i) mem (next mem (.insertionSort arr i)) := by
  obtain ⟨hOne, hSorted⟩ := h
  rw [next]
  split
  · next hLt =>
      refine .goes _ _ (.refl _ _) rfl ⟨le_rfl, hLt, fun a b hab hb hNe => ?_⟩ ?_
      · exact hSorted a b hab (by omega) (by omega)
      · have hLeft : arr.length - i = arr.length - (i + 1) + 1 := by omega
        simp only [Line.cost, hLeft]
        nlinarith
  · next hEnd =>
      refine .ends (Slice.monotoneOn_cells.mpr fun a b hab hb => ?_) (Nat.succ_pos _)
      exact hSorted a b hab (by omega) hb

/-- Its `while`. The indices are in bounds, so neither the comparison nor the swap
panics. -/
theorem next_insert (h : (Line.insert arr i n).Fits mem) :
    Steps arr (.insert arr i n) mem (next mem (.insert arr i n)) := by
  obtain ⟨hLe, hLt, hInserting⟩ := h
  have hOn (hPlaced : n = 0 ∨ arr.at mem (n - 1) ≤ arr.at mem n) :
      Steps arr (.insert arr i n) mem (some (.goes mem (.insertionSort arr (i + 1)))) := by
    refine .goes _ _ (.refl _ _) rfl ⟨by omega, sortedTo_of_inserting hInserting hPlaced⟩ ?_
    simp only [Line.cost]
    omega
  rw [next]
  split
  · next hPos =>
      rw [Slice.get_of_lt (show n < arr.length by omega),
        Slice.get_of_lt (show n - 1 < arr.length by omega)]
      simp only [Option.bind_eq_bind, Option.bind_some]
      split
      · next hLess =>
          rw [Slice.swap_of_lt (by omega) (by omega)]
          refine .goes _ _ (rearranges_swap (by omega) (by omega)) rfl
            ⟨by omega, hLt, inserting_swap hPos hLe hInserting hLess⟩ ?_
          simp only [Line.cost]
          omega
      · next hPlaced => exact hOn (.inr (not_lt.mp hPlaced))
  · next hZero => exact hOn (.inl (by omega))

/-- The `for` of `partition`. When it is over the pivot is swapped to its place, and the
split there makes the weight of both halves less. -/
theorem next_partition (h : (Line.partition arr i j).Fits mem) :
    Steps arr (.partition arr i j) mem (next mem (.partition arr i j)) := by
  obtain ⟨hLength, hij, hj, part⟩ := h
  rw [next, Slice.last_of_pos (by omega)]
  simp only [Option.bind_eq_bind, Option.bind_some]
  split
  · next hLess =>
      rw [Slice.get_of_lt (show j < arr.length by omega),
        Slice.get_of_lt (show arr.length - 1 < arr.length by omega)]
      simp only [Option.bind_some]
      split
      · next hLe =>
          rw [Slice.swap_of_lt (by omega) (by omega)]
          refine .goes _ _ (rearranges_swap (by omega) (by omega)) rfl
            ⟨hLength, by omega, by omega, partitioned_swap hij hLess part hLe⟩ ?_
          have hSteps := steps_mono (Nat.sub_le_sub_right (weight_swap_le hij hLess part hLe) 1)
          simp only [Line.cost]
          omega
      · next hAbove =>
          refine .goes _ _ (.refl _ _) rfl
            ⟨hLength, by omega, by omega, partitioned_skip part (not_le.mp hAbove)⟩ ?_
          simp only [Line.cost]
          omega
  · next hEnd =>
      obtain rfl : j = arr.length - 1 := by omega
      rw [Slice.swap_of_lt (by omega) (by omega)]
      refine .goes _ _ (rearranges_swap (by omega) (by omega)) rfl
        ⟨by omega, halved_swap hij part⟩ ?_
      obtain ⟨hLow, hHigh⟩ := weight_halves hLength hij part rfl
      have hStepsLow := steps_mono hLow
      have hStepsHigh := steps_mono hHigh
      simp only [Line.cost]
      omega

/-- The split is within the bounds, and the tasks of the halves have steps enough. -/
theorem next_splitAtMut (h : (Line.splitAtMut arr mid).Fits mem) :
    Steps arr (.splitAtMut arr mid) mem (next mem (.splitAtMut arr mid)) := by
  obtain ⟨hLt, hHalved⟩ := h
  rw [next, if_pos hLt.le]
  exact .splits mid hLt.le hHalved (Nat.lt_succ_self _)

/-- At every line whose assertion holds the next step does not panic, keeps the
assertion and comes closer to the end. -/
theorem steps_of_fits {line : Line} (h : line.Fits mem) : Steps line.slice line mem (next mem line) := by
  cases line with
  | quickSort arr => exact next_quickSort
  | insertionSort arr i => exact next_insertionSort h
  | insert arr i n => exact next_insert h
  | partition arr i j => exact next_partition h
  | splitAtMut arr mid => exact next_splitAtMut h

omit [LinearOrder α] in
theorem halves_at (hMid : mid ≤ arr.length) (cell : Nat) :
    cell ∈ arr.cells ↔ cell ∈ (Halves.low ⟨arr, mid⟩).cells ∨ cell ∈ (Halves.high ⟨arr, mid⟩).cells := by
  simp only [Slice.cells, Halves.low, Halves.high, Set.mem_Ico]
  omega

theorem low_subset (hMid : mid ≤ arr.length) : (Halves.low ⟨arr, mid⟩).cells ⊆ arr.cells :=
  fun cell hCell => (halves_at hMid cell).mpr (.inl hCell)

theorem high_subset (hMid : mid ≤ arr.length) : (Halves.high ⟨arr, mid⟩).cells ⊆ arr.cells :=
  fun cell hCell => (halves_at hMid cell).mpr (.inr hCell)

/-- The cells of the low half come before those of the high half. -/
theorem low_below_high {low high : Nat} (hLow : low ∈ (Halves.low ⟨arr, mid⟩).cells)
    (hHigh : high ∈ (Halves.high ⟨arr, mid⟩).cells) : low < high := by
  simp only [Slice.cells, Halves.low, Halves.high, Set.mem_Ico] at hLow hHigh
  omega

theorem halves_disjoint :
    ∀ i ∈ (Halves.low ⟨arr, mid⟩).cells, i ∉ (Halves.high ⟨arr, mid⟩).cells :=
  fun _ hLow hHigh => absurd (low_below_high hLow hHigh) (lt_irrefl _)

/-- In terms of the cells. -/
theorem halved_iff (hMid : mid ≤ arr.length) : Halved arr mem mid ↔
    ∀ low ∈ (Halves.low ⟨arr, mid⟩).cells, ∀ high ∈ (Halves.high ⟨arr, mid⟩).cells,
      mem low ≤ mem high := by
  constructor
  · intro hHalved low hLow high hHigh
    obtain ⟨a, ha, rfl⟩ := Slice.exists_of_mem hLow
    obtain ⟨b, hb, rfl⟩ := Slice.exists_of_mem hHigh
    have hBelow := hHalved a (mid + b) ha (Nat.le_add_right mid b) (by simp [Halves.high] at hb; omega)
    simpa [Slice.at, Halves.low, Halves.high, Nat.add_assoc] using hBelow
  · intro hCells a b ha hb hLt
    refine hCells _ ?_ _ ?_
    · simp only [Slice.cells, Halves.low, Set.mem_Ico]
      omega
    · simp only [Slice.cells, Halves.high, Set.mem_Ico]
      omega

/-- The tasks for the halves leave each element in its half. -/
theorem halved_of_changes (hMid : mid ≤ arr.length) (hHalved : Halved arr mem mid)
    (hChanges : Rearranges (Halves.low ⟨arr, mid⟩).cells mem mem' ∨
      Rearranges (Halves.high ⟨arr, mid⟩).cells mem mem') : Halved arr mem' mid := by
  rw [halved_iff hMid] at hHalved ⊢
  intro low hLow high hHigh
  rcases hChanges with hChanges | hChanges
  · rw [hChanges.outside fun hLow => halves_disjoint high hLow hHigh]
    exact hChanges.forall_mem (p := fun a => a ≤ mem high)
      (fun cell hCell => hHalved cell hCell high hHigh) low hLow
  · rw [hChanges.outside (halves_disjoint low hLow)]
    exact hChanges.forall_mem (p := fun a => mem low ≤ a)
      (fun cell hCell => hHalved low hLow cell hCell) high hHigh

/-- Two sorted halves make a sorted slice, where nothing in the low half is above
anything in the high half. -/
theorem monotoneOn_of_halves (hMid : mid ≤ arr.length) (hHalved : Halved arr mem mid)
    (hLow : MonotoneOn mem (Halves.low ⟨arr, mid⟩).cells)
    (hHigh : MonotoneOn mem (Halves.high ⟨arr, mid⟩).cells) : MonotoneOn mem arr.cells := by
  have hUnion : MonotoneOn mem
      ((Halves.low ⟨arr, mid⟩).cells ∪ (Halves.high ⟨arr, mid⟩).cells) :=
    monotoneOn_union hLow hHigh (fun _ hLow _ hHigh => not_le.mpr (low_below_high hLow hHigh))
      ((halved_iff hMid).mp hHalved)
  exact hUnion.mono fun cell hCell => (halves_at hMid cell).mp hCell

/-- An assertion is about the elements of the slice only, and so is the bound. -/
theorem fits_congr {line : Line} (hSame : ∀ i ∈ line.slice.cells, mem' i = mem i)
    (h : line.Fits mem) : line.Fits mem' ∧ line.cost mem' = line.cost mem := by
  cases line with
  | quickSort arr => exact ⟨trivial, congrArg steps (weight_congr hSame)⟩
  | insertionSort arr i =>
      change ∀ i ∈ arr.cells, mem' i = mem i at hSame
      refine ⟨⟨h.1, fun a b hab hb hLt => ?_⟩, rfl⟩
      rw [Slice.at_congr hSame (hab.trans hLt), Slice.at_congr hSame hLt]
      exact h.2 a b hab hb hLt
  | insert arr i n =>
      change ∀ i ∈ arr.cells, mem' i = mem i at hSame
      obtain ⟨hLe, hLt, hInserting⟩ := h
      refine ⟨⟨hLe, hLt, fun a b hab hb hNe => ?_⟩, rfl⟩
      rw [Slice.at_congr hSame (show a < arr.length by omega),
        Slice.at_congr hSame (show b < arr.length by omega)]
      exact hInserting a b hab hb hNe
  | partition arr i j =>
      change ∀ i ∈ arr.cells, mem' i = mem i at hSame
      obtain ⟨hLength, hij, hj, part⟩ := h
      have hPivot : arr.at mem' (arr.length - 1) = arr.at mem (arr.length - 1) :=
        Slice.at_congr hSame (by omega)
      have hWeight : arr.weight mem' = arr.weight mem := weight_congr hSame
      refine ⟨⟨hLength, hij, hj, fun k hk => ?_, fun k hk hkj => ?_⟩, ?_⟩
      · rw [hPivot, Slice.at_congr hSame (show k < arr.length by omega)]
        exact part.low k hk
      · rw [hPivot, Slice.at_congr hSame (show k < arr.length by omega)]
        exact part.high k hk hkj
      · rw [Line.cost, Line.cost, hWeight]
  | splitAtMut arr mid =>
      change ∀ i ∈ arr.cells, mem' i = mem i at hSame
      obtain ⟨hLt, hHalved⟩ := h
      have hLow : (Halves.low ⟨arr, mid⟩).weight mem' = (Halves.low ⟨arr, mid⟩).weight mem :=
        weight_congr fun i hi => hSame i (low_subset hLt.le hi)
      have hHigh : (Halves.high ⟨arr, mid⟩).weight mem' = (Halves.high ⟨arr, mid⟩).weight mem :=
        weight_congr fun i hi => hSame i (high_subset hLt.le hi)
      refine ⟨⟨hLt, fun a b ha hb hLt => ?_⟩, ?_⟩
      · rw [Slice.at_congr hSame (show a < arr.length by omega), Slice.at_congr hSame hLt]
        exact hHalved a b ha hb hLt
      · simp only [Line.cost, hLow, hHigh]

/-- A task owns its slice, and hands on its two halves. -/
def outline : Outline (quickSort : Program (Nat → α) Line Halves) where
  Changes := Rearranges
  At := fun cells line mem => cells = line.slice.cells ∧ line.Fits mem
  Split := fun cells halves left right mem => cells = halves.arr.cells ∧
    halves.mid ≤ halves.arr.length ∧ left = halves.low.cells ∧ right = halves.high.cells ∧
    Halved halves.arr mem halves.mid
  Post := fun cells mem => MonotoneOn mem cells
  cost := Line.cost
  changes_refl := fun cells mem => .refl cells mem
  changes_trans := fun _ _ _ _ first second => first.trans second
  changes_mono := fun _ _ _ _ hCells h => h.mono hCells
  changes_outside := fun _ _ _ h _ hi => h.outside hi
  at_congr := by
    rintro cells line mem mem' hSame ⟨rfl, hFits⟩
    obtain ⟨hFits', hCost⟩ := fits_congr hSame hFits
    exact ⟨⟨rfl, hFits'⟩, hCost⟩
  split_congr := by
    rintro cells halves left right mem mem' hSame ⟨rfl, hMid, rfl, rfl, hHalved⟩
    refine ⟨rfl, hMid, rfl, rfl, fun a b ha hb hLt => ?_⟩
    rw [Slice.at_congr hSame (show a < halves.arr.length by omega), Slice.at_congr hSame hLt]
    exact hHalved a b ha hb hLt
  post_congr := fun cells mem mem' hSame hMono i hi j hj hLe => by
    rw [hSame i hi, hSame j hj]
    exact hMono hi hj hLe
  split_cells := by
    rintro cells halves left right mem ⟨rfl, hMid, rfl, rfl, -⟩
    exact ⟨low_subset hMid, high_subset hMid, halves_disjoint⟩
  split_changes := by
    rintro cells halves left right mem mem' ⟨rfl, hMid, rfl, rfl, hHalved⟩ hChanges
    exact ⟨rfl, hMid, rfl, rfl, halved_of_changes hMid hHalved hChanges⟩
  goes := by
    rintro cells line mem mem' line' ⟨rfl, hFits⟩ hNext
    have hSteps := steps_of_fits hFits
    rw [show next mem line = _ from hNext] at hSteps
    cases hSteps with
    | goes _ _ changes slice fits cost => exact ⟨changes, ⟨by rw [slice], fits⟩, cost⟩
  splits := by
    rintro cells line mem halves ⟨rfl, hFits⟩ hNext
    have hSteps := steps_of_fits hFits
    rw [show next mem line = _ from hNext] at hSteps
    cases hSteps with
    | splits mid bound halved cost =>
        exact ⟨_, _, ⟨rfl, bound, rfl, rfl, halved⟩, ⟨rfl, trivial⟩, ⟨rfl, trivial⟩, cost⟩
  ends := by
    rintro cells line mem ⟨rfl, hFits⟩ hNext
    have hSteps := steps_of_fits hFits
    rw [show next mem line = _ from hNext] at hSteps
    cases hSteps with
    | ends sorted cost => exact ⟨sorted, cost⟩
  runs := by
    rintro cells line mem ⟨rfl, hFits⟩ hNext
    have hSteps := steps_of_fits hFits
    rw [show next mem line = _ from hNext] at hSteps
    cases hSteps
  joins := by
    rintro cells halves left right mem ⟨rfl, hMid, rfl, rfl, hHalved⟩ hLow hHigh
    exact monotoneOn_of_halves hMid hHalved hLow hHigh

/-- Whatever the order in which the tasks take their steps, none of them panics, they stay
within the slice, and one can go on until it is sorted. The first line bounds the steps. -/
theorem quickSort_sorts (arr : Slice) (mem : Nat → α)
    {steps : List (((Nat → α) × Tasks Line Halves) × List Bool)} {s : (Nat → α) × Tasks Line Halves}
    (run : (system quickSort mem (.quickSort arr)).Run steps s) :
    Rearranges arr.cells mem s.1 ∧ ¬s.2.Panics ∧
      steps.length ≤ (Line.quickSort arr).cost mem ∧
      (s.2 = .done → MonotoneOn s.1 arr.cells) ∧
      (s.2 ≠ .done → ∃ path t, (system quickSort mem (.quickSort arr)).next s path = some t) := by
  have start : outline.At arr.cells (.quickSort arr) mem := ⟨rfl, trivial⟩
  obtain ⟨hChanges, holds, hSteps⟩ := outline.holds_of_run start run
  refine ⟨hChanges, holds.not_panics, (Nat.le_add_right _ _).trans hSteps, ?_, holds.enabled⟩
  intro hDone
  rw [hDone] at holds
  exact holds

/-- The lowest element comes last, so the first split leaves its low half empty. -/
def lowestLast (i : Nat) : Nat := if i < 32 then i + 2 else 1

/-- The tasks of a slice that is split twice, with the second pair of tasks at work before
the first task awaits its left half. -/
def splitTwice : List (List Bool) :=
  List.replicate 35 [] ++ [[false], [], [true], [false]] ++ List.replicate 34 [true] ++
    [[true, false], [true], [true, false]] ++ List.replicate 94 [true, true] ++
    [[true], [true], [], []]

/-- A slice of 33 elements with the lowest one last. The first split leaves its low half
empty and the second task sorts the rest. -/
theorem quickSort_sorts_lowestLast :
    ∃ steps s, (system quickSort lowestLast (.quickSort ⟨0, 33⟩)).Run steps s ∧ s.2 = .done ∧
      Rearranges (Slice.cells ⟨0, 33⟩) lowestLast s.1 ∧ MonotoneOn s.1 (Slice.cells ⟨0, 33⟩) := by
  obtain ⟨s, run, hDone⟩ := Machine.System.exists_run_of_replay
    (system quickSort lowestLast (.quickSort ⟨0, 33⟩)) splitTwice Prod.snd .done (by decide +kernel)
  have hSorts := quickSort_sorts ⟨0, 33⟩ lowestLast run
  exact ⟨_, s, run, hDone, hSorts.1, hSorts.2.2.2.1 hDone⟩

end Yaar.Examples.QuickSort
