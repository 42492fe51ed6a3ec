import Mathlib.Data.List.Basic
import Mathlib.Data.List.Perm.Basic

/-! Removal from a vector that fills the gap with the last element. -/
namespace Yaar

variable {α : Type*}

/-- `swap_remove` of a vector. -/
def swapRemove (l : List α) (index : Nat) : List α :=
  match l.getLast? with
  | none => []
  | some last => (l.set index last).dropLast

/-- The element that is removed and the rest make up the list, wherever the element is. -/
theorem swapRemove_append_perm (before after : List α) (a : α) :
    (a :: swapRemove (before ++ a :: after) before.length).Perm (before ++ a :: after) := by
  rcases List.eq_nil_or_concat' after with rfl | ⟨middle, last, rfl⟩
  · simpa [swapRemove] using (List.perm_append_singleton a before).symm
  · have hAppend : before ++ a :: (middle ++ [last]) = (before ++ a :: middle) ++ [last] := by simp
    have hSet : (before ++ a :: (middle ++ [last])).set before.length last =
        (before ++ last :: middle) ++ [last] := by simp
    have hLast : (before ++ a :: (middle ++ [last])).getLast? = some last := by
      rw [hAppend, List.getLast?_concat]
    simp only [swapRemove, hLast, hSet, List.dropLast_concat]
    have hMove : (last :: middle).Perm (middle ++ [last]) :=
      (List.perm_append_singleton last middle).symm
    exact List.perm_middle.symm.trans ((hMove.cons a).append_left before)

theorem swapRemove_cons_perm (a : α) (l : List α) : (a :: swapRemove (a :: l) 0).Perm (a :: l) :=
  swapRemove_append_perm [] l a

theorem swapRemove_idxOf_perm [DecidableEq α] {l : List α} {a : α} (h : a ∈ l) :
    (a :: swapRemove l (l.idxOf a)).Perm l := by
  obtain ⟨before, after, rfl, hBefore⟩ := List.eq_append_cons_of_mem h
  have hIndex : (before ++ a :: after).idxOf a = before.length := by
    rw [List.idxOf_append_of_notMem hBefore]
    simp
  rw [hIndex]
  exact swapRemove_append_perm before after a

/-- Take an element out of a vector that has it. -/
theorem count_swapRemove_idxOf [DecidableEq α] {l : List α} {a : α} (h : a ∈ l) (b : α) :
    (swapRemove l (l.idxOf a)).count b + (if a = b then 1 else 0) = l.count b := by
  rw [← (swapRemove_idxOf_perm h).count_eq b, List.count_cons]
  simp

theorem count_swapRemove_cons [DecidableEq α] (a : α) (l : List α) (b : α) :
    (swapRemove (a :: l) 0).count b + (if a = b then 1 else 0) = (a :: l).count b := by
  rw [← (swapRemove_cons_perm a l).count_eq b, List.count_cons]
  simp

end Yaar
