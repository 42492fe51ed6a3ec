import Mathlib.Data.List.Rotate

/-! Turns that are taken in a fixed order, lap after lap. -/
namespace Laps

variable {α : Type*}

/-- So many turns, where whoever has had one goes to the end. -/
def turns : Nat → List α → List α
  | 0, _ => []
  | _, [] => []
  | count + 1, a :: order => a :: turns count (order ++ [a])

theorem turns_length {order : List α} (h : order ≠ []) (count : Nat) :
    (turns count order).length = count := by
  induction count generalizing order with
  | zero => rfl
  | succ count ih =>
      cases order with
      | nil => exact absurd rfl h
      | cons a order => simp [turns, ih]

/-- The first turns, up to a lap, are in the order of the beginning. -/
theorem take_turns {k count : Nat} {order : List α} (hLap : k ≤ order.length) (hCount : k ≤ count) :
    (turns count order).take k = order.take k := by
  induction k generalizing count order with
  | zero => rfl
  | succ k ih =>
      obtain ⟨count, rfl⟩ : ∃ c, count = c + 1 := ⟨count - 1, by omega⟩
      cases order with
      | nil => simp at hLap
      | cons a order =>
          have hShort : k ≤ order.length := by simpa using hLap
          rw [turns, List.take_succ_cons, List.take_succ_cons,
            ih (by simp; omega) (by omega), List.take_append_of_le_length hShort]

theorem drop_turns (i : Nat) {count : Nat} (order : List α) :
    (turns (i + count) order).drop i = turns count (order.rotate i) := by
  induction i generalizing order with
  | zero => simp
  | succ i ih =>
      cases order with
      | nil => cases count <;> simp [turns]
      | cons a order =>
          rw [show i + 1 + count = (i + count) + 1 by omega, turns, List.drop_succ_cons, ih,
            List.rotate_cons_succ]

/-- Any turns as many as there are takers make up a lap. -/
theorem window_perm {i count : Nat} {order : List α} (h : i + order.length ≤ count) :
    (((turns count order).drop i).take order.length).Perm order := by
  obtain ⟨rest, rfl⟩ : ∃ rest, count = i + rest := ⟨count - i, by omega⟩
  have hWindow : ((turns (i + rest) order).drop i).take order.length = order.rotate i := by
    rw [drop_turns, take_turns (by simp) (by omega), List.take_of_length_le (by simp)]
  rw [hWindow]
  exact List.rotate_perm order i

end Laps
