import Mathlib.Data.BitVec
import Mathlib.Logic.Function.Basic

/-! Words combined with a shift of themselves, at any width. -/
namespace XorShift

variable {w : Nat}

/-- `x ^ (x << k)` -/
def left (k : Nat) (x : BitVec w) : BitVec w := x ^^^ (x <<< k)

/-- `x ^ (x >> k)` -/
def right (k : Nat) (x : BitVec w) : BitVec w := x ^^^ (x >>> k)

theorem left_zero (k : Nat) : left k (0 : BitVec w) = 0 := by simp [left]

theorem right_zero (k : Nat) : right k (0 : BitVec w) = 0 := by simp [right]

/-- The bits below the shift are those of the word. -/
theorem getLsbD_left (k : Nat) (x : BitVec w) {i : Nat} (h : i < w) :
    (left k x).getLsbD i = (x.getLsbD i ^^ (decide (k ≤ i) && x.getLsbD (i - k))) := by
  simp only [left, BitVec.getLsbD_xor, BitVec.getLsbD_shiftLeft]
  by_cases hLe : k ≤ i
  · simp [h, hLe, Nat.not_lt.mpr hLe]
  · simp [h, hLe, Nat.lt_of_not_le hLe]

/-- A bit of the shift-xor depends on the same bit and on one further up. -/
theorem getLsbD_right (k : Nat) (x : BitVec w) (i : Nat) :
    (right k x).getLsbD i = (x.getLsbD i ^^ x.getLsbD (k + i)) := by
  simp only [right, BitVec.getLsbD_xor, BitVec.getLsbD_ushiftRight]

/-- Each bit is determined by the result and the bits below it. -/
theorem left_injective {k : Nat} (h : 0 < k) : Function.Injective (left k : BitVec w → BitVec w) := by
  intro x y hEq
  apply BitVec.eq_of_getLsbD_eq
  intro i
  induction i using Nat.strong_induction_on with
  | h i ih =>
      intro hi
      have hBit : (left k x).getLsbD i = (left k y).getLsbD i := by rw [hEq]
      rw [getLsbD_left k x hi, getLsbD_left k y hi] at hBit
      by_cases hLe : k ≤ i
      · have hBelow : x.getLsbD (i - k) = y.getLsbD (i - k) := ih (i - k) (by omega) (by omega)
        simpa [hLe, hBelow] using hBit
      · simpa [hLe] using hBit

/-- Each bit is determined by the result and the bits above it. -/
theorem right_injective {k : Nat} (h : 0 < k) : Function.Injective (right k : BitVec w → BitVec w) := by
  intro x y hEq
  have hBits : ∀ d i, w ≤ i + d → x.getLsbD i = y.getLsbD i := by
    intro d
    induction d with
    | zero =>
        intro i hi
        rw [BitVec.getLsbD_of_ge x i (by omega), BitVec.getLsbD_of_ge y i (by omega)]
    | succ d ih =>
        intro i hi
        have hBit : (right k x).getLsbD i = (right k y).getLsbD i := by rw [hEq]
        have hAbove : x.getLsbD (k + i) = y.getLsbD (k + i) := ih (k + i) (by omega)
        simpa [getLsbD_right, hAbove] using hBit
  apply BitVec.eq_of_getLsbD_eq
  intro i _
  exact hBits w i (by omega)

/-- An injective step that keeps zero makes no other word zero. -/
theorem ne_zero_of_injective {f : BitVec w → BitVec w} (h : Function.Injective f) (hZero : f 0 = 0)
    {x : BitVec w} (hx : x ≠ 0) : f x ≠ 0 := by
  intro hEq
  apply hx
  apply h
  rw [hEq, hZero]

end XorShift
