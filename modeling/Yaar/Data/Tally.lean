import Mathlib.Algebra.Group.Action.Defs
import Mathlib.Algebra.BigOperators.Group.Finset.Piecewise
import Mathlib.Algebra.Order.BigOperators.Group.Finset

/-! Sums over the parties of a system when one party changes. -/
namespace Tally

variable {T α : Type*} [Fintype T] [DecidableEq T]

/-- What all parties have of something together. -/
def total (f : α → Nat) (g : T → α) : Nat := ∑ t, f (g t)

omit [DecidableEq T] in
theorem total_add (f f' : α → Nat) (g : T → α) :
    total (fun a => f a + f' a) g = total f g + total f' g :=
  Finset.sum_add_distrib

omit [DecidableEq T] in
theorem total_sum {ι : Type*} (f : ι → α → Nat) (g : T → α) (indices : Finset ι) :
    total (fun a => ∑ i ∈ indices, f i a) g = ∑ i ∈ indices, total (f i) g :=
  Finset.sum_comm

omit [DecidableEq T] in
theorem total_mono {f f' : α → Nat} {g : T → α} (h : ∀ t, f (g t) ≤ f' (g t)) :
    total f g ≤ total f' g :=
  Finset.sum_le_sum fun t _ => h t

omit [DecidableEq T] in
theorem total_le {f : α → Nat} {g : T → α} {n : Nat} (h : ∀ t, f (g t) ≤ n) :
    total f g ≤ n * Fintype.card T := by
  have hSum := Finset.sum_le_card_nsmul Finset.univ (fun t => f (g t)) n fun t _ => h t
  rwa [Finset.card_univ, smul_eq_mul, Nat.mul_comm] at hSum

/-- Of things there is one or none of, count the ones and the others. -/
theorem sum_add_card_zero {ι : Type*} (f : ι → Nat) (indices : Finset ι)
    (h : ∀ i ∈ indices, f i ≤ 1) :
    ∑ i ∈ indices, f i + (indices.filter (f · = 0)).card = indices.card := by
  rw [Finset.card_eq_sum_ones, Finset.card_eq_sum_ones, Finset.sum_filter, ← Finset.sum_add_distrib]
  refine Finset.sum_congr rfl fun i hi => ?_
  have hLe := h i hi
  split <;> omega

/-- What all have together, when one party has something else: its old share goes and
its new one comes. -/
theorem total_update (f : α → Nat) (g : T → α) (t : T) (a : α) :
    f (g t) + total f (Function.update g t a) = f a + total f g := by
  unfold total
  rw [← Finset.add_sum_erase _ _ (Finset.mem_univ t),
    ← Finset.add_sum_erase _ (fun u => f (g u)) (Finset.mem_univ t)]
  have hRest : ∑ u ∈ Finset.univ.erase t, f (Function.update g t a u) =
      ∑ u ∈ Finset.univ.erase t, f (g u) :=
    Finset.sum_congr rfl fun u hu => by rw [Function.update_of_ne (Finset.ne_of_mem_erase hu)]
  rw [hRest, Function.update_self]
  omega

omit [DecidableEq T] in
theorem le_total (f : α → Nat) (g : T → α) (t : T) : f (g t) ≤ total f g :=
  Finset.single_le_sum (f := fun u => f (g u)) (fun _ _ => Nat.zero_le _) (Finset.mem_univ t)

/-- Two parties have no more together than all of them. -/
theorem add_le_total (f : α → Nat) (g : T → α) {t u : T} (hNe : t ≠ u) :
    f (g t) + f (g u) ≤ total f g := by
  unfold total
  rw [← Finset.add_sum_erase _ _ (Finset.mem_univ t)]
  have hMem : u ∈ Finset.univ.erase t := Finset.mem_erase.mpr ⟨hNe.symm, Finset.mem_univ u⟩
  exact Nat.add_le_add_left
    (Finset.single_le_sum (f := fun v => f (g v)) (fun _ _ => Nat.zero_le _) hMem) _

omit [DecidableEq T] in
/-- Some party has what all of them have together. -/
theorem exists_of_total_pos {f : α → Nat} {g : T → α} (h : 0 < total f g) :
    ∃ t, 0 < f (g t) := by
  by_contra hNone
  push Not at hNone
  exact h.ne' (Finset.sum_eq_zero fun t _ => Nat.le_zero.mp (hNone t))

end Tally
