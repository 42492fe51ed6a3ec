import Mathlib.Algebra.Group.End
import Mathlib.Data.List.Nodup
import Mathlib.Logic.Equiv.Basic
import Mathlib.Order.Interval.Set.Basic

/-! Memories whose cells are rearranged in place. -/
namespace Memory

variable {ι α : Type*} {cells cells' : Set ι} {mem mem' mem'' : ι → α}

/-- The second memory holds what the first one does, with some of the cells in another
order. -/
def Rearranges (cells : Set ι) (mem mem' : ι → α) : Prop :=
  ∃ σ : Equiv.Perm ι, (∀ i, i ∉ cells → σ i = i) ∧ mem' = mem ∘ σ

namespace Rearranges

/-- A permutation that fixes everything else permutes the cells. -/
theorem mem_iff {σ : Equiv.Perm ι} (h : ∀ i, i ∉ cells → σ i = i) (i : ι) :
    σ i ∈ cells ↔ i ∈ cells := by
  constructor
  · intro hIn
    by_contra hOut
    rw [h i hOut] at hIn
    exact hOut hIn
  · intro hIn
    by_contra hOut
    rw [σ.injective (h (σ i) hOut)] at hOut
    exact hOut hIn

theorem refl (cells : Set ι) (mem : ι → α) : Rearranges cells mem mem :=
  ⟨1, fun _ _ => rfl, rfl⟩

theorem trans (first : Rearranges cells mem mem') (second : Rearranges cells mem' mem'') :
    Rearranges cells mem mem'' := by
  obtain ⟨σ, hFirst, rfl⟩ := first
  obtain ⟨τ, hSecond, rfl⟩ := second
  refine ⟨σ * τ, fun i hi => ?_, rfl⟩
  rw [Equiv.Perm.mul_apply, hSecond i hi, hFirst i hi]

theorem mono (h : Rearranges cells mem mem') (hCells : cells ⊆ cells') :
    Rearranges cells' mem mem' := by
  obtain ⟨σ, hOutside, hMem⟩ := h
  exact ⟨σ, fun i hi => hOutside i fun hIn => hi (hCells hIn), hMem⟩

theorem swap [DecidableEq ι] (mem : ι → α) {i j : ι} (hi : i ∈ cells) (hj : j ∈ cells) :
    Rearranges cells mem (mem ∘ Equiv.swap i j) := by
  refine ⟨Equiv.swap i j, fun k hk => Equiv.swap_apply_of_ne_of_ne ?_ ?_, rfl⟩
  · rintro rfl
    exact hk hi
  · rintro rfl
    exact hk hj

theorem outside (h : Rearranges cells mem mem') {i : ι} (hi : i ∉ cells) : mem' i = mem i := by
  obtain ⟨σ, hOutside, rfl⟩ := h
  rw [Function.comp_apply, hOutside i hi]

/-- What all the cells hold, they still hold. -/
theorem forall_mem (h : Rearranges cells mem mem') {p : α → Prop} (hAll : ∀ i ∈ cells, p (mem i)) :
    ∀ i ∈ cells, p (mem' i) := by
  obtain ⟨σ, hOutside, rfl⟩ := h
  intro i hi
  exact hAll (σ i) ((mem_iff hOutside i).mpr hi)

/-- As lists, the contents are permuted. -/
theorem map_perm (h : Rearranges cells mem mem') {list : List ι} (hNodup : list.Nodup)
    (hCells : ∀ i, i ∈ list ↔ i ∈ cells) : (list.map mem').Perm (list.map mem) := by
  obtain ⟨σ, hOutside, rfl⟩ := h
  have hPerm : (list.map σ).Perm list := by
    rw [List.perm_ext_iff_of_nodup (List.Nodup.map σ.injective hNodup) hNodup]
    intro i
    rw [hCells, List.mem_map]
    constructor
    · rintro ⟨j, hj, rfl⟩
      exact (mem_iff hOutside j).mpr ((hCells j).mp hj)
    · intro hi
      refine ⟨σ.symm i, ?_, σ.apply_symm_apply i⟩
      rw [hCells, ← mem_iff hOutside, σ.apply_symm_apply]
      exact hi
  rw [← List.map_map]
  exact hPerm.map mem

end Rearranges

/-- Two sorted pieces, with nothing in the first above anything in the second. -/
theorem monotoneOn_union [Preorder ι] [Preorder α]
    (first : MonotoneOn mem cells) (second : MonotoneOn mem cells')
    (hOrder : ∀ i ∈ cells, ∀ j ∈ cells', ¬j ≤ i)
    (hAbove : ∀ i ∈ cells, ∀ j ∈ cells', mem i ≤ mem j) : MonotoneOn mem (cells ∪ cells') := by
  rintro i (hi | hi) j (hj | hj) hLe
  · exact first hi hj hLe
  · exact hAbove i hi j hj
  · exact absurd hLe (hOrder j hj i hi)
  · exact second hi hj hLe

end Memory
