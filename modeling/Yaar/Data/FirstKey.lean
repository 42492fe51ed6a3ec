import Mathlib

/-! The first key an ordered map yields. -/
namespace FirstKey

open Std

variable {α β : Type*} {cmp : α → α → Ordering} [TransCmp cmp] [LawfulEqCmp cmp]
  {t : TreeMap α β cmp} {k : α}

/-- The first key of a map is its least one by the order of the map. -/
theorem eq_some_iff : t.keys.head? = some k ↔ k ∈ t ∧ ∀ k' ∈ t, (cmp k k').isLE = true := by
  rw [← TreeMap.minKey?_eq_head?_keys, TreeMap.minKey?_eq_some_iff_mem_and_forall]

omit [LawfulEqCmp cmp] in
theorem eq_none_iff : t.keys.head? = none ↔ ∀ k, k ∉ t := by
  rw [← TreeMap.minKey?_eq_head?_keys, TreeMap.minKey?_eq_none_iff,
    TreeMap.isEmpty_iff_forall_not_mem]

omit [LawfulEqCmp cmp] in
theorem size_erase_lt (h : k ∈ t) : (t.erase k).size < t.size := by
  have hErase := TreeMap.size_erase (t := t) (k := k)
  rw [TreeMap.contains_iff_mem.mpr h, if_pos rfl] at hErase
  have hNe : t.size ≠ 0 := by
    intro hZero
    have hEmpty : t.isEmpty = true := by simpa [TreeMap.isEmpty_eq_size_eq_zero] using hZero
    exact TreeMap.isEmpty_iff_forall_not_mem.mp hEmpty k h
  omega

end FirstKey
