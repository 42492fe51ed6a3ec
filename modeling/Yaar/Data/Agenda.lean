import Mathlib

/-! A finite set of items with a due time, the abstract form of a timer queue. -/
namespace Agenda

variable {ι α : Type*} [LinearOrder α] (key : ι → α)

/-- The smallest due time, or `⊤` for no item. -/
def earliest (items : Finset ι) : WithTop α := (items.image key).min

/-- The items due by a time, and those that stay. -/
def due (items : Finset ι) (t : α) : Finset ι := items.filter fun x => key x ≤ t

def later (items : Finset ι) (t : α) : Finset ι := items.filter fun x => t < key x

variable {key} {items : Finset ι}

theorem earliest_eq_top : earliest key items = ⊤ ↔ items = ∅ := by
  simp [earliest, Finset.min_eq_top]

/-- The earliest due time is that of an item, and no item is due before. -/
theorem earliest_eq_coe {a : α} :
    earliest key items = a ↔ (∃ x ∈ items, key x = a) ∧ ∀ x ∈ items, a ≤ key x := by
  constructor
  · intro h
    have hMem := Finset.mem_of_min h
    obtain ⟨x, hx, hKey⟩ := Finset.mem_image.mp hMem
    exact ⟨⟨x, hx, hKey⟩, fun y hy => Finset.min_le_of_eq (Finset.mem_image_of_mem key hy) h⟩
  · rintro ⟨⟨x, hx, rfl⟩, hLe⟩
    refine le_antisymm (Finset.min_le (Finset.mem_image_of_mem key hx)) ?_
    refine Finset.le_min fun b hb => ?_
    obtain ⟨y, hy, rfl⟩ := Finset.mem_image.mp hb
    exact WithTop.coe_le_coe.mpr (hLe y hy)

theorem earliest_later {t a : α} (h : earliest key (later key items t) = a) : t < a := by
  obtain ⟨⟨x, hx, rfl⟩, -⟩ := earliest_eq_coe.mp h
  exact (Finset.mem_filter.mp hx).2

end Agenda
