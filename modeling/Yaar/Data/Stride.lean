import Mathlib.Data.List.Perm.Subperm
import Mathlib.Data.Nat.ModEq
import Mathlib.Tactic.Ring

/-! A walk around a ring in steps of one length. -/
namespace Stride

/-- The places of a ring of `n` that so many steps of length `s` come to. -/
def walk (n s : Nat) : Nat → Nat → List Nat
  | 0, _ => []
  | count + 1, place => (place + s) % n :: walk n s count ((place + s) % n)

variable {n s : Nat}

@[simp] theorem walk_length (count place : Nat) : (walk n s count place).length = count := by
  induction count generalizing place with
  | zero => rfl
  | succ count ih => simp [walk, ih]

theorem walk_lt (hn : 0 < n) (count place : Nat) : ∀ i ∈ walk n s count place, i < n := by
  induction count generalizing place with
  | zero => simp [walk]
  | succ count ih =>
      intro i member
      rcases List.mem_cons.mp member with rfl | rest
      · exact Nat.mod_lt _ hn
      · exact ih _ i rest

/-- Where each step comes to, from where the walk starts. -/
theorem walk_mem {count place i : Nat} (h : i ∈ walk n s count place) :
    ∃ k < count, i = (place + (k + 1) * s) % n := by
  induction count generalizing place with
  | zero => simp [walk] at h
  | succ count ih =>
      rcases List.mem_cons.mp h with rfl | rest
      · exact ⟨0, by omega, by simp⟩
      · obtain ⟨k, hk, rfl⟩ := ih rest
        refine ⟨k + 1, by omega, ?_⟩
        rw [Nat.mod_add_mod]
        congr 1
        ring

/-- A step that shares no factor with the ring comes back only after a full turn. -/
theorem apart (h : Nat.Coprime s n) {place j k : Nat} (hLt : j < k) (hTurn : k < j + n) :
    (place + j * s) % n ≠ (place + k * s) % n := by
  intro hEq
  have hMod : j * s ≡ k * s [MOD n] := Nat.ModEq.add_left_cancel' place hEq
  have hSteps : j ≡ k [MOD n] := Nat.ModEq.cancel_right_of_coprime h.symm hMod
  have hDvd : n ∣ k - j := (Nat.modEq_iff_dvd' hLt.le).mp hSteps
  have hLe : n ≤ k - j := Nat.le_of_dvd (by omega) hDvd
  omega

/-- With a step that has no divisor in common with the ring a walk comes to no place
twice, up to a full lap. -/
theorem walk_nodup (h : Nat.Coprime s n) {count : Nat} (hCount : count ≤ n) (place : Nat) :
    (walk n s count place).Nodup := by
  induction count generalizing place with
  | zero => simp [walk]
  | succ count ih =>
      apply List.nodup_cons.mpr
      refine ⟨?_, ih (by omega) _⟩
      intro member
      obtain ⟨k, hk, hEq⟩ := walk_mem member
      rw [Nat.mod_add_mod] at hEq
      have hApart : (place + 1 * s) % n ≠ (place + (k + 2) * s) % n := apart h (by omega) (by omega)
      apply hApart
      rw [one_mul, hEq]
      congr 1
      ring

/-- One turn comes to each place of the ring. -/
theorem walk_perm (h : Nat.Coprime s n) (hn : 0 < n) (place : Nat) :
    (walk n s n place).Perm (List.range n) := by
  have hSubset : walk n s n place ⊆ List.range n :=
    fun i member => List.mem_range.mpr (walk_lt hn n place i member)
  apply (List.subperm_of_subset (walk_nodup h le_rfl place) hSubset).perm_of_length_le
  simp

end Stride
