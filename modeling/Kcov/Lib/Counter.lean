import Mathlib.Algebra.BigOperators.Intervals
import Mathlib.Algebra.Order.Group.Basic

/-! A counter that changes by given amounts and never falls below zero, in closed form. -/

namespace Counter

variable {α : Type*} [AddCommGroup α] [LinearOrder α] {d : Nat → α} {c : α} {i m : Nat}

/-- The counter after the first `i` of the changes `d`. -/
def level (d : Nat → α) : Nat → α
  | 0 => 0
  | i + 1 => max 0 (level d i + d i)

theorem exists_le_succ {p : Nat → Prop} : (∃ j ≤ i + 1, p j) ↔ p (i + 1) ∨ ∃ j ≤ i, p j := by
  constructor
  · rintro ⟨j, hj, h⟩
    rcases Nat.lt_or_eq_of_le hj with hlt | rfl
    · exact Or.inr ⟨j, by omega, h⟩
    · exact Or.inl h
  · rintro (h | ⟨j, hj, h⟩)
    · exact ⟨i + 1, le_rfl, h⟩
    · exact ⟨j, by omega, h⟩

section Ordered

variable [IsOrderedAddMonoid α]

/-- The level is the greatest sum of changes up to the last one. -/
theorem lt_level_iff : c < level d i ↔ ∃ j ≤ i, c < ∑ k ∈ Finset.Ico j i, d k := by
  induction i generalizing c with
  | zero => simp [level]
  | succ i ih =>
    rw [level, lt_max_iff, exists_le_succ, Finset.Ico_self, Finset.sum_empty]
    apply or_congr_right
    rw [← sub_lt_iff_lt_add, ih]
    refine exists_congr fun j => and_congr_right fun hj => ?_
    rw [Finset.sum_Ico_succ_top hj, sub_lt_iff_lt_add]

/-- Changes that leave the level at zero do not matter later. -/
theorem exists_sum_of_closed (hm : m ≤ i) (hclosed : ∀ j ≤ m, ∑ k ∈ Finset.Ico j m, d k ≤ 0) :
    (∃ j ≤ i, c < ∑ k ∈ Finset.Ico j i, d k) ↔
      ∃ j ≤ i, m ≤ j ∧ c < ∑ k ∈ Finset.Ico j i, d k := by
  constructor
  · rintro ⟨j, hj, h⟩
    by_cases hmj : m ≤ j
    · exact ⟨j, hj, hmj, h⟩
    · refine ⟨m, hm, le_rfl, h.trans_le ?_⟩
      rw [← Finset.sum_Ico_consecutive d (by omega : j ≤ m) hm]
      exact add_le_of_nonpos_left (hclosed j (by omega))
  · rintro ⟨j, hj, -, h⟩
    exact ⟨j, hj, h⟩

end Ordered

end Counter
