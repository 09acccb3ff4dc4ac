import Mathlib.Algebra.Order.Group.Defs
import Mathlib.Order.Interval.Set.Basic

/-! Comparing two unknown points that are only known to lie in closed intervals: when a
relation holds for every choice of the two points, in terms of the four ends. -/
namespace Intervals

section Order
variable {α : Type*} [LinearOrder α] {a b c d : α}

/-- Everything in the second interval comes before everything in the first. -/
theorem forall_lt_iff (hab : a ≤ b) (hcd : c ≤ d) :
    (∀ x ∈ Set.Icc a b, ∀ y ∈ Set.Icc c d, y < x) ↔ d < a := by
  constructor
  · intro h
    exact h a (Set.left_mem_Icc.mpr hab) d (Set.right_mem_Icc.mpr hcd)
  · intro h x hx y hy
    exact (hy.2.trans_lt h).trans_le hx.1

/-- Two intervals share a point when neither ends before the other starts. -/
theorem inter_nonempty_iff (hab : a ≤ b) (hcd : c ≤ d) :
    (Set.Icc a b ∩ Set.Icc c d).Nonempty ↔ a ≤ d ∧ c ≤ b := by
  rw [Set.Icc_inter_Icc, Set.nonempty_Icc]
  constructor
  · intro h
    exact ⟨(le_max_left _ _).trans (h.trans (min_le_right _ _)),
      (le_max_right _ _).trans (h.trans (min_le_left _ _))⟩
  · rintro ⟨had, hcb⟩
    exact max_le (le_min hab had) (le_min hcb hcd)

/-- The two points are never equal exactly when the intervals do not meet. -/
theorem forall_ne_iff (hab : a ≤ b) (hcd : c ≤ d) :
    (∀ x ∈ Set.Icc a b, ∀ y ∈ Set.Icc c d, x ≠ y) ↔ ¬(a ≤ d ∧ c ≤ b) := by
  rw [← inter_nonempty_iff hab hcd, Set.not_nonempty_iff_eq_empty,
    ← Set.disjoint_iff_inter_eq_empty, Set.disjoint_left]
  constructor
  · intro h x hx hy
    exact h x hx x hy rfl
  · intro h x hx y hy he
    exact h hx (he ▸ hy)

end Order

section Gap
variable {α G : Type*} [Preorder α] [AddCommGroup G] [LinearOrder G] [IsOrderedAddMonoid G]
  {f : α → G} {a b c d : α} {m : G}

/-- Measured along a monotone scale, the least gap runs from the end of the first
interval to the start of the second. -/
theorem forall_lt_gap_iff (hf : Monotone f) (hab : a ≤ b) (hcd : c ≤ d) :
    (∀ x ∈ Set.Icc a b, ∀ y ∈ Set.Icc c d, m < f y - f x) ↔ m < f c - f b := by
  constructor
  · intro h
    exact h b (Set.right_mem_Icc.mpr hab) c (Set.left_mem_Icc.mpr hcd)
  · intro h x hx y hy
    exact h.trans_le (sub_le_sub (hf hy.1) (hf hx.2))

/-- The greatest gap runs from the start of the first interval to the end of the second. -/
theorem forall_gap_lt_iff (hf : Monotone f) (hab : a ≤ b) (hcd : c ≤ d) :
    (∀ x ∈ Set.Icc a b, ∀ y ∈ Set.Icc c d, f y - f x < m) ↔ f d - f a < m := by
  constructor
  · intro h
    exact h a (Set.left_mem_Icc.mpr hab) d (Set.right_mem_Icc.mpr hcd)
  · intro h x hx y hy
    exact (sub_le_sub (hf hy.2) (hf hx.1)).trans_lt h

end Gap
end Intervals
