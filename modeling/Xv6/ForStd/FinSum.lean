import Mathlib.Algebra.BigOperators.Group.Finset.Basic
import Mathlib.Data.Fintype.Basic

/-!
# Sums that change in one place

How a sum over a finite type changes when one of its terms does.
-/

/-- Two families that agree except at `a` differ in their sums as they do at `a`. -/
theorem Finset.sum_add_of_eq_off {α M : Type*} [Fintype α] [DecidableEq α] [AddCommMonoid M]
    (f f' : α → M) (a : α) (h : ∀ x, x ≠ a → f' x = f x) :
    ∑ x, f' x + f a = ∑ x, f x + f' a := by
  have hrest : ∑ x ∈ univ.erase a, f' x = ∑ x ∈ univ.erase a, f x :=
    sum_congr rfl fun x hx => h x (ne_of_mem_erase hx)
  rw [← sum_erase_add univ f' (mem_univ a), ← sum_erase_add univ f (mem_univ a), hrest,
    add_assoc, add_assoc, add_comm (f' a)]

/-- The same in a group. -/
theorem Finset.sum_eq_of_eq_off {α M : Type*} [Fintype α] [DecidableEq α] [AddCommGroup M]
    (f f' : α → M) (a : α) (h : ∀ x, x ≠ a → f' x = f x) :
    ∑ x, f' x = ∑ x, f x - f a + f' a := by
  have hsum := sum_add_of_eq_off f f' a h
  rw [sub_add_eq_add_sub, ← hsum, add_sub_cancel_right]
