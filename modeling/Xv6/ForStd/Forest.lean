import Mathlib.Logic.Relation

/-!
# Relations that decrease a rank

A relation along which a natural number strictly decreases has no cycles, and if every
element but the root has a successor, every element leads to the root.
-/

namespace Relation

variable {α : Type} {r : α → α → Prop} {rank : α → Nat}

section

variable (hr : ∀ a b, r a b → rank b < rank a)
include hr

/-- Along a chain of one or more steps the rank decreases. -/
theorem TransGen.rank_lt {a b : α} (h : TransGen r a b) :
    rank b < rank a := by
  induction h with
  | single hab => exact hr _ _ hab
  | tail _ hbc ih => exact Nat.lt_trans (hr _ _ hbc) ih

/-- A relation that decreases a rank is acyclic. -/
theorem acyclic_of_rank (a : α) : ¬ TransGen r a a :=
  fun h => Nat.lt_irrefl _ (h.rank_lt hr)

/-- If every element with property `P` other than the root has a successor with `P`, it leads
    to the root. -/
theorem reflTransGen_of_rank {P : α → Prop} {root : α}
    (hstep : ∀ a, P a → a ≠ root → ∃ b, r a b ∧ P b) {a : α} (ha : P a) :
    ReflTransGen r a root := by
  generalize hk : rank a = k
  induction k using Nat.strongRecOn generalizing a with
  | ind k ih =>
    by_cases hroot : a = root
    · rw [hroot]
    · obtain ⟨b, hab, hb⟩ := hstep a ha hroot
      have hlt := hr a b hab
      exact .head hab (ih (rank b) (by omega) hb rfl)

end

end Relation
