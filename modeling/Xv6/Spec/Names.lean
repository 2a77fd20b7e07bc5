import Xv6.Kernel.Directory

/-!
# Names in directory entries

An entry holds a name as `strncpy` stores it. `strncmp` up to the same number of bytes does not see
the difference (`strncmp_strncpy_right`), and it compares names as they are stored
(`strncmp_eq_zero_iff`).
-/

namespace Xv6.Fs

/-- Comparing up to `n` bytes does not see whether the second string went through `strncpy`. -/
theorem strncmp_strncpy_right (s t : List UInt8) (n : Nat) :
    strncmp s (strncpy t n) n = strncmp s t n := by
  induction n generalizing s t with
  | zero => rfl
  | succ n ih =>
    by_cases ht : t.headD 0 = 0
    · -- the bytes differ unless both strings end here
      have hne : ¬ (s.headD 0 ≠ 0 ∧ s.headD 0 = 0) := fun h => h.1 h.2
      simp only [strncmp, strncpy, ht, if_true, List.replicate_succ, List.headD_cons, hne, if_false]
    · simp only [strncmp, strncpy, ht, if_false, List.headD_cons, List.tail_cons, ih]

@[simp] theorem strncpy_length (s : List UInt8) (n : Nat) : (strncpy s n).length = n := by
  induction n generalizing s with
  | zero => rfl
  | succ n ih =>
    rw [strncpy]
    split
    · exact List.length_replicate
    · rw [List.length_cons, ih]

/-- Names are equal up to `n` bytes if they are stored as the same bytes. -/
theorem strncmp_eq_zero_iff (s t : List UInt8) (n : Nat) :
    strncmp s t n = 0 ↔ strncpy s n = strncpy t n := by
  induction n generalizing s t with
  | zero => exact ⟨fun _ => rfl, fun _ => rfl⟩
  | succ n ih =>
    have hsub : ∀ a b : UInt8, ((a.toNat : Int) - b.toNat = 0) ↔ a = b := by
      intro a b
      rw [← UInt8.toNat_inj]
      omega
    by_cases hs : s.headD 0 = 0
    · by_cases ht : t.headD 0 = 0
      · have hne : ¬ ((0 : UInt8) ≠ 0 ∧ (0 : UInt8) = 0) := fun h => h.1 rfl
        rw [strncmp, strncpy, strncpy, hs, ht, if_neg hne, if_pos rfl]
        exact ⟨fun _ => rfl, fun _ => Int.sub_self _⟩
      · -- one of the names goes on
        simp only [strncmp, strncpy, hs, ht, ne_eq, not_true_eq_false, false_and, if_false, if_true,
          hsub, List.replicate_succ, List.cons.injEq]
        exact ⟨fun h => absurd h.symm ht, fun h => absurd h.1.symm ht⟩
    · by_cases ht : t.headD 0 = 0
      · have hne : ¬ s.headD 0 = t.headD 0 := by rwa [ht]
        simp only [strncmp, strncpy, hs, ne_eq, not_false_eq_true, true_and, hne, if_false, hsub]
        rw [if_pos ht, List.replicate_succ, List.cons.injEq]
        exact ⟨False.elim, fun h => hs h.1⟩
      · simp only [strncmp, strncpy, hs, ht, ne_eq, not_false_eq_true, true_and, if_false,
          List.cons.injEq]
        split
        · rename_i heq
          rw [ih]
          exact ⟨fun h => ⟨heq, h⟩, fun h => h.2⟩
        · rename_i hne
          rw [hsub]
          exact ⟨fun h => absurd h hne, fun h => h.1⟩

end Xv6.Fs
