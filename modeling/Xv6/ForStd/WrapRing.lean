import Mathlib.Data.BitVec
import Xv6.ForStd.Update

/-!
# Ring buffers with counters that wrap

A buffer of `n` places is used through two counters of `w` bits that only grow and wrap around; the
place of a counter is its value modulo `n`. As long as `n` divides `2 ^ w`, the places go round
without a jump when a counter wraps.

`between buf n r e` is what lies between the counters `r` and `e`, the oldest element first.
`between_push`, `between_pop` and `between_last` are the operations at both ends.
-/

namespace WrapRing

variable {w n : Nat} {α : Type*} {buf : Nat → α} {r e : BitVec w} {x : α}

/-- The elements between two counters. -/
def between (buf : Nat → α) (n : Nat) (r e : BitVec w) : List α :=
  (List.range (e - r).toNat).map fun i => buf ((r.toNat + i) % n)

@[simp] theorem length_between : (between buf n r e).length = (e - r).toNat := by
  simp [between]

@[simp] theorem between_self : between buf n r r = [] := by
  simp [between]

theorem between_eq_nil : between buf n r e = [] ↔ e = r := by
  rw [← List.length_eq_zero_iff, length_between]
  exact ⟨fun h => sub_eq_zero.mp (BitVec.eq_of_toNat_eq h), fun h => by rw [h, sub_self]; rfl⟩

/-! ## Distances -/

theorem dist_push (h : (e - r).toNat + 1 < 2 ^ w) : (e + 1#w - r).toNat = (e - r).toNat + 1 := by
  have hw : 1 < 2 ^ w := Nat.lt_of_le_of_lt (Nat.le_add_left 1 _) h
  rw [add_sub_right_comm, BitVec.toNat_add, BitVec.toNat_ofNat, Nat.mod_eq_of_lt hw, Nat.mod_eq_of_lt h]

theorem dist_pos (h : e ≠ r) : 0 < (e - r).toNat :=
  Nat.pos_of_ne_zero fun h0 => h (sub_eq_zero.mp (BitVec.eq_of_toNat_eq h0))

theorem one_lt_of_ne (h : e ≠ r) : 1 < 2 ^ w := by
  have hpos := dist_pos h
  have hlt := (e - r).isLt
  omega

theorem toNat_one_of_ne (h : e ≠ r) : (1#w).toNat = 1 := by
  have hw := one_lt_of_ne h
  rw [BitVec.toNat_ofNat, Nat.mod_eq_of_lt hw]

theorem dist_pop (h : e ≠ r) : (e - (r + 1#w)).toNat + 1 = (e - r).toNat := by
  have hpos := dist_pos h
  have hle : (1#w) ≤ e - r := by
    rw [BitVec.le_def, toNat_one_of_ne h]
    exact hpos
  rw [← sub_sub, BitVec.toNat_sub_of_le hle, toNat_one_of_ne h]
  omega

theorem dist_drop (h : e ≠ r) : (e - 1#w - r).toNat + 1 = (e - r).toNat := by
  rw [sub_sub, add_comm (1#w) r]
  exact dist_pop h

theorem eq_add_iff {k : Nat} (hk : k < 2 ^ w) : e = r + BitVec.ofNat w k ↔ (e - r).toNat = k := by
  rw [← sub_eq_iff_eq_add', ← BitVec.toNat_inj, BitVec.toNat_ofNat, Nat.mod_eq_of_lt hk]

/-! ## Places -/

section Places

variable (hn : n ∣ 2 ^ w)

include hn

/-- The place of the counter `e`, seen from `r`. -/
theorem place_eq : (r.toNat + (e - r).toNat) % n = e.toNat % n := by
  have h : (r + (e - r)).toNat = e.toNat := by rw [add_sub_cancel]
  rw [← h, BitVec.toNat_add, Nat.mod_mod_of_dvd _ hn]

/-- The place after that of `r`. -/
theorem place_succ (i : Nat) : ((r + 1#w).toNat + i) % n = (r.toNat + (i + 1)) % n := by
  rw [BitVec.toNat_add, BitVec.toNat_ofNat, Nat.add_mod_mod, Nat.add_mod, Nat.mod_mod_of_dvd _ hn,
    ← Nat.add_mod, Nat.add_assoc, Nat.add_comm 1 i]

/-- Two places that are less than `n` apart are different. -/
theorem place_ne (h : (e - r).toNat < n) {i : Nat} (hi : i < (e - r).toNat) :
    (r.toNat + i) % n ≠ e.toNat % n := by
  intro heq
  rw [← place_eq (r := r) hn] at heq
  have hdvd : n ∣ (e - r).toNat - i := by
    have h1 : (r.toNat + (e - r).toNat) - (r.toNat + i) = (e - r).toNat - i := by omega
    rw [← h1]
    exact (Nat.modEq_iff_dvd' (by omega)).mp heq
  have := Nat.eq_zero_of_dvd_of_lt hdvd (by omega)
  omega

/-- The place after the newest element belongs to no element. -/
theorem between_upd (h : (e - r).toNat < n) :
    between (upd buf (e.toNat % n) x) n r e = between buf n r e := by
  refine List.map_congr_left fun i hi => ?_
  rw [List.mem_range] at hi
  exact upd_of_ne (place_ne hn h hi) _

theorem between_succ (h : (e - r).toNat + 1 < 2 ^ w) :
    between buf n r (e + 1#w) = between buf n r e ++ [buf (e.toNat % n)] := by
  rw [between, dist_push h, List.range_succ, List.map_append, List.map_singleton, place_eq hn, between]

theorem between_push (hlt : n < 2 ^ w) (h : (e - r).toNat < n) :
    between (upd buf (e.toNat % n) x) n r (e + 1#w) = between buf n r e ++ [x] := by
  rw [between_succ hn (by omega), between_upd hn h, upd_self]

theorem between_pop (h : e ≠ r) :
    between buf n r e = buf (r.toNat % n) :: between buf n (r + 1#w) e := by
  rw [between, ← dist_pop h, List.range_succ_eq_map, List.map_cons, List.map_map, between]
  refine congrArg₂ List.cons rfl (List.map_congr_left fun i _ => ?_)
  exact congrArg buf (place_succ hn i).symm

/-- The newest element. -/
theorem between_last (h : e ≠ r) :
    between buf n r e = between buf n r (e - 1#w) ++ [buf ((e - 1#w).toNat % n)] := by
  rw [between, ← dist_drop h, List.range_succ, List.map_append, List.map_singleton, place_eq hn, between]

end Places

end WrapRing
