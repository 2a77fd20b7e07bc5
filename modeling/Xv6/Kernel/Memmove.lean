import Xv6.ForStd.ByteMem

/-!
# memmove

`memmove` of `kernel/string.c` and of `user/ulib.c`, which choose the direction of the copy by different
tests. Pointers are 64-bit words, so that the one behind the last byte of the address space is 0.

* `memmove_copies`: wherever the two ranges lie, both functions copy as through a temporary.
-/

namespace Xv6

/-! ## The two functions -/

/-- `while(n-- > 0) *d++ = *s++`, for `n` rounds. -/
def copyUp : (n : Nat) → (d s : BitVec 64) → ByteMem → ByteMem
  | 0, _, _, m => m
  | n + 1, d, s, m => copyUp n (d + 1) (s + 1) (m.write d.toNat [m s.toNat])

/-- `while(n-- > 0) *--d = *--s`, for `n` rounds. -/
def copyDown : (n : Nat) → (d s : BitVec 64) → ByteMem → ByteMem
  | 0, _, _, m => m
  | n + 1, d, s, m => copyDown n (d - 1) (s - 1) (m.write (d - 1).toNat [m (s - 1).toNat])

/-- `memmove` of the kernel, whose `n` is a `uint`. -/
def memmove (dst src : BitVec 64) (n : BitVec 32) (m : ByteMem) : BitVec 64 × ByteMem :=
  if n = 0 then (dst, m)
  else if src < dst ∧ src + n.setWidth 64 > dst then
    (dst, copyDown n.toNat (dst + n.setWidth 64) (src + n.setWidth 64) m)
  else (dst, copyUp n.toNat dst src m)

/-- `memmove` of the user library, whose `n` is an `int`. -/
def User.memmove (dst src : BitVec 64) (n : BitVec 32) (m : ByteMem) : BitVec 64 × ByteMem :=
  if src > dst then (dst, copyUp n.toInt.toNat dst src m)
  else (dst, copyDown n.toInt.toNat (dst + n.signExtend 64) (src + n.signExtend 64) m)

/-! ## The loops -/

section Loops

variable {m : ByteMem} {d s n : Nat} (hd : d + n ≤ 2 ^ 64) (hs : s + n ≤ 2 ^ 64)
include hd hs

/-- A copy upwards does not overtake itself if it moves the bytes down or the ranges are disjoint. -/
theorem copyUp_eq (h : d ≤ s ∨ s + n ≤ d) :
    copyUp n (BitVec.ofNat 64 d) (BitVec.ofNat 64 s) m = m.write d (m.read s n) := by
  induction n generalizing d s m with
  | zero => exact (m.write_eq_self_iff.mpr rfl).symm
  | succ n ih =>
    have hup : ∀ x, BitVec.ofNat 64 x + 1 = BitVec.ofNat 64 (x + 1) := fun x =>
      (BitVec.ofNat_add x 1).symm
    rw [copyUp, BitVec.toNat_ofNat, BitVec.toNat_ofNat, Nat.mod_eq_of_lt (by omega),
      Nat.mod_eq_of_lt (by omega), hup, hup, ih (by omega) (by omega) (by omega)]
    -- the byte just stored is not one of those that are still to be read
    rw [ByteMem.read_write_of_disjoint (by rw [List.length_singleton]; omega), ByteMem.read_succ]
    exact m.write_append d [m s] _

/-- A copy downwards does not overtake itself if it moves the bytes up. -/
theorem copyDown_eq (h : s ≤ d) :
    copyDown n (BitVec.ofNat 64 (d + n)) (BitVec.ofNat 64 (s + n)) m = m.write d (m.read s n) := by
  induction n generalizing m with
  | zero => exact (m.write_eq_self_iff.mpr rfl).symm
  | succ n ih =>
    have hdown : ∀ x, BitVec.ofNat 64 (x + (n + 1)) - 1 = BitVec.ofNat 64 (x + n) := fun x => by
      rw [← Nat.add_assoc, BitVec.ofNat_add]
      exact BitVec.add_sub_cancel _ _
    rw [copyDown, hdown, hdown, BitVec.toNat_ofNat, BitVec.toNat_ofNat, Nat.mod_eq_of_lt (by omega),
      Nat.mod_eq_of_lt (by omega), ih (by omega) (by omega),
      ByteMem.read_write_of_disjoint (by omega), ByteMem.read_concat]
    have hback := m.write_append_back d (m.read s n) [m (s + n)]
    rwa [ByteMem.read_length] at hback

end Loops

/-! ## The copies -/

/-- A copy through a temporary: `m'` is `m` with the bytes that `m` has from `src` on stored from `dst`
    on. -/
structure Copied (m : ByteMem) (dst src n : Nat) (m' : ByteMem) : Prop where
  moved : ∀ i < n, m' (dst + i) = m (src + i)
  kept : ∀ x, x < dst ∨ dst + n ≤ x → m' x = m x

theorem copied_write (m : ByteMem) (dst src n : Nat) : Copied m dst src n (m.write dst (m.read src n)) := by
  refine ⟨fun i hi => ?_, fun x hx => ?_⟩
  · have hsome : (m.read src n)[i]? = some (m.write dst (m.read src n) (dst + i)) :=
      ByteMem.write_add (by simpa using hi)
    rw [ByteMem.getElem?_read hi] at hsome
    exact (Option.some.inj hsome).symm
  · rcases hx with hx | hx
    · exact ByteMem.write_of_lt hx
    · exact ByteMem.write_of_ge (by simpa using hx)

section

variable {m : ByteMem} {dst src : BitVec 64} {n : BitVec 32}

theorem memmove_eq (hdst : dst.toNat + n.toNat ≤ 2 ^ 64) (hsrc : src.toNat + n.toNat ≤ 2 ^ 64) :
    memmove dst src n m = (dst, m.write dst.toNat (m.read src.toNat n.toNat)) := by
  rw [memmove]
  split
  · rename_i hn
    subst hn
    exact congrArg (dst, ·) (m.write_eq_self_iff.mpr rfl).symm
  · have hend : (src + n.setWidth 64).toNat = (src.toNat + n.toNat) % 2 ^ 64 := by
      rw [BitVec.toNat_add, BitVec.toNat_setWidth, Nat.mod_eq_of_lt (by omega : n.toNat < 2 ^ 64)]
    simp only [BitVec.lt_def, gt_iff_lt, hend]
    split
    · have hdown := copyDown_eq (m := m) hdst hsrc (by omega)
      simp only [BitVec.ofNat_add, BitVec.ofNat_toNat, BitVec.setWidth_eq] at hdown
      rw [hdown]
    · have hup := copyUp_eq (m := m) hdst hsrc (by omega)
      simp only [BitVec.ofNat_toNat, BitVec.setWidth_eq] at hup
      rw [hup]

theorem User.memmove_eq (hdst : dst.toNat + n.toNat ≤ 2 ^ 64) (hsrc : src.toNat + n.toNat ≤ 2 ^ 64)
    (hn : 0 ≤ n.toInt) :
    User.memmove dst src n m = (dst, m.write dst.toNat (m.read src.toNat n.toNat)) := by
  have hmsb : n.msb = false := by
    rw [BitVec.msb_eq_toInt]
    exact decide_eq_false (by omega)
  rw [User.memmove, BitVec.toInt_eq_toNat_of_msb hmsb, Int.toNat_natCast,
    BitVec.signExtend_eq_setWidth_of_msb_false hmsb]
  split
  · have hup := copyUp_eq (m := m) hdst hsrc (.inl (Nat.le_of_lt ‹_›))
    simp only [BitVec.ofNat_toNat, BitVec.setWidth_eq] at hup
    rw [hup]
  · have hdown := copyDown_eq (m := m) hdst hsrc (BitVec.not_lt.mp ‹_›)
    simp only [BitVec.ofNat_add, BitVec.ofNat_toNat, BitVec.setWidth_eq] at hdown
    rw [hdown]

end

/-- Both functions return the destination and the same memory, whatever the overlap, for every length
    that the parameter of the function can hold. -/
theorem memmove_copies (m : ByteMem) (dst src : BitVec 64) (n : BitVec 32)
    (hdst : dst.toNat + n.toNat ≤ 2 ^ 64) (hsrc : src.toNat + n.toNat ≤ 2 ^ 64) :
    ∃ m', Copied m dst.toNat src.toNat n.toNat m' ∧ memmove dst src n m = (dst, m') ∧
      (0 ≤ n.toInt → User.memmove dst src n m = (dst, m')) :=
  ⟨_, copied_write .., memmove_eq hdst hsrc, User.memmove_eq hdst hsrc⟩

/-- Three bytes moved up by one, at the end of the address space. -/
theorem memmove_copies_overlap :
    ∃ m', Copied (fun x => UInt8.ofNat x) (2 ^ 64 - 3) (2 ^ 64 - 4) 3 m' ∧
      memmove (-3) (-4) 3 (fun x => UInt8.ofNat x) = (-3, m') ∧
      (0 ≤ (3 : BitVec 32).toInt → User.memmove (-3) (-4) 3 (fun x => UInt8.ofNat x) = (-3, m')) :=
  memmove_copies _ (-3) (-4) 3 (by decide) (by decide)

end Xv6
