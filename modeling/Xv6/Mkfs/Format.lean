import Xv6.Mkfs.Image
import Xv6.Spec.BlockMap

/-!
# The on-disk format

What `mkfs` stores is what the kernel loads: an inode in its slot of an inode block
(`loadDinode_write`), without a change of the other slots, the words of the superblock
(`word_words`), and the bits of the bitmap (`bit_firstBits`).
-/

namespace Xv6.Mkfs

open Fs

/-! ## Words -/

@[simp] theorem words_length (ws : List Nat) : (words ws).length = 4 * ws.length :=
  length_flatMap_leBytes 4 ws

/-- The words at the start of a block. -/
theorem word_words (m : ByteMem) (ws : List Nat) {k : Nat} (hk : k < ws.length) (hw : ws[k] < 2 ^ 32) :
    word (m.write 0 (words ws)) k = ws[k] := by
  have hread := m.read_write_words 0 [] 4 ws hk
  simp only [List.nil_append, List.length_nil, Nat.zero_add] at hread
  rw [word, words, hread, ofBytes_leBytes_nat (by simpa using hw)]
  rfl

/-! ## Inodes -/

theorem typeOf_typeCode (t : InodeType) : typeOf (typeCode t) = t := by
  cases t <;> rfl

/-- The values that a `struct dinode` can hold. -/
structure Storable (d : Dinode) : Prop where
  major : toShort d.major = d.major
  minor : toShort d.minor = d.minor
  nlink : toShort d.nlink = d.nlink
  size : d.size < 2 ^ 32
  addrs : ∀ k, d.addrs k < 2 ^ 32
  only : ∀ k, NDIRECT < k → d.addrs k = 0

@[simp] theorem encodeDinode_length (d : Dinode) : (encodeDinode d).length = dinodeSize := by
  simp [encodeDinode, dinodeSize, NDIRECT]

theorem toShort_ofBytes (v : Int) : toShort (ofBytes (leBytes 2 v)) = toShort v := by
  rw [ofBytes_leBytes, toShort, toShort]
  exact Int.emod_bmod v (2 ^ 16)

/-- What `winode` stores in a slot is what `rinode` loads. -/
theorem loadDinode_write (m : ByteMem) (a : Nat) {d : Dinode} (h : Storable d) :
    loadDinode (m.write a (encodeDinode d)) a = d := by
  obtain ⟨type, major, minor, nlink, size, addrs⟩ := d
  have htype := ByteMem.read_write_add m a [] (leBytes 2 (typeCode type))
    (leBytes 2 major ++ leBytes 2 minor ++ leBytes 2 nlink ++ leBytes 4 size ++
      words ((List.range (NDIRECT + 1)).map addrs))
  have hmajor := ByteMem.read_write_add m a (leBytes 2 (typeCode type)) (leBytes 2 major)
    (leBytes 2 minor ++ leBytes 2 nlink ++ leBytes 4 size ++
      words ((List.range (NDIRECT + 1)).map addrs))
  have hminor := ByteMem.read_write_add m a (leBytes 2 (typeCode type) ++ leBytes 2 major)
    (leBytes 2 minor)
    (leBytes 2 nlink ++ leBytes 4 size ++ words ((List.range (NDIRECT + 1)).map addrs))
  have hnlink := ByteMem.read_write_add m a
    (leBytes 2 (typeCode type) ++ leBytes 2 major ++ leBytes 2 minor) (leBytes 2 nlink)
    (leBytes 4 size ++ words ((List.range (NDIRECT + 1)).map addrs))
  have hsize := ByteMem.read_write_add m a
    (leBytes 2 (typeCode type) ++ leBytes 2 major ++ leBytes 2 minor ++ leBytes 2 nlink)
    (leBytes 4 size) (words ((List.range (NDIRECT + 1)).map addrs))
  simp only [List.append_assoc, List.nil_append, List.length_append, leBytes_length,
    List.length_nil, Nat.add_zero, Nat.reduceAdd] at htype hmajor hminor hnlink hsize
  have haddrs : ∀ k ≤ NDIRECT, (m.write a (encodeDinode ⟨type, major, minor, nlink, size, addrs⟩)).read
      (a + 12 + 4 * k) 4 = leBytes 4 (addrs k : Nat) := by
    intro k hk
    have hlen : k < ((List.range (NDIRECT + 1)).map addrs).length := by
      simp only [List.length_map, List.length_range]
      omega
    have hread := m.read_write_words a
      (leBytes 2 (typeCode type) ++ leBytes 2 major ++ leBytes 2 minor ++ leBytes 2 nlink ++
        leBytes 4 size) 4 _ hlen
    simp only [List.length_append, leBytes_length, Nat.reduceAdd, List.getElem_map,
      List.getElem_range] at hread
    exact hread
  simp only [loadDinode, Dinode.mk.injEq]
  refine ⟨?_, ?_, ?_, ?_, ?_, ?_⟩
  · simp only [encodeDinode, List.append_assoc, htype]
    rw [ofBytes_leBytes_nat (by cases type <;> decide)]
    exact typeOf_typeCode type
  · simp only [encodeDinode, List.append_assoc, hmajor, toShort_ofBytes]
    exact h.major
  · simp only [encodeDinode, List.append_assoc, hminor, toShort_ofBytes]
    exact h.minor
  · simp only [encodeDinode, List.append_assoc, hnlink, toShort_ofBytes]
    exact h.nlink
  · simp only [encodeDinode, List.append_assoc, hsize]
    rw [ofBytes_leBytes_nat (by simpa using h.size)]
    rfl
  · funext k
    by_cases hk : k ≤ NDIRECT
    · rw [if_pos hk, haddrs k hk, ofBytes_leBytes_nat (by simpa using h.addrs k)]
      rfl
    · rw [if_neg hk]
      exact (h.only k (by omega)).symm

/-- Loading an inode depends on the bytes of its slot only. -/
theorem loadDinode_congr {m m' : ByteMem} {a : Nat} (h : ∀ x, a ≤ x → x < a + dinodeSize → m x = m' x) :
    loadDinode m a = loadDinode m' a := by
  have hread : ∀ o n, o + n ≤ dinodeSize → m.read (a + o) n = m'.read (a + o) n := by
    intro o n hon
    refine List.map_congr_left fun j hj => ?_
    have hjn : j < n := List.mem_range.mp hj
    exact h _ (by omega) (by omega)
  have hsize : dinodeSize = 64 := rfl
  have hdirect : NDIRECT = 12 := rfl
  have h0 := hread 0 2 (by omega)
  rw [Nat.add_zero] at h0
  simp only [loadDinode, h0, hread 2 2 (by omega), hread 4 2 (by omega), hread 6 2 (by omega),
    hread 8 4 (by omega), Dinode.mk.injEq, true_and]
  funext k
  split
  · have hk := hread (12 + 4 * k) 4 (by omega)
    rw [← Nat.add_assoc] at hk
    rw [hk]
  · rfl

/-- The other slots of the block keep their inodes. -/
theorem loadDinode_write_of_ne (m : ByteMem) (d : Dinode) {i j : Nat} (h : j % IPB ≠ i % IPB) :
    loadDinode (m.write (islot i) (encodeDinode d)) (islot j) = loadDinode m (islot j) := by
  refine loadDinode_congr fun x hlo hhi => ?_
  simp only [islot, dinodeSize] at hlo hhi
  rcases Nat.lt_or_gt_of_ne h with hlt | hgt
  · refine ByteMem.write_of_lt ?_
    simp only [islot, dinodeSize]
    omega
  · refine ByteMem.write_of_ge ?_
    rw [encodeDinode_length]
    simp only [islot, dinodeSize]
    omega

/-- A zeroed block holds free inodes. -/
theorem loadDinode_zero (a : Nat) : loadDinode (fun _ => 0) a = Dinode.zero := by
  have hread : ∀ a n, ofBytes (ByteMem.read (fun _ => 0) a n) = 0 := fun _ n => ofBytes_zero n
  simp only [loadDinode, hread]
  rw [Dinode.zero]
  congr 1
  funext k
  exact ite_self 0

/-! ## Bits -/

/-- The bitmap block that `balloc` writes. -/
def firstBits (used : Nat) : ByteMem :=
  (List.range used).foldl
    (fun buf i => upd buf (i / 8) (buf (i / 8) ||| (1 <<< UInt8.ofNat (i % 8)))) fun _ => 0

/-- The test of the bit of block `b`. -/
def bit (m : ByteMem) (b : Nat) : Bool := m (b / 8) &&& (1 <<< UInt8.ofNat (b % 8)) != 0

theorem or_and_eq (x y z : UInt8) : (x ||| y) &&& z = (x &&& z) ||| (y &&& z) := by
  apply UInt8.toBitVec_inj.mp
  simp only [UInt8.toBitVec_and, UInt8.toBitVec_or]
  ext k hk
  simp [Bool.and_or_distrib_right]

theorem and_or_self_eq (x z : UInt8) : (x &&& z) ||| z = z := by
  apply UInt8.toBitVec_inj.mp
  simp only [UInt8.toBitVec_and, UInt8.toBitVec_or]
  ext k hk
  simp

theorem bits_disjoint : ∀ i < 8, ∀ j < 8, (1 <<< UInt8.ofNat i : UInt8) &&& (1 <<< UInt8.ofNat j) =
    if i = j then 1 <<< UInt8.ofNat j else 0 := by decide

theorem bit_ne_zero : ∀ j < 8, (1 <<< UInt8.ofNat j : UInt8) ≠ 0 := by decide

/-- A bit is set and the others stay. -/
theorem bit_upd (m : ByteMem) (i b : Nat) :
    bit (upd m (i / 8) (m (i / 8) ||| (1 <<< UInt8.ofNat (i % 8)))) b = (decide (b = i) || bit m b) := by
  have hi : i % 8 < 8 := Nat.mod_lt _ (by omega)
  have hb : b % 8 < 8 := Nat.mod_lt _ (by omega)
  simp only [bit]
  by_cases hdiv : b / 8 = i / 8
  · rw [hdiv, upd_self, or_and_eq, bits_disjoint _ hi _ hb]
    by_cases hmod : i % 8 = b % 8
    · have heq : b = i := by omega
      rw [if_pos hmod, and_or_self_eq]
      simp [heq, bit_ne_zero _ hi]
    · have hne : b ≠ i := fun heq => hmod (by rw [heq])
      rw [if_neg hmod, UInt8.or_zero]
      simp [hne]
  · have hne : b ≠ i := fun heq => hdiv (by rw [heq])
    rw [upd_of_ne hdiv]
    simp [hne]

/-- The bits that `balloc` sets. -/
theorem bit_firstBits (used b : Nat) : bit (firstBits used) b = decide (b < used) := by
  induction used with
  | zero => simp [firstBits, bit]
  | succ used ih =>
    have hstep : firstBits (used + 1) = upd (firstBits used) (used / 8)
        (firstBits used (used / 8) ||| (1 <<< UInt8.ofNat (used % 8))) := by
      rw [firstBits, List.range_succ, List.foldl_append, List.foldl_cons, List.foldl_nil]
      rfl
    rw [hstep, bit_upd, ih]
    by_cases heq : b = used
    · simp [heq]
    · by_cases hlt : b < used
      · simp [hlt, Nat.lt_succ_of_lt hlt]
      · have hge : ¬ b < used + 1 := by omega
        simp [heq, hlt, hge]

end Xv6.Mkfs
