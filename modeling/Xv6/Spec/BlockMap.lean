import Xv6.ForStd.Ownership
import Xv6.Kernel.Inode

/-!
# Where block numbers stand

A block number stands in a slot of `addrs` of an allocated inode or in an entry of the indirect block
of such an inode. `DiskOk` says that these places own the data blocks and that a
file has a block for every byte below its size.

The inodes are a parameter: while an inode is locked its copy in memory may be ahead of the
disk. The lemmas of this module say how `place` changes when `bmap` and `itrunc` store a block
number or the contents of a block.
-/

namespace Xv6.Fs

/-! ## Words of a block -/

theorem ofBytes_zero (k : Nat) : ofBytes (ByteMem.read (fun _ => 0) 0 k) = 0 := by
  induction k with
  | zero => rfl
  | succ k ih =>
    rw [ByteMem.read_succ, ofBytes]
    have hread : ByteMem.read (fun _ => 0) (0 + 1) k = ByteMem.read (fun _ => 0) 0 k := rfl
    rw [hread, ih]
    rfl

/-- A zeroed block has no entries. -/
@[simp] theorem word_zero (j : Nat) : word (fun _ => 0) j = 0 := by
  have h := ofBytes_zero 4
  have hread : ByteMem.read (fun _ => 0) (4 * j) 4 = ByteMem.read (fun _ => 0) 0 4 := rfl
  rw [word, hread, h]
  rfl

theorem word_setWord_self (m : ByteMem) (j : Nat) {v : Nat} (hv : v < 2 ^ 32) :
    word (setWord m j v) j = v := by
  have hread := ByteMem.read_write m (4 * j) (leBytes 4 v)
  rw [leBytes_length] at hread
  rw [word, setWord, hread, ofBytes_leBytes]
  omega

theorem word_setWord_of_ne (m : ByteMem) {j j' : Nat} (v : Nat) (h : j' ≠ j) :
    word (setWord m j v) j' = word m j' := by
  have hread : (setWord m j v).read (4 * j') 4 = m.read (4 * j') 4 := by
    refine List.map_congr_left fun k hk => ?_
    have hk4 : k < 4 := List.mem_range.mp hk
    rcases Nat.lt_or_gt_of_ne h with hlt | hgt
    · exact ByteMem.write_of_lt (by omega)
    · refine ByteMem.write_of_ge ?_
      rw [leBytes_length]
      omega
  rw [word, word, hread]

/-! ## Places -/

/-- A place for a block number: slot `k` of `addrs` of inode `i`, or entry `j` of its indirect
    block. -/
inductive Place where
  | slot (i k : Nat)
  | entry (i j : Nat)
deriving DecidableEq

/-- The inode of a place. -/
def Place.inum : Place → Nat
  | slot i _ => i
  | entry i _ => i

/-- The block number in a place; 0 if there is none. -/
def place (D : Nat → Dinode) (data : Nat → ByteMem) : Place → Nat
  | .slot i k => if (D i).type ≠ .free ∧ k ≤ NDIRECT then (D i).addrs k else 0
  | .entry i j =>
    if (D i).type ≠ .free ∧ (D i).addrs NDIRECT ≠ 0 ∧ j < NINDIRECT then
      word (data ((D i).addrs NDIRECT)) j
    else 0

/-- The place of block `n` of inode `i`. -/
def filePlace (i n : Nat) : Place := if n < NDIRECT then .slot i n else .entry i (n - NDIRECT)

theorem filePlace_inj {i m i' m' : Nat} (heq : filePlace i m = filePlace i' m') :
    i = i' ∧ m = m' := by
  simp only [filePlace] at heq
  split at heq <;> split at heq
  · exact Place.slot.inj heq
  · cases heq
  · cases heq
  · obtain ⟨hi, hj⟩ := Place.entry.inj heq
    exact ⟨hi, by omega⟩

/-- The places own the data blocks, and files have no holes. -/
structure DiskOk (D : Nat → Dinode) (bitmap : Nat → Bool) (data : Nat → ByteMem) : Prop where
  owns : Owns (place D data) bitmap nmeta FSSIZE
  small : ∀ i, (D i).type ≠ .free → (D i).size ≤ MAXFILE * BSIZE
  full : ∀ i, (D i).type ≠ .free → ∀ n, n * BSIZE < (D i).size → place D data (filePlace i n) ≠ 0

/-- Byte `x` of inode `i` on disk. -/
def fileByte (s : State) (i x : Nat) : UInt8 :=
  s.data (place s.dinode s.data (filePlace i (x / BSIZE))) (x % BSIZE)

/-- The `n` bytes from `off` on of inode `i` on disk. -/
def fileBytes (s : State) (i off n : Nat) : List UInt8 :=
  (List.range n).map fun k => fileByte s i (off + k)

variable {D D' : Nat → Dinode} {data : Nat → ByteMem} {i : Nat}

theorem place_slot (ht : (D i).type ≠ .free) {k : Nat} (hk : k ≤ NDIRECT) :
    place D data (.slot i k) = (D i).addrs k := by
  rw [place, if_pos ⟨ht, hk⟩]

theorem place_entry (ht : (D i).type ≠ .free) (ha : (D i).addrs NDIRECT ≠ 0) {j : Nat}
    (hj : j < NINDIRECT) : place D data (.entry i j) = word (data ((D i).addrs NDIRECT)) j := by
  rw [place, if_pos ⟨ht, ha, hj⟩]

/-- The places of an inode depend on its type and its `addrs` only. -/
theorem place_congr (h : ∀ i, ((D' i).type = .free ↔ (D i).type = .free) ∧ (D' i).addrs = (D i).addrs) :
    place D' data = place D data := by
  funext p
  cases p with
  | slot i k | entry i j => simp only [place, ne_eq, (h i).1, (h i).2]

/-- The places of an inode without blocks are empty. -/
theorem place_of_empty (h : (D i).type = .free ∨ ∀ k ≤ NDIRECT, (D i).addrs k = 0) (p : Place)
    (hp : p.inum = i) : place D data p = 0 := by
  subst hp
  cases p with
  | slot i k =>
    rw [place]
    refine ite_eq_right_iff.mpr fun ⟨ht, hk⟩ => ?_
    exact h.elim (fun hf => absurd hf ht) fun ha => ha k hk
  | entry i j =>
    rw [place]
    refine ite_eq_right_iff.mpr fun ⟨ht, ha, _⟩ => ?_
    exact h.elim (fun hf => absurd hf ht) fun hz => absurd (hz NDIRECT (Nat.le_refl _)) ha

/-- The places of other inodes do not change. -/
theorem place_upd_of_ne (d : Dinode) (p : Place) (hp : p.inum ≠ i) :
    place (upd D i d) data p = place D data p := by
  cases p with
  | slot i' k | entry i' j =>
    have hD : upd D i d i' = D i' := upd_of_ne hp d
    simp only [place, hD]

/-- An inode that has no blocks before and after a change. -/
theorem place_upd_empty (d : Dinode) (h : (D i).type = .free ∨ ∀ k ≤ NDIRECT, (D i).addrs k = 0)
    (h' : d.type = .free ∨ ∀ k ≤ NDIRECT, d.addrs k = 0) :
    place (upd D i d) data = place D data := by
  funext p
  by_cases hp : p.inum = i
  · rw [place_of_empty (i := i) (by rwa [upd_self]) p hp, place_of_empty h p hp]
  · exact place_upd_of_ne d p hp

/-- A free inode becomes an allocated one without blocks. -/
theorem DiskOk.allocInode {bitmap : Nat → Bool} (h : DiskOk D bitmap data)
    (hfree : (D i).type = .free) (type : InodeType) :
    DiskOk (upd D i { Dinode.zero with type := type }) bitmap data := by
  have hplace : place (upd D i { Dinode.zero with type := type }) data = place D data :=
    place_upd_empty _ (.inl hfree) (.inr fun _ _ => rfl)
  refine ⟨by rw [hplace]; exact h.owns, fun i' ht => ?_, fun i' ht n hn => ?_⟩
  · by_cases hi : i' = i
    · rw [hi, upd_self]
      exact Nat.zero_le _
    · rw [upd_of_ne hi] at ht ⊢
      exact h.small i' ht
  · by_cases hi : i' = i
    · rw [hi, upd_self] at hn
      exact absurd hn (Nat.not_lt_zero _)
    · rw [upd_of_ne hi] at ht hn
      rw [hplace]
      exact h.full i' ht n hn

/-! ## Storing block numbers and contents -/

/-- The inode with block number `b` in slot `k`. -/
def Dinode.withAddr (d : Dinode) (k b : Nat) : Dinode := { d with addrs := upd d.addrs k b }

/-- A block number is stored in a direct slot. -/
theorem place_withAddr (ht : (D i).type ≠ .free) {k : Nat} (hk : k < NDIRECT) (b : Nat) :
    place (upd D i ((D i).withAddr k b)) data = upd (place D data) (.slot i k) b := by
  funext p
  by_cases hp : p.inum = i
  · subst hp
    cases p with
    | slot i k' =>
      show place _ data (.slot i k') = _
      rw [upd_apply]
      simp only [place, Place.inum, upd_self, Dinode.withAddr, Place.slot.injEq, true_and]
      by_cases hkk : k' = k
      · rw [hkk, if_pos ⟨ht, by omega⟩, upd_self, if_pos rfl]
      · rw [upd_of_ne hkk, if_neg hkk]
    | entry i j =>
      rw [upd_of_ne (by simp)]
      have hne : NDIRECT ≠ k := by omega
      simp only [place, Place.inum, upd_self, Dinode.withAddr, upd_of_ne hne]
  · rw [place_upd_of_ne _ p hp, upd_of_ne]
    rintro rfl
    exact hp rfl

/-- A block number is stored in the slot of the indirect block, or removed from it, when no entry of
    the indirect block is in use before and after. -/
theorem place_withIndirect (ht : (D i).type ≠ .free) {b : Nat}
    (hold : ∀ j < NINDIRECT, place D data (.entry i j) = 0)
    (hnew : b ≠ 0 → ∀ j < NINDIRECT, word (data b) j = 0) :
    place (upd D i ((D i).withAddr NDIRECT b)) data = upd (place D data) (.slot i NDIRECT) b := by
  funext p
  by_cases hp : p.inum = i
  · subst hp
    cases p with
    | slot i k' =>
      rw [upd_apply]
      simp only [place, Place.inum, upd_self, Dinode.withAddr, Place.slot.injEq, true_and]
      by_cases hkk : k' = NDIRECT
      · rw [hkk, if_pos ⟨ht, Nat.le_refl _⟩, upd_self, if_pos rfl]
      · rw [upd_of_ne hkk, if_neg hkk]
    | entry i j =>
      rw [upd_of_ne (by simp)]
      by_cases hj : j < NINDIRECT
      · refine Eq.trans ?_ (hold j hj).symm
        simp only [place, Place.inum, upd_self, Dinode.withAddr]
        exact ite_eq_right_iff.mpr fun ⟨_, hb, _⟩ => hnew hb j hj
      · simp only [place, hj, and_false, if_false]
  · rw [place_upd_of_ne _ p hp, upd_of_ne]
    rintro rfl
    exact hp rfl

/-- The contents of a block that is not an indirect block do not matter. -/
theorem place_data {b : Nat} (m : ByteMem) (h : ∀ i, place D data (.slot i NDIRECT) ≠ b ∨ b = 0) :
    place D (upd data b m) = place D data := by
  funext p
  cases p with
  | slot i k => rfl
  | entry i j =>
    simp only [place]
    split
    · rename_i hc
      rw [upd_of_ne]
      intro heq
      rcases h i with hne | hb
      · rw [place_slot hc.1 (Nat.le_refl _)] at hne
        exact hne heq
      · exact hc.2.1 (heq.trans hb)
    · rfl

/-- A block number is stored in an entry of the indirect block. -/
theorem place_setWord {bitmap : Nat → Bool} {lo hi : Nat}
    (ho : Owns (place D data) bitmap lo hi) (ht : (D i).type ≠ .free)
    (ha : (D i).addrs NDIRECT ≠ 0) {j v : Nat} (hj : j < NINDIRECT) (hv : v < 2 ^ 32) :
    place D (upd data ((D i).addrs NDIRECT) (setWord (data ((D i).addrs NDIRECT)) j v)) =
      upd (place D data) (.entry i j) v := by
  have hslot : place D data (.slot i NDIRECT) = _ := place_slot ht (Nat.le_refl _)
  funext p
  cases p with
  | slot i' k =>
    rw [upd_of_ne (by simp)]
    rfl
  | entry i' j' =>
    by_cases hi : i' = i
    · subst hi
      rw [upd_apply]
      by_cases hjj : j' = j
      · rw [if_pos (by rw [hjj]), hjj, place_entry ht ha hj, upd_self, word_setWord_self _ _ hv]
      · rw [if_neg (by simp [hjj])]
        by_cases hj' : j' < NINDIRECT
        · rw [place_entry ht ha hj', place_entry ht ha hj', upd_self, word_setWord_of_ne _ _ hjj]
        · simp only [place, hj', and_false, if_false]
    · rw [upd_of_ne (by simp [hi])]
      simp only [place]
      split
      · rename_i hc
        -- two inodes do not share an indirect block
        rw [upd_of_ne]
        intro heq
        have hslot' : place D data (.slot i' NDIRECT) = _ := place_slot hc.1 (Nat.le_refl _)
        have hsame := ho.inj (.slot i' NDIRECT) (.slot i NDIRECT) (by rw [hslot']; exact hc.2.1)
          (by rw [hslot, hslot', heq])
        exact hi (Place.slot.inj hsame).1
      · rfl

end Xv6.Fs
