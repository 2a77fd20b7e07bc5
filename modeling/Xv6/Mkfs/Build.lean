import Mathlib.Algebra.Order.BigOperators.Group.List
import Xv6.Mkfs.Append

/-!
# Building the image

`Ready s c t` says that the image holds inodes of the types `t` with the contents `c`. `ialloc` adds
an inode and `iappend` adds bytes to one (`ialloc_ends`, `iappend_ends`), or `mkfs` ends without
success because the bytes fit into neither the file nor the image. From this follows what `main` has
written when all of the arguments are on the image (`main_ends`).
-/

namespace Xv6.Mkfs

open Fs

variable {s s' : State} {E : Stop → Prop} {c : Nat → List UInt8} {t : Nat → InodeType} {i : Nat}

/-! ## The inodes of an image -/

/-- Sector 1 with the superblock. -/
def superSector : ByteMem := ByteMem.write (fun _ => 0) 0 (words superblock)

theorem word_superSector {k : Nat} (hk : k < superblock.length) (hw : superblock[k] < 2 ^ 32) :
    word superSector k = superblock[k] := word_words _ _ hk hw

theorem ninodes_super : word superSector 3 = NINODES := word_superSector (by decide) (by decide)

theorem inodestart_super : word superSector 6 = inodestart :=
  word_superSector (by decide) (by decide)

theorem bmapstart_super : word superSector 7 = bmapstart :=
  word_superSector (by decide) (by decide)

theorem dinodes_eq {image : Nat → ByteMem} (h : image 1 = superSector) (i : Nat) :
    dinodes image i =
      if i < NINODES then loadDinode (image (iblock i)) (islot i) else Dinode.zero := by
  rw [dinodes, h, ninodes_super, inodestart_super]
  rfl

theorem iblock_range (hi : i < NINODES) : 1 < iblock i ∧ iblock i < bmapstart := by
  have hdiv : i / IPB ≤ 199 / IPB := Nat.div_le_div_right (by simp only [NINODES] at hi; omega)
  have hmax : 199 / IPB + inodestart < bmapstart := by decide
  have hmin : 1 < inodestart := by decide
  rw [iblock]
  exact ⟨Nat.lt_of_lt_of_le hmin (Nat.le_add_left _ _), by omega⟩

theorem bmapstart_lt : bmapstart < nmeta := by decide

theorem nmeta_lt : nmeta < FSSIZE := by decide

/-- The inodes stand in the sectors before the bitmap. -/
theorem dinodes_congr {image image' : Nat → ByteMem} (h : image 1 = superSector)
    (hsame : ∀ b < bmapstart, image' b = image b) : dinodes image' = dinodes image := by
  have h' : image' 1 = superSector := (hsame 1 (by decide)).trans h
  funext i
  rw [dinodes_eq h, dinodes_eq h']
  split
  · rename_i hi
    rw [hsame _ (iblock_range hi).2]
  · rfl

theorem toShort_toShort (x : Int) : toShort (toShort x) = toShort x := Int.bmod_bmod ..

theorem ofBytes_nonneg (bs : List UInt8) : 0 ≤ ofBytes bs ∧ ofBytes bs < 256 ^ bs.length := by
  induction bs with
  | nil => exact ⟨by decide, by decide⟩
  | cons b bs ih =>
    have hb := b.toNat_lt
    rw [ofBytes, List.length_cons, Int.pow_succ]
    omega

/-- What is loaded can be stored again. -/
theorem storable_loadDinode (m : ByteMem) (a : Nat) : Storable (loadDinode m a) := by
  have hword : ∀ x, (ofBytes (m.read x 4)).toNat < 2 ^ 32 := by
    intro x
    have hlt := (ofBytes_nonneg (m.read x 4)).2
    have hpow : (256 : Int) ^ 4 = 4294967296 := by decide
    rw [ByteMem.read_length, hpow] at hlt
    omega
  refine ⟨?_, ?_, ?_, hword (a + 8), fun k => ?_, fun k hk => ?_⟩
  · rw [loadDinode, toShort_toShort]
  · rw [loadDinode, toShort_toShort]
  · rw [loadDinode, toShort_toShort]
  · show (if k ≤ NDIRECT then _ else 0) < _
    split
    · exact hword _
    · decide
  · exact if_neg (by omega)

/-- The image with another inode. -/
def State.setInode (s : State) (i : Nat) (d : Dinode) : State :=
  s.put (iblock i) ((s.image (iblock i)).write (islot i) (encodeDinode d))

theorem setInode_image_of_ne (s : State) (d : Dinode) {b : Nat} (hb : b ≠ iblock i) :
    (s.setInode i d).image b = s.image b := upd_of_ne hb _

theorem setInode_image_self (s : State) (i : Nat) (d : Dinode) :
    (s.setInode i d).image (iblock i) = (s.image (iblock i)).write (islot i) (encodeDinode d) :=
  upd_self ..

/-- `winode` changes the one inode. -/
theorem dinodes_setInode (h : s.image 1 = superSector) (hi : i < NINODES) {d : Dinode}
    (hd : Storable d) : dinodes (s.setInode i d).image = upd (dinodes s.image) i d := by
  have hrange := iblock_range hi
  have h' : (s.setInode i d).image 1 = superSector := by
    rw [setInode_image_of_ne s d (by omega), h]
  funext j
  rw [dinodes_eq h']
  by_cases hj : j = i
  · subst hj
    rw [if_pos hi, upd_self, setInode_image_self]
    exact loadDinode_write _ _ hd
  · rw [upd_of_ne hj, dinodes_eq h]
    by_cases hjn : j < NINODES
    · rw [if_pos hjn, if_pos hjn]
      by_cases hblock : iblock j = iblock i
      · -- another slot of the same block
        have hmod : j % IPB ≠ i % IPB := by
          simp only [iblock, IPB, BSIZE] at hblock ⊢
          omega
        rw [hblock, setInode_image_self]
        exact loadDinode_write_of_ne _ d hmod
      · rw [setInode_image_of_ne s d hblock]
    · rw [if_neg hjn, if_neg hjn]

theorem ends_winode {Q : Unit → State → Prop} (hs : s.sectors = FSSIZE) (hi : i < NINODES)
    (d : Dinode) : (winode i d).Ends E Q s ↔ Q () (s.setInode i d) := by
  have hlt : iblock i < FSSIZE :=
    Nat.lt_trans (iblock_range hi).2 (Nat.lt_trans bmapstart_lt nmeta_lt)
  rw [winode, Prog.ends_bind, ends_rsect hs hlt, ends_wsect hs hlt]
  rfl

theorem ends_rinode {Q : Dinode → State → Prop} (h : s.image 1 = superSector)
    (hs : s.sectors = FSSIZE) (hi : i < NINODES) :
    (rinode i).Ends E Q s ↔ Q (dinodes s.image i) s := by
  have hlt : iblock i < FSSIZE :=
    Nat.lt_trans (iblock_range hi).2 (Nat.lt_trans bmapstart_lt nmeta_lt)
  rw [rinode, Prog.ends_bind, ends_rsect hs hlt, Prog.ends_pure, dinodes_eq h, if_pos hi]

/-! ## Inodes with contents -/

/-- The image holds inodes of the types `t` with the contents `c`. -/
structure Ready (s : State) (c : Nat → List UInt8) (t : Nat → InodeType) : Prop where
  super : s.image 1 = superSector
  sectors : s.sectors = FSSIZE
  stores : Stores (dinodes s.image) s.image s.freeblock c fun i => blocks (c i).length
  type : ∀ i, (dinodes s.image i).type = t i
  size : ∀ i, (dinodes s.image i).size = (c i).length
  small : ∀ i, (c i).length ≤ MAXFILE * BSIZE

theorem Ready.lt_of_type (h : Ready s c t) (ht : t i ≠ .free) : i < NINODES := by
  by_contra hge
  refine ht ?_
  rw [← h.type i, dinodes_eq h.super, if_neg hge]
  rfl

theorem Ready.storable (h : Ready s c t) (i : Nat) : Storable (dinodes s.image i) := by
  rw [dinodes_eq h.super]
  split
  · exact storable_loadDinode _ _
  · exact ⟨rfl, rfl, rfl, by decide, fun _ => by show 0 < _; decide, fun _ _ => rfl⟩

theorem blocks_upd (c : Nat → List UInt8) (i : Nat) (bs : List UInt8) :
    upd (fun j => blocks (c j).length) i (blocks bs.length) =
      fun j => blocks (upd c i bs j).length := by
  funext j
  by_cases hj : j = i
  · rw [hj, upd_self, upd_self]
  · rw [upd_of_ne hj, upd_of_ne hj]

/-- What `iappend` has done. -/
structure Extended (i : Nat) (p : List UInt8) (c : Nat → List UInt8) (t : Nat → InodeType)
    (s s' : State) : Prop where
  ready : Ready s' (upd c i (c i ++ p)) t
  freeinode : s'.freeinode = s.freeinode
  freeblock : s'.freeblock + need (blocks (c i).length) =
    s.freeblock + need (blocks (c i ++ p).length)

theorem iappend_ends {p : List UInt8} (h : Ready s c t) (ht : t i ≠ .free)
    (hE : Overflows i c p s → ∀ w, E w) :
    (iappend i p).Ends E (fun _ s' => Extended i p c t s s') s := by
  have hi := h.lt_of_type ht
  rw [iappend, Prog.ends_bind, ends_rinode h.super h.sectors hi, Prog.ends_bind, h.size i]
  refine (appendLoop_ends (D := dinodes s.image) (i := i) (by rw [upd_eq_self]; exact h.stores)
    h.sectors (by rwa [h.type i]) rfl (Nat.le_refl _) hE).mono fun r s₁ hr => ?_
  obtain ⟨hoff, hkept, hdin, hsmall, hst, hfree⟩ := hr
  have hsup : s₁.image 1 = superSector := (hkept.image 1 (by decide)).trans h.super
  have hsame : dinodes s₁.image = dinodes s.image :=
    dinodes_congr h.super fun b hb => hkept.image b (Nat.lt_trans hb bmapstart_lt)
  have hsmall' := hsmall (h.small i)
  have hd : Storable { r.1 with size := r.2 } := by
    obtain ⟨hmajor, hminor, hnlink, -, haddrs, honly⟩ := hdin.storable (h.storable i)
    refine ⟨hmajor, hminor, hnlink, ?_, haddrs, honly⟩
    rw [hoff]
    exact Nat.lt_of_le_of_lt hsmall' (by decide)
  have hrange := iblock_range hi
  have hD := dinodes_setInode hsup hi hd
  rw [hsame] at hD
  rw [ends_winode (hkept.sectors.trans h.sectors) hi]
  refine ⟨⟨?_, hkept.sectors.trans h.sectors, ?_, fun j => ?_, fun j => ?_, fun j => ?_⟩,
    hkept.freeinode, hfree⟩
  · rw [setInode_image_of_ne _ _ (by omega), hsup]
  · rw [blocks_upd] at hst
    rw [hD]
    refine hst.congr (fun j => ?_) fun b hb => setInode_image_of_ne _ _ ?_
    · by_cases hj : j = i
      · rw [hj, upd_self, upd_self]
        exact ⟨rfl, rfl⟩
      · rw [upd_of_ne hj, upd_of_ne hj]
        exact ⟨rfl, rfl⟩
    · have := bmapstart_lt
      omega
  · have htype : ({ r.1 with size := r.2 } : Dinode).type = (dinodes s.image i).type := hdin.type
    rw [hD, ← h.type j]
    exact apply_upd (F := Dinode.type) htype j
  · rw [hD]
    by_cases hj : j = i
    · rw [hj, upd_self, upd_self]
      exact hoff
    · rw [upd_of_ne hj, upd_of_ne hj]
      exact h.size j
  · exact forall_upd (P := fun _ (bs : List UInt8) => bs.length ≤ MAXFILE * BSIZE) hsmall'
      (fun j _ => h.small j) j

/-- What `ialloc` has done. -/
structure Allocated (type : InodeType) (c : Nat → List UInt8) (t : Nat → InodeType) (s s' : State) :
    Prop where
  ready : Ready s' c (upd t s.freeinode type)
  freeinode : s'.freeinode = s.freeinode + 1
  freeblock : s'.freeblock = s.freeblock

theorem ialloc_ends {type : InodeType} (h : Ready s c t) (hi : s.freeinode < NINODES)
    (ht : t s.freeinode = .free) (hc : c s.freeinode = []) :
    (ialloc type).Ends E (fun r s' => r = s.freeinode ∧ Allocated type c t s s') s := by
  obtain ⟨d, hd⟩ : ∃ d, d = { Dinode.zero with type := type, nlink := 1 } := ⟨_, rfl⟩
  have hst : Storable d := by
    rw [hd]
    exact ⟨rfl, rfl, rfl, by show 0 < _; decide, fun _ => by show 0 < _; decide, fun _ _ => rfl⟩
  have hrange := iblock_range hi
  have hD := dinodes_setInode (s := { s with freeinode := s.freeinode + 1 }) h.super hi hst
  simp only [ialloc, Prog.ends_bind, Prog.ends_atomic, Outcome.Meets, ← hd]
  rw [ends_winode (s := { s with freeinode := s.freeinode + 1 }) h.sectors hi, Prog.ends_pure]
  refine ⟨rfl, ⟨?_, h.sectors, ?_, fun j => ?_, fun j => ?_, h.small⟩, rfl, rfl⟩
  · rw [setInode_image_of_ne _ _ (by omega)]
    exact h.super
  · rw [hD]
    refine (h.stores.new (i := s.freeinode) (d := d) (by rw [h.type, ht]) ?_ (by rw [hc]; rfl)).congr
      (fun _ => ⟨rfl, rfl⟩) fun b hb => setInode_image_of_ne _ _ ?_
    · rw [hd]
      exact fun _ _ => rfl
    · have := bmapstart_lt
      omega
  · rw [hD]
    by_cases hj : j = s.freeinode
    · rw [hj, upd_self, upd_self, hd]
    · rw [upd_of_ne hj, upd_of_ne hj]
      exact h.type j
  · rw [hD]
    by_cases hj : j = s.freeinode
    · rw [hj, upd_self, hc, hd]
      rfl
    · rw [upd_of_ne hj]
      exact h.size j

/-- All pieces of a file. -/
theorem appendPieces_ends {ps : List (List UInt8)} (h : Ready s c t) (ht : t i ≠ .free)
    (hE : Overflows i c ps.flatten s → ∀ w, E w) :
    (appendPieces i ps).Ends E (fun _ s' => Extended i ps.flatten c t s s') s := by
  induction ps generalizing s c with
  | nil =>
    rw [appendPieces, Prog.ends_pure]
    refine ⟨?_, rfl, ?_⟩
    · rw [List.flatten_nil, List.append_nil, upd_eq_self]
      exact h
    · rw [List.flatten_nil, List.append_nil]
  | cons p ps ih =>
    rw [appendPieces, Prog.ends_bind]
    have hhead : Overflows i c p s → Overflows i c (p :: ps).flatten s := by
      intro ho
      refine Overflows.of_take (n := p.length) ?_
      rwa [List.flatten_cons, List.take_left]
    refine (iappend_ends h ht fun ho => hE (hhead ho)).mono fun _ s₁ h₁ => ?_
    obtain ⟨hready, hinode, hfree⟩ := h₁
    have hassoc : (c i ++ p) ++ ps.flatten = c i ++ (p :: ps).flatten := by
      rw [List.append_assoc, List.flatten_cons]
    refine (ih hready fun ho => hE ?_).mono fun _ s₂ h₂ => ?_
    · rw [Overflows, upd_self, hassoc] at ho
      refine ho.imp_right fun hfull => ?_
      omega
    · obtain ⟨hready', hinode', hfree'⟩ := h₂
      rw [upd_self, upd_upd, hassoc] at hready'
      rw [upd_self, hassoc] at hfree'
      exact ⟨hready', hinode'.trans hinode, by omega⟩

end Xv6.Mkfs
