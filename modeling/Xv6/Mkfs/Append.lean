import Xv6.Mkfs.Stores

/-!
# Appending to an inode

The specifications of `rsect`, `wsect`, `rinode`, `winode`, `ialloc` and `iappend`. `Ready s c t`
says that the image holds inodes of the types `t` with the contents `c`; `ialloc` adds an
inode and `iappend` adds bytes to one of them, or `mkfs` runs into the end of the image or of the
file size. While `iappend` works, its copy of the inode is ahead of the image.
-/

namespace Xv6.Mkfs

open Fs
open Prog (ends_bind ends_pure ends_atomic)

variable {s s' : State} {E : Stop → Prop}

/-! ## Sectors -/

theorem sectorAt_of_le {sec : Nat} (h : sec ≤ FSSIZE) : sectorAt sec = sec := by
  simp only [sectorAt, BSIZE, FSSIZE] at *
  omega

variable {Q : ByteMem → State → Prop}

theorem ends_rsect (hs : s.sectors = FSSIZE) {sec : Nat} (hsec : sec < FSSIZE) :
    (rsect sec).Ends E Q s ↔ Q (s.image sec) s := by
  rw [rsect, ends_atomic, sectorAt_of_le (Nat.le_of_lt hsec), if_pos (by omega)]
  rfl

/-- There is no sector behind the image. -/
theorem ends_rsect_end (hs : s.sectors = FSSIZE) :
    (rsect FSSIZE).Ends E Q s ↔ E (.panic "read") := by
  rw [rsect, ends_atomic, sectorAt_of_le (Nat.le_refl _), if_neg (by omega)]
  rfl

/-- The image with new contents of a sector. -/
def State.put (s : State) (sec : Nat) (buf : ByteMem) : State :=
  { s with image := upd s.image sec buf }

theorem put_image_self (s : State) (sec : Nat) (buf : ByteMem) : (s.put sec buf).image sec = buf :=
  upd_self ..

theorem ends_wsect {Q : Unit → State → Prop} (hs : s.sectors = FSSIZE) {sec : Nat}
    (hsec : sec < FSSIZE) (buf : ByteMem) : (wsect sec buf).Ends E Q s ↔ Q () (s.put sec buf) := by
  have hmax : max s.sectors (sec + 1) = s.sectors := by omega
  rw [wsect, Prog.ends_modify, sectorAt_of_le (Nat.le_of_lt hsec), hmax]
  rfl

/-- From `s` to `s'` only data blocks and `freeblock` have changed. -/
structure Kept (s s' : State) : Prop where
  sectors : s'.sectors = s.sectors
  freeinode : s'.freeinode = s.freeinode
  image : ∀ b < nmeta, s'.image b = s.image b

theorem Kept.refl (s : State) : Kept s s := ⟨rfl, rfl, fun _ _ => rfl⟩

theorem Kept.trans {s'' : State} (h : Kept s s') (h' : Kept s' s'') : Kept s s'' :=
  ⟨h'.sectors.trans h.sectors, h'.freeinode.trans h.freeinode,
    fun b hb => (h'.image b hb).trans (h.image b hb)⟩

theorem Kept.put (s : State) {b : Nat} (hb : nmeta ≤ b) (m : ByteMem) : Kept s (s.put b m) :=
  ⟨rfl, rfl, fun b' hb' => upd_of_ne (by omega) m⟩

/-! ## A block for the next bytes -/

variable {D : Nat → Dinode} {c : Nat → List UInt8} {cap : Nat → Nat} {i fbn : Nat} {d : Dinode}

/-- The inode `d'` is `d` with other addresses that fit into words. -/
structure Readdressed (d d' : Dinode) : Prop where
  eq : d' = { d with addrs := d'.addrs }
  storable : Storable d → Storable d'

theorem Readdressed.refl (d : Dinode) : Readdressed d d := ⟨rfl, id⟩

theorem Readdressed.type {d' : Dinode} (h : Readdressed d d') : d'.type = d.type := by
  rw [h.eq]

theorem Readdressed.trans {d' d'' : Dinode} (h : Readdressed d d') (h' : Readdressed d' d'') :
    Readdressed d d'' := by
  refine ⟨?_, fun hd => h'.storable (h.storable hd)⟩
  rw [h'.eq, h.eq]

theorem Readdressed.withAddr (d : Dinode) {k b : Nat} (hk : k ≤ NDIRECT) (hb : b ≤ FSSIZE) :
    Readdressed d (d.withAddr k b) := by
  have hfs : FSSIZE < 2 ^ 32 := by decide
  refine ⟨rfl, fun h => ⟨h.major, h.minor, h.nlink, h.size, fun k' => ?_, fun k' hk' => ?_⟩⟩
  · exact forall_upd (P := fun _ a => a < 2 ^ 32) (by omega) (fun x _ => h.addrs x) k'
  · show upd d.addrs k b k' = 0
    rw [upd_of_ne (by omega)]
    exact h.only k' hk'

/-- What `fileBlock` has done when it returns `x` and `d'`: block `fbn` of inode `i` is there. -/
structure Grown (D : Nat → Dinode) (i : Nat) (d : Dinode) (fbn : Nat) (c : Nat → List UInt8)
    (cap : Nat → Nat) (s : State) (x : Nat) (d' : Dinode) (s' : State) : Prop where
  kept : Kept s s'
  din : Readdressed d d'
  stores : Stores (upd D i d') s'.image s'.freeblock c (upd cap i (max (cap i) (fbn + 1)))
  block : place (upd D i d') s'.image (filePlace i fbn) = x
  freeblock : s'.freeblock + need (cap i) = s.freeblock + need (max (cap i) (fbn + 1))

section FileBlock

variable (h : Stores (upd D i d) s.image s.freeblock c cap) (ht : d.type ≠ .free)
  (hfbn : fbn ≤ cap i) (hmax : fbn < MAXFILE)
include h ht hfbn hmax

omit hfbn in
/-- The block was there. -/
theorem grown_there {x : Nat} (hx : place (upd D i d) s.image (filePlace i fbn) = x) (hx0 : x ≠ 0) :
    Grown D i d fbn c cap s x d s := by
  have hlt : fbn < cap i := (h.blocks i fbn (by rwa [upd_self]) hmax).mp (by rwa [hx])
  have hcap : max (cap i) (fbn + 1) = cap i := by omega
  exact ⟨.refl s, .refl d, by rw [hcap, upd_eq_self]; exact h, hx, by rw [hcap]⟩

/-- There was no block yet. -/
theorem eq_cap_of_empty (hx : place (upd D i d) s.image (filePlace i fbn) = 0) : fbn = cap i := by
  by_contra hne
  exact (h.blocks i fbn (by rwa [upd_self]) hmax).mpr (by omega) hx

/-- The block stands in a direct slot. -/
theorem addrBlock_ends (hs : s.sectors = FSSIZE) (hd : fbn < NDIRECT) :
    (addrBlock d fbn).Ends E
      (fun r s' => Grown D i d fbn c cap s r.1 r.2 s' ∨
        (r.1 = FSSIZE ∧ s'.sectors = FSSIZE ∧
          FSSIZE + need (cap i) < s.freeblock + need (max (cap i) (fbn + 1)))) s := by
  have hself : upd D i d i = d := upd_self ..
  have hfile : filePlace i fbn = .slot i fbn := if_pos hd
  have hslot : place (upd D i d) s.image (filePlace i fbn) = d.addrs fbn := by
    rw [hfile, place_slot (by rwa [hself]) (Nat.le_of_lt hd), hself]
  rw [addrBlock]
  split
  · rename_i hz
    have hcap := eq_cap_of_empty h ht hfbn hmax (hslot.trans hz)
    have hneed : need (max (cap i) (fbn + 1)) = need (cap i) + 1 := by
      rw [← hcap, Nat.max_eq_right (Nat.le_succ fbn)]
      simp only [need]
      rw [if_neg (by omega), if_neg (by omega)]
    simp only [takeBlock, ends_bind, ends_atomic, Outcome.Meets, ends_pure]
    rcases Nat.lt_or_eq_of_le h.le with hlt | heq
    · have hgrow := h.slot (i := i) (by rwa [hself]) (by omega) hlt
      rw [hself, upd_upd, ← hcap] at hgrow
      refine .inl ⟨⟨rfl, rfl, fun _ _ => rfl⟩, .withAddr d (Nat.le_of_lt hd) h.le, ?_, ?_, by
        rw [hneed]; show s.freeblock + 1 + _ = _; omega⟩
      · rw [← hcap, Nat.max_eq_right (Nat.le_succ fbn)]
        exact hgrow
      · rw [hfile, place_slot (by rw [upd_self]; exact ht) (Nat.le_of_lt hd), upd_self]
        exact upd_self ..
    · exact .inr ⟨heq, hs, by rw [hneed]; omega⟩
  · rename_i hz
    rw [ends_pure]
    exact .inl (grown_there h ht hmax hslot hz)

/-- The block stands in an entry of the indirect block. -/
theorem entryBlock_ends (hs : s.sectors = FSSIZE) (hd : ¬ fbn < NDIRECT) (ha : d.addrs NDIRECT ≠ 0) :
    (entryBlock (d.addrs NDIRECT) (fbn - NDIRECT)).Ends E
      (fun x s' => Grown D i d fbn c cap s x d s' ∨
        (x = FSSIZE ∧ s'.sectors = FSSIZE ∧
          FSSIZE + need (cap i) < s.freeblock + need (max (cap i) (fbn + 1)))) s := by
  have hself : upd D i d i = d := upd_self ..
  have ht' : (upd D i d i).type ≠ .free := by rwa [hself]
  have hj := sub_NDIRECT_lt hmax
  have hfile : filePlace i fbn = .entry i (fbn - NDIRECT) := if_neg hd
  have hentry : place (upd D i d) s.image (filePlace i fbn) =
      word (s.image (d.addrs NDIRECT)) (fbn - NDIRECT) := by
    rw [hfile, place_entry ht' (by rwa [hself]) hj, hself]
  have haddr := h.owns.range (.slot i NDIRECT)
  rw [place_slot ht' (Nat.le_refl _), hself] at haddr
  obtain ⟨hlo, hhi⟩ := haddr ha
  have hind : NDIRECT < cap i := (h.indirect i ht').mp (by rwa [hself])
  rw [entryBlock, ends_bind, ends_rsect hs hhi]
  split
  · rename_i hz
    have hcap := eq_cap_of_empty h ht hfbn hmax (hentry.trans hz)
    have hneed : need (max (cap i) (fbn + 1)) = need (cap i) + 1 := by
      rw [← hcap, Nat.max_eq_right (Nat.le_succ fbn)]
      simp only [need]
      rw [if_pos (by omega), if_pos (by omega)]
    simp only [takeBlock, ends_bind, ends_atomic, Outcome.Meets]
    rw [ends_wsect (s := { s with freeblock := s.freeblock + 1 }) hs hhi, ends_pure]
    rcases Nat.lt_or_eq_of_le h.le with hlt | heq
    · have hgrow := h.entry (i := i) ht' hind (by omega) hlt
      have hplace := place_setWord (i := i) h.owns ht' (by rwa [hself]) hj
        (Nat.lt_trans hlt (by decide))
      rw [hself] at hplace
      rw [hself, ← hcap] at hgrow
      refine .inl ⟨⟨rfl, rfl, fun b hb => upd_of_ne (by omega) _⟩, .refl d, ?_, ?_, by
        rw [hneed]; show s.freeblock + 1 + _ = _; omega⟩
      · rw [← hcap, Nat.max_eq_right (Nat.le_succ fbn)]
        exact hgrow
      · rw [hfile]
        exact (congrFun hplace _).trans (upd_self ..)
    · exact .inr ⟨heq, hs, by rw [hneed]; omega⟩
  · rename_i hz
    rw [ends_pure]
    exact .inl (grown_there h ht hmax hentry hz)

omit hmax in
/-- The block is the first one behind the direct ones: the indirect block is new as well. -/
theorem indirectBlock_ends (hs : s.sectors = FSSIZE) (hd : ¬ fbn < NDIRECT) (ha : d.addrs NDIRECT = 0)
    (hE : FSSIZE + need (cap i) < s.freeblock + need (max (cap i) (fbn + 1)) → ∀ w, E w) :
    (entryBlock s.freeblock (fbn - NDIRECT)).Ends E
      (fun x s' => Grown D i d fbn c cap s x (d.withAddr NDIRECT s.freeblock) s' ∨
        (x = FSSIZE ∧ s'.sectors = FSSIZE ∧
          FSSIZE + need (cap i) < s.freeblock + need (max (cap i) (fbn + 1))))
      { s with freeblock := s.freeblock + 1 } := by
  have hself : upd D i d i = d := upd_self ..
  have ht' : (upd D i d i).type ≠ .free := by rwa [hself]
  have hcap : cap i = NDIRECT := by
    have hnot := (h.indirect i ht').not.mp (by rw [hself, ha]; exact fun h0 => h0 rfl)
    omega
  have hfbn' : fbn = NDIRECT := by omega
  have hneed : need (max (cap i) (fbn + 1)) = need (cap i) + 2 := by
    rw [hcap, hfbn']
    rfl
  rw [entryBlock, ends_bind]
  rcases Nat.lt_or_eq_of_le h.le with hlt | heq
  · have hblank := h.zero s.freeblock (Nat.le_refl _) hlt
    rw [ends_rsect (s := { s with freeblock := s.freeblock + 1 }) hs hlt]
    show Prog.Ends E (if word (s.image s.freeblock) _ = 0 then _ else _) _ _
    rw [hblank, word_zero, if_pos rfl]
    simp only [takeBlock, ends_bind, ends_atomic, Outcome.Meets]
    rw [ends_wsect (s := { s with freeblock := s.freeblock + 1 + 1 }) hs hlt, ends_pure]
    by_cases hlt' : s.freeblock + 1 < FSSIZE
    · have hgrow := h.first (i := i) ht' hcap hlt'
      rw [hself, upd_upd, hblank] at hgrow
      refine .inl ⟨⟨rfl, rfl, fun b hb => upd_of_ne ?_ _⟩,
        .withAddr d (Nat.le_refl _) h.le, ?_, ?_, by
          rw [hneed]; show s.freeblock + 2 + _ = _; omega⟩
      · have := h.nmeta_le
        omega
      · rw [hcap, hfbn', Nat.max_eq_right (Nat.le_succ _)]
        rw [hcap] at hgrow
        rw [Nat.sub_self]
        exact hgrow
      · have hb0 : s.freeblock ≠ 0 := by
          have := h.nmeta_le
          have := h.owns.pos
          omega
        have haddr : (d.withAddr NDIRECT s.freeblock).addrs NDIRECT = s.freeblock :=
          upd_self d.addrs NDIRECT s.freeblock
        rw [hfbn', Nat.sub_self]
        show place _ _ (.entry i 0) = _
        rw [place_entry (by rw [upd_self]; exact ht) (by rw [upd_self, haddr]; exact hb0) (by decide),
          upd_self, haddr]
        show word (upd s.image _ _ _) 0 = _
        rw [upd_self]
        exact word_setWord_self _ _ (Nat.lt_trans hlt' (by decide))
    · exact .inr ⟨by show s.freeblock + 1 = _; omega, hs, by rw [hneed]; omega⟩
  · -- the indirect block lies behind the image
    rw [heq, ends_rsect_end (s := { s with freeblock := FSSIZE + 1 }) hs]
    exact hE (by rw [hneed]; omega) _

/-- `fileBlock` finds block `fbn` or takes a new one. -/
theorem fileBlock_ends (hs : s.sectors = FSSIZE)
    (hE : FSSIZE + need (cap i) < s.freeblock + need (max (cap i) (fbn + 1)) → ∀ w, E w) :
    (fileBlock d fbn).Ends E
      (fun r s' => Grown D i d fbn c cap s r.1 r.2 s' ∨
        (r.1 = FSSIZE ∧ s'.sectors = FSSIZE ∧
          FSSIZE + need (cap i) < s.freeblock + need (max (cap i) (fbn + 1)))) s := by
  rw [fileBlock]
  split
  · rename_i hd
    exact addrBlock_ends h ht hfbn hmax hs hd
  · rename_i hd
    rw [addrBlock]
    split
    · rename_i ha
      simp only [takeBlock, ends_bind, ends_atomic, Outcome.Meets, ends_pure]
      exact indirectBlock_ends h ht hfbn hs hd ha hE
    · rename_i ha
      simp only [ends_bind, ends_pure]
      exact entryBlock_ends h ht hfbn hmax hs hd ha

end FileBlock

/-! ## The loop of iappend -/

/-- What a part of the loop has done when it returns `d'`: the bytes `p` stand behind the end of the
    file. -/
structure Appended (D : Nat → Dinode) (i : Nat) (d : Dinode) (c : Nat → List UInt8)
    (cap : Nat → Nat) (p : List UInt8) (s : State) (d' : Dinode) (s' : State) : Prop where
  kept : Kept s s'
  din : Readdressed d d'
  small : (c i).length ≤ MAXFILE * BSIZE → (c i ++ p).length ≤ MAXFILE * BSIZE
  stores : Stores (upd D i d') s'.image s'.freeblock (upd c i (c i ++ p))
    (upd cap i (blocks (c i ++ p).length))
  freeblock : s'.freeblock + need (blocks (c i).length) =
    s.freeblock + need (blocks (c i ++ p).length)

/-- The bytes `p` do not fit into the file or into the image. -/
def Overflows (i : Nat) (c : Nat → List UInt8) (p : List UInt8) (s : State) : Prop :=
  MAXFILE * BSIZE < (c i ++ p).length ∨
    FSSIZE + need (blocks (c i).length) < s.freeblock + need (blocks (c i ++ p).length)

theorem blocks_add {off n : Nat} (hn : 0 < n) (hle : off + n ≤ (off / BSIZE + 1) * BSIZE) :
    blocks (off + n) = max (blocks off) (off / BSIZE + 1) := by
  simp only [blocks, BSIZE] at *
  omega

theorem div_le_blocks (off : Nat) : off / BSIZE ≤ blocks off := by
  simp only [blocks, BSIZE]
  omega

variable {p : List UInt8}

/-- Some of the bytes do not overflow if all of them do not. -/
theorem Overflows.of_take {n : Nat} (h : Overflows i c (p.take n) s) :
    Overflows i c p s := by
  have hlen : (c i ++ p.take n).length ≤ (c i ++ p).length := by
    simp only [List.length_append, List.length_take]
    omega
  refine h.imp (fun hbig => Nat.lt_of_lt_of_le hbig hlen) fun hfull => Nat.lt_of_lt_of_le hfull ?_
  exact Nat.add_le_add_left (need_mono (blocks_mono hlen)) _

namespace Appended

variable {p q : List UInt8} {d' d'' : Dinode} {s'' : State}

/-- Nothing to append. -/
theorem nil (h : Stores (upd D i d) s.image s.freeblock c cap) (hcap : cap i = blocks (c i).length) :
    Appended D i d c cap [] s d s := by
  refine ⟨.refl s, .refl d, ?_, ?_, ?_⟩ <;> rw [List.append_nil]
  · exact id
  · rw [upd_eq_self, ← hcap, upd_eq_self]
    exact h

/-- What is left to append. -/
theorem trans (h : Appended D i d c cap p s d' s')
    (h' : Appended D i d' (upd c i (c i ++ p)) (upd cap i (blocks (c i ++ p).length)) q s' d'' s'') :
    Appended D i d c cap (p ++ q) s d'' s'' := by
  obtain ⟨hkept, hdin, hsmall, hst, hfree⟩ := h'
  rw [upd_self] at hsmall hst hfree
  rw [upd_upd, upd_upd] at hst
  rw [List.append_assoc] at hsmall hst hfree
  refine ⟨h.kept.trans hkept, h.din.trans hdin, fun hle => hsmall (h.small hle), hst, ?_⟩
  have := h.freeblock
  omega

theorem overflows (h : Appended D i d c cap p s d' s') (ho : Overflows i (upd c i (c i ++ p)) q s') :
    Overflows i c (p ++ q) s := by
  have hfree := h.freeblock
  rw [Overflows, upd_self, List.append_assoc] at ho
  refine ho.imp_right fun hfull => ?_
  omega

end Appended

/-- A round of the loop appends the bytes that fit into the block of the end of the file. -/
theorem appendRound_ends (h : Stores (upd D i d) s.image s.freeblock c cap)
    (hs : s.sectors = FSSIZE) (ht : d.type ≠ .free) (hcap : cap i = blocks (c i).length)
    (hp : 0 < p.length) (hE : Overflows i c p s → ∀ w, E w) :
    (appendRound d (c i).length p).Ends E
      (fun r s' => 0 < r.2 ∧ r.2 ≤ p.length ∧ Appended D i d c cap (p.take r.2) s r.1 s') s := by
  obtain ⟨off, hoff⟩ : ∃ off, off = (c i).length := ⟨_, rfl⟩
  rw [← hoff] at hcap
  have hmod := Nat.div_add_mod off BSIZE
  have hmodlt : off % BSIZE < BSIZE := Nat.mod_lt _ (by decide)
  have hmul : (off / BSIZE + 1) * BSIZE = BSIZE * (off / BSIZE) + BSIZE := by
    rw [Nat.add_mul, Nat.mul_comm, Nat.one_mul]
  rw [appendRound, ← hoff]
  by_cases hbig : MAXFILE ≤ off / BSIZE
  · simp only [if_pos hbig, Prog.ends_panic]
    have hend : MAXFILE * BSIZE ≤ off :=
      Nat.le_trans (Nat.mul_le_mul_right _ hbig) (Nat.div_mul_le_self off BSIZE)
    refine hE (.inl ?_) _
    rw [List.length_append]
    omega
  obtain ⟨n1, hn1⟩ : ∃ n1, n1 = min p.length ((off / BSIZE + 1) * BSIZE - off) := ⟨_, rfl⟩
  simp only [if_neg hbig, ← hn1]
  have hlen : (c i ++ p.take n1).length = off + n1 := by
    rw [List.length_append, List.length_take, ← hoff]
    omega
  have hblocks : blocks (off + n1) = max (blocks off) (off / BSIZE + 1) :=
    blocks_add (by omega) (by omega)
  have hover : FSSIZE + need (cap i) < s.freeblock + need (max (cap i) (off / BSIZE + 1)) →
      ∀ w, E w := by
    intro hfull
    refine hE (Overflows.of_take (n := n1) (.inr ?_))
    rwa [hlen, hblocks, ← hoff, ← hcap]
  rw [ends_bind]
  refine (fileBlock_ends h ht (hcap ▸ div_le_blocks off) (by omega) hs hover).mono fun r s₁ hr => ?_
  simp only [ends_bind]
  rcases hr with ⟨hkept, hdin, hst, hblock, hfree⟩ | ⟨hx, hs₁, hfull⟩
  · have hs₁ : s₁.sectors = FSSIZE := hkept.sectors.trans hs
    rw [hcap, ← hblocks] at hst hfree
    have ht₁ : (upd D i r.2 i).type ≠ .free := by
      rw [upd_self, hdin.type]
      exact ht
    have hlast : off / BSIZE < upd cap i (blocks (off + n1)) i := by
      rw [upd_self, hblocks]
      omega
    have hx0 : r.1 ≠ 0 := by
      rw [← hblock]
      exact (hst.blocks i _ ht₁ (by omega)).mpr hlast
    have hrange := hst.owns.range _ (hblock.symm ▸ hx0)
    rw [hblock] at hrange
    have hsub : off - off / BSIZE * BSIZE = off % BSIZE := by
      rw [Nat.mul_comm]
      omega
    rw [ends_rsect hs₁ hrange.2, ends_wsect hs₁ hrange.2, ends_pure, hsub]
    refine ⟨by omega, by omega, hkept.trans (.put s₁ hrange.1 _), hdin, fun _ => ?_, ?_, ?_⟩
    · have : (off / BSIZE + 1) * BSIZE ≤ MAXFILE * BSIZE := Nat.mul_le_mul_right _ (by omega)
      rw [hlen]
      omega
    · rw [hlen]
      have hfit : (c i).length % BSIZE + (p.take n1).length ≤ BSIZE := by
        rw [← hoff, List.length_take]
        omega
      have happ := hst.append (by rw [← hoff]; exact hblock) hx0 hfit (by rwa [← hoff])
      rwa [← hoff] at happ
    · rw [hlen, ← hoff]
      exact hfree
  · -- the new block lies behind the image
    rw [hx, ends_rsect_end hs₁]
    exact hover hfull _

theorem appendLoop_ends {fuel : Nat} (h : Stores (upd D i d) s.image s.freeblock c cap)
    (hs : s.sectors = FSSIZE) (ht : d.type ≠ .free) (hcap : cap i = blocks (c i).length)
    (hfuel : p.length ≤ fuel) (hE : Overflows i c p s → ∀ w, E w) :
    (appendLoop fuel d (c i).length p).Ends E
      (fun r s' => r.2 = (c i ++ p).length ∧ Appended D i d c cap p s r.1 s') s := by
  induction fuel generalizing d p s c cap with
  | zero =>
    obtain rfl : p = [] := List.eq_nil_of_length_eq_zero (by omega)
    rw [appendLoop, ends_pure]
    exact ⟨by rw [List.append_nil], .nil h hcap⟩
  | succ fuel ih =>
    rw [appendLoop]
    split
    · rename_i hp
      rw [hp, ends_pure]
      exact ⟨by rw [List.append_nil], .nil h hcap⟩
    · rename_i hp
      rw [ends_bind]
      refine (appendRound_ends h hs ht hcap (List.length_pos_iff.mpr hp) hE).mono fun r s₁ hr => ?_
      obtain ⟨hpos, hle, happ⟩ := hr
      have hoff : (c i).length + r.2 = (upd c i (c i ++ p.take r.2) i).length := by
        rw [upd_self, List.length_append, List.length_take]
        omega
      have hsplit : p.take r.2 ++ p.drop r.2 = p := List.take_append_drop ..
      simp only [hoff]
      refine (ih happ.stores (happ.kept.sectors.trans hs) (by rw [happ.din.type]; exact ht) ?_ ?_
        fun ho => hE ?_).mono fun r' s' hr' => ?_
      · rw [upd_self, upd_self]
      · rw [List.length_drop]
        omega
      · have hall := happ.overflows ho
        rwa [hsplit] at hall
      · obtain ⟨hoff', happ'⟩ := hr'
        have hall := happ.trans happ'
        rw [hsplit] at hall
        rw [upd_self, List.append_assoc, hsplit] at hoff'
        exact ⟨hoff', hall⟩

end Xv6.Mkfs
