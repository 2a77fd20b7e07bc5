import Xv6.Mkfs.Format
import Xv6.Spec.GroupCommit
import Xv6.Spec.ReadInode
import Xv6.Spec.ReadWrite

/-!
# bmap on the blocks of mkfs

`Shows t s` says that the buffers of `t` hold the bitmap, the data blocks and the inodes in memory of the
state `s` of `Kernel/Inode`, on a disk with the layout of `mkfs`. `bmap` on buffers then does what
`bmap` does in `Kernel/Inode` (`bmap_shows`), and it passes to `log_write` every block it changes, but none of
the blocks that files have already (`Kept`).
-/

namespace Xv6.InodeIo

open Fs
open Prog (ends_bind ends_pure ends_gets ends_modify)

variable {ip : InodePtr} {t t' t'' : State} {s s' : Fs.State}

/-- The reason for which `log_write` stops inside of a transaction. -/
def TooBig (why : Stop) : Prop := why = .panic "too big a transaction"

/-- The buffers hold what `s` says about the bitmap and the data blocks. -/
structure Shows (t : State) (s : Fs.State) : Prop where
  itable : s.itable = t.itable
  data : ∀ b, nmeta ≤ b → s.data b = t.cache b
  bitmap : ∀ b < FSSIZE, s.bitmap b = Mkfs.bit (t.cache Mkfs.bmapstart) b

/-- Every buffer that differs from the disk is in the header of the log. -/
def State.Clean (t : State) : Prop := ∀ b, t.lh.names b ∨ t.cache b = t.disk b

/-- What a function does that passes its changes to `log_write`: the new blocks of the header are in
    `N`. -/
structure Kept (N : Nat → Prop) (t t' : State) : Prop where
  disk : t'.disk = t.disk
  outstanding : t'.outstanding = t.outstanding
  names : ∀ b, t.lh.names b → t'.lh.names b
  only : ∀ b, t'.lh.names b → t.lh.names b ∨ N b
  clean : t.Clean → t'.Clean

theorem Kept.refl (N : Nat → Prop) (t : State) : Kept N t t :=
  ⟨rfl, rfl, fun _ h => h, fun _ h => .inl h, fun h => h⟩

theorem Kept.trans {N N' : Nat → Prop} (h : Kept N t t') (h' : Kept N' t' t'') :
    Kept (fun b => N b ∨ N' b) t t'' := by
  refine ⟨h'.disk.trans h.disk, h'.outstanding.trans h.outstanding,
    fun b hb => h'.names b (h.names b hb), fun b hb => ?_, fun hc => h'.clean (h.clean hc)⟩
  rcases h'.only b hb with hold | hnew
  · exact (h.only b hold).imp_right .inl
  · exact .inr (.inr hnew)

theorem Kept.mono {N N' : Nat → Prop} (h : Kept N t t') (hN : ∀ b, N b → N' b) : Kept N' t t' :=
  ⟨h.disk, h.outstanding, h.names, fun b hb => (h.only b hb).imp_right (hN b), h.clean⟩

/-! ## A buffer and the log -/

variable {Q : Unit → State → Prop} {b : Nat} {sb : Superblock}

theorem logWrite_ends (ho : 1 ≤ t.outstanding)
    (hQ : Q () { t with passed := b :: t.passed, lh := t.lh.absorb b }) :
    (logWrite sb b).Ends TooBig Q t := by
  rw [logWrite, ends_bind, ends_modify, Prog.ends_atomic]
  split
  · rfl
  · rw [if_neg (by show ¬ t.outstanding < 1; omega)]
    exact hQ

/-- A change of a buffer, followed by `log_write`. -/
structure Put (b : Nat) (m : ByteMem) (t t' : State) : Prop where
  itable : t'.itable = t.itable
  cache : t'.cache = upd t.cache b m
  kept : Kept (fun c => c = b) t t'

theorem put_ends {f : ByteMem → ByteMem}
    (ho : 1 ≤ t.outstanding) (hQ : ∀ t', Put b (f (t.cache b)) t t' → Q () t') :
    (setBuf b f).Ends TooBig (fun _ t₁ => (logWrite sb b).Ends TooBig Q t₁) t := by
  rw [setBuf, ends_modify]
  refine logWrite_ends ho (hQ _ ⟨rfl, rfl, rfl, rfl, fun c hc => ?_, fun c hc => ?_,
    fun hclean c => ?_⟩)
  · exact Log.absorb_names.mpr (.inr hc)
  · exact (Log.absorb_names.mp hc).symm
  · by_cases hcb : c = b
    · exact .inl (Log.absorb_names.mpr (.inl hcb))
    · rcases hclean c with hn | hsame
      · exact .inl (Log.absorb_names.mpr (.inr hn))
      · refine .inr ?_
        show upd t.cache b _ c = t.disk c
        rw [upd_of_ne hcb]
        exact hsame

theorem bmapstart_lt : Mkfs.bmapstart < nmeta := by decide

/-- A data block is stored. -/
theorem Put.shows {m : ByteMem} (h : Put b m t t') (hs : Shows t s) (hb : nmeta ≤ b) :
    Shows t' { s with data := upd s.data b m } := by
  have hne : Mkfs.bmapstart ≠ b := by
    have := bmapstart_lt
    omega
  refine ⟨hs.itable.trans h.itable.symm, fun c hc => ?_, fun c hc => ?_⟩
  · show upd s.data b m c = _
    rw [h.cache, upd_apply, upd_apply, hs.data c hc]
  · rw [h.cache, upd_of_ne hne]
    exact hs.bitmap c hc

/-- A bit of the bitmap is set. -/
theorem Put.shows_setBit {bi : Nat} (h : Put Mkfs.bmapstart (setBit (t.cache Mkfs.bmapstart) bi) t t')
    (hs : Shows t s) : Shows t' { s with bitmap := upd s.bitmap bi true } := by
  have hlt := bmapstart_lt
  refine ⟨hs.itable.trans h.itable.symm, fun c hc => ?_, fun c hc => ?_⟩
  · rw [h.cache, upd_of_ne (by omega)]
    exact hs.data c hc
  · show upd s.bitmap bi true c = _
    rw [h.cache, upd_self, setBit, Mkfs.bit_upd, upd_apply]
    by_cases hcb : c = bi
    · simp [hcb]
    · simp [hcb, hs.bitmap c hc]

/-! ## balloc -/

theorem clearBit_spec {m : ByteMem} {n bi : Nat} (h : clearBit m n = some bi) :
    Mkfs.bit m bi = false ∧ bi < n := by
  have hmem := List.mem_of_find?_eq_some h
  have htest := List.find?_some h
  refine ⟨?_, List.mem_range.mp hmem⟩
  rw [Mkfs.bit]
  simpa using htest

/-- `balloc` returns 0 and changes nothing, or it marks and zeroes a free block. -/
theorem balloc_shows {Q : Nat → State → Prop} (h : Shows t s) (ho : 1 ≤ t.outstanding)
    (hres : ∀ b < nmeta, s.bitmap b = true) (h0 : Q 0 t)
    (h1 : ∀ b t', s.bitmap b = false → b < FSSIZE → Shows t' (s.alloc b) →
      Kept (fun c => c = Mkfs.bmapstart ∨ c = b) t t' → Q b t') :
    (balloc mkfsSuperblock).Ends TooBig Q t := by
  rw [balloc, ends_bind]
  -- there is one bitmap block
  have hone : (mkfsSuperblock.size + BPB - 1) / BPB = 1 := by decide
  rw [hone]
  refine Prog.Ends.mono (Prog.ends_findUp (J := fun _ t' => t' = t)
    (Q := fun b t' => s.bitmap b = false ∧ b < FSSIZE ∧
      Put Mkfs.bmapstart (setBit (t.cache Mkfs.bmapstart) b) t t')
    (fun k t' _ hk ht' => ?_) rfl) fun found t' hfound => ?_
  · obtain rfl : k = 0 := by omega
    subst ht'
    have hblock : mkfsSuperblock.bblock (0 * BPB) = Mkfs.bmapstart := by decide
    have hbits : min BPB (mkfsSuperblock.size - 0 * BPB) = FSSIZE := by decide
    simp only [hblock, hbits, bread, ends_bind, ends_gets]
    cases hclear : clearBit (t'.cache Mkfs.bmapstart) FSSIZE with
    | none => exact ends_pure.mpr rfl
    | some bi =>
      obtain ⟨hbit, hlt⟩ := clearBit_spec hclear
      simp only [ends_bind]
      refine put_ends ho fun t₁ hput => ?_
      rw [ends_pure, Nat.zero_mul, Nat.zero_add]
      exact ⟨by rw [h.bitmap bi hlt]; exact hbit, hlt, hput⟩
  · cases found with
    | none =>
      have ht' : t' = t := hfound
      subst ht'
      exact ends_pure.mpr h0
    | some b =>
      obtain ⟨hfree, hlt, hput⟩ : s.bitmap b = false ∧ b < FSSIZE ∧ _ := hfound
      have hb : nmeta ≤ b := by
        by_contra hlow
        rw [hres b (by omega)] at hfree
        cases hfree
      show (bzero mkfsSuperblock b >>= fun _ => (pure b : M Nat)).Ends TooBig Q t'
      have hzero : Shows t' { s with bitmap := upd s.bitmap b true } := hput.shows_setBit h
      rw [ends_bind, bzero, ends_bind]
      refine put_ends (by rw [hput.kept.outstanding]; exact ho) fun t₂ hput₂ => ?_
      rw [ends_pure]
      obtain ⟨hi, hd, hm⟩ := hput₂.shows hzero hb
      exact h1 b t₂ hfree hlt ⟨hi, hd, hm⟩ (hput.kept.trans hput₂.kept)

/-! ## bmap -/

/-- `ip->addrs[i] = addr`. -/
theorem Shows.setAddr (h : Shows t s) (i b : Nat) :
    Shows (t.setAddr ip i b) (s.withAddr ip i b) := by
  refine ⟨?_, h.data, h.bitmap⟩
  show upd s.itable ip _ = upd t.itable ip _
  rw [h.itable]
  rfl

/-- The blocks that `bmap` may pass to `log_write`: no blocks of files. -/
def Spare (ip : InodePtr) (s s' : Fs.State) (b : Nat) : Prop :=
  b < nmeta ∨ s.bitmap b = false ∨ b = placeAt s' ip (.slot (s'.itable ip).inum NDIRECT)

theorem Kept.outstanding_le {N : Nat → Prop} (h : Kept N t t') (ho : 1 ≤ t.outstanding) :
    1 ≤ t'.outstanding := by
  rw [h.outstanding]
  exact ho

/-- `addrBlock` returns what stands in the slot, returns 0, or fills the slot. -/
theorem addrBlock_shows {Q : Nat → State → Prop} (h : Shows t s) (hm : Maps ip s)
    (ho : 1 ≤ t.outstanding) {k : Nat} (hk : k ≤ NDIRECT)
    (hthere : (s.itable ip).din.addrs k ≠ 0 → Q ((s.itable ip).din.addrs k) t)
    (hfull : (s.itable ip).din.addrs k = 0 → Q 0 t)
    (hnew : ∀ b t', (s.itable ip).din.addrs k = 0 → s.bitmap b = false →
      Stored ip (.slot (s.itable ip).inum k) b s ((s.alloc b).withAddr ip k b) →
      Shows t' ((s.alloc b).withAddr ip k b) →
      Kept (fun c => c = Mkfs.bmapstart ∨ c = b) t t' → Q b t') :
    (addrBlock mkfsSuperblock ip k).Ends TooBig Q t := by
  rw [addrBlock, inode, ends_bind, ends_gets, ← h.itable]
  split
  · rename_i hz
    rw [ends_bind]
    refine balloc_shows h ho hm.owns.reserved ?_ fun b t' hb hlt hs hkept => ?_
    · rw [if_pos rfl, ends_pure]
      exact hfull hz
    · have hst := hm.slot hk hb hlt hz
      rw [if_neg hst.ne, ends_bind, setDin, setInode, ends_modify, ends_pure]
      exact hnew b _ hz hb hst (hs.setAddr k b)
        ⟨hkept.disk, hkept.outstanding, hkept.names, hkept.only, hkept.clean⟩
  · rename_i hz
    rw [ends_pure]
    exact hthere hz

/-- The indirect block is a data block. -/
theorem nmeta_le_indirect (hm : Maps ip s) (ha : (s.itable ip).din.addrs NDIRECT ≠ 0) :
    nmeta ≤ (s.itable ip).din.addrs NDIRECT := by
  have hind := hm.placeAt_slot (Nat.le_refl NDIRECT)
  rw [← hind]
  exact (hm.owns.range _ (by rwa [hind])).1

/-- `entryBlock` finds or fills an entry of the indirect block. -/
theorem entryBlock_shows (h : Shows t s) (hm : Maps ip s) (ho : 1 ≤ t.outstanding) {bn : Nat}
    (hd : ¬ bn < NDIRECT) (hbn : bn < MAXFILE) (ha : (s.itable ip).din.addrs NDIRECT ≠ 0) :
    (entryBlock mkfsSuperblock ((s.itable ip).din.addrs NDIRECT) (bn - NDIRECT)).Ends TooBig
      (fun r t' => ∃ s', Shows t' s' ∧ Mapped ip bn s r s' ∧ Kept (Spare ip s s') t t') t := by
  have hj := sub_NDIRECT_lt hbn
  have hfile : filePlace (s.itable ip).inum bn = .entry (s.itable ip).inum (bn - NDIRECT) :=
    if_neg hd
  have hval := hm.placeAt_entry ha hj
  have hmeta := nmeta_le_indirect hm ha
  rw [entryBlock, bread, ends_bind, ends_gets, ← h.data _ hmeta]
  split
  · rename_i hz
    rw [ends_bind]
    refine balloc_shows h ho hm.owns.reserved ?_ fun b t₁ hb hlt hs hkept => ?_
    · simp only [ne_eq, not_true_eq_false, if_false, ends_pure]
      exact ⟨s, h, hm.full (by rw [hfile, hval, hz]), .refl _ t⟩
    · have hst := hm.entry hj hb hlt ha hz
      simp only [ne_eq, hst.ne, not_false_eq_true, if_true, ends_bind]
      refine put_ends (hkept.outstanding_le ho) fun t₂ hput => ?_
      rw [ends_pure]
      have hshows := hput.shows hs hmeta
      rw [← hs.data _ hmeta] at hshows
      refine ⟨_, hshows, hst.mapped hfile (hval.trans hz), (hkept.trans hput.kept).mono fun c hc => ?_⟩
      rcases hc with (rfl | rfl) | rfl
      · exact .inl bmapstart_lt
      · exact .inr (.inl hb)
      · exact .inr (.inr (hst.maps.placeAt_slot (Nat.le_refl _)).symm)
  · rename_i hz
    rw [ends_pure]
    exact ⟨s, h, hm.there hz (by rw [hfile, hval]), .refl _ t⟩

/-- `bmap` on buffers does what it does in `Kernel/Inode`. -/
theorem bmap_shows (h : Shows t s) (hm : Maps ip s) (ho : 1 ≤ t.outstanding) {bn : Nat}
    (hbn : bn < MAXFILE) :
    (bmap mkfsSuperblock ip bn).Ends TooBig
      (fun r t' => ∃ s', Shows t' s' ∧ Mapped ip bn s r s' ∧ Kept (Spare ip s s') t t') t := by
  rw [bmap]
  by_cases hd : bn < NDIRECT
  · rw [if_pos hd]
    have hfile : filePlace (s.itable ip).inum bn = .slot (s.itable ip).inum bn := if_pos hd
    have hval := hm.placeAt_slot (Nat.le_of_lt hd)
    refine addrBlock_shows h hm ho (by omega) (fun hne => ?_) (fun hz => ?_)
      fun b t' hz hb hst hs hkept => ?_
    · exact ⟨s, h, hm.there hne (by rw [hfile, hval]), .refl _ t⟩
    · exact ⟨s, h, hm.full (by rw [hfile, hval, hz]), .refl _ t⟩
    · refine ⟨_, hs, hst.mapped hfile (hval.trans hz), hkept.mono fun c hc => ?_⟩
      rcases hc with rfl | rfl
      · exact .inl bmapstart_lt
      · exact .inr (.inl hb)
  · rw [if_neg hd, if_pos (sub_NDIRECT_lt hbn), ends_bind]
    have hfile : filePlace (s.itable ip).inum bn = .entry (s.itable ip).inum (bn - NDIRECT) :=
      if_neg hd
    refine addrBlock_shows h hm ho (Nat.le_refl _) (fun hne => ?_) (fun hz => ?_)
      fun b t' hz hb hst hs hkept => ?_
    · rw [if_neg hne]
      exact entryBlock_shows h hm ho hd hbn hne
    · rw [if_pos rfl, ends_pure]
      exact ⟨s, h, hm.full (by rw [hfile, placeAt_entry_of_none hz]), .refl _ t⟩
    · rw [if_neg hst.ne]
      have hrest := entryBlock_shows hs hst.maps (hkept.outstanding_le ho) hd hbn
        (by rw [addrs_withAddr]; exact hst.ne)
      rw [addrs_withAddr] at hrest
      refine hrest.mono ?_
      rintro r t'' ⟨s', hs', hmap, hkept'⟩
      refine ⟨s', hs', hst.mapped_trans (by rw [hfile, placeAt_entry_of_none hz]) hmap,
        (hkept.trans hkept').mono fun c hc => ?_⟩
      rcases hc with (rfl | rfl) | hspare
      · exact .inl bmapstart_lt
      · exact .inr (.inl hb)
      · -- a block that is free after the first `balloc` was free before it
        rcases hspare with hlow | hfree | hslot
        · exact .inl hlow
        · refine .inr (.inl ?_)
          have hfree' : upd s.bitmap b true c = false := hfree
          by_cases hcb : c = b
          · rw [hcb, upd_self] at hfree'
            cases hfree'
          · rwa [upd_of_ne hcb] at hfree'
        · exact .inr (.inr hslot)

/-- The blocks of files are not passed to `log_write`. -/
theorem not_spare (hm : Maps ip s) {bn r : Nat} (h : Mapped ip bn s r s') {i k : Nat}
    (hp : placeAt s ip (filePlace i k) ≠ 0) : ¬ Spare ip s s' (placeAt s ip (filePlace i k)) := by
  intro hspare
  obtain ⟨hlo, -⟩ := hm.owns.range _ hp
  rcases hspare with hlow | hfree | hslot
  · omega
  · rw [hm.owns.marked _ hp] at hfree
    cases hfree
  · have hkeep := (h.ext.keeps i k hp).1
    rw [← hkeep] at hp hslot
    exact filePlace_ne_indirect _ _ _ (h.maps.owns.inj _ _ hp hslot)

/-! ## What the buffers show -/

/-- The state of `Kernel/Inode` in the buffers. -/
def State.fs (t : State) : Fs.State where
  bitmap b := Mkfs.bit (t.cache (mkfsSuperblock.bblock b)) (b % BPB)
  dinode i :=
    if i < NINODES then Mkfs.loadDinode (t.cache (mkfsSuperblock.iblock i)) (Mkfs.islot i)
    else Dinode.zero
  data := t.cache
  itable := t.itable
  handed := []

theorem shows_fs (t : State) : Shows t t.fs := by
  refine ⟨rfl, fun _ _ => rfl, fun b hb => ?_⟩
  have hlt : b < BPB := Nat.lt_trans hb (by decide)
  have hblock : mkfsSuperblock.bblock b = Mkfs.bmapstart := by
    rw [Superblock.bblock, Nat.div_eq_of_lt hlt, Nat.zero_add]
    rfl
  show Mkfs.bit (t.cache (mkfsSuperblock.bblock b)) (b % BPB) = _
  rw [hblock, Nat.mod_eq_of_lt hlt]

/-- Byte `x` of the file as `readi` finds it. -/
def State.byteOf (t : State) (ip : InodePtr) (x : Nat) : UInt8 :=
  t.cache (t.blockOf ip (x / BSIZE)) (x % BSIZE)

theorem Shows.blockOf_eq (h : Shows t s) (hm : Maps ip s) {bn : Nat} (hbn : bn < MAXFILE) :
    t.blockOf ip bn = placeAt s ip (filePlace (s.itable ip).inum bn) := by
  rw [State.blockOf, filePlace, ← h.itable]
  by_cases hd : bn < NDIRECT
  · rw [if_pos hd, if_pos hd, hm.placeAt_slot (Nat.le_of_lt hd)]
  · rw [if_neg hd, if_neg hd]
    by_cases ha : (s.itable ip).din.addrs NDIRECT = 0
    · rw [if_pos ha, placeAt_entry_of_none ha]
    · rw [if_neg ha, hm.placeAt_entry ha (sub_NDIRECT_lt hbn), h.data _ (nmeta_le_indirect hm ha)]

theorem Shows.byteOf_eq (h : Shows t s) (hm : Maps ip s) {x : Nat} (hx : x < MAXFILE * BSIZE)
    (hb : blockAt s ip x ≠ 0) : t.byteOf ip x = byteAt s ip x := by
  have hbn : x / BSIZE < MAXFILE := (Nat.div_lt_iff_lt_mul BSIZE_pos).mpr hx
  rw [State.byteOf, h.blockOf_eq hm hbn, byteAt, blockAt, h.data _ (hm.owns.range _ hb).1]

end Xv6.InodeIo
