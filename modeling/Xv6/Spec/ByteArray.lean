import Xv6.Spec.BlockOwnership

/-!
# readi and writei as operations on an array of bytes

`contents s ip` is the file in `ip` as a list of bytes. For a file without holes `readi` returns a
part of this list, and `writei` splices the bytes of the source into it; it writes fewer than it was asked
for only when `balloc` has found no free block (`readi_writei_bytes`).
-/

namespace Xv6.Fs

open Prog (ends_bind ends_pure ends_gets ends_modify)

variable {ip : InodePtr} {s s' : State} {E : Stop → Prop}

/-! ## No free block -/

/-- All blocks are marked in the bitmap. -/
def NoFree (s : State) : Prop := ∀ b < FSSIZE, s.bitmap b = true

theorem firstFree_eq_none {bitmap : Nat → Bool} {b n : Nat} (h : firstFree bitmap b n = none) :
    ∀ c, b ≤ c → c < b + n → bitmap c = true := by
  induction n generalizing b with
  | zero =>
    intro c h₁ h₂
    omega
  | succ n ih =>
    rw [firstFree] at h
    split at h
    · rename_i hb
      intro c h₁ h₂
      rcases Nat.eq_or_lt_of_le h₁ with rfl | hlt
      · exact hb
      · exact ih h c (by omega) (by omega)
    · cases h

/-- `balloc` returns 0 only if it finds no free block. -/
theorem balloc_full {P : Type} {own : P → Nat} (h : Owns own s.bitmap nmeta FSSIZE) :
    balloc.Ends E (fun r s' => r = 0 → NoFree s') s := by
  rw [balloc, ends_bind, Prog.ends_atomic]
  cases hf : firstFree s.bitmap 0 FSSIZE with
  | none =>
    show (pure 0 : FsM Nat).Ends E _ s
    rw [ends_pure]
    exact fun _ b hb => firstFree_eq_none hf b (Nat.zero_le b) (by omega)
  | some b =>
    show (bzero b >>= fun _ => (pure b : FsM Nat)).Ends E _ _
    rw [ends_bind, bzero, setData, ends_modify, ends_pure]
    intro hb
    have hle := h.le_of_free (firstFree_spec hf).1
    rw [hb] at hle
    exact absurd hle (by decide)

section

variable (h : Maps ip s)
include h

theorem addrBlock_full (k : Nat) :
    (addrBlock ip k).Ends E (fun r s' => r = 0 → NoFree s') s := by
  rw [addrBlock, inode, ends_bind, ends_gets]
  split
  · rw [ends_bind]
    refine (balloc_full h.owns).mono fun r s₁ hr => ?_
    split
    · rename_i hz
      rw [ends_pure]
      exact fun _ => hr hz
    · rename_i hz
      rw [ends_bind, setAddr, setDin, setInode, ends_modify, ends_pure]
      exact fun h0 => absurd h0 hz
  · rename_i hz
    rw [ends_pure]
    exact fun h0 => absurd h0 hz

theorem addrBlock_maps : (addrBlock ip NDIRECT).Ends E (fun _ => Maps ip) s :=
  addrBlock_ends h (Nat.le_refl _) (fun _ => h) (fun _ => h) fun _ _ hst => hst.maps

theorem entryBlock_full (addr j : Nat) :
    (entryBlock addr j).Ends E (fun r s' => r = 0 → NoFree s') s := by
  rw [entryBlock, bread, ends_bind, ends_gets]
  split
  · rw [ends_bind]
    refine (balloc_full h.owns).mono fun r s₁ hr => ?_
    by_cases hz : r = 0
    · subst hz
      simpa using hr rfl
    · simp [hz, setData]
  · rename_i hz
    rw [ends_pure]
    exact fun h0 => absurd h0 hz

theorem bmap_full {bn : Nat} (hbn : bn < MAXFILE) :
    (bmap ip bn).Ends E (fun r s' => r = 0 → NoFree s') s := by
  rw [bmap]
  by_cases hd : bn < NDIRECT
  · rw [if_pos hd]
    exact addrBlock_full h bn
  · rw [if_neg hd, if_pos (sub_NDIRECT_lt hbn), ends_bind]
    -- the indirect block may be new, and then the state is another one
    refine ((addrBlock_full h NDIRECT).and (addrBlock_maps h)).mono ?_
    rintro r s₁ ⟨hr, hmaps⟩
    split
    · rename_i hz
      rw [ends_pure]
      exact fun _ => hr hz
    · exact entryBlock_full hmaps r _

/-- The loop of `writei` stops early only at a byte without a block and if there is no free block. -/
theorem writeLoop_full {src : Source} (hok : ∀ pos m, src.ok pos m = true)
    {fuel off pos n : Nat} (hfuel : n ≤ fuel) (hn : off + n ≤ MAXFILE * BSIZE) :
    (writeLoop ip src fuel off pos n).Ends E
      (fun tot s' => tot < n → NoFree s' ∧ blockAt s ip (off + tot) = 0) s := by
  induction fuel generalizing s off pos n with
  | zero =>
    rw [writeLoop, ends_pure]
    omega
  | succ fuel ih =>
    rw [writeLoop]
    split
    · rename_i hz
      rw [ends_pure]
      omega
    · rename_i hz
      have hbn : off / BSIZE < MAXFILE := (Nat.div_lt_iff_lt_mul BSIZE_pos).mpr (by omega)
      have hmod : off % BSIZE < BSIZE := Nat.mod_lt _ BSIZE_pos
      rw [ends_bind]
      refine ((bmap_ends h hbn).and (bmap_full h hbn)).mono ?_
      rintro r s₁ ⟨hr, hfull⟩
      split
      · rename_i hr0
        rw [ends_pure]
        refine fun _ => ⟨hfull hr0, ?_⟩
        -- `bmap` returns the block of a byte that has one
        by_contra hb
        exact (hr.same hb).1 hr0
      · rename_i hr0
        have hblock : r = blockAt s₁ ip off := by
          rw [hr.found hr0, blockAt, hr.ext.inum_eq]
        have hb : blockAt s₁ ip off ≠ 0 := hblock ▸ hr0
        have hstore := changes_store hr.maps hb (src.le pos (min n (BSIZE - off % BSIZE)))
        subst hblock
        simp only [setData, ends_bind, ends_modify, hok, if_true]
        refine (ih hstore.maps (by omega) (by omega)).mono fun tot s' htot => ?_
        rw [ends_pure]
        intro hlt
        obtain ⟨hno, hzero⟩ := htot (by omega)
        refine ⟨hno, ?_⟩
        -- blocks stay in their places, so there was none here at the start of the round either
        by_contra hold
        have hkept := (hr.changes off n).blockAt_eq hold
        rw [Nat.add_assoc] at hzero
        have hzero' : blockAt s₁ ip (off + (min n (BSIZE - off % BSIZE) + tot)) = 0 := by
          rw [← blockAt_store hr.maps hb]
          exact hzero
        rw [hkept] at hzero'
        exact hold hzero'

end

/-! ## The file as a list -/

/-- The bytes of the file in `ip`. -/
def contents (s : State) (ip : InodePtr) : List UInt8 := bytesAt s ip 0 (s.itable ip).din.size

theorem contents_length (s : State) (ip : InodePtr) :
    (contents s ip).length = (s.itable ip).din.size := by
  simp [contents, bytesAt]

theorem contents_getElem? (s : State) (ip : InodePtr) (x : Nat) :
    (contents s ip)[x]? =
      if x < (s.itable ip).din.size then some (byteAt s ip x) else none := by
  split
  · rename_i hx
    simp [contents, bytesAt, hx]
  · rename_i hx
    rw [List.getElem?_eq_none (by rw [contents_length]; omega)]

/-- A part of the file is a part of the list. -/
theorem bytesAt_eq_contents (s : State) (ip : InodePtr) (off n : Nat) :
    bytesAt s ip off (min n ((s.itable ip).din.size - off)) =
      ((contents s ip).drop off).take n := by
  refine List.ext_getElem? fun x => ?_
  rw [List.getElem?_take]
  by_cases hx : x < min n ((s.itable ip).din.size - off)
  · rw [if_pos (by omega), List.getElem?_drop, contents_getElem?, if_pos (by omega)]
    simp only [bytesAt, List.getElem?_map, List.getElem?_range hx, Option.map_some]
  · rw [List.getElem?_eq_none (by simp only [bytesAt, List.length_map, List.length_range]; omega)]
    split
    · rw [List.getElem?_drop, contents_getElem?, if_neg (by omega)]
    · rfl

/-- A source that is read without an error: the memory from the source address on. -/
def Source.ofMem (f : Nat → UInt8) : Source where
  bytes pos m := (List.range m).map fun k => f (pos + k)
  ok _ _ := true
  le pos m := by simp
  all pos m _ := by simp

/-- What `writei` has done when it returns `k`: the first `k` bytes of the source stand in the file
    from `off` on, and all other bytes of this and of the other files are the old ones. -/
structure Spliced (ip : InodePtr) (f : Nat → UInt8) (off n : Nat) (s : State) (k : Nat)
    (s' : State) : Prop where
  filled : Filled ip s'
  le : k ≤ n
  short : k < n → NoFree s'
  contents : contents s' ip =
    (contents s ip).take off ++ (List.range k).map f ++ (contents s ip).drop (off + k)
  size : (s'.itable ip).din.size = max (s.itable ip).din.size (off + k)
  table : s'.itable = upd s.itable ip { s.itable ip with din := (s'.itable ip).din }
  stored : s'.dinode = upd s.dinode (s.itable ip).inum (s'.itable ip).din
  others : ∀ i x, i ≠ (s.itable ip).inum → place s.dinode s.data (filePlace i (x / BSIZE)) ≠ 0 →
    place s'.dinode s'.data (filePlace i (x / BSIZE)) =
      place s.dinode s.data (filePlace i (x / BSIZE)) ∧
    fileByte s' i x = fileByte s i x

/-- For the other inodes the copy in `ip` makes no difference. -/
theorem placeAt_of_ne {i : Nat} (hi : i ≠ (s.itable ip).inum) (m : Nat) :
    placeAt s ip (filePlace i m) = place s.dinode s.data (filePlace i m) := by
  simp only [placeAt, filePlace, logical]
  split <;> simp only [place, upd_of_ne hi]

/-- The bytes of a file after a short or complete write. -/
theorem contents_splice {f : Nat → UInt8} {off k : Nat} (hoff : off ≤ (s.itable ip).din.size)
    (hsize : (s'.itable ip).din.size = max (s.itable ip).din.size (off + k))
    (hin : ∀ j < k, byteAt s' ip (off + j) = f j)
    (hout : ∀ x < (s.itable ip).din.size, x < off ∨ off + k ≤ x →
      byteAt s' ip x = byteAt s ip x) :
    contents s' ip =
      (contents s ip).take off ++ (List.range k).map f ++ (contents s ip).drop (off + k) := by
  have hlen : ((contents s ip).take off).length = off := by
    rw [List.length_take, contents_length]
    omega
  refine List.ext_getElem? fun x => ?_
  rw [contents_getElem?, hsize, List.append_assoc, List.getElem?_append, hlen]
  by_cases hx : x < off
  · -- before the range
    rw [if_pos hx, if_pos (by omega), List.getElem?_take, if_pos hx, contents_getElem?,
      if_pos (by omega), hout x (by omega) (.inl hx)]
  · rw [if_neg hx, List.getElem?_append, List.length_map, List.length_range]
    by_cases hk : x - off < k
    · -- in the range
      have hj := hin (x - off) hk
      rw [show off + (x - off) = x by omega] at hj
      rw [if_pos hk, if_pos (by omega), List.getElem?_map, List.getElem?_range hk, hj]
      rfl
    · -- behind the range
      rw [if_neg hk, List.getElem?_drop, contents_getElem?,
        show off + k + (x - off - k) = x by omega]
      by_cases hxs : x < (s.itable ip).din.size
      · rw [if_pos hxs, if_pos (by omega), hout x hxs (.inr (by omega))]
      · rw [if_neg hxs, if_neg (by omega)]

/-- The loop of `writei`, followed by `iupdate` with the new size. -/
theorem Wrote.spliced {f : Nat → UInt8} {off n k : Nat} {a : Nat → Nat} {s₁ : State} {d : Dinode}
    (h : Filled ip s) (hoff : off ≤ (s.itable ip).din.size) (hmax : off + n ≤ MAXFILE * BSIZE)
    (hw : Wrote ip (.ofMem f) off 0 n s k s₁) (hfull : k < n → NoFree s₁ ∧ blockAt s ip (off + k) = 0)
    (ha : s₁.itable =
      upd s.itable ip { s.itable ip with din := { (s.itable ip).din with addrs := a } })
    (hd : d = { (s.itable ip).din with addrs := a, size := max (s.itable ip).din.size (off + k) })
    (htab : s'.itable = upd s.itable ip { s.itable ip with din := d })
    (hdin : s'.dinode = upd s.dinode (s.itable ip).inum d) (hdata : s'.data = s₁.data)
    (hbitmap : s'.bitmap = s₁.bitmap) (hhanded : s'.handed = s₁.handed) :
    Spliced ip f off n s k s' := by
  have hle := hw.le
  have hsmall := h.small
  have hentry : s'.itable ip = { s.itable ip with din := d } := by rw [htab, upd_self]
  have hinum : (s'.itable ip).inum = (s.itable ip).inum := by rw [hentry]
  have hsize : (s'.itable ip).din.size = max (s.itable ip).din.size (off + k) := by rw [hentry, hd]
  -- the places are the ones after the loop
  have hlog : logical s' ip = s'.dinode := by
    rw [logical, hentry, hdin, upd_upd]
  have hdisk : place s'.dinode s'.data = placeAt s₁ ip := by
    rw [hdin, hdata, hd]
    exact hw.changes.place_eq ha _
  have hplace : placeAt s' ip = placeAt s₁ ip := by rw [placeAt, hlog, hdisk]
  have hblock : ∀ x, blockAt s' ip x = blockAt s₁ ip x := by
    intro x
    rw [blockAt, blockAt, hplace, hinum, hw.changes.inum_eq]
  have hbyte : ∀ x, byteAt s' ip x = byteAt s₁ ip x := by
    intro x
    rw [byteAt, byteAt, hblock, hdata]
  -- a write that ends early has reached the end of the file
  have hshort : k < n → (s.itable ip).din.size ≤ off + k := by
    intro hlt
    by_contra hin
    exact h.full (off + k) (by omega) (hfull hlt).2
  refine ⟨⟨⟨⟨?_, ?_, fun ip' hne hl hv => ?_⟩, ?_, ?_, ?_⟩, ?_, fun x hx => ?_⟩, hle, fun hlt => ?_,
    contents_splice hoff hsize (fun j hj => ?_) fun x hx hout => ?_, hsize, ?_, ?_,
    fun i x hi hx => ?_⟩
  · rw [hentry]
    exact h.maps.ahead.live
  · rw [hentry]
    exact h.maps.ahead.valid
  · have hother : s'.itable ip' = s.itable ip' := by rw [htab, upd_of_ne hne]
    rw [hother] at hl hv ⊢
    obtain ⟨hni, hclean⟩ := h.maps.ahead.others ip' hne hl hv
    rw [hinum]
    refine ⟨hni, ?_⟩
    rw [hclean, hdin, upd_of_ne hni]
  · rw [hhanded]
    exact hw.changes.maps.fresh
  · rw [hentry, hd]
    exact h.maps.alloc
  · rw [hplace, hbitmap]
    exact hw.changes.maps.owns
  · rw [hsize]
    omega
  · rw [hblock]
    by_cases hxs : x < (s.itable ip).din.size
    · rw [hw.changes.blockAt_eq (h.full x hxs)]
      exact h.full x hxs
    · exact hw.mapped x (by omega) (by omega)
  · rw [NoFree, hbitmap]
    exact (hfull hlt).1
  · rw [hbyte, hw.inside f (fun _ _ _ => rfl) j hj, Nat.zero_add]
  · rw [hbyte]
    refine hw.changes.outside x (h.full x hx) ?_
    by_cases hlt : k < n
    · have := hshort hlt
      omega
    · omega
  · rw [hentry, htab]
  · rw [hentry, hdin]
  · have hold := placeAt_of_ne hi (x / BSIZE)
    rw [← hold] at hx
    have hkeep : place s'.dinode s'.data (filePlace i (x / BSIZE)) =
        place s.dinode s.data (filePlace i (x / BSIZE)) := by
      rw [hdisk, hw.changes.keeps i _ hx, hold]
    refine ⟨hkeep, ?_⟩
    rw [fileByte, fileByte, hkeep, ← hold, hdata]
    exact congrFun (hw.changes.others i _ hi hx) _

/-! ## readi and writei -/

/-- The arguments that both `readi` and `writei` reject: an offset behind the end of the file, or an
    end that is no 32-bit number. -/
def OutOfRange (size off n : Nat) : Prop := size < off ∨ 2 ^ 32 ≤ off + n

instance (size off n : Nat) : Decidable (OutOfRange size off n) :=
  inferInstanceAs (Decidable (_ ∨ _))

theorem outOfRange_iff (size : Nat) (off n : UInt32) :
    (off.toNat > size ∨ (off.toNat + n.toNat) % 2 ^ 32 < off.toNat) ↔
      OutOfRange size off.toNat n.toNat := by
  have hoff := off.toNat_lt
  have hn := n.toNat_lt
  simp only [OutOfRange]
  omega

theorem writei_splices (h : Filled ip s) (f : Nat → UInt8) (off n : UInt32) :
    (writei ip (.ofMem f) off.toNat n.toNat).Ends E
      (fun r s' =>
        if OutOfRange (s.itable ip).din.size off.toNat n.toNat ∨
            MAXFILE * BSIZE < off.toNat + n.toNat then
          r = -1 ∧ s' = s
        else ∃ k : Nat, r = k ∧ Spliced ip f off.toNat n.toNat s k s') s := by
  simp only [writei, inode, ends_bind, ends_gets, outOfRange_iff]
  by_cases hrange : OutOfRange (s.itable ip).din.size off.toNat n.toNat
  · rw [if_pos hrange, ends_pure, if_pos (.inl hrange)]
    exact ⟨rfl, rfl⟩
  · rw [if_neg hrange]
    by_cases hmax : MAXFILE * BSIZE < off.toNat + n.toNat
    · rw [if_pos hmax, ends_pure, if_pos (.inr hmax)]
      exact ⟨rfl, rfl⟩
    · simp only [if_neg hmax, if_neg (not_or.mpr ⟨hrange, hmax⟩)]
      have hoff : off.toNat ≤ (s.itable ip).din.size := by
        rw [OutOfRange] at hrange
        omega
      rw [ends_bind]
      refine ((writeLoop_ends h.maps (Nat.le_refl _) (by omega)).and
        (writeLoop_full h.maps (fun _ _ => rfl) (Nat.le_refl _) (by omega))).mono
          fun tot s₁ ⟨hw, hfull⟩ => ?_
      simp only [setDin, setInode, iupdate, ends_bind, ends_modify, ends_pure, upd_self]
      obtain ⟨a, ha⟩ := hw.changes.table
      have hentry : s₁.itable ip =
          { s.itable ip with din := { (s.itable ip).din with addrs := a } } := by
        rw [ha, upd_self]
      have hsize : (if off.toNat + tot > (s.itable ip).din.size then
            { (s.itable ip).din with addrs := a, size := off.toNat + tot }
          else { (s.itable ip).din with addrs := a }) =
          { (s.itable ip).din with
            addrs := a
            size := max (s.itable ip).din.size (off.toNat + tot) } := by
        split
        · rw [Nat.max_eq_right (by omega)]
        · rw [Nat.max_eq_left (by omega)]
      simp only [hentry, hw.changes.dinode, ha, upd_upd, hsize]
      exact ⟨tot, rfl, hw.spliced h hoff (by omega) hfull ha rfl rfl rfl rfl rfl rfl⟩

theorem readi_contents (h : Filled ip s) (off n : UInt32) :
    (readi ip off.toNat n.toNat).Ends E
      (fun r s' => s' = s ∧
        r = if OutOfRange (s.itable ip).din.size off.toNat n.toNat then []
          else ((contents s ip).drop off.toNat).take n.toNat) s := by
  by_cases hrange : OutOfRange (s.itable ip).din.size off.toNat n.toNat
  · simp only [readi, inode, ends_bind, ends_gets, outOfRange_iff]
    rw [if_pos hrange, ends_pure, if_pos hrange]
    exact ⟨rfl, rfl⟩
  · rw [if_neg hrange]
    refine (readi_ends_of_blocks h.maps h.small fun x _ _ hx => h.full x hx).mono fun r s' hr => ?_
    refine ⟨hr.1, ?_⟩
    rw [OutOfRange] at hrange
    rw [hr.2 (by omega), bytesAt_eq_contents]

/-- `readi` and `writei` on a file without holes are the operations of an array of bytes, whatever the
    offset and the length, and neither panics. -/
theorem readi_writei_bytes (h : Filled ip s) (f : Nat → UInt8) (off n : UInt32) :
    (writei ip (.ofMem f) off.toNat n.toNat).Ends (fun _ => False)
      (fun r s' =>
        if OutOfRange (s.itable ip).din.size off.toNat n.toNat ∨
            MAXFILE * BSIZE < off.toNat + n.toNat then
          r = -1 ∧ s' = s
        else ∃ k : Nat, r = k ∧ Spliced ip f off.toNat n.toNat s k s') s ∧
    (readi ip off.toNat n.toNat).Ends (fun _ => False)
      (fun r s' => s' = s ∧
        r = if OutOfRange (s.itable ip).din.size off.toNat n.toNat then []
          else ((contents s ip).drop off.toNat).take n.toNat) s :=
  ⟨writei_splices h f off n, readi_contents h off n⟩

/-- The image of `mkfs` after `ilock` of the root directory. -/
def rootLocked : State :=
  mkfsImage.setEntry ⟨0, NINODE_pos⟩ ⟨ROOTINO, 1, true, true, rootDinode⟩

theorem filled_rootLocked : Filled ⟨0, by decide⟩ rootLocked := by
  have hgood : Good mkfsImage := (sysOk_boot blocksOk_mkfsImage boot_mkfsBoot).fs.good
  have hother : ∀ ip' : InodePtr, ip' ≠ ⟨0, by decide⟩ → (mkfsImage.itable ip').ref = 0 :=
    fun ip' hne => boot_mkfsBoot.unused ip' fun h0 => hne (Fin.ext h0)
  have hentry : rootLocked.itable ⟨0, by decide⟩ = ⟨ROOTINO, 1, true, true, rootDinode⟩ :=
    State.setEntry_self ..
  refine Good.filled (hgood.setEntry (fun _ ip' hne hl => ?_) fun _ _ => ?_) ?_ ?_
  · rw [hother ip' hne] at hl
    exact absurd hl (Nat.lt_irrefl 0)
  · exact ⟨mkfsImage_root.symm, by decide⟩
  · rw [hentry]
    exact Nat.one_pos
  · rw [hentry]

/-- A read in the root directory that goes beyond its end. -/
theorem readi_writei_bytes_root :
    Filled ⟨0, by decide⟩ rootLocked ∧
    (readi ⟨0, by decide⟩ 1020 16).Ends (fun _ => False)
      (fun r s' => s' = rootLocked ∧
        r = ((contents rootLocked ⟨0, by decide⟩).drop 1020).take 16) rootLocked := by
  refine ⟨filled_rootLocked, ?_⟩
  have hread := (readi_writei_bytes filled_rootLocked (fun _ => 0) 1020 16).2
  have hoff : (1020 : UInt32).toNat = 1020 := by decide
  have hn : (16 : UInt32).toNat = 16 := by decide
  have hsize : (rootLocked.itable ⟨0, by decide⟩).din.size = BSIZE := by
    rw [rootLocked, State.setEntry_self]
    rfl
  have hin : ¬ OutOfRange BSIZE 1020 16 := by decide
  simpa only [hoff, hn, hsize, if_neg hin] using hread

end Xv6.Fs
