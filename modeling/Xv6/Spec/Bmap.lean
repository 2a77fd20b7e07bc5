import Xv6.Spec.BlockMap

/-!
# Mapping file blocks

`bmap` finds the block of a file or allocates it. While it works, and until the next `iupdate`, the
inode in memory is ahead of the one on disk: `logical s ip` are the inodes with the
copy in `ip`. `bmap_ends` is the specification of `bmap`: the places keep owning the blocks, the
blocks that files had before keep their places and contents (`Extends`), and nothing at all changes
if the block was there.
-/

namespace Xv6.Fs

/-- The inodes, with the copy in memory for `ip`. -/
def logical (s : State) (ip : InodePtr) : Nat → Dinode :=
  upd s.dinode (s.itable ip).inum (s.itable ip).din

/-- The block numbers in their places, with the copy in memory for `ip`. -/
def placeAt (s : State) (ip : InodePtr) : Place → Nat := place (logical s ip) s.data

/-- The inodes as the kernel sees them: the copy in the inode table if there is a valid one. -/
def view (dinode : Nat → Dinode) (itable : InodePtr → Inode) (i : Nat) : Dinode :=
  match (List.finRange NINODE).find? fun ip =>
      decide (0 < (itable ip).ref) && (itable ip).valid && (itable ip).inum == i with
  | some ip => (itable ip).din
  | none => dinode i

/-- The block that `balloc` returned stood in no place at that time. -/
def Handed.Fresh (h : Handed) : Prop :=
  ∀ p, place (view h.dinode h.itable) h.data p ≠ h.block

/-- `ip` is the only valid entry of the inode table that may be ahead of the disk. -/
structure Ahead (ip : InodePtr) (s : State) : Prop where
  live : 0 < (s.itable ip).ref
  valid : (s.itable ip).valid = true
  others : ∀ ip', ip' ≠ ip → 0 < (s.itable ip').ref → (s.itable ip').valid = true →
    (s.itable ip').inum ≠ (s.itable ip).inum ∧
    (s.itable ip').din = s.dinode (s.itable ip').inum

/-- The places own the blocks, with the copy in memory for `ip`, which is allocated. -/
structure Maps (ip : InodePtr) (s : State) : Prop where
  ahead : Ahead ip s
  fresh : ∀ h ∈ s.handed, h.Fresh
  alloc : (s.itable ip).din.type ≠ .free
  owns : Owns (placeAt s ip) s.bitmap nmeta FSSIZE

/-- From `s` to `s'` only `addrs` of `ip`, the bitmap and contents of blocks have changed, and the
    blocks that files had keep their places and their contents. -/
structure Extends (ip : InodePtr) (s s' : State) : Prop where
  dinode : s'.dinode = s.dinode
  table : ∃ a, s'.itable =
    upd s.itable ip { s.itable ip with din := { (s.itable ip).din with addrs := a } }
  keeps : ∀ i n, placeAt s ip (filePlace i n) ≠ 0 →
    placeAt s' ip (filePlace i n) = placeAt s ip (filePlace i n) ∧
    s'.data (placeAt s ip (filePlace i n)) = s.data (placeAt s ip (filePlace i n))

variable {ip : InodePtr} {s s' s'' : State} {E : Stop → Prop}

theorem logical_self (s : State) (ip : InodePtr) :
    logical s ip (s.itable ip).inum = (s.itable ip).din := upd_self ..

/-- Then the inodes as the kernel sees them are the ones with the copy in `ip`. -/
theorem Ahead.view_eq (h : Ahead ip s) : view s.dinode s.itable = logical s ip := by
  funext i
  rw [view]
  cases hfind : (List.finRange NINODE).find? fun ip =>
      decide (0 < (s.itable ip).ref) && (s.itable ip).valid && (s.itable ip).inum == i with
  | some ip' =>
    have htest := List.find?_some
      (p := fun ip => decide (0 < (s.itable ip).ref) && (s.itable ip).valid && (s.itable ip).inum == i)
      hfind
    simp only [Bool.and_eq_true, decide_eq_true_eq, beq_iff_eq] at htest
    obtain ⟨⟨hl, hv⟩, rfl⟩ := htest
    by_cases heq : ip' = ip
    · rw [heq, logical_self]
    · obtain ⟨hne, hdin⟩ := h.others ip' heq hl hv
      rw [logical, upd_of_ne hne]
      exact hdin
  | none =>
    have hnone := List.find?_eq_none.mp hfind ip (List.mem_finRange ip)
    simp only [Bool.and_eq_true, decide_eq_true_eq, beq_iff_eq, not_and] at hnone
    rw [logical, upd_of_ne (Ne.symm (hnone ⟨h.live, h.valid⟩))]

/-- Changes of the copy in `ip`. -/
theorem Ahead.setDin (h : Ahead ip s) {d : Dinode} (hdin : s'.dinode = s.dinode)
    (htab : s'.itable = upd s.itable ip { s.itable ip with din := d }) : Ahead ip s' := by
  refine ⟨?_, ?_, fun ip' hne hl hv => ?_⟩
  · rw [htab, upd_self]
    exact h.live
  · rw [htab, upd_self]
    exact h.valid
  · rw [htab, upd_of_ne hne] at hl hv
    rw [htab, upd_of_ne hne, upd_self, hdin]
    exact h.others ip' hne hl hv

theorem Maps.type_ne (h : Maps ip s) : (logical s ip (s.itable ip).inum).type ≠ .free := by
  rw [logical_self]
  exact h.alloc

/-- The block number in a slot of `addrs`. -/
theorem Maps.placeAt_slot (h : Maps ip s) {k : Nat} (hk : k ≤ NDIRECT) :
    placeAt s ip (.slot (s.itable ip).inum k) = (s.itable ip).din.addrs k := by
  rw [placeAt, place_slot h.type_ne hk, logical_self]

/-- The block number in an entry of the indirect block. -/
theorem Maps.placeAt_entry (h : Maps ip s) (ha : (s.itable ip).din.addrs NDIRECT ≠ 0) {j : Nat}
    (hj : j < NINDIRECT) : placeAt s ip (.entry (s.itable ip).inum j) =
      word (s.data ((s.itable ip).din.addrs NDIRECT)) j := by
  rw [placeAt, place_entry h.type_ne (by rwa [logical_self]) hj, logical_self]

/-- Without an indirect block, there is nothing in its entries. -/
theorem placeAt_entry_of_none (hz : (s.itable ip).din.addrs NDIRECT = 0) (j : Nat) :
    placeAt s ip (.entry (s.itable ip).inum j) = 0 := by
  rw [placeAt, place, if_neg]
  rw [logical_self]
  exact fun hc => hc.2.1 hz

theorem Extends.refl (ip : InodePtr) (s : State) : Extends ip s s :=
  ⟨rfl, ⟨(s.itable ip).din.addrs, (upd_eq_self s.itable ip).symm⟩, fun _ _ _ => ⟨rfl, rfl⟩⟩

theorem Extends.trans (h : Extends ip s s') (h' : Extends ip s' s'') : Extends ip s s'' := by
  obtain ⟨a, ha⟩ := h.table
  obtain ⟨a', ha'⟩ := h'.table
  refine ⟨h'.dinode.trans h.dinode, ⟨a', by rw [ha', ha, upd_self, upd_upd]⟩, fun i n hn => ?_⟩
  obtain ⟨hp, hd⟩ := h.keeps i n hn
  obtain ⟨hp', hd'⟩ := h'.keeps i n (by rwa [hp])
  rw [hp] at hp' hd'
  exact ⟨hp', hd'.trans hd⟩

theorem Extends.inum_eq (h : Extends ip s s') : (s'.itable ip).inum = (s.itable ip).inum := by
  obtain ⟨a, ha⟩ := h.table
  rw [ha, upd_self]

theorem filePlace_ne_indirect (i n i' : Nat) : filePlace i n ≠ .slot i' NDIRECT := by
  rw [filePlace]
  split
  · intro h
    have := (Place.slot.inj h).2
    omega
  · exact Place.noConfusion

/-! ## balloc -/

theorem firstFree_spec {bitmap : Nat → Bool} {b n c : Nat} (h : firstFree bitmap b n = some c) :
    bitmap c = false ∧ b ≤ c ∧ c < b + n := by
  induction n generalizing b with
  | zero => cases h
  | succ n ih =>
    rw [firstFree] at h
    split at h
    · have hrest := ih h
      exact ⟨hrest.1, by omega, by omega⟩
    · rename_i hb
      cases h
      exact ⟨by simpa using hb, Nat.le_refl _, by omega⟩

/-- The state after `balloc` has returned `b`. -/
def State.alloc (s : State) (b : Nat) : State :=
  { s with
    bitmap := upd s.bitmap b true
    data := upd s.data b fun _ => 0
    handed := ⟨b, s.dinode, s.data, s.itable⟩ :: s.handed }

variable {Q : Nat → State → Prop}

/-- `balloc` returns 0 and changes nothing, or it marks and zeroes a free block. -/
theorem balloc_ends (h0 : Q 0 s) (h1 : ∀ b, s.bitmap b = false → b < FSSIZE → Q b (s.alloc b)) :
    balloc.Ends E Q s := by
  rw [balloc, Prog.ends_bind, Prog.ends_atomic]
  cases hf : firstFree s.bitmap 0 FSSIZE with
  | none => simpa [Outcome.Meets] using h0
  | some b =>
    obtain ⟨hb, -, hlt⟩ := firstFree_spec hf
    simpa [Outcome.Meets, bzero, setData, State.alloc] using h1 b hb (by omega)

/-! ## A new block in a place -/

/-- A free block has been stored in the empty place `p`. -/
structure Stored (ip : InodePtr) (p : Place) (b : Nat) (s s' : State) : Prop where
  ne : b ≠ 0
  maps : Maps ip s'
  ext : Extends ip s s'
  at_place : placeAt s' ip p = b

/-- How a place is filled: the block was free and the contents of file blocks stay. -/
theorem Maps.stored (h : Maps ip s) {p : Place} {b : Nat} {a : Nat → Nat} (hb : s.bitmap b = false)
    (hlt : b < FSSIZE) (hp : placeAt s ip p = 0) (hdin : s'.dinode = s.dinode) (htab : s'.itable =
      upd s.itable ip { s.itable ip with din := { (s.itable ip).din with addrs := a } })
    (hbit : s'.bitmap = upd s.bitmap b true)
    (hhand : s'.handed = ⟨b, s.dinode, s.data, s.itable⟩ :: s.handed)
    (hplace : placeAt s' ip = upd (placeAt s ip) p b)
    (hdata : ∀ i n, placeAt s ip (filePlace i n) ≠ 0 → placeAt s ip (filePlace i n) ≠ b →
      s'.data (placeAt s ip (filePlace i n)) = s.data (placeAt s ip (filePlace i n))) :
    Stored ip p b s s' := by
  have hb0 : b ≠ 0 := by
    have hle := h.owns.le_of_free hb
    have hpos := h.owns.pos
    omega
  refine ⟨hb0, ⟨h.ahead.setDin hdin htab, fun x hx => ?_, ?_, ?_⟩, ⟨hdin, ⟨a, htab⟩, fun i n hn => ⟨?_, ?_⟩⟩, by rw [hplace, upd_self]⟩
  · rw [hhand] at hx
    rcases List.mem_cons.mp hx with rfl | hold
    · -- in the state before, no place has a free block
      intro p'
      rw [h.ahead.view_eq]
      exact h.owns.ne_of_free hb hb0 p'
    · exact h.fresh x hold
  · rw [htab, upd_self]
    exact h.alloc
  · rw [hplace, hbit]
    exact h.owns.alloc hp hb hlt
  · have hne : filePlace i n ≠ p := fun heq => hn (by rw [heq, hp])
    rw [hplace, upd_of_ne hne]
  · exact hdata i n hn (h.owns.ne_of_free hb hb0 _)

/-- The places do not depend on the contents of a free block. -/
theorem Maps.place_zeroed (h : Maps ip s) {b : Nat} (hb : s.bitmap b = false) (m : ByteMem) :
    place (logical s ip) (upd s.data b m) = placeAt s ip := by
  refine place_data m fun i => ?_
  by_cases hb0 : b = 0
  · exact .inr hb0
  · exact .inl (h.owns.ne_of_free hb hb0 _)

/-- The state after `ip->addrs[k] = b`. -/
def State.withAddr (s : State) (ip : InodePtr) (k b : Nat) : State :=
  { s with itable := upd s.itable ip { s.itable ip with din := (s.itable ip).din.withAddr k b } }

theorem addrs_withAddr (s : State) (ip : InodePtr) (k b : Nat) :
    ((s.withAddr ip k b).itable ip).din.addrs k = b := by
  simp [State.withAddr, Dinode.withAddr]

theorem logical_withAddr (s : State) (ip : InodePtr) (k b : Nat) :
    logical (s.withAddr ip k b) ip =
      upd (logical s ip) (s.itable ip).inum ((logical s ip (s.itable ip).inum).withAddr k b) := by
  simp only [logical, State.withAddr, upd_self, upd_upd]

/-- A new block in a slot of `addrs`. -/
theorem Maps.slot (h : Maps ip s) {k b : Nat} (hk : k ≤ NDIRECT) (hb : s.bitmap b = false)
    (hlt : b < FSSIZE) (hp : (s.itable ip).din.addrs k = 0) :
    Stored ip (.slot (s.itable ip).inum k) b s ((s.alloc b).withAddr ip k b) := by
  refine h.stored hb hlt ((h.placeAt_slot hk).trans hp) rfl rfl rfl rfl ?_ fun i n _ hne => upd_of_ne hne _
  have hzero := h.place_zeroed hb fun _ => 0
  have hlog : logical ((s.alloc b).withAddr ip k b) ip = upd (logical s ip) (s.itable ip).inum
      ((logical s ip (s.itable ip).inum).withAddr k b) := logical_withAddr (s.alloc b) ip k b
  rw [placeAt, hlog, ← hzero]
  show place _ (upd s.data b fun _ => 0) = _
  rcases Nat.lt_or_eq_of_le hk with hdirect | rfl
  · exact place_withAddr h.type_ne hdirect b
  · refine place_withIndirect h.type_ne (fun j _ => ?_) fun _ j _ => by simp
    rw [hzero]
    exact placeAt_entry_of_none hp j

/-- A new block in an entry of the indirect block. -/
theorem Maps.entry (h : Maps ip s) {j b : Nat} (hj : j < NINDIRECT) (hb : s.bitmap b = false)
    (hlt : b < FSSIZE) (ha : (s.itable ip).din.addrs NDIRECT ≠ 0)
    (hp : word (s.data ((s.itable ip).din.addrs NDIRECT)) j = 0) :
    Stored ip (.entry (s.itable ip).inum j) b s
      { s.alloc b with
        data := upd (s.alloc b).data ((s.itable ip).din.addrs NDIRECT)
          (setWord ((s.alloc b).data ((s.itable ip).din.addrs NDIRECT)) j b) } := by
  have ha' : (logical s ip (s.itable ip).inum).addrs NDIRECT ≠ 0 := by rwa [logical_self]
  have hzero := h.place_zeroed hb fun _ => 0
  refine h.stored (a := (s.itable ip).din.addrs) hb hlt ((h.placeAt_entry ha hj).trans hp) rfl
    (upd_eq_self s.itable ip).symm rfl rfl ?_ fun i n hn hne => ?_
  · have howns : Owns (place (logical s ip) (s.alloc b).data) s.bitmap nmeta FSSIZE := by
      show Owns (place (logical s ip) (upd s.data b fun _ => 0)) _ _ _
      rw [hzero]
      exact h.owns
    have hset := place_setWord (v := b) howns h.type_ne ha' hj
      (Nat.lt_trans hlt (by decide))
    rw [logical_self] at hset
    have hall : place (logical s ip) (s.alloc b).data = placeAt s ip := hzero
    rw [hall] at hset
    exact hset
  · -- the indirect block is not a block of a file
    have hne' : placeAt s ip (filePlace i n) ≠ (s.itable ip).din.addrs NDIRECT := by
      rw [← h.placeAt_slot (Nat.le_refl _)]
      exact fun heq => filePlace_ne_indirect _ _ _ (h.owns.inj _ _ hn heq)
    show upd (upd s.data b _) _ _ _ = _
    rw [upd_of_ne hne', upd_of_ne hne]

/-! ## bmap -/

/-- What `bmap` has done when it returns `r`. -/
structure Mapped (ip : InodePtr) (bn : Nat) (s : State) (r : Nat) (s' : State) : Prop where
  maps : Maps ip s'
  ext : Extends ip s s'
  found : r ≠ 0 → r = placeAt s' ip (filePlace (s.itable ip).inum bn)
  same : placeAt s ip (filePlace (s.itable ip).inum bn) ≠ 0 → r ≠ 0 ∧ s' = s

section

variable {bn r b : Nat} {p : Place}

/-- The block was there. -/
theorem Maps.there (h : Maps ip s) (hr : r ≠ 0)
    (hp : placeAt s ip (filePlace (s.itable ip).inum bn) = r) : Mapped ip bn s r s :=
  ⟨h, .refl ip s, fun _ => hp.symm, fun _ => ⟨hr, rfl⟩⟩

/-- There is no free block. -/
theorem Maps.full (h : Maps ip s) (hp : placeAt s ip (filePlace (s.itable ip).inum bn) = 0) :
    Mapped ip bn s 0 s :=
  ⟨h, .refl ip s, fun h0 => absurd rfl h0, fun hne => absurd hp hne⟩

/-- The block is a new one. -/
theorem Stored.mapped (h : Stored ip p b s s') (hf : filePlace (s.itable ip).inum bn = p)
    (hp : placeAt s ip p = 0) : Mapped ip bn s b s' :=
  ⟨h.maps, h.ext, fun _ => by rw [hf, h.at_place], fun hne => absurd hp (by rwa [← hf])⟩

/-- The indirect block is a new one. -/
theorem Stored.mapped_trans (h : Stored ip p b s s')
    (hp : placeAt s ip (filePlace (s.itable ip).inum bn) = 0) (hm : Mapped ip bn s' r s'') :
    Mapped ip bn s r s'' :=
  ⟨hm.maps, h.ext.trans hm.ext, fun hr => by rw [hm.found hr, h.ext.inum_eq],
    fun hne => absurd hp hne⟩

end

/-- `addrBlock` returns what stands in the slot, returns 0, or fills the slot. -/
theorem addrBlock_ends (h : Maps ip s) {k : Nat} (hk : k ≤ NDIRECT)
    (hthere : (s.itable ip).din.addrs k ≠ 0 → Q ((s.itable ip).din.addrs k) s)
    (hfull : (s.itable ip).din.addrs k = 0 → Q 0 s) (hnew : ∀ b, (s.itable ip).din.addrs k = 0 →
      Stored ip (.slot (s.itable ip).inum k) b s ((s.alloc b).withAddr ip k b) →
      Q b ((s.alloc b).withAddr ip k b)) :
    (addrBlock ip k).Ends E Q s := by
  rw [addrBlock, inode, Prog.ends_bind, Prog.ends_gets]
  split
  · rename_i hz
    rw [Prog.ends_bind]
    refine balloc_ends (by simpa using hfull hz) fun b hb hlt => ?_
    have hst := h.slot hk hb hlt hz
    rw [if_neg hst.ne]
    simpa [setAddr, setDin, setInode, State.withAddr, Dinode.withAddr] using hnew b hz hst
  · rename_i hz
    simpa using hthere hz

/-- `entryBlock` finds or fills an entry of the indirect block. -/
theorem entryBlock_ends (h : Maps ip s) {bn : Nat} (hd : ¬ bn < NDIRECT) (hbn : bn < MAXFILE)
    (ha : (s.itable ip).din.addrs NDIRECT ≠ 0) :
    (entryBlock ((s.itable ip).din.addrs NDIRECT) (bn - NDIRECT)).Ends E (Mapped ip bn s) s := by
  have hj := sub_NDIRECT_lt hbn
  have hfile : filePlace (s.itable ip).inum bn = .entry (s.itable ip).inum (bn - NDIRECT) :=
    if_neg hd
  have hval := h.placeAt_entry ha hj
  rw [entryBlock, bread, Prog.ends_bind, Prog.ends_gets]
  split
  · rename_i hz
    rw [Prog.ends_bind]
    refine balloc_ends ?_ fun b hb hlt => ?_
    · simpa using h.full (by rw [hfile, hval, hz])
    · have hst := h.entry hj hb hlt ha hz
      rw [if_pos hst.ne]
      simp only [setData, Prog.ends_bind, Prog.ends_modify, Prog.ends_pure]
      exact hst.mapped hfile (hval.trans hz)
  · rename_i hz
    rw [Prog.ends_pure]
    exact h.there hz (by rw [hfile, hval])

theorem bmap_ends (h : Maps ip s) {bn : Nat} (hbn : bn < MAXFILE) :
    (bmap ip bn).Ends E (Mapped ip bn s) s := by
  rw [bmap]
  by_cases hd : bn < NDIRECT
  · rw [if_pos hd]
    have hfile : filePlace (s.itable ip).inum bn = .slot (s.itable ip).inum bn := if_pos hd
    have hval := h.placeAt_slot (Nat.le_of_lt hd)
    refine addrBlock_ends h (by omega) (fun hne => ?_) (fun hz => ?_) fun b hz hst => ?_
    · exact h.there hne (by rw [hfile, hval])
    · exact h.full (by rw [hfile, hval, hz])
    · exact hst.mapped hfile (hval.trans hz)
  · rw [if_neg hd, if_pos (sub_NDIRECT_lt hbn), Prog.ends_bind]
    have hfile : filePlace (s.itable ip).inum bn = .entry (s.itable ip).inum (bn - NDIRECT) :=
      if_neg hd
    refine addrBlock_ends h (Nat.le_refl _) (fun hne => ?_) (fun hz => ?_) fun b hz hst => ?_
    · rw [if_neg hne]
      exact entryBlock_ends h hd hbn hne
    · rw [if_pos rfl, Prog.ends_pure]
      exact h.full (by rw [hfile, placeAt_entry_of_none hz])
    · rw [if_neg hst.ne]
      have hrest := entryBlock_ends (E := E) hst.maps hd hbn (by rw [addrs_withAddr]; exact hst.ne)
      rw [addrs_withAddr] at hrest
      exact hrest.mono fun r s' hm => hst.mapped_trans (by rw [hfile, placeAt_entry_of_none hz]) hm

end Xv6.Fs
