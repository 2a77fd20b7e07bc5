import Xv6.Spec.Itrunc

/-!
# Reading and writing inodes

`byteAt s ip x` is byte `x` of the inode in `ip`. A file has a block for every byte below its size,
so `readi` allocates nothing and changes nothing (`readi_ends`). `writeLoop` keeps the blocks
of all files in place, changes no byte outside of the range it writes, and
has a block for every byte it says it wrote, also when it breaks off because there is no free block
or because the source cannot be read (`writeLoop_ends`).
-/

namespace Xv6.Fs

/-- The block of byte `x` of the inode in `ip`; 0 if there is none. -/
def blockAt (s : State) (ip : InodePtr) (x : Nat) : Nat :=
  placeAt s ip (filePlace (s.itable ip).inum (x / BSIZE))

/-- Byte `x` of the inode in `ip`. -/
def byteAt (s : State) (ip : InodePtr) (x : Nat) : UInt8 := s.data (blockAt s ip x) (x % BSIZE)

/-- The `n` bytes from `off` on. -/
def bytesAt (s : State) (ip : InodePtr) (off n : Nat) : List UInt8 :=
  (List.range n).map fun k => byteAt s ip (off + k)

/-- The inode in `ip` has a block for every byte below its size. -/
structure Filled (ip : InodePtr) (s : State) : Prop where
  maps : Maps ip s
  small : (s.itable ip).din.size ≤ MAXFILE * BSIZE
  full : ∀ x < (s.itable ip).din.size, blockAt s ip x ≠ 0

variable {ip : InodePtr} {s s' : State} {E : Stop → Prop}

theorem BSIZE_pos : 0 < BSIZE := by decide

/-! ## readi -/

theorem bytesAt_append (s : State) (ip : InodePtr) (off m n : Nat) :
    bytesAt s ip off m ++ bytesAt s ip (off + m) n = bytesAt s ip off (m + n) := by
  simp only [bytesAt, List.range_add, List.map_append, List.map_map]
  congr 1
  refine List.map_congr_left fun k _ => ?_
  rw [Function.comp_apply, Nat.add_assoc]

/-- Offsets up to the end of a block lie in that block. -/
theorem div_mod_of_lt (off k : Nat) (hk : off % BSIZE + k < BSIZE) :
    (off + k) / BSIZE = off / BSIZE ∧ (off + k) % BSIZE = off % BSIZE + k := by
  simp only [BSIZE] at *
  omega

/-- A read inside of one block. -/
theorem read_block (s : State) (ip : InodePtr) {off m : Nat} (hm : off % BSIZE + m ≤ BSIZE) :
    (s.data (blockAt s ip off)).read (off % BSIZE) m = bytesAt s ip off m := by
  refine List.map_congr_left fun k hk => ?_
  have hkm : k < m := List.mem_range.mp hk
  obtain ⟨hdiv, hmod⟩ := div_mod_of_lt off k (by omega)
  rw [byteAt, blockAt, blockAt, hdiv, hmod]

theorem readLoop_ends (h : Maps ip s) {fuel off n : Nat} (hfuel : n ≤ fuel)
    (hmax : off + n ≤ MAXFILE * BSIZE) (hfull : ∀ x, off ≤ x → x < off + n → blockAt s ip x ≠ 0) :
    (readLoop ip fuel off n).Ends E (fun r s' => r = bytesAt s ip off n ∧ s' = s) s := by
  induction fuel generalizing off n with
  | zero =>
    obtain rfl : n = 0 := by omega
    rw [readLoop, Prog.ends_pure]
    exact ⟨rfl, rfl⟩
  | succ fuel ih =>
    rw [readLoop]
    split
    · rename_i hz
      rw [hz, Prog.ends_pure]
      exact ⟨rfl, rfl⟩
    · rename_i hz
      have hbn : off / BSIZE < MAXFILE := (Nat.div_lt_iff_lt_mul BSIZE_pos).mpr (by omega)
      rw [Prog.ends_bind]
      refine (bmap_ends h hbn).mono fun r s₁ hr => ?_
      -- the block is there, so that `bmap` has changed nothing
      obtain ⟨hr0, rfl⟩ := hr.same (hfull off (Nat.le_refl _) (by omega))
      have hblock : r = blockAt s₁ ip off := hr.found hr0
      rw [if_neg hr0, bread]
      simp only [Prog.ends_bind, Prog.ends_gets, Prog.ends_pure]
      have hmod : off % BSIZE < BSIZE := Nat.mod_lt _ BSIZE_pos
      refine (ih (by omega) (by omega) fun x h₁ h₂ => hfull x (by omega) (by omega)).mono
        fun rest s₂ hrest => ?_
      obtain ⟨rfl, rfl⟩ := hrest
      refine ⟨?_, rfl⟩
      rw [hblock, read_block _ _ (by omega), bytesAt_append]
      congr 1
      omega

variable {off n : Nat}

/-- `readi` returns the bytes of the file up to its end and changes nothing if there is a block for
    each of them. -/
theorem readi_ends_of_blocks (h : Maps ip s) (hsmall : (s.itable ip).din.size ≤ MAXFILE * BSIZE)
    (hfull : ∀ x, off ≤ x → x < off + n → x < (s.itable ip).din.size → blockAt s ip x ≠ 0) :
    (readi ip off n).Ends E
      (fun r s' => s' = s ∧
        (off + n < 2 ^ 32 → r = bytesAt s ip off (min n ((s.itable ip).din.size - off)))) s := by
  rw [readi, inode, Prog.ends_bind, Prog.ends_gets]
  split
  · rename_i hc
    rw [Prog.ends_pure]
    refine ⟨rfl, fun hlt => ?_⟩
    rw [Nat.mod_eq_of_lt hlt] at hc
    have hzero : min n ((s.itable ip).din.size - off) = 0 := by omega
    rw [hzero]
    rfl
  · rename_i hc
    have hn : (if off + n > (s.itable ip).din.size then (s.itable ip).din.size - off else n) =
        min n ((s.itable ip).din.size - off) := by
      split <;> omega
    simp only [hn]
    refine (readLoop_ends h (Nat.le_refl _) (by omega) fun x h₁ h₂ => ?_).mono fun r s' hr => ?_
    · exact hfull x h₁ (by omega) (by omega)
    · exact ⟨hr.2, fun _ => hr.1⟩

/-- `readi` returns the bytes of the file and changes nothing. -/
theorem readi_ends (h : Filled ip s) (off n : Nat) :
    (readi ip off n).Ends E
      (fun r s' => s' = s ∧
        (off + n ≤ (s.itable ip).din.size → r = bytesAt s ip off n)) s := by
  refine (readi_ends_of_blocks h.maps h.small fun x _ _ hx => h.full x hx).mono fun r s' hr => ?_
  refine ⟨hr.1, fun hle => ?_⟩
  have hmax : MAXFILE * BSIZE < 2 ^ 32 := by decide
  have hsmall := h.small
  have hmin : min n ((s.itable ip).din.size - off) = n := by omega
  rw [hr.2 (by omega), hmin]

/-! ## writei -/

/-- From `s` to `s'` only `addrs` of `ip`, the bitmap and contents of blocks have changed; blocks
    keep their places, other files keep their contents, and of the file in `ip` only bytes in
    `[off, off + n)` have changed. -/
structure Changes (ip : InodePtr) (off n : Nat) (s s' : State) : Prop where
  maps : Maps ip s'
  dinode : s'.dinode = s.dinode
  table : ∃ a, s'.itable =
    upd s.itable ip { s.itable ip with din := { (s.itable ip).din with addrs := a } }
  keeps : ∀ i m, placeAt s ip (filePlace i m) ≠ 0 →
    placeAt s' ip (filePlace i m) = placeAt s ip (filePlace i m)
  others : ∀ i m, i ≠ (s.itable ip).inum → placeAt s ip (filePlace i m) ≠ 0 →
    s'.data (placeAt s ip (filePlace i m)) = s.data (placeAt s ip (filePlace i m))
  outside : ∀ x, blockAt s ip x ≠ 0 → x < off ∨ off + n ≤ x → byteAt s' ip x = byteAt s ip x

theorem Changes.inum_eq (h : Changes ip off n s s') :
    (s'.itable ip).inum = (s.itable ip).inum := by
  obtain ⟨a, ha⟩ := h.table
  rw [ha, upd_self]

/-- A byte that has a block keeps it. -/
theorem Changes.blockAt_eq {off n x : Nat} (h : Changes ip off n s s') (hx : blockAt s ip x ≠ 0) :
    blockAt s' ip x = blockAt s ip x := by
  rw [blockAt, h.inum_eq]
  exact h.keeps _ _ hx

theorem Changes.refl (h : Maps ip s) : Changes ip off n s s :=
  ⟨h, rfl, ⟨(s.itable ip).din.addrs, (upd_eq_self s.itable ip).symm⟩, fun _ _ _ => rfl,
    fun _ _ _ _ => rfl, fun _ _ _ => rfl⟩

/-- A change of a part of the range, followed by a change of another part. -/
theorem Changes.trans {s'' : State} {off n off₁ n₁ off₂ n₂ : Nat} (h : Changes ip off₁ n₁ s s')
    (h' : Changes ip off₂ n₂ s' s'') (h₁ : off ≤ off₁ ∧ off₁ + n₁ ≤ off + n)
    (h₂ : off ≤ off₂ ∧ off₂ + n₂ ≤ off + n) : Changes ip off n s s'' := by
  obtain ⟨a, ha⟩ := h.table
  obtain ⟨a', ha'⟩ := h'.table
  refine ⟨h'.maps, h'.dinode.trans h.dinode, ⟨a', by rw [ha', ha, upd_self, upd_upd]⟩,
    fun i m hm => ?_, fun i m hi hm => ?_, fun x hx hout => ?_⟩
  · have hk := h.keeps i m hm
    rw [h'.keeps i m (by rwa [hk]), hk]
  · have hk := h.keeps i m hm
    have hd := h'.others i m (by rwa [h.inum_eq]) (by rwa [hk])
    rw [hk] at hd
    rw [hd, h.others i m hi hm]
  · have hx' : blockAt s' ip x ≠ 0 := by rwa [h.blockAt_eq hx]
    rw [h'.outside x hx' (by omega), h.outside x hx (by omega)]

/-- What `bmap` does is a change of no byte. -/
theorem Mapped.changes {bn r : Nat} (h : Mapped ip bn s r s') (off n : Nat) :
    Changes ip off n s s' := by
  refine ⟨h.maps, h.ext.dinode, h.ext.table, fun i m hm => (h.ext.keeps i m hm).1,
    fun i m _ hm => (h.ext.keeps i m hm).2, fun x hx _ => ?_⟩
  obtain ⟨hp, hd⟩ := h.ext.keeps _ _ hx
  have hblock : blockAt s' ip x = blockAt s ip x := by
    rw [blockAt, h.ext.inum_eq]
    exact hp
  rw [byteAt, byteAt, hblock]
  exact congrFun hd _

/-- The state after bytes have been stored in the block of byte `off`. -/
def State.store (s : State) (ip : InodePtr) (off : Nat) (bs : List UInt8) : State :=
  { s with
    data := upd s.data (blockAt s ip off)
      ((s.data (blockAt s ip off)).write (off % BSIZE) bs) }

/-- The bytes of other blocks stay. -/
theorem data_store_of_ne {off i m : Nat} {bs : List UInt8} (h : Maps ip s)
    (hm : placeAt s ip (filePlace i m) ≠ 0)
    (hne : filePlace i m ≠ filePlace (s.itable ip).inum (off / BSIZE)) :
    (s.store ip off bs).data (placeAt s ip (filePlace i m)) =
      s.data (placeAt s ip (filePlace i m)) :=
  upd_of_ne (fun heq => hne (h.owns.inj _ _ hm heq)) _

section Store

variable {off : Nat} {bs : List UInt8} (h : Maps ip s) (hb : blockAt s ip off ≠ 0)
include h hb

/-- A block of a file is not an indirect block. -/
theorem placeAt_store : placeAt (s.store ip off bs) ip = placeAt s ip := by
  refine place_data _ fun i => .inl fun heq => ?_
  exact filePlace_ne_indirect _ _ _ (h.owns.inj _ _ hb heq.symm)

theorem blockAt_store (x : Nat) : blockAt (s.store ip off bs) ip x = blockAt s ip x :=
  congrFun (placeAt_store h hb) _

/-- The bytes stored are read back. -/
theorem byteAt_store {k : Nat} (hk : k < bs.length) (hlen : off % BSIZE + bs.length ≤ BSIZE) :
    bs[k]? = some (byteAt (s.store ip off bs) ip (off + k)) := by
  obtain ⟨hdiv, hmod⟩ := div_mod_of_lt off k (by omega)
  have hblock : blockAt s ip (off + k) = blockAt s ip off := by rw [blockAt, hdiv, blockAt]
  rw [byteAt, blockAt_store h hb, hblock, hmod]
  show _ = some (upd s.data _ _ _ _)
  rw [upd_self]
  exact ByteMem.write_add hk

/-- A store inside of one block. -/
theorem changes_store (hn : bs.length ≤ n) :
    Changes ip off n s (s.store ip off bs) := by
  have hplace : placeAt (s.store ip off bs) ip = placeAt s ip := placeAt_store h hb
  refine ⟨⟨⟨h.ahead.live, h.ahead.valid, h.ahead.others⟩, h.fresh, h.alloc,
      by rw [hplace]; exact h.owns⟩, rfl,
    ⟨(s.itable ip).din.addrs, (upd_eq_self s.itable ip).symm⟩, fun i m _ => by rw [hplace],
    fun i m hi hm => ?_, fun x hx hout => ?_⟩
  · exact data_store_of_ne h hm fun heq => hi (filePlace_inj heq).1
  · rw [byteAt, byteAt, blockAt_store h hb]
    by_cases hdiv : x / BSIZE = off / BSIZE
    · have hblock : blockAt s ip x = blockAt s ip off := by rw [blockAt, hdiv, blockAt]
      rw [hblock]
      show upd s.data _ _ _ _ = _
      rw [upd_self]
      -- in the same block, but before or behind the bytes stored
      have hx' := Nat.div_add_mod x BSIZE
      have hoff' := Nat.div_add_mod off BSIZE
      rw [hdiv] at hx'
      rcases hout with hlt | hge
      · exact ByteMem.write_of_lt (by omega)
      · exact ByteMem.write_of_ge (by omega)
    · exact congrFun (data_store_of_ne h hx fun heq => hdiv (filePlace_inj heq).2) _

end Store

/-- What the loop of `writei` has done when it returns `tot`. -/
structure Wrote (ip : InodePtr) (src : Source) (off pos n : Nat) (s : State) (tot : Nat)
    (s' : State) : Prop where
  changes : Changes ip off n s s'
  le : tot ≤ n
  mapped : ∀ x, off ≤ x → x < off + tot → blockAt s' ip x ≠ 0
  inside : ∀ f : Nat → UInt8,
    (∀ pos m, src.ok pos m = true → src.bytes pos m = (List.range m).map fun k => f (pos + k)) →
    ∀ k < tot, byteAt s' ip (off + k) = f (pos + k)

variable {src : Source}

/-- A round that breaks off has written nothing. -/
theorem Changes.wrote {off pos n : Nat} (h : Changes ip off n s s') :
    Wrote ip src off pos n s 0 s' :=
  ⟨h, Nat.zero_le _, fun x h₁ h₂ => absurd h₁ (by omega), fun _ _ k hk => absurd hk (by omega)⟩

/-- A round that stores its bytes, followed by the rest of the loop. -/
theorem Wrote.cons {off pos m n tot : Nat} {s₁ : State} (h : Maps ip s)
    (hb : blockAt s ip off ≠ 0) (hm : off % BSIZE + m ≤ BSIZE) (hmn : m ≤ n)
    (hok : src.ok pos m = true) (hs : s₁ = s.store ip off (src.bytes pos m))
    (hrest : Wrote ip src (off + m) (pos + m) (n - m) s₁ tot s') :
    Wrote ip src off pos n s (m + tot) s' := by
  have hlen := src.all pos m hok
  have hround : Changes ip off m s s₁ := hs ▸ changes_store h hb (by omega)
  have hle := hrest.le
  -- the blocks of the bytes of this round
  have hblock : ∀ x, off ≤ x → x < off + m → blockAt s₁ ip x ≠ 0 := by
    intro x h₁ h₂
    obtain ⟨k, rfl⟩ := Nat.exists_eq_add_of_le h₁
    have hdiv := (div_mod_of_lt off k (by omega)).1
    rw [hs, blockAt_store h hb, blockAt, hdiv]
    exact hb
  refine ⟨hround.trans hrest.changes ⟨by omega, by omega⟩ ⟨by omega, by omega⟩, by omega,
    fun x h₁ h₂ => ?_, fun f hf k hk => ?_⟩
  · by_cases hx : x < off + m
    · rw [hrest.changes.blockAt_eq (hblock x h₁ hx)]
      exact hblock x h₁ hx
    · exact hrest.mapped x (by omega) (by omega)
  · by_cases hkm : k < m
    · rw [hrest.changes.outside _ (hblock _ (by omega) (by omega)) (.inl (by omega))]
      have hget : (src.bytes pos m)[k]? = _ := byteAt_store h hb (by omega) (by omega)
      rw [← hs, hf pos m hok] at hget
      simpa [hkm] using hget.symm
    · obtain ⟨j, rfl⟩ := Nat.exists_eq_add_of_le (not_lt.mp hkm)
      rw [← Nat.add_assoc, ← Nat.add_assoc]
      exact hrest.inside f hf j (by omega)

theorem writeLoop_ends (h : Maps ip s) {fuel off pos n : Nat} (hfuel : n ≤ fuel)
    (hn : off + n ≤ MAXFILE * BSIZE) :
    (writeLoop ip src fuel off pos n).Ends E (Wrote ip src off pos n s) s := by
  induction fuel generalizing s off pos n with
  | zero =>
    rw [writeLoop, Prog.ends_pure]
    exact (Changes.refl h).wrote
  | succ fuel ih =>
    rw [writeLoop]
    split
    · rw [Prog.ends_pure]
      exact (Changes.refl h).wrote
    · rename_i hz
      have hbn : off / BSIZE < MAXFILE := (Nat.div_lt_iff_lt_mul BSIZE_pos).mpr (by omega)
      rw [Prog.ends_bind]
      refine (bmap_ends h hbn).mono fun r s₁ hr => ?_
      split
      · rw [Prog.ends_pure]
        exact (hr.changes off n).wrote
      · rename_i hr0
        have hblock : r = blockAt s₁ ip off := by
          rw [hr.found hr0, blockAt, hr.ext.inum_eq]
        have hb : blockAt s₁ ip off ≠ 0 := hblock ▸ hr0
        have hmod : off % BSIZE < BSIZE := Nat.mod_lt _ BSIZE_pos
        have hle := src.le pos (min n (BSIZE - off % BSIZE))
        have hstore := changes_store hr.maps hb hle
        subst hblock
        simp only [setData, Prog.ends_bind, Prog.ends_modify]
        split
        · rename_i hok
          rw [Prog.ends_bind]
          refine (ih hstore.maps (by omega) (by omega)).mono fun tot s' hrest => ?_
          rw [Prog.ends_pure]
          have hw := Wrote.cons (n := n) hr.maps hb (by omega) (by omega) hok rfl hrest
          exact ⟨(hr.changes off n).trans hw.changes ⟨by omega, by omega⟩ ⟨by omega, by omega⟩, hw.le,
            hw.mapped, hw.inside⟩
        · rw [Prog.ends_pure]
          exact ((hr.changes off n).trans hstore ⟨by omega, by omega⟩ ⟨by omega, by omega⟩).wrote

end Xv6.Fs
