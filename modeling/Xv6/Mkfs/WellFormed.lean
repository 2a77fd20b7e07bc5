import Xv6.Mkfs.Main

/-!
# Well-formed images

`WellFormed s` says that the image in `s` is a file system: the inode numbers are in range, every
file has a block for each of its bytes, the bitmap marks the metadata and these blocks, each of
which has one place, and the names in the root directory are distinct.

An image that `mkfs` writes is well formed except in three cases (`mkfs_wellFormed_iff`). There is no
test that the inodes suffice; the rounded size of a root directory that fills its blocks goes one
block too far; and a name may be given twice or be `.` or `..`.
-/

namespace Xv6.Mkfs

open Fs

variable {s : State} {args : List Arg}

/-- The entries in use of the root directory. -/
def rootDirents (s : Fs.State) : List Dirent :=
  ((List.range ((s.dinode ROOTINO).size / direntSize)).map fun k =>
    Dirent.decode (fileBytes s ROOTINO (direntSize * k) direntSize)).filter fun de => de.inum != 0

/-- The image is a file system. -/
structure WellFormed (s : State) : Prop where
  /-- every inode number that `ialloc` has returned is below `sb.ninodes` -/
  inums : ∀ i, 0 < i → i < s.freeinode → i < NINODES
  full : ∀ i, (dinodes s.image i).type ≠ .free → ∀ n, n * BSIZE < (dinodes s.image i).size →
    place (dinodes s.image) s.image (filePlace i n) ≠ 0
  /-- there are no other blocks -/
  only : ∀ i, (dinodes s.image i).type ≠ .free → ∀ n,
    place (dinodes s.image) s.image (filePlace i n) ≠ 0 → n * BSIZE < (dinodes s.image i).size
  indirect : ∀ i, (dinodes s.image i).type ≠ .free →
    ((dinodes s.image i).addrs NDIRECT ≠ 0 ↔ NDIRECT * BSIZE < (dinodes s.image i).size)
  owns : Owns (place (dinodes s.image) s.image) (boot s.image).bitmap nmeta FSSIZE
  names : ((rootDirents (boot s.image)).map Dirent.name).Nodup

/-! ## The number of inodes -/

/-- A part of `mkfs` that allocates no inode. -/
def Keeps {R : Type} (p : M R) : Prop :=
  ∀ s, p.Ends (fun _ => True) (fun _ s' => s'.freeinode = s.freeinode) s

namespace Keeps

variable {R R' : Type}

theorem pure (r : R) : Keeps (pure r : M R) := by
  intro s
  rw [Prog.ends_pure]

theorem panic (msg : String) : Keeps (.panic msg : M R) := by
  intro s
  rw [Prog.ends_panic]
  trivial

theorem bind {p : M R} {g : R → M R'} (hp : Keeps p) (hg : ∀ r, Keeps (g r)) : Keeps (p >>= g) := by
  intro s
  rw [Prog.ends_bind]
  refine (hp s).mono fun r s₁ h₁ => ?_
  refine (hg r s₁).mono fun _ s₂ h₂ => ?_
  rw [h₂, h₁]

theorem ite {c : Prop} [Decidable c] {p q : M R} (hp : Keeps p) (hq : Keeps q) :
    Keeps (if c then p else q) := by
  split
  · exact hp
  · exact hq

end Keeps

theorem keeps_rsect (sec : Nat) : Keeps (rsect sec) := by
  intro s
  rw [rsect, Prog.ends_atomic]
  split
  · rfl
  · trivial

theorem keeps_wsect (sec : Nat) (buf : ByteMem) : Keeps (wsect sec buf) := by
  intro s
  rw [wsect, Prog.ends_modify]

theorem keeps_takeBlock : Keeps takeBlock := by
  intro s
  rw [takeBlock, Prog.ends_atomic]
  rfl

theorem keeps_winode (i : Nat) (d : Dinode) : Keeps (winode i d) :=
  (keeps_rsect _).bind fun _ => keeps_wsect _ _

theorem keeps_rinode (i : Nat) : Keeps (rinode i) := (keeps_rsect _).bind fun _ => .pure _

theorem keeps_addrBlock (d : Dinode) (k : Nat) : Keeps (addrBlock d k) :=
  .ite (keeps_takeBlock.bind fun _ => .pure _) (.pure _)

theorem keeps_entryBlock (addr j : Nat) : Keeps (entryBlock addr j) :=
  (keeps_rsect _).bind fun _ =>
    .ite (keeps_takeBlock.bind fun _ => (keeps_wsect _ _).bind fun _ => .pure _) (.pure _)

theorem keeps_fileBlock (d : Dinode) (fbn : Nat) : Keeps (fileBlock d fbn) :=
  .ite (keeps_addrBlock _ _) ((keeps_addrBlock _ _).bind fun _ =>
    (keeps_entryBlock _ _).bind fun _ => .pure _)

theorem keeps_appendRound (d : Dinode) (off : Nat) (p : List UInt8) : Keeps (appendRound d off p) :=
  .ite (.panic _) ((keeps_fileBlock _ _).bind fun _ => (keeps_rsect _).bind fun _ =>
    (keeps_wsect _ _).bind fun _ => .pure _)

theorem keeps_appendLoop (fuel : Nat) (d : Dinode) (off : Nat) (p : List UInt8) :
    Keeps (appendLoop fuel d off p) := by
  induction fuel generalizing d off p with
  | zero => exact .pure _
  | succ fuel ih => exact .ite (.pure _) ((keeps_appendRound _ _ _).bind fun _ => ih _ _ _)

theorem keeps_iappend (i : Nat) (p : List UInt8) : Keeps (iappend i p) :=
  (keeps_rinode i).bind fun _ => (keeps_appendLoop _ _ _ _).bind fun _ => keeps_winode _ _

theorem keeps_appendPieces (i : Nat) (ps : List (List UInt8)) : Keeps (appendPieces i ps) := by
  induction ps with
  | nil => exact .pure _
  | cons p ps ih => exact (keeps_iappend i p).bind fun _ => ih

theorem keeps_balloc (used : Nat) : Keeps (balloc used) := .ite (.panic _) (keeps_wsect _ _)

/-- Every argument takes an inode. -/
theorem addFiles_freeinode (args : List Arg) (s : State) :
    (addFiles ROOTINO args).Ends (fun _ => True)
      (fun _ s' => s'.freeinode = s.freeinode + args.length) s := by
  induction args generalizing s with
  | nil =>
    rw [addFiles, Prog.ends_pure]
    rfl
  | cons a args ih =>
    have hfile : (addFile ROOTINO a).Ends (fun _ => True)
        (fun _ s' => s'.freeinode = s.freeinode + 1) s := by
      rw [addFile]
      split
      · rw [Prog.ends_panic]
        trivial
      split
      · rw [Prog.ends_panic]
        trivial
      simp only [ialloc, Prog.ends_bind, Prog.ends_atomic, Outcome.Meets, Prog.ends_pure]
      refine (keeps_winode _ _ _).mono fun _ s₁ h₁ => ?_
      refine (keeps_iappend _ _ s₁).mono fun _ s₂ h₂ => ?_
      refine (keeps_appendPieces _ _ s₂).mono fun _ s₃ h₃ => ?_
      rw [h₃, h₂, h₁]
    rw [addFiles, Prog.ends_bind]
    refine hfile.mono fun _ s₁ h₁ => (ih s₁).mono fun _ s₂ h₂ => ?_
    rw [h₂, h₁, List.length_cons]
    omega

/-- `main` takes an inode for the root directory and for every argument. -/
theorem freeinode_of_exec (h : (main args).exec State.init = .ok () s) :
    s.freeinode = args.length + 2 := by
  refine Prog.Ends.of_exec (E := fun _ => True) (Q := fun _ s => s.freeinode = args.length + 2) ?_ h
  rw [main, Prog.ends_bind]
  refine makeRoot_ends.mono fun r s₁ hr => ?_
  obtain ⟨rfl, hloaded⟩ := hr
  rw [Prog.ends_bind]
  refine (addFiles_freeinode args s₁).mono fun _ s₂ h₂ => ?_
  have hrest : Keeps (do
      fixRoot ROOTINO
      let used ← Prog.gets (S := State) (·.freeblock)
      balloc used) :=
    ((keeps_rinode _).bind fun _ => keeps_winode _ _).bind fun _ =>
      Keeps.bind (fun s => by rw [Prog.ends_gets]) fun _ => keeps_balloc _
  refine (hrest s₂).mono fun _ s₃ h₃ => ?_
  rw [h₃, h₂, hloaded.freeinode]
  show 0 + 2 + args.length = _
  omega

/-! ## The entries of the root directory -/

theorem map_getD_range {n : Nat} {bs : List UInt8} (h : bs.length = n) :
    ((List.range n).map fun x => bs.getD x 0) = bs := by
  refine List.ext_getElem (by simp [h]) fun k h₁ h₂ => ?_
  rw [List.getElem_map, List.getElem_range, List.getD_eq_getElem _ _ h₂]

/-- Entry `k` in the bytes of a directory. -/
theorem entry_bytes {es : List Dirent} (h : ∀ de ∈ es, de.encode.length = direntSize) {k : Nat}
    (hk : k < es.length) :
    ((List.range direntSize).map fun x => (es.flatMap Dirent.encode).getD (direntSize * k + x) 0) =
      es[k].encode := by
  induction es generalizing k with
  | nil => exact absurd hk (Nat.not_lt_zero _)
  | cons de es ih =>
    have hde := h de List.mem_cons_self
    cases k with
    | zero =>
      rw [List.getElem_cons_zero]
      refine Eq.trans (List.map_congr_left fun x hx => ?_) (map_getD_range hde)
      have hx : x < direntSize := List.mem_range.mp hx
      rw [Nat.mul_zero, Nat.zero_add, List.flatMap_cons, List.getD_append _ _ _ _ (by omega)]
    | succ k =>
      rw [List.getElem_cons_succ, ← ih (fun x hx => h x (List.mem_cons_of_mem _ hx))
        (Nat.lt_of_succ_lt_succ hk)]
      refine List.map_congr_left fun x _ => ?_
      rw [List.flatMap_cons, Nat.mul_succ, List.getD_append_right _ _ _ _ (by omega), hde]
      congr 1
      omega

theorem decode_encode (inum : Nat) (name : List UInt8) (h : inum < 2 ^ 16) :
    Dirent.decode (rootEntry inum name).encode = rootEntry inum name := by
  have htake : (leBytes 2 inum ++ strncpy name DIRSIZ).take 2 = leBytes 2 inum :=
    List.take_left' (leBytes_length 2 _)
  have hdrop : (leBytes 2 inum ++ strncpy name DIRSIZ).drop 2 = strncpy name DIRSIZ :=
    List.drop_left' (leBytes_length 2 _)
  show Dirent.mk _ _ = _
  rw [Dirent.encode, rootEntry, htake, hdrop, ofBytes_leBytes_nat (by simpa using h)]
  rfl

/-- The inode numbers of the entries. -/
theorem rootEntries_inum {de : Dirent} (h : de ∈ rootEntries args) :
    ∃ i name, de = rootEntry i name ∧ 0 < i ∧ i < args.length + 2 := by
  rw [rootEntries, List.mem_cons, List.mem_cons] at h
  rcases h with rfl | rfl | h
  · exact ⟨_, _, rfl, by decide, by show 1 < _; omega⟩
  · exact ⟨_, _, rfl, by decide, by show 1 < _; omega⟩
  · obtain ⟨j, hj, rfl⟩ := List.mem_mapIdx.mp h
    exact ⟨_, _, rfl, by omega, by omega⟩

variable (h : Built args s)
include h

/-- The bytes of a file, read through its blocks. -/
theorem Built.fileBytes_eq {i off n : Nat} (ht : typesOf args.length i ≠ .free)
    (hoff : ∀ x < n, (off + x) / BSIZE < blocks (contentsOf args i).length)
    (hmax : ∀ x < n, off + x < MAXFILE * BSIZE) :
    fileBytes (boot s.image) i off n =
      (List.range n).map fun x => (contentsOf args i).getD (off + x) 0 := by
  refine List.map_congr_left fun x hx => ?_
  have hx : x < n := List.mem_range.mp hx
  refine h.stores.bytes i (off + x) ?_
  refine (h.stores.blocks i _ (by rwa [h.type]) ?_).mpr (hoff x hx)
  exact (Nat.div_lt_iff_lt_mul (by decide)).mpr (hmax x hx)

/-- The kernel finds the entries that `mkfs` has written. -/
theorem Built.rootDirents_eq (hcount : args.length + 2 ≤ NINODES)
    (hfull : (args.length + 2) % (BSIZE / direntSize) ≠ 0) :
    rootDirents (boot s.image) = rootEntries args := by
  obtain ⟨n, hn⟩ : ∃ n, n = (dinodes s.image ROOTINO).size / direntSize := ⟨_, rfl⟩
  have hroot := root_length args
  have hsize := h.rootSize
  have hle : args.length + 2 ≤ n ∧ direntSize * n = (dinodes s.image ROOTINO).size ∧
      direntSize * n = blocks (direntSize * (args.length + 2)) * BSIZE := by
    rw [hn, hsize]
    simp only [direntSize, DIRSIZ, BSIZE, blocks] at hfull ⊢
    omega
  have hmax := rootSize_le hcount
  have hbytes : ∀ k < n, fileBytes (boot s.image) ROOTINO (direntSize * k) direntSize =
      (List.range direntSize).map fun x =>
        ((rootEntries args).flatMap Dirent.encode).getD (direntSize * k + x) 0 := by
    intro k hk
    have hend : direntSize * (k + 1) ≤ direntSize * n := Nat.mul_le_mul_left _ hk
    rw [Nat.mul_add, Nat.mul_one] at hend
    refine h.fileBytes_eq (i := ROOTINO) (by rw [typesOf_root]; exact fun h => by cases h)
      (fun x hx => ?_) fun x hx => by omega
    rw [hroot]
    exact (Nat.div_lt_iff_lt_mul (by decide)).mpr (by omega)
  have hentries : ((List.range (args.length + 2)).map fun k =>
      Dirent.decode (fileBytes (boot s.image) ROOTINO (direntSize * k) direntSize)) =
        rootEntries args := by
    have hlen := rootEntries_length args
    refine List.ext_getElem (by simp [hlen]) fun k h₁ h₂ => ?_
    rw [List.getElem_map, List.getElem_range, hbytes k (by omega),
      entry_bytes (fun _ hde => rootEntries_encode_length hde) h₂]
    obtain ⟨i, name, hde, -, hi⟩ := rootEntries_inum (List.getElem_mem h₂)
    rw [hde]
    refine decode_encode i name ?_
    simp only [NINODES] at hcount
    omega
  obtain ⟨m, rfl⟩ := Nat.exists_eq_add_of_le hle.1
  show ((List.range ((dinodes s.image ROOTINO).size / direntSize)).map _).filter _ = _
  rw [← hn, List.range_add, List.map_append, List.filter_append, hentries]
  have hused : (rootEntries args).filter (fun de => de.inum != 0) = rootEntries args := by
    refine List.filter_eq_self.mpr fun de hde => ?_
    obtain ⟨i, name, rfl, hi, -⟩ := rootEntries_inum hde
    exact bne_iff_ne.mpr (Nat.ne_of_gt hi)
  rw [hused]
  refine (congrArg (rootEntries args ++ ·) (List.filter_eq_nil_iff.mpr fun de hde => ?_)).trans
    (List.append_nil _)
  -- the bytes behind the last entry are zero
  obtain ⟨k, hk, rfl⟩ := List.mem_map.mp hde
  obtain ⟨j, hj, rfl⟩ := List.mem_map.mp hk
  have hj : j < m := List.mem_range.mp hj
  have hzero : fileBytes (boot s.image) ROOTINO (direntSize * (args.length + 2 + j)) direntSize =
      (List.range direntSize).map fun _ => 0 := by
    rw [hbytes _ (by omega)]
    refine List.map_congr_left fun x _ => List.getD_eq_default _ _ ?_
    have hlen : ((rootEntries args).flatMap Dirent.encode).length = _ := hroot
    rw [hlen]
    have hle := Nat.mul_le_mul_left direntSize (Nat.le_add_right (args.length + 2) j)
    omega
  rw [hzero]
  decide

/-- A file has a block for a byte below its size, except the root directory in a hole at its end. -/
theorem Built.full_iff (hcount : args.length + 2 ≤ NINODES) :
    (∀ i, (dinodes s.image i).type ≠ .free → ∀ n, n * BSIZE < (dinodes s.image i).size →
      place (dinodes s.image) s.image (filePlace i n) ≠ 0) ↔
    (args.length + 2) % (BSIZE / direntSize) ≠ 0 := by
  have hroot := root_length args
  have hrootType : (dinodes s.image ROOTINO).type ≠ .free := by
    rw [h.type, typesOf_root]
    exact fun h => nomatch h
  have hmax := rootSize_le hcount
  constructor
  · intro hfull hzero
    -- the last block of the rounded size is missing
    have hlast := hfull ROOTINO hrootType (direntSize * (args.length + 2) / BSIZE) (by
      rw [h.rootSize, Nat.add_mul]
      have : 0 < BSIZE := by decide
      omega)
    have hlt : direntSize * (args.length + 2) / BSIZE < MAXFILE := by
      have := Nat.le_of_mul_le_mul_right hmax (by decide)
      omega
    have hblock := (h.stores.blocks ROOTINO _ hrootType hlt).mp hlast
    rw [hroot] at hblock
    simp only [direntSize, DIRSIZ, BSIZE, blocks] at hzero hblock
    omega
  · intro hne i ht n hn
    have hnmax : n < MAXFILE := by
      refine Nat.lt_of_mul_lt_mul_right (a := BSIZE) (Nat.lt_of_lt_of_le hn ?_)
      by_cases hi : i = ROOTINO
      · rw [hi, h.rootSize]
        exact hmax
      · rw [h.size i hi]
        exact h.small i
    refine (h.stores.blocks i n ht hnmax).mpr ?_
    by_cases hi : i = ROOTINO
    · rw [hi, h.rootSize] at hn
      rw [hi, hroot]
      simp only [direntSize, DIRSIZ, BSIZE, blocks] at hne hn ⊢
      omega
    · rw [h.size i hi] at hn
      simp only [BSIZE, blocks] at hn ⊢
      omega

/-- The size reaches the blocks that are there. -/
theorem Built.lt_size (i : Nat) {n : Nat} (hn : n < blocks (contentsOf args i).length) :
    n * BSIZE < (dinodes s.image i).size := by
  by_cases hi : i = ROOTINO
  · rw [hi, root_length] at hn
    rw [hi, h.rootSize]
    simp only [BSIZE, blocks] at hn ⊢
    omega
  · rw [h.size i hi]
    simp only [BSIZE, blocks] at hn ⊢
    omega

theorem Built.only (i : Nat) (ht : (dinodes s.image i).type ≠ .free) (n : Nat)
    (hn : place (dinodes s.image) s.image (filePlace i n) ≠ 0) :
    n * BSIZE < (dinodes s.image i).size := by
  have hmax : n < MAXFILE := by
    by_contra hge
    refine hn ?_
    have hdirect : NDIRECT ≤ MAXFILE := by decide
    have hsum : MAXFILE = NDIRECT + NINDIRECT := rfl
    rw [filePlace, if_neg (by omega), place, if_neg]
    intro hc
    omega
  exact h.lt_size i ((h.stores.blocks i n ht hmax).mp hn)

theorem Built.indirect (hcount : args.length + 2 ≤ NINODES) (i : Nat)
    (ht : (dinodes s.image i).type ≠ .free) :
    (dinodes s.image i).addrs NDIRECT ≠ 0 ↔ NDIRECT * BSIZE < (dinodes s.image i).size := by
  rw [h.stores.indirect i ht]
  constructor
  · exact fun hlt => h.lt_size i hlt
  · intro hlt
    by_cases hi : i = ROOTINO
    · -- the root directory never needs an indirect block
      rw [hi, h.rootSize] at hlt
      have hle : direntSize * (args.length + 2) / BSIZE ≤ direntSize * NINODES / BSIZE :=
        Nat.div_le_div_right (Nat.mul_le_mul_left _ hcount)
      have hsmall : direntSize * NINODES / BSIZE + 1 ≤ NDIRECT := by decide
      have := Nat.lt_of_mul_lt_mul_right hlt
      omega
    · rw [h.size i hi] at hlt
      simp only [BSIZE, blocks, NDIRECT] at hlt ⊢
      omega

theorem Built.owns :
    Owns (place (dinodes s.image) s.image) (boot s.image).bitmap nmeta FSSIZE := by
  obtain ⟨hpos, hrange, hmarked, hinj, hheld, hreserved⟩ := h.stores.owns
  refine ⟨hpos, hrange, fun p hp => ?_, hinj, fun b hlo hhi hb => ?_, fun b hb => ?_⟩
  · rw [h.bitmap _ (hrange p hp).2]
    exact hmarked p hp
  · rw [h.bitmap b hhi] at hb
    exact hheld b hlo hhi hb
  · rw [h.bitmap b (Nat.lt_trans hb nmeta_lt)]
    exact hreserved b hb

omit h

theorem rootEntries_names (args : List Arg) :
    (rootEntries args).map Dirent.name =
      (dot :: dotdot :: args.map Arg.name).map fun name => strncpy name DIRSIZ := by
  simp only [rootEntries, List.map_cons, List.map_map]
  refine congrArg (fun l => _ :: _ :: l) (List.ext_getElem (by simp) fun j h₁ h₂ => ?_)
  rw [List.getElem_map, List.getElem_mapIdx, List.getElem_map]
  rfl

/-- A finished image is well formed unless the root directory has a hole or two names are equal. -/
theorem Built.wellFormed (h : Built args s) (hcount : args.length + 2 ≤ NINODES) :
    WellFormed s ↔ (args.length + 2) % (BSIZE / direntSize) ≠ 0 ∧
      ((dot :: dotdot :: args.map Arg.name).map fun name => strncpy name DIRSIZ).Nodup := by
  have hino := h.freeinode
  constructor
  · intro hw
    have hfull := (h.full_iff hcount).mp hw.full
    have hnames := hw.names
    rw [h.rootDirents_eq hcount hfull, rootEntries_names] at hnames
    exact ⟨hfull, hnames⟩
  · intro hc
    refine ⟨fun i _ hi => by omega, (h.full_iff hcount).mpr hc.1, h.only, h.indirect hcount, h.owns,
      ?_⟩
    rw [h.rootDirents_eq hcount hc.1, rootEntries_names]
    exact hc.2

/-! ## When mkfs succeeds -/

/-- When `mkfs` succeeds, the image is well formed exactly if there are inodes for the files, the
    entries of the root directory do not fill its last block, and the names, as they are stored,
    differ from each other and from `.` and `..`. -/
theorem mkfs_wellFormed_iff (h : (main args).exec State.init = .ok () s) :
    WellFormed s ↔
      args.length + 2 ≤ NINODES ∧ (args.length + 2) % (BSIZE / direntSize) ≠ 0 ∧
      ((dot :: dotdot :: args.map Arg.name).map fun name => strncpy name DIRSIZ).Nodup := by
  constructor
  · intro hw
    have hcount : args.length + 2 ≤ NINODES := by
      by_contra hgt
      have hino := freeinode_of_exec h
      exact Nat.lt_irrefl _ (hw.inums NINODES (by decide) (by omega))
    exact ⟨hcount, ((built_of_exec hcount h).wellFormed hcount).mp hw⟩
  · intro hc
    exact ((built_of_exec hc.1 h).wellFormed hc.1).mpr hc.2

/-- An empty file whose name is one character, from `0` on. -/
def letterFile (k : Nat) : Arg where
  path := [UInt8.ofNat (48 + k % 62)]
  opens := true
  pieces := []
  noNul h := by
    have hnat := congrArg UInt8.toNat (List.mem_singleton.mp h)
    rw [UInt8.toNat_ofNat'] at hnat
    have h0 : (0 : UInt8).toNat = 0 := rfl
    omega
  le := le_nil

/-- The image with the two files `0` and `1` is well formed. -/
theorem mkfs_wellFormed_iff_twoFiles :
    ∃ s, (main [letterFile 0, letterFile 1]).exec State.init = .ok () s ∧ WellFormed s := by
  obtain ⟨s, hrun, -⟩ := exec_of_fits
    (show Fits [letterFile 0, letterFile 1] from ⟨by decide, by decide, by decide, by decide⟩)
  exact ⟨s, hrun, (mkfs_wellFormed_iff hrun).mpr (by decide)⟩

/-- A name that is given twice is stored twice. With 62 files the root directory has 64 entries, and
    the second block of its rounded size is missing. -/
theorem mkfs_not_wellFormed :
    (∃ s, (main [letterFile 0, letterFile 0]).exec State.init = .ok () s ∧ ¬ WellFormed s) ∧
    ∃ s, (main ((List.range 62).map letterFile)).exec State.init = .ok () s ∧ ¬ WellFormed s := by
  constructor
  · obtain ⟨s, hrun, hbuilt⟩ := exec_of_fits
      (show Fits [letterFile 0, letterFile 0] from ⟨by decide, by decide, by decide, by decide⟩)
    exact ⟨s, hrun, fun hw => absurd ((hbuilt.wellFormed (by decide)).mp hw).2 (by decide)⟩
  · obtain ⟨s, hrun, hbuilt⟩ := exec_of_fits
      (show Fits ((List.range 62).map letterFile) from
        ⟨by decide, by decide, by decide, by decide⟩)
    exact ⟨s, hrun, fun hw => absurd ((hbuilt.wellFormed (by decide)).mp hw).1 (by decide)⟩

end Xv6.Mkfs
