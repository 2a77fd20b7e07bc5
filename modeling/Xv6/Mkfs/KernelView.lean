import Xv6.Mkfs.WellFormed
import Xv6.Spec.InodeTable

/-!
# The image in the kernel

What the kernel finds on an image that `mkfs` has written: `readi` returns the bytes of the input
files (`readFile_ends`), and `dirlookup` returns the inode of the first entry with a name
(`lookup_ends`). The files are found under their names unless a name is stored as `.`
or `..`, whose entries come first.
-/

namespace Xv6.Mkfs

open Fs
open Prog (ends_bind ends_pure ends_gets ends_atomic)

variable {s : State} {args : List Arg} {E : Stop → Prop}

/-- `iget` and `ilock`. -/
def lockInode (i : Nat) : FsM InodePtr := do
  let ip ← iget i
  ilock ip
  pure ip

/-- The size of inode `i`, and the `n` bytes from `off` on. -/
def readFile (i off n : Nat) : FsM (Nat × List UInt8) := do
  let ip ← lockInode i
  let x ← inode ip
  let bs ← readi ip off n
  pure (x.din.size, bs)

/-- The inode number of a name in the root directory. -/
def lookup (name : List UInt8) : FsM (Option Nat) := do
  let dp ← lockInode ROOTINO
  match ← dirlookup dp name with
  | some (ip, _) => do
    let x ← inode ip
    pure (some x.inum)
  | none => pure none

/-! ## A locked inode -/

/-- The kernel with inode `i` locked in `ip`. -/
def locked (image : Nat → ByteMem) (ip : InodePtr) (i : Nat) : Fs.State :=
  { boot image with itable := upd (boot image).itable ip ⟨i, 1, true, true, dinodes image i⟩ }

variable {ip : InodePtr}

theorem exists_findSlot {s : Fs.State} {test : Inode → Bool} (h : test (s.itable ip) = true) :
    ∃ ip', findSlot s test = some ip' := by
  cases hfind : findSlot s test with
  | some ip' => exact ⟨ip', rfl⟩
  | none =>
    rw [findSlot_none hfind ip] at h
    cases h

/-- `iget` returns a slot with the inode number. -/
theorem iget_inum {s : Fs.State} (hfree : (s.itable ip).ref = 0) (i : Nat) :
    (iget i).Ends E (fun ip' s' => (s'.itable ip').inum = i) s := by
  rw [iget, ends_atomic]
  cases hfind : findSlot s fun x => decide (0 < x.ref) && x.inum == i with
  | some ip' =>
    have htest := findSlot_some hfind
    simp only [Bool.and_eq_true, decide_eq_true_eq, beq_iff_eq] at htest
    show (upd s.itable ip' _ ip').inum = i
    rw [upd_self]
    exact htest.2
  | none =>
    obtain ⟨ip', hip'⟩ : ∃ ip', findSlot s (fun x => x.ref == 0) = some ip' :=
      exists_findSlot (by simpa using hfree)
    simp only [hip']
    show (upd s.itable ip' _ ip').inum = i
    rw [upd_self]

variable {i : Nat}

/-- `ilock` loads an inode that is not in memory yet. -/
theorem ilock_load {s : Fs.State} {d : Dinode}
    (hx : s.itable ip = ⟨i, 1, false, false, d⟩) (ht : (s.dinode i).type ≠ .free) :
    (ilock ip).Ends E
      (fun _ s' => s' = { s with itable := upd s.itable ip ⟨i, 1, true, true, s.dinode i⟩ }) s := by
  rw [ilock, inode, ends_bind, ends_gets, hx, if_neg (Nat.lt_irrefl 1), ends_bind,
    acquiresleep, ends_atomic, hx, if_neg Bool.false_ne_true]
  show Prog.Ends E _ _ _
  simp only [ends_bind, ends_gets, upd_self, if_true, Prog.ends_modify, upd_upd,
    if_neg ht, ends_pure]

theorem lockInode_ends {image : Nat → ByteMem} (ht : (dinodes image i).type ≠ .free) :
    (lockInode i).Ends E (fun ip s' => s' = locked image ip i) (boot image) := by
  have hnone : findSlot (boot image) (fun x => decide (0 < x.ref) && x.inum == i) = none := by
    cases hfind : findSlot (boot image) fun x => decide (0 < x.ref) && x.inum == i with
    | none => rfl
    | some ip =>
      have htest := findSlot_some hfind
      cases htest
  have hzero : ((boot image).itable ⟨0, by decide⟩).ref == 0 := rfl
  obtain ⟨ip, hip⟩ : ∃ ip, findSlot (boot image) (fun x => x.ref == 0) = some ip :=
    exists_findSlot hzero
  rw [lockInode, ends_bind, iget, ends_atomic]
  simp only [hnone, hip, Outcome.Meets]
  rw [ends_bind]
  refine (ilock_load (i := i) (d := Dinode.zero) (upd_self (boot image).itable ip _) ht).mono
    fun _ s' hs' => ?_
  rw [ends_pure, hs', locked, upd_upd]
  rfl

/-! ## Reading -/

/-- The bytes of a list from `off` on, up to its end. -/
theorem map_getD_drop (bs : List UInt8) (off n : Nat) :
    ((List.range (min n (bs.length - off))).map fun x => bs.getD (off + x) 0) =
      (bs.drop off).take n := by
  refine List.ext_getElem (by simp) fun k h₁ h₂ => ?_
  have hk : off + k < bs.length := by
    rw [List.length_map, List.length_range] at h₁
    omega
  rw [List.getElem_map, List.getElem_range, List.getElem_take, List.getElem_drop,
    List.getD_eq_getElem _ _ hk]

variable (h : Built args s)
include h

/-- The kernel may map the blocks of a locked inode. -/
theorem Built.maps (ht : typesOf args.length i ≠ .free) (ip : InodePtr) :
    Maps ip (locked s.image ip i) := by
  have hself : (locked s.image ip i).itable ip = ⟨i, 1, true, true, dinodes s.image i⟩ :=
    upd_self ..
  have hlogical : logical (locked s.image ip i) ip = dinodes s.image := by
    rw [logical, hself]
    exact upd_eq_self _ i
  refine ⟨⟨by rw [hself]; exact Nat.one_pos, by rw [hself], fun ip' hne hlive => ?_⟩,
    fun x hx => absurd hx List.not_mem_nil, by rw [hself, h.type]; exact ht, ?_⟩
  · have hother : (locked s.image ip i).itable ip' = (boot s.image).itable ip' := upd_of_ne hne _
    rw [hother] at hlive
    exact absurd hlive (Nat.lt_irrefl 0)
  · rw [placeAt, hlogical]
    exact h.owns

omit h in
theorem blockAt_locked (image : Nat → ByteMem) (ip : InodePtr) (i x : Nat) :
    blockAt (locked image ip i) ip x = place (dinodes image) image (filePlace i (x / BSIZE)) := by
  have hself : (locked image ip i).itable ip = ⟨i, 1, true, true, dinodes image i⟩ := upd_self ..
  rw [blockAt, placeAt, logical, hself]
  show place (upd (dinodes image) i (dinodes image i)) image _ = _
  rw [upd_eq_self]

omit h in
theorem bytesAt_locked (image : Nat → ByteMem) (ip : InodePtr) (i off n : Nat) :
    bytesAt (locked image ip i) ip off n = fileBytes (boot image) i off n := by
  refine List.map_congr_left fun k _ => ?_
  rw [byteAt, blockAt_locked]
  rfl

/-- `readi` of bytes for which there are blocks. -/
theorem Built.readi_ends (ht : typesOf args.length i ≠ .free) (ip : InodePtr)
    (hsize : (dinodes s.image i).size ≤ MAXFILE * BSIZE) {off n : Nat} (hn : off + n < 2 ^ 32)
    (hblocks : ∀ x, off ≤ x → x < off + n → x < (dinodes s.image i).size →
      x / BSIZE < blocks (contentsOf args i).length) :
    (readi ip off n).Ends E
      (fun r s' => s' = locked s.image ip i ∧
        r = (List.range (min n ((dinodes s.image i).size - off))).map fun x =>
          (contentsOf args i).getD (off + x) 0) (locked s.image ip i) := by
  have hself : (locked s.image ip i).itable ip = ⟨i, 1, true, true, dinodes s.image i⟩ :=
    upd_self ..
  refine (readi_ends_of_blocks (h.maps ht ip) (by rwa [hself]) fun x h₁ h₂ h₃ => ?_).mono
    fun r s' hr => ?_
  · rw [hself] at h₃
    rw [blockAt_locked]
    refine (h.stores.blocks i _ (by rwa [h.type]) ?_).mpr (hblocks x h₁ h₂ h₃)
    exact (Nat.div_lt_iff_lt_mul (by decide)).mpr (by
      have h₃ : x < (dinodes s.image i).size := h₃
      omega)
  · have hdin : ((locked s.image ip i).itable ip).din.size = (dinodes s.image i).size := by
      rw [hself]
    refine ⟨hr.1, ?_⟩
    rw [hr.2 hn, hdin, bytesAt_locked]
    exact h.fileBytes_eq ht (fun x hx => hblocks _ (by omega) (by omega) (by omega))
      fun x hx => by omega

variable {j : Nat} {a : Arg}

/-- The kernel reads the bytes of an input file. -/
theorem Built.readFile_ends (ha : args[j]? = some a) {off n : Nat} (hn : off + n < 2 ^ 32) :
    (readFile (j + 2) off n).Ends E
      (fun r _ => r = (a.contents.length, (a.contents.drop off).take n)) (boot s.image) := by
  obtain ⟨hj, hget⟩ := List.getElem?_eq_some_iff.mp ha
  have ht : typesOf args.length (j + 2) ≠ .free := by
    rw [typesOf, if_pos hj]
    rintro ⟨⟩
  have hcontents : contentsOf args (j + 2) = a.contents := by
    show (args.map Arg.contents).getD j [] = _
    rw [List.getD_eq_getElem _ _ (by simpa using hj), List.getElem_map, hget]
  have hsize : (dinodes s.image (j + 2)).size = a.contents.length := by
    rw [h.size _ (by show j + 2 ≠ 1; omega), hcontents]
  have hmax : (dinodes s.image (j + 2)).size ≤ MAXFILE * BSIZE := by
    rw [hsize, ← hcontents]
    exact h.small _
  rw [readFile, ends_bind]
  refine (lockInode_ends (by rwa [h.type])).mono fun ip s' hs' => ?_
  subst hs'
  have hself : (locked s.image ip (j + 2)).itable ip =
      ⟨j + 2, 1, true, true, dinodes s.image (j + 2)⟩ := upd_self ..
  rw [ends_bind, inode, ends_gets, ends_bind]
  refine (h.readi_ends ht ip hmax hn fun x _ _ hx => ?_).mono fun r s' hr => ?_
  · rw [hsize, ← hcontents] at hx
    simp only [blocks, BSIZE]
    omega
  · rw [ends_pure, hself, hr.2, hsize, hcontents, map_getD_drop]

/-! ## Names -/

/-- `readDirent` of an entry of the root directory. -/
theorem Built.readDirent_ends (hcount : args.length + 2 ≤ NINODES) (dp : InodePtr) {k : Nat}
    (hk : k < (rootEntries args).length) (msg : String) :
    (readDirent dp (direntSize * k) msg).Ends E
      (fun de s' => de = (rootEntries args)[k] ∧ s' = locked s.image dp ROOTINO)
      (locked s.image dp ROOTINO) := by
  have hroot := root_length args
  have hlen := rootEntries_length args
  have hmax := rootSize_le hcount
  have hle : direntSize * (k + 1) ≤ direntSize * (args.length + 2) :=
    Nat.mul_le_mul_left _ (by omega)
  rw [Nat.mul_add, Nat.mul_one] at hle
  have hend : direntSize * (args.length + 2) ≤ (dinodes s.image ROOTINO).size := by
    rw [h.rootSize]
    simp only [BSIZE]
    omega
  have h32 : MAXFILE * BSIZE < 2 ^ 32 := by decide
  rw [readDirent, ends_bind]
  refine (h.readi_ends (i := ROOTINO) (by rw [typesOf_root]; exact fun h => by cases h) dp
    (by rw [h.rootSize]; exact hmax) (by rw [← h.rootSize] at hmax; omega)
    fun x _ hx _ => ?_).mono fun r s' hr => ?_
  · rw [hroot]
    simp only [blocks, BSIZE]
    omega
  · have hmin : min direntSize ((dinodes s.image ROOTINO).size - direntSize * k) = direntSize := by
      omega
    rw [hmin] at hr
    have hbytes : r = (rootEntries args)[k].encode := by
      rw [hr.2]
      exact entry_bytes (fun _ hde => rootEntries_encode_length hde) hk
    rw [hbytes, rootEntries_encode_length (List.getElem_mem hk), if_neg fun hne => hne rfl,
      ends_pure]
    obtain ⟨i, name, hde, -, hi⟩ := rootEntries_inum (List.getElem_mem hk)
    rw [hde]
    refine ⟨decode_encode i name ?_, hr.1⟩
    simp only [NINODES] at hcount
    omega

/-- `dirlookup` returns the inode of the first entry with the name. -/
theorem Built.lookup_ends (hcount : args.length + 2 ≤ NINODES) {name : List UInt8} {m : Nat}
    (hm : m < (rootEntries args).length) (hname : namecmp name (rootEntries args)[m].name = 0)
    (hfirst : ∀ k (hk : k < m), namecmp name (rootEntries args)[k].name ≠ 0) :
    (lookup name).Ends E (fun r _ => r = some (rootEntries args)[m].inum) (boot s.image) := by
  have hdir : (dinodes s.image ROOTINO).type = .dir := by rw [h.type, typesOf_root]
  have hne : (dinodes s.image ROOTINO).type ≠ .free := by
    rw [hdir]
    exact fun h => nomatch h
  have hlen := rootEntries_length args
  have hrounds : m < rounds (dinodes s.image ROOTINO).size := by
    rw [h.rootSize]
    simp only [rounds, direntSize, DIRSIZ, BSIZE]
    omega
  rw [lookup, ends_bind]
  refine (lockInode_ends hne).mono fun dp s' hs' => ?_
  subst hs'
  have hself : (locked s.image dp ROOTINO).itable dp =
      ⟨ROOTINO, 1, true, true, dinodes s.image ROOTINO⟩ := upd_self ..
  obtain ⟨ip, hip⟩ : ∃ ip : InodePtr, ip ≠ dp := by
    by_cases h0 : dp = ⟨0, by decide⟩
    · exact ⟨⟨1, by decide⟩, by rw [h0]; decide⟩
    · exact ⟨_, Ne.symm h0⟩
  have hfree : ((locked s.image dp ROOTINO).itable ip).ref = 0 := by
    rw [locked]
    show (upd (boot s.image).itable dp _ ip).ref = 0
    rw [upd_of_ne hip]
    rfl
  rw [ends_bind, dirlookup, ends_bind, inode, ends_gets, hself,
    if_neg fun hd => hd hdir]
  -- no entry before `m` has the name
  refine (Prog.ends_findUp (J := fun k s' => k ≤ m ∧ s' = locked s.image dp ROOTINO)
    (Q := fun r s' => (s'.itable r.1).inum = (rootEntries args)[m].inum)
    (fun k s' _ _ hJ => ?_) ⟨Nat.zero_le m, rfl⟩).mono fun r s' hr => ?_
  · obtain ⟨hkm, rfl⟩ := hJ
    rw [ends_bind]
    refine (h.readDirent_ends hcount dp (k := k) (by omega) _).mono fun de s' hde => ?_
    obtain ⟨rfl, rfl⟩ := hde
    rcases Nat.lt_or_eq_of_le hkm with hlt | rfl
    · rw [if_neg fun hc => hfirst k hlt hc.2, ends_pure]
      exact ⟨hlt, rfl⟩
    · obtain ⟨i, name', hde, hi, -⟩ := rootEntries_inum (List.getElem_mem hm)
      have hinum : (rootEntries args)[k].inum ≠ 0 := by
        rw [hde]
        exact Nat.ne_of_gt hi
      rw [if_pos ⟨hinum, hname⟩, ends_bind]
      refine (iget_inum hfree _).mono fun ip' s' hs' => ?_
      rw [ends_pure]
      exact hs'
  · cases r with
    | none =>
      have hend : 0 + rounds (dinodes s.image ROOTINO).size ≤ m := hr.1
      omega
    | some r =>
      have hr : (s'.itable r.1).inum = (rootEntries args)[m].inum := hr
      simp only [ends_bind, inode, ends_gets, ends_pure, hr]

omit h

/-- `dirlookup` compares names as they are stored. -/
theorem namecmp_rootEntries (name : List UInt8) {k : Nat} (hk : k < (rootEntries args).length) :
    namecmp name (rootEntries args)[k].name = 0 ↔
      strncpy name DIRSIZ = (rootEntries args)[k].name := by
  obtain ⟨i, name', hde, -, -⟩ := rootEntries_inum (List.getElem_mem hk)
  rw [hde, rootEntry, namecmp, strncmp_strncpy_right, strncmp_eq_zero_iff]

theorem rootEntries_file (ha : args[j]? = some a) :
    ∃ hj : j + 2 < (rootEntries args).length,
      (rootEntries args)[j + 2] = rootEntry (j + 2) a.name := by
  obtain ⟨hj, rfl⟩ := List.getElem?_eq_some_iff.mp ha
  refine ⟨by rw [rootEntries_length]; omega, ?_⟩
  simp only [rootEntries, List.getElem_cons_succ, List.getElem_mapIdx]

/-- With distinct names a file is found under its name. -/
theorem Built.finds (h : Built args s) (hcount : args.length + 2 ≤ NINODES)
    (hnames : ((rootEntries args).map Dirent.name).Nodup) (ha : args[j]? = some a) :
    (lookup a.name).Ends E (fun r _ => r = some (j + 2)) (boot s.image) := by
  obtain ⟨hj, hentry⟩ := rootEntries_file ha
  have hfound : (lookup a.name).Ends E (fun r _ => r = some (rootEntries args)[j + 2].inum)
      (boot s.image) := by
    refine h.lookup_ends hcount hj ((namecmp_rootEntries _ hj).mpr (by rw [hentry]; rfl))
      fun k hk hzero => ?_
    -- an entry before it has another name
    have hk' : k < ((rootEntries args).map Dirent.name).length := by
      rw [List.length_map]
      omega
    have hj' : j + 2 < ((rootEntries args).map Dirent.name).length := by rwa [List.length_map]
    have hsame : ((rootEntries args).map Dirent.name)[k] =
        ((rootEntries args).map Dirent.name)[j + 2] := by
      rw [List.getElem_map, List.getElem_map, ← (namecmp_rootEntries _ (by omega)).mp hzero, hentry]
      rfl
    have := (hnames.getElem_inj_iff).mp hsame
    omega
  rwa [hentry] at hfound

/-- Under the name of `.` or `..` the root directory is found. -/
theorem Built.finds_root (h : Built args s) (hcount : args.length + 2 ≤ NINODES) (name : List UInt8)
    (hname : strncpy name DIRSIZ = strncpy dot DIRSIZ ∨ strncpy name DIRSIZ = strncpy dotdot DIRSIZ) :
    (lookup name).Ends E (fun r _ => r = some ROOTINO) (boot s.image) := by
  have hlen := rootEntries_length args
  by_cases hdot : strncpy name DIRSIZ = strncpy dot DIRSIZ
  · exact h.lookup_ends hcount (m := 0) (by omega) ((namecmp_rootEntries _ (by omega)).mpr hdot)
      fun k hk => absurd hk (Nat.not_lt_zero k)
  · have hdotdot := hname.resolve_left hdot
    refine h.lookup_ends hcount (m := 1) (by omega) ((namecmp_rootEntries _ (by omega)).mpr hdotdot)
      fun k hk hzero => hdot ?_
    obtain rfl : k = 0 := by omega
    exact (namecmp_rootEntries _ (by omega)).mp hzero

/-! ## mkfs and the kernel -/

/-- The kernel reads the input files from the image and, if their names are distinct, finds them under
    these names. -/
structure Agrees (args : List Arg) (s : State) : Prop where
  reads : ∀ j a, args[j]? = some a → ∀ off n, off + n < 2 ^ 32 →
    ∃ s', (readFile (j + 2) off n).exec (boot s.image) =
      .ok (a.contents.length, (a.contents.drop off).take n) s'
  finds : (args.map fun a => strncpy a.name DIRSIZ).Nodup → ∀ j a, args[j]? = some a →
    ∃ s', (lookup a.name).exec (boot s.image) = .ok (some (j + 2)) s'

/-- Files that fit are written, and the kernel agrees with what `mkfs` has written unless the names
    are distinct and one of them is stored as `.` or `..`. -/
theorem mkfs_agrees_iff (h : Fits args) :
    (∃ s, (main args).exec State.init = .ok () s ∧ Agrees args s) ↔
      ((args.map fun a => strncpy a.name DIRSIZ).Nodup → ∀ a ∈ args,
        strncpy a.name DIRSIZ ≠ strncpy dot DIRSIZ ∧ strncpy a.name DIRSIZ ≠ strncpy dotdot DIRSIZ) := by
  constructor
  · intro hagree hnodup a ha
    obtain ⟨s, hrun, hagree⟩ := hagree
    have hbuilt := built_of_exec h.count hrun
    obtain ⟨j, hj⟩ := List.mem_iff_getElem?.mp ha
    obtain ⟨s', hlookup⟩ := hagree.finds hnodup j a hj
    by_contra hnot
    have hroot := hbuilt.finds_root (E := fun _ => True) h.count a.name (by
      by_contra hc
      exact hnot ⟨fun hd => hc (.inl hd), fun hd => hc (.inr hd)⟩)
    have hsame : some (j + 2) = some ROOTINO := hroot.of_exec hlookup
    have := Option.some.inj hsame
    simp only [ROOTINO] at this
    omega
  · intro hcond
    obtain ⟨s, hrun, hbuilt⟩ := exec_of_fits h
    refine ⟨s, hrun, fun j a ha off n hn => ?_, fun hnodup j a ha => ?_⟩
    · obtain ⟨r, s', hread, rfl⟩ := (hbuilt.readFile_ends ha hn).exists_ok
      exact ⟨s', hread⟩
    · have hnames : ((rootEntries args).map Dirent.name).Nodup := by
        have hdots := hcond hnodup
        rw [rootEntries_names, List.map_cons, List.map_cons, List.map_map, List.nodup_cons,
          List.nodup_cons]
        refine ⟨fun hmem => ?_, fun hmem => ?_, hnodup⟩
        · rcases List.mem_cons.mp hmem with heq | hmem
          · exact absurd heq (by decide)
          · obtain ⟨b, hb, heq⟩ := List.mem_map.mp hmem
            exact (hdots b hb).1 heq
        · obtain ⟨b, hb, heq⟩ := List.mem_map.mp hmem
          exact (hdots b hb).2 heq
      obtain ⟨r, s', hlookup, rfl⟩ := (hbuilt.finds h.count hnames ha).exists_ok
      exact ⟨s', hlookup⟩

/-- A file `hi` that `read` returns in two pieces. -/
def hiFile : Arg where
  path := [104, 105]
  opens := true
  pieces := [[104, 101, 108], [108, 111]]
  noNul := by decide
  le := by decide

theorem mkfs_agrees_iff_hiFile :
    ∃ s, (main [hiFile]).exec State.init = .ok () s ∧ Agrees [hiFile] s :=
  (mkfs_agrees_iff ⟨by decide, by decide, by decide, by decide⟩).mpr (by decide)

/-- An empty file `_.`, which is stored as `.`. -/
def dotFile : Arg where
  path := [underscore, 46]
  opens := true
  pieces := []
  noNul := by decide
  le := le_nil

/-- The file gets inode 2, but under its name the kernel finds the root directory. -/
theorem mkfs_hides_dotFile :
    ∃ s, (main [dotFile]).exec State.init = .ok () s ∧ ¬ Agrees [dotFile] s ∧
      ∃ s', (lookup dotFile.name).exec (boot s.image) = .ok (some ROOTINO) s' := by
  obtain ⟨s, hrun, hbuilt⟩ := exec_of_fits
    (show Fits [dotFile] from ⟨by decide, by decide, by decide, by decide⟩)
  obtain ⟨r, s', hlookup, rfl⟩ :=
    (hbuilt.finds_root (by decide) dotFile.name (by decide)).exists_ok
  refine ⟨s, hrun, fun hagree => ?_, s', hlookup⟩
  obtain ⟨s'', hfound⟩ := hagree.finds (by decide) 0 dotFile rfl
  rw [hlookup] at hfound
  exact nomatch (Outcome.ok.inj hfound).1

end Xv6.Mkfs
