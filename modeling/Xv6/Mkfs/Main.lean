import Xv6.Mkfs.Build
import Xv6.Spec.Names

/-!
# The image of main

`Loaded args s` says that the arguments stand on the image: the root directory has the entries
`.`, `..` and one for each argument, inode `j + 2` has the bytes of argument `j`, and the
blocks up to `freeblock` are the ones they need. `Built args s` is what `main` leaves behind, with
the rounded size of the root directory and the bitmap.

`main_ends` covers up to 198 files, which is as many as there are inodes. It has one condition, on
the reasons to end without success: files that fit are always written.
-/

namespace Xv6.Mkfs

open Fs

variable {s s' : State} {E : Stop → Prop} {args : List Arg}

/-! ## What is written -/

/-- The entries of the root directory. -/
def rootEntries (args : List Arg) : List Dirent :=
  rootEntry ROOTINO dot :: rootEntry ROOTINO dotdot ::
    args.mapIdx fun j a => rootEntry (j + 2) a.name

/-- The contents of the inodes. -/
def contentsOf (args : List Arg) : Nat → List UInt8
  | 0 => []
  | 1 => (rootEntries args).flatMap Dirent.encode
  | j + 2 => (args.map Arg.contents).getD j []

/-- The types of the inodes after `n` files. -/
def typesOf (n : Nat) : Nat → InodeType
  | 0 => .free
  | 1 => .dir
  | j + 2 => if j < n then .file else .free

/-- The number of data blocks. -/
def total (args : List Arg) : Nat :=
  need (blocks (direntSize * (args.length + 2))) +
    (args.map fun a => need (blocks a.contents.length)).sum

/-- The arguments are files that `mkfs` accepts, and they fit into the image. -/
structure Fits (args : List Arg) : Prop where
  accepted : ∀ a ∈ args, slash ∉ a.shortname ∧ a.opens = true
  small : ∀ a ∈ args, a.contents.length ≤ MAXFILE * BSIZE
  count : args.length + 2 ≤ NINODES
  room : nmeta + total args ≤ FSSIZE

theorem rootEntry_encode_length (inum : Nat) (name : List UInt8) :
    (rootEntry inum name).encode.length = direntSize := by
  rw [Dirent.encode, List.length_append, leBytes_length, rootEntry, strncpy_length]
  rfl

theorem rootEntries_length (args : List Arg) : (rootEntries args).length = args.length + 2 := by
  simp only [rootEntries, List.length_cons, List.length_mapIdx]

theorem rootEntries_append (args : List Arg) (a : Arg) :
    rootEntries (args ++ [a]) = rootEntries args ++ [rootEntry (args.length + 2) a.name] := by
  simp only [rootEntries, List.mapIdx_concat, List.cons_append]

/-- Every entry takes `sizeof(struct dirent)` bytes. -/
theorem flatMap_encode_length {es : List Dirent} (h : ∀ de ∈ es, de.encode.length = direntSize) :
    (es.flatMap Dirent.encode).length = direntSize * es.length := by
  induction es with
  | nil => rfl
  | cons de es ih =>
    have hde := h de List.mem_cons_self
    have hes := ih fun x hx => h x (List.mem_cons_of_mem _ hx)
    rw [List.flatMap_cons, List.length_append, hde, hes, List.length_cons, Nat.mul_add, Nat.mul_one,
      Nat.add_comm]

theorem rootEntries_encode_length {de : Dirent} (h : de ∈ rootEntries args) :
    de.encode.length = direntSize := by
  rw [rootEntries, List.mem_cons, List.mem_cons] at h
  rcases h with rfl | rfl | h
  · exact rootEntry_encode_length _ _
  · exact rootEntry_encode_length _ _
  · obtain ⟨j, hj, rfl⟩ := List.mem_mapIdx.mp h
    exact rootEntry_encode_length _ _

theorem root_length (args : List Arg) :
    (contentsOf args ROOTINO).length = direntSize * (args.length + 2) := by
  show ((rootEntries args).flatMap Dirent.encode).length = _
  rw [flatMap_encode_length fun _ h => rootEntries_encode_length h, rootEntries_length]

/-- One more argument. -/
theorem contentsOf_append (args : List Arg) (a : Arg) :
    contentsOf (args ++ [a]) =
      upd (upd (contentsOf args) ROOTINO
          (contentsOf args ROOTINO ++ (rootEntry (args.length + 2) a.name).encode))
        (args.length + 2) a.contents := by
  funext i
  match i with
  | 0 => rfl
  | 1 =>
    rw [upd_of_ne (by omega)]
    show _ = upd _ ROOTINO _ ROOTINO
    rw [upd_self]
    simp only [contentsOf, ROOTINO, rootEntries_append, List.flatMap_append, List.flatMap_cons,
      List.flatMap_nil, List.append_nil]
  | j + 2 =>
    simp only [contentsOf, List.map_append, List.map_cons, List.map_nil]
    by_cases hj : j = args.length
    · rw [hj, upd_self, List.getD_append_right _ _ _ _ (by simp)]
      simp
    · have hroot : j + 2 ≠ ROOTINO := by simp [ROOTINO]
      rw [upd_of_ne (by omega), upd_of_ne hroot]
      show _ = (args.map Arg.contents).getD j []
      rcases Nat.lt_or_gt_of_ne hj with hlt | hgt
      · rw [List.getD_append _ _ _ _ (by simpa using hlt)]
      · rw [List.getD_eq_default _ _ (by simp; omega), List.getD_eq_default _ _ (by simp; omega)]

theorem typesOf_succ (n : Nat) : typesOf (n + 1) = upd (typesOf n) (n + 2) .file := by
  funext i
  match i with
  | 0 => rfl
  | 1 =>
    rw [upd_of_ne (by omega)]
    rfl
  | j + 2 =>
    simp only [typesOf]
    by_cases hj : j = n
    · rw [hj, upd_self, if_pos (Nat.lt_succ_self n)]
    · rw [upd_of_ne (by omega)]
      show _ = if j < n then _ else _
      simp only [show j < n + 1 ↔ j < n by omega]

theorem total_append (args : List Arg) (a : Arg) :
    total (args ++ [a]) = need (blocks (direntSize * (args.length + 3))) +
      (args.map fun a => need (blocks a.contents.length)).sum + need (blocks a.contents.length) := by
  simp only [total, List.length_append, List.length_singleton, List.map_append, List.map_cons,
    List.map_nil, List.sum_append, List.sum_cons, List.sum_nil, Nat.add_zero]
  rw [← Nat.add_assoc]

theorem total_le_append (args args' : List Arg) : total args ≤ total (args ++ args') := by
  have hroot : need (blocks (direntSize * (args.length + 2))) ≤
      need (blocks (direntSize * ((args ++ args').length + 2))) := by
    refine need_mono (blocks_mono (Nat.mul_le_mul_left _ ?_))
    rw [List.length_append]
    omega
  have hsum : ((args ++ args').map fun a => need (blocks a.contents.length)).sum =
      (args.map fun a => need (blocks a.contents.length)).sum +
        (args'.map fun a => need (blocks a.contents.length)).sum := by
    rw [List.map_append, List.sum_append]
  rw [total, total, hsum]
  omega

/-! ## The arguments -/

/-- The arguments stand on the image. -/
structure Loaded (args : List Arg) (s : State) : Prop where
  ready : Ready s (contentsOf args) (typesOf args.length)
  freeinode : s.freeinode = args.length + 2
  freeblock : s.freeblock = nmeta + total args

theorem typesOf_root (n : Nat) : typesOf n ROOTINO = .dir := rfl

theorem typesOf_next (n : Nat) : typesOf n (n + 2) = .free := if_neg (Nat.lt_irrefl n)

theorem contentsOf_next (args : List Arg) : contentsOf args (args.length + 2) = [] :=
  List.getD_eq_default _ _ (by simp)

/-- A file that fits behind `args` is written. -/
theorem addFile_ends {a : Arg} {rest : List Arg} (h : Loaded args s)
    (hcount : (args ++ a :: rest).length + 2 ≤ NINODES) (hE : ¬ Fits (args ++ a :: rest) → ∀ w, E w) :
    (addFile ROOTINO a).Ends E (fun _ s' => Loaded (args ++ [a]) s') s := by
  have hmem : a ∈ args ++ a :: rest := List.mem_append_right _ List.mem_cons_self
  have hall : args ++ a :: rest = (args ++ [a]) ++ rest := by
    rw [List.append_assoc, List.singleton_append]
  have hlen : (args ++ a :: rest).length = args.length + 1 + rest.length := by
    rw [List.length_append, List.length_cons]
    omega
  have hroom : total (args ++ [a]) ≤ total (args ++ a :: rest) := by
    rw [hall]
    exact total_le_append _ _
  rw [total_append] at hroom
  have hfb := h.freeblock
  rw [total] at hfb
  have hsmall : ∀ n ≤ 200, direntSize * n ≤ MAXFILE * BSIZE := by
    intro n hn
    exact Nat.le_trans (Nat.mul_le_mul_left _ hn) (by decide)
  rw [addFile]
  split
  · rename_i hslash
    rw [Prog.ends_panic]
    exact hE (fun hfit => (hfit.accepted a hmem).1 hslash) _
  split
  · rename_i hopen
    rw [Prog.ends_panic]
    refine hE (fun hfit => ?_) _
    rw [(hfit.accepted a hmem).2] at hopen
    cases hopen
  have hnext := h.freeinode
  rw [Prog.ends_bind]
  refine (ialloc_ends h.ready ?_ ?_ ?_).mono fun inum s₁ h₁ => ?_
  · simp only [NINODES] at hcount ⊢
    omega
  · rw [hnext]
    exact typesOf_next _
  · rw [hnext]
    exact contentsOf_next _
  obtain ⟨rfl, hready, hino, hfree⟩ := h₁
  rw [hnext, ← typesOf_succ] at hready
  rw [hnext] at hino ⊢
  -- the entry in the root directory
  have hrootlen := root_length args
  have henc := rootEntry_encode_length (args.length + 2) a.name
  rw [Prog.ends_bind]
  refine (iappend_ends hready (by rw [typesOf_root]; exact fun h => by cases h) ?_).mono
    fun _ s₂ h₂ => ?_
  · intro ho
    refine hE fun hfit => ?_
    have hfitroom := hfit.room
    rw [Overflows, List.length_append, hrootlen, henc, ← Nat.mul_succ] at ho
    rcases ho with hbig | hfull
    · have := hsmall (args.length + 2).succ (by simp only [NINODES] at hcount; omega)
      omega
    · have hsucc : (args.length + 2).succ = args.length + 3 := rfl
      rw [hsucc] at hfull
      omega
  obtain ⟨hready', hino', hfree'⟩ := h₂
  rw [List.length_append, hrootlen, henc, ← Nat.mul_succ] at hfree'
  have hsucc : (args.length + 2).succ = args.length + 3 := rfl
  rw [hsucc] at hfree'
  -- the bytes of the file
  obtain ⟨c, hc⟩ : ∃ c, c = upd (contentsOf args) ROOTINO
      (contentsOf args ROOTINO ++ (rootEntry (args.length + 2) a.name).encode) := ⟨_, rfl⟩
  rw [← hc] at hready'
  have hempty : c (args.length + 2) = [] := by
    have hne : args.length + 2 ≠ ROOTINO := by simp [ROOTINO]
    rw [hc, upd_of_ne hne]
    exact contentsOf_next args
  have hneed : need (blocks ([] : List UInt8).length) = 0 := rfl
  refine (appendPieces_ends (i := args.length + 2) hready' ?_ fun ho => ?_).mono
    fun _ s₃ h₃ => ?_
  · rw [typesOf_succ, upd_self]
    rintro ⟨⟩
  · refine hE fun hfit => ?_
    have hfitroom := hfit.room
    rw [Overflows, hempty, List.nil_append, hneed] at ho
    rcases ho with hbig | hfull
    · have hle : a.pieces.flatten.length ≤ _ := hfit.small a hmem
      omega
    · have hpieces : need (blocks a.contents.length) = need (blocks a.pieces.flatten.length) := rfl
      omega
  · obtain ⟨hready'', hino'', hfree''⟩ := h₃
    rw [hempty, List.nil_append] at hready'' hfree''
    rw [hneed] at hfree''
    refine ⟨?_, ?_, ?_⟩
    · rw [contentsOf_append, ← hc, List.length_append, List.length_singleton]
      exact hready''
    · rw [List.length_append, List.length_singleton, hino'', hino', hino]
    · have hpieces : need (blocks a.contents.length) = need (blocks a.pieces.flatten.length) := rfl
      rw [total_append]
      omega

/-- All files that follow `args` are written. -/
theorem addFiles_ends {rest : List Arg} (h : Loaded args s)
    (hcount : (args ++ rest).length + 2 ≤ NINODES) (hE : ¬ Fits (args ++ rest) → ∀ w, E w) :
    (addFiles ROOTINO rest).Ends E (fun _ s' => Loaded (args ++ rest) s') s := by
  induction rest generalizing args s with
  | nil =>
    rw [addFiles, Prog.ends_pure, List.append_nil]
    exact h
  | cons a rest ih =>
    have hall : args ++ a :: rest = (args ++ [a]) ++ rest := by
      rw [List.append_assoc, List.singleton_append]
    rw [addFiles, Prog.ends_bind]
    refine (addFile_ends h hcount hE).mono fun _ s₁ h₁ => ?_
    rw [hall] at hcount hE ⊢
    exact ih h₁ hcount hE

/-! ## The root directory -/

/-- The image after all sectors have been zeroed and the superblock has been written. -/
theorem ready_blank (hs : s.sectors = FSSIZE) (hf : s.freeblock = nmeta)
    (himage : s.image = upd (fun _ _ => 0) 1 superSector) :
    Ready s (fun _ => []) fun _ => .free := by
  have hsup : s.image 1 = superSector := by rw [himage, upd_self]
  have hzero : ∀ i, dinodes s.image i = Dinode.zero := by
    intro i
    rw [dinodes_eq hsup]
    split
    · rename_i hi
      have hne : iblock i ≠ 1 := by
        have := iblock_range hi
        omega
      rw [himage, upd_of_ne hne]
      exact loadDinode_zero _
    · rfl
  have hplace : ∀ p, place (dinodes s.image) s.image p = 0 := fun p =>
    place_of_empty (i := p.inum) (.inl (by rw [hzero]; rfl)) p rfl
  refine ⟨hsup, hs, ⟨⟨by decide, ?_, ?_, ?_, ?_, ?_⟩, ?_, ?_, ?_, ?_, ?_, ?_⟩, ?_, ?_, ?_⟩
  · exact fun p hp => absurd (hplace p) hp
  · exact fun p hp => absurd (hplace p) hp
  · exact fun p _ hp => absurd (hplace p) hp
  · intro b hlo _ hb
    have hlt : b < s.freeblock := of_decide_eq_true hb
    omega
  · intro b hb
    exact decide_eq_true (by rwa [hf])
  · rw [hf]
    exact Nat.le_of_lt nmeta_lt
  · exact fun _ => Nat.zero_le _
  · exact fun i _ ht => absurd (by rw [hzero]; rfl) ht
  · exact fun i ht => absurd (by rw [hzero]; rfl) ht
  · exact fun i x hx => absurd (hplace _) hx
  · intro b hb _
    have hne : b ≠ 1 := by
      have : 1 < nmeta := by decide
      omega
    rw [himage, upd_of_ne hne]
  · exact fun i => by rw [hzero]; rfl
  · exact fun i => by rw [hzero]; rfl
  · exact fun _ => Nat.zero_le _

/-- The root directory alone always fits. -/
theorem not_overflows_root {c : Nat → List UInt8} {p : List UInt8}
    (hc : (c ROOTINO).length + p.length ≤ BSIZE)
    (hf : s.freeblock = nmeta + need (blocks (c ROOTINO).length)) : ¬ Overflows ROOTINO c p s := by
  rw [Overflows, List.length_append]
  have hblocks : need (blocks ((c ROOTINO).length + p.length)) ≤ need (blocks BSIZE) :=
    need_mono (blocks_mono hc)
  have hone : need (blocks BSIZE) = 1 := by decide
  have hmax : BSIZE ≤ MAXFILE * BSIZE := by decide
  have hroom : nmeta + 1 < FSSIZE := by decide
  omega

theorem makeRoot_ends :
    makeRoot.Ends E (fun r s' => r = ROOTINO ∧ Loaded [] s') State.init := by
  rw [makeRoot, Prog.ends_bind, Prog.ends_modify, Prog.ends_bind]
  obtain ⟨J, hJ⟩ : ∃ J : Nat → State → Prop, J = fun n s =>
      s = ⟨fun _ _ => 0, n, 1, nmeta⟩ := ⟨_, rfl⟩
  refine (Prog.ends_for (J := J) (n := FSSIZE) (fun n s hn hs => ?_) ?_).mono fun _ s hs => ?_
  · -- a sector of zeroes behind the last one
    rw [hJ] at hs ⊢
    subst hs
    rw [wsect, Prog.ends_modify, sectorAt_of_le (Nat.le_of_lt hn)]
    have hmax : max n (n + 1) = n + 1 := by omega
    simp only [hmax]
    rw [upd_of_eq rfl]
  · rw [hJ]
    rfl
  rw [hJ] at hs
  subst hs
  rw [Prog.ends_bind, ends_wsect rfl (by decide), Prog.ends_bind]
  have hready := ready_blank (s := State.put ⟨fun _ _ => 0, FSSIZE, 1, nmeta⟩ 1 superSector) rfl rfl rfl
  refine (ialloc_ends hready (by show 1 < _; decide) rfl rfl).mono fun r s₁ h₁ => ?_
  obtain ⟨hr, hready₁, hino₁, hfree₁⟩ := h₁
  have hr : r = ROOTINO := hr
  have hino₁ : s₁.freeinode = 2 := hino₁
  have hfree₁ : s₁.freeblock = nmeta := hfree₁
  have htypes : upd (fun _ => InodeType.free)
      (State.put ⟨fun _ _ => 0, FSSIZE, 1, nmeta⟩ 1 superSector).freeinode .dir = typesOf 0 := by
    funext i
    rcases i with _ | _ | j
    · rfl
    · rfl
    · rw [upd_of_ne (by show j + 2 ≠ 1; omega)]
      rfl
  rw [htypes] at hready₁
  subst hr
  rw [if_neg fun h => h rfl, Prog.ends_bind]
  have hsize : direntSize + direntSize ≤ BSIZE := by decide
  -- the entries `.` and `..`
  have hdot := rootEntry_encode_length ROOTINO dot
  have hdotdot := rootEntry_encode_length ROOTINO dotdot
  refine (iappend_ends hready₁ (by decide) fun ho => absurd ho ?_).mono fun _ s₂ h₂ => ?_
  · refine not_overflows_root ?_ ?_
    · rw [hdot]
      show 0 + _ ≤ _
      omega
    · rw [hfree₁]
      rfl
  obtain ⟨hready₂, hino₂, hfree₂⟩ := h₂
  rw [List.nil_append] at hready₂ hfree₂
  rw [hdot] at hfree₂
  have hfree₂ : s₂.freeblock = nmeta + need (blocks direntSize) := by
    rw [← hfree₁, ← hfree₂]
    rfl
  rw [Prog.ends_bind]
  refine (iappend_ends hready₂ (by decide) fun ho => absurd ho ?_).mono fun _ s₃ h₃ => ?_
  · refine not_overflows_root ?_ ?_
    · rw [upd_self, hdot, hdotdot]
      exact hsize
    · rw [upd_self, hdot, hfree₂]
  obtain ⟨hready₃, hino₃, hfree₃⟩ := h₃
  rw [upd_self, upd_upd] at hready₃
  rw [upd_self, List.length_append, hdot, hdotdot] at hfree₃
  rw [Prog.ends_pure]
  refine ⟨rfl, ?_, by rw [hino₃, hino₂, hino₁]; rfl, ?_⟩
  · have hcontents : contentsOf [] = upd (fun _ => []) ROOTINO
        ((rootEntry ROOTINO dot).encode ++ (rootEntry ROOTINO dotdot).encode) := by
      funext i
      rcases i with _ | _ | j
      · rfl
      · rfl
      · rw [upd_of_ne (by show j + 2 ≠ 1; omega)]
        rfl
    rw [hcontents]
    exact hready₃
  · have htwo : total [] = need (blocks (direntSize + direntSize)) := by decide
    rw [htwo]
    omega

/-! ## The finished image -/

/-- What `main` leaves behind. -/
structure Built (args : List Arg) (s : State) : Prop where
  stores : Stores (dinodes s.image) s.image s.freeblock (contentsOf args)
    fun i => blocks (contentsOf args i).length
  type : ∀ i, (dinodes s.image i).type = typesOf args.length i
  size : ∀ i, i ≠ ROOTINO → (dinodes s.image i).size = (contentsOf args i).length
  rootSize : (dinodes s.image ROOTINO).size =
    (direntSize * (args.length + 2) / BSIZE + 1) * BSIZE
  small : ∀ i, (contentsOf args i).length ≤ MAXFILE * BSIZE
  bitmap : ∀ b < FSSIZE, (boot s.image).bitmap b = decide (b < s.freeblock)
  freeinode : s.freeinode = args.length + 2

/-- The size of the root directory is rounded up. -/
theorem fixRoot_ends (h : Loaded args s) :
    (fixRoot ROOTINO).Ends E
      (fun _ s' => s' = s.setInode ROOTINO
        { dinodes s.image ROOTINO with
          size := (direntSize * (args.length + 2) / BSIZE + 1) * BSIZE }) s := by
  have hroot : ROOTINO < NINODES := by decide
  have hready := h.ready
  rw [fixRoot, Prog.ends_bind, ends_rinode hready.super hready.sectors hroot,
    ends_winode hready.sectors hroot, hready.size, root_length]

/-- The root directory stays small. -/
theorem rootSize_le (hcount : args.length + 2 ≤ NINODES) :
    (direntSize * (args.length + 2) / BSIZE + 1) * BSIZE ≤ MAXFILE * BSIZE := by
  refine Nat.mul_le_mul_right _ ?_
  have hle : direntSize * (args.length + 2) / BSIZE ≤ direntSize * NINODES / BSIZE :=
    Nat.div_le_div_right (Nat.mul_le_mul_left _ hcount)
  have hmax : direntSize * NINODES / BSIZE + 1 ≤ MAXFILE := by decide
  omega

/-- With the rounded size and the bitmap the image is finished. -/
theorem Loaded.built (h : Loaded args s) (hcount : args.length + 2 ≤ NINODES) :
    Built args ((s.setInode ROOTINO
      { dinodes s.image ROOTINO with
        size := (direntSize * (args.length + 2) / BSIZE + 1) * BSIZE }).put bmapstart
          (firstBits s.freeblock)) := by
  obtain ⟨d, hd⟩ : ∃ d, d = { dinodes s.image ROOTINO with
    size := (direntSize * (args.length + 2) / BSIZE + 1) * BSIZE } := ⟨_, rfl⟩
  obtain ⟨s', hs'⟩ : ∃ s', s' = (s.setInode ROOTINO d).put bmapstart (firstBits s.freeblock) :=
    ⟨_, rfl⟩
  rw [← hd, ← hs']
  have hready := h.ready
  have hroot : ROOTINO < NINODES := by decide
  have hrange := iblock_range hroot
  have hst : Storable d := by
    obtain ⟨hmajor, hminor, hnlink, -, haddrs, honly⟩ := hready.storable ROOTINO
    rw [hd]
    exact ⟨hmajor, hminor, hnlink, Nat.lt_of_le_of_lt (rootSize_le hcount) (by decide), haddrs, honly⟩
  have himage : ∀ b, b ≠ bmapstart → b ≠ iblock ROOTINO → s'.image b = s.image b := by
    intro b hb hb'
    rw [hs', State.put, ← setInode_image_of_ne s d hb']
    exact upd_of_ne hb _
  have hsup : s'.image 1 = superSector := by
    rw [himage 1 (by decide) (by decide)]
    exact hready.super
  have hD : dinodes s'.image = upd (dinodes s.image) ROOTINO d := by
    rw [← dinodes_setInode hready.super hroot hst]
    refine dinodes_congr ?_ fun b hb => ?_
    · rw [setInode_image_of_ne s d (by decide)]
      exact hready.super
    · rw [hs']
      exact upd_of_ne (by omega) _
  have htype : d.type = (dinodes s.image ROOTINO).type := by rw [hd]
  have haddrs : d.addrs = (dinodes s.image ROOTINO).addrs := by rw [hd]
  have hfree : s'.freeblock = s.freeblock := by rw [hs']; rfl
  refine ⟨?_, fun i => ?_, fun i hi => ?_, ?_, hready.small, fun b hb => ?_, ?_⟩
  · rw [hD, hfree]
    refine hready.stores.congr (fun i => ⟨?_, ?_⟩) fun b hb => himage b ?_ ?_
    · exact apply_upd (F := Dinode.type) htype i
    · exact apply_upd (F := Dinode.addrs) haddrs i
    · have := bmapstart_lt
      omega
    · have := bmapstart_lt
      omega
  · rw [hD, ← hready.type i]
    exact apply_upd (F := Dinode.type) htype i
  · rw [hD, upd_of_ne hi]
    exact hready.size i
  · rw [hD, upd_self, hd]
  · -- the bit of `b` in the bitmap block
    have hdiv : b / (BSIZE * 8) = 0 := Nat.div_eq_of_lt (Nat.lt_trans hb (by decide))
    have hmod : b % (BSIZE * 8) = b := Nat.mod_eq_of_lt (Nat.lt_trans hb (by decide))
    have hmap : s'.image bmapstart = firstBits s.freeblock := by rw [hs', put_image_self]
    show (s'.image _ _ &&& _ != 0) = _
    rw [hsup, bmapstart_super, hdiv, hmod, Nat.zero_add, hmap, hfree]
    exact bit_firstBits s.freeblock b
  · rw [hs']
    exact h.freeinode

/-- `main` writes up to 198 files, or stops when they do not fit. -/
theorem main_ends (hcount : args.length + 2 ≤ NINODES) (hE : ¬ Fits args → ∀ w, E w) :
    (main args).Ends E (fun _ s => Built args s) State.init := by
  rw [main, Prog.ends_bind]
  refine makeRoot_ends.mono fun r s hr => ?_
  obtain ⟨rfl, hloaded⟩ := hr
  rw [Prog.ends_bind]
  refine (addFiles_ends hloaded hcount hE).mono fun _ s₁ h₁ => ?_
  rw [List.nil_append] at h₁
  rw [Prog.ends_bind]
  refine (fixRoot_ends h₁).mono fun _ s₂ h₂ => ?_
  have hle := h₁.ready.stores.le
  have hbits : ¬ BSIZE * 8 ≤ s₁.freeblock := by
    have : FSSIZE < BSIZE * 8 := by decide
    omega
  have hs₂ : s₂.sectors = FSSIZE := by rw [h₂]; exact h₁.ready.sectors
  have hfree : s₂.freeblock = s₁.freeblock := by rw [h₂]; rfl
  rw [Prog.ends_bind, Prog.ends_gets, hfree, balloc, if_neg hbits, ends_wsect hs₂ (by decide), h₂]
  exact h₁.built hcount

/-- Files that fit are written. -/
theorem exec_of_fits (h : Fits args) :
    ∃ s, (main args).exec State.init = .ok () s ∧ Built args s := by
  obtain ⟨r, s, hrun, hbuilt⟩ := Prog.Ends.exists_ok
    (main_ends (E := fun _ => False) h.count fun hnot => absurd h hnot)
  exact ⟨s, hrun, hbuilt⟩

/-- What `main` has written when it succeeds. -/
theorem built_of_exec (hcount : args.length + 2 ≤ NINODES)
    (h : (main args).exec State.init = .ok () s) : Built args s :=
  Prog.Ends.of_exec (main_ends (E := fun _ => True) hcount fun _ _ => trivial) h

end Xv6.Mkfs
