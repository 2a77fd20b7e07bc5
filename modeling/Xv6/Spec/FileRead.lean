import Xv6.Spec.ReadInode

/-!
# What fileread transfers

`sys_read` passes its `int` argument on without a test, and `readi` takes it as an `uint`. A negative
number is then a huge one: `readi` returns 0 if the end of the range is no 32-bit number, and
otherwise cuts the range at the end of the file and reads all of it. `fileread_transfers_iff`
says when `fileread` transfers at most what it was asked for.
-/

namespace Xv6.InodeIo

open Fs

variable {sb : Superblock} {ip : InodePtr} {t : State} {E : Stop → Prop} {f : FilePtr}

/-! ## ilock -/

/-- The inode in `ip` after `ilock`, which loads it if it is not valid. -/
def State.ilockedInode (sb : Superblock) (t : State) (ip : InodePtr) : Inode :=
  if (t.itable ip).valid then { t.itable ip with locked := true }
  else
    { t.itable ip with
      locked := true
      valid := true
      din := Mkfs.loadDinode (t.cache (sb.iblock (t.itable ip).inum)) (Mkfs.islot (t.itable ip).inum) }

/-- The state after `ilock`. -/
def State.ilocked (sb : Superblock) (t : State) (ip : InodePtr) : State :=
  { t with itable := upd t.itable ip (t.ilockedInode sb ip) }

theorem State.ilocked_self (sb : Superblock) (t : State) (ip : InodePtr) :
    (t.ilocked sb ip).itable ip = t.ilockedInode sb ip := upd_self ..

theorem ilock_ends (href : 0 < (t.itable ip).ref) (hfree : (t.itable ip).locked = false)
    (htype : (t.ilockedInode sb ip).din.type ≠ .free) :
    (ilock sb ip).Ends E (fun _ t' => t' = t.ilocked sb ip) t := by
  rw [ilock, inode, Prog.ends_bind, Prog.ends_gets, if_neg (by omega), Prog.ends_bind,
    Prog.ends_atomic, if_neg (by rw [hfree]; exact Bool.false_ne_true)]
  show Prog.Ends E _ _ _
  rw [Prog.ends_bind, Prog.ends_gets]
  show Prog.Ends E (if (upd t.itable ip _ ip).valid = false then _ else _) _ _
  rw [upd_self]
  cases hv : (t.itable ip).valid with
  | true =>
    rw [if_neg Bool.true_eq_false.mp, Prog.ends_pure, State.ilocked, State.ilockedInode, if_pos hv]
  | false =>
    rw [State.ilockedInode, if_neg (by simp [hv])] at htype
    simp only [if_true, bread, setInode, Prog.ends_bind, Prog.ends_gets, Prog.ends_modify,
      upd_self, upd_upd]
    rw [if_neg htype, Prog.ends_pure, State.ilocked, State.ilockedInode, if_neg (by simp [hv])]

/-! ## fileread -/

/-- A readable file on an inode that can be locked and has no holes. -/
structure ReadableFile (sb : Superblock) (t : State) (f : FilePtr) : Prop where
  readable : (t.ftable f).readable = true
  type : (t.ftable f).type = .inode
  ref : 0 < (t.itable (t.ftable f).ip).ref
  unlocked : (t.itable (t.ftable f).ip).locked = false
  alloc : (t.ilockedInode sb (t.ftable f).ip).din.type ≠ .free
  full : (t.ilocked sb (t.ftable f).ip).NoHoles (t.ftable f).ip
  small : (t.ilockedInode sb (t.ftable f).ip).din.size ≤ MAXFILE * BSIZE

/-- The size of the file. -/
def State.fileSize (sb : Superblock) (t : State) (f : FilePtr) : Nat :=
  (t.ilockedInode sb (t.ftable f).ip).din.size

/-- What `fileread` should have done when it returns `r`. -/
structure Transfers (f : FilePtr) (n : BitVec 32) (t : State) (r : Int) (t' : State) : Prop where
  atMost : (t'.stored : Int) - t.stored ≤ max n.toInt 0
  result : 0 ≤ r → r = t'.stored - t.stored ∧ ((t'.ftable f).off : Int) = (t.ftable f).off + r
  negative : n.toInt < 0 → t'.mem = t.mem

/-- The buffers, the disk, the log and the inode are as they were. -/
structure SameDisk (sb : Superblock) (ip : InodePtr) (t t' : State) : Prop where
  cache : t'.cache = t.cache
  disk : t'.disk = t.disk
  lh : t'.lh = t.lh
  passed : t'.passed = t.passed
  din : (t'.itable ip).din = (t.ilockedInode sb ip).din

/-- What `fileread` does with an inode: `k` bytes are stored and the offset is advanced by a positive
    result. -/
theorem fileread_ends (h : ReadableFile sb t f) (dst : Dest) (n : BitVec 32) (dev : Int) :
    (fileread sb f dst n dev).Ends E
      (fun r t' => ∃ k,
        ReadResult dst (t.ftable f).off 0 (wanted (t.fileSize sb f) (t.ftable f).off n.toNat) k r ∧
        t'.stored = t.stored + k ∧ (k = 0 → t'.mem = t.mem) ∧
        (t'.ftable f).off =
          (if 0 < r then ((t.ftable f).off + r.toNat) % 2 ^ 32 else (t.ftable f).off) ∧
        SameDisk sb (t.ftable f).ip t t') t := by
  have hself := t.ilocked_self sb (t.ftable f).ip
  rw [fileread, Prog.ends_bind, Prog.ends_gets, if_neg (by simp [h.readable]), h.type]
  simp only
  rw [Prog.ends_bind]
  refine (ilock_ends h.ref h.unlocked h.alloc).mono fun _ t₁ h₁ => ?_
  subst h₁
  simp only [Prog.ends_bind, Prog.ends_gets]
  refine (readi_ends h.full (by rw [hself]; exact h.small)).mono ?_
  rintro r t₂ ⟨k, hk, hr⟩
  rw [hself] at hr
  -- the inode is still locked
  have hlocked : (t₂.itable (t.ftable f).ip).locked = true ∧
      0 < (t₂.itable (t.ftable f).ip).ref := by
    rw [hk.itable, hself, State.ilockedInode]
    split <;> exact ⟨rfl, h.ref⟩
  have hunlock : ¬ ((t₂.itable (t.ftable f).ip).locked = false ∨
      (t₂.itable (t.ftable f).ip).ref < 1) := by
    rw [hlocked.1]
    simp only [Bool.true_eq_false, false_or]
    omega
  have hdisk : t₂.cache = t.cache ∧ t₂.disk = t.disk ∧ t₂.lh = t.lh ∧ t₂.passed = t.passed := by
    rw [hk.same]
    exact ⟨rfl, rfl, rfl, rfl⟩
  have hdin : (t₂.itable (t.ftable f).ip).din = (t.ilockedInode sb (t.ftable f).ip).din := by
    rw [hk.itable, hself]
  by_cases hpos : 0 < r
  · simp only [if_pos hpos, iunlock, inode, setInode, Prog.ends_bind, Prog.ends_gets,
      Prog.ends_modify, if_neg hunlock, Prog.ends_pure, upd_self]
    exact ⟨k, hr, hk.stored, hk.mem, by rw [hk.ftable]; rfl, hdisk.1, hdisk.2.1, hdisk.2.2.1,
      hdisk.2.2.2, (congrArg Inode.din (upd_self ..)).trans hdin⟩
  · simp only [if_neg hpos, iunlock, inode, setInode, Prog.ends_bind, Prog.ends_gets,
      Prog.ends_modify, if_neg hunlock, Prog.ends_pure]
    exact ⟨k, hr, hk.stored, hk.mem, by rw [hk.ftable]; rfl, hdisk.1, hdisk.2.1, hdisk.2.2.1,
      hdisk.2.2.2, (congrArg Inode.din (upd_self ..)).trans hdin⟩

variable {n : BitVec 32}

/-- An `int` as an `uint`. -/
theorem toNat_of_neg (hn : n.toInt < 0) :
    (n.toNat : Int) = 2 ^ 32 + n.toInt ∧ 2 ^ 31 ≤ n.toNat := by
  have hlt := n.isLt
  rw [BitVec.toInt_eq_toNat_cond] at hn ⊢
  split at hn <;> omega

theorem toNat_of_nonneg (hn : 0 ≤ n.toInt) : (n.toNat : Int) = n.toInt := by
  have hlt := n.isLt
  rw [BitVec.toInt_eq_toNat_cond] at hn ⊢
  split at hn <;> omega

/-- A negative number asks for the rest of the file, or for nothing. -/
theorem wanted_of_neg {size off : Nat} (hn : n.toInt < 0) (hsize : size ≤ MAXFILE * BSIZE) :
    wanted size off n.toNat = if -n.toInt ≤ off then 0 else size - off := by
  obtain ⟨heq, hbig⟩ := toNat_of_neg hn
  have hlt := n.isLt
  have hmax : MAXFILE * BSIZE = 274432 := rfl
  rw [wanted]
  split
  · rename_i hc
    split
    · rfl
    · omega
  · rename_i hc
    split <;> omega

variable {size k : Nat} {dst : Dest} {t' : State} {r : Int}

/-- Without a negative number `fileread` does what it should. -/
theorem transfers_of_nonneg (hn : 0 ≤ n.toInt)
    (hsize : size ≤ MAXFILE * BSIZE)
    (hr : ReadResult dst (t.ftable f).off 0 (wanted size (t.ftable f).off n.toNat) k r)
    (hstored : t'.stored = t.stored + k) (hoff : (t'.ftable f).off =
      if 0 < r then ((t.ftable f).off + r.toNat) % 2 ^ 32 else (t.ftable f).off) :
    Transfers f n t r t' := by
  have heq := toNat_of_nonneg hn
  have hmax : MAXFILE * BSIZE = 274432 := rfl
  have hwanted : wanted size (t.ftable f).off n.toNat ≤ n.toNat ∧
      (wanted size (t.ftable f).off n.toNat ≠ 0 →
        (t.ftable f).off + wanted size (t.ftable f).off n.toNat ≤ size) := by
    rw [wanted]
    split <;> omega
  refine ⟨?_, fun hr0 => ?_, fun hneg => absurd hneg (by omega)⟩
  · rcases hr.1 with ⟨-, hk⟩ | ⟨-, hk⟩ <;> omega
  · rcases hr.1 with ⟨hrn, hk⟩ | ⟨hrn, -⟩
    · refine ⟨by omega, ?_⟩
      rw [hoff]
      split <;> omega
    · omega

/-- With a negative number it does so only if it stores nothing. -/
theorem transfers_iff_of_neg (hn : n.toInt < 0)
    (hsize : size ≤ MAXFILE * BSIZE)
    (hr : ReadResult dst (t.ftable f).off 0 (wanted size (t.ftable f).off n.toNat) k r)
    (hstored : t'.stored = t.stored + k) (hmem : k = 0 → t'.mem = t.mem) (hoff : (t'.ftable f).off =
      if 0 < r then ((t.ftable f).off + r.toNat) % 2 ^ 32 else (t.ftable f).off) :
    Transfers f n t r t' ↔
      -n.toInt ≤ (t.ftable f).off ∨ size ≤ (t.ftable f).off ∨
        dst.copied 0 (min (size - (t.ftable f).off) (BSIZE - (t.ftable f).off % BSIZE)) = 0 := by
  have hk : Transfers f n t r t' ↔ k = 0 := by
    constructor
    · intro h
      have := h.atMost
      omega
    · intro h0
      refine ⟨by omega, fun hr0 => ?_, fun _ => hmem h0⟩
      rcases hr.1 with ⟨hrn, hkn⟩ | ⟨hrn, -⟩
      · refine ⟨by omega, ?_⟩
        rw [hoff, if_neg (by omega)]
        omega
      · omega
  rw [hk]
  obtain ⟨hres, hfirst⟩ := hr
  rw [wanted_of_neg hn hsize] at hres hfirst
  by_cases hover : -n.toInt ≤ (t.ftable f).off
  · -- the end of the range is no 32-bit number
    rw [if_pos hover] at hres
    exact iff_of_true (by omega) (.inl hover)
  · rw [if_neg hover] at hres hfirst
    by_cases hend : size ≤ (t.ftable f).off
    · exact iff_of_true (by omega) (.inr (.inl hend))
    · rw [hfirst (by omega)]
      exact ⟨fun h0 => .inr (.inr h0), fun h => (h.resolve_left hover).resolve_left hend⟩

/-- `fileread` transfers at most what it was asked for unless the number is negative, the offset lies
    in the file and before the point where the sum overflows, and the first `copyout`
    stores something. -/
theorem fileread_transfers_iff (h : ReadableFile sb t f) (dst : Dest) (n : BitVec 32) (dev : Int) :
    (fileread sb f dst n dev).Ends (fun _ => False)
      (fun r t' => Transfers f n t r t' ↔
        0 ≤ n.toInt ∨ -n.toInt ≤ (t.ftable f).off ∨ t.fileSize sb f ≤ (t.ftable f).off ∨
          dst.copied 0 (min (t.fileSize sb f - (t.ftable f).off)
            (BSIZE - (t.ftable f).off % BSIZE)) = 0) t := by
  refine (fileread_ends h dst n dev).mono fun r t' ⟨k, hr, hstored, hmem, hoff, _⟩ => ?_
  by_cases hn : 0 ≤ n.toInt
  · exact iff_of_true (transfers_of_nonneg hn h.small hr hstored hoff) (.inl hn)
  · rw [transfers_iff_of_neg (by omega) h.small hr hstored hmem hoff]
    exact ⟨.inr, fun hc => hc.resolve_left hn⟩

/-- A file of five bytes that is open for reading at its start. -/
def openFile : State where
  cache := upd (fun _ _ => 0) nmeta (ByteMem.write (fun _ => 0) 0 [104, 101, 108, 108, 111])
  disk _ _ := 0
  lh := ⟨0, fun _ => 0⟩
  outstanding := 0
  itable _ := ⟨2, 1, false, true, ⟨.file, 0, 0, 1, 5, fun k => if k = 0 then nmeta else 0⟩⟩
  ftable _ := ⟨.inode, 1, true, false, ⟨0, Fs.NINODE_pos⟩, 0, 0⟩
  mem _ := 0
  stored := 0
  passed := []

theorem readableFile_openFile (sb : Superblock) (f : FilePtr) : ReadableFile sb openFile f where
  readable := rfl
  type := rfl
  ref := Nat.one_pos
  unlocked := rfl
  alloc := by
    show InodeType.file ≠ .free
    decide
  full bn hbn := by
    have hself := openFile.ilocked_self sb (openFile.ftable f).ip
    rw [hself] at hbn
    have hsmall : bn * 1024 < 5 := hbn
    obtain rfl : bn = 0 := by omega
    rw [State.blockOf, if_pos (by decide), hself]
    exact (by decide : nmeta ≠ 0)
  small := by
    show 5 ≤ MAXFILE * BSIZE
    decide

/-- A destination in valid memory. -/
def validDest : Dest := ⟨0, fun _ m => m, fun _ m => Nat.le_refl m⟩

theorem fileread_transfers_iff_openFile :
    ReadableFile mkfsSuperblock openFile ⟨0, by decide⟩ ∧
    (fileread mkfsSuperblock ⟨0, by decide⟩ validDest 3#32 0).Ends (fun _ => False)
      (fun r t' => Transfers ⟨0, by decide⟩ 3#32 openFile r t') openFile := by
  refine ⟨readableFile_openFile _ _, ?_⟩
  exact (fileread_transfers_iff (readableFile_openFile _ _) validDest 3#32 0).mono fun r t' h =>
    h.mpr (.inl (by decide))

/-- `read(fd, buf, -1)` stores all five bytes of the file. -/
theorem fileread_negative :
    ReadableFile mkfsSuperblock openFile ⟨0, by decide⟩ ∧
    ∃ t', (fileread mkfsSuperblock ⟨0, by decide⟩ validDest (-1#32) 0).exec openFile = .ok 5 t' ∧
      t'.stored = 5 ∧ t'.mem 0 = 104 ∧ ¬ Transfers ⟨0, by decide⟩ (-1#32) openFile 5 t' := by
  refine ⟨readableFile_openFile _ _, ?_⟩
  have hrun : (match (fileread mkfsSuperblock ⟨0, by decide⟩ validDest (-1#32) 0).exec openFile with
      | .ok r t' => decide (r = 5 ∧ t'.stored = 5 ∧ t'.mem 0 = 104)
      | .stop _ => false) = true := by decide +kernel
  cases hexec : (fileread mkfsSuperblock ⟨0, by decide⟩ validDest (-1#32) 0).exec openFile with
  | stop why =>
    rw [hexec] at hrun
    cases hrun
  | ok r t' =>
    rw [hexec] at hrun
    obtain ⟨rfl, hstored, hmem⟩ := of_decide_eq_true hrun
    refine ⟨t', rfl, hstored, hmem, fun h => ?_⟩
    have hle := h.atMost
    rw [hstored] at hle
    exact absurd hle (by decide)

end Xv6.InodeIo
