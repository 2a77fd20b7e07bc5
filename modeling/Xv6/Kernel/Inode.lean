import Xv6.ForStd.ByteMem
import Xv6.Kernel.LogOps

/-!
# Blocks and inodes

The block allocator, the inode table and the contents of inodes of `kernel/fs.c`: `balloc`, `bfree`,
`ialloc`, `iupdate`, `iget`, `idup`, `ilock`, `iunlock`, `iput`, `bmap`, `itrunc`, `readi` and
`writei`, on the disk layout that `mkfs/mkfs.c` writes.

The disk is seen through the buffer cache and the log: a block has the contents that were last
stored in its buffer, and `begin_op` and `end_op` change nothing here. The inode blocks
and the bitmap are given as the inodes and the bits in them; other blocks are arrays of bytes.
There is one device, so the `dev` fields are left out. `locked` is the state of the sleep-lock of
an inode.
-/

namespace Xv6.Fs

/-! ## Layout -/

/-- `kernel/fs.h`, `kernel/param.h` and `mkfs/mkfs.c`. -/
def BSIZE : Nat := 1024

@[inherit_doc BSIZE] def NDIRECT : Nat := 12

@[inherit_doc BSIZE] def NINDIRECT : Nat := BSIZE / 4

@[inherit_doc BSIZE] def MAXFILE : Nat := NDIRECT + NINDIRECT

theorem sub_NDIRECT_lt {bn : Nat} (h : bn < MAXFILE) : bn - NDIRECT < NINDIRECT := by
  have hsum : MAXFILE = NDIRECT + NINDIRECT := rfl
  have hpos : 0 < NINDIRECT := by decide
  omega

@[inherit_doc BSIZE] def ROOTINO : Nat := 1

@[inherit_doc BSIZE] def NINODE : Nat := 50

theorem NINODE_pos : 0 < NINODE := by decide

@[inherit_doc BSIZE] def FSSIZE : Nat := 2000

@[inherit_doc BSIZE] def NINODES : Nat := 200

/-- `sizeof(struct dinode)` is 64. -/
def IPB : Nat := BSIZE / 64

/-- `nmeta` of `mkfs`: the boot block, the super block, the log, the inodes and the bitmap. -/
def nmeta : Nat := 2 + Log.LOGSIZE + (NINODES / IPB + 1) + (FSSIZE / (BSIZE * 8) + 1)

/-- A pointer into `itable.inode[NINODE]`. -/
abbrev InodePtr := Fin NINODE

/-- The type of an inode, `free` for 0. -/
inductive InodeType where
  | free
  | dir
  | file
  | device
deriving DecidableEq, Repr

/-- `struct dinode`, which is also what `struct inode` copies of it. -/
structure Dinode where
  type : InodeType
  major : Int
  minor : Int
  nlink : Int
  size : Nat
  addrs : Nat → Nat

/-- An inode after `memset(dip, 0, sizeof(*dip))`. -/
def Dinode.zero : Dinode := ⟨.free, 0, 0, 0, 0, fun _ => 0⟩

/-- `struct inode`. -/
structure Inode where
  inum : Nat
  ref : Nat
  locked : Bool
  valid : Bool
  din : Dinode

/-- A call of `balloc` that has found a block: the block, and the inodes and the contents of blocks at that
    time. -/
structure Handed where
  block : Nat
  dinode : Nat → Dinode
  data : Nat → ByteMem
  itable : InodePtr → Inode

/-- The disk and the inode table. `handed` is a history variable, which no function reads. -/
structure State where
  /-- the bit of a block in the bitmap -/
  bitmap : Nat → Bool
  /-- the inodes on disk -/
  dinode : Nat → Dinode
  /-- the contents of the other blocks -/
  data : Nat → ByteMem
  itable : InodePtr → Inode
  /-- the blocks that `balloc` has returned so far -/
  handed : List Handed

/-- Conversion to a 16-bit `short`. -/
def toShort (x : Int) : Int := x.bmod (2 ^ 16)

abbrev FsM := Prog State

/-! ## Access to the parts of the state -/

/-- Word `j` of a block that is read as `uint a[]`. -/
def word (m : ByteMem) (j : Nat) : Nat := (ofBytes (m.read (4 * j) 4)).toNat

/-- `a[j] = v`. -/
def setWord (m : ByteMem) (j v : Nat) : ByteMem := m.write (4 * j) (leBytes 4 v)

/-- `*ip`. -/
def inode (ip : InodePtr) : FsM Inode := .gets fun s => s.itable ip

/-- A change of `*ip`. -/
def setInode (ip : InodePtr) (f : Inode → Inode) : FsM Unit :=
  .modify fun s => { s with itable := upd s.itable ip (f (s.itable ip)) }

/-- A change of the fields of `*ip` that are also on disk. -/
def setDin (ip : InodePtr) (f : Dinode → Dinode) : FsM Unit :=
  setInode ip fun x => { x with din := f x.din }

/-- `ip->addrs[i] = addr`. -/
def setAddr (ip : InodePtr) (i addr : Nat) : FsM Unit :=
  setDin ip fun d => { d with addrs := upd d.addrs i addr }

/-- The contents of a block. -/
def bread (b : Nat) : FsM ByteMem := .gets fun s => s.data b

/-- A change of the contents of a block. -/
def setData (b : Nat) (f : ByteMem → ByteMem) : FsM Unit :=
  .modify fun s => { s with data := upd s.data b (f (s.data b)) }

/-! ## Blocks -/

/-- The first block from `b` on whose bit is clear, among `n` blocks. -/
def firstFree (bitmap : Nat → Bool) : (b n : Nat) → Option Nat
  | _, 0 => none
  | b, n + 1 => if bitmap b then firstFree bitmap (b + 1) n else some b

/-- `bzero`. -/
def bzero (b : Nat) : FsM Unit := setData b fun _ _ => 0

/-- `balloc`; 0 if there is no free block. -/
def balloc : FsM Nat := do
  let found ← .atomic fun s =>
    match firstFree s.bitmap 0 FSSIZE with
    | some b =>
      .ok (some b)
        { s with
          bitmap := upd s.bitmap b true
          handed := ⟨b, s.dinode, s.data, s.itable⟩ :: s.handed }
    | none => .ok none s
  match found with
  | some b => do
    bzero b
    pure b
  | none => pure 0

/-- `bfree`. -/
def bfree (b : Nat) : FsM Unit :=
  .atomic fun s =>
    if s.bitmap b then .ok () { s with bitmap := upd s.bitmap b false }
    else .stop (.panic "freeing free block")

/-! ## The inode table -/

/-- The first slot that meets a test. -/
def findSlot (s : State) (test : Inode → Bool) : Option InodePtr :=
  (List.finRange NINODE).find? fun ip => test (s.itable ip)

/-- `iget`. -/
def iget (inum : Nat) : FsM InodePtr :=
  .atomic fun s =>
    match findSlot s fun x => decide (0 < x.ref) && x.inum == inum with
    | some ip =>
      .ok ip { s with itable := upd s.itable ip { s.itable ip with ref := (s.itable ip).ref + 1 } }
    | none =>
      match findSlot s fun x => x.ref == 0 with
      | some ip =>
        .ok ip
          { s with
            itable := upd s.itable ip { s.itable ip with inum := inum, ref := 1, valid := false } }
      | none => .stop (.panic "iget: no inodes")

/-- `ialloc`; the loop over the inode blocks stops at the first free inode. -/
def ialloc (type : InodeType) : FsM (Option InodePtr) := do
  let found ← .findUp
    (fun inum => .atomic fun s =>
      if (s.dinode inum).type = .free then
        .ok (some inum) { s with dinode := upd s.dinode inum { Dinode.zero with type := type } }
      else .ok none s)
    1 (NINODES - 1)
  match found with
  | some inum => do
    let ip ← iget inum
    pure (some ip)
  | none => pure none

/-- `iupdate`. -/
def iupdate (ip : InodePtr) : FsM Unit :=
  .modify fun s =>
    { s with dinode := upd s.dinode (s.itable ip).inum (s.itable ip).din }

/-- `idup`. -/
def idup (ip : InodePtr) : FsM InodePtr := do
  setInode ip fun x => { x with ref := x.ref + 1 }
  pure ip

/-- `acquiresleep(&ip->lock)`. -/
def acquiresleep (ip : InodePtr) : FsM Unit :=
  .atomic fun s =>
    if (s.itable ip).locked then .stop .block
    else .ok () { s with itable := upd s.itable ip { s.itable ip with locked := true } }

/-- `releasesleep(&ip->lock)`. -/
def releasesleep (ip : InodePtr) : FsM Unit := setInode ip fun x => { x with locked := false }

/-- `ilock`. -/
def ilock (ip : InodePtr) : FsM Unit := do
  let x ← inode ip
  if x.ref < 1 then .panic "ilock"
  else
    acquiresleep ip
    let x ← inode ip
    if x.valid = false then
      .modify fun s =>
        { s with
          itable := upd s.itable ip
            { s.itable ip with din := s.dinode (s.itable ip).inum, valid := true } }
      let x ← inode ip
      if x.din.type = .free then .panic "ilock: no type"

/-- `iunlock`. A process unlocks only what it locked in the same call, so `holdingsleep` is the state
    of the lock. -/
def iunlock (ip : InodePtr) : FsM Unit := do
  let x ← inode ip
  if x.locked = false ∨ x.ref < 1 then .panic "iunlock"
  else releasesleep ip

/-! ## Inode contents -/

/-- The block in `ip->addrs[i]`, which is allocated if there is none; 0 if that fails. -/
def addrBlock (ip : InodePtr) (i : Nat) : FsM Nat := do
  let x ← inode ip
  if x.din.addrs i = 0 then
    let addr ← balloc
    if addr = 0 then pure 0
    else
      setAddr ip i addr
      pure addr
  else pure (x.din.addrs i)

/-- The block in entry `j` of the indirect block `addr`, in the same way. -/
def entryBlock (addr j : Nat) : FsM Nat := do
  let a ← bread addr
  if word a j = 0 then
    let b ← balloc
    if b ≠ 0 then setData addr fun m => setWord m j b
    pure b
  else pure (word a j)

/-- `bmap`. -/
def bmap (ip : InodePtr) (bn : Nat) : FsM Nat := do
  if bn < NDIRECT then addrBlock ip bn
  else if bn - NDIRECT < NINDIRECT then
    let addr ← addrBlock ip NDIRECT
    if addr = 0 then pure 0
    else entryBlock addr (bn - NDIRECT)
  else .panic "bmap: out of range"

/-- `itrunc`. -/
def itrunc (ip : InodePtr) : FsM Unit := do
  .forUp
    (fun i => do
      let x ← inode ip
      if x.din.addrs i ≠ 0 then
        bfree (x.din.addrs i)
        setAddr ip i 0)
    0 NDIRECT
  let x ← inode ip
  if x.din.addrs NDIRECT ≠ 0 then
    let a ← bread (x.din.addrs NDIRECT)
    .forUp
      (fun j => do
        if word a j ≠ 0 then bfree (word a j))
      0 NINDIRECT
    bfree (x.din.addrs NDIRECT)
    setAddr ip NDIRECT 0
  setDin ip fun d => { d with size := 0 }
  iupdate ip

/-- The part of `iput` that frees an inode without links and other references. -/
def ifree (ip : InodePtr) : FsM Unit := do
  acquiresleep ip
  itrunc ip
  setDin ip fun d => { d with type := .free }
  iupdate ip
  setInode ip fun x => { x with valid := false }
  releasesleep ip

/-- `iput`. -/
def iput (ip : InodePtr) : FsM Unit := do
  let x ← inode ip
  if x.ref = 1 ∧ x.valid = true ∧ x.din.nlink = 0 then ifree ip
  setInode ip fun x => { x with ref := x.ref - 1 }

/-- `iunlockput`. -/
def iunlockput (ip : InodePtr) : FsM Unit := do
  iunlock ip
  iput ip

/-- The loop of `readi` for `n` more bytes at `off`; every round reads at least one. -/
def readLoop (ip : InodePtr) : (fuel off n : Nat) → FsM (List UInt8)
  | 0, _, _ => pure []
  | fuel + 1, off, n =>
    if n = 0 then pure []
    else do
      let addr ← bmap ip (off / BSIZE)
      if addr = 0 then pure []
      else
        let b ← bread addr
        let m := min n (BSIZE - off % BSIZE)
        let rest ← readLoop ip fuel (off + m) (n - m)
        pure (b.read (off % BSIZE) m ++ rest)

/-- `readi` into kernel memory: the bytes it reads. -/
def readi (ip : InodePtr) (off n : Nat) : FsM (List UInt8) := do
  let x ← inode ip
  if off > x.din.size ∨ (off + n) % 2 ^ 32 < off then pure []
  else
    let n := if off + n > x.din.size then x.din.size - off else n
    readLoop ip n off n

/-- What `either_copyin` does for a source address: for a position and a length, the bytes it stores,
    and whether it succeeds. A copy from user memory may fail after some bytes, which then stand in
    the buffer although it is not logged. -/
structure Source where
  bytes : Nat → Nat → List UInt8
  ok : Nat → Nat → Bool
  le : ∀ pos m, (bytes pos m).length ≤ m
  all : ∀ pos m, ok pos m = true → (bytes pos m).length = m

/-- The loop of `writei` for `n` more bytes at `off`: the number of bytes it writes. -/
def writeLoop (ip : InodePtr) (src : Source) : (fuel off pos n : Nat) → FsM Nat
  | 0, _, _, _ => pure 0
  | fuel + 1, off, pos, n =>
    if n = 0 then pure 0
    else do
      let addr ← bmap ip (off / BSIZE)
      if addr = 0 then pure 0
      else
        let m := min n (BSIZE - off % BSIZE)
        setData addr fun b => b.write (off % BSIZE) (src.bytes pos m)
        if src.ok pos m then do
          let tot ← writeLoop ip src fuel (off + m) (pos + m) (n - m)
          pure (m + tot)
        else pure 0

/-- `writei`. -/
def writei (ip : InodePtr) (src : Source) (off n : Nat) : FsM Int := do
  let x ← inode ip
  if off > x.din.size ∨ (off + n) % 2 ^ 32 < off then pure (-1)
  else if off + n > MAXFILE * BSIZE then pure (-1)
  else
    let tot ← writeLoop ip src n off 0 n
    setDin ip fun d => if off + tot > d.size then { d with size := off + tot } else d
    iupdate ip
    pure tot

end Xv6.Fs
