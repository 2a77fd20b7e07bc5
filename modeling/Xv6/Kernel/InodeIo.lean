import Xv6.Kernel.FileCalls
import Xv6.Mkfs.Image

/-!
# Inodes in the buffer cache and the log

`log_write` of `kernel/log.c`, `bzero`, `balloc`, `iupdate`, `ilock`, `bmap`, `readi` and `writei`
of `kernel/fs.c` and `fileread` of `kernel/file.c`, as they act on buffers. Here all
blocks are arrays of bytes, also those with inodes and with the bitmap, and the superblock is
arbitrary. `Kernel/Inode` has the same functions on the contents of these blocks, without the log.

A process that runs one of these functions holds the locks it needs, so that the functions run
alone. `copyout` and `copyin` are parameters: what they do depends on the page table.
-/

namespace Xv6.InodeIo

open Fs

/-- The fields of `struct superblock` that are used here. -/
structure Superblock extends Log.Superblock where
  size : Nat
  inodestart : Nat
  bmapstart : Nat

/-- The superblock that `mkfs` writes. -/
def mkfsSuperblock : Superblock :=
  { Log.mkfsSuperblock with
    size := FSSIZE, inodestart := Mkfs.inodestart, bmapstart := Mkfs.bmapstart }

/-- `BPB` of `kernel/fs.h`. -/
def BPB : Nat := BSIZE * 8

/-- `BBLOCK`. -/
def Superblock.bblock (sb : Superblock) (b : Nat) : Nat := b / BPB + sb.bmapstart

/-- `IBLOCK`. -/
def Superblock.iblock (sb : Superblock) (i : Nat) : Nat := i / IPB + sb.inodestart

/-- The buffers, the disk, the log and the tables. `mem` is the memory that `copyout` writes to.
    `stored` and `passed` are history variables, which no function reads. -/
structure State where
  /-- what `bread` returns for a block -/
  cache : Nat → ByteMem
  /-- the blocks at their places on the disk -/
  disk : Nat → ByteMem
  /-- `log.lh` -/
  lh : Log.Header
  /-- `log.outstanding` -/
  outstanding : Int
  itable : InodePtr → Inode
  ftable : FilePtr → File
  mem : ByteMem
  /-- the number of bytes that `copyout` has stored -/
  stored : Nat
  /-- the block numbers that were passed to `log_write` -/
  passed : List Nat

/-- The disk when the running transaction has been committed. -/
def State.commitView (t : State) (b : Nat) : ByteMem :=
  if ∃ i < t.lh.n, t.lh.block i = b then t.cache b else t.disk b

abbrev M := Prog State

/-! ## Buffers and the log -/

/-- The contents of the buffer of a block. -/
def bread (b : Nat) : M ByteMem := .gets fun t => t.cache b

/-- A change of the contents of a buffer. -/
def setBuf (b : Nat) (f : ByteMem → ByteMem) : M Unit :=
  .modify fun t => { t with cache := upd t.cache b (f (t.cache b)) }

/-- `log_write`, after it has noted its argument. -/
def logWrite (sb : Superblock) (b : Nat) : M Unit := do
  .modify fun t => { t with passed := b :: t.passed }
  .atomic fun t =>
    if t.lh.n ≥ Log.LOGSIZE ∨ (t.lh.n : Int) ≥ (sb.nlog : Int) - 1 then
      .stop (.panic "too big a transaction")
    else if t.outstanding < 1 then .stop (.panic "log_write outside of trans")
    else .ok () { t with lh := t.lh.absorb b }

/-! ## Blocks -/

/-- `bzero`. -/
def bzero (sb : Superblock) (b : Nat) : M Unit := do
  setBuf b fun _ _ => 0
  logWrite sb b

/-- The first of the `n` bits of a bitmap block that is clear. -/
def clearBit (m : ByteMem) (n : Nat) : Option Nat :=
  (List.range n).find? fun bi => m (bi / 8) &&& (1 <<< UInt8.ofNat (bi % 8)) == 0

/-- `bp->data[bi/8] |= m`. -/
def setBit (m : ByteMem) (bi : Nat) : ByteMem :=
  upd m (bi / 8) (m (bi / 8) ||| (1 <<< UInt8.ofNat (bi % 8)))

/-- `balloc`; the loop goes over the bitmap blocks, `b` being the first block of each. -/
def balloc (sb : Superblock) : M Nat := do
  let found ← .findUp
    (fun k => do
      let b := k * BPB
      let m ← bread (sb.bblock b)
      match clearBit m (min BPB (sb.size - b)) with
      | some bi => do
        setBuf (sb.bblock b) fun m => setBit m bi
        logWrite sb (sb.bblock b)
        pure (some (b + bi))
      | none => pure none)
    0 ((sb.size + BPB - 1) / BPB)
  match found with
  | some b => do
    bzero sb b
    pure b
  | none => pure 0

/-! ## Inodes -/

/-- `*ip`. -/
def inode (ip : InodePtr) : M Inode := .gets fun t => t.itable ip

/-- A change of `*ip`. -/
def setInode (ip : InodePtr) (f : Inode → Inode) : M Unit :=
  .modify fun t => { t with itable := upd t.itable ip (f (t.itable ip)) }

/-- A change of the fields of `*ip` that are also on disk. -/
def setDin (ip : InodePtr) (f : Dinode → Dinode) : M Unit :=
  setInode ip fun x => { x with din := f x.din }

/-- `iupdate`. -/
def iupdate (sb : Superblock) (ip : InodePtr) : M Unit := do
  let x ← inode ip
  setBuf (sb.iblock x.inum) fun m => m.write (Mkfs.islot x.inum) (Mkfs.encodeDinode x.din)
  logWrite sb (sb.iblock x.inum)

/-- `ilock`. -/
def ilock (sb : Superblock) (ip : InodePtr) : M Unit := do
  let x ← inode ip
  if x.ref < 1 then .panic "ilock"
  else
    .atomic fun t =>
      if (t.itable ip).locked then .stop .block
      else .ok () { t with itable := upd t.itable ip { t.itable ip with locked := true } }
    let x ← inode ip
    if x.valid = false then
      let m ← bread (sb.iblock x.inum)
      setInode ip fun x => { x with din := Mkfs.loadDinode m (Mkfs.islot x.inum), valid := true }
      let x ← inode ip
      if x.din.type = .free then .panic "ilock: no type"

/-- `iunlock`. -/
def iunlock (ip : InodePtr) : M Unit := do
  let x ← inode ip
  if x.locked = false ∨ x.ref < 1 then .panic "iunlock"
  else setInode ip fun x => { x with locked := false }

/-- The block in `ip->addrs[i]`, which is allocated if there is none; 0 if that fails. -/
def addrBlock (sb : Superblock) (ip : InodePtr) (i : Nat) : M Nat := do
  let x ← inode ip
  if x.din.addrs i = 0 then
    let addr ← balloc sb
    if addr = 0 then pure 0
    else
      setDin ip fun d => { d with addrs := upd d.addrs i addr }
      pure addr
  else pure (x.din.addrs i)

/-- The block in entry `j` of the indirect block `addr`, in the same way. -/
def entryBlock (sb : Superblock) (addr j : Nat) : M Nat := do
  let a ← bread addr
  if word a j = 0 then
    let b ← balloc sb
    if b ≠ 0 then
      setBuf addr fun m => setWord m j b
      logWrite sb addr
    pure b
  else pure (word a j)

/-- `bmap`. -/
def bmap (sb : Superblock) (ip : InodePtr) (bn : Nat) : M Nat := do
  if bn < NDIRECT then addrBlock sb ip bn
  else if bn - NDIRECT < NINDIRECT then
    let addr ← addrBlock sb ip NDIRECT
    if addr = 0 then pure 0
    else entryBlock sb addr (bn - NDIRECT)
  else .panic "bmap: out of range"

/-! ## readi and writei -/

/-- What `either_copyout` does for a destination address: for a position and a length, the number of
    bytes it stores. It fails when this is less than the length. -/
structure Dest where
  addr : Nat
  copied : Nat → Nat → Nat
  le : ∀ pos m, copied pos m ≤ m

/-- `either_copyout` of `m` bytes of a buffer at position `pos`; `false` for -1. -/
def copyout (dst : Dest) (pos m : Nat) (bs : List UInt8) : M Bool :=
  .atomic fun t =>
    .ok (decide (dst.copied pos m = m))
      { t with
        mem := t.mem.write (dst.addr + pos) (bs.take (dst.copied pos m))
        stored := t.stored + dst.copied pos m }

/-- The loop of `readi` for `n` more bytes at `off`, with `tot` bytes read: the result of `readi`. -/
def readLoop (sb : Superblock) (ip : InodePtr) (dst : Dest) : (fuel off tot n : Nat) → M Int
  | 0, _, tot, _ => pure tot
  | fuel + 1, off, tot, n =>
    if n = 0 then pure tot
    else do
      let addr ← bmap sb ip (off / BSIZE)
      if addr = 0 then pure tot
      else
        let b ← bread addr
        let m := min n (BSIZE - off % BSIZE)
        if ← copyout dst tot m (b.read (off % BSIZE) m) then
          readLoop sb ip dst fuel (off + m) (tot + m) (n - m)
        else pure (-1)

/-- `readi`. -/
def readi (sb : Superblock) (ip : InodePtr) (dst : Dest) (off n : Nat) : M Int := do
  let x ← inode ip
  if off > x.din.size ∨ (off + n) % 2 ^ 32 < off then pure 0
  else
    let n := if off + n > x.din.size then x.din.size - off else n
    readLoop sb ip dst n off 0 n

/-- The loop of `writei` for `n` more bytes at `off`: the number of bytes it writes. -/
def writeLoop (sb : Superblock) (ip : InodePtr) (src : Source) : (fuel off pos n : Nat) → M Nat
  | 0, _, _, _ => pure 0
  | fuel + 1, off, pos, n =>
    if n = 0 then pure 0
    else do
      let addr ← bmap sb ip (off / BSIZE)
      if addr = 0 then pure 0
      else
        let m := min n (BSIZE - off % BSIZE)
        setBuf addr fun b => b.write (off % BSIZE) (src.bytes pos m)
        if src.ok pos m then do
          logWrite sb addr
          let tot ← writeLoop sb ip src fuel (off + m) (pos + m) (n - m)
          pure (m + tot)
        else pure 0

/-- `writei`. -/
def writei (sb : Superblock) (ip : InodePtr) (src : Source) (off n : Nat) : M Int := do
  let x ← inode ip
  if off > x.din.size ∨ (off + n) % 2 ^ 32 < off then pure (-1)
  else if off + n > MAXFILE * BSIZE then pure (-1)
  else
    let tot ← writeLoop sb ip src n off 0 n
    setDin ip fun d => if off + tot > d.size then { d with size := off + tot } else d
    iupdate sb ip
    pure tot

/-! ## fileread -/

/-- `devsw[major].read` is set: only the console is registered. -/
def devswRead (major : Int) : Bool := major == 1

/-- `fileread` of an inode or a device; `n` is an `int`, which `readi` takes as an `uint`, and `dev`
    is what the function of a device returns. -/
def fileread (sb : Superblock) (f : FilePtr) (dst : Dest) (n : BitVec 32) (dev : Int) : M Int := do
  let x ← .gets fun t => t.ftable f
  if x.readable = false then pure (-1)
  else
    match x.type with
    | .device =>
      if x.major < 0 ∨ x.major ≥ NDEV ∨ devswRead x.major = false then pure (-1) else pure dev
    | .inode => do
      ilock sb x.ip
      let off ← .gets fun t => (t.ftable f).off
      let r ← readi sb x.ip dst off n.toNat
      if 0 < r then
        .modify fun t =>
          { t with
            ftable := upd t.ftable f
              { t.ftable f with off := ((t.ftable f).off + r.toNat) % 2 ^ 32 } }
      iunlock x.ip
      pure r
    | .none => .panic "fileread"

end Xv6.InodeIo
