import Xv6.Kernel.Directory

/-!
# mkfs

`mkfs/mkfs.c`: the program that writes the first file system image. The image is a file of sectors
of `BSIZE` bytes on the host, which `mkfs` reads and writes a whole sector at a time with `rsect`
and `wsect`; all that it knows while it runs is `freeinode` and `freeblock`. `assert` and
`die` end the program without success. The host's errors in `lseek` and `write` are left
out; a `read` behind the end of the image is an error.

`boot` is the image as the kernel finds it, with the superblock of sector 1.
-/

namespace Xv6.Mkfs

open Fs

/-! ## On-disk format -/

@[inherit_doc BSIZE] def FSMAGIC : Nat := 0x10203040

@[inherit_doc BSIZE] def nlog : Nat := Log.LOGSIZE

@[inherit_doc BSIZE] def ninodeblocks : Nat := NINODES / IPB + 1

/-- `sb.inodestart`. -/
def inodestart : Nat := 2 + nlog

/-- `sb.bmapstart`. -/
def bmapstart : Nat := 2 + nlog + ninodeblocks

/-- `sizeof(struct dinode)`. -/
def dinodeSize : Nat := 64

/-- The number of an inode type in `kernel/stat.h`. -/
def typeCode : InodeType → Nat
  | .free => 0
  | .dir => 1
  | .file => 2
  | .device => 3

/-- The inode type with a number; there are no others than the ones of `kernel/stat.h`. -/
def typeOf : Nat → InodeType
  | 0 => .free
  | 1 => .dir
  | 2 => .file
  | _ => .device

/-- The bytes of words in the order of `xint`. -/
def words (ws : List Nat) : List UInt8 := ws.flatMap fun w : Nat => leBytes 4 w

/-- The bytes of a `struct dinode`, in the order of `xshort` and `xint`. -/
def encodeDinode (d : Dinode) : List UInt8 :=
  leBytes 2 (typeCode d.type) ++ leBytes 2 d.major ++ leBytes 2 d.minor ++ leBytes 2 d.nlink ++
    leBytes 4 d.size ++ words ((List.range (NDIRECT + 1)).map d.addrs)

/-- The `struct dinode` at address `a` of a sector. -/
def loadDinode (m : ByteMem) (a : Nat) : Dinode where
  type := typeOf (ofBytes (m.read a 2)).toNat
  major := toShort (ofBytes (m.read (a + 2) 2))
  minor := toShort (ofBytes (m.read (a + 4) 2))
  nlink := toShort (ofBytes (m.read (a + 6) 2))
  size := (ofBytes (m.read (a + 8) 4)).toNat
  addrs k := if k ≤ NDIRECT then (ofBytes (m.read (a + 12 + 4 * k) 4)).toNat else 0

/-- `sb` of `main`. -/
def superblock : List Nat :=
  [FSMAGIC, FSSIZE, FSSIZE - nmeta, NINODES, nlog, 2, inodestart, bmapstart]

/-! ## Sectors and inodes -/

/-- The image file and the variables of `mkfs`. -/
structure State where
  image : Nat → ByteMem
  /-- the length of the image file in sectors -/
  sectors : Nat
  freeinode : Nat
  freeblock : Nat

/-- An empty image file. -/
def State.init : State := ⟨fun _ _ => 0, 0, 1, 0⟩

abbrev M := Prog State

/-- The sector at the offset `sec * BSIZE`, which is an `uint`. -/
def sectorAt (sec : Nat) : Nat := sec * BSIZE % 2 ^ 32 / BSIZE

/-- `rsect`. -/
def rsect (sec : Nat) : M ByteMem :=
  .atomic fun s =>
    if sectorAt sec < s.sectors then .ok (s.image (sectorAt sec)) s else .stop (.panic "read")

/-- `wsect`. -/
def wsect (sec : Nat) (buf : ByteMem) : M Unit :=
  .modify fun s =>
    { s with
      image := upd s.image (sectorAt sec) buf
      sectors := max s.sectors (sectorAt sec + 1) }

/-- `IBLOCK`. -/
def iblock (inum : Nat) : Nat := inum / IPB + inodestart

/-- The address of an inode in its block. -/
def islot (inum : Nat) : Nat := dinodeSize * (inum % IPB)

/-- `winode`. -/
def winode (inum : Nat) (d : Dinode) : M Unit := do
  let buf ← rsect (iblock inum)
  wsect (iblock inum) (buf.write (islot inum) (encodeDinode d))

/-- `rinode`. -/
def rinode (inum : Nat) : M Dinode := do
  let buf ← rsect (iblock inum)
  pure (loadDinode buf (islot inum))

/-- `freeblock++`. -/
def takeBlock : M Nat := .atomic fun s => .ok s.freeblock { s with freeblock := s.freeblock + 1 }

/-- `ialloc`. -/
def ialloc (type : InodeType) : M Nat := do
  let inum ← .atomic fun s => .ok s.freeinode { s with freeinode := s.freeinode + 1 }
  winode inum { Dinode.zero with type := type, nlink := 1 }
  pure inum

/-- `balloc`: the bitmap with the bits of the first `used` blocks. -/
def balloc (used : Nat) : M Unit :=
  if BSIZE * 8 ≤ used then .panic "balloc: used < BSIZE*8"
  else
    wsect bmapstart
      ((List.range used).foldl
        (fun buf i => upd buf (i / 8) (buf (i / 8) ||| (1 <<< UInt8.ofNat (i % 8))))
        fun _ => 0)

/-! ## iappend -/

/-- The block in `din.addrs[k]`, a new one if there is none. -/
def addrBlock (d : Dinode) (k : Nat) : M (Nat × Dinode) :=
  if d.addrs k = 0 then do
    let b ← takeBlock
    pure (b, { d with addrs := upd d.addrs k b })
  else pure (d.addrs k, d)

/-- The block in entry `j` of the indirect block `addr`, a new one if there is none. -/
def entryBlock (addr j : Nat) : M Nat := do
  let indirect ← rsect addr
  if word indirect j = 0 then
    let b ← takeBlock
    wsect addr (setWord indirect j b)
    pure b
  else pure (word indirect j)

/-- The block `x` of the file block `fbn`, and `din` with the new addresses. -/
def fileBlock (d : Dinode) (fbn : Nat) : M (Nat × Dinode) :=
  if fbn < NDIRECT then addrBlock d fbn
  else do
    let (addr, d) ← addrBlock d NDIRECT
    let x ← entryBlock addr (fbn - NDIRECT)
    pure (x, d)

/-- A round of the loop of `iappend` for the bytes `p` at `off`: `din` and the number of bytes. -/
def appendRound (d : Dinode) (off : Nat) (p : List UInt8) : M (Dinode × Nat) :=
  let fbn := off / BSIZE
  if MAXFILE ≤ fbn then .panic "iappend: fbn < MAXFILE"
  else do
    let (x, d) ← fileBlock d fbn
    let n1 := min p.length ((fbn + 1) * BSIZE - off)
    let buf ← rsect x
    wsect x (buf.write (off - fbn * BSIZE) (p.take n1))
    pure (d, n1)

/-- The loop of `iappend`; every round writes at least one byte. -/
def appendLoop : (fuel : Nat) → (d : Dinode) → (off : Nat) → (p : List UInt8) → M (Dinode × Nat)
  | 0, d, off, _ => pure (d, off)
  | fuel + 1, d, off, p =>
    if p = [] then pure (d, off)
    else do
      let (d, n1) ← appendRound d off p
      appendLoop fuel d (off + n1) (p.drop n1)

/-- `iappend`. -/
def iappend (inum : Nat) (p : List UInt8) : M Unit := do
  let d ← rinode inum
  let (d, off) ← appendLoop p.length d d.size p
  winode inum { d with size := off }

/-! ## main -/

/-- An input file: its path, whether `open` succeeds, and the pieces that `read` returns. -/
structure Arg where
  path : List UInt8
  opens : Bool
  pieces : List (List UInt8)
  noNul : 0 ∉ path
  le : ∀ p ∈ pieces, p ≠ [] ∧ p.length ≤ BSIZE

theorem le_nil : ∀ p ∈ ([] : List (List UInt8)), p ≠ [] ∧ p.length ≤ BSIZE := by simp

/-- `"user/"`. -/
def userDir : List UInt8 := [117, 115, 101, 114, 47]

/-- `'_'`. -/
def underscore : UInt8 := 95

/-- The path without `user/`. -/
def Arg.shortname (a : Arg) : List UInt8 :=
  if strncmp a.path userDir 5 = 0 then a.path.drop 5 else a.path

/-- The name that is written to the file system, without a leading `_`. -/
def Arg.name (a : Arg) : List UInt8 :=
  if a.shortname.head? = some underscore then a.shortname.tail else a.shortname

/-- The bytes of the file. -/
def Arg.contents (a : Arg) : List UInt8 := a.pieces.flatten

/-- `while((cc = read(fd, buf, sizeof(buf))) > 0) iappend(inum, buf, cc)`. -/
def appendPieces (inum : Nat) : List (List UInt8) → M Unit
  | [] => pure ()
  | p :: ps => do
    iappend inum p
    appendPieces inum ps

/-- The entry that `main` appends to the root directory. -/
def rootEntry (inum : Nat) (name : List UInt8) : Dirent := ⟨inum, strncpy name DIRSIZ⟩

/-- The body of the loop over the arguments. -/
def addFile (rootino : Nat) (a : Arg) : M Unit :=
  if slash ∈ a.shortname then .panic "index(shortname, '/') == 0"
  else if a.opens = false then .panic "open"
  else do
    let inum ← ialloc .file
    iappend rootino (rootEntry inum a.name).encode
    appendPieces inum a.pieces

/-- `for(i = 2; i < argc; i++)`. -/
def addFiles (rootino : Nat) : List Arg → M Unit
  | [] => pure ()
  | a :: as => do
    addFile rootino a
    addFiles rootino as

/-- Round the size of the root directory up. -/
def fixRoot (rootino : Nat) : M Unit := do
  let d ← rinode rootino
  winode rootino { d with size := (d.size / BSIZE + 1) * BSIZE }

/-- What `main` does before the arguments: an empty root directory. -/
def makeRoot : M Nat := do
  .modify fun s => { s with freeblock := nmeta }
  .forUp (fun i => wsect i fun _ => 0) 0 FSSIZE
  wsect 1 (ByteMem.write (fun _ => 0) 0 (words superblock))
  let rootino ← ialloc .dir
  if rootino ≠ ROOTINO then .panic "rootino == ROOTINO"
  else
    iappend rootino (rootEntry rootino dot).encode
    iappend rootino (rootEntry rootino dotdot).encode
    pure rootino

/-- `main`. -/
def main (args : List Arg) : M Unit := do
  let rootino ← makeRoot
  addFiles rootino args
  fixRoot rootino
  let used ← .gets (·.freeblock)
  balloc used

/-! ## The image in the kernel -/

/-- The inodes in the inode blocks; none are behind `sb.ninodes`. -/
def dinodes (image : Nat → ByteMem) (i : Nat) : Dinode :=
  if i < word (image 1) 3 then
    loadDinode (image (i / IPB + word (image 1) 6)) (islot i)
  else Dinode.zero

/-- The file system on an image, after `fsinit` has read the superblock. -/
def boot (image : Nat → ByteMem) : Fs.State where
  bitmap b := (image (b / (BSIZE * 8) + word (image 1) 7) (b % (BSIZE * 8) / 8)) &&&
    (1 <<< UInt8.ofNat (b % 8)) != 0
  dinode := dinodes image
  data := image
  itable _ := ⟨0, 0, false, false, Dinode.zero⟩
  handed := []

end Xv6.Mkfs
