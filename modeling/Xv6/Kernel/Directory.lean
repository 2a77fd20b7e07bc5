import Xv6.Kernel.Inode

/-!
# Directories and path names

The directory layer of `kernel/fs.c`: `dirlookup`, `dirlink`, `skipelem` and `namex`, with `strncmp`
and `strncpy` of `kernel/string.c`. A directory is an inode whose contents are `struct dirent`s.

A C string is given by its bytes before the terminating 0.
-/

namespace Xv6.Fs

@[inherit_doc BSIZE] def DIRSIZ : Nat := 14

@[inherit_doc BSIZE] def MAXPATH : Nat := 128

/-- `sizeof(struct dirent)`. -/
def direntSize : Nat := 2 + DIRSIZ

/-! ## Names -/

/-- `strncmp`. -/
def strncmp : (p q : List UInt8) → (n : Nat) → Int
  | _, _, 0 => 0
  | p, q, n + 1 =>
    if p.headD 0 ≠ 0 ∧ p.headD 0 = q.headD 0 then strncmp p.tail q.tail n
    else (p.headD 0).toNat - (q.headD 0).toNat

/-- The `n` bytes that `strncpy` stores. -/
def strncpy : (t : List UInt8) → (n : Nat) → List UInt8
  | _, 0 => []
  | t, n + 1 =>
    if t.headD 0 = 0 then List.replicate (n + 1) 0 else t.headD 0 :: strncpy t.tail n

/-- `namecmp`. -/
def namecmp (s t : List UInt8) : Int := strncmp s t DIRSIZ

/-- `"."`. -/
def dot : List UInt8 := [46]

/-- `".."`. -/
def dotdot : List UInt8 := [46, 46]

/-- `struct dirent`. -/
structure Dirent where
  inum : Nat
  name : List UInt8
deriving DecidableEq

/-- The bytes of an entry in memory. -/
def Dirent.encode (de : Dirent) : List UInt8 := leBytes 2 de.inum ++ de.name

/-- The entry with the given bytes. -/
def Dirent.decode (bs : List UInt8) : Dirent := ⟨(ofBytes (bs.take 2)).toNat, bs.drop 2⟩

/-- A copy from kernel memory, which does not fail. -/
def Source.kernel (bs : List UInt8) : Source where
  bytes pos m := ByteMem.read (fun a => bs.getD a 0) pos m
  ok _ _ := true
  le _ _ := by simp
  all _ _ _ := by simp

/-! ## Entries -/

/-- The number of rounds of `for(off = 0; off < dp->size; off += sizeof(de))`. -/
def rounds (size : Nat) : Nat := (size + direntSize - 1) / direntSize

/-- `readi` of the entry at `off`, with the message of a short read. -/
def readDirent (dp : InodePtr) (off : Nat) (msg : String) : FsM Dirent := do
  let bs ← readi dp off direntSize
  if bs.length ≠ direntSize then .panic msg
  else pure (Dirent.decode bs)

/-- `dirlookup`: the inode and the offset of its entry. The caller holds the lock of `dp`, so that
    `dp->size` stays the same in the loop. -/
def dirlookup (dp : InodePtr) (name : List UInt8) : FsM (Option (InodePtr × Nat)) := do
  let x ← inode dp
  if x.din.type ≠ .dir then .panic "dirlookup not DIR"
  else
    .findUp
      (fun k => do
        let de ← readDirent dp (direntSize * k) "dirlookup read"
        if de.inum ≠ 0 ∧ namecmp name de.name = 0 then
          let ip ← iget de.inum
          pure (some (ip, direntSize * k))
        else pure none)
      0 (rounds x.din.size)

/-- The offset of the first empty entry, and else the end of the directory. -/
def emptyDirent (dp : InodePtr) : FsM Nat := do
  let x ← inode dp
  let found ← .findUp
    (fun k => do
      let de ← readDirent dp (direntSize * k) "dirlink read"
      if de.inum = 0 then pure (some (direntSize * k)) else pure none)
    0 (rounds x.din.size)
  pure (found.getD (direntSize * rounds x.din.size))

/-- `dirlink`; `false` for -1. -/
def dirlink (dp : InodePtr) (name : List UInt8) (inum : Nat) : FsM Bool := do
  match ← dirlookup dp name with
  | some (ip, _) => do
    iput ip
    pure false
  | none => do
    let off ← emptyDirent dp
    let de : Dirent := ⟨inum, strncpy name DIRSIZ⟩
    let r ← writei dp (.kernel de.encode) off direntSize
    pure (decide (r = direntSize))

/-! ## Paths -/

/-- `'/'`. -/
def slash : UInt8 := 47

/-- `skipelem`: the next element of a path and what follows it. -/
def skipelem (path : List UInt8) : Option (List UInt8 × List UInt8) :=
  match path.dropWhile (· == slash) with
  | [] => none
  | b :: bs =>
    some
      (((b :: bs).takeWhile (· != slash)).take DIRSIZ,
        ((b :: bs).dropWhile (· != slash)).dropWhile (· == slash))

/-- The loop of `namex`; every round takes an element off the path. The name in the result is the
    last element. -/
def namexLoop (parent : Bool) :
    (fuel : Nat) → InodePtr → (path name : List UInt8) → FsM (Option (InodePtr × List UInt8))
  | 0, _, _, _ => pure none
  | fuel + 1, ip, path, name =>
    match skipelem path with
    | none =>
      if parent then do
        iput ip
        pure none
      else pure (some (ip, name))
    | some (name, path) => do
      ilock ip
      let x ← inode ip
      if x.din.type ≠ .dir then
        iunlockput ip
        pure none
      else if parent = true ∧ path = [] then
        iunlock ip
        pure (some (ip, name))
      else
        match ← dirlookup ip name with
        | none => do
          iunlockput ip
          pure none
        | some (next, _) => do
          iunlockput ip
          namexLoop parent fuel next path name

/-- `namex` for a process with the given current directory. -/
def namex (cwd : InodePtr) (path : List UInt8) (parent : Bool) :
    FsM (Option (InodePtr × List UInt8)) := do
  let ip ← if path.head? = some slash then iget ROOTINO else idup cwd
  namexLoop parent (path.length + 1) ip path []

/-- `namei`. -/
def namei (cwd : InodePtr) (path : List UInt8) : FsM (Option InodePtr) := do
  let found ← namex cwd path false
  pure (found.map Prod.fst)

/-- `nameiparent`. -/
def nameiparent (cwd : InodePtr) (path : List UInt8) : FsM (Option (InodePtr × List UInt8)) :=
  namex cwd path true

end Xv6.Fs
