import Xv6.ForStd.Interleave
import Xv6.Kernel.Directory
import Xv6.Kernel.Proc

/-!
# Files and the file system calls

The file table of `kernel/file.c` and the calls of `kernel/sysfile.c` on names and open files, with
the parts of `fork` and `exit` of `kernel/proc.c` that copy and drop files and current directories.

A system call is a program on the file system, the file table and the processes' descriptors; a step
of the transition system `files` runs one call of one process to its end. A call that panics
or waits for ever has no next state. Pipes are left out.
-/

namespace Xv6.Fs

@[inherit_doc BSIZE] def NFILE : Nat := 100

@[inherit_doc BSIZE] def NOFILE : Nat := 16

@[inherit_doc BSIZE] def NDEV : Nat := 10

/-- `kernel/fcntl.h`. -/
def O_RDONLY : BitVec 32 := 0x000

@[inherit_doc O_RDONLY] def O_WRONLY : BitVec 32 := 0x001

@[inherit_doc O_RDONLY] def O_RDWR : BitVec 32 := 0x002

@[inherit_doc O_RDONLY] def O_CREATE : BitVec 32 := 0x200

@[inherit_doc O_RDONLY] def O_TRUNC : BitVec 32 := 0x400

/-- A pointer into `ftable.file[NFILE]`. -/
abbrev FilePtr := Fin NFILE

/-- The type of an open file. -/
inductive FileType where
  | none
  | inode
  | device
deriving DecidableEq, Repr

/-- `struct file`. -/
structure File where
  type : FileType
  ref : Nat
  readable : Bool
  writable : Bool
  ip : InodePtr
  off : Nat
  major : Int

/-- The fields of `struct proc` that refer to files. -/
structure ProcFiles where
  ofile : Fin NOFILE → Option FilePtr
  cwd : InodePtr

/-- The file system, the file table and the processes that exist. -/
structure Sys where
  fs : State
  ftable : FilePtr → File
  proc : Slot → Option ProcFiles

/-- The file system as a part of the whole. -/
def fsPart : Prog.Part Sys State where
  get := Sys.fs
  set fs s := { s with fs := fs }
  get_set _ _ := rfl
  set_get _ := rfl
  set_set _ _ _ := rfl

abbrev SysM := Prog Sys

instance : MonadLift FsM SysM where
  monadLift := Prog.zoom fsPart

/-- A path that `argstr` has fetched. -/
structure Path where
  bytes : List UInt8
  nonzero : ∀ b ∈ bytes, b ≠ 0
  short : bytes.length < MAXPATH

/-! ## The file table -/

/-- `filealloc`. -/
def filealloc : SysM (Option FilePtr) :=
  .atomic fun s =>
    match (List.finRange NFILE).find? fun f => (s.ftable f).ref == 0 with
    | some f => .ok (some f) { s with ftable := upd s.ftable f { s.ftable f with ref := 1 } }
    | none => .ok none s

/-- `filedup`. -/
def filedup (f : FilePtr) : SysM Unit :=
  .atomic fun s =>
    if (s.ftable f).ref < 1 then .stop (.panic "filedup")
    else .ok () { s with ftable := upd s.ftable f { s.ftable f with ref := (s.ftable f).ref + 1 } }

/-- The part of `fileclose` under `ftable.lock`: the file if this was its last reference. -/
def dropFile (f : FilePtr) : SysM (Option File) :=
  .atomic fun s =>
    if (s.ftable f).ref < 1 then .stop (.panic "fileclose")
    else if 0 < (s.ftable f).ref - 1 then
      .ok none { s with ftable := upd s.ftable f { s.ftable f with ref := (s.ftable f).ref - 1 } }
    else
      .ok (some (s.ftable f))
        { s with ftable := upd s.ftable f { s.ftable f with ref := 0, type := .none } }

/-- `fileclose`. -/
def fileclose (f : FilePtr) : SysM Unit := do
  match ← dropFile f with
  | none => pure ()
  | some ff => if ff.type ≠ .none then iput ff.ip

/-! ## Descriptors and current directories -/

/-- A change of the files of process `p`. -/
def setProc (p : Slot) (g : ProcFiles → ProcFiles) : SysM Unit :=
  .modify fun s => { s with proc := upd s.proc p ((s.proc p).map g) }

/-- `myproc()`. -/
def myproc (p : Slot) : SysM ProcFiles :=
  .atomic fun s =>
    match s.proc p with
    | some q => .ok q s
    | none => .stop .block

/-- `argfd`. -/
def argfd (p : Slot) (fd : Int) : SysM (Option (Fin NOFILE × FilePtr)) := do
  let q ← myproc p
  if h : 0 ≤ fd ∧ fd < NOFILE then
    let fd : Fin NOFILE := ⟨fd.toNat, by omega⟩
    pure ((q.ofile fd).map fun f => (fd, f))
  else pure none

/-- `fdalloc`. -/
def fdalloc (p : Slot) (f : FilePtr) : SysM (Option (Fin NOFILE)) := do
  let q ← myproc p
  match (List.finRange NOFILE).find? fun fd => (q.ofile fd).isNone with
  | some fd => do
    setProc p fun q => { q with ofile := upd q.ofile fd (some f) }
    pure (some fd)
  | none => pure none

/-! ## Names -/

/-- The loop of `isdirempty`. -/
def isdirempty (dp : InodePtr) : FsM Bool := do
  let x ← inode dp
  let found ← .findUp
    (fun k => do
      let de ← readDirent dp (direntSize * k) "isdirempty: readi"
      if de.inum ≠ 0 then pure (some ()) else pure none)
    2 (rounds x.din.size - 2)
  pure found.isNone

/-- A change of `ip->nlink` that is written to disk. -/
def addLink (ip : InodePtr) (d : Int) : FsM Unit := do
  setDin ip fun x => { x with nlink := toShort (x.nlink + d) }
  iupdate ip

/-- The end of `create` when an entry could not be written: free the new inode. -/
def createFail (dp ip : InodePtr) : FsM (Option InodePtr) := do
  setDin ip fun x => { x with nlink := 0 }
  iupdate ip
  iunlockput ip
  iunlockput dp
  pure none

/-- `.` and `..` of a new directory; nothing for other inodes. -/
def linkDots (type : InodeType) (dp ip : InodePtr) : FsM Bool := do
  if type = .dir then
    let x ← inode ip
    if ← dirlink ip dot x.inum then
      let d ← inode dp
      dirlink ip dotdot d.inum
    else pure false
  else pure true

/-- `create` once `ialloc` has returned `ip`. -/
def createNew (dp ip : InodePtr) (name : List UInt8) (type : InodeType) (major minor : Int) :
    FsM (Option InodePtr) := do
  ilock ip
  setDin ip fun x => { x with major := toShort major, minor := toShort minor, nlink := 1 }
  iupdate ip
  if ← linkDots type dp ip then
    let x ← inode ip
    if ← dirlink dp name x.inum then
      if type = .dir then addLink dp 1
      iunlockput dp
      pure (some ip)
    else createFail dp ip
  else createFail dp ip

/-- `create` when the directory has no entry of the name. -/
def createAlloc (dp : InodePtr) (name : List UInt8) (type : InodeType) (major minor : Int) :
    FsM (Option InodePtr) := do
  match ← ialloc type with
  | none => do
    iunlockput dp
    pure none
  | some ip => createNew dp ip name type major minor

/-- `create` in the directory `nameiparent` has returned. -/
def createIn (dp : InodePtr) (name : List UInt8) (type : InodeType) (major minor : Int) :
    FsM (Option InodePtr) := do
  ilock dp
  match ← dirlookup dp name with
  | some (ip, _) => do
    iunlockput dp
    ilock ip
    let x ← inode ip
    if type = .file ∧ (x.din.type = .file ∨ x.din.type = .device) then pure (some ip)
    else
      iunlockput ip
      pure none
  | none => createAlloc dp name type major minor

/-- `create`; the inode it returns is locked. -/
def create (cwd : InodePtr) (path : List UInt8) (type : InodeType) (major minor : Int) :
    FsM (Option InodePtr) := do
  match ← nameiparent cwd path with
  | none => pure none
  | some (dp, name) => createIn dp name type major minor

/-- The exit `bad` of `sys_link`: take the link back. -/
def linkBad (ip : InodePtr) : FsM Int := do
  ilock ip
  addLink ip (-1)
  iunlockput ip
  pure (-1)

/-- `sys_link`. -/
def sysLink (cwd : InodePtr) (old new : List UInt8) : FsM Int := do
  match ← namei cwd old with
  | none => pure (-1)
  | some ip => do
    ilock ip
    let x ← inode ip
    if x.din.type = .dir then
      iunlockput ip
      pure (-1)
    else
      addLink ip 1
      iunlock ip
      match ← nameiparent cwd new with
      | none => linkBad ip
      | some (dp, name) => do
        ilock dp
        let x ← inode ip
        if ← dirlink dp name x.inum then
          iunlockput dp
          iput ip
          pure 0
        else
          iunlockput dp
          linkBad ip

/-- `ip->type == T_DIR && !isdirempty(ip)`. -/
def dirFull (type : InodeType) (ip : InodePtr) : FsM Bool := do
  if type = .dir then
    let empty ← isdirempty ip
    pure (!empty)
  else pure false

/-- The part of `sys_unlink` that erases the entry at `off` of `dp`, which names `ip`. -/
def eraseEntry (dp ip : InodePtr) (off : Nat) (type : InodeType) : FsM Int := do
  let r ← writei dp (.kernel (List.replicate direntSize 0)) off direntSize
  if r ≠ direntSize then .panic "unlink: writei"
  else
    if type = .dir then addLink dp (-1)
    iunlockput dp
    addLink ip (-1)
    iunlockput ip
    pure 0

/-- `sys_unlink` from the lookup of the last element on. -/
def unlinkEntry (dp : InodePtr) (name : List UInt8) : FsM Int := do
  match ← dirlookup dp name with
  | none => do
    iunlockput dp
    pure (-1)
  | some (ip, off) => do
    ilock ip
    let x ← inode ip
    if x.din.nlink < 1 then .panic "unlink: nlink < 1"
    else
      let full ← dirFull x.din.type ip
      if full then
        iunlockput ip
        iunlockput dp
        pure (-1)
      else eraseEntry dp ip off x.din.type

/-- `sys_unlink`. -/
def sysUnlink (cwd : InodePtr) (path : List UInt8) : FsM Int := do
  match ← nameiparent cwd path with
  | none => pure (-1)
  | some (dp, name) => do
    ilock dp
    if namecmp name dot = 0 ∨ namecmp name dotdot = 0 then
      iunlockput dp
      pure (-1)
    else unlinkEntry dp name

/-! ## Open files -/

/-- The inode that `sys_open` opens, locked. -/
def openInode (cwd : InodePtr) (path : List UInt8) (omode : BitVec 32) :
    FsM (Option InodePtr) := do
  if omode &&& O_CREATE ≠ 0 then create cwd path .file 0 0
  else
    match ← namei cwd path with
    | none => pure none
    | some ip => do
      ilock ip
      let x ← inode ip
      if x.din.type = .dir ∧ omode ≠ O_RDONLY then
        iunlockput ip
        pure none
      else pure (some ip)

/-- The fields that `sys_open` fills in; `filealloc` has set `ref`. -/
def openFile (x : Inode) (ip : InodePtr) (omode : BitVec 32) (f : File) : File :=
  let f :=
    if x.din.type = .device then { f with type := .device, major := x.din.major }
    else { f with type := .inode, off := 0 }
  { f with
    ip := ip
    readable := omode &&& O_WRONLY == 0
    writable := omode &&& O_WRONLY != 0 || omode &&& O_RDWR != 0 }

/-- `sys_open` with a locked inode. -/
def openLocked (p : Slot) (ip : InodePtr) (omode : BitVec 32) : SysM Int := do
  let x ← inode ip
  if x.din.type = .device ∧ (x.din.major < 0 ∨ x.din.major ≥ NDEV) then
    iunlockput ip
    pure (-1)
  else
    match ← filealloc with
    | none => do
      iunlockput ip
      pure (-1)
    | some f => do
      match ← fdalloc p f with
      | none => do
        fileclose f
        iunlockput ip
        pure (-1)
      | some fd => do
        .modify fun s => { s with ftable := upd s.ftable f (openFile x ip omode (s.ftable f)) }
        if omode &&& O_TRUNC ≠ 0 ∧ x.din.type = .file then itrunc ip
        iunlock ip
        pure fd.val

/-- `sys_open`. -/
def sysOpen (p : Slot) (path : List UInt8) (omode : BitVec 32) : SysM Int := do
  let q ← myproc p
  match ← openInode q.cwd path omode with
  | none => pure (-1)
  | some ip => openLocked p ip omode

/-- `sys_mkdir` and `sys_mknod`. -/
def sysCreate (p : Slot) (path : List UInt8) (type : InodeType) (major minor : Int) :
    SysM Int := do
  let q ← myproc p
  match ← create q.cwd path type major minor with
  | none => pure (-1)
  | some ip => do
    iunlockput ip
    pure 0

/-- `sys_chdir`. -/
def sysChdir (p : Slot) (path : List UInt8) : SysM Int := do
  let q ← myproc p
  match ← namei q.cwd path with
  | none => pure (-1)
  | some ip => do
    ilock ip
    let x ← inode ip
    if x.din.type ≠ .dir then
      iunlockput ip
      pure (-1)
    else
      iunlock ip
      iput q.cwd
      setProc p fun q => { q with cwd := ip }
      pure 0

/-- `sys_close`. -/
def sysClose (p : Slot) (fd : Int) : SysM Int := do
  match ← argfd p fd with
  | none => pure (-1)
  | some (fd, f) => do
    setProc p fun q => { q with ofile := upd q.ofile fd none }
    fileclose f
    pure 0

/-- The source address moved on by `i`. -/
def Source.drop (src : Source) (i : Nat) : Source where
  bytes pos m := src.bytes (i + pos) m
  ok pos m := src.ok (i + pos) m
  le pos m := src.le (i + pos) m
  all pos m := src.all (i + pos) m

/-- `max` in `filewrite`. -/
def writeMax : Nat := ((Log.MAXOPBLOCKS - 1 - 1 - 2) / 2) * BSIZE

/-- The loop of `filewrite` with `i` of `n` bytes written: the final `i`. -/
def filewriteLoop (f : FilePtr) (src : Source) : (fuel i n : Nat) → SysM Nat
  | 0, i, _ => pure i
  | fuel + 1, i, n =>
    if i < n then do
      let n1 := min (n - i) writeMax
      let x ← .gets fun s => s.ftable f
      ilock x.ip
      let off ← .gets fun s => (s.ftable f).off
      let r ← writei x.ip (src.drop i) off n1
      if 0 < r then
        .modify fun s =>
          { s with
            ftable := upd s.ftable f
              { s.ftable f with off := ((s.ftable f).off + r.toNat) % 2 ^ 32 } }
      iunlock x.ip
      if r ≠ n1 then pure i else filewriteLoop f src fuel (i + n1) n
    else pure i

/-- `devsw[major].write` is set: only the console is registered. -/
def devswWrite (major : Int) : Bool := major == 1

/-- `filewrite`; `dev` is what the function of a device returns. -/
def filewrite (f : FilePtr) (src : Source) (n dev : Int) : SysM Int := do
  let x ← .gets fun s => s.ftable f
  if x.writable = false then pure (-1)
  else
    match x.type with
    | .device =>
      if x.major < 0 ∨ x.major ≥ NDEV ∨ devswWrite x.major = false then pure (-1) else pure dev
    | .inode => do
      let i ← filewriteLoop f src n.toNat 0 n.toNat
      pure (if (i : Int) = n then n else -1)
    | .none => .panic "filewrite"

/-- `sys_write`. -/
def sysWrite (p : Slot) (fd : Int) (src : Source) (n dev : Int) : SysM Int := do
  match ← argfd p fd with
  | none => pure (-1)
  | some (_, f) => filewrite f src n dev

/-! ## Processes -/

/-- The files of the child in `fork`. -/
def sysFork (p child : Slot) : SysM Int := do
  let q ← myproc p
  let free ← .gets fun s => (s.proc child).isNone
  if free then
    .forUp
      (fun i =>
        if h : i < NOFILE then
          match q.ofile ⟨i, h⟩ with
          | some f => filedup f
          | none => pure ()
        else pure ())
      0 NOFILE
    let cwd ← idup q.cwd
    .modify fun s => { s with proc := upd s.proc child (some ⟨q.ofile, cwd⟩) }
    pure 0
  else pure (-1)

/-- The files of a process in `exit`. -/
def sysExit (p : Slot) : SysM Int := do
  let q ← myproc p
  .forUp
    (fun i =>
      if h : i < NOFILE then
        match q.ofile ⟨i, h⟩ with
        | some f => do
          fileclose f
          setProc p fun q => { q with ofile := upd q.ofile ⟨i, h⟩ none }
        | none => pure ()
      else pure ())
    0 NOFILE
  iput q.cwd
  .modify fun s => { s with proc := upd s.proc p none }
  pure 0

/-! ## The transition system -/

/-- A system call with its arguments; a path is `none` if `argstr` fails. -/
inductive Call where
  | open (path : Option Path) (omode : BitVec 32)
  | mkdir (path : Option Path)
  | mknod (path : Option Path) (major minor : Int)
  | chdir (path : Option Path)
  | link (old new : Option Path)
  | unlink (path : Option Path)
  | close (fd : Int)
  | write (fd : Int) (src : Source) (n dev : Int)
  | fork (child : Slot)
  | exit

/-- `initproc`. -/
def initproc : Slot := ⟨0, NPROC_pos⟩

/-- The program of a call. -/
def Call.run (p : Slot) : Call → SysM Int
  | .open (some path) omode => sysOpen p path.bytes omode
  | .mkdir (some path) => sysCreate p path.bytes .dir 0 0
  | .mknod (some path) major minor => sysCreate p path.bytes .device major minor
  | .chdir (some path) => sysChdir p path.bytes
  | .link (some old) (some new) => do
    let q ← myproc p
    sysLink q.cwd old.bytes new.bytes
  | .unlink (some path) => do
    let q ← myproc p
    sysUnlink q.cwd path.bytes
  | .close fd => sysClose p fd
  | .write fd src n dev => sysWrite p fd src n dev
  | .fork child => sysFork p child
  | .exit => if p = initproc then .panic "init exiting" else sysExit p
  | _ => pure (-1)

/-- One call of one process. -/
def step (s : Sys) (a : Slot × Call) : Option Sys :=
  match s.proc a.1 with
  | none => none
  | some _ =>
    match (a.2.run a.1).exec s with
    | .ok _ s' => some s'
    | .stop _ => none

/-- The system when `userinit` has run `namei("/")`: the first process is in the root directory, which is
    in the first entry of the inode table and not yet read. -/
structure Boot (s : Sys) : Prop where
  root : (s.fs.itable ⟨0, by decide⟩).inum = ROOTINO ∧ (s.fs.itable ⟨0, by decide⟩).ref = 1 ∧
    (s.fs.itable ⟨0, by decide⟩).valid = false
  unused : ∀ ip : InodePtr, ip.val ≠ 0 → (s.fs.itable ip).ref = 0
  unlocked : ∀ ip : InodePtr, (s.fs.itable ip).locked = false
  closed : ∀ f, (s.ftable f).ref = 0 ∧ (s.ftable f).type = .none
  handed : s.fs.handed = []
  proc : s.proc = upd (fun _ => none) initproc (some ⟨fun _ => none, ⟨0, by decide⟩⟩)

/-- The calls of any processes, one after the other, on a disk that meets `Image` at the start. -/
def files (Image : State → Prop) : TransitionSystem Sys (Slot × Call) where
  init s := Image s.fs ∧ Boot s
  step := step

/-! ## Writers in parallel -/

/-- The arguments of a call of `filewrite`: the memory at the source address, which does not change
    meanwhile, what `either_copyin` makes of it, and the number of bytes. -/
structure Writer where
  mem : Nat → UInt8
  src : Source
  reads : ∀ pos m, src.ok pos m = true → src.bytes pos m = (List.range m).map fun k => mem (pos + k)
  n : Nat

/-- `N` processes that write to the open file `f` at the same time, and nothing else. A step is one
    action of one of them; a process that waits for the lock of the inode takes no step. -/
def writers {N : Nat} (s : Sys) (f : FilePtr) (w : Fin N → Writer) :
    TransitionSystem (Threads Sys Int N) (Fin N) where
  init x := x = ⟨s, fun p => filewrite f (w p).src (w p).n 0⟩
  step := Threads.step

/-! ## The image of mkfs -/

/-- The root directory of `mkfs`, with its size rounded up to a block. -/
def rootDinode : Dinode := ⟨.dir, 0, 0, 1, BSIZE, fun k => if k = 0 then nmeta else 0⟩

/-- The disk that `mkfs` writes when it is given no files: the root directory with its entries `.` and
    `..` in the first data block. -/
def mkfsImage : State where
  bitmap b := decide (b < nmeta + 1)
  dinode := upd (fun _ => Dinode.zero) ROOTINO rootDinode
  data := upd (fun _ _ => 0) nmeta
    (ByteMem.write (fun _ => 0) 0
      (Dirent.encode ⟨ROOTINO, strncpy dot DIRSIZ⟩ ++ Dirent.encode ⟨ROOTINO, strncpy dotdot DIRSIZ⟩))
  itable ip := if ip.val = 0 then ⟨ROOTINO, 1, false, false, .zero⟩ else ⟨0, 0, false, false, .zero⟩
  handed := []

/-- The system started on the image of `mkfs`. -/
def mkfsBoot : Sys where
  fs := mkfsImage
  ftable _ := ⟨.none, 0, false, false, ⟨0, NINODE_pos⟩, 0, 0⟩
  proc := upd (fun _ => none) initproc (some ⟨fun _ => none, ⟨0, NINODE_pos⟩⟩)

theorem boot_mkfsBoot : Boot mkfsBoot where
  root := ⟨rfl, rfl, rfl⟩
  unused ip hip := by simp [mkfsBoot, mkfsImage, hip]
  unlocked ip := by
    simp only [mkfsBoot, mkfsImage]
    split <;> rfl
  closed _ := ⟨rfl, rfl⟩
  handed := rfl
  proc := rfl

end Xv6.Fs
