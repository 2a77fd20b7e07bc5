import Xv6.Kernel.Directory
import Xv6.Kernel.Proc
import Xv6.Kernel.Vm

/-!
# exec

`exec` and `loadseg` of `kernel/exec.c` and `sys_exec` of `kernel/sysfile.c`, run to their end. What the
process has in its own memory, the path and the argument strings, comes with the call.
-/

namespace Xv6.Exec

open Fs (FsM InodePtr namei ilock readi iunlockput slash)

def MAXARG : Nat := 32

/-- `kernel/elf.h`. -/
def ELF_MAGIC : BitVec 32 := 0x464C457F

@[inherit_doc ELF_MAGIC] def ELF_PROG_LOAD : BitVec 32 := 1

/-- The little-endian integer of `w / 8` bytes at offset `off`. -/
def field (w : Nat) (bs : List UInt8) (off : Nat) : BitVec w :=
  BitVec.ofInt w (ofBytes ((bs.drop off).take (w / 8)))

/-- `struct elfhdr`. -/
structure Elfhdr where
  magic : BitVec 32
  entry : BitVec 64
  phoff : BitVec 64
  phnum : BitVec 16

/-- `sizeof(struct elfhdr)`. -/
def Elfhdr.size : Nat := 64

def Elfhdr.decode (bs : List UInt8) : Elfhdr := ⟨field 32 bs 0, field 64 bs 24, field 64 bs 32, field 16 bs 56⟩

/-- `struct proghdr`. -/
structure Proghdr where
  type : BitVec 32
  flags : BitVec 32
  off : BitVec 64
  vaddr : BitVec 64
  filesz : BitVec 64
  memsz : BitVec 64

/-- `sizeof(struct proghdr)`. -/
def Proghdr.size : Nat := 56

def Proghdr.decode (bs : List UInt8) : Proghdr :=
  ⟨field 32 bs 0, field 32 bs 4, field 64 bs 8, field 64 bs 16, field 64 bs 32, field 64 bs 40⟩

/-- `PTE_X` and `PTE_W` of `kernel/riscv.h`. -/
def PTE_X : Nat := 8

@[inherit_doc PTE_X] def PTE_W : Nat := 4

def flags2perm (flags : BitVec 32) : Nat :=
  (if flags &&& 1 ≠ 0 then PTE_X else 0) ||| if flags &&& 2 ≠ 0 then PTE_W else 0

/-! ## State -/

/-- The registers in `p->trapframe` that `exec` sets. -/
structure Trapframe where
  epc : Nat
  sp : Nat
  a1 : Nat

/-- The file system, the free list of `kalloc` and the calling process. -/
structure State (vm : Vm) where
  fs : Fs.State
  /-- `log.outstanding` -/
  outstanding : Nat
  free : List Nat
  pagetable : vm.Table
  sz : Nat
  trapframe : Trapframe
  /-- `p->name` -/
  name : List UInt8

variable {vm : Vm}

abbrev M (vm : Vm) := Prog (State vm)

def fsPart (vm : Vm) : Prog.Part (State vm) Fs.State where
  get := State.fs
  set fs s := { s with fs := fs }
  get_set _ _ := rfl
  set_get _ := rfl
  set_set _ _ _ := rfl

instance : MonadLift FsM (M vm) where
  monadLift := Prog.zoom (fsPart vm)

def beginOp : M vm Unit := .modify fun s => { s with outstanding := s.outstanding + 1 }

def endOp : M vm Unit := .modify fun s => { s with outstanding := s.outstanding - 1 }

/-- A function of `Vm` that takes pages from the free list. -/
def paged {A : Type} (f : List Nat → A × List Nat) : M vm A :=
  .atomic fun s => .ok (f s.free).1 { s with free := (f s.free).2 }

def uvmalloc (t : vm.Table) (oldsz newsz perm : Nat) : M vm (Nat × vm.Table) :=
  paged fun f =>
    let r := vm.uvmalloc t oldsz newsz perm f
    ((r.1, r.2.1), r.2.2)

def procFreepagetable (t : vm.Table) (sz : Nat) : M vm Unit :=
  .modify fun s => { s with free := vm.procFreepagetable t sz s.free }

/-! ## Loading the program -/

/-- `loadseg`; `false` for -1. The last `i += PGSIZE` wraps around for a segment that ends in the last
    page of 4 GB, and then the loop does not end. -/
def loadseg (t : vm.Table) (va : Nat) (ip : InodePtr) (offset sz : BitVec 32) : M vm (Bool × vm.Table) :=
  loop ((sz.toNat + PGSIZE - 1) / PGSIZE) 0 t
where
  /-- the rounds that are left, and `i` -/
  loop : Nat → Nat → vm.Table → M vm (Bool × vm.Table)
    | 0, i, t => if i = 2 ^ 32 then .panic "loadseg: endless loop" else pure (true, t)
    | k + 1, i, t =>
      if vm.user t ((va + i) % 2 ^ 64 / PGSIZE) = none then .panic "loadseg: address should exist"
      else do
        let n := if sz.toNat - i < PGSIZE then sz.toNat - i else PGSIZE
        let bs ← readi ip ((offset.toNat + i) % 2 ^ 32) n
        let t := vm.load t ((va + i) % 2 ^ 64) bs
        if bs.length ≠ n then pure (false, t) else loop k (i + PGSIZE) t

/-- The loop of `exec` over the program headers, with those that are left, `off`, `pagetable` and `sz`.
    The result says whether it was left by `goto bad`. -/
def loadSegs (ip : InodePtr) : Nat → (off : BitVec 32) → vm.Table → Nat → M vm (Bool × vm.Table × Nat)
  | 0, _, t, sz => pure (true, t, sz)
  | n + 1, off, t, sz => do
    let bs ← readi ip off.toNat Proghdr.size
    if bs.length ≠ Proghdr.size then pure (false, t, sz)
    else
      let ph := Proghdr.decode bs
      if ph.type ≠ ELF_PROG_LOAD then loadSegs ip n (off + Proghdr.size) t sz
      else if ph.memsz < ph.filesz then pure (false, t, sz)
      else if ph.vaddr + ph.memsz < ph.vaddr then pure (false, t, sz)
      else if ph.vaddr.toNat % PGSIZE ≠ 0 then pure (false, t, sz)
      else do
        let (sz1, t) ← uvmalloc t sz (ph.vaddr + ph.memsz).toNat (flags2perm ph.flags)
        if sz1 = 0 then pure (false, t, sz)
        else
          let (ok, t) ← loadseg t ph.vaddr.toNat ip (ph.off.setWidth 32) (ph.filesz.setWidth 32)
          if ok = false then pure (false, t, sz1) else loadSegs ip n (off + Proghdr.size) t sz1

/-! ## The arguments -/

/-- A string that `fetchstr` has copied into a page. -/
structure Arg where
  bytes : List UInt8
  nonzero : ∀ b ∈ bytes, b ≠ 0
  short : bytes.length < PGSIZE

/-- Subtraction of `uint64`s. -/
def sub64 (a b : Nat) : Nat := (a + (2 ^ 64 - b % 2 ^ 64)) % 2 ^ 64

/-- The new stack. -/
structure Stack (vm : Vm) where
  table : vm.Table
  sp : Nat
  /-- the stores `ustack[0] = …`, `ustack[1] = …`, up to now -/
  ustack : List Nat
  /-- the subtractions up to now -/
  subs : List (Nat × Nat)

/-- `sp -= n`. -/
def Stack.minus (x : Stack vm) (n : Nat) : Stack vm :=
  { x with sp := sub64 x.sp n, subs := (x.sp, n) :: x.subs }

/-- `sp -= n; sp -= sp % 16; if(sp < stackbase) goto bad;` and the `copyout`. An error is the stack at
    `goto bad`. -/
def Stack.push (x : Stack vm) (stackbase n : Nat) (bs : List UInt8) : Except (Stack vm) (Stack vm) :=
  let x := x.minus n
  let x := x.minus (x.sp % 16)
  if x.sp < stackbase then .error x
  else
    match vm.copyout x.table x.sp bs with
    | some t => .ok { x with table := t }
    | none => .error x

/-- One round of the loop over the argument strings. -/
def pushArg (stackbase : Nat) (x : Stack vm) (s : Arg) : Except (Stack vm) (Stack vm) :=
  if MAXARG ≤ x.ustack.length then .error x
  else do
    let x ← x.push stackbase (s.bytes.length + 1) (s.bytes ++ [0])
    pure { x with ustack := x.ustack ++ [x.sp] }

/-- The arguments on a stack that ends at `sz`. -/
def pushArgv (t : vm.Table) (sz : Nat) (argv : List Arg) : Except (Stack vm) (Stack vm) := do
  let stackbase := sub64 sz PGSIZE
  let x ← argv.foldlM (pushArg stackbase) ⟨t, sz, [], [(sz, PGSIZE)]⟩
  let x := { x with ustack := x.ustack ++ [0] }
  x.push stackbase (x.ustack.length * 8) (x.ustack.flatMap fun a : Nat => leBytes 8 a)

/-! ## exec -/

/-- The end of `exec` at `bad`. -/
def bad (pagetable : Option vm.Table) (sz : Nat) (ip : Option InodePtr) : M vm (Option Nat) := do
  match pagetable with
  | some t => procFreepagetable t sz
  | none => pure ()
  match ip with
  | some ip => do
    iunlockput ip
    endOp
  | none => pure ()
  pure none

/-- `for(last=s=path; *s; s++) if(*s == '/') last = s+1;`. -/
def lastElem (path : List UInt8) : List UInt8 := (path.reverse.takeWhile (· != slash)).reverse

/-- `exec` from `ip = 0` on. -/
def execStack (path : List UInt8) (argv : List Arg) (entry : Nat) (t : vm.Table) (sz : Nat) :
    M vm (Option Nat) := do
  let oldsz ← .gets State.sz
  let sz := PGROUNDUP sz % 2 ^ 64
  let (sz1, t) ← uvmalloc t sz ((sz + 2 * PGSIZE) % 2 ^ 64) PTE_W
  if sz1 = 0 then bad (some t) sz none
  else
    let t := vm.uvmclear t (sub64 sz1 (2 * PGSIZE))
    match pushArgv t sz1 argv with
    | .error x => bad (some x.table) sz1 none
    | .ok x => do
      let oldpagetable ← .gets State.pagetable
      .modify fun s =>
        { s with
          pagetable := x.table
          sz := sz1
          trapframe := ⟨entry, x.sp, x.sp⟩
          name := safestrcpy s.name (lastElem path) 16 }
      procFreepagetable oldpagetable oldsz
      pure (some argv.length)

/-- `exec` of a process with the given current directory; `none` for -1. -/
def exec (cwd : InodePtr) (path : List UInt8) (argv : List Arg) : M vm (Option Nat) := do
  beginOp
  match ← namei cwd path with
  | none => do
    endOp
    pure none
  | some ip => do
    ilock ip
    let bs ← readi ip 0 Elfhdr.size
    let elf := Elfhdr.decode bs
    if bs.length ≠ Elfhdr.size ∨ elf.magic ≠ ELF_MAGIC then bad none 0 (some ip)
    else
      match ← paged vm.procPagetable with
      | none => bad none 0 (some ip)
      | some t => do
        let (ok, t, sz) ← loadSegs ip elf.phnum.toNat (elf.phoff.setWidth 32) t 0
        if ok = false then bad (some t) sz (some ip)
        else do
          iunlockput ip
          endOp
          execStack path argv elf.entry.toNat t sz

/-! ## sys_exec -/

/-- What `fetchaddr` and `fetchstr` find for `argv[i]`. -/
inductive Fetch where
  | badAddr
  | null
  | badStr
  | str (s : Arg)

/-- The loop of `sys_exec` with the rounds that are left: the arguments unless it ends at `bad`, and the
    pages in `argv`. -/
def fetchArgv (fetch : Nat → Fetch) : Nat → (i : Nat) → M vm (Option (List Arg) × List Nat)
  | 0, _ => pure (none, [])
  | n + 1, i =>
    match fetch i with
    | .badAddr => pure (none, [])
    | .null => pure (some [], [])
    | .badStr => do
      match ← kalloc with
      | none => pure (none, [])
      | some pa => pure (none, [pa])
    | .str s => do
      match ← kalloc with
      | none => pure (none, [])
      | some pa => do
        let (argv, pages) ← fetchArgv fetch n (i + 1)
        pure (argv.map (s :: ·), pa :: pages)
where
  kalloc : M vm (Option Nat) :=
    paged fun
      | [] => (none, [])
      | pa :: f => (some pa, f)

/-- `for(i = 0; i < NELEM(argv) && argv[i] != 0; i++) kfree(argv[i]);`. -/
def freeArgv (pages : List Nat) : M vm Unit :=
  .modify fun s => { s with free := pages.foldl (fun f pa => pa :: f) s.free }

/-- `sys_exec`; `path` is `none` if `argstr` fails. -/
def sysExec (cwd : InodePtr) (path : Option (List UInt8)) (fetch : Nat → Fetch) : M vm Int := do
  match path with
  | none => pure (-1)
  | some path => do
    let (argv, pages) ← fetchArgv fetch MAXARG 0
    match argv with
    | none => do
      freeArgv pages
      pure (-1)
    | some argv => do
      let ret ← exec cwd path argv
      freeArgv pages
      pure (ret.elim (-1) Int.ofNat)

end Xv6.Exec
