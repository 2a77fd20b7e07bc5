import Xv6.ForStd.Ring
import Xv6.Kernel.LogOps

/-!
# The buffer cache

`kernel/bio.c`, used by any number `N` of processes. The buffers are on a circular list through
`bcache.head`, linked by `prev` and `next`. What a function does under `bcache.lock` is one step: `bget`
up to its `release`, the second half of `brelse`, `bpin` and `bunpin`. The sleep-lock of a
buffer is taken in a step of its own, which waits until the lock is free, and so is each transfer
from and to the disk. `virtio_disk_rw` looks at `b->blockno` only, so the disk has one block for
each number.

`refcnt` is a `uint`. It counts a get by each process that waits for the buffer or holds it, and pins,
of which the log has one for a block; it is a natural number here. The loops of `bget` follow the links
and are cut off after `NBUF + 1` rounds, where the machine would hang; the list invariant
excludes that. `b->disk`, which belongs to the driver, is left out.
-/

namespace Xv6.Bcache

open Log (Block MAXOPBLOCKS)

/-- `kernel/param.h`. -/
def NBUF : Nat := MAXOPBLOCKS * 3

@[inherit_doc NBUF] def ROOTDEV : Nat := 1

abbrev BufPtr := Fin NBUF

theorem NBUF_pos : 0 < NBUF := by decide

/-- A node of the list: a buffer, or `bcache.head`. -/
abbrev Node := Option BufPtr

/-- `struct buf` without its links and its lock. -/
structure Buf where
  valid : Bool
  dev : Nat
  blockno : Nat
  refcnt : Nat
  data : Block

/-- `bcache`. -/
structure Cache where
  buf : BufPtr → Buf
  links : Links Node

namespace Cache

def set (c : Cache) (b : BufPtr) (v : Buf) : Cache := { c with buf := upd c.buf b v }

/-- `binit`. -/
def binit (c : Cache) : Cache :=
  let head : Links Node := ⟨upd c.links.prev none none, upd c.links.next none none⟩
  { c with links := (List.finRange NBUF).foldl (fun l b => l.insertFirst none (some b)) head }

/-- `b->dev == dev && b->blockno == blockno`. -/
def holds (c : Cache) (dev blockno : Nat) (b : BufPtr) : Bool :=
  (c.buf b).dev == dev && (c.buf b).blockno == blockno

/-- `b->refcnt == 0`. -/
def unused (c : Cache) (b : BufPtr) : Bool := (c.buf b).refcnt == 0

/-- The first loop of `bget`. -/
def findCached (c : Cache) (dev blockno : Nat) : Option (Option BufPtr) :=
  search c.links.next none (Option.filter (c.holds dev blockno)) (NBUF + 1) (c.links.next none)

/-- The second loop of `bget`. -/
def findUnused (c : Cache) : Option (Option BufPtr) :=
  search c.links.prev none (Option.filter c.unused) (NBUF + 1) (c.links.prev none)

/-- `b->refcnt++`. -/
def bpin (c : Cache) (b : BufPtr) : Cache :=
  c.set b { c.buf b with refcnt := (c.buf b).refcnt + 1 }

/-- `b->refcnt--`. -/
def bunpin (c : Cache) (b : BufPtr) : Cache :=
  c.set b { c.buf b with refcnt := (c.buf b).refcnt - 1 }

/-- The buffer `b` is given to another block. -/
def recycle (c : Cache) (b : BufPtr) (dev blockno : Nat) : Cache :=
  c.set b { c.buf b with dev := dev, blockno := blockno, valid := false, refcnt := 1 }

/-- `bget` under `bcache.lock`. -/
def bget (c : Cache) (dev blockno : Nat) : Outcome Cache BufPtr :=
  match c.findCached dev blockno with
  | none => .stop .block
  | some (some b) => .ok b (c.bpin b)
  | some none =>
    match c.findUnused with
    | none => .stop .block
    | some (some b) => .ok b (c.recycle b dev blockno)
    | some none => .stop (.panic "bget: no buffers")

/-- The assignments to the links in `brelse`. -/
def moveToFront (c : Cache) (b : BufPtr) : Cache :=
  { c with links := (c.links.unlink (some b)).insertFirst none (some b) }

/-- `brelse` under `bcache.lock`. -/
def brelse (c : Cache) (b : BufPtr) : Cache :=
  let c := c.bunpin b
  if (c.buf b).refcnt = 0 then c.moveToFront b else c

end Cache

/-- Where a process stands. -/
inductive Pc where
  | idle
  /-- in `bget`, before `acquiresleep(&b->lock)` -/
  | lockWait (b : BufPtr)
  /-- in `bread`, before `virtio_disk_rw(b, 0)` -/
  | read (b : BufPtr)
  /-- in `bread`, before `b->valid = 1` -/
  | validate (b : BufPtr)
  /-- back from `bread`, which returned `b` -/
  | ret (b : BufPtr)
  /-- in `brelse`, after `releasesleep(&b->lock)` -/
  | relse (b : BufPtr)
deriving DecidableEq, Repr

/-- The process is not inside a function of `bio.c`. -/
def Pc.ready : Pc → Bool
  | idle | ret _ => true
  | _ => false

/-- The cache, the holders of the sleep-locks, the disk and the processes. -/
structure State (N : Nat) where
  cache : Cache
  lock : BufPtr → Option (Fin N)
  disk : Nat → Block
  pc : Fin N → Pc
  panicked : Option String

inductive Input (N : Nat) where
  | bread (p : Fin N) (dev blockno : Nat)
  | bwrite (p : Fin N) (b : BufPtr)
  | brelse (p : Fin N) (b : BufPtr)
  | bpin (p : Fin N) (b : BufPtr)
  | bunpin (p : Fin N) (b : BufPtr)
  /-- process `p` stores into `b->data`, which then holds `data` -/
  | store (p : Fin N) (b : BufPtr) (data : Block)
  /-- the next step of process `p` inside a function -/
  | step (p : Fin N)

def Input.process {N : Nat} : Input N → Fin N
  | bread p _ _ | bwrite p _ | brelse p _ | bpin p _ | bunpin p _ | store p _ _ | step p => p

namespace State

variable {N : Nat}

def buf (s : State N) (b : BufPtr) : Buf := s.cache.buf b

def goto (s : State N) (p : Fin N) (c : Pc) : State N := { s with pc := upd s.pc p c }

def stop (s : State N) (msg : String) : State N := { s with panicked := some msg }

def setBuf (s : State N) (b : BufPtr) (v : Buf) : State N := { s with cache := s.cache.set b v }

/-- `bread` up to the end of the critical section of `bget`. -/
def bread (s : State N) (p : Fin N) (dev blockno : Nat) : Option (State N) :=
  match s.cache.bget dev blockno with
  | .ok b c => some { s with cache := c, pc := upd s.pc p (.lockWait b) }
  | .stop (.panic msg) => some (s.stop msg)
  | .stop .block => none

def bwrite (s : State N) (p : Fin N) (b : BufPtr) : State N :=
  if s.lock b = some p then { s with disk := upd s.disk (s.buf b).blockno (s.buf b).data }
  else s.stop "bwrite"

/-- `brelse` up to the end of `releasesleep`. -/
def brelse (s : State N) (p : Fin N) (b : BufPtr) : State N :=
  if s.lock b = some p then { s with lock := upd s.lock b none, pc := upd s.pc p (.relse b) }
  else s.stop "brelse"

/-- `acquiresleep(&b->lock)` and the test of `b->valid` in `bread`. -/
def acquiresleep (s : State N) (p : Fin N) (b : BufPtr) : Option (State N) :=
  if s.lock b = none then
    some
      { s with
        lock := upd s.lock b (some p)
        pc := upd s.pc p (if (s.buf b).valid then .ret b else .read b) }
  else none

/-- The next step of process `p` inside a function. -/
def exec (s : State N) (p : Fin N) : Option (State N) :=
  match s.pc p with
  | .idle | .ret _ => none
  | .lockWait b => s.acquiresleep p b
  | .read b =>
    some ((s.setBuf b { s.buf b with data := s.disk (s.buf b).blockno }).goto p (.validate b))
  | .validate b => some ((s.setBuf b { s.buf b with valid := true }).goto p (.ret b))
  | .relse b => some { s with cache := s.cache.brelse b, pc := upd s.pc p .idle }

/-- A call by a process, which is not inside a function. -/
def call (s : State N) : Input N → Option (State N)
  | .bread p dev blockno => s.bread p dev blockno
  | .bwrite p b => some (s.bwrite p b)
  | .brelse p b => some (s.brelse p b)
  | .bpin _ b => some { s with cache := s.cache.bpin b }
  | .bunpin _ b => some { s with cache := s.cache.bunpin b }
  | .store p b data =>
    if s.lock b = some p then some (s.setBuf b { s.buf b with data := data }) else none
  | .step _ => none

def step (s : State N) (i : Input N) : Option (State N) :=
  if s.panicked.isSome then none
  else if (s.pc i.process).ready then s.call i
  else
    match i with
    | .step p => s.exec p
    | _ => none

end State

/-- The memory before `binit`: all zero, and the links are not yet set. -/
def Cache.bss (links : Links Node) : Cache := ⟨fun _ => ⟨false, 0, 0, 0, fun _ => 0⟩, links⟩

/-- The cache after `binit`, with nobody using it. -/
def State.boot (N : Nat) (links : Links Node) (disk : Nat → Block) : State N where
  cache := (Cache.bss links).binit
  lock _ := none
  disk := disk
  pc _ := .idle
  panicked := none

/-- Any number of processes that use the cache. -/
def bcacheOps (N : Nat) : TransitionSystem (State N) (Input N) where
  init s := ∃ links disk, s = .boot N links disk
  step := State.step

end Xv6.Bcache
