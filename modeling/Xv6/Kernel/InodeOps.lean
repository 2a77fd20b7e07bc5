import Xv6.Kernel.Inode

/-!
# The inode table under concurrency

`iget`, `idup`, `ilock`, `iunlock`, `iput`, `iupdate` and `ialloc` of `kernel/fs.c` once more, now as the
steps that any number `N` of processes interleave. A step is what a process does under
`itable.lock`, the sleep-lock operations, what it does with an inode block between `bread` and
`brelse`, or a store into the fields of an inode. `itrunc` frees blocks, which is modelled in
`Xv6.Kernel.Inode`; here only its effect on the inode matters.

Devices are distinguished: the table is searched by `dev` and `inum`. `dinode` has the inodes as
they are in the buffer cache.
-/

namespace Xv6.Itable

open Fs (InodePtr NINODE NINODES Dinode InodeType)

/-- `struct inode`; `lock` is the process that holds the sleep-lock. -/
structure Inode (N : Nat) where
  dev : Nat
  inum : Nat
  ref : Nat
  lock : Option (Fin N)
  valid : Bool
  din : Dinode

/-- Where a process stands. -/
inductive Pc where
  | idle
  /-- in `ilock`, before `acquiresleep` has the lock -/
  | lockWait (ip : InodePtr)
  /-- before the test of `ip->valid`, and the copying of the inode -/
  | load (ip : InodePtr)
  /-- before `ip->valid = 1` -/
  | validate (ip : InodePtr)
  /-- in `iput`, before `acquire(&itable.lock)` -/
  | put (ip : InodePtr)
  /-- before `itrunc`, and before the `iupdate` at its end -/
  | trunc (ip : InodePtr)
  | truncUpdate (ip : InodePtr)
  /-- before `ip->type = 0`, and before the `iupdate` behind it -/
  | free (ip : InodePtr)
  | freeUpdate (ip : InodePtr)
  /-- before `ip->valid = 0` -/
  | invalidate (ip : InodePtr)
  /-- before `releasesleep` -/
  | putUnlock (ip : InodePtr)
  /-- before the second `acquire(&itable.lock)` -/
  | drop (ip : InodePtr)
  /-- in the loop of `ialloc` -/
  | scan (dev : Nat) (type : InodeType) (inum : Nat)
  /-- before the `iget` at the end of `ialloc` -/
  | found (dev inum : Nat)
deriving DecidableEq, Repr

structure State (N : Nat) where
  itable : InodePtr → Inode N
  dinode : Nat → Nat → Dinode
  pc : Fin N → Pc
  panicked : Option String

/-- What a process may do; `write` stores into the fields of an inode that are also on disk. -/
inductive Input (N : Nat) where
  | iget (p : Fin N) (dev inum : Nat)
  | idup (p : Fin N) (ip : InodePtr)
  | ilock (p : Fin N) (ip : InodePtr)
  | iunlock (p : Fin N) (ip : InodePtr)
  | iput (p : Fin N) (ip : InodePtr)
  | iupdate (p : Fin N) (ip : InodePtr)
  | ialloc (p : Fin N) (dev : Nat) (type : InodeType)
  | write (p : Fin N) (ip : InodePtr) (din : Dinode)
  /-- the next step of process `p` inside one of these functions -/
  | step (p : Fin N)

def Input.process {N : Nat} : Input N → Fin N
  | iget p _ _ | idup p _ | ilock p _ | iunlock p _ | iput p _ | iupdate p _ | ialloc p _ _ | write p _ _
  | step p => p

namespace State

variable {N : Nat}

def goto (s : State N) (p : Fin N) (pc : Pc) : State N := { s with pc := upd s.pc p pc }

def stop (s : State N) (msg : String) : State N := { s with panicked := some msg }

def set (s : State N) (ip : InodePtr) (x : Inode N) : State N :=
  { s with itable := upd s.itable ip x }

/-- The inode of an entry, in the buffer cache. -/
def onDisk (s : State N) (ip : InodePtr) : Dinode := s.dinode (s.itable ip).dev (s.itable ip).inum

/-- The entry that `iget` finds. -/
def findEntry (s : State N) (dev inum : Nat) : Option InodePtr :=
  (List.finRange NINODE).find? fun ip =>
    decide (0 < (s.itable ip).ref) && (s.itable ip).dev == dev && (s.itable ip).inum == inum

/-- The first entry that is not in use. -/
def findEmpty (s : State N) : Option InodePtr :=
  (List.finRange NINODE).find? fun ip => (s.itable ip).ref == 0

def iget (s : State N) (dev inum : Nat) : State N :=
  match s.findEntry dev inum with
  | some ip => s.set ip { s.itable ip with ref := (s.itable ip).ref + 1 }
  | none =>
    match s.findEmpty with
    | some ip => s.set ip { s.itable ip with dev := dev, inum := inum, ref := 1, valid := false }
    | none => s.stop "iget: no inodes"

def idup (s : State N) (ip : InodePtr) : State N :=
  s.set ip { s.itable ip with ref := (s.itable ip).ref + 1 }

def iunlock (s : State N) (p : Fin N) (ip : InodePtr) : State N :=
  if (s.itable ip).lock ≠ some p ∨ (s.itable ip).ref < 1 then s.stop "iunlock"
  else s.set ip { s.itable ip with lock := none }

def iupdate (s : State N) (ip : InodePtr) : State N :=
  let x := s.itable ip
  { s with dinode := upd s.dinode x.dev (upd (s.dinode x.dev) x.inum x.din) }

/-- `ip->ref--`, and the return from `iput`. -/
def dropRef (s : State N) (p : Fin N) (ip : InodePtr) : State N :=
  (s.set ip { s.itable ip with ref := (s.itable ip).ref - 1 }).goto p .idle

/-- The test of `iput`: the last reference to an inode without links. -/
def last (s : State N) (ip : InodePtr) : Prop :=
  (s.itable ip).ref = 1 ∧ (s.itable ip).valid = true ∧ (s.itable ip).din.nlink = 0

instance (s : State N) (ip : InodePtr) : Decidable (s.last ip) := inferInstanceAs (Decidable (_ ∧ _))

/-- What `iput` does under `itable.lock`. An `acquiresleep` that has to sleep gets to `sched`, which
    panics because of `itable.lock`. -/
def put (s : State N) (p : Fin N) (ip : InodePtr) : State N :=
  if s.last ip then
    if (s.itable ip).lock = none then
      (s.set ip { s.itable ip with lock := some p }).goto p (.trunc ip)
    else s.stop "sched locks"
  else s.dropRef p ip

/-- The next step of process `p`, or none if it waits. -/
def exec (s : State N) (p : Fin N) : Option (State N) :=
  match s.pc p with
  | .idle => none
  | .lockWait ip =>
    if (s.itable ip).lock = none then
      some ((s.set ip { s.itable ip with lock := some p }).goto p (.load ip))
    else none
  | .load ip =>
    if (s.itable ip).valid then some (s.goto p .idle)
    else some ((s.set ip { s.itable ip with din := s.onDisk ip }).goto p (.validate ip))
  | .validate ip =>
    let s' := s.set ip { s.itable ip with valid := true }
    if (s.itable ip).din.type = .free then some (s'.stop "ilock: no type") else some (s'.goto p .idle)
  | .put ip => some (s.put p ip)
  | .trunc ip =>
    let d := (s.itable ip).din
    some ((s.set ip
      { s.itable ip with din := { d with size := 0, addrs := fun _ => 0 } }).goto p (.truncUpdate ip))
  | .truncUpdate ip => some ((s.iupdate ip).goto p (.free ip))
  | .free ip =>
    let d := (s.itable ip).din
    some ((s.set ip { s.itable ip with din := { d with type := .free } }).goto p (.freeUpdate ip))
  | .freeUpdate ip => some ((s.iupdate ip).goto p (.invalidate ip))
  | .invalidate ip => some ((s.set ip { s.itable ip with valid := false }).goto p (.putUnlock ip))
  | .putUnlock ip => some ((s.set ip { s.itable ip with lock := none }).goto p (.drop ip))
  | .drop ip => some (s.dropRef p ip)
  | .scan dev type inum =>
    if inum < NINODES then
      if (s.dinode dev inum).type = .free then
        some ({ s with
          dinode := upd s.dinode dev (upd (s.dinode dev) inum { Dinode.zero with type := type }) }.goto p
            (.found dev inum))
      else some (s.goto p (.scan dev type (inum + 1)))
    else some (s.goto p .idle)
  | .found dev inum => some ((s.iget dev inum).goto p .idle)

/-- The calls of a process that is in none of the functions. -/
def call (s : State N) : Input N → State N
  | .iget _ dev inum => s.iget dev inum
  | .idup _ ip => s.idup ip
  | .ilock p ip => if (s.itable ip).ref < 1 then s.stop "ilock" else s.goto p (.lockWait ip)
  | .iunlock p ip => s.iunlock p ip
  | .iput p ip => s.goto p (.put ip)
  | .iupdate _ ip => s.iupdate ip
  | .ialloc p dev type => s.goto p (.scan dev type 1)
  | .write _ ip din => s.set ip { s.itable ip with din := din }
  | .step _ => s

def step (s : State N) (i : Input N) : Option (State N) :=
  if s.panicked.isSome then none
  else
    match i with
    | .step p => s.exec p
    | i => if s.pc i.process = .idle then some (s.call i) else none

end State

/-- `itable` after `iinit`: nothing is in use. -/
def State.boot (N : Nat) (dinode : Nat → Nat → Dinode) : State N where
  itable _ := ⟨0, 0, 0, none, false, .zero⟩
  dinode := dinode
  pc _ := .idle
  panicked := none

/-- Any number of processes on any disk. -/
def itableOps (N : Nat) : TransitionSystem (State N) (Input N) where
  init s := ∃ dinode, s = .boot N dinode
  step := State.step

end Xv6.Itable
