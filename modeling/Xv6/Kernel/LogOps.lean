import Xv6.Kernel.Log

/-!
# File-system operations and group commit

`begin_op`, `log_write` and `end_op` of `kernel/log.c`, called by any number `N` of processes. A step
of a process goes up to its next lock operation or, in `commit`, which runs without a lock, up to
its next action on the disk or the cache. `sleep(&log, &log.lock)` is cut where it takes and
releases locks, and `wakeup(&log)` makes one step for each process. A process holds its own
`p->lock` across steps only inside `sleep`, so that lock is not a field of its own; `kill` may
make a sleeping process `RUNNABLE` at any time.

A panic stops the machine.
-/

namespace Xv6.Log

/-- `kernel/param.h`. -/
def MAXOPBLOCKS : Nat := 10

@[inherit_doc MAXOPBLOCKS] def LOGSIZE : Nat := MAXOPBLOCKS * 3

/-- The position of block `b` in `log.lh.block`, or `n` if it is not there. -/
def Header.find (lh : Header) (b : Nat) : Nat :=
  ((List.range lh.n).find? fun i => lh.block i = b).getD lh.n

/-- The loop of `log_write` and the assignments behind it. -/
def Header.absorb (lh : Header) (b : Nat) : Header where
  n := if lh.find b = lh.n then lh.n + 1 else lh.n
  block := upd lh.block (lh.find b) b

/-- Where a process stands. -/
inductive Pc : Type 1 where
  /-- outside of an operation -/
  | idle
  /-- in `begin_op`, before `acquire(&log.lock)`, also of the one at the end of `sleep` -/
  | beginAcquire
  /-- holding `log.lock`, before the tests of the loop -/
  | beginTest
  /-- in `sleep`, holding `log.lock`, before `acquire(&p->lock)` -/
  | sleepLock
  /-- holding both, before `release(&log.lock)` -/
  | sleepUnlock
  /-- holding `p->lock`, before `p->state = SLEEPING; sched()` -/
  | sleepSet
  /-- in `sched`, `SLEEPING` or not any more -/
  | asleep
  /-- between `begin_op` and `end_op` -/
  | inOp
  /-- in `log_write` of block `b`, whose buffer holds `data` -/
  | writeAcquire (b : Nat) (data : Block)
  | writeBody (b : Nat) (data : Block)
  /-- in `end_op` -/
  | endAcquire
  | endBody
  /-- in `wakeup(&log)` at process `i`, holding `log.lock`, which is released after it -/
  | wakeup (i : Nat)
  /-- in `commit`, with the rest of its program -/
  | commit (rest : Prog Store Unit)
  /-- back in `end_op`, before `log.committing = 0` -/
  | clearAcquire
  | clearBody

/-- The process holds `log.lock`. -/
def Pc.holds : Pc → Bool
  | beginTest | sleepLock | sleepUnlock | writeBody _ _ | endBody | wakeup _ | clearBody => true
  | _ => false

/-- The process holds its own `p->lock`. -/
def Pc.holdsOwn : Pc → Bool
  | sleepUnlock | sleepSet => true
  | _ => false

/-- `struct log`, its lock, and the processes. -/
structure State (N : Nat) : Type 1 where
  store : Store
  outstanding : Int
  committing : Bool
  lock : Option (Fin N)
  /-- `p->state` is `SLEEPING` -/
  sleeping : Fin N → Bool
  pc : Fin N → Pc
  panicked : Option String

inductive Input (N : Nat) where
  | beginOp (p : Fin N)
  | logWrite (p : Fin N) (b : Nat) (data : Block)
  | endOp (p : Fin N)
  /-- the next step of process `p` -/
  | step (p : Fin N)
  /-- `kill` wakes process `p` -/
  | kill (p : Fin N)

namespace State

variable {N : Nat}

def goto (s : State N) (p : Fin N) (c : Pc) : State N := { s with pc := upd s.pc p c }

/-- The tests of `begin_op`. -/
def admits (s : State N) : Prop :=
  s.committing = false ∧ ¬ ((s.store.lh.n : Int) + (s.outstanding + 1) * MAXOPBLOCKS > LOGSIZE)

instance (s : State N) : Decidable s.admits := inferInstanceAs (Decidable (_ ∧ _))

/-- The first test of `log_write`. -/
def tooBig (g : Area) (s : State N) : Prop :=
  s.store.lh.n ≥ LOGSIZE ∨ (s.store.lh.n : Int) ≥ (g.size : Int) - 1

instance (g : Area) (s : State N) : Decidable (s.tooBig g) := inferInstanceAs (Decidable (_ ∨ _))

/-- The body of `log_write`, after the caller has stored `data` in the buffer. -/
def logWrite (g : Area) (s : State N) (p : Fin N) (b : Nat) (data : Block) : State N :=
  if s.tooBig g then { s with panicked := some "too big a transaction" }
  else if s.outstanding < 1 then { s with panicked := some "log_write outside of trans" }
  else
    { s with
      store := { s.store with cache := upd s.store.cache b data, lh := s.store.lh.absorb b }
      pc := upd s.pc p .inOp
      lock := none }

/-- The first critical section of `end_op`. -/
def endOp (g : Area) (s : State N) (p : Fin N) : State N :=
  if s.committing then
    { s with outstanding := s.outstanding - 1, panicked := some "log.committing" }
  else if s.outstanding - 1 = 0 then
    { s with
      outstanding := s.outstanding - 1
      committing := true
      pc := upd s.pc p (.commit (Log.commit g))
      lock := none }
  else { s with outstanding := s.outstanding - 1, pc := upd s.pc p (.wakeup 0) }

/-- One round of `wakeup(&log)`, and the `release(&log.lock)` after the last one. -/
def wakeupStep (s : State N) (p : Fin N) (i : Nat) : Option (State N) :=
  if h : i < N then
    let q : Fin N := ⟨i, h⟩
    if q = p then some (s.goto p (.wakeup (i + 1)))
    else if (s.pc q).holdsOwn then none
    else some { s with sleeping := upd s.sleeping q false, pc := upd s.pc p (.wakeup (i + 1)) }
  else some { s with pc := upd s.pc p .idle, lock := none }

/-- The next action of `commit`. -/
def commitStep (s : State N) (p : Fin N) (rest : Prog Store Unit) : Option (State N) :=
  match rest with
  | .ret _ => some (s.goto p .clearAcquire)
  | .act f k =>
    (Prog.step (.act f k) s.store).map fun x =>
      { s with store := x.2, pc := upd s.pc p (.commit x.1) }

/-- `acquire(&log.lock)`. -/
def acquire (s : State N) (p : Fin N) (c : Pc) : Option (State N) :=
  if s.lock = none then some { s with lock := some p, pc := upd s.pc p c } else none

/-- The next step of process `p`. -/
def exec (g : Area) (s : State N) (p : Fin N) : Option (State N) :=
  match s.pc p with
  | .idle | .inOp => none
  | .beginAcquire => s.acquire p .beginTest
  | .beginTest =>
    if s.admits then
      some { s with outstanding := s.outstanding + 1, pc := upd s.pc p .inOp, lock := none }
    else some (s.goto p .sleepLock)
  | .sleepLock => some (s.goto p .sleepUnlock)
  | .sleepUnlock => some { s with pc := upd s.pc p .sleepSet, lock := none }
  | .sleepSet => some { s with pc := upd s.pc p .asleep, sleeping := upd s.sleeping p true }
  | .asleep => if s.sleeping p then none else some (s.goto p .beginAcquire)
  | .writeAcquire b data => s.acquire p (.writeBody b data)
  | .writeBody b data => some (s.logWrite g p b data)
  | .endAcquire => s.acquire p .endBody
  | .endBody => some (s.endOp g p)
  | .wakeup i => s.wakeupStep p i
  | .commit rest => s.commitStep p rest
  | .clearAcquire => s.acquire p .clearBody
  | .clearBody => some { s with committing := false, pc := upd s.pc p (.wakeup 0) }

/-- A call by a process that stands at a point that is `ready` for it. -/
def call (s : State N) (p : Fin N) (ready : Pc → Bool) (c : Pc) : Option (State N) :=
  if ready (s.pc p) then some (s.goto p c) else none

def step (g : Area) (s : State N) (i : Input N) : Option (State N) :=
  if s.panicked.isSome then none
  else
    match i with
    | .beginOp p => s.call p (· matches .idle) .beginAcquire
    | .logWrite p b data => s.call p (· matches .inOp) (.writeAcquire b data)
    | .endOp p => s.call p (· matches .inOp) .endAcquire
    | .step p => s.exec g p
    | .kill p =>
      if (s.pc p).holdsOwn then none else some { s with sleeping := upd s.sleeping p false }

end State

/-- Any number of processes that use the log, after a recovery: the log is empty and nobody is in
    an operation. -/
def logOps (g : Area) (N : Nat) : TransitionSystem (State N) (Input N) where
  init s := s.store.lh.n = 0 ∧ s.store.disk g.start 0 = 0 ∧ s.outstanding = 0 ∧
    s.committing = false ∧ s.lock = none ∧ (∀ p, s.sleeping p = false) ∧ (∀ p, s.pc p = .idle) ∧
    s.panicked = none
  step := State.step g

/-! ## The disk layout -/

/-- The log part of `struct superblock`. -/
structure Superblock where
  nlog : Nat
  logstart : Nat

/-- `main` of `mkfs/mkfs.c`, where `nlog` is `LOGSIZE`. -/
def mkfsSuperblock : Superblock := ⟨LOGSIZE, 2⟩

/-- `initlog`. -/
def initlog (sb : Superblock) (h : 0 < sb.nlog) : Area := ⟨sb.logstart, sb.nlog, h⟩

/-- The log area of an image that `mkfs` wrote. -/
def mkfsArea : Area := initlog mkfsSuperblock (by decide)

end Xv6.Log
