import Xv6.Kernel.Bcache

/-!
# The log on top of the buffer cache

`begin_op`, `log_write` and `end_op` of `kernel/log.c` once more, this time with the buffers that they
pin and unpin and that `commit` gets and releases. Any number `N` of processes call `bread`, store into
the buffers they hold, and call `log_write`, `bwrite` and `brelse`, inside and outside of operations;
all on the device `log.dev`, which is `ROOTDEV`. What is done under `log.lock` is one step. A process
that would sleep in `begin_op` has no step until it is admitted; the sleeping itself is modelled in
`Xv6.Kernel.LogOps`.

`commit` runs without a lock. It makes one call of `kernel/bio.c` at a time, and the other processes go
on between them. The two loops of `write_log` and `install_trans` have one shape: they read the log block
and the home block of an entry, copy the source to the destination, write the destination and
release the source first. `install_trans` also unpins its destination.
-/

namespace Xv6.CachedLog

open Bcache (BufPtr ROOTDEV)
open Log

/-- Which of the two loops of `commit`, or which of its calls of `write_head`. -/
inductive Phase where
  /-- `write_log`, and the `write_head` behind it -/
  | log
  /-- `install_trans`, and the `write_head` that erases the transaction -/
  | install
deriving DecidableEq, Repr

/-- The buffer that is copied, of the log block `x` and the home block `y`. -/
def Phase.src (ph : Phase) (x y : BufPtr) : BufPtr :=
  match ph with
  | log => y
  | install => x

/-- The buffer that is copied to. -/
def Phase.dst (ph : Phase) (x y : BufPtr) : BufPtr :=
  match ph with
  | log => x
  | install => y

/-- What a process in `commit` does next; `tail` is the variable of the loops. -/
inductive CommitPc where
  /-- the test of the loop, and `bread` of the log block -/
  | readLog (ph : Phase) (tail : Nat)
  /-- `bread` of the home block -/
  | readHome (ph : Phase) (tail : Nat)
  /-- `memmove`; `x` is the buffer of the log block -/
  | copy (ph : Phase) (tail : Nat) (x : BufPtr)
  /-- `bwrite` of the destination; `y` is the buffer of the home block -/
  | write (ph : Phase) (tail : Nat) (x y : BufPtr)
  /-- `bunpin(dbuf)` -/
  | unpin (tail : Nat) (x y : BufPtr)
  | relseSrc (ph : Phase) (tail : Nat) (x y : BufPtr)
  | relseDst (ph : Phase) (tail : Nat) (x y : BufPtr)
  /-- in `write_head` -/
  | headRead (ph : Phase)
  | headFill (ph : Phase)
  | headWrite (ph : Phase) (b : BufPtr)
  | headRelse (ph : Phase) (b : BufPtr)
  /-- `log.lh.n = 0` -/
  | clear
  /-- back in `end_op`, before `log.committing = 0` -/
  | done
deriving DecidableEq, Repr

/-- Where a process stands with respect to the log. -/
inductive Mode where
  | outside
  /-- between `begin_op` and `end_op` -/
  | inOp
  | commit (c : CommitPc)
deriving DecidableEq, Repr

def Mode.commits : Mode → Bool
  | commit _ => true
  | _ => false

/-- `struct log` and the processes, on top of the buffer cache `io`. -/
structure State (N : Nat) where
  io : Bcache.State N
  lh : Header
  outstanding : Nat
  committing : Bool
  mode : Fin N → Mode

inductive Input (N : Nat) where
  | beginOp (p : Fin N)
  | endOp (p : Fin N)
  | bread (p : Fin N) (k : Nat)
  /-- process `p` stores into `b->data`, which then holds `data` -/
  | store (p : Fin N) (b : BufPtr) (data : Block)
  | logWrite (p : Fin N) (b : BufPtr)
  | bwrite (p : Fin N) (b : BufPtr)
  | brelse (p : Fin N) (b : BufPtr)
  /-- the next step of process `p` inside `bread`, `brelse` or `commit` -/
  | step (p : Fin N)

def Input.process {N : Nat} : Input N → Fin N
  | beginOp p | endOp p | bread p _ | store p _ _ | logWrite p _ | bwrite p _ | brelse p _ | step p => p

namespace State

variable {N : Nat}

def goto (s : State N) (p : Fin N) (m : Mode) : State N := { s with mode := upd s.mode p m }

def stop (s : State N) (msg : String) : State N := { s with io := s.io.stop msg }

/-- The buffer that `bread` has returned to process `p`. -/
def ret (s : State N) (p : Fin N) : Option BufPtr :=
  match s.io.pc p with
  | .ret b => some b
  | _ => none

/-- The tests of `begin_op`. -/
def admits (s : State N) : Prop :=
  s.committing = false ∧ ¬ s.lh.n + (s.outstanding + 1) * MAXOPBLOCKS > LOGSIZE

instance (s : State N) : Decidable s.admits := inferInstanceAs (Decidable (_ ∧ _))

/-- The first test of `log_write`. -/
def tooBig (g : Area) (s : State N) : Prop :=
  s.lh.n ≥ LOGSIZE ∨ (s.lh.n : Int) ≥ (g.size : Int) - 1

instance (g : Area) (s : State N) : Decidable (s.tooBig g) := inferInstanceAs (Decidable (_ ∨ _))

/-- The critical section of `end_op`, and the test of `commit`. -/
def endOp (s : State N) (p : Fin N) : State N :=
  if s.committing then { s with outstanding := s.outstanding - 1 }.stop "log.committing"
  else if s.outstanding - 1 = 0 then
    { s with
      outstanding := s.outstanding - 1
      committing := true
      mode := upd s.mode p (.commit (if 0 < s.lh.n then .readLog .log 0 else .done)) }
  else { s with outstanding := s.outstanding - 1, mode := upd s.mode p .outside }

/-- `log_write`: the call of `bpin` that it makes, and what it leaves in the log. -/
def logWrite (g : Area) (s : State N) (p : Fin N) (b : BufPtr) :
    Option (Bcache.Input N) × State N :=
  let k := (s.io.buf b).blockno
  if s.tooBig g then (none, s.stop "too big a transaction")
  else if s.outstanding < 1 then (none, s.stop "log_write outside of trans")
  else (if s.lh.find k = s.lh.n then some (.bpin p b) else none, { s with lh := s.lh.absorb k })

/-- A call of `kernel/bio.c` by a process in `commit`, which then stands at `c`. -/
def calls (s : State N) (p : Fin N) (i : Bcache.Input N) (c : CommitPc) :
    Option (Bcache.Input N) × State N :=
  (some i, s.goto p (.commit c))

/-- The next action of a process in `commit`: its call of `kernel/bio.c`, and the log behind it. -/
def commitPlan (g : Area) (s : State N) (p : Fin N) :
    CommitPc → Option (Option (Bcache.Input N) × State N)
  | .readLog ph tail =>
    if tail < s.lh.n then
      some (s.calls p (.bread p ROOTDEV (g.start + tail + 1)) (.readHome ph tail))
    else
      some (none, s.goto p (.commit (match ph with | .log => .headRead .log | .install => .clear)))
  | .readHome ph tail =>
    (s.ret p).map fun x => s.calls p (.bread p ROOTDEV (s.lh.block tail)) (.copy ph tail x)
  | .copy ph tail x =>
    (s.ret p).map fun y =>
      s.calls p (.store p (ph.dst x y) (s.io.buf (ph.src x y)).data) (.write ph tail x y)
  | .write ph tail x y =>
    some (s.calls p (.bwrite p (ph.dst x y))
      (match ph with | .log => .relseSrc .log tail x y | .install => .unpin tail x y))
  | .unpin tail x y => some (s.calls p (.bunpin p y) (.relseSrc .install tail x y))
  | .relseSrc ph tail x y => some (s.calls p (.brelse p (ph.src x y)) (.relseDst ph tail x y))
  | .relseDst ph tail x y => some (s.calls p (.brelse p (ph.dst x y)) (.readLog ph (tail + 1)))
  | .headRead ph => some (s.calls p (.bread p ROOTDEV g.start) (.headFill ph))
  | .headFill ph =>
    (s.ret p).map fun b =>
      s.calls p (.store p b (s.lh.encode (s.io.buf b).data)) (.headWrite ph b)
  | .headWrite ph b => some (s.calls p (.bwrite p b) (.headRelse ph b))
  | .headRelse ph b =>
    some (s.calls p (.brelse p b)
      (match ph with | .log => .readLog .install 0 | .install => .done))
  | .clear =>
    some (none, { s with lh := { s.lh with n := 0 } }.goto p (.commit (.headRead .install)))
  | .done => some (none, { s with committing := false }.goto p .outside)

/-- The calls that processes make outside of `commit`. -/
def client (g : Area) (s : State N) : Input N → Option (Option (Bcache.Input N) × State N)
  | .beginOp p =>
    if s.mode p = .outside ∧ s.admits then
      some (none, { s with outstanding := s.outstanding + 1, mode := upd s.mode p .inOp })
    else none
  | .endOp p => if s.mode p = .inOp then some (none, s.endOp p) else none
  | .bread p k => some (some (.bread p ROOTDEV k), s)
  | .store p b data => some (some (.store p b data), s)
  | .logWrite p b => some (s.logWrite g p b)
  | .bwrite p b => some (some (.bwrite p b), s)
  | .brelse p b => some (some (.brelse p b), s)
  | .step _ => none

/-- What a process does on an input: its call of `kernel/bio.c`, if there is one, and the log after
    the step. -/
def plan (g : Area) (s : State N) (i : Input N) : Option (Option (Bcache.Input N) × State N) :=
  match i with
  | .step p =>
    if (s.io.pc p).ready then
      match s.mode p with
      | .commit c => s.commitPlan g p c
      | _ => none
    else some (some (.step p), s)
  | i =>
    if (s.io.pc i.process).ready = true ∧ (s.mode i.process).commits = false then s.client g i
    else none

def step (g : Area) (s : State N) (i : Input N) : Option (State N) :=
  if s.io.panicked.isSome then none
  else
    match s.plan g i with
    | none => none
    | some (none, t) => some t
    | some (some j, t) => (s.io.step j).map fun io => { t with io := io }

end State

/-- After a recovery: the log is empty and nobody is in an operation. -/
def State.boot (N : Nat) (links : Links Bcache.Node) (disk : Nat → Block) (lh : Header) : State N where
  io := .boot N links disk
  lh := { lh with n := 0 }
  outstanding := 0
  committing := false
  mode _ := .outside

/-- Any number of processes that use the log and the cache on a disk. -/
def cachedLog (g : Area) (N : Nat) (disk : Nat → Block) : TransitionSystem (State N) (Input N) where
  init s := ∃ links lh, s = .boot N links disk lh
  step := State.step g

end Xv6.CachedLog
