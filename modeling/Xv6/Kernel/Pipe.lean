import Xv6.ForStd.WrapRing
import Xv6.Kernel.Step

/-!
# Pipes

`kernel/pipe.c` with any number of processes that call `pipewrite`, `piperead`, `pipeclose` and `kill`
on one pipe. A step of a call goes up to its next lock operation. `sleep` is cut at all of its lock
operations, since between `release(&pi->lock)` and the store of `SLEEPING` other processes may take the
lock of the pipe. The process table and its updates are those of `Xv6.Kernel.Op`. A process that is
outside of these calls may change its own slot in any way, except that it does not go to sleep on the
channels of the pipe on its own.

What `copyin` and `copyout` do to each byte comes with the call. The bytes that were stored and the
bytes that every read has returned are kept as history, in the order of the lock.
-/

namespace Xv6

namespace Pipes

def PIPESIZE : Nat := 512

/-- `struct pipe` without its lock. -/
structure Pipe where
  data : Nat → UInt8
  nread : BitVec 32
  nwrite : BitVec 32
  readopen : Bool
  writeopen : Bool

namespace Pipe

/-- `pi->nread == pi->nwrite`. -/
def Empty (pi : Pipe) : Prop := pi.nread = pi.nwrite

/-- `pi->nwrite == pi->nread + PIPESIZE`. -/
def Full (pi : Pipe) : Prop := pi.nwrite = pi.nread + BitVec.ofNat 32 PIPESIZE

instance (pi : Pipe) : Decidable pi.Empty := inferInstanceAs (Decidable (_ = _))

instance (pi : Pipe) : Decidable pi.Full := inferInstanceAs (Decidable (_ = _))

/-- `pi->data[pi->nwrite++ % PIPESIZE] = ch`. -/
def put (pi : Pipe) (ch : UInt8) : Pipe :=
  { pi with data := upd pi.data (pi.nwrite.toNat % PIPESIZE) ch, nwrite := pi.nwrite + 1#32 }

/-- `pi->data[pi->nread % PIPESIZE]`. -/
def front (pi : Pipe) : UInt8 := pi.data (pi.nread.toNat % PIPESIZE)

/-- `pi->nread++`. -/
def next (pi : Pipe) : Pipe := { pi with nread := pi.nread + 1#32 }

/-- The loop of `piperead` from byte `i` on, for at most `k` bytes: the bytes that it returns.
    `dst i` says whether `copyout` stores byte `i`; a byte that it refuses is lost. -/
def copy (dst : Nat → Bool) : (k i : Nat) → Pipe → List UInt8 × Pipe
  | 0, _, pi => ([], pi)
  | k + 1, i, pi =>
    if pi.Empty then ([], pi)
    else if dst i then
      let rest := copy dst k (i + 1) pi.next
      (pi.front :: rest.1, rest.2)
    else ([], pi.next)

end Pipe

/-! ## Calls -/

/-- A call of `pipewrite`: `copyin` finds `src i` at `addr + i`. `stored` says that bytes were
    stored since the call took the lock or woke the readers last. -/
structure Write where
  src : Nat → Option UInt8
  n : Int
  i : Nat
  stored : Bool

/-- A call of `piperead`. -/
structure Read where
  dst : Nat → Bool
  n : Int

/-- Where a call of `sleep` stands. -/
inductive SleepPc where
  /-- before `acquire(&p->lock)` -/
  | lock
  /-- before `release(lk)` -/
  | unlock
  /-- before `p->chan = chan; p->state = SLEEPING; sched()` -/
  | set
  /-- in `swtch` -/
  | parked
  /-- `swtch` has returned: before `p->chan = 0; release(&p->lock)` -/
  | wake
deriving DecidableEq

/-- Where a process stands. -/
inductive Pc where
  /-- before `acquire(&pi->lock)`, also the one at the end of `sleep` -/
  | writeAcquire (w : Write)
  /-- at `while(i < n)` -/
  | writeLoop (w : Write)
  /-- the pipe is full: in `wakeup(&pi->nread)` at slot `k` -/
  | writeFull (w : Write) (k : Nat)
  /-- in `sleep(&pi->nwrite, &pi->lock)` -/
  | writeSleep (w : Write) (sp : SleepPc)
  /-- after the loop: in `wakeup(&pi->nread)` at slot `k` -/
  | writeEnd (w : Write) (k : Nat)
  /-- no reader, or killed: before `release(&pi->lock); return -1` -/
  | writeFail (w : Write)
  | readAcquire (r : Read)
  /-- at `while(pi->nread == pi->nwrite && pi->writeopen)` -/
  | readLoop (r : Read)
  /-- in `sleep(&pi->nread, &pi->lock)` -/
  | readSleep (r : Read) (sp : SleepPc)
  /-- `i` bytes are copied: in `wakeup(&pi->nwrite)` at slot `k` -/
  | readEnd (r : Read) (i k : Nat)
  /-- killed: before `release(&pi->lock); return -1` -/
  | readFail
  | closeAcquire (writable : Bool)
  /-- in `wakeup` at slot `k` -/
  | closeEnd (writable : Bool) (k : Nat)
  /-- in `kill(pid)` at slot `k` -/
  | kill (pid : Int) (k : Nat)

structure State where
  mem : Mem
  pipe : Pipe
  /-- the holder of `pi->lock` -/
  lk : Option Slot
  /-- `p->lock` is held -/
  plock : Slot → Bool
  /-- the call that a process is in -/
  pc : Slot → Option Pc
  /-- the bytes that were stored -/
  stored : List UInt8
  /-- the bytes that every read has copied out -/
  reads : List (List UInt8)

inductive Input where
  | write (p : Slot) (src : Nat → Option UInt8) (n : Int)
  | read (p : Slot) (dst : Nat → Bool) (n : Int)
  | close (p : Slot) (writable : Bool)
  | kill (p : Slot) (pid : Int)
  /-- the next step of the call of a process -/
  | step (p : Slot)
  /-- the scheduler releases the lock of a process that has switched away -/
  | switched (p : Slot)
  /-- a scheduler loop switches to a process -/
  | dispatch (p : Slot)
  /-- code outside the model changes the slot of its own process -/
  | other (p : Slot) (x : Proc)

/-- `&pi->nread` for a pipe at address `pi`. -/
def nreadChan (pi : Nat) : Chan := .other (pi + 536)

/-- `&pi->nwrite`. -/
def nwriteChan (pi : Nat) : Chan := .other (pi + 540)

/-- The process is asleep on `ch`. -/
def asleep (ch : Chan) (x : Proc) : Prop := x.state = .sleeping ∧ x.chan = some ch

instance (ch : Chan) (x : Proc) : Decidable (asleep ch x) := inferInstanceAs (Decidable (_ ∧ _))

namespace State

variable (pi : Nat) (s : State) (p : Slot)

def goto (pc : Option Pc) : State := { s with pc := upd s.pc p pc }

/-- One step of `sleep(ch, &pi->lock)`; `at` is the place of the call, `back` the one after it. -/
def sleepStep (ch : Chan) (place : SleepPc → Pc) (back : Pc) : SleepPc → Option State
  | .lock =>
    if s.plock p then none
    else some { s.goto p (some (place .unlock)) with plock := upd s.plock p true }
  | .unlock => some { s.goto p (some (place .set)) with lk := none }
  | .set => some { s.goto p (some (place .parked)) with mem := (Op.sleep p ch).apply s.mem }
  | .parked => none
  | .wake =>
    some
      { s.goto p (some back) with
        mem := (Op.awake p).apply s.mem
        plock := upd s.plock p false }

/-- One round of `wakeup(ch)`; `place` is the place of the call, `done` the state after it. -/
def wakeupStep (ch : Chan) (place : Nat → Pc) (done : State) (k : Nat) : Option State :=
  forSlot k
    (fun q =>
      if q = p then some (s.goto p (some (place (k + 1))))
      else if s.plock q then none
      else
        some
          { s.goto p (some (place (k + 1))) with
            mem := (Op.wakeup (some ch) q).apply s.mem })
    (some done)

/-- `acquire(&pi->lock)`. -/
def acquire (pc : Pc) : Option State :=
  if s.lk = none then some { s.goto p (some pc) with lk := some p } else none

/-- `release(&pi->lock)` and the return of the call. -/
def release : State := { s.goto p none with lk := none }

/-- The body of `while(i < n)` in `pipewrite`. -/
def writeLoop (w : Write) : State :=
  if (w.i : Int) < w.n then
    if s.pipe.readopen = false ∨ (s.mem.proc p).killed = true then s.goto p (some (.writeFail w))
    else if s.pipe.Full then s.goto p (some (.writeFull w 0))
    else
      match w.src w.i with
      | none => s.goto p (some (.writeEnd w 0))
      | some ch =>
        { s.goto p (some (.writeLoop { w with i := w.i + 1, stored := true })) with
          pipe := s.pipe.put ch
          stored := s.stored ++ [ch] }
  else s.goto p (some (.writeEnd w 0))

/-- The test of the `while` in `piperead` and, when it is left, the loop that copies. -/
def readLoop (r : Read) : State :=
  if s.pipe.Empty ∧ s.pipe.writeopen = true then
    if (s.mem.proc p).killed = true then s.goto p (some .readFail)
    else s.goto p (some (.readSleep r .lock))
  else
    let got := s.pipe.copy r.dst r.n.toNat 0
    { s.goto p (some (.readEnd r got.1.length 0)) with
      pipe := got.2
      reads := s.reads ++ [got.1] }

/-- `pipeclose` up to its `wakeup`. -/
def close (writable : Bool) : State :=
  { s.goto p (some (.closeEnd writable 0)) with
    lk := some p
    pipe :=
      if writable then { s.pipe with writeopen := false } else { s.pipe with readopen := false } }

/-- One round of `kill(pid)`. -/
def killStep (pid : Int) (k : Nat) : Option State :=
  forSlot k
    (fun q =>
      if s.plock q then none
      else if (s.mem.proc q).pid = pid then
        some { s.goto p none with mem := (Op.kill q pid).apply s.mem }
      else some (s.goto p (some (.kill pid (k + 1)))))
    (some (s.goto p none))

/-- The next step of a call. -/
def exec : Pc → Option State
  | .writeAcquire w => s.acquire p (.writeLoop w)
  | .writeLoop w => some (s.writeLoop p w)
  | .writeFull w k =>
    s.wakeupStep p (nreadChan pi) (.writeFull w)
      (s.goto p (some (.writeSleep { w with stored := false } .lock))) k
  | .writeSleep w sp => s.sleepStep p (nwriteChan pi) (.writeSleep w) (.writeAcquire w) sp
  | .writeEnd w k => s.wakeupStep p (nreadChan pi) (.writeEnd w) (s.release p) k
  | .writeFail _ => some (s.release p)
  | .readAcquire r => s.acquire p (.readLoop r)
  | .readLoop r => some (s.readLoop p r)
  | .readSleep r sp => s.sleepStep p (nreadChan pi) (.readSleep r) (.readAcquire r) sp
  | .readEnd r i k => s.wakeupStep p (nwriteChan pi) (.readEnd r i) (s.release p) k
  | .readFail => some (s.release p)
  | .closeAcquire writable => if s.lk = none then some (s.close p writable) else none
  | .closeEnd writable k =>
    s.wakeupStep p (if writable then nreadChan pi else nwriteChan pi) (.closeEnd writable)
      (s.release p) k
  | .kill pid k => s.killStep p pid k

/-- Process `p` runs outside of these calls. -/
def ready : Prop := s.pc p = none ∧ (s.mem.proc p).state = .running ∧ s.plock p = false

instance : Decidable (s.ready p) := inferInstanceAs (Decidable (_ ∧ _ ∧ _))

/-- Process `p` makes a call. -/
def call (pc : Pc) : Option State := if s.ready p then some (s.goto p (some pc)) else none

/-- The process has switched away in `sleep`. -/
def parked (pc : Option Pc) : Bool :=
  match pc with
  | some (.writeSleep _ .parked) | some (.readSleep _ .parked) => true
  | _ => false

/-- The place where `swtch` returns to. -/
def unpark : Pc → Pc
  | .writeSleep w _ => .writeSleep w .wake
  | .readSleep r _ => .readSleep r .wake
  | pc => pc

def step : Input → Option State
  | .write p src n => s.call p (.writeAcquire ⟨src, n, 0, false⟩)
  | .read p dst n => s.call p (.readAcquire ⟨dst, n⟩)
  | .close p writable => s.call p (.closeAcquire writable)
  | .kill p pid => s.call p (.kill pid 0)
  | .step p => (s.pc p).bind (s.exec pi p)
  | .switched p =>
    if parked (s.pc p) ∧ s.plock p = true ∧ (s.mem.proc p).state ≠ .running then
      some { s with plock := upd s.plock p false }
    else none
  | .dispatch p =>
    if parked (s.pc p) ∧ s.plock p = false ∧ (s.mem.proc p).state = .runnable then
      some
        { s.goto p ((s.pc p).map unpark) with
          mem := (Op.dispatch p).apply s.mem
          plock := upd s.plock p true }
    else none
  | .other p x =>
    if s.pc p = none ∧ s.plock p = false ∧ ¬ asleep (nreadChan pi) x ∧ ¬ asleep (nwriteChan pi) x then
      some { s with mem := { s.mem with proc := upd s.mem.proc p x } }
    else none

end State

end Pipes

/-- The users of the pipe at address `pi`, which `pipealloc` has just made. -/
def pipe (pi : Nat) : TransitionSystem Pipes.State Pipes.Input where
  init s := s.lk = none ∧ (∀ p, s.plock p = false) ∧ (∀ p, s.pc p = none) ∧
    (∀ p, ¬ Pipes.asleep (Pipes.nreadChan pi) (s.mem.proc p) ∧
      ¬ Pipes.asleep (Pipes.nwriteChan pi) (s.mem.proc p)) ∧
    s.pipe.nread = 0 ∧ s.pipe.nwrite = 0 ∧ s.pipe.readopen = true ∧ s.pipe.writeopen = true ∧
    s.stored = [] ∧ s.reads = []
  step s := s.step pi

end Xv6
