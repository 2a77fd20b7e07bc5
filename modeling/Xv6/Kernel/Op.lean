import Xv6.Kernel.State
import Xv6.ForStd.Update

/-!
# Updates of the shared memory

Every step changes the shared memory by one `Op`: what the code of the source writes
to the process table and to `nextpid`, `policy` and `ticks` between two lock
operations. All operations but `setPolicy` and `tick` write a single slot.
-/

namespace Xv6

/-- The writes of one step. -/
inductive Op where
  | skip
  /-- `allocproc`: `p->pid = allocpid(); p->state = USED` -/
  | alloc (np : Slot)
  | setTrapframe (np : Slot) (a : Nat)
  /-- `allocproc` from `p->pagetable = …` to its end -/
  | setPagetable (np : Slot) (a : Nat)
  /-- `freeproc(np)` on a failure path of `fork` -/
  | free (np : Slot)
  /-- `fork`: size, open files and directory of `p` for `np` -/
  | copy (p np : Slot)
  /-- `fork`: `np->parent = p` -/
  | setParent (p np : Slot)
  /-- `fork`: `np->cfs_priority = parent->cfs_priority; np->state = RUNNABLE` -/
  | setRunnable (parent np : Slot)
  /-- a scheduler loop: `p->state = RUNNING` -/
  | dispatch (p : Slot)
  /-- `yield`: `p->state = RUNNABLE` -/
  | yield (p : Slot)
  /-- `sleep`: `p->chan = chan; p->state = SLEEPING` -/
  | sleep (p : Slot) (ch : Chan)
  /-- `sleep`: `p->chan = 0` -/
  | awake (p : Slot)
  /-- one round of `wakeup(ch)` -/
  | wakeup (ch : Option Chan) (q : Slot)
  /-- `kill(pid)` when it finds its slot -/
  | kill (q : Slot) (pid : Int)
  | setkilled (p : Slot)
  /-- `exit`: the store of the exit message; `st` is the argument `status` -/
  | exitMsg (p : Slot) (st : Int) (msg : List UInt8)
  /-- `exit`: `p->ofile[fd] = 0` -/
  | closeFd (p : Slot) (fd : Fin NOFILE)
  /-- `exit`: `p->cwd = 0` -/
  | clearCwd (p : Slot)
  /-- `reparent`: `pp->parent = initproc` -/
  | reparent (p pp : Slot)
  /-- `exit`: `p->xstate = status; p->state = ZOMBIE` -/
  | zombie (p : Slot) (st : Int)
  /-- `wait` by `p` copies the message of its child `pp` to `addr2` and goes on -/
  | copyMsg (p pp : Slot) (addr2 : Nat)
  /-- `wait` by `p` copies out message and status of `pp` and calls `freeproc(pp)` -/
  | reap (p pp : Slot) (addr addr2 : Nat)
  /-- `p->accumulator = p->accumulator + p->ps_priority` -/
  | accumulate (p : Slot)
  | setPsPriority (p : Slot) (k : Int)
  | setCfsPriority (p : Slot) (k : Int)
  /-- `update_ticks`: the unlocked `if(p->state == SLEEPING)` -/
  | chargeSleep (q : Slot)
  /-- `update_ticks`: the two tests under `p->lock` -/
  | charge (q : Slot)
  /-- `clockintr`: `ticks++` -/
  | tick
  | setPolicy (k : Int)
  | setFd (p : Slot) (fd : Fin NOFILE) (v : Nat)
  | setCwd (p : Slot) (v : Nat)
  | setMem (p : Slot) (sz pagetable : Nat)

namespace Op

/-- The slot an operation writes. -/
def target : Op → Option Slot
  | alloc p | setTrapframe p _ | setPagetable p _ | free p | copy _ p | setParent _ p
  | setRunnable _ p | dispatch p | yield p | sleep p _ | awake p | wakeup _ p | kill p _
  | setkilled p | exitMsg p _ _ | closeFd p _ | clearCwd p | reparent _ p | zombie p _
  | reap _ p _ _ | accumulate p | setPsPriority p _ | setCfsPriority p _ | chargeSleep p
  | charge p | setFd p _ _ | setCwd p _ | setMem p _ _ => some p
  | skip | copyMsg _ _ _ | tick | setPolicy _ => none

/-- What an operation makes of the slot `x` it writes. -/
def write (m : Mem) (x : Proc) : Op → Proc
  | alloc _ => { x with pid := m.nextpid, state := .used }
  | setTrapframe _ a => { x with trapframe := a }
  | setPagetable _ a =>
    { x with
      pagetable := a
      psPriority := 0
      cfsPriority := 1
      rtime := 0
      retime := 0
      stime := 0 }
  | free _ | reap _ _ _ _ => freeproc x
  | copy p _ =>
    { x with
      sz := (m.proc p).sz
      ofile := fun fd => if (m.proc p).ofile fd ≠ 0 then (m.proc p).ofile fd else x.ofile fd
      cwd := (m.proc p).cwd }
  | setParent p _ => { x with parent := some p }
  | setRunnable parent _ =>
    { x with cfsPriority := (m.proc parent).cfsPriority, state := .runnable }
  | dispatch _ => { x with state := .running }
  | yield _ => { x with state := .runnable }
  | sleep _ ch => { x with chan := some ch, state := .sleeping }
  | awake _ => { x with chan := none }
  | wakeup ch _ =>
    { x with state := if x.state = .sleeping ∧ x.chan = ch then .runnable else x.state }
  | kill _ _ =>
    { x with killed := true, state := if x.state = .sleeping then .runnable else x.state }
  | setkilled _ => { x with killed := true }
  | exitMsg _ _ msg => { x with exitMsg := x.exitMsg.store msg }
  | closeFd _ fd => { x with ofile := upd x.ofile fd 0 }
  | clearCwd _ => { x with cwd := 0 }
  | reparent _ _ => { x with parent := some m.initproc }
  | zombie _ st => { x with xstate := st, state := .zombie }
  | accumulate _ => { x with accumulator := toLong (x.accumulator + x.psPriority) }
  | setPsPriority _ k => { x with psPriority := k }
  | setCfsPriority _ k => { x with cfsPriority := k }
  | chargeSleep _ =>
    { x with stime := if x.state = .sleeping then toLong (x.stime + 1) else x.stime }
  | charge _ =>
    { x with
      retime := if x.state = .runnable then toLong (x.retime + 1) else x.retime
      rtime := if x.state = .running then toLong (x.rtime + 1) else x.rtime }
  | setFd _ fd v => { x with ofile := upd x.ofile fd v }
  | setCwd _ v => { x with cwd := v }
  | setMem _ sz pt => { x with sz := sz, pagetable := pt }
  | skip | copyMsg _ _ _ | tick | setPolicy _ => x

/-- `nextpid` after an operation: `allocpid` takes the next one. -/
def nextpid (m : Mem) : Op → Int
  | alloc _ => toInt (m.nextpid + 1)
  | _ => m.nextpid

/-- `policy` after an operation. -/
def policy (m : Mem) : Op → Int
  | setPolicy k => k
  | _ => m.policy

/-- `ticks` (a 32-bit `uint`) after an operation. -/
def ticks (m : Mem) : Op → Nat
  | tick => (m.ticks + 1) % 2 ^ 32
  | _ => m.ticks

/-- The effect of an operation on the shared memory. -/
def apply (op : Op) (m : Mem) : Mem where
  proc :=
    match op.target with
    | none => m.proc
    | some p => upd m.proc p (op.write m (m.proc p))
  initproc := m.initproc
  nextpid := op.nextpid m
  policy := op.policy m
  ticks := op.ticks m

@[simp] theorem apply_policy (op : Op) (m : Mem) : (op.apply m).policy = op.policy m := rfl

/-- An operation leaves every slot but its target alone. -/
theorem apply_proc_of_ne (op : Op) (m : Mem) {q : Slot} (h : op.target ≠ some q) :
    (op.apply m).proc q = m.proc q := by
  cases ht : op.target with
  | none => simp [apply, ht]
  | some p =>
    have hne : q ≠ p := fun hq => h (by rw [ht, hq])
    simp [apply, ht, hne]

theorem apply_proc_other (op : Op) (m : Mem) {p q : Slot} (ht : op.target = some p) (h : q ≠ p) :
    (op.apply m).proc q = m.proc q :=
  op.apply_proc_of_ne m fun hq => h (Option.some.inj (hq.symm.trans ht))

theorem apply_proc_target (op : Op) (m : Mem) {q : Slot} (h : op.target = some q) :
    (op.apply m).proc q = op.write m (m.proc q) := by
  simp [apply, h]

end Op

end Xv6
