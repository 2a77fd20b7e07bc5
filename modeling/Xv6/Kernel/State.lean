import Xv6.Kernel.Proc

/-!
# Kernel threads, locks and the machine state

The kernel runs on any number of harts. Every process has a kernel thread and every
hart has a scheduler thread, which runs on the hart's boot stack. A thread is
modelled by its call stack: a list of `Frame`s, innermost first. A frame names a
function of the source together with the point where that activation stands and its
local variables; a process in user mode has the empty stack.

A step of a hart executes the code of its innermost frame up to the next lock
operation. A critical section that takes no second lock (`killed`, one round of
`wakeup`, one round of `kill`, …) is one step that needs the lock to be free; a lock
that stays held across steps is recorded in `State.lock`, and `Frame.held` says which
locks a frame holds. Three loops are kept in the frame of their caller: the minimum
scans in the frame of the scheduler loop, and the `wakeup` calls of `exit` and
`clockintr` in theirs.
-/

namespace Xv6

/-- The locks that stay held across steps: `p->lock`, `wait_lock`, `tickslock`. -/
inductive Lock where
  | proc (p : Slot)
  | wait
  | ticks
deriving Repr

/-- Distinct numbers for the locks; equality of locks is decided on them. -/
def Lock.code : Lock → Nat
  | proc p => p
  | wait => NPROC
  | ticks => NPROC + 1

theorem Lock.code_inj {a b : Lock} : a.code = b.code ↔ a = b := by
  cases a <;> cases b <;> simp [code, Fin.ext_iff] <;> omega

instance : DecidableEq Lock := fun _ _ => decidable_of_iff _ Lock.code_inj

/-- `scheduler_old`, `schedulerPriority` and `schedulerCFS`. -/
inductive Loop where
  | old
  | priority
  | cfs
deriving DecidableEq, Repr

/-- Where an activation of a scheduler loop stands. `m` is the variable `minimum`. -/
inductive LoopPc where
  /-- computing `minimum` before the loop, at slot `i` -/
  | enter (i : Nat) (m : Int)
  /-- before `c->proc = 0` and the first round -/
  | start (m : Int)
  /-- before `acquire(&p->lock)` -/
  | visit (p : Slot) (m : Int)
  /-- where `swtch(&c->context, &p->context)` returns to -/
  | back (p : Slot)
  /-- recomputing `minimum` after the round of `p`, at slot `i` -/
  | rescan (p : Slot) (i : Nat) (m : Int)
  /-- before the tests of `policy` at the end of the round -/
  | test (p : Slot) (m : Int)

/-- What brought a process into `usertrap`; `which_dev` is 0, 0, 1 and 2. -/
inductive Trap where
  | syscall
  | fault
  | device
  | timer

/-- The system calls that work on the process table, with their arguments. `exit` gets the
    bytes that `argstr` copied from user memory and what the buffer held before. -/
inductive Syscall where
  | fork
  | exit (n : Int) (copied : List UInt8) (stack : ExitMsg)
  | wait (addr addr2 : Nat)
  | kill (pid : Int)
  | sleep (n : Int)
  | setPsPriority (priority : Int)
  | setCfsPriority (priority : Int)
  | setPolicy (policy : Int)
  /-- any system call that touches only the caller's own files, directory or memory -/
  | other

/-- Where `usertrap` stands. -/
inductive UsertrapPc where
  /-- before `if(killed(p)) exit(-1, "")` on the system call path -/
  | syscall (sc : Syscall)
  /-- before `setkilled(p)` -/
  | setkilled
  /-- before the second `if(killed(p)) exit(-1, "")` -/
  | killed (t : Trap)
  /-- before `update_ticks()` -/
  | update
  /-- before `p->accumulator = p->accumulator + p->ps_priority` -/
  | accumulate
  /-- before `usertrapret()` -/
  | ret

/-- Where `kerneltrap` stands. -/
inductive KerneltrapPc where
  /-- before `update_ticks()` -/
  | update
  /-- before the test whether to yield -/
  | yield
  | ret

/-- Where `clockintr` stands. -/
inductive ClockPc where
  | acquire
  /-- in `wakeup(&ticks)`, at slot `i` -/
  | wakeup (i : Nat)

/-- Where `yield` stands. -/
inductive YieldPc where
  | acquire
  /-- in `sched`, before `swtch` -/
  | swtch
  /-- `swtch` has returned -/
  | release

/-- Where `sleep` stands. Its last line, `acquire(lk)`, is the next step of the caller. -/
inductive SleepPc where
  | acquire
  /-- holding both `lk` and `p->lock` -/
  | locked
  /-- in `sched`, before `swtch` -/
  | swtch
  /-- `swtch` has returned -/
  | wake

/-- Where `fork` stands. `np` is the new slot and `pid` the local variable. -/
inductive ForkPc where
  /-- in `allocproc`, before `acquire(&p->lock)` of slot `i` -/
  | alloc (i : Nat)
  /-- in `allocproc`, at `found` -/
  | found (np : Slot)
  /-- in `allocproc`, before the `kalloc` of the trapframe -/
  | trapframe (np : Slot)
  /-- in `allocproc`, before `proc_pagetable` -/
  | pagetable (np : Slot)
  /-- before `uvmcopy` -/
  | copy (np : Slot)
  /-- before `np->parent = p` -/
  | setParent (np : Slot) (pid : Int)
  /-- before the second `acquire(&np->lock)` -/
  | relock (np : Slot) (pid : Int)
  /-- holding `np->lock`, before `acquire(&parent->lock)` -/
  | runnable (np : Slot) (pid : Int)

/-- Where `exit` stands. `st` is the argument `status`. -/
inductive ExitPc where
  | entry (st : Int) (msg : List UInt8)
  | close (st : Int) (fd : Nat)
  /-- `fileclose(f)` has returned -/
  | closed (st : Int) (fd : Fin NOFILE)
  /-- `iput(p->cwd)` has returned -/
  | iput (st : Int)
  | acquire (st : Int)
  /-- in `reparent`, at slot `i` -/
  | reparent (st : Int) (i : Nat)
  /-- in `reparent`, in `wakeup(initproc)` at slot `j` -/
  | reparentWake (st : Int) (i j : Nat)
  /-- in `wakeup(p->parent)`, at slot `j` -/
  | wakeParent (st : Int) (ch : Option Slot) (j : Nat)
  /-- before `acquire(&p->lock)` -/
  | lock (st : Int)
  /-- holding `wait_lock` and `p->lock` -/
  | zombie (st : Int)
  /-- in `sched`, before `swtch` -/
  | swtch
  /-- `swtch` has returned -/
  | dead

/-- Where `wait` stands. -/
inductive WaitPc where
  | acquire
  /-- at slot `i` of the scan -/
  | scan (i : Nat) (havekids : Bool)
  /-- before `if(!havekids || killed(p))` -/
  | check (havekids : Bool)

/-- Where `sys_sleep` stands. -/
inductive SysSleepPc where
  | acquire
  | test (ticks0 : Nat)
  /-- before `killed(myproc())` -/
  | killed (ticks0 : Nat)
  /-- the `acquire(lk)` at the end of `sleep` -/
  | reacquire (ticks0 : Nat)

/-- One activation of a kernel function. -/
inductive Frame where
  /-- `main`, about to call `scheduler` -/
  | main
  | scheduler (l : Loop) (pc : LoopPc)
  | kerneltrap (pc : KerneltrapPc)
  | usertrap (pc : UsertrapPc)
  | clockintr (pc : ClockPc)
  /-- `update_ticks` at slot `i`, before the unlocked test or before `acquire(&p->lock)` -/
  | updateTicks (i : Nat) (locked : Bool)
  /-- `wakeup(chan)` at slot `i`, called without a lock that matters here -/
  | wakeup (chan : Option Chan) (i : Nat)
  | yield (pc : YieldPc)
  | sleep (chan : Chan) (lk : Option Lock) (pc : SleepPc)
  | fork (pc : ForkPc)
  | exit (pc : ExitPc)
  | wait (addr addr2 : Nat) (pc : WaitPc)
  | kill (pid : Int) (i : Nat)
  | sysSleep (n : Int) (pc : SysSleepPc)
  | setPsPriority (priority : Int)
  | setCfsPriority (priority : Int)
  | setPolicy (policy : Int)
  | forkret
  /-- file-system and driver code, which may sleep and wake other processes -/
  | fs
  /-- a system call outside the process subsystem -/
  | other
  /-- `panic` never returns -/
  | panic

/-- The innermost frame is one of the stack. -/
theorem mem_of_eq_cons {f : Frame} {stk rest : List Frame} (h : stk = f :: rest) : f ∈ stk := by
  rw [h]
  exact List.mem_cons_self

/-- A kernel thread: the scheduler of a hart or the kernel side of a process. -/
inductive Thread (n : Nat) where
  | sched (c : Fin n)
  | proc (p : Slot)

/-- Distinct numbers for the threads; equality of threads is decided on them. -/
def Thread.code {n : Nat} : Thread n → Nat
  | proc p => p
  | sched c => NPROC + c

theorem Thread.code_inj {n : Nat} {a b : Thread n} : a.code = b.code ↔ a = b := by
  cases a <;> cases b <;> simp [code, Fin.ext_iff] <;> omega

instance {n : Nat} : DecidableEq (Thread n) := fun _ _ => decidable_of_iff _ Thread.code_inj

/-- The globals that the process subsystem shares between harts. -/
structure Mem where
  proc : Slot → Proc
  initproc : Slot
  nextpid : Int
  policy : Int
  ticks : Nat

/-- The machine: shared memory, lock holders, `c->proc`, and the kernel threads. -/
structure State (n : Nat) where
  mem : Mem
  lock : Lock → Option (Fin n)
  proc : Fin n → Option Slot
  running : Fin n → Thread n
  stack : Thread n → List Frame

/-- The call stack a hart is executing on. -/
def State.cur {n : Nat} (s : State n) (c : Fin n) : List Frame := s.stack (s.running c)

/-! ## Locks held by a frame -/

/-- The own `p->lock` of a process thread. -/
def Thread.ownLock {n : Nat} : Thread n → List Lock
  | .sched _ => []
  | .proc p => [.proc p]

def LoopPc.held : LoopPc → List Lock
  | back p => [.proc p]
  | enter _ _ | start _ | visit _ _ | rescan _ _ _ | test _ _ => []

def ClockPc.held : ClockPc → List Lock
  | acquire => []
  | wakeup _ => [.ticks]

def YieldPc.held (own : List Lock) : YieldPc → List Lock
  | acquire => []
  | swtch | release => own

def SleepPc.held (own : List Lock) (lk : Option Lock) : SleepPc → List Lock
  | acquire => lk.toList
  | locked => lk.toList ++ own
  | swtch | wake => own

def ForkPc.held : ForkPc → List Lock
  | found np | trapframe np | pagetable np | copy np | runnable np _ => [.proc np]
  | alloc _ | setParent _ _ | relock _ _ => []

def ExitPc.held (own : List Lock) : ExitPc → List Lock
  | entry _ _ | close _ _ | closed _ _ | iput _ | acquire _ => []
  | reparent _ _ | reparentWake _ _ _ | wakeParent _ _ _ | lock _ => [.wait]
  | zombie _ => .wait :: own
  | swtch | dead => own

def WaitPc.held : WaitPc → List Lock
  | acquire => []
  | scan _ _ | check _ => [.wait]

def SysSleepPc.held : SysSleepPc → List Lock
  | acquire | reacquire _ => []
  | test _ | killed _ => [.ticks]

/-- The locks a frame of thread `t` holds while it is innermost on a running stack. -/
def Frame.held {n : Nat} (t : Thread n) : Frame → List Lock
  | scheduler _ pc => pc.held
  | clockintr pc => pc.held
  | yield pc => pc.held t.ownLock
  | sleep _ lk pc => pc.held t.ownLock lk
  | fork pc => pc.held
  | exit pc => pc.held t.ownLock
  | wait _ _ pc => pc.held
  | sysSleep _ pc => pc.held
  | forkret => t.ownLock
  | main | kerneltrap _ | usertrap _ | updateTicks _ _ | wakeup _ _ | kill _ _
  | setPsPriority _ | setCfsPriority _ | setPolicy _ | fs | other | panic => []

/-- The locks held by the innermost frame of a stack of thread `t`. -/
def topHeld {n : Nat} (t : Thread n) : List Frame → List Lock
  | [] => []
  | f :: _ => f.held t

/-- Frames during which interrupts stay off although no lock is held: the trap handlers
    (`usertrap` turns them on only for a system call) and `main`. -/
def Frame.intrOff : Frame → Bool
  | .main | .kerneltrap _ => true
  | .usertrap (.killed .syscall) => false
  | .usertrap _ => true
  | _ => false

/-! ## Inputs -/

/-- What the environment decides in a step: interrupts, the system calls of user programs,
    and the results of the functions that are not part of the model. -/
inductive Input where
  /-- go on; calls outside the model succeed -/
  | run
  /-- `uvmcopy`, or the `copyout` of the exit message, fails -/
  | fail
  /-- in `wait`, the `copyout` of the exit status fails -/
  | failStatus
  /-- `kalloc` or `proc_pagetable` returns `a` -/
  | page (a : Nat)
  | timer
  /-- a device interrupt whose handler calls `wakeup` on address `a` -/
  | device (a : Nat)
  | syscall (sc : Syscall)
  /-- an exception in user mode -/
  | fault
  /-- code outside the model calls `sleep` on address `a` -/
  | sleep (a : Nat)
  /-- code outside the model calls `wakeup` on address `a` -/
  | wakeup (a : Nat)
  /-- a system call outside the model stores a descriptor, a directory or a new memory image -/
  | setFd (fd : Fin NOFILE) (v : Nat)
  | setCwd (v : Nat)
  | setMem (sz pagetable : Nat)

end Xv6
