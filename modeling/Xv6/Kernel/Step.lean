import Xv6.Kernel.Op
import Xv6.ForStd.Transition

/-!
# The kernel as a transition system

`Frame.effect` translates the source function by function: it says what the innermost
frame of a hart does up to the next lock operation. An `Effect` lists the lock
operations, the `Op` on the shared memory, the frames that replace the innermost one
(callees first) and whether the step switches threads. `State.step` adds interrupts,
traps from user mode, and the panics of `acquire`, `release` and `sched`.

`kernel n` is the system of `n` harts, started in the state that `main` leaves behind
after `userinit`: the first process is `RUNNABLE` in slot 0 and every hart is about to
call `scheduler`.
-/

namespace Xv6

/-- What a step does to `c->proc` and to the thread a hart runs. -/
inductive Switch where
  | stay
  /-- `c->proc = 0` -/
  | clear
  /-- `c->proc = p; swtch(&c->context, &p->context)` -/
  | dispatch (p : Slot)
  /-- `swtch(&p->context, &mycpu()->context)` -/
  | sched

/-- One step of a frame. -/
structure Effect where
  /-- a lock that is acquired and released again within the step -/
  visit : Option Lock := none
  acquire : Option Lock := none
  release : Option Lock := none
  /-- the lock that `sched` insists on -/
  holding : Option Lock := none
  op : Op := .skip
  /-- the frames that replace the innermost one -/
  frames : List Frame
  switch : Switch := .stay

/-- The body of a loop `for(p = proc; p < &proc[NPROC]; p++)` at index `i`. -/
def forSlot {α : Type} (i : Nat) (body : Slot → α) (done : α) : α :=
  if h : i < NPROC then body ⟨i, h⟩ else done

/-! ## Scheduler loops -/

namespace Loop

/-- What the loop compares: `p->accumulator` or `check_vruntime(p)`. -/
def key : Loop → Proc → Int
  | old, _ => 0
  | priority, p => p.accumulator
  | cfs, p => checkVruntime p

/-- One round of `find_minimum` or `minimum_vruntime`. -/
def minimum (l : Loop) (p : Proc) (m : Int) : Int :=
  if p.state = .runnable ∧ (m = -1 ∨ l.key p < m) then l.key p else m

/-- The test under which the loop switches to `p`. -/
def selects (l : Loop) (p : Proc) (m : Int) : Bool :=
  p.state = .runnable ∧ (l = old ∨ l.key p ≤ m)

/-- `schedulerPriority` and `schedulerCFS` compute a minimum before they start. -/
def entry : Loop → LoopPc
  | old => .start 0
  | priority | cfs => .enter 0 (-1)

/-- … and again after `release(&p->lock)`. -/
def afterRound (p : Slot) : Loop → LoopPc
  | old => .test p 0
  | priority | cfs => .rescan p 0 (-1)

/-- The loop that the tests of `policy` at the end of a round call. -/
def callee (policy : Int) : Loop → Option Loop
  | old => if policy = 1 then some priority else if policy = 2 then some cfs else none
  | priority => if policy = 0 then some old else if policy = 2 then some cfs else none
  | cfs => if policy = 0 then some old else if policy = 1 then some priority else none

end Loop

/-- `scheduler`: the loop for the value of `policy`; it returns for any other value. -/
def scheduler (policy : Int) : Option Loop :=
  if policy = 0 then some .old
  else if policy = 1 then some .priority
  else if policy = 2 then some .cfs
  else none

/-- `scheduler_old`, `schedulerPriority` and `schedulerCFS`. -/
def schedulerStep (m : Mem) (l : Loop) : LoopPc → Effect
  | .enter i mn =>
    forSlot i
      (fun q =>
        { visit := some (.proc q)
          frames := [.scheduler l (.enter (i + 1) (l.minimum (m.proc q) mn))] })
      { frames := [.scheduler l (.start mn)] }
  | .start mn => { frames := [.scheduler l (.visit 0 mn)], switch := .clear }
  | .visit p mn =>
    if l.selects (m.proc p) mn then
      { acquire := some (.proc p)
        op := .dispatch p
        frames := [.scheduler l (.back p)]
        switch := .dispatch p }
    else
      { visit := some (.proc p), frames := [.scheduler l (l.afterRound p)] }
  | .back p =>
    { release := some (.proc p), frames := [.scheduler l (l.afterRound p)], switch := .clear }
  | .rescan p i mn =>
    forSlot i
      (fun q =>
        { visit := some (.proc q)
          frames := [.scheduler l (.rescan p (i + 1) (l.minimum (m.proc q) mn))] })
      { frames := [.scheduler l (.test p mn)] }
  | .test p mn =>
    match l.callee m.policy with
    | some l' => { frames := [.scheduler l' l'.entry, .scheduler l (.visit (p + 1) mn)] }
    | none => { frames := [.scheduler l (.visit (p + 1) mn)] }

/-! ## wakeup and the timer -/

/-- One round of `wakeup(chan)`: the own process is skipped, without its lock. -/
def wakeupRound (me : Option Slot) (ch : Option Chan) (q : Slot) (frames : List Frame) : Effect :=
  if me = some q then { frames } else { visit := some (.proc q), op := .wakeup ch q, frames }

/-- `clockintr`. -/
def clockStep (me : Option Slot) : ClockPc → Effect
  | .acquire => { acquire := some .ticks, op := .tick, frames := [.clockintr (.wakeup 0)] }
  | .wakeup i =>
    forSlot i
      (fun q => wakeupRound me (some .ticks) q [.clockintr (.wakeup (i + 1))])
      { release := some .ticks, frames := [] }

/-- `update_ticks`. -/
def updateTicksStep (i : Nat) (locked : Bool) : Effect :=
  forSlot i
    (fun q =>
      if locked then
        { visit := some (.proc q), op := .charge q, frames := [.updateTicks (i + 1) false] }
      else { op := .chargeSleep q, frames := [.updateTicks i true] })
    { frames := [] }

/-- The call of `yield` in `kerneltrap`, if there is a process and it is running. -/
def kerneltrapYield (m : Mem) : Option Slot → Effect
  | some p =>
    if (m.proc p).state = .running then
      { op := .accumulate p, frames := [.yield .acquire, .kerneltrap .ret] }
    else { frames := [.kerneltrap .ret] }
  | none => { frames := [.kerneltrap .ret] }

/-- `kerneltrap` from `update_ticks()` on. -/
def kerneltrapStep (m : Mem) (me : Option Slot) : KerneltrapPc → Effect
  | .update => { frames := [.updateTicks 0 false, .kerneltrap .yield] }
  | .yield => kerneltrapYield m me
  | .ret => { frames := [] }

/-! ## The functions that give up the hart -/

/-- `sched`, called at the point `pc` of a frame; `next` is where `swtch` returns to. -/
def sched (m : Mem) (p : Slot) (next : Frame) : Effect :=
  if (m.proc p).state = .running then { frames := [.panic] }
  else { holding := some (.proc p), frames := [next], switch := .sched }

/-- `yield`. -/
def yieldStep (m : Mem) (p : Slot) : YieldPc → Effect
  | .acquire => { acquire := some (.proc p), op := .yield p, frames := [.yield .swtch] }
  | .swtch => sched m p (.yield .release)
  | .release => { release := some (.proc p), frames := [] }

/-- `sleep`, up to the `acquire(lk)` at its end. -/
def sleepStep (m : Mem) (p : Slot) (ch : Chan) (lk : Option Lock) : SleepPc → Effect
  | .acquire => { acquire := some (.proc p), frames := [.sleep ch lk .locked] }
  | .locked => { release := lk, op := .sleep p ch, frames := [.sleep ch lk .swtch] }
  | .swtch => sched m p (.sleep ch lk .wake)
  | .wake => { release := some (.proc p), op := .awake p, frames := [] }

/-! ## fork, exit, wait, kill -/

/-- `allocproc` and `fork`. -/
def forkStep (m : Mem) (p : Slot) (i : Input) : ForkPc → Option Effect
  | .alloc j =>
    forSlot j
      (fun q =>
        if (m.proc q).state = .unused then
          some { acquire := some (.proc q), frames := [.fork (.found q)] }
        else some { visit := some (.proc q), frames := [.fork (.alloc (j + 1))] })
      (some { frames := [] })
  | .found np => some { op := .alloc np, frames := [.fork (.trapframe np)] }
  | .trapframe np =>
    match i with
    | .page a =>
      if a = 0 then some { release := some (.proc np), op := .free np, frames := [] }
      else some { op := .setTrapframe np a, frames := [.fork (.pagetable np)] }
    | _ => none
  | .pagetable np =>
    match i with
    | .page a =>
      if a = 0 then some { release := some (.proc np), op := .free np, frames := [] }
      else some { op := .setPagetable np a, frames := [.fork (.copy np)] }
    | _ => none
  | .copy np =>
    match i with
    | .fail => some { release := some (.proc np), op := .free np, frames := [] }
    | _ =>
      some
        { release := some (.proc np)
          op := .copy p np
          frames := [.fork (.setParent np (m.proc np).pid)] }
  | .setParent np pid =>
    some { visit := some .wait, op := .setParent p np, frames := [.fork (.relock np pid)] }
  | .relock np pid => some { acquire := some (.proc np), frames := [.fork (.runnable np pid)] }
  | .runnable np _ =>
    match (m.proc np).parent with
    | some parent =>
      some
        { visit := some (.proc parent)
          release := some (.proc np)
          op := .setRunnable parent np
          frames := [] }
    | none => none

/-- `exit`, with `reparent`. -/
def exitStep (m : Mem) (p : Slot) : ExitPc → Effect
  | .entry st msg =>
    { op := .exitMsg p st msg
      frames := if p = m.initproc then [.panic] else [.exit (.close st 0)] }
  | .close st fd =>
    if h : fd < NOFILE then
      if (m.proc p).ofile ⟨fd, h⟩ ≠ 0 then { frames := [.fs, .exit (.closed st ⟨fd, h⟩)] }
      else { frames := [.exit (.close st (fd + 1))] }
    else { frames := [.fs, .exit (.iput st)] }
  | .closed st fd => { op := .closeFd p fd, frames := [.exit (.close st (fd + 1))] }
  | .iput st => { op := .clearCwd p, frames := [.exit (.acquire st)] }
  | .acquire st => { acquire := some .wait, frames := [.exit (.reparent st 0)] }
  | .reparent st i =>
    forSlot i
      (fun pp =>
        if (m.proc pp).parent = some p then
          { op := .reparent p pp, frames := [.exit (.reparentWake st i 0)] }
        else { frames := [.exit (.reparent st (i + 1))] })
      { frames := [.exit (.wakeParent st (m.proc p).parent 0)] }
  | .reparentWake st i j =>
    forSlot j
      (fun q =>
        wakeupRound (some p) (some (.proc m.initproc)) q [.exit (.reparentWake st i (j + 1))])
      { frames := [.exit (.reparent st (i + 1))] }
  | .wakeParent st ch j =>
    forSlot j
      (fun q => wakeupRound (some p) (ch.map .proc) q [.exit (.wakeParent st ch (j + 1))])
      { frames := [.exit (.lock st)] }
  | .lock st => { acquire := some (.proc p), frames := [.exit (.zombie st)] }
  | .zombie st => { release := some .wait, op := .zombie p st, frames := [.exit .swtch] }
  | .swtch => sched m p (.exit .dead)
  | .dead => { frames := [.panic] }

/-- `wait`. -/
def waitStep (m : Mem) (p : Slot) (addr addr2 : Nat) (i : Input) : WaitPc → Effect
  | .acquire => { acquire := some .wait, frames := [.wait addr addr2 (.scan 0 false)] }
  | .scan j havekids =>
    forSlot j
      (fun pp =>
        if (m.proc pp).parent = some p then
          match i with
          | .fail =>
            if addr2 ≠ 0 then
              { visit := some (.proc pp), release := some .wait, frames := [] }
            else waitVisit pp j
          | _ => waitVisit pp j
        else { frames := [.wait addr addr2 (.scan (j + 1) havekids)] })
      { frames := [.wait addr addr2 (.check havekids)] }
  | .check havekids =>
    if havekids then
      if (m.proc p).killed then
        { visit := some (.proc p), release := some .wait, frames := [] }
      else
        { visit := some (.proc p)
          frames := [.sleep (.proc p) (some .wait) .acquire, .wait addr addr2 .acquire] }
    else { release := some .wait, frames := [] }
where
  /-- the child `pp` after its message has been copied out -/
  waitVisit (pp : Slot) (j : Nat) : Effect :=
    if (m.proc pp).state = .zombie then
      match i with
      | .failStatus =>
        if addr ≠ 0 then
          { visit := some (.proc pp)
            release := some .wait
            op := .copyMsg p pp addr2
            frames := [] }
        else
          { visit := some (.proc pp)
            release := some .wait
            op := .reap p pp addr addr2
            frames := [] }
      | _ =>
        { visit := some (.proc pp)
          release := some .wait
          op := .reap p pp addr addr2
          frames := [] }
    else
      { visit := some (.proc pp)
        op := .copyMsg p pp addr2
        frames := [.wait addr addr2 (.scan (j + 1) true)] }

/-- `kill`. -/
def killStep (m : Mem) (pid : Int) (i : Nat) : Effect :=
  forSlot i
    (fun q =>
      if (m.proc q).pid = pid then
        { visit := some (.proc q), op := .kill q pid, frames := [] }
      else { visit := some (.proc q), frames := [.kill pid (i + 1)] })
    { frames := [] }

/-! ## System calls and traps -/

/-- `argstr(1, exit_msg, 32)` in `sys_exit`: the bytes copied so far over the old contents. -/
def argstr (copied : List UInt8) (stack : ExitMsg) : List UInt8 :=
  copied.take 32 ++ stack.1.drop (copied.take 32).length

/-- The frame that `syscall` calls; `argint` truncates its argument to an `int`. -/
def Syscall.frame : Syscall → Frame
  | fork => .fork (.alloc 0)
  | exit n copied stack => .exit (.entry (toInt n) (argstr copied stack))
  | wait addr addr2 => .wait addr addr2 .acquire
  | kill pid => .kill (toInt pid) 0
  | sleep n => .sysSleep (toInt n) .acquire
  | setPsPriority k => .setPsPriority (toInt k)
  | setCfsPriority k => .setCfsPriority (toInt k)
  | setPolicy k => .setPolicy (toInt k)
  | other => .other

/-- The call `exit(-1, "")` of `usertrap`. -/
def exitKilled : Frame := .exit (.entry (-1) [0])

/-- `usertrap` after the cause of the trap is known. -/
def usertrapStep (m : Mem) (p : Slot) : UsertrapPc → Effect
  | .syscall sc =>
    { visit := some (.proc p)
      frames :=
        if (m.proc p).killed then [exitKilled, .usertrap (.syscall sc)]
        else [sc.frame, .usertrap (.killed .syscall)] }
  | .setkilled =>
    { visit := some (.proc p), op := .setkilled p, frames := [.usertrap (.killed .fault)] }
  | .killed t =>
    { visit := some (.proc p)
      frames :=
        if (m.proc p).killed then [exitKilled, .usertrap (.killed t)]
        else match t with
          | .timer => [.usertrap .update]
          | _ => [.usertrap .ret] }
  | .update => { frames := [.updateTicks 0 false, .usertrap .accumulate] }
  | .accumulate =>
    { visit := some (.proc p)
      op := .accumulate p
      frames := [.yield .acquire, .usertrap .ret] }
  | .ret => { frames := [] }

/-- `sys_sleep`: `ticks - ticks0 < n` compares unsigned 32-bit values. -/
def sysSleepStep (m : Mem) (p : Slot) (n : Int) : SysSleepPc → Effect
  | .acquire => { acquire := some .ticks, frames := [.sysSleep n (.test m.ticks)] }
  | .test t0 =>
    if ((m.ticks : Int) - t0) % 2 ^ 32 < n % 2 ^ 32 then { frames := [.sysSleep n (.killed t0)] }
    else { release := some .ticks, frames := [] }
  | .killed t0 =>
    if (m.proc p).killed then
      { visit := some (.proc p), release := some .ticks, frames := [] }
    else
      { visit := some (.proc p)
        frames := [.sleep .ticks (some .ticks) .acquire, .sysSleep n (.reacquire t0)] }
  | .reacquire t0 => { acquire := some .ticks, frames := [.sysSleep n (.test t0)] }

/-- Code outside the process subsystem. -/
def fsStep (i : Input) (f : Frame) : Effect :=
  match i with
  | .sleep a => { frames := [.sleep (.other a) none .acquire, f] }
  | .wakeup a => { frames := [.wakeup (some (.other a)) 0, f] }
  | _ => { frames := [] }

/-- A system call outside the process subsystem works on the caller's own fields. -/
def otherStep (p : Slot) (i : Input) : Effect :=
  match i with
  | .setFd fd v => { op := .setFd p fd v, frames := [.other] }
  | .setCwd v => { op := .setCwd p v, frames := [.other] }
  | .setMem sz pt => { op := .setMem p sz pt, frames := [.other] }
  | _ => fsStep i .other

/-- `sys_set_cfs_priority` and `sys_set_policy` accept 0, 1 and 2. -/
def validArg (k : Int) : Bool := k = 0 ∨ k = 1 ∨ k = 2

/-- The frames that run on behalf of a process `p`. -/
def procStep (m : Mem) (p : Slot) (f : Frame) (i : Input) : Option Effect :=
  match f with
  | .usertrap pc => some (usertrapStep m p pc)
  | .yield pc => some (yieldStep m p pc)
  | .sleep ch lk pc => some (sleepStep m p ch lk pc)
  | .fork pc => forkStep m p i pc
  | .exit pc => some (exitStep m p pc)
  | .wait addr addr2 pc => some (waitStep m p addr addr2 i pc)
  | .kill pid j => some (killStep m pid j)
  | .sysSleep n pc => some (sysSleepStep m p n pc)
  | .setPsPriority k =>
    some { visit := some (.proc p), op := .setPsPriority p k, frames := [] }
  | .setCfsPriority k =>
    some { op := if validArg k then .setCfsPriority p k else .skip, frames := [] }
  | .setPolicy k => some { op := if validArg k then .setPolicy k else .skip, frames := [] }
  | .forkret => some { release := some (.proc p), frames := [.fs] }
  | .fs => some (fsStep i .fs)
  | .other => some (otherStep p i)
  | _ => none

/-- The step of the innermost frame `f` of a hart; `me` is `myproc()`. -/
def Frame.effect (m : Mem) (me : Option Slot) (f : Frame) (i : Input) : Option Effect :=
  match f with
  | .main =>
    -- `scheduler` is the last call of `main` and its loops never return
    (Xv6.scheduler m.policy).map fun l => { frames := [.scheduler l l.entry] }
  | .scheduler l pc => some (schedulerStep m l pc)
  | .clockintr pc => some (clockStep me pc)
  | .updateTicks j locked => some (updateTicksStep j locked)
  | .kerneltrap pc => some (kerneltrapStep m me pc)
  | .wakeup ch j =>
    some (forSlot j (fun q => wakeupRound me ch q [.wakeup ch (j + 1)]) { frames := [] })
  | _ => me.bind fun p => procStep m p f i

/-! ## Steps of the machine -/

namespace State

variable {n : Nat}

/-- The handler frames of a timer interrupt: only hart 0 runs `clockintr`. -/
def timerFrames (c : Fin n) (handler : Frame) : List Frame :=
  if c.val = 0 then [.clockintr .acquire, handler] else [handler]

/-- How a process leaves user mode. -/
def userEntry (c : Fin n) : Input → Option (List Frame)
  | .syscall sc => some [.usertrap (.syscall sc)]
  | .fault => some [.usertrap .setkilled]
  | .timer => some (timerFrames c (.usertrap (.killed .timer)))
  | .device a => some [.wakeup (some (.other a)) 0, .usertrap (.killed .device)]
  | _ => none

/-- An interrupt taken in the kernel. -/
def kernelEntry (c : Fin n) : Input → Option (List Frame)
  | .timer => some (timerFrames c (.kerneltrap .update))
  | .device a => some [.wakeup (some (.other a)) 0, .kerneltrap .ret]
  | _ => none

/-- Interrupts are on: the innermost frame holds no lock and no handler is active. -/
def intrOn (s : State n) (c : Fin n) : Bool :=
  (topHeld (s.running c) (s.cur c)).isEmpty && (s.cur c).all fun f => !f.intrOff

/-- What hart `c` does next: the effect of the step, and the frames below the ones it
    replaces. -/
def plan (s : State n) (c : Fin n) (i : Input) : Option (List Frame × Effect) :=
  match s.running c, s.cur c with
  | .proc _, [] => (userEntry c i).map fun fs => ([], { frames := fs })
  | .sched _, [] => none
  | _, f :: rest =>
    match kernelEntry c i with
    | some fs => if s.intrOn c then some (f :: rest, { frames := fs }) else none
    | none => (f.effect s.mem (s.proc c) i).map fun e => (rest, e)

/-- `acquire` of a lock the hart holds, `release` or `sched` without the lock: panic. -/
def panics (s : State n) (c : Fin n) (e : Effect) : Bool :=
  (e.visit.any fun L => s.lock L = some c) || (e.acquire.any fun L => s.lock L = some c) ||
    (e.release.any fun L => s.lock L ≠ some c) || (e.holding.any fun L => s.lock L ≠ some c)

/-- Spinning in `acquire` for a lock that another hart holds. -/
def blocked (s : State n) (e : Effect) : Bool :=
  (e.visit.any fun L => (s.lock L).isSome) || (e.acquire.any fun L => (s.lock L).isSome)

/-- The stack of the thread that hart `c` runs. -/
def setCur (s : State n) (c : Fin n) (fs : List Frame) : Thread n → List Frame :=
  upd s.stack (s.running c) fs

/-- The lock holders after a step of hart `c`. -/
def lockAfter (s : State n) (c : Fin n) (e : Effect) : Lock → Option (Fin n) :=
  let released := match e.release with
    | some L => upd s.lock L none
    | none => s.lock
  match e.acquire with
  | some L => upd released L (some c)
  | none => released

/-- `c->proc` after a step of hart `c`. -/
def procAfter (s : State n) (c : Fin n) : Switch → Fin n → Option Slot
  | .stay | .sched => s.proc
  | .clear => upd s.proc c none
  | .dispatch p => upd s.proc c (some p)

/-- The running threads after a step of hart `c`. -/
def runningAfter (s : State n) (c : Fin n) : Switch → Fin n → Thread n
  | .stay | .clear => s.running
  | .sched => upd s.running c (.sched c)
  | .dispatch p => upd s.running c (.proc p)

/-- `allocproc` makes the new process start at `forkret`. -/
def setContext (stack : Thread n → List Frame) : Op → Thread n → List Frame
  | .setPagetable np _ => upd stack (.proc np) [.forkret]
  | _ => stack

/-- The state after an effect of hart `c`. -/
def commit (s : State n) (c : Fin n) (rest : List Frame) (e : Effect) : State n where
  mem := e.op.apply s.mem
  lock := s.lockAfter c e
  proc := s.procAfter c e.switch
  running := s.runningAfter c e.switch
  stack := setContext (s.setCur c (e.frames ++ rest)) e.op

/-- One step of hart `c`. -/
def step (s : State n) (x : Fin n × Input) : Option (State n) :=
  match s.plan x.1 x.2 with
  | none => none
  | some (rest, e) =>
    if s.panics x.1 e then some { s with stack := s.setCur x.1 (.panic :: rest) }
    else if s.blocked e then none
    else some (s.commit x.1 rest e)

/-- The operation on the shared memory that a step performs. -/
def op (s : State n) (x : Fin n × Input) : Op :=
  match s.plan x.1 x.2 with
  | none => .skip
  | some (_, e) => if s.panics x.1 e then .skip else e.op

end State

/-! ## Boot -/

/-- What boot leaves to the environment: the pages of the first process, its directory,
    and the initial value of `policy`, which the source sets to 0. -/
structure Boot where
  trapframe : Nat
  pagetable : Nat
  cwd : Nat
  policy : Int

/-- `procinit`. -/
def procinit (policy : Int) : Mem where
  proc _ := Proc.zero
  initproc := 0
  nextpid := 1
  policy := policy
  ticks := 0

/-- `userinit`: `allocproc` finds slot 0. -/
def userinit (b : Boot) : Mem :=
  let m := (procinit b.policy)
  let m := (Op.alloc 0).apply m
  let m := (Op.setTrapframe 0 b.trapframe).apply m
  let m := (Op.setPagetable 0 b.pagetable).apply m
  { m with
    proc := upd m.proc 0
      { m.proc 0 with sz := 4096, cwd := b.cwd, state := .runnable } }

/-- The state in which every hart calls `scheduler` for the first time. -/
def State.boot (n : Nat) (b : Boot) : State n where
  mem := userinit b
  lock _ := none
  proc _ := none
  running c := .sched c
  stack
    | .sched _ => [.main]
    | .proc p => if p = 0 then [.forkret] else []

/-- The kernel on `n` harts. -/
def kernel (n : Nat) : TransitionSystem (State n) (Fin n × Input) where
  init s := ∃ b, s = State.boot n b
  step := State.step

end Xv6
