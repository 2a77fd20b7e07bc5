import Xv6.Kernel.Step

/-!
# sleep and wakeup with an arbitrary client

`kernel/proc.c` leaves the use of `sleep` and `wakeup` to its callers: a condition is protected by
a spinlock `lk`; a sleeper runs `acquire(lk); while(!C) sleep(chan, lk)`, and a waker holds `lk`
when it makes the condition true and calls `wakeup(chan)` before it releases `lk`. `client chan`
is the system of any number of such callers. Processes call both and `kill`; interrupt handlers
are wakers, on top of a process or on a hart that runs none.

A step of a caller goes up to its next lock operation. `sleep` is cut at all four of them, since
between `release(lk)` and the store of `SLEEPING` other callers may take `lk`. The process table
and its updates are those of `Xv6.Kernel.Op`. A process that is outside this code may change its
own slot in any way, except that it does not go to sleep on `chan` on its own.
-/

namespace Xv6

namespace Client

/-- Who runs the code: a process, or an interrupt handler on a hart without a process. -/
inductive Agent where
  | proc (p : Slot)
  | hart (c : Nat)
deriving DecidableEq

def Agent.myproc : Agent → Option Slot
  | proc p => some p
  | hart _ => none

/-- Where a caller stands. -/
inductive Pc where
  /-- before `acquire(lk)`: of a sleeper or at the end of `sleep`, or of a waker -/
  | acquire (sleeper : Bool)
  /-- holding `lk`, before the test of `while(!C)` -/
  | test
  /-- in `sleep`, holding `lk`, before `acquire(&p->lock)` -/
  | lock
  /-- holding `lk` and `p->lock`, before `release(lk)` -/
  | unlock
  /-- holding `p->lock`, before `p->chan = chan; p->state = SLEEPING; sched()` -/
  | set
  /-- in `swtch` -/
  | parked
  /-- `swtch` has returned; holding `p->lock`, before `p->chan = 0` -/
  | wake
  /-- holding `lk`, with nothing left to do but release it -/
  | hold
  /-- holding `lk`, having made the condition true without a `wakeup(chan)` so far -/
  | owe
  /-- in `wakeup(chan)` at slot `i`, holding `lk` -/
  | wakeup (i : Nat)
  /-- in `kill(pid)` at slot `i` -/
  | kill (pid : Int) (i : Nat)

/-- The caller holds no lock, so it can be interrupted. -/
def Pc.free : Pc → Bool
  | acquire _ | kill _ _ => true
  | _ => false

/-- The caller holds `lk`. -/
def Pc.holds : Pc → Bool
  | test | lock | unlock | hold | owe | wakeup _ => true
  | acquire _ | set | parked | wake | kill _ _ => false

structure State where
  mem : Mem
  /-- the condition `C` -/
  cond : Bool
  /-- the holder of `lk` -/
  lk : Option Agent
  /-- `p->lock` is held -/
  plock : Slot → Bool
  /-- the calls in progress, innermost first -/
  stack : Agent → List Pc

inductive Input where
  /-- a process calls the sleeper's code -/
  | sleeper (p : Slot)
  /-- a process or an interrupt handler calls the waker's code -/
  | waker (a : Agent)
  | kill (p : Slot) (pid : Int)
  /-- the next step of a call -/
  | step (a : Agent)
  /-- the holder of `lk` changes the condition -/
  | setCond (a : Agent) (v : Bool)
  /-- the holder of `lk` calls `wakeup(chan)` -/
  | wakeup (a : Agent)
  /-- the holder releases `lk` -/
  | release (a : Agent)
  /-- the scheduler releases the lock of a process that has switched away -/
  | switched (p : Slot)
  /-- a scheduler loop switches to a process -/
  | dispatch (p : Slot)
  /-- code outside the model changes the slot of its own process -/
  | other (p : Slot) (x : Proc)

/-- The process is asleep on `ch`. -/
def asleep (ch : Chan) (x : Proc) : Prop := x.state = .sleeping ∧ x.chan = some ch

instance (ch : Chan) (x : Proc) : Decidable (asleep ch x) := inferInstanceAs (Decidable (_ ∧ _))

namespace State

/-- Agent `a` can take an interrupt or make a call: it runs and holds no lock. -/
def ready (s : State) (a : Agent) : Bool :=
  (a.myproc.all fun p => (s.mem.proc p).state = .running) && (s.stack a).head?.all Pc.free

def goto (s : State) (a : Agent) (pcs : List Pc) : State := { s with stack := upd s.stack a pcs }

/-- The step of a call of `sleep(ch, lk)` by process `p`; the rest of its stack is `rest`. -/
def sleepStep (ch : Chan) (s : State) (p : Slot) (rest : List Pc) : Pc → Option State
  | .lock =>
    if s.plock p then none
    else some { s.goto (.proc p) (.unlock :: rest) with plock := upd s.plock p true }
  | .unlock => some { s.goto (.proc p) (.set :: rest) with lk := none }
  | .set => some { s.goto (.proc p) (.parked :: rest) with mem := (Op.sleep p ch).apply s.mem }
  | .wake =>
    some
      { s.goto (.proc p) (.acquire true :: rest) with
        mem := (Op.awake p).apply s.mem
        plock := upd s.plock p false }
  | _ => none

/-- The step of a call. -/
def exec (ch : Chan) (s : State) (a : Agent) (pc : Pc) (rest : List Pc) : Option State :=
  match pc with
  | .acquire sleeper =>
    if s.lk = none then
      some { s.goto a ((if sleeper then .test else .hold) :: rest) with lk := some a }
    else none
  | .test => some (s.goto a ((if s.cond then .hold else .lock) :: rest))
  | .wakeup i =>
    forSlot i
      (fun q =>
        if a.myproc = some q then some (s.goto a (.wakeup (i + 1) :: rest))
        else if s.plock q then none
        else
          some
            { s.goto a (.wakeup (i + 1) :: rest) with
              mem := (Op.wakeup (some ch) q).apply s.mem })
      (some (s.goto a (.hold :: rest)))
  | .kill pid i =>
    forSlot i
      (fun q =>
        if s.plock q then none
        else if (s.mem.proc q).pid = pid then
          some { s.goto a rest with mem := (Op.kill q pid).apply s.mem }
        else some (s.goto a (.kill pid (i + 1) :: rest)))
      (some (s.goto a rest))
  | .lock | .unlock | .set | .wake =>
    match a with
    | .proc p => s.sleepStep ch p rest pc
    | .hart _ => none
  | .hold | .owe | .parked => none

/-- The step of the innermost call of a stack. -/
def execTop (ch : Chan) (s : State) (a : Agent) : List Pc → Option State
  | [] => none
  | pc :: rest => s.exec ch a pc rest

/-- A store to the condition, by an agent that has the lock. -/
def setCond (s : State) (a : Agent) (v : Bool) : List Pc → Option State
  | .hold :: rest =>
    some { s.goto a ((if v then .owe else .hold) :: rest) with cond := v }
  | .owe :: rest => some { s.goto a (.owe :: rest) with cond := v }
  | _ => none

/-- A call of `wakeup`, by an agent that has the lock. -/
def callWakeup (s : State) (a : Agent) : List Pc → Option State
  | .hold :: rest | .owe :: rest => some (s.goto a (.wakeup 0 :: rest))
  | _ => none

/-- The release of the lock. -/
def release (s : State) (a : Agent) : List Pc → Option State
  | .hold :: rest => some { s.goto a rest with lk := none }
  | _ => none

/-- The scheduler releases the lock of the process that has switched to it. -/
def switched (s : State) (p : Slot) : List Pc → Option State
  | .parked :: _ => if s.plock p then some { s with plock := upd s.plock p false } else none
  | _ => none

/-- The scheduler runs the process again. -/
def dispatch (s : State) (p : Slot) : List Pc → Option State
  | .parked :: rest =>
    if s.plock p = false ∧ (s.mem.proc p).state = .runnable then
      some
        { s.goto (.proc p) (.wake :: rest) with
          mem := (Op.dispatch p).apply s.mem
          plock := upd s.plock p true }
    else none
  | _ => none

def step (ch : Chan) (s : State) : Input → Option State
  | .sleeper p =>
    if s.ready (.proc p) ∧ (s.stack (.proc p)).isEmpty then
      some (s.goto (.proc p) [.acquire true])
    else none
  | .waker a => if s.ready a then some (s.goto a (.acquire false :: s.stack a)) else none
  | .kill p pid =>
    if s.ready (.proc p) ∧ (s.stack (.proc p)).isEmpty then some (s.goto (.proc p) [.kill pid 0])
    else none
  | .step a => s.execTop ch a (s.stack a)
  | .setCond a v => s.setCond a v (s.stack a)
  | .wakeup a => s.callWakeup a (s.stack a)
  | .release a => s.release a (s.stack a)
  | .switched p => s.switched p (s.stack (.proc p))
  | .dispatch p => s.dispatch p (s.stack (.proc p))
  | .other p x =>
    if (s.stack (.proc p)).isEmpty ∧ s.plock p = false ∧ ¬ asleep ch x then
      some { s with mem := { s.mem with proc := upd s.mem.proc p x } }
    else none

end State

end Client

/-- The callers of `sleep` and `wakeup` on one channel. At the start no call is in progress and
    nobody is asleep on the channel. -/
def client (ch : Chan) : TransitionSystem Client.State Client.Input where
  init s := s.lk = none ∧ (∀ p, s.plock p = false) ∧ (∀ a, s.stack a = []) ∧
    ∀ p, ¬ Client.asleep ch (s.mem.proc p)
  step := Client.State.step ch

end Xv6
