import Xv6.ForStd.WrapRing
import Xv6.Kernel.Proc
import Xv6.ForStd.Transition

/-!
# The console

`kernel/console.c`: `consoleintr` is called for every character that the UART receives, `consoleread`
by any number of processes. Both hold `cons.lock` from beginning to end, except while `consoleread`
sleeps, so a step is what happens between two of these points. The echo is left out.
-/

namespace Xv6

namespace Console

def INPUT_BUF_SIZE : Nat := 128

/-- `C(x)`: Control-x. -/
def ctrl (x : Char) : UInt8 := UInt8.ofNat (x.toNat - '@'.toNat)

/-- `'\n'`. -/
def newline : UInt8 := 10

/-- `cons` without its lock. -/
structure Cons where
  buf : Nat → UInt8
  /-- Read index -/
  r : BitVec 32
  /-- Write index -/
  w : BitVec 32
  /-- Edit index -/
  e : BitVec 32

namespace Cons

/-- The `while` of `case C('U')`; it runs at most `cons.e - cons.w` times. -/
def killLine : Nat → Cons → Cons
  | 0, c => c
  | k + 1, c =>
    if c.e ≠ c.w ∧ c.buf ((c.e - 1#32).toNat % INPUT_BUF_SIZE) ≠ newline then
      killLine k { c with e := c.e - 1#32 }
    else c

/-- `cons.buf[cons.e++ % INPUT_BUF_SIZE] = ch`. -/
def store (c : Cons) (ch : UInt8) : Cons :=
  { c with buf := upd c.buf (c.e.toNat % INPUT_BUF_SIZE) ch, e := c.e + 1#32 }

/-- A whole line, the end of the file or a full buffer. -/
def commits (c : Cons) (ch : UInt8) : Prop :=
  ch = newline ∨ ch = ctrl 'D' ∨ c.e - c.r = BitVec.ofNat 32 INPUT_BUF_SIZE

instance (c : Cons) (ch : UInt8) : Decidable (c.commits ch) := inferInstanceAs (Decidable (_ ∨ _ ∨ _))

/-- `consoleintr(ch)`, and whether it calls `wakeup(&cons.r)`. -/
def intr (c : Cons) (ch : UInt8) : Cons × Bool :=
  if ch = ctrl 'P' then (c, false)
  else if ch = ctrl 'U' then (c.killLine (c.e - c.w).toNat, false)
  else if ch = ctrl 'H' ∨ ch = 127 then
    (if c.e ≠ c.w then { c with e := c.e - 1#32 } else c, false)
  else if ch ≠ 0 ∧ (c.e - c.r).toNat < INPUT_BUF_SIZE then
    let ch := if ch = 13 then newline else ch
    let c := c.store ch
    if c.commits ch then ({ c with w := c.e }, true) else (c, false)
  else (c, false)

end Cons

/-! ## `consoleread` -/

/-- A call of `consoleread`: `dst i` says whether `either_copyout` stores byte `i`, `got` are the bytes
    that it has stored. -/
structure Read where
  dst : Nat → Bool
  target : Int
  n : Int
  got : List UInt8
  /-- in `sleep(&cons.r, &cons.lock)` -/
  asleep : Bool

/-- How the loop ends. -/
inductive Stop where
  /-- at `while(cons.r == cons.w)` -/
  | wait
  | done
deriving DecidableEq

/-- The loop of `consoleread` for at most `k` more bytes. -/
def Read.loop : (k : Nat) → Read → Cons → Stop × Read × Cons
  | 0, rd, c => (.done, rd, c)
  | k + 1, rd, c =>
    if c.r = c.w then (.wait, rd, c)
    else
      let ch := c.buf (c.r.toNat % INPUT_BUF_SIZE)
      let c := { c with r := c.r + 1#32 }
      if ch = ctrl 'D' then (.done, rd, if rd.n < rd.target then { c with r := c.r - 1#32 } else c)
      else if rd.dst rd.got.length = false then (.done, rd, c)
      else
        let rd := { rd with n := rd.n - 1, got := rd.got ++ [ch] }
        if ch = newline then (.done, rd, c) else loop k rd c

structure State where
  cons : Cons
  /-- the call of `consoleread` that a process is in -/
  pc : Slot → Option Read
  /-- what the calls have returned, with the bytes that they have copied -/
  reads : List (Int × List UInt8)

inductive Input where
  /-- `consoleintr` -/
  | intr (ch : UInt8)
  /-- a process calls `consoleread` -/
  | read (p : Slot) (dst : Nat → Bool) (n : Int)
  /-- the process takes `cons.lock` and goes on until it sleeps or returns -/
  | step (p : Slot) (killed : Bool)
  /-- `kill` wakes a process -/
  | kill (p : Slot)

namespace State

variable (s : State) (p : Slot)

/-- `wakeup(&cons.r)`. -/
def wakeup : State := { s with pc := fun q => (s.pc q).map fun rd => { rd with asleep := false } }

def consoleintr (ch : UInt8) : State :=
  let s' := { s with cons := (s.cons.intr ch).1 }
  if (s.cons.intr ch).2 then s'.wakeup else s'

/-- `consoleread` from `acquire(&cons.lock)` or the return of `sleep` on. -/
def consoleread (rd : Read) (killed : Bool) : State :=
  match rd.loop rd.n.toNat s.cons with
  | (.wait, rd, c) =>
    if killed then { s with cons := c, pc := upd s.pc p none, reads := s.reads ++ [(-1, rd.got)] }
    else { s with cons := c, pc := upd s.pc p (some { rd with asleep := true }) }
  | (.done, rd, c) =>
    { s with cons := c, pc := upd s.pc p none, reads := s.reads ++ [(rd.target - rd.n, rd.got)] }

def step : Input → Option State
  | .intr ch => some (s.consoleintr ch)
  | .read p dst n =>
    match s.pc p with
    | none => some { s with pc := upd s.pc p (some ⟨dst, n, n, [], false⟩) }
    | some _ => none
  | .step p killed =>
    match s.pc p with
    | some rd => if rd.asleep then none else some (s.consoleread p rd killed)
    | none => none
  | .kill p => some { s with pc := upd s.pc p ((s.pc p).map fun rd => { rd with asleep := false }) }

end State

end Console

/-- The console and its readers; `cons` lies in zeroed memory. -/
def console : TransitionSystem Console.State Console.Input where
  init s := s.cons = ⟨fun _ => 0, 0, 0, 0⟩ ∧ (∀ p, s.pc p = none) ∧ s.reads = []
  step s := s.step

end Xv6
