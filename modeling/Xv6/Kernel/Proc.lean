import Mathlib.Algebra.Group.Int.Defs
import Mathlib.Algebra.GroupWithZero.Nat
import Mathlib.Data.Int.Basic

/-!
# The process table

`struct proc` of `kernel/proc.h`, the string routine `safestrcpy` of
`kernel/string.c`, and the functions of `kernel/proc.c` that work on a single
slot: `freeproc` and `check_vruntime`.

C integers are `Int` with an explicit wrap (`toInt`, `toLong`); pointers into
`proc[]` are `Option Slot`, other pointers are addresses with `0` for null. The
fields `lock`, `kstack`, `context` and `name` are not here: locks and kernel stacks
live in `Xv6.Kernel.State`, and no modelled function reads `name`.
-/

namespace Xv6

/-- Maximum number of processes (`kernel/param.h`). -/
def NPROC : Nat := 64

/-- Open files per process (`kernel/param.h`). -/
def NOFILE : Nat := 16

/-- A pointer into `proc[NPROC]`. -/
abbrev Slot := Fin NPROC

theorem NPROC_pos : 0 < NPROC := by decide

instance : NeZero NPROC := ⟨by decide⟩

/-- Conversion to a 32-bit `int`. -/
def toInt (x : Int) : Int := x.bmod (2 ^ 32)

/-- Conversion to a 64-bit `long` or `long long`. -/
def toLong (x : Int) : Int := x.bmod (2 ^ 64)

theorem toLong_toLong_add (a b : Int) : toLong (toLong a + b) = toLong (a + b) := by
  simp [toLong]

/-- `enum procstate`. -/
inductive ProcState where
  | unused
  | used
  | sleeping
  | runnable
  | running
  | zombie
deriving DecidableEq, Repr

/-- Addresses that `sleep` and `wakeup` are called with: a `struct proc` (only `wait`
    sleeps on one), the global `ticks`, or an address owned by another subsystem. -/
inductive Chan where
  | proc (p : Slot)
  | ticks
  | other (a : Nat)
deriving Repr

/-- Distinct numbers for the channels; equality of channels is decided on them. -/
def Chan.code : Chan → Nat
  | proc p => p
  | ticks => NPROC
  | other a => NPROC + 1 + a

theorem Chan.code_inj {a b : Chan} : a.code = b.code ↔ a = b := by
  cases a <;> cases b <;> simp [code, Fin.ext_iff] <;> omega

instance : DecidableEq Chan := fun _ _ => decidable_of_iff _ Chan.code_inj

/-- `char exit_msg[32]`. -/
abbrev ExitMsg := { l : List UInt8 // l.length = 32 }

theorem length_zeroBytes : (List.replicate 32 (0 : UInt8)).length = 32 := List.length_replicate

/-- `struct proc`. -/
structure Proc where
  state : ProcState
  chan : Option Chan
  killed : Bool
  xstate : Int
  pid : Int
  parent : Option Slot
  sz : Nat
  pagetable : Nat
  trapframe : Nat
  ofile : Fin NOFILE → Nat
  cwd : Nat
  exitMsg : ExitMsg
  accumulator : Int
  psPriority : Int
  cfsPriority : Int
  rtime : Int
  stime : Int
  retime : Int

/-- A slot as it is at boot: `proc[]` is in zeroed memory and `procinit` stores `UNUSED`. -/
def Proc.zero : Proc where
  state := .unused
  chan := none
  killed := false
  xstate := 0
  pid := 0
  parent := none
  sz := 0
  pagetable := 0
  trapframe := 0
  ofile := fun _ => 0
  cwd := 0
  exitMsg := ⟨List.replicate 32 0, length_zeroBytes⟩
  accumulator := 0
  psPriority := 0
  cfsPriority := 0
  rtime := 0
  stime := 0
  retime := 0

/-- `freeproc`: `ofile`, `cwd`, `exit_msg` and the scheduling fields are left as they are. -/
def freeproc (p : Proc) : Proc :=
  { p with
    trapframe := 0
    pagetable := 0
    sz := 0
    pid := 0
    parent := none
    chan := none
    killed := false
    xstate := 0
    state := .unused }

/-! ## safestrcpy -/

/-- `*s = 0` at the head of the remaining destination. -/
def nulHead : List UInt8 → List UInt8
  | [] => []
  | _ :: s => 0 :: s

/-- The loop of `safestrcpy` with `n` bytes of room left in the destination `s`:
    `while(--n > 0 && (*s++ = *t++) != 0); *s = 0;`. Copying a NUL has already advanced
    `s`, so the final store clears the byte after it as well. -/
def safestrcpyLoop : Nat → List UInt8 → List UInt8 → List UInt8
  | n + 2, _ :: s, t =>
    let b := t.headD 0
    if b ≠ 0 then b :: safestrcpyLoop (n + 1) s t.tail else b :: nulHead s
  | _, s, _ => nulHead s

/-- `safestrcpy(s, t, n)`: the destination afterwards. -/
def safestrcpy (s t : List UInt8) (n : Nat) : List UInt8 :=
  if n = 0 then s else safestrcpyLoop n s t

@[simp] theorem nulHead_length (s : List UInt8) : (nulHead s).length = s.length := by
  cases s <;> rfl

@[simp] theorem safestrcpyLoop_length (n : Nat) (s t : List UInt8) :
    (safestrcpyLoop n s t).length = s.length := by
  fun_induction safestrcpyLoop n s t with
  | case1 n b s t c hc ih => simp [ih]
  | case2 n b s t c hc => simp
  | case3 n s t h => simp

@[simp] theorem safestrcpy_length (s t : List UInt8) (n : Nat) :
    (safestrcpy s t n).length = s.length := by
  unfold safestrcpy
  split <;> simp

/-- `sizeof(exit_msg)` in `exit`, where `exit_msg` is a `char *`. -/
def sizeofCharPtr : Nat := 8

/-- `safestrcpy(p->exit_msg, exit_msg, sizeof(exit_msg))`. -/
def ExitMsg.store (old : ExitMsg) (msg : List UInt8) : ExitMsg :=
  ⟨safestrcpy old.1 msg sizeofCharPtr, by simp [old.2]⟩

/-! ## check_vruntime -/

/-- C division of two `long`s as RISC-V computes it: truncating, with `-1` for a zero divisor. -/
def divLong (x y : Int) : Int := if y = 0 then -1 else toLong (x.tdiv y)

/-- `check_vruntime`. -/
def checkVruntime (p : Proc) : Int :=
  let virtualTime := divLong p.rtime (toLong (p.rtime + p.retime + p.stime))
  if p.cfsPriority = 0 then toLong (75 * virtualTime)
  else if p.cfsPriority = 1 then toLong (100 * virtualTime)
  else toLong (125 * virtualTime)

end Xv6
