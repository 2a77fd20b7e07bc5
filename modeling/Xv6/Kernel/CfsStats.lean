import Xv6.ForStd.ByteMem
import Xv6.ForStd.Update
import Xv6.Kernel.Proc

/-!
# get_cfs_stats

`sys_get_cfs_stats` and `get_cfs_priority`, which copies a `struct proc_info` to user memory.
`kernel/vm.c` is not part of the repository: `copyout` is taken to write exactly the given bytes
into the address space of the page table it gets, or to fail without an effect when one of the
addresses is not writable there.
-/

namespace Xv6

theorem toInt_ofBytes_leBytes (x : Int) : toInt (ofBytes (leBytes 4 x)) = toInt x := by
  rw [ofBytes_leBytes]
  exact Int.emod_bmod x (2 ^ 32)

/-- The user memory: for every page table its contents and the addresses that can be written. -/
structure AddrSpaces where
  mem : Nat → ByteMem
  writable : Nat → Nat → Bool

namespace AddrSpaces

/-- `k` bytes from `dst` on can be written. -/
def canWrite (v : AddrSpaces) (pagetable dst k : Nat) : Bool :=
  (List.range k).all fun i => v.writable pagetable (dst + i)

/-- Store bytes in one of the address spaces. -/
def write (v : AddrSpaces) (pagetable dst : Nat) (src : List UInt8) : AddrSpaces :=
  { v with mem := upd v.mem pagetable ((v.mem pagetable).write dst src) }

/-- `copyout`; `none` is the result -1. -/
def copyout (v : AddrSpaces) (pagetable dst : Nat) (src : List UInt8) : Option AddrSpaces :=
  if v.canWrite pagetable dst src.length then some (v.write pagetable dst src) else none

theorem write_mem_self (v : AddrSpaces) (pagetable dst : Nat) (src : List UInt8) :
    (v.write pagetable dst src).mem pagetable = (v.mem pagetable).write dst src :=
  upd_self ..

theorem write_mem_of_ne (v : AddrSpaces) {pagetable p : Nat} (h : p ≠ pagetable) (dst : Nat)
    (src : List UInt8) : (v.write pagetable dst src).mem p = v.mem p :=
  upd_of_ne h _

end AddrSpaces

/-- `struct proc_info`, with fields of type `int`. -/
@[ext] structure ProcInfo where
  cfsPriority : Int
  retime : Int
  rtime : Int
  stime : Int
deriving DecidableEq

/-- The representation in memory. -/
def ProcInfo.bytes (x : ProcInfo) : List UInt8 :=
  leBytes 4 x.cfsPriority ++ leBytes 4 x.retime ++ leBytes 4 x.rtime ++ leBytes 4 x.stime

/-- The assignments of `get_cfs_priority`: the counters are of type `long`. -/
def Proc.info (x : Proc) : ProcInfo :=
  ⟨toInt x.cfsPriority, toInt x.retime, toInt x.rtime, toInt x.stime⟩

/-- `get_cfs_priority`. -/
def getCfsPriority (proc : Slot → Proc) (v : AddrSpaces) (pid : Int) (dst : Nat) :
    Int × AddrSpaces :=
  match (List.finRange NPROC).find? fun pp => (proc pp).pid = pid with
  | some pp =>
    match v.copyout (proc pp).pagetable dst (proc pp).info.bytes with
    | some v' => (0, v')
    | none => (-1, v)
  | none => (-1, v)

/-- `sys_get_cfs_stats`; `argint` truncates its argument to an `int`. -/
def sysGetCfsStats (proc : Slot → Proc) (v : AddrSpaces) (pid : Int) (dst : Nat) :
    Int × AddrSpaces :=
  getCfsPriority proc v (toInt pid) dst

end Xv6
