import Xv6.Kernel.CfsStats

/-!
# What get_cfs_stats reports

`get_cfs_priority` copies through the page table of the process it reports on, not of its caller,
finds slots that are not in use, and stores `long` counters in `int` fields. `get_cfs_stats_iff`
says for which calls the report nevertheless reaches the caller and nobody else.
-/

namespace Xv6

/-- The value of the `int` at an address. -/
def readInt (m : ByteMem) (a : Nat) : Int := toInt (ofBytes (m.read a 4))

/-- The `struct proc_info` at an address. -/
def readInfo (m : ByteMem) (a : Nat) : ProcInfo :=
  ⟨readInt m a, readInt m (a + 4), readInt m (a + 8), readInt m (a + 12)⟩

/-- The exact values that are to be reported. -/
def Proc.stats (x : Proc) : ProcInfo := ⟨x.cfsPriority, x.retime, x.rtime, x.stime⟩

/-! ## The bytes of a struct proc_info -/

@[simp] theorem ProcInfo.bytes_length (x : ProcInfo) : x.bytes.length = 16 := by
  simp [bytes]

theorem toInt_toInt (x : Int) : toInt (toInt x) = toInt x := by
  simp [toInt]

/-- One field of a `struct` that was stored is loaded again. -/
theorem readInt_write (m : ByteMem) (a : Nat) (xs zs : List UInt8) (x : Int) :
    readInt (m.write a (xs ++ leBytes 4 x ++ zs)) (a + xs.length) = toInt x := by
  have h := ByteMem.read_write_add m a xs (leBytes 4 x) zs
  rw [leBytes_length] at h
  rw [readInt, h, toInt_ofBytes_leBytes]

/-- A `struct proc_info` that was stored is loaded again. -/
theorem readInfo_write (m : ByteMem) (a : Nat) (x : Proc) :
    readInfo (m.write a x.info.bytes) a = x.info := by
  -- The field behind the bytes `xs`, which holds a value that was truncated already.
  have h (xs zs : List UInt8) (y : Int) (k : Nat) (hk : xs.length = k)
      (hb : x.info.bytes = xs ++ leBytes 4 (toInt y) ++ zs) :
      readInt (m.write a x.info.bytes) (a + k) = toInt y := by
    rw [hb, ← hk, readInt_write, toInt_toInt]
  let c := leBytes 4 (toInt x.cfsPriority)
  let re := leBytes 4 (toInt x.retime)
  let r := leBytes 4 (toInt x.rtime)
  let st := leBytes 4 (toInt x.stime)
  have hbytes : x.info.bytes = c ++ re ++ r ++ st := rfl
  rw [readInfo, h c (r ++ st) x.retime 4 (by simp [c]) (by simp [hbytes, re]),
    h (c ++ re) st x.rtime 8 (by simp [c, re]) (by simp [hbytes, r]),
    h (c ++ re ++ r) [] x.stime 12 (by simp [c, re, r]) (by simp [hbytes, st])]
  have hfirst := h [] (re ++ r ++ st) x.cfsPriority 0 rfl (by simp [hbytes, c])
  rw [Nat.add_zero] at hfirst
  rw [hfirst, Proc.info]

/-! ## What the call does -/

/-- The first slot with the given pid, in use or not. -/
def firstWithPid (proc : Slot → Proc) (pid : Int) : Option Slot :=
  (List.finRange NPROC).find? fun pp => (proc pp).pid = pid

variable {proc : Slot → Proc} {pid : Int}

theorem firstWithPid_eq_none :
    firstWithPid proc pid = none ↔ ∀ z, (proc z).pid ≠ pid := by
  simp [firstWithPid, List.find?_eq_none]

theorem getCfsPriority_of_none (v : AddrSpaces) (dst : Nat) (h : firstWithPid proc pid = none) :
    getCfsPriority proc v pid dst = (-1, v) := by
  rw [firstWithPid] at h
  simp only [getCfsPriority, h]

theorem getCfsPriority_of_some (v : AddrSpaces) (dst : Nat)
    {f : Slot} (h : firstWithPid proc pid = some f) :
    getCfsPriority proc v pid dst =
      if v.canWrite (proc f).pagetable dst 16 then
        (0, v.write (proc f).pagetable dst (proc f).info.bytes)
      else (-1, v) := by
  rw [firstWithPid] at h
  simp only [getCfsPriority, h, AddrSpaces.copyout, ProcInfo.bytes_length]
  cases v.canWrite (proc f).pagetable dst 16 <;> rfl

/-! ## The report -/

/-- Slot `z` holds a process with the given pid. -/
def IsTarget (proc : Slot → Proc) (pid : Int) (z : Slot) : Prop :=
  (proc z).state ≠ .unused ∧ (proc z).pid = pid

/-- The call of `caller` with result `r` succeeded exactly when it should, and then the exact values
    of a process with that pid stand in the memory of the caller and every other process keeps
    its memory. -/
def Reports (proc : Slot → Proc) (caller : Slot) (pid : Int) (dst : Nat) (v : AddrSpaces)
    (r : Int × AddrSpaces) : Prop :=
  (r.1 = 0 ↔ (∃ z, IsTarget proc pid z) ∧ v.canWrite (proc caller).pagetable dst 16) ∧
  (r.1 = 0 →
    (∃ z, IsTarget proc pid z ∧
      readInfo (r.2.mem (proc caller).pagetable) dst = (proc z).stats) ∧
    ∀ q, (proc q).state ≠ .unused → (proc q).pagetable ≠ (proc caller).pagetable →
      r.2.mem (proc q).pagetable = v.mem (proc q).pagetable)

/-- When the copy goes to the page table of `f`: it is the caller's and the values of a process with
    that pid fit into the `int` fields, or the copy changes no process and the caller's memory
    already holds them. -/
def ReachesCaller (proc : Slot → Proc) (caller : Slot) (pid : Int) (dst : Nat) (v : AddrSpaces)
    (f : Slot) : Prop :=
  if (proc f).pagetable = (proc caller).pagetable then
    ∃ z, IsTarget proc pid z ∧ (proc f).info = (proc z).stats
  else
    (∃ z, IsTarget proc pid z ∧
      readInfo (v.mem (proc caller).pagetable) dst = (proc z).stats) ∧
    ((∃ q, (proc q).state ≠ .unused ∧ (proc q).pagetable = (proc f).pagetable) →
      (v.mem (proc f).pagetable).read dst 16 = (proc f).info.bytes)

/-- The calls whose report is right. -/
def ReportFits (proc : Slot → Proc) (caller : Slot) (pid : Int) (dst : Nat) (v : AddrSpaces) :
    Prop :=
  ∀ f ∈ firstWithPid proc pid,
    if v.canWrite (proc f).pagetable dst 16 then
      v.canWrite (proc caller).pagetable dst 16 ∧ ReachesCaller proc caller pid dst v f
    else ¬ ((∃ z, IsTarget proc pid z) ∧ v.canWrite (proc caller).pagetable dst 16)

/-- The memory part of the report, after the copy to the page table of `f`. -/
theorem reachesCaller_iff {caller : Slot} {dst : Nat}
    {v v' : AddrSpaces} {f : Slot} (hv : v' = v.write (proc f).pagetable dst (proc f).info.bytes) :
    ((∃ z, IsTarget proc pid z ∧
        readInfo (v'.mem (proc caller).pagetable) dst = (proc z).stats) ∧
      ∀ q, (proc q).state ≠ .unused → (proc q).pagetable ≠ (proc caller).pagetable →
        v'.mem (proc q).pagetable = v.mem (proc q).pagetable) ↔
      ReachesCaller proc caller pid dst v f := by
  subst hv
  unfold ReachesCaller
  split
  case isTrue hpt =>
    rw [← hpt, AddrSpaces.write_mem_self, readInfo_write]
    constructor
    · exact fun h => h.1
    · exact fun h => ⟨h, fun q _ hq => v.write_mem_of_ne hq dst _⟩
  case isFalse hpt =>
    rw [v.write_mem_of_ne (Ne.symm hpt)]
    refine and_congr_right fun _ => ?_
    rw [← (proc f).info.bytes_length, ← ByteMem.write_eq_self_iff]
    constructor
    · rintro h ⟨q, hq, hqf⟩
      have hmem := h q hq (hqf ▸ hpt)
      rwa [hqf, AddrSpaces.write_mem_self] at hmem
    · intro h q hq hqc
      by_cases hqf : (proc q).pagetable = (proc f).pagetable
      · rw [hqf, AddrSpaces.write_mem_self]
        exact h ⟨q, hq, hqf⟩
      · exact v.write_mem_of_ne hqf dst _

/-- `get_cfs_stats` reports to its caller, and to nobody else, exactly in the calls that
    `ReportFits` describes. -/
theorem get_cfs_stats_iff (proc : Slot → Proc) (caller : Slot) (pid : Int) (dst : Nat)
    (v : AddrSpaces) :
    Reports proc caller (toInt pid) dst v (sysGetCfsStats proc v pid dst) ↔
      ReportFits proc caller (toInt pid) dst v := by
  unfold sysGetCfsStats ReportFits
  generalize toInt pid = pid
  cases hf : firstWithPid proc pid with
  | none =>
    have hnone := firstWithPid_eq_none.mp hf
    have hno : ¬ ∃ z, IsTarget proc pid z := fun ⟨z, hz⟩ => hnone z hz.2
    rw [getCfsPriority_of_none v dst hf]
    simp [Reports, hno]
  | some f =>
    rw [getCfsPriority_of_some v dst hf]
    simp only [Option.mem_some_iff, forall_eq']
    split
    case isTrue hw =>
      have hreach : _ ↔ ReachesCaller proc caller pid dst v f := reachesCaller_iff rfl
      simp only [Reports, true_iff, forall_const, hreach]
      constructor
      · exact fun h => ⟨h.1.2, h.2⟩
      · intro h
        refine ⟨⟨?_, h.1⟩, h.2⟩
        obtain ⟨⟨z, hz, -⟩, -⟩ := hreach.mpr h.2
        exact ⟨z, hz⟩
    case isFalse hw => simp [Reports]

/-! ## A report that goes to the wrong process -/

/-- The slot of a caller, and the slot of the process that it asks about. -/
def askingSlot : Slot := ⟨0, NPROC_pos⟩

@[inherit_doc askingSlot] def askedSlot : Slot := ⟨1, by decide⟩

/-- Two processes; the other slots are not in use. -/
def statsTable (z : Slot) : Proc :=
  if z = askingSlot then
    { Proc.zero with state := .running, pid := 1, pagetable := 10 }
  else if z = askedSlot then
    { Proc.zero with state := .runnable, pid := 2, pagetable := 11, cfsPriority := 1, rtime := 5 }
  else Proc.zero

/-- Their address spaces, zeroed; every address in them can be written. -/
def statsMem : AddrSpaces := ⟨fun _ _ => 0, fun pagetable _ => pagetable == 10 || pagetable == 11⟩

/-- The result of `get_cfs_stats(2, 0)`. -/
def statsResult : Int × AddrSpaces := sysGetCfsStats statsTable statsMem 2 0

/-- The call returns 0, but the process that was asked about is overwritten and the caller gets
    nothing. -/
theorem stats_go_to_target :
    statsResult.1 = 0 ∧
    readInfo (statsResult.2.mem (statsTable askingSlot).pagetable) 0 = ⟨0, 0, 0, 0⟩ ∧
    readInfo (statsResult.2.mem (statsTable askedSlot).pagetable) 0 = ⟨1, 0, 5, 0⟩ ∧
    ¬ Reports statsTable askingSlot 2 0 statsMem statsResult := by
  have hret : statsResult.1 = 0 := by decide +kernel
  have hasked : readInfo (statsResult.2.mem (statsTable askedSlot).pagetable) 0 = ⟨1, 0, 5, 0⟩ := by
    decide +kernel
  refine ⟨hret, by decide +kernel, hasked, fun h => ?_⟩
  have hsame := (h.2 hret).2 askedSlot (by decide) (by decide)
  rw [hsame] at hasked
  exact absurd hasked (by decide +kernel)

end Xv6
