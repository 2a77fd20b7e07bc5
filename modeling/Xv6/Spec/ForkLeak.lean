import Xv6.Kernel.Step
import Xv6.Kernel.Vm

/-!
# A fork that fails

`fork` with `allocproc` and `freeproc`, run to its end: the process table with the updates of
`Xv6.Kernel.Op`, the page tables, the free list of `kalloc` and the reference counts of files and
inodes. Which step fails follows from the free slots, the free list and the functions of `Vm`.

* `fork_leaks_nothing`: what a call that returns -1 may have changed.
-/

namespace Xv6.ForkLeak

open Xv6

/-- The state of a `fork`. -/
structure State (vm : Vm) where
  mem : Mem
  /-- the table at `p->pagetable`, which has no meaning if that is 0 -/
  table : Slot → vm.Table
  free : List Nat
  /-- `f->ref` of the file at an address -/
  fileRef : Nat → Nat
  /-- `ip->ref` of the inode at an address -/
  inodeRef : Nat → Nat
  /-- `p->lock` is held -/
  locked : Slot → Bool

variable {vm : Vm}

namespace State

def op (s : State vm) (o : Op) : State vm := { s with mem := o.apply s.mem }

def setLock (s : State vm) (p : Slot) (b : Bool) : State vm := { s with locked := upd s.locked p b }

/-- `freeproc`. -/
def freeproc (s : State vm) (p : Slot) : State vm :=
  let x := s.mem.proc p
  let free := if x.trapframe ≠ 0 then x.trapframe :: s.free else s.free
  { s.op (.free p) with
    free := if x.pagetable ≠ 0 then vm.procFreepagetable (s.table p) x.sz free else free }

/-- `allocproc`. -/
def allocproc (s : State vm) : Option Slot × State vm :=
  match (List.finRange NPROC).find? fun p => (s.mem.proc p).state == .unused with
  | none => (none, s)
  | some p =>
    let s := (s.setLock p true).op (.alloc p)
    match s.free with
    | [] => (none, (s.freeproc p).setLock p false)
    | pa :: free =>
      let s := { s.op (.setTrapframe p pa) with free := free }
      match vm.procPagetable s.free with
      | (none, free) => (none, ({ s with free := free }.freeproc p).setLock p false)
      | (some t, free) =>
        (some p, { s.op (.setPagetable p (vm.root t)) with table := upd s.table p t, free := free })

/-- The loop of `fork` over `p->ofile`, `idup(p->cwd)` and what follows. -/
def forkRest (p np : Slot) (s : State vm) : State vm :=
  let x := s.mem.proc p
  let s :=
    { s.op (.copy p np) with
      fileRef := fun f => s.fileRef f + ((List.finRange NOFILE).countP fun fd =>
        decide (x.ofile fd ≠ 0 ∧ x.ofile fd = f))
      inodeRef := upd s.inodeRef x.cwd (s.inodeRef x.cwd + 1) }
  (((s.op (.setParent p np)).op (.setRunnable p np))).setLock np false

/-- `fork` by process `p`. -/
def fork (p : Slot) (s : State vm) : Int × State vm :=
  match s.allocproc with
  | (none, s) => (-1, s)
  | (some np, s) =>
    let r := vm.uvmcopy (s.table p) (s.table np) (s.mem.proc p).sz s.free
    let s := { s with table := upd s.table np r.2.1, free := r.2.2 }
    if r.1 = false then (-1, (s.freeproc np).setLock np false)
    else ((s.mem.proc np).pid, s.forkRest p np)

end State

/-! ## What a failing fork leaves behind -/

/-- A slot that is not in use, as `freeproc` leaves it. It may have been hit by `kill(0)`. -/
structure Blank (x : Proc) : Prop where
  pid : x.pid = 0
  parent : x.parent = none
  sz : x.sz = 0
  pagetable : x.pagetable = 0
  trapframe : x.trapframe = 0
  chan : x.chan = none
  xstate : x.xstate = 0

/-- The same slot, or one that is not in use and differs in `killed` and its scheduling fields. -/
def Kept (x x' : Proc) : Prop :=
  x' = x ∨ x.state = .unused ∧
    x' = { x with
      killed := false
      psPriority := x'.psPriority
      cfsPriority := x'.cfsPriority
      rtime := x'.rtime
      stime := x'.stime
      retime := x'.retime }

/-- Only `nextpid` and slots that are not in use have changed. -/
structure Undone (s s' : State vm) : Prop where
  free : s'.free.Perm s.free
  fileRef : s'.fileRef = s.fileRef
  inodeRef : s'.inodeRef = s.inodeRef
  locked : s'.locked = s.locked
  proc : ∀ q, Kept (s.mem.proc q) (s'.mem.proc q)
  table : ∀ q, (s.mem.proc q).pagetable ≠ 0 → s'.table q = s.table q

variable {s s' : State vm} {np : Slot}

/-- The pages that hang from a slot. -/
def State.pages (s : State vm) (p : Slot) : List Nat :=
  (if (s.mem.proc p).trapframe ≠ 0 then [(s.mem.proc p).trapframe] else []) ++
    if (s.mem.proc p).pagetable ≠ 0 then vm.owned (s.table p) else []

/-- A `fork` from `s` on that has taken slot `np` and not yet given it a size. -/
structure Started (s : State vm) (np : Slot) (s' : State vm) : Prop where
  unused : (s.mem.proc np).state = .unused
  slot : Kept (s.mem.proc np) (Xv6.freeproc (s'.mem.proc np))
  sz : (s'.mem.proc np).sz = 0
  proc : ∀ q, q ≠ np → s'.mem.proc q = s.mem.proc q
  table : ∀ q, q ≠ np → s'.table q = s.table q
  locked : s'.locked = upd s.locked np true
  fileRef : s'.fileRef = s.fileRef
  inodeRef : s'.inodeRef = s.inodeRef
  pages : (s'.pages np ++ s'.free).Perm s.free
  user : (s'.mem.proc np).pagetable ≠ 0 → ∀ n, vm.user (s'.table np) n = none

/-- What `freeproc` makes of a slot that was blank. -/
theorem Blank.kept {x x' : Proc} (hb : Blank x) (hu : x.state = .unused) (hsame : x' = { x with
      pid := x'.pid
      state := x'.state
      trapframe := x'.trapframe
      pagetable := x'.pagetable
      psPriority := x'.psPriority
      cfsPriority := x'.cfsPriority
      rtime := x'.rtime
      stime := x'.stime
      retime := x'.retime }) : Kept x (Xv6.freeproc x') := by
  obtain ⟨hpid, hparent, hsz, hpt, htf, hchan, hxstate⟩ := hb
  refine .inr ⟨hu, ?_⟩
  cases x
  cases x'
  simp only [Proc.mk.injEq, true_and, and_true] at hsame
  simp only at hpid hparent hsz hpt htf hchan hxstate hu
  simp only [Xv6.freeproc, hsame, hpid, hparent, hsz, hpt, htf, hchan, hxstate, hu]

/-- The failure paths of `fork`: `freeproc(np); release(&np->lock)`. -/
theorem Started.undone (h : Started s np s') (hlock : s.locked np = false)
    (hpt : (s.mem.proc np).pagetable = 0) :
    Undone s ((s'.freeproc np).setLock np false) := by
  refine ⟨?_, h.fileRef, h.inodeRef, ?_, fun q => ?_, fun q hq => ?_⟩
  · refine List.Perm.trans ?_ h.pages
    show List.Perm (if _ then _ else _) _
    rw [State.pages]
    generalize hf : (if (s'.mem.proc np).trapframe ≠ 0 then
      (s'.mem.proc np).trapframe :: s'.free else s'.free) = f
    have hfree : f = (if (s'.mem.proc np).trapframe ≠ 0 then [(s'.mem.proc np).trapframe] else []) ++
        s'.free := by
      rw [← hf]
      split <;> rfl
    by_cases ht : (s'.mem.proc np).pagetable ≠ 0
    · have hnone : ∀ n, vm.user (s'.table np) n ≠ none → n * PGSIZE < (s'.mem.proc np).sz :=
        fun n hn => absurd (h.user ht n) hn
      rw [if_pos ht, if_pos ht]
      refine (Vm.procFreepagetable_pages hnone f).trans ?_
      rw [hfree, ← List.append_assoc]
      exact List.perm_append_comm.append_right _
    · rw [if_neg ht, if_neg ht, hfree, List.append_nil]
  · show upd s'.locked np false = s.locked
    rw [h.locked, upd_upd]
    exact upd_of_eq hlock
  · show Kept _ (((Op.free np).apply s'.mem).proc q)
    by_cases hq : q = np
    · rw [hq, Op.apply_proc_target _ _ rfl]
      exact h.slot
    · rw [Op.apply_proc_other _ _ rfl hq, h.proc q hq]
      exact .inl rfl
  · have hne : q ≠ np := fun heq => hq (heq ▸ hpt)
    exact h.table q hne

/-! ## The failure paths -/

section

variable (hb : Blank (s.mem.proc np)) (hu : (s.mem.proc np).state = .unused)
include hb hu

/-- `fork` has made `x` of a blank slot. -/
theorem Blank.started {x : Proc} (hnp : s'.mem.proc np = x) (hx : x = { s.mem.proc np with
      pid := x.pid
      state := x.state
      trapframe := x.trapframe
      pagetable := x.pagetable
      psPriority := x.psPriority
      cfsPriority := x.cfsPriority
      rtime := x.rtime
      stime := x.stime
      retime := x.retime }) (hproc : ∀ q, q ≠ np → s'.mem.proc q = s.mem.proc q)
    (htable : ∀ q, q ≠ np → s'.table q = s.table q) (hlocked : s'.locked = upd s.locked np true)
    (hfile : s'.fileRef = s.fileRef) (hinode : s'.inodeRef = s.inodeRef)
    (hpages : (((if x.trapframe ≠ 0 then [x.trapframe] else []) ++
      if x.pagetable ≠ 0 then vm.owned (s'.table np) else []) ++ s'.free).Perm s.free)
    (huser : x.pagetable ≠ 0 → ∀ n, vm.user (s'.table np) n = none) : Started s np s' := by
  refine ⟨hu, hnp ▸ hb.kept hu hx, ?_, hproc, htable, hlocked, hfile, hinode, ?_, hnp ▸ huser⟩
  · rw [hnp, hx]
    exact hb.sz
  · rw [State.pages, hnp]
    exact hpages

/-- `allocproc` has found its slot. -/
theorem started_alloc : Started s np ((s.setLock np true).op (.alloc np)) := by
  refine hb.started hu (Op.apply_proc_target (.alloc np) s.mem rfl) rfl
    (fun q hq => Op.apply_proc_other (.alloc np) s.mem rfl hq) (fun _ _ => rfl) rfl rfl rfl ?_
    fun ht => absurd hb.pagetable ht
  show List.Perm (((if (s.mem.proc np).trapframe ≠ 0 then _ else _) ++
    if (s.mem.proc np).pagetable ≠ 0 then _ else _) ++ s.free) s.free
  rw [if_neg (not_not.mpr hb.trapframe), if_neg (not_not.mpr hb.pagetable)]
  exact .refl _

variable {pa : Nat} {rest free : List Nat} (hpa : pa ≠ 0) (hfree : s.free = pa :: rest)
include hpa hfree

/-- `allocproc` has a trapframe and no page table. -/
theorem started_trapframe (hperm : free.Perm rest) :
    Started s np
      { ((s.setLock np true).op (.alloc np)).op (.setTrapframe np pa) with free := free } := by
  have h₁ := Op.apply_proc_target (.alloc np) s.mem (q := np) rfl
  have hnp := Op.apply_proc_target (.setTrapframe np pa) ((Op.alloc np).apply s.mem) (q := np) rfl
  rw [h₁] at hnp
  refine hb.started hu hnp rfl (fun q hq => ?_) (fun _ _ => rfl) rfl rfl rfl ?_
    fun ht => absurd hb.pagetable ht
  · exact (Op.apply_proc_other (.setTrapframe np pa) _ rfl hq).trans
      (Op.apply_proc_other (.alloc np) s.mem rfl hq)
  · show List.Perm (((if pa ≠ 0 then [pa] else []) ++
      if (s.mem.proc np).pagetable ≠ 0 then _ else _) ++ free) s.free
    rw [if_pos hpa, if_neg (not_not.mpr hb.pagetable), hfree]
    exact hperm.cons pa

/-- `allocproc` is done. -/
theorem started_pagetable {t : vm.Table} (hperm : (vm.owned t ++ free).Perm rest)
    (huser : ∀ n, vm.user t n = none) :
    Started s np
      { (((s.setLock np true).op (.alloc np)).op (.setTrapframe np pa)).op
          (.setPagetable np (vm.root t)) with
        table := upd s.table np t
        free := free } := by
  have h₁ := Op.apply_proc_target (.alloc np) s.mem (q := np) rfl
  have h₂ := Op.apply_proc_target (.setTrapframe np pa) ((Op.alloc np).apply s.mem) (q := np) rfl
  have hnp := Op.apply_proc_target (.setPagetable np (vm.root t))
    ((Op.setTrapframe np pa).apply ((Op.alloc np).apply s.mem)) (q := np) rfl
  rw [h₂, h₁] at hnp
  refine hb.started hu hnp rfl (fun q hq => ?_) (fun q hq => upd_of_ne hq t) rfl rfl rfl ?_
    fun _ n => ?_
  · exact ((Op.apply_proc_other (.setPagetable np (vm.root t)) _ rfl hq).trans
      (Op.apply_proc_other (.setTrapframe np pa) _ rfl hq)).trans
      (Op.apply_proc_other (.alloc np) s.mem rfl hq)
  · show List.Perm (((if pa ≠ 0 then [pa] else []) ++
      if vm.root t ≠ 0 then vm.owned (upd s.table np t np) else []) ++ free) s.free
    rw [if_pos hpa, if_pos (vm.root_ne t), upd_self, hfree]
    exact hperm.cons pa
  · show vm.user (upd s.table np t np) n = none
    rw [upd_self]
    exact huser n

end

/-- `uvmcopy` has failed. -/
theorem Started.copied (h : Started s np s') (hpt : (s'.mem.proc np).pagetable ≠ 0) (old : vm.Table)
    (sz : Nat) (hfail : (vm.uvmcopy old (s'.table np) sz s'.free).1 = false) :
    Started s np
      { s' with
        table := upd s'.table np (vm.uvmcopy old (s'.table np) sz s'.free).2.1
        free := (vm.uvmcopy old (s'.table np) sz s'.free).2.2 } := by
  refine { h with
    table := fun q hq => (upd_of_ne hq _).trans (h.table q hq), pages := ?_, user := fun _ n => ?_ }
  · refine List.Perm.trans ?_ h.pages
    rw [State.pages, State.pages, if_pos hpt, if_pos hpt, List.append_assoc, List.append_assoc]
    show List.Perm (_ ++ (vm.owned (upd s'.table np _ np) ++ _)) _
    rw [upd_self]
    exact (vm.copy_pages old (s'.table np) sz s'.free).append_left _
  · show vm.user (upd s'.table np _ np) n = none
    rw [upd_self, vm.copy_user _ _ _ _ hfail]
    exact h.user hpt n

/-! ## Failed forks -/

theorem Undone.refl (s : State vm) : Undone s s :=
  ⟨.refl _, rfl, rfl, rfl, fun _ => .inl rfl, fun _ _ => rfl⟩

/-- `allocproc` fails without a trace, or has taken a slot and given it a page table. -/
theorem allocproc_spec (hblank : ∀ q, (s.mem.proc q).state = .unused → Blank (s.mem.proc q))
    (hlock : ∀ q, s.locked q = false) (hpages : ∀ pa ∈ s.free, pa ≠ 0) :
    match s.allocproc with
    | (none, s') => Undone s s'
    | (some np, s') => Started s np s' ∧ (s'.mem.proc np).pagetable ≠ 0 ∧
        (s.mem.proc np).pagetable = 0 ∧ (s'.mem.proc np).pid = s.mem.nextpid := by
  rw [State.allocproc]
  cases hfind : (List.finRange NPROC).find? fun p => (s.mem.proc p).state == .unused with
  | none => exact .refl s
  | some np =>
    have hu : (s.mem.proc np).state = .unused := by simpa using List.find?_some hfind
    have hb := hblank np hu
    show match (match s.free with | [] => _ | _ :: _ => _ : Option Slot × State vm) with
      | (none, s') => Undone s s'
      | (some np, s') => _
    cases hfree : s.free with
    | nil => exact (started_alloc hb hu).undone (hlock np) hb.pagetable
    | cons pa rest =>
      have hpa : pa ≠ 0 := hpages pa (by rw [hfree]; exact List.mem_cons_self)
      have hspec := vm.procPagetable_spec rest
      dsimp only
      generalize vm.procPagetable rest = r at hspec
      obtain ⟨t, free⟩ := r
      cases t with
      | none => exact (started_trapframe hb hu hpa hfree hspec).undone (hlock np) hb.pagetable
      | some t =>
        have h₁ := Op.apply_proc_target (.alloc np) s.mem (q := np) rfl
        have h₂ := Op.apply_proc_target (.setTrapframe np pa) ((Op.alloc np).apply s.mem) (q := np)
          rfl
        have hnp := Op.apply_proc_target (.setPagetable np (vm.root t))
          ((Op.setTrapframe np pa).apply ((Op.alloc np).apply s.mem)) (q := np) rfl
        rw [h₂, h₁] at hnp
        refine ⟨started_pagetable hb hu hpa hfree hspec.1 hspec.2, ?_, hb.pagetable, ?_⟩
        · exact fun h0 => vm.root_ne t ((congrArg Proc.pagetable hnp).symm.trans h0)
        · exact congrArg Proc.pid hnp

/-- A `fork` that fails gives everything back. A new child whose pid is -1 is no failure. -/
theorem fork_leaks_nothing (s : State vm) (p : Slot)
    (hblank : ∀ q, (s.mem.proc q).state = .unused → Blank (s.mem.proc q))
    (hlock : ∀ q, s.locked q = false) (hpages : ∀ pa ∈ s.free, pa ≠ 0)
    (hpid : s.mem.nextpid ≠ -1) (hfail : (s.fork p).1 = -1) : Undone s (s.fork p).2 := by
  have hspec := allocproc_spec hblank hlock hpages
  rw [State.fork] at hfail ⊢
  generalize s.allocproc = r at hspec hfail
  obtain ⟨_ | np, s'⟩ := r
  · exact hspec
  · obtain ⟨hstart, hpt, hold, hnew⟩ := hspec
    dsimp only at hfail ⊢
    by_cases hcopy : (vm.uvmcopy (s'.table p) (s'.table np) (s'.mem.proc p).sz s'.free).1 = false
    · rw [if_pos hcopy]
      exact (hstart.copied hpt (s'.table p) _ hcopy).undone (hlock np) hold
    · rw [if_neg hcopy] at hfail
      exact absurd (hnew.symm.trans hfail) hpid

/-- The first process after boot with the free pages `free`. -/
def atBoot (free : List Nat) : State flatVm where
  mem := userinit ⟨4096, 8192, 1, 0⟩
  table _ := ⟨8192, by decide, [], fun _ => 0⟩
  free := free
  fileRef _ := 0
  inodeRef _ := 1
  locked _ := false

/-- Two pages are left: the trapframe and the table itself are allocated, and the memory of the
    parent has no room. -/
theorem fork_leaks_nothing_boot :
    ((atBoot [12288, 16384]).fork 0).1 = -1 ∧
      Undone (atBoot [12288, 16384]) ((atBoot [12288, 16384]).fork 0).2 := by
  have hfail : ((atBoot [12288, 16384]).fork 0).1 = -1 := by decide +kernel
  refine ⟨hfail, fork_leaks_nothing _ 0 (fun q hq => ?_) (fun _ => rfl) (by decide) (by decide) hfail⟩
  by_cases h0 : q = 0
  · exact absurd hq (by rw [h0]; decide)
  · have hz : (atBoot [12288, 16384]).mem.proc q = Proc.zero := by
      show (userinit _).proc q = _
      simp [userinit, procinit, Op.apply, Op.target, h0]
    rw [hz]
    exact ⟨rfl, rfl, rfl, rfl, rfl, rfl, rfl⟩

/-- `kill(0)` marks the first slot that is not in use. A `fork` that fails removes the mark. -/
theorem fork_clears_killed :
    let s : State flatVm := (atBoot []).op (.kill 1 0)
    (s.mem.proc 1).state = .unused ∧ (s.mem.proc 1).killed = true ∧ (s.fork 0).1 = -1 ∧
      ((s.fork 0).2.mem.proc 1).killed = false := by
  decide +kernel

end Xv6.ForkLeak
