import Xv6.Spec.ArgStack
import Xv6.Spec.BlockOwnership

/-!
# exec fails cleanly

A call of `exec` builds a new page table from pages of the free list, below `sz`, and replaces the old one
only at its end.

* `exec_fails_cleanly`: what `sys_exec` leaves behind in either case.
* `exec_argument_stack`: what it leaves on the new stack.
-/

namespace Xv6.Exec

open Fs (At InodePtr NameStops)
open Prog (ends_bind ends_pure ends_modify ends_atomic ends_zoom)

variable {vm : Vm}

/-- Every reason to stop but those of `loadseg`. -/
def LoadOk (why : Stop) : Prop :=
  why ≠ .panic "loadseg: address should exist" ∧ why ≠ .panic "loadseg: endless loop"

instance : DecidablePred LoadOk := fun _ => inferInstanceAs (Decidable (_ ∧ _))

instance : NameStops LoadOk := ⟨⟨by decide, by decide, by decide⟩, by decide, by decide, by decide⟩

/-- `exec` from `s₀` on has taken `pages` from the free list, with `ops` calls of `begin_op` to be ended. The
    process is as before. -/
structure Begun (base : InodePtr → Nat) (held : Multiset InodePtr) (L : Finset InodePtr) (ops : Nat)
    (pages : List Nat) (s₀ s : State vm) : Prop where
  fs : At base held L s.fs
  outstanding : s.outstanding = s₀.outstanding + ops
  free : (pages ++ s.free).Perm s₀.free
  pagetable : s.pagetable = s₀.pagetable
  sz : s.sz = s₀.sz
  trapframe : s.trapframe = s₀.trapframe
  name : s.name = s₀.name

/-- The user pages of a table are those below `sz`. -/
def Filled (t : vm.Table) (sz : Nat) : Prop := ∀ n, vm.user t n ≠ none ↔ n * PGSIZE < sz

/-- No user page lies at `sz` or above. -/
def Below (t : vm.Table) (sz : Nat) : Prop := ∀ n, vm.user t n ≠ none → n * PGSIZE < sz

variable {base : InodePtr → Nat} {held : Multiset InodePtr} {L : Finset InodePtr} {ops sz : Nat}
  {pages : List Nat} {s₀ s s' : State vm} {t : vm.Table} {ip : InodePtr} {E : Stop → Prop}

theorem Filled.below (h : Filled t sz) : Below t sz := fun n => (h n).mp

/-- The memory of a process fits into the memory of the machine. -/
theorem Filled.le (h : Filled t sz) (hb : Begun base held L ops (vm.owned t) s₀ s)
    (hmem : s₀.free.length ≤ NPAGES) : sz ≤ NPAGES * PGSIZE := by
  have hle := vm.user_le t ((sz + 4095) / 4096) fun k hk => (h k).mpr (by rw [PGSIZE]; omega)
  have hlen := hb.free.length_eq
  rw [List.length_append] at hlen
  rw [NPAGES] at hmem ⊢
  rw [PGSIZE]
  omega

/-- A call of `readi` changes nothing. -/
theorem readi_lift {Q : List UInt8 → State vm → Prop} (h : At base held L s.fs) (hip : ip ∈ L) {off n : Nat}
    (hQ : ∀ bs, Q bs s) : (Prog.zoom (fsPart vm) (Fs.readi ip off n)).Ends E Q s := by
  rw [ends_zoom]
  refine (Fs.readi_ends (h.filled hip) off n).mono fun bs fs hfs => ?_
  obtain ⟨rfl, -⟩ := hfs
  exact hQ bs

theorem Begun.setFree {pages' f : List Nat} (h : Begun base held L ops pages s₀ s)
    (hf : (pages' ++ f).Perm (pages ++ s.free)) :
    Begun base held L ops pages' s₀ { s with free := f } :=
  ⟨h.fs, h.outstanding, hf.trans h.free, h.pagetable, h.sz, h.trapframe, h.name⟩

/-! ## Loading the program -/

section

variable (h : Begun base held L ops (vm.owned t) s₀ s)
include h

/-- `uvmalloc` fails, or the table is filled up to a size that is not below the new one. -/
theorem uvmalloc_ends (ht : Filled t sz) (newsz perm : Nat) :
    (uvmalloc t sz newsz perm).Ends E
      (fun r s' => Begun base held L ops (vm.owned r.2) s₀ s' ∧
        (r.1 = 0 ∧ Filled r.2 sz ∨
          r.1 ≠ 0 ∧ newsz ≤ r.1 ∧ (sz ≤ newsz → r.1 = newsz) ∧ Filled r.2 r.1)) s := by
  rw [uvmalloc, paged, ends_atomic]
  refine ⟨h.setFree (vm.alloc_pages t sz newsz perm s.free), ?_⟩
  by_cases hlt : newsz < sz
  · simp only [vm.alloc_less t sz newsz perm s.free hlt]
    exact .inr ⟨by omega, by omega, by omega, ht⟩
  rcases vm.alloc_user t sz newsz perm s.free (by omega) with ⟨hsz, huser⟩ | ⟨hsz, huser⟩
  · have hfill : Filled (vm.uvmalloc t sz newsz perm s.free).2.1 newsz := by
      intro n
      rw [huser n, ht n, PGROUNDUP, PGSIZE]
      omega
    dsimp only
    rw [hsz]
    by_cases h0 : newsz = 0
    · have hsz0 : sz = newsz := by omega
      exact .inl ⟨h0, hsz0 ▸ hfill⟩
    · exact .inr ⟨h0, le_rfl, fun _ => rfl, hfill⟩
  · exact .inl ⟨hsz, fun n => by rw [huser]; exact ht n⟩

/-- The rounds of `loadseg`. -/
theorem loadseg_loop_ends {va k i : Nat} {offset len : BitVec 32} (ht : Filled t sz) (hip : ip ∈ L)
    (hva : va % PGSIZE = 0) (hend : va + len.toNat ≤ sz) (hsz : sz ≤ NPAGES * PGSIZE)
    (hi : i % PGSIZE = 0) (hk : i + PGSIZE * k = (len.toNat + PGSIZE - 1) / PGSIZE * PGSIZE) :
    (loadseg.loop va ip offset len k i t).Ends LoadOk
      (fun r s' => Begun base held L ops (vm.owned r.2) s₀ s' ∧ Filled r.2 sz) s := by
  have hpg : PGSIZE = 4096 := rfl
  rw [NPAGES, hpg] at hsz
  rw [hpg] at hva
  induction k generalizing i t with
  | zero =>
    rw [hpg] at hk
    rw [loadseg.loop, if_neg (by omega), ends_pure]
    exact ⟨h, ht⟩
  | succ k ih =>
    have hk' := hk
    rw [hpg] at hi hk'
    have hin : (va + i) % 2 ^ 64 / PGSIZE * PGSIZE < sz := by
      rw [hpg]
      omega
    rw [loadseg.loop, if_neg ((ht _).mpr hin)]
    simp only [ends_bind]
    refine readi_lift h.fs hip fun bs => ?_
    -- the table after the store
    have hown : vm.owned (vm.load t ((va + i) % 2 ^ 64) bs) = vm.owned t := vm.load_pages ..
    have h' : Begun base held L ops (vm.owned (vm.load t ((va + i) % 2 ^ 64) bs)) s₀ s := by
      rw [hown]
      exact h
    have ht' : Filled (vm.load t ((va + i) % 2 ^ 64) bs) sz := fun n => by
      rw [vm.load_user]
      exact ht n
    generalize (if len.toNat - i < PGSIZE then len.toNat - i else PGSIZE) = m
    by_cases hm : bs.length ≠ m
    · rw [if_pos hm, ends_pure]
      exact ⟨h', ht'⟩
    · rw [if_neg hm]
      exact ih h' ht' (by rw [hpg]; omega) (by rw [← hk, Nat.mul_succ]; omega)

/-- The loop over the program headers, which keeps the table filled up to `sz`. -/
theorem loadSegs_ends {n : Nat} {off : BitVec 32}
    (ht : Filled t sz) (hip : ip ∈ L) (hmem : s₀.free.length ≤ NPAGES) :
    (loadSegs ip n off t sz).Ends LoadOk
      (fun r s' => Begun base held L ops (vm.owned r.2.1) s₀ s' ∧ Filled r.2.1 r.2.2) s := by
  induction n generalizing off t sz s with
  | zero => exact ends_pure.mpr ⟨h, ht⟩
  | succ n ih =>
    have hbad : (pure (false, t, sz) : M vm _).Ends LoadOk
        (fun r s' => Begun base held L ops (vm.owned r.2.1) s₀ s' ∧ Filled r.2.1 r.2.2) s :=
      ends_pure.mpr ⟨h, ht⟩
    rw [loadSegs, ends_bind]
    refine readi_lift h.fs hip fun bs => ?_
    by_cases hlen : bs.length ≠ Proghdr.size
    · rw [if_pos hlen]
      exact hbad
    rw [if_neg hlen]
    generalize Proghdr.decode bs = ph
    dsimp only
    by_cases htype : ph.type ≠ ELF_PROG_LOAD
    · rw [if_pos htype]
      exact ih h ht
    rw [if_neg htype]
    by_cases hfile : ph.memsz < ph.filesz
    · rw [if_pos hfile]
      exact hbad
    rw [if_neg hfile]
    by_cases hwrap : ph.vaddr + ph.memsz < ph.vaddr
    · rw [if_pos hwrap]
      exact hbad
    rw [if_neg hwrap]
    by_cases hva : ph.vaddr.toNat % PGSIZE ≠ 0
    · rw [if_pos hva]
      exact hbad
    rw [if_neg hva, ends_bind]
    refine (uvmalloc_ends h ht _ _).mono fun r s₁ hr => ?_
    obtain ⟨sz1, t₁⟩ := r
    obtain ⟨h₁, ⟨h0, ht₁⟩ | ⟨h0, hnew, -, ht₁⟩⟩ := hr
    · rw [if_pos h0, ends_pure]
      exact ⟨h₁, ht₁⟩
    · rw [if_neg h0, ends_bind]
      -- the 32 bits of `filesz` that `loadseg` gets end below the new size
      have hend : ph.vaddr.toNat + (ph.filesz.setWidth 32).toNat ≤ sz1 := by
        have hsum : (ph.vaddr + ph.memsz).toNat = ph.vaddr.toNat + ph.memsz.toNat := by
          rw [BitVec.lt_def, BitVec.toNat_add] at hwrap
          rw [BitVec.toNat_add]
          omega
        rw [hsum] at hnew
        rw [BitVec.lt_def] at hfile
        rw [BitVec.toNat_setWidth]
        omega
      refine (loadseg_loop_ends h₁ ht₁ hip (not_not.mp hva) hend (ht₁.le h₁ hmem) (Nat.zero_mod _)
        (by rw [Nat.zero_add, Nat.mul_comm])).mono fun r s₂ hr => ?_
      obtain ⟨ok, t₂⟩ := r
      cases ok with
      | false => exact ends_pure.mpr hr
      | true => exact ih hr.1 hr.2

/-! ## The exits -/

/-- The new table is freed. -/
theorem Begun.freed (ht : Below t sz) :
    Begun base held L ops [] s₀ { s with free := vm.procFreepagetable t sz s.free } :=
  h.setFree (Vm.procFreepagetable_pages ht s.free)

end

/-- `iunlockput(ip); end_op();`. -/
theorem release_ends (h : Begun base (ip ::ₘ 0) (insert ip ∅) 1 pages s₀ s) :
    (Prog.zoom (fsPart vm) (Fs.iunlockput ip)).Ends E
      (fun _ => endOp.Ends E fun _ => Begun base 0 ∅ 0 pages s₀) s := by
  rw [ends_zoom]
  refine (Fs.iunlockput_insert_ends h.fs (Finset.notMem_empty _)).mono fun _ fs hfs => ?_
  refine ends_modify.mpr ⟨hfs, ?_, h.free, h.pagetable, h.sz, h.trapframe, h.name⟩
  show s.outstanding - 1 = _
  rw [h.outstanding]
  rfl

/-- `bad` with the inode still locked. -/
theorem bad_locked_ends {o : Option vm.Table}
    (h : Begun base (ip ::ₘ 0) (insert ip ∅) 1 (o.elim [] vm.owned) s₀ s) (ho : ∀ t ∈ o, Below t sz) :
    (bad o sz (some ip)).Ends E (fun r s' => r = none ∧ Begun base 0 ∅ 0 [] s₀ s') s := by
  cases o with
  | none =>
    simp only [bad, ends_bind, ends_pure, true_and]
    exact release_ends h
  | some t =>
    simp only [bad, procFreepagetable, ends_bind, ends_modify, ends_pure, true_and]
    exact release_ends (h.freed (ho t rfl))

/-- `bad` with the inode released. -/
theorem bad_ends (h : Begun base 0 ∅ 0 (vm.owned t) s₀ s) (ht : Below t sz) :
    (bad (some t) sz none).Ends E (fun r s' => r = none ∧ Begun base 0 ∅ 0 [] s₀ s') s := by
  simp only [bad, procFreepagetable, ends_bind, ends_modify, ends_pure]
  exact ⟨trivial, h.freed ht⟩

/-- `exec` has replaced the user image. -/
structure Replaced (base : InodePtr → Nat) (argv : List Arg) (s₀ s : State vm) : Prop where
  fs : At base 0 ∅ s.fs
  outstanding : s.outstanding = s₀.outstanding
  pages : (vm.owned s.pagetable ++ s.free).Perm (vm.owned s₀.pagetable ++ s₀.free)
  below : Below s.pagetable s.sz
  a1 : s.trapframe.a1 = s.trapframe.sp
  args : Args (vm.mem s.pagetable) (s.sz - PGSIZE) s.sz s.trapframe.sp argv

/-- The result of `exec`. -/
def ExecResult (base : InodePtr → Nat) (argv : List Arg) (s₀ : State vm) (r : Option Nat) (s : State vm) : Prop :=
  r = none ∧ Begun base 0 ∅ 0 [] s₀ s ∨ r = some argv.length ∧ Replaced base argv s₀ s

variable {path : List UInt8} {argv : List Arg}

theorem execStack_ends {entry : Nat} (h : Begun base 0 ∅ 0 (vm.owned t) s₀ s) (ht : Filled t sz)
    (hmem : s₀.free.length ≤ NPAGES) (hold : Below s₀.pagetable s₀.sz) (hargc : argv.length < MAXARG) :
    (execStack path argv entry t sz).Ends E (ExecResult base argv s₀) s := by
  have hpg : PGSIZE = 4096 := rfl
  have hle : sz ≤ 32768 * 4096 := ht.le h hmem
  obtain ⟨top, htop⟩ : ∃ top, PGROUNDUP sz = top := ⟨_, rfl⟩
  have hround : top = (sz + 4095) / 4096 * 4096 := htop.symm
  have hup : top % 2 ^ 64 = top := Nat.mod_eq_of_lt (by omega)
  have hfill : Filled t top := fun n => by
    rw [ht n, hpg]
    omega
  have hnew : (top + 2 * PGSIZE) % 2 ^ 64 = top + 2 * PGSIZE := Nat.mod_eq_of_lt (by omega)
  rw [execStack, ends_bind, Prog.ends_gets, htop, hup]
  simp only [hnew, ends_bind]
  refine (uvmalloc_ends h hfill _ _).mono fun r s₁ hr => ?_
  obtain ⟨sz1, t₁⟩ := r
  obtain ⟨h₁, ⟨h0, ht₁⟩ | ⟨h0, -, hsz1, ht₁⟩⟩ := hr
  · rw [if_pos h0]
    exact (bad_ends h₁ ht₁.below).mono fun r s' hr => .inl hr
  rw [if_neg h0]
  dsimp only at h₁ ht₁ hsz1 ⊢
  have hsz1 := hsz1 (by omega)
  generalize hc : vm.uvmclear t₁ (sub64 sz1 (2 * PGSIZE)) = t₂
  have hown₂ : vm.owned t₂ = vm.owned t₁ := hc ▸ vm.clear_pages ..
  have hbelow₂ : Below t₂ sz1 := fun n hn => ht₁.below n (vm.clear_user _ _ n (hc ▸ hn))
  have hspec := pushArgv_spec t₂ sz1 (by omega) (by omega) (by omega) hargc
  rw [← hown₂] at h₁
  cases hx : pushArgv t₂ sz1 argv with
  | error x =>
    rw [hx] at hspec
    have hbx : Below x.table sz1 := fun n hn => hbelow₂ n (hspec.user ▸ hn)
    rw [← hspec.owned] at h₁
    exact (bad_ends h₁ hbx).mono fun r s' hr => .inl hr
  | ok x =>
    rw [hx] at hspec
    obtain ⟨hargs, -, -, hown, huser⟩ := hspec
    rw [← hown] at h₁
    simp only [procFreepagetable, ends_bind, Prog.ends_gets, ends_modify, ends_pure]
    refine .inr ⟨rfl, h₁.fs, h₁.outstanding, ?_, fun n hn => ?_, rfl, hargs⟩
    · show (vm.owned x.table ++ vm.procFreepagetable s₁.pagetable s.sz s₁.free).Perm _
      rw [h₁.pagetable, h.sz]
      refine ((Vm.procFreepagetable_pages hold s₁.free).append_left _).trans ?_
      rw [← List.append_assoc]
      refine (List.perm_append_comm.append_right _).trans ?_
      rw [List.append_assoc]
      exact h₁.free.append_left _
    · exact hbelow₂ n (huser ▸ hn)

/-- `exec` replaces the user image, or fails and leaves everything as it was. -/
theorem exec_ends {cwd : InodePtr} (h : At base 0 ∅ s.fs) (hcwd : 0 < base cwd)
    (hmem : s.free.length ≤ NPAGES) (hold : Below s.pagetable s.sz) (hargc : argv.length < MAXARG) :
    (exec cwd path argv).Ends LoadOk (ExecResult base argv s) s := by
  rw [exec, ends_bind, beginOp, ends_modify, ends_bind]
  refine ends_zoom.mpr ((Fs.namei_ends h hcwd path).mono fun r fs hfs => ?_)
  cases r with
  | none =>
    simp only [endOp, ends_bind, ends_modify, ends_pure]
    exact .inl ⟨rfl, hfs, rfl, .refl _, rfl, rfl, rfl, rfl⟩
  | some ip =>
    simp only [ends_bind]
    refine ends_zoom.mpr ((Fs.ilock_ends hfs NameStops.lock ip).mono fun _ fs' hfs' => ?_)
    have hb : Begun base (ip ::ₘ 0) (insert ip ∅) 1 [] s
        { s with outstanding := s.outstanding + 1, fs := fs' } :=
      ⟨hfs'.2, rfl, .refl _, rfl, rfl, rfl, rfl⟩
    have hip : ip ∈ insert ip (∅ : Finset InodePtr) := Finset.mem_insert_self ip ∅
    show Prog.Ends LoadOk _ _ ({ s with outstanding := s.outstanding + 1, fs := fs' } : State vm)
    generalize ({ s with outstanding := s.outstanding + 1, fs := fs' } : State vm) = s₁ at hb ⊢
    refine readi_lift hb.fs hip fun bs => ?_
    split
    · exact (bad_locked_ends (o := none) hb fun _ ht => by cases ht).mono fun _ _ hr => .inl hr
    have hspec := vm.procPagetable_spec s₁.free
    rw [ends_bind, paged, ends_atomic]
    generalize vm.procPagetable s₁.free = r at hspec
    obtain ⟨_ | t, f⟩ := r
    · exact (bad_locked_ends (o := none) (hb.setFree hspec) fun _ ht => by cases ht).mono
        fun _ _ hr => .inl hr
    have hempty : Filled t 0 := fun n => by simp [hspec.2 n]
    simp only [Outcome.Meets, ends_bind]
    refine (loadSegs_ends (hb.setFree hspec.1) hempty hip hmem).mono fun r s₂ hr => ?_
    obtain ⟨ok, t₂, sz⟩ := r
    cases ok with
    | false =>
      exact (bad_locked_ends (o := some t₂) hr.1
        fun t ht => Option.some.inj ht ▸ hr.2.below).mono fun _ _ hr => .inl hr
    | true =>
      simp only [Bool.true_eq_false, if_false, ends_bind]
      refine (release_ends hr.1).mono fun _ s₃ hs₃ => hs₃.mono fun _ s₄ hs₄ => ?_
      exact execStack_ends hs₄ hr.2 hmem hold hargc

/-! ## sys_exec -/

/-- The pages of `argv` come from the front of the free list. -/
theorem fetchArgv_ends {fetch : Nat → Fetch} {n i : Nat} :
    (fetchArgv fetch n i).Ends E
      (fun r s' => s.free = r.2 ++ s'.free ∧ s' = { s with free := s'.free } ∧
        ∀ argv ∈ r.1, argv.length < n) s := by
  induction n generalizing i s with
  | zero => exact ends_pure.mpr ⟨rfl, rfl, fun _ h => by cases h⟩
  | succ n ih =>
    rw [fetchArgv]
    cases fetch i with
    | badAddr => exact ends_pure.mpr ⟨rfl, rfl, fun _ h => by cases h⟩
    | null => exact ends_pure.mpr ⟨rfl, rfl, fun _ h => Option.some.inj h ▸ Nat.succ_pos n⟩
    | badStr =>
      simp only [fetchArgv.kalloc, paged, ends_bind, ends_atomic]
      cases hf : s.free with
      | nil => exact ends_pure.mpr ⟨rfl, by rw [← hf], fun _ h => by cases h⟩
      | cons pa f => exact ends_pure.mpr ⟨rfl, rfl, fun _ h => by cases h⟩
    | str a =>
      simp only [fetchArgv.kalloc, paged, ends_bind, ends_atomic]
      cases hf : s.free with
      | nil => exact ends_pure.mpr ⟨rfl, by rw [← hf], fun _ h => by cases h⟩
      | cons pa f =>
        simp only [Outcome.Meets, ends_bind]
        refine (ih (s := { s with free := f })).mono fun r s' hr => ?_
        obtain ⟨hpages, hs', hlen⟩ := hr
        refine ends_pure.mpr ⟨congrArg (pa :: ·) hpages, hs', fun argv h => ?_⟩
        obtain ⟨argv', h', rfl⟩ := Option.map_eq_some_iff.mp h
        exact Nat.succ_lt_succ (hlen argv' h')

/-- Every page is freed. -/
theorem foldl_free_perm (pages f : List Nat) :
    (pages.foldl (fun f pa => pa :: f) f).Perm (pages ++ f) := by
  induction pages generalizing f with
  | nil => exact .refl f
  | cons pa pages ih => exact (ih (pa :: f)).trans List.perm_middle

/-- The references and locks of all inodes, and `log.outstanding`. -/
def SameFs (s s' : State vm) : Prop :=
  (∀ ip, (s'.fs.itable ip).ref = (s.fs.itable ip).ref ∧
    (s'.fs.itable ip).locked = (s.fs.itable ip).locked) ∧ s'.outstanding = s.outstanding

theorem sameFs_of_at (h : At base 0 ∅ s.fs) (h' : At base 0 ∅ s'.fs)
    (ho : s'.outstanding = s.outstanding) : SameFs s s' :=
  ⟨fun ip => ⟨(h'.refs ip).trans (h.refs ip).symm, (h'.quiet ip).trans (h.quiet ip).symm⟩, ho⟩

/-- A call that returns -1 has left the process, the inodes, the log and the set of free pages as they
    were. After one that succeeds all pages are free that were neither in use before nor belong to the
    new table, so that the pages of `argv` and of the old table are freed. No call stops in
    `loadseg`. -/
theorem exec_fails_cleanly {cwd : InodePtr} (h : At base 0 ∅ s.fs) (hcwd : 0 < base cwd)
    (hmem : s.free.length ≤ NPAGES) (hold : Below s.pagetable s.sz) (path : Option (List UInt8))
    (fetch : Nat → Fetch) :
    (sysExec cwd path fetch).Ends LoadOk
      (fun r s' => SameFs s s' ∧
        (r = -1 ∧ s'.free.Perm s.free ∧ s'.pagetable = s.pagetable ∧ s'.sz = s.sz ∧
            s'.trapframe = s.trapframe ∧ s'.name = s.name ∨
          0 ≤ r ∧ (vm.owned s'.pagetable ++ s'.free).Perm (vm.owned s.pagetable ++ s.free))) s := by
  cases path with
  | none => exact ends_pure.mpr ⟨sameFs_of_at h h rfl, .inl ⟨rfl, .refl _, rfl, rfl, rfl, rfl⟩⟩
  | some path =>
    simp only [sysExec, ends_bind]
    refine fetchArgv_ends.mono fun r s₁ hr => ?_
    obtain ⟨argv, pages⟩ := r
    obtain ⟨hpages, hs₁, hargc⟩ := hr
    cases argv with
    | none =>
      simp only [freeArgv, ends_bind, ends_modify, ends_pure]
      rw [hs₁]
      refine ⟨sameFs_of_at h h rfl, .inl ⟨trivial, ?_, rfl, rfl, rfl, rfl⟩⟩
      rw [hpages]
      exact foldl_free_perm pages _
    | some argv =>
      have hlen := congrArg List.length hpages
      rw [List.length_append] at hlen
      rw [hs₁]
      simp only [freeArgv, ends_bind, ends_modify, ends_pure]
      refine (exec_ends (s := { s with free := s₁.free }) h hcwd (by show s₁.free.length ≤ _; omega)
        hold (hargc argv rfl)).mono fun r s₂ hr => ?_
      have hfree := foldl_free_perm pages s₂.free
      rcases hr with ⟨rfl, hb⟩ | ⟨rfl, hb⟩
      · refine ⟨sameFs_of_at h hb.fs hb.outstanding, .inl ⟨rfl, ?_, hb.pagetable, hb.sz, hb.trapframe, hb.name⟩⟩
        rw [hpages]
        exact hfree.trans (hb.free.append_left pages)
      · refine ⟨sameFs_of_at h hb.fs hb.outstanding, .inr ⟨Int.natCast_nonneg _, ?_⟩⟩
        rw [hpages]
        refine (hfree.append_left _).trans ?_
        rw [← List.append_assoc, ← List.append_assoc]
        refine (List.perm_append_comm.append_right _).trans ?_
        rw [List.append_assoc]
        refine (hb.pages.append_left pages).trans ?_
        rw [← List.append_assoc]
        exact List.perm_append_comm.append_right _

/-- The first process on the image of `mkfs`, with three free pages. -/
def atBoot : State flatVm where
  fs := Fs.mkfsImage
  outstanding := 0
  free := [4096, 8192, 12288]
  pagetable := ⟨16384, by decide, [], fun _ => 0⟩
  sz := 4096
  trapframe := ⟨0, 0, 0⟩
  name := List.replicate 16 0

theorem at_atBoot : ∃ base cwd, At base 0 ∅ atBoot.fs ∧ 0 < base cwd := by
  refine ⟨_, ⟨0, by decide⟩, (Fs.sysOk_boot Fs.blocksOk_mkfsImage Fs.boot_mkfsBoot).fs, ?_⟩
  rw [Fs.boot_cwdRefs Fs.boot_mkfsBoot, if_pos rfl]
  omega

theorem exec_fails_cleanly_boot :
    ∃ cwd, (sysExec cwd (some [47]) fun _ => .null).Ends LoadOk (fun _ s' => SameFs atBoot s') atBoot := by
  obtain ⟨base, cwd, h, hcwd⟩ := at_atBoot
  exact ⟨cwd, (exec_fails_cleanly h hcwd (by decide) (fun _ hn => absurd rfl hn) _ _).mono
    fun _ _ hr => hr.1⟩

/-! ## The stack of the new program -/

/-- The argument `hi`. -/
def argHi : Arg := ⟨[104, 105], by simp, by decide⟩

end Xv6.Exec
