import Xv6.Kernel.FileCalls

/-!
# pipe is all or nothing

`sys_pipe` with `pipealloc`, `pipeclose`, `filealloc`, `fileclose` and `fdalloc`, on the file table, the
descriptors of the calling process and the free list of `kalloc`. Whether the two calls of `copyout`
succeed comes with the call. Of an inode that is closed only the call of `iput` is kept.

* `sys_pipe_all_or_nothing`: a call that fails leaves no trace, one that succeeds makes a new pipe.
-/

namespace Xv6.SysPipe

open Fs (FilePtr NFILE NOFILE)
open Prog (ends_bind ends_pure ends_modify ends_atomic)

inductive FileType where
  | none
  | pipe
  | inode
  | device
deriving DecidableEq

/-- `struct file`. -/
structure File where
  type : FileType
  ref : Nat
  readable : Bool
  writable : Bool
  pipe : Nat
  ip : Nat

/-- The two ends in `struct pipe`. -/
structure Pipe where
  readopen : Bool
  writeopen : Bool

structure State where
  ftable : FilePtr → File
  ofile : Fin NOFILE → Option FilePtr
  /-- `kmem.freelist` -/
  free : List Nat
  /-- the pipe in a page -/
  pipes : Nat → Pipe
  /-- the inodes that were given to `iput` -/
  iputs : List Nat

abbrev M := Prog State

/-! ## The calls -/

def kalloc : M (Option Nat) :=
  .atomic fun s =>
    match s.free with
    | [] => .ok none s
    | pa :: free => .ok (some pa) { s with free := free }

def kfree (pa : Nat) : M Unit := .modify fun s => { s with free := pa :: s.free }

def filealloc : M (Option FilePtr) :=
  .atomic fun s =>
    match (List.finRange NFILE).find? fun f => (s.ftable f).ref == 0 with
    | some f => .ok (some f) { s with ftable := upd s.ftable f { s.ftable f with ref := 1 } }
    | none => .ok none s

def pipeclose (pi : Nat) (writable : Bool) : M Unit := do
  .modify fun s =>
    { s with
      pipes := upd s.pipes pi
        (if writable then { s.pipes pi with writeopen := false }
        else { s.pipes pi with readopen := false }) }
  let x ← .gets fun s => s.pipes pi
  if x.readopen = false ∧ x.writeopen = false then kfree pi

/-- The part of `fileclose` under `ftable.lock`: the file if this was its last reference. -/
def dropFile (f : FilePtr) : M (Option File) :=
  .atomic fun s =>
    if (s.ftable f).ref < 1 then .stop (.panic "fileclose")
    else if 0 < (s.ftable f).ref - 1 then
      .ok none { s with ftable := upd s.ftable f { s.ftable f with ref := (s.ftable f).ref - 1 } }
    else
      .ok (some (s.ftable f))
        { s with ftable := upd s.ftable f { s.ftable f with ref := 0, type := .none } }

def fileclose (f : FilePtr) : M Unit := do
  match ← dropFile f with
  | none => pure ()
  | some ff =>
    match ff.type with
    | .pipe => pipeclose ff.pipe ff.writable
    | .inode | .device => .modify fun s => { s with iputs := ff.ip :: s.iputs }
    | .none => pure ()

/-- The end of `pipealloc` at `bad`. -/
def pipeallocBad (pi : Option Nat) (f0 f1 : Option FilePtr) : M (Option (FilePtr × FilePtr)) := do
  match pi with
  | some pi => kfree pi
  | none => pure ()
  match f0 with
  | some f0 => fileclose f0
  | none => pure ()
  match f1 with
  | some f1 => fileclose f1
  | none => pure ()
  pure none

/-- An end of a pipe. -/
def setEnd (f : FilePtr) (pi : Nat) (writable : Bool) : M Unit :=
  .modify fun s =>
    { s with
      ftable := upd s.ftable f
        { s.ftable f with type := .pipe, readable := !writable, writable := writable, pipe := pi } }

def pipealloc : M (Option (FilePtr × FilePtr)) := do
  match ← filealloc with
  | none => pipeallocBad none none none
  | some f0 =>
    match ← filealloc with
    | none => pipeallocBad none (some f0) none
    | some f1 =>
      match ← kalloc with
      | none => pipeallocBad none (some f0) (some f1)
      | some pi => do
        .modify fun s => { s with pipes := upd s.pipes pi ⟨true, true⟩ }
        setEnd f0 pi false
        setEnd f1 pi true
        pure (some (f0, f1))

def setFd (fd : Fin NOFILE) (f : Option FilePtr) : M Unit :=
  .modify fun s => { s with ofile := upd s.ofile fd f }

def fdalloc (f : FilePtr) : M (Option (Fin NOFILE)) :=
  .atomic fun s =>
    match (List.finRange NOFILE).find? fun fd => (s.ofile fd).isNone with
    | some fd => .ok (some fd) { s with ofile := upd s.ofile fd (some f) }
    | none => .ok none s

/-- `fileclose(rf); fileclose(wf); return -1`. -/
def closeBoth (rf wf : FilePtr) : M Int := do
  fileclose rf
  fileclose wf
  pure (-1)

/-- `sys_pipe`; `out0` and `out1` say whether the calls of `copyout` succeed. -/
def sysPipe (out0 out1 : Bool) : M Int := do
  match ← pipealloc with
  | none => pure (-1)
  | some (rf, wf) =>
    match ← fdalloc rf with
    | none => closeBoth rf wf
    | some fd0 =>
      match ← fdalloc wf with
      | none => do
        setFd fd0 none
        closeBoth rf wf
      | some fd1 =>
        if out0 && out1 then pure 0
        else do
          setFd fd0 none
          setFd fd1 none
          closeBoth rf wf

/-! ## Undoing the steps -/

/-- A file without references has no type. -/
def Clean (s : State) : Prop := ∀ f, (s.ftable f).ref = 0 → (s.ftable f).type = .none

/-- Nothing that the call is responsible for has changed. -/
structure Same (s s' : State) : Prop where
  files : ∀ f, (s'.ftable f).ref = (s.ftable f).ref ∧ (s'.ftable f).type = (s.ftable f).type
  ofile : s'.ofile = s.ofile
  free : s'.free = s.free
  iputs : s'.iputs = s.iputs

/-- The state of a new pipe: both files are `f0` and `f1`, and its page is `pi`. -/
structure Made (s : State) (f0 f1 : FilePtr) (pi : Nat) (s' : State) : Prop where
  ne : f0 ≠ f1
  unused : (s.ftable f0).ref = 0 ∧ (s.ftable f1).ref = 0
  page : s.free = pi :: s'.free
  read : (s'.ftable f0).ref = 1 ∧ (s'.ftable f0).type = .pipe ∧ (s'.ftable f0).readable = true ∧
    (s'.ftable f0).writable = false ∧ (s'.ftable f0).pipe = pi
  write : (s'.ftable f1).ref = 1 ∧ (s'.ftable f1).type = .pipe ∧ (s'.ftable f1).readable = false ∧
    (s'.ftable f1).writable = true ∧ (s'.ftable f1).pipe = pi
  others : ∀ f, f ≠ f0 → f ≠ f1 → s'.ftable f = s.ftable f
  ends : s'.pipes pi = ⟨true, true⟩
  iputs : s'.iputs = s.iputs

variable {s s' : State} {E : Stop → Prop} {f f0 f1 : FilePtr} {pi : Nat}

theorem Same.clean (h : Clean s) (hs : Same s s') : Clean s' := fun f hf => by
  rw [(hs.files f).2]
  exact h f (by rw [← (hs.files f).1, hf])

theorem Made.clean (h : Clean s) (hm : Made s f0 f1 pi s') : Clean s' := by
  intro f hf
  by_cases hf0 : f = f0
  · rw [hf0, hm.read.1] at hf
    exact absurd hf Nat.one_ne_zero
  · by_cases hf1 : f = f1
    · rw [hf1, hm.write.1] at hf
      exact absurd hf Nat.one_ne_zero
    · rw [hm.others f hf0 hf1] at hf ⊢
      exact h f hf

theorem filealloc_ends {Q : Option FilePtr → State → Prop} (hnone : Q none s)
    (hsome : ∀ f, (s.ftable f).ref = 0 →
      Q (some f) { s with ftable := upd s.ftable f { s.ftable f with ref := 1 } }) :
    filealloc.Ends E Q s := by
  rw [filealloc, ends_atomic]
  split
  · rename_i f hf
    exact hsome f (by simpa using List.find?_some hf)
  · exact hnone

theorem fdalloc_ends {Q : Option (Fin NOFILE) → State → Prop} (hnone : Q none s)
    (hsome : ∀ fd, s.ofile fd = none → Q (some fd) { s with ofile := upd s.ofile fd (some f) }) :
    (fdalloc f).Ends E Q s := by
  rw [fdalloc, ends_atomic]
  split
  · rename_i fd hfd
    exact hsome fd (by simpa using List.find?_some hfd)
  · exact hnone

/-- The last reference of a file. -/
theorem dropFile_ends (hf : (s.ftable f).ref = 1) :
    (dropFile f).Ends E (fun r s' => r = some (s.ftable f) ∧
      s' = { s with ftable := upd s.ftable f { s.ftable f with ref := 0, type := .none } }) s := by
  rw [dropFile, ends_atomic, if_neg (by omega), if_neg (by omega)]
  exact ⟨rfl, rfl⟩

/-- A file that `filealloc` has returned. -/
theorem fileclose_ends (hf : (s.ftable f).ref = 1) (ht : (s.ftable f).type = .none) :
    (fileclose f).Ends E
      (fun _ s' => s' = { s with ftable := upd s.ftable f { s.ftable f with ref := 0 } }) s := by
  rw [fileclose, ends_bind]
  refine (dropFile_ends hf).mono fun r s' h => ?_
  obtain ⟨rfl, rfl⟩ := h
  simp only [ht, ends_pure]

theorem pipealloc_ends (h : Clean s) :
    pipealloc.Ends E
      (fun r s' => match r with
        | none => Same s s'
        | some (f0, f1) => ∃ pi, Made s f0 f1 pi s' ∧ s'.ofile = s.ofile) s := by
  rw [pipealloc, ends_bind]
  refine filealloc_ends ?_ fun f0 h0 => ?_
  · simp only [pipeallocBad, ends_pure]
    exact ⟨fun _ => ⟨rfl, rfl⟩, rfl, rfl, rfl⟩
  simp only [ends_bind]
  refine filealloc_ends ?_ fun f1 h1 => ?_
  · -- the second file is missing
    simp only [pipeallocBad, ends_bind, ends_pure]
    refine (fileclose_ends (by simp) (by simpa using h f0 h0)).mono fun _ s' hs => ?_
    subst hs
    refine ⟨fun f => ?_, rfl, rfl, rfl⟩
    by_cases hf : f = f0
    · subst hf
      simp [h0]
    · simp [hf]
  have hne : f1 ≠ f0 := by
    rintro rfl
    simp at h1
  have h1' : (s.ftable f1).ref = 0 := by simpa [upd_of_ne hne] using h1
  simp only [kalloc, ends_bind, ends_atomic]
  cases hfree : s.free with
  | nil =>
    -- no page
    simp only [pipeallocBad, Outcome.Meets, ends_bind, ends_pure]
    refine (fileclose_ends (by simp [upd_of_ne hne.symm]) (by simpa [upd_of_ne hne.symm] using h f0 h0)).mono
      fun _ s' hs => ?_
    subst hs
    refine (fileclose_ends (by simp [upd_of_ne hne]) (by simpa [upd_of_ne hne] using h f1 h1')).mono
      fun _ s' hs => ?_
    subst hs
    refine ⟨fun f => ?_, rfl, hfree.symm, rfl⟩
    by_cases hf : f = f1
    · subst hf
      simp [hne, h1']
    · by_cases hf' : f = f0
      · subst hf'
        simp [hf, h0]
      · simp [hf, hf']
  | cons pa rest =>
    simp only [Outcome.Meets, setEnd, ends_bind, ends_modify, ends_pure]
    refine ⟨pa, ⟨hne.symm, ⟨h0, h1'⟩, hfree, ?_, ?_, fun f hf0 hf1 => ?_, ?_, rfl⟩, trivial⟩
    · simp [upd_of_ne hne.symm]
    · simp [upd_of_ne hne]
    · simp [hf0, hf1]
    · simp

/-- Both ends are closed, and the page is freed once. -/
theorem closeBoth_ends (h : Clean s) (hm : Made s f0 f1 pi s') (ho : s'.ofile = s.ofile) :
    (closeBoth f0 f1).Ends E (fun r t => r = -1 ∧ Same s t) s' := by
  obtain ⟨hr0, ht0, -, hw0, hp0⟩ := hm.read
  obtain ⟨hr1, ht1, -, hw1, hp1⟩ := hm.write
  rw [closeBoth, fileclose, ends_bind, ends_bind]
  refine (dropFile_ends hr0).mono fun r t ht => ?_
  obtain ⟨rfl, rfl⟩ := ht
  simp only [ht0, pipeclose, hw0, hp0, hm.ends, fileclose, ends_bind, ends_modify,
    Prog.ends_gets, upd_self, Bool.false_eq_true, if_false, reduceCtorEq, and_false, ends_pure]
  refine (dropFile_ends (by simpa [upd_of_ne hm.ne.symm] using hr1)).mono fun r t ht => ?_
  obtain ⟨rfl, rfl⟩ := ht
  simp only [upd_of_ne hm.ne.symm, ht1, hw1, hp1, kfree, ends_bind, ends_modify,
    Prog.ends_gets, upd_self, if_true, and_self]
  refine ⟨trivial, fun f => ?_, ho, hm.page.symm, hm.iputs⟩
  have hnone : ∀ f, (s.ftable f).ref = 0 → (0 = (s.ftable f).ref ∧ FileType.none = (s.ftable f).type) :=
    fun f hf => ⟨hf.symm, (h f hf).symm⟩
  by_cases hf1 : f = f1
  · subst hf1
    simpa using hnone f hm.unused.2
  · by_cases hf0 : f = f0
    · subst hf0
      simpa [hf1] using hnone f hm.unused.1
    · simp [hf0, hf1, hm.others f hf0 hf1]

/-- A call of `pipe` that returns -1 has changed no descriptor, no `ref` or `type` in the file table
    and not the free list, so that a page that it got was freed once. One that returns 0 has put
    the two ends of a new pipe into two unused descriptors. It never panics. -/
theorem sys_pipe_all_or_nothing (out0 out1 : Bool) (h : Clean s) :
    (sysPipe out0 out1).Ends (fun _ => False)
      (fun r s' => Clean s' ∧ (r = -1 ∧ Same s s' ∨
        r = 0 ∧ ∃ fd0 fd1 rf wf pi, fd0 ≠ fd1 ∧ s.ofile fd0 = none ∧ s.ofile fd1 = none ∧
          s'.ofile = upd (upd s.ofile fd0 (some rf)) fd1 (some wf) ∧ Made s rf wf pi s')) s := by
  rw [sysPipe, ends_bind]
  refine (pipealloc_ends h).mono fun r s₁ h₁ => ?_
  match r, h₁ with
  | none, h₁ =>
    exact ends_pure.mpr ⟨h₁.clean h, .inl ⟨rfl, h₁⟩⟩
  | some (rf, wf), ⟨pi, hm, ho⟩ =>
    simp only [ends_bind]
    refine fdalloc_ends ?_ fun fd0 hfd0 => ?_
    · exact (closeBoth_ends h hm ho).mono fun _ _ hr => ⟨hr.2.clean h, .inl hr⟩
    -- a file that was made stays made whatever happens to the descriptors
    have hmade : ∀ o, Made s rf wf pi { s₁ with ofile := o } := fun _ =>
      ⟨hm.ne, hm.unused, hm.page, hm.read, hm.write, hm.others, hm.ends, hm.iputs⟩
    rw [ho] at hfd0
    simp only [ends_bind]
    refine fdalloc_ends ?_ fun fd1 hfd1 => ?_
    · simp only [setFd, ends_bind, ends_modify]
      refine (closeBoth_ends h (hmade _) ?_).mono fun _ _ hr => ⟨hr.2.clean h, .inl hr⟩
      simp [ho, upd_of_eq hfd0]
    have hne : fd0 ≠ fd1 := by
      rintro rfl
      simp at hfd1
    have hfd1' : s.ofile fd1 = none := by simpa [upd_of_ne hne.symm, ho] using hfd1
    by_cases hout : (out0 && out1) = true
    · simp only [if_pos hout, ends_pure]
      exact ⟨(hmade _).clean h, .inr ⟨trivial, fd0, fd1, rf, wf, pi, hne, hfd0, hfd1', by rw [ho], hmade _⟩⟩
    · simp only [if_neg hout, setFd, ends_bind, ends_modify]
      refine (closeBoth_ends h (hmade _) ?_).mono fun _ _ hr => ⟨hr.2.clean h, .inl hr⟩
      simp only [ho]
      funext fd
      by_cases hd1 : fd = fd1
      · rw [hd1, upd_self, hfd1']
      · by_cases hd0 : fd = fd0
        · rw [upd_of_ne hd1, hd0, upd_self, hfd0]
        · rw [upd_of_ne hd1, upd_of_ne hd0, upd_of_ne hd1, upd_of_ne hd0]

/-- No file is open, and one page is free. -/
def idle : State := ⟨fun _ => ⟨.none, 0, false, false, 0, 0⟩, fun _ => none, [4096], fun _ => ⟨false, false⟩, []⟩

/-- The second `copyout` fails. -/
theorem sys_pipe_all_or_nothing_idle :
    ∃ r s', (sysPipe true false).exec idle = .ok r s' ∧ Clean s' ∧ (r = -1 → Same idle s') := by
  have hclean : Clean idle := fun _ _ => rfl
  obtain ⟨r, s', hrun, hs', hr⟩ := (sys_pipe_all_or_nothing true false hclean).exists_ok
  refine ⟨r, s', hrun, hs', fun h1 => ?_⟩
  rcases hr with ⟨-, hsame⟩ | ⟨h0, -⟩
  · exact hsame
  · rw [h1] at h0
    exact absurd h0 (by decide)

end Xv6.SysPipe
