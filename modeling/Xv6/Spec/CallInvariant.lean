import Xv6.Spec.OpenFiles

/-!
# Every call keeps the invariant

One lemma for each call of `sysfile.c` and for the file part of `fork` and `exit`: started between
calls it ends between calls, with exact reference counts, and it does not free a free block. The
result for all calls is `run_ends`.
-/

namespace Xv6.Fs

open Prog (ends_bind ends_pure ends_gets ends_modify ends_for)

variable {s s' : Sys} {fbase : FilePtr → Nat} {cbase : InodePtr → Nat}
  {held : Multiset InodePtr} {L : Finset InodePtr} {ip : InodePtr} {f : FilePtr} {p : Slot}
  {q : ProcFiles}

/-! ## Descriptors -/

variable {E : Stop → Prop}

theorem myproc_ends {Q : ProcFiles → Sys → Prop} (hq : s.proc p = some q) (h : Q q s) :
    (myproc p).Ends E Q s := by
  rw [myproc, Prog.ends_atomic, hq]
  exact h

theorem argfd_ends {Q : Option (Fin NOFILE × FilePtr) → Sys → Prop} (hq : s.proc p = some q)
    {fd : Int} (hnone : Q none s) (hsome : ∀ fd f, q.ofile fd = some f → Q (some (fd, f)) s) :
    (argfd p fd).Ends E Q s := by
  rw [argfd, ends_bind]
  refine myproc_ends hq ?_
  split
  · rename_i hrange
    rw [ends_pure]
    cases hf : q.ofile ⟨fd.toNat, by omega⟩ with
    | none => exact hnone
    | some f => exact hsome _ f hf
  · exact ends_pure.mpr hnone

/-- The process with `f` in descriptor `fd`. -/
def ProcFiles.withFd (q : ProcFiles) (fd : Fin NOFILE) (g : Option FilePtr) : ProcFiles :=
  { q with ofile := upd q.ofile fd g }

section

variable (hq : s.proc p = some q)
include hq

theorem fdalloc_ends {Q : Option (Fin NOFILE) → Sys → Prop} (hnone : Q none s)
    (hsome : ∀ fd, q.ofile fd = none →
      Q (some fd) { s with proc := upd s.proc p (some (q.withFd fd (some f))) }) :
    (fdalloc p f).Ends E Q s := by
  rw [fdalloc, ends_bind]
  refine myproc_ends hq ?_
  cases hfind : (List.finRange NOFILE).find? fun fd => (q.ofile fd).isNone with
  | none => exact ends_pure.mpr hnone
  | some fd =>
    have hfd : q.ofile fd = none := by
      simpa using List.find?_some (p := fun fd => (q.ofile fd).isNone) hfind
    simp only [setProc, ends_bind, ends_modify, ends_pure, hq, Option.map_some]
    exact hsome fd hfd

/-- The references when a descriptor of a process changes. -/
theorem fileRefs_withFd (fd : Fin NOFILE) (g : Option FilePtr) (f : FilePtr) :
    fileRefs (upd s.proc p (some (q.withFd fd g))) f + (if q.ofile fd = some f then 1 else 0) =
      fileRefs s.proc f + if g = some f then 1 else 0 := by
  have hall := fileRefs_upd s.proc p (some (q.withFd fd g)) f
  have hone := q.fileRefs_upd fd g f
  rw [hq] at hall
  simp only [Option.map_some, Option.getD_some] at hall
  have hwith : (q.withFd fd g).fileRefs f =
      ProcFiles.fileRefs { q with ofile := upd q.ofile fd g } f := rfl
  rw [hwith] at hall
  omega

/-- The references when a descriptor is closed. -/
theorem fileRefs_closeFd {fd : Fin NOFILE} (hf : q.ofile fd = some f) :
    fileRefs (upd s.proc p (some (q.withFd fd none))) =
      upd (fileRefs s.proc) f (fileRefs s.proc f - 1) := by
  funext f'
  have hrefs := fileRefs_withFd hq fd none f'
  rw [hf] at hrefs
  simp only [Option.some.injEq, reduceCtorEq, if_false, Nat.add_zero] at hrefs
  rw [upd_apply]
  by_cases heq : f' = f
  · rw [if_pos heq.symm] at hrefs
    rw [if_pos heq, ← heq]
    omega
  · rw [if_neg (Ne.symm heq)] at hrefs
    rw [if_neg heq]
    omega

theorem cwdRefs_withFd (fd : Fin NOFILE) (g : Option FilePtr) :
    cwdRefs (upd s.proc p (some (q.withFd fd g))) = cwdRefs s.proc := by
  funext ip
  have hall := cwdRefs_upd s.proc p (some (q.withFd fd g)) ip
  rw [hq] at hall
  exact Nat.add_right_cancel hall

/-- A process refers to its current directory. -/
theorem cwdRefs_pos : 0 < cwdRefs s.proc q.cwd := by
  have hall := cwdRefs_upd s.proc p none q.cwd
  rw [hq] at hall
  simp only [Option.map_some, Option.getD_some, if_true, Option.map_none, Option.getD_none] at hall
  omega

/-- A descriptor refers to its file. -/
theorem fileRefs_pos {fd : Fin NOFILE} (hf : q.ofile fd = some f) :
    0 < fileRefs s.proc f := by
  have hall := fileRefs_withFd hq fd none f
  rw [if_pos hf, if_neg (by simp)] at hall
  omega

/-- The references to current directories without the one of `p`. -/
theorem cwdRefs_drop :
    cwdRefs (upd s.proc p none) =
      upd (cwdRefs s.proc) q.cwd (cwdRefs s.proc q.cwd - 1) := by
  funext ip
  have hall := cwdRefs_upd s.proc p none ip
  rw [hq] at hall
  simp only [Option.map_some, Option.getD_some, Option.map_none, Option.getD_none] at hall
  rw [upd_apply]
  by_cases heq : ip = q.cwd
  · rw [if_pos heq.symm] at hall
    rw [if_pos heq, ← heq]
    omega
  · rw [if_neg (Ne.symm heq)] at hall
    rw [if_neg heq]
    omega

/-- `p` leaves its current directory: the reference goes to the call. -/
theorem At.borrowCwd {fs : State} {ftable : FilePtr → File}
    (h : At (fun ip => openRefs ftable ip + cwdRefs s.proc ip) held L fs) :
    At (fun ip => openRefs ftable ip + cwdRefs (upd s.proc p none) ip) (q.cwd ::ₘ held) L fs := by
  have hpos := cwdRefs_pos hq
  refine h.rebase fun ip => ?_
  rw [cwdRefs_drop hq, Multiset.count_cons, upd_apply]
  by_cases heq : ip = q.cwd
  · rw [if_pos heq, if_pos heq, heq]
    omega
  · rw [if_neg heq, if_neg heq]
    omega

end

/-- The invariant speaks about the counts only. -/
theorem SysAt.congr (h : SysAt fbase cbase held L s) {fbase' : FilePtr → Nat}
    {cbase' : InodePtr → Nat} (hf : ∀ f, fbase' f = fbase f) (hc : ∀ ip, cbase' ip = cbase ip) :
    SysAt fbase' cbase' held L s := by
  rwa [funext hf, funext hc]

/-- Processes are not looked at by the invariant inside of a call. -/
theorem SysAt.withProc (h : SysAt fbase cbase held L s) (proc : Slot → Option ProcFiles) :
    SysAt fbase cbase held L { s with proc := proc } := ⟨h.fs, h.refs, h.closed⟩

theorem SysOk.cwd_pos (hq : s.proc p = some q) :
    0 < openRefs s.ftable q.cwd + cwdRefs s.proc q.cwd := by
  have := cwdRefs_pos hq
  omega

/-! ## open -/

theorem openInode_ends {fs : State} {base : InodePtr → Nat} {cwd : InodePtr} (h : At base 0 ∅ fs)
    (hcwd : 0 < base cwd) (path : List UInt8) (omode : BitVec 32) :
    (openInode cwd path omode).Ends NoDoubleFree (AtLocked base) fs := by
  rw [openInode]
  split
  · exact create_ends h hcwd path .file 0 0
  · rw [ends_bind]
    refine (namei_ends h hcwd path).mono fun r s₁ hs₁ => ?_
    cases r with
    | none => exact ends_pure.mpr hs₁
    | some ip =>
      simp only [ends_bind]
      refine (ilock_ends hs₁ noDoubleFree_lock ip).mono ?_
      rintro _ s₂ ⟨hnot, hs₂⟩
      rw [inode, ends_gets]
      split
      · rw [ends_bind]
        refine (iunlockput_insert_ends hs₂ hnot).mono fun _ s₃ hs₃ => ?_
        exact ends_pure.mpr hs₃
      · exact ends_pure.mpr hs₂

/-- The new file refers to the inode. -/
theorem openFile_refersTo (x : Inode) (ip ip' : InodePtr) (omode : BitVec 32) (f : File) :
    (openFile x ip omode f).refersTo ip' = if ip' = ip then 1 else 0 := by
  simp only [openFile, File.refersTo]
  split <;> simp [eq_comm]

theorem openFile_ref (x : Inode) (ip : InodePtr) (omode : BitVec 32) (f : File) :
    (openFile x ip omode f).ref = f.ref := by
  simp only [openFile]
  split <;> rfl

/-- The inode is given back when `open` fails. -/
theorem SysAt.giveBack_ends (h : SysAt fbase cbase (ip ::ₘ 0) (insert ip ∅) s) {r : Int} :
    (do
      iunlockput ip
      pure r : SysM Int).Ends NoDoubleFree
        (fun _ s' => s'.proc = s.proc ∧ SysAt fbase cbase 0 ∅ s') s := by
  rw [ends_bind]
  refine SysAt.lift_ends ?_
  refine (iunlockput_insert_ends h.fs (Finset.notMem_empty _)).mono fun _ fs hfs => ?_
  exact ends_pure.mpr ⟨rfl, h.withFs hfs⟩

/-- The last part of `open`: the file is filled in and refers to the inode. -/
theorem openDone_ends (h : SysAt fbase cbase (ip ::ₘ 0) (insert ip ∅) s) (hf : 0 < fbase f)
    (htype : (s.ftable f).type = .none) (x : Inode) (omode : BitVec 32) {r : Int} :
    (do
      .modify fun s => { s with ftable := upd s.ftable f (openFile x ip omode (s.ftable f)) }
      if omode &&& O_TRUNC ≠ 0 ∧ x.din.type = .file then itrunc ip
      iunlock ip
      pure r : SysM Int).Ends NoDoubleFree
        (fun _ s' => s'.proc = s.proc ∧ SysAt fbase cbase 0 ∅ s') s := by
  have hsum := openRefs_upd s.ftable f (openFile x ip omode (s.ftable f))
  have hs₁ : SysAt fbase cbase 0 (insert ip ∅)
      { s with ftable := upd s.ftable f (openFile x ip omode (s.ftable f)) } := by
    refine ⟨h.fs.rebase fun ip' => ?_, fun f' => ?_, fun f' hf' => ?_⟩
    · have hip := hsum ip'
      have hold : (s.ftable f).refersTo ip' = 0 := by simp [File.refersTo, htype]
      rw [hold, openFile_refersTo] at hip
      rw [Multiset.count_cons]
      simp only [Multiset.count_zero] at hip ⊢
      omega
    · by_cases heq : f' = f
      · simp only [heq, upd_self, openFile_ref]
        exact h.refs f
      · simp only [upd_of_ne heq]
        exact h.refs f'
    · by_cases heq : f' = f
      · simp only [heq, upd_self, openFile_ref, h.refs f] at hf'
        omega
      · simp only [upd_of_ne heq] at hf' ⊢
        exact h.closed f' hf'
  -- the inode is unlocked in the end
  have hunlock : ∀ {s₂ : Sys}, s₂.proc = s.proc → SysAt fbase cbase 0 (insert ip ∅) s₂ →
      (do
        iunlock ip
        pure r : SysM Int).Ends NoDoubleFree
          (fun _ s' => s'.proc = s.proc ∧ SysAt fbase cbase 0 ∅ s') s₂ := by
    intro s₂ hproc hs₂
    rw [ends_bind]
    refine SysAt.lift_ends ?_
    refine (iunlock_insert_ends hs₂.fs (Finset.notMem_empty _)).mono fun _ fs hfs => ?_
    exact ends_pure.mpr ⟨hproc, hs₂.withFs hfs⟩
  rw [ends_bind, ends_modify]
  split
  · rw [ends_bind]
    refine SysAt.lift_ends ?_
    refine (hs₁.fs.itrunc_ends (Finset.mem_insert_self ip ∅)).mono fun _ fs hfs => ?_
    exact hunlock rfl (hs₁.withFs hfs)
  · exact hunlock rfl hs₁

section

variable (hq : s.proc p = some q)
include hq

theorem openLocked_ends
    (h : SysAt (fileRefs s.proc) (cwdRefs s.proc) (ip ::ₘ 0) (insert ip ∅) s) (omode : BitVec 32) :
    (openLocked p ip omode).Ends NoDoubleFree (fun _ => SysOk) s := by
  -- without a new file the processes are what they were
  have hback : ∀ {s₁ : Sys}, s₁.proc = s.proc →
      SysAt (fileRefs s.proc) (cwdRefs s.proc) (ip ::ₘ 0) (insert ip ∅) s₁ →
      (do
        iunlockput ip
        pure (-1) : SysM Int).Ends NoDoubleFree (fun _ => SysOk) s₁ := by
    intro s₁ hproc hs₁
    refine hs₁.giveBack_ends.mono ?_
    rintro _ s₂ ⟨hproc₂, hs₂⟩
    rw [SysOk, hproc₂, hproc]
    exact hs₂
  rw [openLocked, ends_bind]
  refine SysAt.lift_ends ?_
  rw [inode, ends_gets]
  split
  · exact hback rfl h
  · rw [ends_bind]
    refine (filealloc_ends h).mono ?_
    rintro r s₁ ⟨hproc, _, hs₁⟩
    cases r with
    | none => exact hback hproc hs₁
    | some f =>
      obtain ⟨hzero, htype, hs₁⟩ := hs₁
      have hq₁ : s₁.proc p = some q := by rw [hproc, hq]
      simp only [ends_bind]
      refine fdalloc_ends hq₁ ?_ fun fd hfd => ?_
      · simp only [ends_bind]
        refine (fileclose_ends hs₁ (by simp) (by simp)).mono ?_
        rintro _ s₂ ⟨hproc₂, hs₂⟩
        have hsame : SysAt (fileRefs s.proc) (cwdRefs s.proc) (ip ::ₘ 0) (insert ip ∅) s₂ := by
          refine hs₂.congr (fun f' => ?_) fun _ => rfl
          by_cases heq : f' = f
          · simp [heq, hzero]
          · simp [upd_of_ne heq]
        have hend := hback (hproc₂.trans hproc) hsame
        rwa [ends_bind] at hend
      · have hs₂ := hs₁.withProc (upd s₁.proc p (some (q.withFd fd (some f))))
        refine (openDone_ends hs₂ (by simp) htype _ omode).mono ?_
        rintro _ s₃ ⟨hproc₃, hs₃⟩
        rw [SysOk, hproc₃]
        refine hs₃.congr (fun f' => ?_) fun ip' => ?_
        · have hrefs := fileRefs_withFd hq₁ fd (some f) f'
          rw [hfd] at hrefs
          simp only [Option.some.injEq, reduceCtorEq, if_false, Nat.add_zero] at hrefs
          show fileRefs (upd s₁.proc p (some (q.withFd fd (some f)))) f' = _
          rw [upd_apply, hrefs, hproc]
          by_cases heq : f' = f
          · rw [if_pos heq, if_pos heq.symm, heq, hzero]
          · rw [if_neg heq, if_neg (Ne.symm heq), Nat.add_zero]
        · rw [cwdRefs_withFd hq₁, hproc]

theorem sysOpen_ends (h : SysOk s) (path : List UInt8) (omode : BitVec 32) :
    (sysOpen p path omode).Ends NoDoubleFree (fun _ => SysOk) s := by
  rw [sysOpen, ends_bind]
  refine myproc_ends hq ?_
  rw [ends_bind]
  refine SysAt.lift_ends ?_
  refine (openInode_ends h.fs (SysOk.cwd_pos hq) path omode).mono fun r fs hfs => ?_
  cases r with
  | none => exact ends_pure.mpr (h.withFs hfs)
  | some ip => exact openLocked_ends (s := { s with fs := fs }) hq (h.withFs hfs) omode

/-! ## mkdir, mknod, link, unlink and chdir -/

theorem sysCreate_ends (h : SysOk s) (path : List UInt8) (type : InodeType) (major minor : Int) :
    (sysCreate p path type major minor).Ends NoDoubleFree (fun _ => SysOk) s := by
  rw [sysCreate, ends_bind]
  refine myproc_ends hq ?_
  rw [ends_bind]
  refine SysAt.lift_ends ?_
  refine (create_ends h.fs (SysOk.cwd_pos hq) path type major minor).mono fun r fs hfs => ?_
  cases r with
  | none => exact ends_pure.mpr (h.withFs hfs)
  | some ip =>
    refine (SysAt.giveBack_ends (s := { s with fs := fs }) (h.withFs hfs)).mono
      fun _ s₁ ⟨hproc, hs₁⟩ => ?_
    rw [SysOk, hproc]
    exact hs₁

theorem sysChdir_ends (h : SysOk s) (path : List UInt8) :
    (sysChdir p path).Ends NoDoubleFree (fun _ => SysOk) s := by
  rw [sysChdir, ends_bind]
  refine myproc_ends hq ?_
  rw [ends_bind]
  refine SysAt.lift_ends ?_
  refine (namei_ends h.fs (SysOk.cwd_pos hq) path).mono fun r fs₁ hfs₁ => ?_
  cases r with
  | none => exact ends_pure.mpr (h.withFs hfs₁)
  | some ip =>
    simp only [ends_bind]
    refine SysAt.lift_ends ?_
    refine (ilock_ends hfs₁ noDoubleFree_lock ip).mono ?_
    rintro _ fs₂ ⟨hnot, hfs₂⟩
    refine SysAt.lift_ends ?_
    rw [inode, ends_gets]
    split
    · rw [ends_bind]
      refine SysAt.lift_ends ?_
      refine (iunlockput_insert_ends hfs₂ hnot).mono fun _ fs₃ hfs₃ => ?_
      exact ends_pure.mpr (h.withFs hfs₃)
    · simp only [ends_bind]
      refine SysAt.lift_ends ?_
      refine (iunlock_insert_ends hfs₂ hnot).mono fun _ fs₃ hfs₃ => ?_
      refine SysAt.lift_ends ?_
      -- the reference of the old directory is given up before the process has the new one
      refine (iput_ends (At.borrowCwd hq hfs₃) fun hin => absurd hin (Finset.notMem_empty _)).mono
        fun _ fs₄ hfs₄ => ?_
      simp only [setProc, ends_modify, ends_pure, hq, Option.map_some]
      refine ⟨hfs₄.rebase fun ip' => ?_, fun f' => ?_, h.closed⟩
      · have hnew := cwdRefs_upd (upd s.proc p none) p (some { q with cwd := ip }) ip'
        rw [upd_self, upd_upd] at hnew
        simp only [Option.map_some, Option.getD_some, Option.map_none, Option.getD_none,
          eq_comm (a := ip)] at hnew
        simp only [Multiset.count_cons, Multiset.count_zero]
        omega
      · have hrefs := fileRefs_upd s.proc p (some { q with cwd := ip }) f'
        rw [hq] at hrefs
        rw [h.refs f']
        exact (Nat.add_right_cancel hrefs).symm

/-! ## close and write -/

theorem sysClose_ends (h : SysOk s) (fd : Int) :
    (sysClose p fd).Ends NoDoubleFree (fun _ => SysOk) s := by
  rw [sysClose, ends_bind]
  refine argfd_ends hq (ends_pure.mpr h) fun fd f hf => ?_
  simp only [setProc, ends_bind, ends_modify, ends_pure, hq, Option.map_some]
  have hs₁ := h.withProc (upd s.proc p (some (q.withFd fd none)))
  refine (fileclose_ends hs₁ (fileRefs_pos hq hf) (by simp)).mono ?_
  rintro _ s₂ ⟨hproc, hs₂⟩
  rw [SysOk, hproc]
  show SysAt (fileRefs (upd s.proc p (some (q.withFd fd none)))) (cwdRefs (upd s.proc p _)) 0 ∅ s₂
  rw [fileRefs_closeFd hq hf, cwdRefs_withFd hq]
  exact hs₂

end

/-- A change of the offset of a file. -/
theorem SysAt.setOff (h : SysAt fbase cbase held L s) (f : FilePtr) (off : Nat) :
    SysAt fbase cbase held L
      { s with ftable := upd s.ftable f { s.ftable f with off := off } } := by
  have hopen : openRefs (upd s.ftable f { s.ftable f with off := off }) = openRefs s.ftable :=
    openRefs_upd_same _ _ fun _ => rfl
  refine ⟨?_, fun f' => ?_, fun f' hf' => ?_⟩
  · simp only [hopen]
    exact h.fs
  · by_cases heq : f' = f
    · simp only [heq, upd_self]
      exact h.refs f
    · simp only [upd_of_ne heq]
      exact h.refs f'
  · by_cases heq : f' = f
    · simp only [heq, upd_self] at hf' ⊢
      exact h.closed f hf'
    · simp only [upd_of_ne heq] at hf' ⊢
      exact h.closed f' hf'

theorem filewriteLoop_ends (h : SysAt fbase cbase 0 ∅ s) (f : FilePtr) (src : Source) {fuel i n : Nat} :
    (filewriteLoop f src fuel i n).Ends NoDoubleFree
      (fun _ s' => s'.proc = s.proc ∧ SysAt fbase cbase 0 ∅ s') s := by
  induction fuel generalizing s i with
  | zero =>
    rw [filewriteLoop, ends_pure]
    exact ⟨rfl, h⟩
  | succ fuel ih =>
    rw [filewriteLoop]
    split
    · simp only [ends_bind, ends_gets]
      refine SysAt.lift_ends ?_
      refine (ilock_ends h.fs noDoubleFree_lock _).mono ?_
      rintro _ fs₁ ⟨hnot, hfs₁⟩
      refine SysAt.lift_ends ?_
      refine (writei_ends hfs₁ (Finset.mem_insert_self _ _) _ _ _).mono fun r fs₂ hfs₂ => ?_
      -- the rest of the round, in a state with the same processes
      have hrest : ∀ {s₃ : Sys}, s₃.proc = s.proc →
          SysAt fbase cbase 0 (insert (s.ftable f).ip ∅) s₃ →
          (do
            iunlock (s.ftable f).ip
            if r ≠ ↑(min (n - i) writeMax) then pure i
            else filewriteLoop f src fuel (i + min (n - i) writeMax) n : SysM Nat).Ends NoDoubleFree
              (fun _ s' => s'.proc = s.proc ∧ SysAt fbase cbase 0 ∅ s') s₃ := by
        intro s₃ hproc hs₃
        rw [ends_bind]
        refine SysAt.lift_ends ?_
        refine (iunlock_insert_ends hs₃.fs hnot).mono fun _ fs₄ hfs₄ => ?_
        split
        · exact ends_pure.mpr ⟨hproc, hs₃.withFs hfs₄⟩
        · refine (ih (s := { s₃ with fs := fs₄ }) (hs₃.withFs hfs₄)).mono ?_
          rintro _ s₅ ⟨hp, hs₅⟩
          exact ⟨hp.trans hproc, hs₅⟩
      split
      · rw [ends_bind, ends_modify]
        have hoff := SysAt.setOff (s := { s with fs := fs₂ }) (h.withFs hfs₂) f
          (((s.ftable f).off + r.toNat) % 2 ^ 32)
        exact hrest rfl hoff
      · exact hrest rfl (h.withFs hfs₂)
    · exact ends_pure.mpr ⟨rfl, h⟩

theorem sysWrite_ends (hq : s.proc p = some q) (h : SysOk s) (fd : Int) (src : Source) (n dev : Int) :
    (sysWrite p fd src n dev).Ends NoDoubleFree (fun _ => SysOk) s := by
  rw [sysWrite, ends_bind]
  refine argfd_ends hq (ends_pure.mpr h) fun fd f _ => ?_
  simp only [filewrite, ends_bind, ends_gets]
  split
  · exact ends_pure.mpr h
  · split
    · split
      · exact ends_pure.mpr h
      · exact ends_pure.mpr h
    · simp only [ends_bind, ends_pure]
      refine (filewriteLoop_ends h f src).mono ?_
      rintro _ s₁ ⟨hproc, hs₁⟩
      rw [SysOk, hproc]
      exact hs₁
    · rw [Prog.ends_panic]
      decide

/-! ## fork and exit -/

/-- The descriptors of a process below `i` that hold `f`. -/
def ProcFiles.refsBelow (q : ProcFiles) (i : Nat) (f : FilePtr) : Nat :=
  ∑ fd : Fin NOFILE, if fd.val < i ∧ q.ofile fd = some f then 1 else 0

theorem ProcFiles.refsBelow_succ (q : ProcFiles) {i : Nat} (hi : i < NOFILE) (f : FilePtr) :
    q.refsBelow (i + 1) f = q.refsBelow i f + if q.ofile ⟨i, hi⟩ = some f then 1 else 0 := by
  have hsum := Finset.sum_add_of_eq_off
    (fun fd : Fin NOFILE => if fd.val < i ∧ q.ofile fd = some f then 1 else 0)
    (fun fd : Fin NOFILE => if fd.val < i + 1 ∧ q.ofile fd = some f then 1 else 0) ⟨i, hi⟩
    fun fd hne => by
      have hval : fd.val ≠ i := fun heq => hne (Fin.ext heq)
      have hiff : fd.val < i + 1 ↔ fd.val < i := by omega
      simp only [hiff]
  simpa [refsBelow] using hsum

theorem ProcFiles.refsBelow_all (q : ProcFiles) (f : FilePtr) :
    q.refsBelow NOFILE f = q.fileRefs f := by
  simp [refsBelow, fileRefs]

theorem sysFork_ends (hq : s.proc p = some q) (h : SysOk s) (child : Slot) :
    (sysFork p child).Ends NoDoubleFree (fun _ => SysOk) s := by
  rw [sysFork, ends_bind]
  refine myproc_ends hq ?_
  rw [ends_bind, ends_gets]
  split
  · rename_i hfree
    have hchild : s.proc child = none := Option.isNone_iff_eq_none.mp hfree
    rw [ends_bind]
    -- after `i` rounds the child holds the files of its first `i` descriptors
    refine (ends_for (J := fun i s' => s'.proc = s.proc ∧
      SysAt (fun f => fileRefs s.proc f + q.refsBelow i f) (cwdRefs s.proc) 0 ∅ s')
      (fun i s₁ hi ⟨hproc, hs₁⟩ => ?_) ?_).mono fun _ s₂ ⟨hproc, hs₂⟩ => ?_
    · rw [dif_pos hi]
      cases hf : q.ofile ⟨i, hi⟩ with
      | none =>
        refine ends_pure.mpr ⟨hproc, hs₁.congr (fun f => ?_) fun _ => rfl⟩
        simp [q.refsBelow_succ hi, hf]
      | some f =>
        refine (filedup_ends hs₁).mono fun _ s₂ ⟨hproc₂, hs₂⟩ => ?_
        refine ⟨hproc₂.trans hproc, hs₂.congr (fun f' => ?_) fun _ => rfl⟩
        rw [q.refsBelow_succ hi, hf, upd_apply]
        by_cases heq : f' = f
        · rw [if_pos heq, if_pos (by rw [heq]), heq]
          omega
        · rw [if_neg heq, if_neg (by simpa using Ne.symm heq)]
          omega
    · exact ⟨rfl, h.congr (fun f => by simp [ProcFiles.refsBelow]) fun _ => rfl⟩
    · have hcwd := cwdRefs_pos hq
      rw [ends_bind]
      refine SysAt.lift_ends ?_
      refine (idup_ends hs₂.fs (hs₂.fs.ref_pos (.inl (by omega)))).mono fun cwd fs ⟨hcwd, hfs⟩ => ?_
      simp only [ends_bind, ends_modify, ends_pure]
      refine ⟨hfs.rebase fun ip => ?_, fun f => ?_, hs₂.closed⟩
      · have hnew := cwdRefs_upd s.proc child (some ⟨q.ofile, cwd⟩) ip
        rw [hchild] at hnew
        simp only [Option.map_some, Option.getD_some, Option.map_none, Option.getD_none, hcwd,
          eq_comm (a := q.cwd)] at hnew
        simp only [hproc, hcwd, Multiset.count_cons, Multiset.count_zero]
        omega
      · have hnew := fileRefs_upd s.proc child (some ⟨q.ofile, cwd⟩) f
        rw [hchild] at hnew
        simp only [Option.map_some, Option.getD_some, Option.map_none, Option.getD_none] at hnew
        have hsame : ProcFiles.fileRefs ⟨q.ofile, cwd⟩ f = q.fileRefs f := rfl
        rw [hs₂.refs f, q.refsBelow_all]
        simp only [hproc]
        omega
  · exact ends_pure.mpr h

theorem sysExit_ends (hq : s.proc p = some q) (h : SysOk s) :
    (sysExit p).Ends NoDoubleFree (fun _ => SysOk) s := by
  rw [sysExit, ends_bind]
  refine myproc_ends hq ?_
  rw [ends_bind]
  -- after `i` rounds the first `i` descriptors are closed
  refine (ends_for (J := fun i s' => ∃ q', s'.proc p = some q' ∧ q'.cwd = q.cwd ∧
    (∀ fd : Fin NOFILE, q'.ofile fd = if fd.val < i then none else q.ofile fd) ∧ SysOk s')
    (fun i s₁ hi ⟨q', hq', hcwd, hofile, hs₁⟩ => ?_) ?_).mono
    fun _ s₂ ⟨q', hq', hcwd, hofile, hs₂⟩ => ?_
  · rw [dif_pos hi]
    have hfd : q'.ofile ⟨i, hi⟩ = q.ofile ⟨i, hi⟩ := by
      rw [hofile]
      exact if_neg (Nat.lt_irrefl i)
    have hnext : ∀ fd : Fin NOFILE, upd q'.ofile ⟨i, hi⟩ none fd =
        if fd.val < i + 1 then none else q.ofile fd := by
      intro fd
      rw [upd_apply, hofile]
      by_cases heq : fd = ⟨i, hi⟩
      · rw [if_pos heq, if_pos (by rw [heq]; exact Nat.lt_succ_self i)]
      · have hval : fd.val ≠ i := fun hc => heq (Fin.ext hc)
        have hiff : fd.val < i + 1 ↔ fd.val < i := by omega
        rw [if_neg heq]
        simp only [hiff]
    cases hf : q.ofile ⟨i, hi⟩ with
    | none =>
      refine ends_pure.mpr ⟨q', hq', hcwd, fun fd => ?_, hs₁⟩
      rw [← hnext fd, upd_of_eq (hfd.trans hf)]
    | some f =>
      rw [ends_bind]
      have hf' : q'.ofile ⟨i, hi⟩ = some f := hfd.trans hf
      refine (fileclose_ends hs₁ (fileRefs_pos hq' hf') (by simp)).mono fun _ s₂ ⟨hproc, hs₂⟩ => ?_
      simp only [setProc, ends_modify, hproc, hq', Option.map_some]
      refine ⟨q'.withFd ⟨i, hi⟩ none, upd_self .., hcwd, hnext, ?_⟩
      show SysAt (fileRefs (upd s₁.proc p (some (q'.withFd ⟨i, hi⟩ none))))
        (cwdRefs (upd s₁.proc p (some (q'.withFd ⟨i, hi⟩ none)))) 0 ∅ _
      rw [fileRefs_closeFd hq' hf', cwdRefs_withFd hq']
      exact hs₂.withProc _
  · exact ⟨q, hq, rfl, fun fd => by simp, h⟩
  · rw [ends_bind]
    refine SysAt.lift_ends ?_
    rw [← hcwd]
    refine (iput_ends (At.borrowCwd hq' hs₂.fs) fun hin => absurd hin (Finset.notMem_empty _)).mono
      fun _ fs hfs => ?_
    simp only [ends_bind, ends_modify, ends_pure]
    refine ⟨hfs, fun f => ?_, hs₂.closed⟩
    -- no descriptor is left
    have hnew := fileRefs_upd s₂.proc p none f
    have hempty : q'.fileRefs f = 0 := by
      refine Finset.sum_eq_zero fun fd _ => ?_
      rw [hofile fd, if_pos fd.isLt]
      simp
    rw [hq'] at hnew
    simp only [Option.map_some, Option.getD_some, Option.map_none, Option.getD_none, hempty] at hnew
    show (s₂.ftable f).ref = fileRefs (upd s₂.proc p none) f
    rw [hs₂.refs f]
    omega

/-! ## All calls -/

/-- Every call that ends keeps the invariant, and none frees a free block. -/
theorem run_ends (hq : s.proc p = some q) (h : SysOk s) (c : Call) :
    (c.run p).Ends NoDoubleFree (fun _ => SysOk) s := by
  have hfail : (pure (-1) : SysM Int).Ends NoDoubleFree (fun _ => SysOk) s := ends_pure.mpr h
  cases c with
  | «open» path omode =>
    cases path with
    | none => exact hfail
    | some path => exact sysOpen_ends hq h path.bytes omode
  | mkdir path =>
    cases path with
    | none => exact hfail
    | some path => exact sysCreate_ends hq h path.bytes .dir 0 0
  | mknod path major minor =>
    cases path with
    | none => exact hfail
    | some path => exact sysCreate_ends hq h path.bytes .device major minor
  | chdir path =>
    cases path with
    | none => exact hfail
    | some path => exact sysChdir_ends hq h path.bytes
  | link old new =>
    cases old with
    | none => exact hfail
    | some old =>
      cases new with
      | none => exact hfail
      | some new =>
        rw [Call.run, ends_bind]
        refine myproc_ends hq (SysAt.lift_ends ?_)
        refine (sysLink_ends h.fs (SysOk.cwd_pos hq) old.bytes new.bytes).mono fun _ fs hfs => ?_
        exact h.withFs hfs
  | unlink path =>
    cases path with
    | none => exact hfail
    | some path =>
      rw [Call.run, ends_bind]
      refine myproc_ends hq (SysAt.lift_ends ?_)
      refine (sysUnlink_ends h.fs (SysOk.cwd_pos hq) path.bytes).mono fun _ fs hfs => ?_
      exact h.withFs hfs
  | close fd => exact sysClose_ends hq h fd
  | write fd src n dev => exact sysWrite_ends hq h fd src n dev
  | fork child => exact sysFork_ends hq h child
  | exit =>
    rw [Call.run]
    split
    · rw [Prog.ends_panic]
      decide
    · exact sysExit_ends hq h

end Xv6.Fs
