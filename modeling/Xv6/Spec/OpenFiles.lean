import Mathlib.Algebra.BigOperators.Ring.Finset
import Xv6.ForStd.FinSum
import Xv6.Spec.CallSpec

/-!
# Reference counts of files and inodes

The count of a file is the number of descriptors that hold it, and the count of an entry of the inode
table is the number of open files and current directories that refer to it. `SysAt` is the
invariant inside of a call, with the references of descriptors (`fbase`) and of
current directories (`cbase`) as parameters, since a call may give one up before it has
changed the process. Between calls they are the ones of the processes (`SysOk`), and every call keeps
that.
-/

namespace Xv6.Fs

/-! ## Counting references -/

/-- The descriptors of a process that hold `f`. -/
def ProcFiles.fileRefs (q : ProcFiles) (f : FilePtr) : Nat :=
  ∑ fd : Fin NOFILE, if q.ofile fd = some f then 1 else 0

/-- The descriptors that hold `f`. -/
def fileRefs (proc : Slot → Option ProcFiles) (f : FilePtr) : Nat :=
  ∑ p : Slot, ((proc p).map fun q => q.fileRefs f).getD 0

/-- The processes whose current directory is `ip`. -/
def cwdRefs (proc : Slot → Option ProcFiles) (ip : InodePtr) : Nat :=
  ∑ p : Slot, ((proc p).map fun q => if q.cwd = ip then 1 else 0).getD 0

/-- Whether a file refers to `ip`. -/
def File.refersTo (x : File) (ip : InodePtr) : Nat := if x.type ≠ .none ∧ x.ip = ip then 1 else 0

/-- The open files that refer to `ip`. -/
def openRefs (ftable : FilePtr → File) (ip : InodePtr) : Nat :=
  ∑ f : FilePtr, (ftable f).refersTo ip

/-- A state inside of a call, with references to files from descriptors (`fbase`) and to inodes from
    current directories (`cbase`). -/
structure SysAt (fbase : FilePtr → Nat) (cbase : InodePtr → Nat) (held : Multiset InodePtr)
    (L : Finset InodePtr) (s : Sys) : Prop where
  fs : At (fun ip => openRefs s.ftable ip + cbase ip) held L s.fs
  refs : ∀ f, (s.ftable f).ref = fbase f
  closed : ∀ f, (s.ftable f).ref = 0 → (s.ftable f).type = .none

/-- The invariant between calls. -/
def SysOk (s : Sys) : Prop := SysAt (fileRefs s.proc) (cwdRefs s.proc) 0 ∅ s

variable {s s' : Sys} {fbase : FilePtr → Nat} {cbase : InodePtr → Nat}
  {held held' : Multiset InodePtr} {L : Finset InodePtr} {ip : InodePtr} {f : FilePtr} {p : Slot}

/-- References are moved between the parties, and their sum stays. -/
theorem At.rebase {s : State} {base base' : InodePtr → Nat} (h : At base held L s)
    (hsum : ∀ ip, base' ip + held'.count ip = base ip + held.count ip) : At base' held' L s := by
  refine ⟨h.good, fun ip => by rw [h.refs ip, hsum ip], h.locks, h.valid, fun ip hin => ?_⟩
  have hpos := h.ref_pos (h.live ip hin)
  rw [h.refs ip, ← hsum ip] at hpos
  by_cases h0 : 0 < base' ip
  · exact .inl h0
  · exact .inr (Multiset.count_pos.mp (by omega))

theorem openRefs_upd (ftable : FilePtr → File) (f : FilePtr) (x : File) (ip : InodePtr) :
    openRefs (upd ftable f x) ip + (ftable f).refersTo ip = openRefs ftable ip + x.refersTo ip := by
  have hsum := Finset.sum_add_of_eq_off (fun f => (ftable f).refersTo ip)
    (fun f' => (upd ftable f x f').refersTo ip) f fun f' hne => by simp only [upd_of_ne hne]
  simpa only [openRefs, upd_self] using hsum

/-- A change of a file that refers to the same inode as before. -/
theorem openRefs_upd_same (ftable : FilePtr → File) (f : FilePtr) {x : File}
    (hx : ∀ ip, x.refersTo ip = (ftable f).refersTo ip) :
    openRefs (upd ftable f x) = openRefs ftable := by
  funext ip
  have hsum := openRefs_upd ftable f x ip
  rw [hx ip] at hsum
  exact Nat.add_right_cancel hsum

theorem fileRefs_upd (proc : Slot → Option ProcFiles) (p : Slot) (q : Option ProcFiles) (f : FilePtr) :
    fileRefs (upd proc p q) f + ((proc p).map fun q => q.fileRefs f).getD 0 =
      fileRefs proc f + (q.map fun q => q.fileRefs f).getD 0 := by
  have hsum := Finset.sum_add_of_eq_off (fun p => ((proc p).map fun q => q.fileRefs f).getD 0)
    (fun p' => ((upd proc p q p').map fun q => q.fileRefs f).getD 0) p
    fun p' hne => by simp only [upd_of_ne hne]
  simpa only [fileRefs, upd_self] using hsum

theorem cwdRefs_upd (proc : Slot → Option ProcFiles) (p : Slot) (q : Option ProcFiles) (ip : InodePtr) :
    cwdRefs (upd proc p q) ip + ((proc p).map fun q => if q.cwd = ip then 1 else 0).getD 0 =
      cwdRefs proc ip + (q.map fun q => if q.cwd = ip then 1 else 0).getD 0 := by
  have hsum := Finset.sum_add_of_eq_off
    (fun p => ((proc p).map fun q => if q.cwd = ip then 1 else 0).getD 0)
    (fun p' => ((upd proc p q p').map fun q => if q.cwd = ip then 1 else 0).getD 0) p
    fun p' hne => by simp only [upd_of_ne hne]
  simpa only [cwdRefs, upd_self] using hsum

theorem ProcFiles.fileRefs_upd (q : ProcFiles) (fd : Fin NOFILE) (g : Option FilePtr) (f : FilePtr) :
    fileRefs { q with ofile := upd q.ofile fd g } f + (if q.ofile fd = some f then 1 else 0) =
      q.fileRefs f + if g = some f then 1 else 0 := by
  have hsum := Finset.sum_add_of_eq_off (fun fd => if q.ofile fd = some f then 1 else 0)
    (fun fd' => if upd q.ofile fd g fd' = some f then 1 else 0) fd
    fun fd' hne => by simp only [upd_of_ne hne]
  simpa only [fileRefs, upd_self] using hsum

/-! ## The file system below -/

/-- A program on the file system, lifted to the whole. -/
theorem SysAt.lift_ends {R : Type} {prog : FsM R} {Q : R → Sys → Prop} {E : Stop → Prop}
    (hprog : prog.Ends E (fun r fs => Q r { s with fs := fs }) s.fs) :
    (monadLift prog : SysM R).Ends E Q s :=
  Prog.ends_zoom.mpr hprog

section

variable (h : SysAt fbase cbase held L s)
include h

/-- The invariant with another state of the file system. -/
theorem SysAt.withFs {fs : State} {L' : Finset InodePtr}
    (hfs : At (fun ip => openRefs s.ftable ip + cbase ip) held' L' fs) :
    SysAt fbase cbase held' L' { s with fs := fs } :=
  ⟨hfs, h.refs, h.closed⟩

/-! ## The file table -/

theorem filealloc_ends :
    filealloc.Ends NoDoubleFree
      (fun r s' => s'.proc = s.proc ∧ s'.fs = s.fs ∧
        match r with
        | some f => fbase f = 0 ∧ (s'.ftable f).type = .none ∧
            SysAt (upd fbase f 1) cbase held L s'
        | none => SysAt fbase cbase held L s') s := by
  rw [filealloc, Prog.ends_atomic]
  cases hfind : (List.finRange NFILE).find? fun f => (s.ftable f).ref == 0 with
  | none => exact ⟨rfl, rfl, h⟩
  | some f =>
    have hzero : (s.ftable f).ref = 0 := by
      simpa using List.find?_some (p := fun f => (s.ftable f).ref == 0) hfind
    have htype := h.closed f hzero
    have hopen : openRefs (upd s.ftable f { s.ftable f with ref := 1 }) = openRefs s.ftable :=
      openRefs_upd_same _ _ fun _ => rfl
    refine ⟨rfl, rfl, by rw [← h.refs f, hzero], ?_, ?_, fun f' => ?_, fun f' hf' => ?_⟩
    · simpa using htype
    · simp only [hopen]
      exact h.fs
    · by_cases heq : f' = f
      · simp [heq]
      · simp only [upd_of_ne heq]
        exact h.refs f'
    · by_cases heq : f' = f
      · simp [heq] at hf'
      · simp only [upd_of_ne heq] at hf' ⊢
        exact h.closed f' hf'

/-- One descriptor less; the inode of a file that is closed is left to the caller. -/
theorem dropFile_ends (hf : 0 < fbase f) :
    (dropFile f).Ends NoDoubleFree
      (fun r s' => s'.proc = s.proc ∧ s'.fs = s.fs ∧
        match r with
        | none => SysAt (upd fbase f (fbase f - 1)) cbase held L s'
        | some ff =>
          if ff.type ≠ .none then SysAt (upd fbase f (fbase f - 1)) cbase (ff.ip ::ₘ held) L s'
          else SysAt (upd fbase f (fbase f - 1)) cbase held L s') s := by
  have href := h.refs f
  rw [dropFile, Prog.ends_atomic, if_neg (by omega)]
  -- the counts and the types of the other files stay
  have hrefs : ∀ x : File, x.ref = fbase f - 1 →
      ∀ f', (upd s.ftable f x f').ref = upd fbase f (fbase f - 1) f' := by
    intro x hx f'
    by_cases heq : f' = f
    · rw [heq, upd_self, upd_self, hx]
    · rw [upd_of_ne heq, upd_of_ne heq]
      exact h.refs f'
  have hclosed : ∀ x : File, (x.ref = 0 → x.type = .none) →
      ∀ f', (upd s.ftable f x f').ref = 0 → (upd s.ftable f x f').type = .none := by
    intro x hx f'
    by_cases heq : f' = f
    · rw [heq, upd_self]
      exact hx
    · rw [upd_of_ne heq]
      exact h.closed f'
  split
  · rename_i hpos
    have hopen : openRefs (upd s.ftable f { s.ftable f with ref := (s.ftable f).ref - 1 }) =
        openRefs s.ftable := openRefs_upd_same _ _ fun _ => rfl
    refine ⟨rfl, rfl, ?_, hrefs _ (by simp [href]), hclosed _ fun h0 => ?_⟩
    · simp only [hopen]
      exact h.fs
    · simp only at h0
      omega
  · have hsum := openRefs_upd s.ftable f { s.ftable f with ref := 0, type := .none }
    refine ⟨rfl, rfl, ?_⟩
    simp only
    split
    · rename_i htype
      refine ⟨h.fs.rebase fun ip => ?_, hrefs _ (by simp; omega), hclosed _ fun _ => rfl⟩
      have hip := hsum ip
      have hnew : File.refersTo { s.ftable f with ref := 0, type := .none } ip = 0 := by
        simp [File.refersTo]
      have hold : (s.ftable f).refersTo ip = if ip = (s.ftable f).ip then 1 else 0 := by
        simp [File.refersTo, htype, eq_comm]
      rw [hnew, hold] at hip
      rw [Multiset.count_cons]
      simp only at hip ⊢
      omega
    · rename_i htype
      have htype' : (s.ftable f).type = .none := not_not.mp htype
      have hopen : openRefs (upd s.ftable f { s.ftable f with ref := 0, type := .none }) =
          openRefs s.ftable := openRefs_upd_same _ _ fun ip => by simp [File.refersTo, htype']
      refine ⟨?_, hrefs _ (by simp; omega), hclosed _ fun _ => rfl⟩
      simp only [hopen]
      exact h.fs

/-- `fileclose` gives up one reference. -/
theorem fileclose_ends (hf : 0 < fbase f) (hL : ∀ ip ∈ L, ip ∈ held) :
    (fileclose f).Ends NoDoubleFree
      (fun _ s' => s'.proc = s.proc ∧ SysAt (upd fbase f (fbase f - 1)) cbase held L s') s := by
  rw [fileclose, Prog.ends_bind]
  refine (dropFile_ends h hf).mono fun r s₁ ⟨hproc, _, hs₁⟩ => ?_
  cases r with
  | none => exact Prog.ends_pure.mpr ⟨hproc, hs₁⟩
  | some ff =>
    simp only at hs₁ ⊢
    split
    · rename_i htype
      rw [if_pos htype] at hs₁
      refine SysAt.lift_ends ?_
      refine (iput_ends hs₁.fs fun hin => .inr (hL _ hin)).mono fun _ fs hfs => ?_
      exact ⟨hproc, hs₁.withFs hfs⟩
    · rename_i htype
      rw [if_neg htype] at hs₁
      exact Prog.ends_pure.mpr ⟨hproc, hs₁⟩

/-- `filedup` takes one reference more. -/
theorem filedup_ends :
    (filedup f).Ends NoDoubleFree
      (fun _ s' => s'.proc = s.proc ∧ SysAt (upd fbase f (fbase f + 1)) cbase held L s') s := by
  rw [filedup, Prog.ends_atomic]
  split
  · exact (by decide : NoDoubleFree (.panic "filedup"))
  · have hopen : openRefs (upd s.ftable f { s.ftable f with ref := (s.ftable f).ref + 1 }) =
        openRefs s.ftable := openRefs_upd_same _ _ fun _ => rfl
    refine ⟨rfl, ?_, fun f' => ?_, fun f' hf' => ?_⟩
    · simp only [hopen]
      exact h.fs
    · by_cases heq : f' = f
      · rw [heq]
        simp only [upd_self, h.refs f]
      · simp only [upd_of_ne heq]
        exact h.refs f'
    · by_cases heq : f' = f
      · simp [heq] at hf'
      · simp only [upd_of_ne heq] at hf' ⊢
        exact h.closed f' hf'

end

end Xv6.Fs
