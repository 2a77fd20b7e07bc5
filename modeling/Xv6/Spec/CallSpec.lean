import Xv6.Kernel.FileCalls
import Xv6.Spec.InodeTable

/-!
# Directories and names keep the inode table

The functions of the directory layer and the calls on names in terms of `At`: which references and
locks they take and give back, on every path through them. They stop only with a panic other than
`freeing free block`, or because they wait for a lock.
-/

namespace Xv6.Fs

open Prog (ends_bind ends_pure ends_gets ends_panic ends_findUp)

/-- Every reason to stop but a double free. -/
def NoDoubleFree (why : Stop) : Prop := why ≠ .panic "freeing free block"

instance : DecidablePred NoDoubleFree := fun _ => inferInstanceAs (Decidable (_ ≠ _))

theorem noDoubleFree_iget : NoDoubleFree (.panic "iget: no inodes") := by decide

theorem noDoubleFree_lock : LockStops NoDoubleFree := ⟨by decide, by decide, by decide⟩

/-- The reasons to stop on the way along a path are in `E`. -/
class NameStops (E : Stop → Prop) : Prop where
  lock : LockStops E
  iget : E (.panic "iget: no inodes")
  notDir : E (.panic "dirlookup not DIR")
  short : E (.panic "dirlookup read")

instance : NameStops NoDoubleFree := ⟨noDoubleFree_lock, noDoubleFree_iget, by decide, by decide⟩

variable {s s' : State} {base : InodePtr → Nat} {held : Multiset InodePtr} {L : Finset InodePtr}
  {ip dp : InodePtr} {E : Stop → Prop}

/-- The reference that a function returns, if it returns one. -/
def AtSome (base : InodePtr → Nat) (held : Multiset InodePtr) (L : Finset InodePtr)
    (r : Option InodePtr) (s : State) : Prop :=
  match r with
  | some ip => At base (ip ::ₘ held) L s
  | none => At base held L s

/-- Unlocking what has just been locked. -/
theorem iunlockput_insert_ends (h : At base (ip ::ₘ held) (insert ip L) s) (hip : ip ∉ L) :
    (iunlockput ip).Ends E (fun _ => At base held L) s := by
  refine (iunlockput_ends h (Finset.mem_insert_self ip L)).mono fun _ s' hs' => ?_
  rwa [Finset.erase_insert hip] at hs'

theorem iunlock_insert_ends (h : At base held (insert ip L) s) (hip : ip ∉ L) :
    (iunlock ip).Ends E (fun _ => At base held L) s := by
  refine (iunlock_ends h (Finset.mem_insert_self ip L)).mono fun _ s' hs' => ?_
  rwa [Finset.erase_insert hip] at hs'

/-! ## Directories -/

section

variable (h : At base held L s)
include h

section

variable (hdp : dp ∈ L)
include hdp

theorem readDirent_ends {msg : String} (hmsg : E (.panic msg)) (off : Nat) :
    (readDirent dp off msg).Ends E (fun _ => At base held L) s := by
  rw [readDirent, ends_bind]
  refine (readi_ends (h.filled hdp) off direntSize).mono fun bs s' hs' => ?_
  obtain ⟨rfl, -⟩ := hs'
  split
  · rw [ends_panic]
    exact hmsg
  · rw [ends_pure]
    exact h

theorem dirlookup_ends [NameStops E] (name : List UInt8) :
    (dirlookup dp name).Ends E (fun r => AtSome base held L (r.map Prod.fst)) s := by
  rw [dirlookup, inode, ends_bind, ends_gets]
  split
  · rw [ends_panic]
    exact NameStops.notDir
  · refine Prog.Ends.mono (ends_findUp (J := fun _ => At base held L)
      (Q := fun r => At base (r.1 ::ₘ held) L) (fun k s _ _ hs => ?_) h) fun r s' hs' => ?_
    · rw [ends_bind]
      refine (readDirent_ends hs hdp NameStops.short _).mono fun de s' hs' => ?_
      split
      · rw [ends_bind]
        refine (iget_ends hs' NameStops.iget _).mono fun ip s'' hs'' => ?_
        rw [ends_pure]
        exact hs''
      · rw [ends_pure]
        exact hs'
    · cases r with
      | none => exact hs'
      | some r => exact hs'

theorem emptyDirent_ends :
    (emptyDirent dp).Ends NoDoubleFree (fun _ => At base held L) s := by
  simp only [emptyDirent, inode, ends_bind, ends_gets, ends_pure]
  refine Prog.Ends.mono (ends_findUp (J := fun _ => At base held L)
    (Q := fun _ => At base held L) (fun k s _ _ hs => ?_) h) fun r s' hs' => ?_
  · rw [ends_bind]
    refine (readDirent_ends hs hdp (by decide) _).mono fun de s' hs' => ?_
    split
    · exact ends_pure.mpr hs'
    · exact ends_pure.mpr hs'
  · cases r with
    | none => exact hs'
    | some r => exact hs'

theorem dirlink_ends (name : List UInt8) (inum : Nat) :
    (dirlink dp name inum).Ends NoDoubleFree (fun _ => At base held L) s := by
  rw [dirlink, ends_bind]
  refine (dirlookup_ends h hdp name).mono fun r s₁ hs₁ => ?_
  cases r with
  | some r =>
    rw [ends_bind]
    refine (iput_ends hs₁ (h.live r.1)).mono fun _ s₂ hs₂ => ?_
    exact ends_pure.mpr hs₂
  | none =>
    simp only [ends_bind, ends_pure]
    refine (emptyDirent_ends hs₁ hdp).mono fun off s₂ hs₂ => ?_
    exact writei_ends hs₂ hdp _ _ _

theorem isdirempty_ends :
    (isdirempty dp).Ends NoDoubleFree (fun _ => At base held L) s := by
  simp only [isdirempty, inode, ends_bind, ends_gets, ends_pure]
  refine Prog.Ends.mono (ends_findUp (J := fun _ => At base held L)
    (Q := fun _ => At base held L) (fun k s _ _ hs => ?_) h) fun r s' hs' => ?_
  · rw [ends_bind]
    refine (readDirent_ends hs hdp (by decide) _).mono fun de s' hs' => ?_
    split
    · exact ends_pure.mpr hs'
    · exact ends_pure.mpr hs'
  · cases r with
    | none => exact hs'
    | some r => exact hs'

end

end

/-! ## Paths -/

theorem skipelem_length {path name rest : List UInt8} (h : skipelem path = some (name, rest)) :
    rest.length < path.length := by
  rw [skipelem] at h
  cases hd : path.dropWhile (· == slash) with
  | nil =>
    rw [hd] at h
    cases h
  | cons b bs =>
    rw [hd] at h
    obtain ⟨-, rfl⟩ := Prod.mk.inj (Option.some.inj h)
    -- the first byte of the element is not a slash
    have hb : (b == slash) = false := by
      have hhead := List.head_dropWhile_not (· == slash) (l := path) (by simp [hd])
      simpa [hd] using hhead
    have hle : (path.dropWhile (· == slash)).length ≤ path.length :=
      (List.dropWhile_suffix _).length_le
    have hle₁ : (bs.dropWhile (· != slash)).length ≤ bs.length :=
      (List.dropWhile_suffix _).length_le
    have hle₂ : ((bs.dropWhile (· != slash)).dropWhile (· == slash)).length ≤
        (bs.dropWhile (· != slash)).length := (List.dropWhile_suffix _).length_le
    have hdrop : (b :: bs).dropWhile (· != slash) = bs.dropWhile (· != slash) :=
      List.dropWhile_cons_of_pos (by simp [bne, hb])
    rw [hd, List.length_cons] at hle
    rw [hdrop]
    omega

theorem namexLoop_ends [NameStops E] (parent : Bool) {fuel : Nat} {path name : List UInt8}
    (h : At base (ip ::ₘ held) ∅ s) (hfuel : path.length < fuel) :
    (namexLoop parent fuel ip path name).Ends E
      (fun r => AtSome base held ∅ (r.map Prod.fst)) s := by
  induction fuel generalizing ip s path name with
  | zero => exact absurd hfuel (Nat.not_lt_zero _)
  | succ fuel ih =>
    rw [namexLoop]
    cases hskip : skipelem path with
    | none =>
      cases parent with
      | true =>
        simp only [if_true, ends_bind, ends_pure]
        exact iput_ends h fun hin => absurd hin (Finset.notMem_empty _)
      | false => exact ends_pure.mpr h
    | some e =>
      obtain ⟨name, rest⟩ := e
      have hlen := skipelem_length hskip
      simp only [ends_bind]
      refine (ilock_ends h NameStops.lock ip).mono ?_
      rintro _ s₁ ⟨hnot, hs₁⟩
      rw [inode, ends_gets]
      split
      · rw [ends_bind]
        refine (iunlockput_insert_ends hs₁ hnot).mono fun _ s₂ hs₂ => ?_
        exact ends_pure.mpr hs₂
      · split
        · rw [ends_bind]
          refine (iunlock_insert_ends hs₁ hnot).mono fun _ s₂ hs₂ => ?_
          exact ends_pure.mpr hs₂
        · rw [ends_bind]
          refine (dirlookup_ends hs₁ (Finset.mem_insert_self ip ∅) name).mono fun r s₂ hs₂ => ?_
          cases r with
          | none =>
            rw [ends_bind]
            refine (iunlockput_insert_ends hs₂ hnot).mono fun _ s₃ hs₃ => ?_
            exact ends_pure.mpr hs₃
          | some r =>
            rw [ends_bind]
            have hswap : At base (ip ::ₘ r.1 ::ₘ held) (insert ip ∅) s₂ := by
              rw [Multiset.cons_swap]
              exact hs₂
            refine (iunlockput_insert_ends hswap hnot).mono fun _ s₃ hs₃ => ?_
            exact ih hs₃ (by omega)

variable {cwd : InodePtr}

theorem namex_ends [NameStops E] (h : At base held ∅ s) (hcwd : 0 < base cwd)
    (path : List UInt8) (parent : Bool) :
    (namex cwd path parent).Ends E (fun r => AtSome base held ∅ (r.map Prod.fst)) s := by
  rw [namex]
  split
  · rw [ends_bind]
    refine (iget_ends h NameStops.iget ROOTINO).mono fun ip s₁ hs₁ => ?_
    exact namexLoop_ends parent hs₁ (Nat.lt_succ_self _)
  · rw [ends_bind]
    refine (idup_ends h (h.ref_pos (.inl hcwd))).mono fun ip s₁ ⟨hip, hs₁⟩ => ?_
    rw [hip]
    exact namexLoop_ends parent hs₁ (Nat.lt_succ_self _)

theorem namei_ends [NameStops E] (h : At base held ∅ s) (hcwd : 0 < base cwd) (path : List UInt8) :
    (namei cwd path).Ends E (AtSome base held ∅) s := by
  rw [namei, ends_bind]
  refine (namex_ends h hcwd path false).mono fun r s₁ hs₁ => ?_
  exact ends_pure.mpr hs₁

theorem nameiparent_ends [NameStops E] (h : At base held ∅ s) (hcwd : 0 < base cwd)
    (path : List UInt8) :
    (nameiparent cwd path).Ends E
      (fun r => AtSome base held ∅ (r.map Prod.fst)) s :=
  namex_ends h hcwd path true

/-! ## create -/

theorem addLink_ends (h : At base held L s) (hip : ip ∈ L) (d : Int) :
    (addLink ip d).Ends NoDoubleFree (fun _ => At base held L) s :=
  setDin_iupdate_ends h hip fun _ => ⟨rfl, rfl, rfl⟩

theorem linkDots_ends (h : At base held L s) (hip : ip ∈ L) (type : InodeType) :
    (linkDots type dp ip).Ends NoDoubleFree (fun _ => At base held L) s := by
  rw [linkDots]
  split
  · simp only [inode, ends_bind, ends_gets]
    refine (dirlink_ends h hip dot _).mono fun r s₁ hs₁ => ?_
    split
    · simp only [ends_bind, ends_gets]
      exact dirlink_ends hs₁ hip dotdot _
    · exact ends_pure.mpr hs₁
  · exact ends_pure.mpr h

/-- Both inodes of `create` are given back. -/
theorem createFail_ends (h : At base (ip ::ₘ dp ::ₘ held) (insert ip (insert dp ∅)) s)
    (hip : ip ∉ insert dp (∅ : Finset InodePtr)) :
    (createFail dp ip).Ends NoDoubleFree
      (fun r s' => r = none ∧ At base held ∅ s') s := by
  have hupd := setDin_iupdate_ends (E := NoDoubleFree) (g := fun x => { x with nlink := 0 }) h
    (Finset.mem_insert_self ip _) fun _ => ⟨rfl, rfl, rfl⟩
  simp only [createFail, ends_bind, ends_pure, true_and] at hupd ⊢
  refine hupd.mono fun _ s₁ hs₁ => hs₁.mono fun _ s₂ hs₂ => ?_
  refine (iunlockput_insert_ends hs₂ hip).mono fun _ s₃ hs₃ => ?_
  exact iunlockput_insert_ends hs₃ (Finset.notMem_empty _)

/-- The inode that `create` returns is locked. -/
def AtLocked (base : InodePtr → Nat) (r : Option InodePtr) (s : State) : Prop :=
  match r with
  | some ip => At base (ip ::ₘ 0) (insert ip ∅) s
  | none => At base 0 ∅ s

/-- `create` with a new inode that is referenced but not yet locked. -/
theorem createNew_ends (h : At base (ip ::ₘ dp ::ₘ 0) (insert dp ∅) s) (name : List UInt8)
    (type : InodeType) (major minor : Int) :
    (createNew dp ip name type major minor).Ends NoDoubleFree (AtLocked base) s := by
  rw [createNew, ends_bind]
  refine (ilock_ends h noDoubleFree_lock ip).mono ?_
  rintro _ s₁ ⟨hnot, hs₁⟩
  have hip : ip ∈ insert ip (insert dp (∅ : Finset InodePtr)) := Finset.mem_insert_self ip _
  have hdp : dp ∈ insert ip (insert dp (∅ : Finset InodePtr)) :=
    Finset.mem_insert_of_mem (Finset.mem_insert_self dp _)
  have hupd := setDin_iupdate_ends (E := NoDoubleFree)
    (g := fun x => { x with major := toShort major, minor := toShort minor, nlink := 1 }) hs₁ hip
    fun _ => ⟨rfl, rfl, rfl⟩
  simp only [ends_bind] at hupd ⊢
  refine hupd.mono fun _ s₂ hs₂ => hs₂.mono fun _ s₃ hs₃ => ?_
  refine (linkDots_ends hs₃ hip type).mono fun r s₄ hs₄ => ?_
  have hfail : ∀ {s}, At base (ip ::ₘ dp ::ₘ 0) (insert ip (insert dp ∅)) s →
      (createFail dp ip).Ends NoDoubleFree (AtLocked base) s := fun hs =>
    (createFail_ends hs hnot).mono fun r s' hrs => by
      rw [hrs.1]
      exact hrs.2
  -- the end of the call, with the parent unlocked
  have hdone : ∀ {s}, At base (ip ::ₘ dp ::ₘ 0) (insert ip (insert dp ∅)) s →
      (do
        iunlockput dp
        pure (some ip) : FsM (Option InodePtr)).Ends NoDoubleFree (AtLocked base) s := fun hs => by
    have hne : dp ∉ insert ip (∅ : Finset InodePtr) := by
      intro hin
      exact hnot (by simpa [eq_comm] using hin)
    rw [Finset.insert_comm, Multiset.cons_swap] at hs
    rw [ends_bind]
    refine (iunlockput_insert_ends hs hne).mono fun _ s' hs' => ?_
    exact ends_pure.mpr hs'
  split
  · simp only [inode, ends_bind, ends_gets]
    refine (dirlink_ends hs₄ hdp name _).mono fun r s₅ hs₅ => ?_
    split
    · split
      · rw [ends_bind]
        exact (addLink_ends hs₅ hdp 1).mono fun _ s₆ hs₆ => hdone hs₆
      · exact hdone hs₅
    · exact hfail hs₅
  · exact hfail hs₄

theorem create_ends (h : At base 0 ∅ s) (hcwd : 0 < base cwd) (path : List UInt8)
    (type : InodeType) (major minor : Int) :
    (create cwd path type major minor).Ends NoDoubleFree (AtLocked base) s := by
  rw [create, ends_bind]
  refine (nameiparent_ends h hcwd path).mono fun r s₁ hs₁ => ?_
  cases r with
  | none => exact ends_pure.mpr hs₁
  | some r =>
    obtain ⟨dp, name⟩ := r
    simp only [createIn, ends_bind]
    refine (ilock_ends hs₁ noDoubleFree_lock dp).mono ?_
    rintro _ s₂ ⟨hnot, hs₂⟩
    refine (dirlookup_ends hs₂ (Finset.mem_insert_self dp ∅) name).mono fun r s₃ hs₃ => ?_
    cases r with
    | some r =>
      have hswap : At base (dp ::ₘ r.1 ::ₘ 0) (insert dp ∅) s₃ := by
        rw [Multiset.cons_swap]
        exact hs₃
      simp only [ends_bind]
      refine (iunlockput_insert_ends hswap hnot).mono fun _ s₄ hs₄ => ?_
      refine (ilock_ends hs₄ noDoubleFree_lock r.1).mono ?_
      rintro _ s₅ ⟨hnot', hs₅⟩
      rw [inode, ends_gets]
      split
      · exact ends_pure.mpr hs₅
      · rw [ends_bind]
        refine (iunlockput_insert_ends hs₅ hnot').mono fun _ s₆ hs₆ => ?_
        exact ends_pure.mpr hs₆
    | none =>
      simp only [createAlloc, ends_bind]
      refine (ialloc_ends hs₃ noDoubleFree_iget type).mono fun r s₄ hs₄ => ?_
      cases r with
      | none =>
        rw [ends_bind]
        refine (iunlockput_insert_ends hs₄ hnot).mono fun _ s₅ hs₅ => ?_
        exact ends_pure.mpr hs₅
      | some ip => exact createNew_ends hs₄ name type major minor

/-! ## link and unlink -/

theorem linkBad_ends (h : At base (ip ::ₘ 0) ∅ s) :
    (linkBad ip).Ends NoDoubleFree (fun _ => At base 0 ∅) s := by
  simp only [linkBad, ends_bind, ends_pure]
  refine (ilock_ends h noDoubleFree_lock ip).mono ?_
  rintro _ s₁ ⟨hnot, hs₁⟩
  refine (addLink_ends hs₁ (Finset.mem_insert_self ip ∅) (-1)).mono fun _ s₂ hs₂ => ?_
  exact iunlockput_insert_ends hs₂ hnot

theorem sysLink_ends (h : At base 0 ∅ s) (hcwd : 0 < base cwd) (old new : List UInt8) :
    (sysLink cwd old new).Ends NoDoubleFree (fun _ => At base 0 ∅) s := by
  rw [sysLink, ends_bind]
  refine (namei_ends h hcwd old).mono fun r s₁ hs₁ => ?_
  cases r with
  | none => exact ends_pure.mpr hs₁
  | some ip =>
    simp only [ends_bind]
    refine (ilock_ends hs₁ noDoubleFree_lock ip).mono ?_
    rintro _ s₂ ⟨hnot, hs₂⟩
    rw [inode, ends_gets]
    split
    · rw [ends_bind]
      refine (iunlockput_insert_ends hs₂ hnot).mono fun _ s₃ hs₃ => ?_
      exact ends_pure.mpr hs₃
    · simp only [ends_bind]
      refine (addLink_ends hs₂ (Finset.mem_insert_self ip ∅) 1).mono fun _ s₃ hs₃ => ?_
      refine (iunlock_insert_ends hs₃ hnot).mono fun _ s₄ hs₄ => ?_
      refine (nameiparent_ends hs₄ hcwd new).mono fun r s₅ hs₅ => ?_
      cases r with
      | none => exact linkBad_ends hs₅
      | some r =>
        obtain ⟨dp, name⟩ := r
        simp only [ends_bind]
        refine (ilock_ends hs₅ noDoubleFree_lock dp).mono ?_
        rintro _ s₆ ⟨hnot', hs₆⟩
        rw [ends_gets]
        refine (dirlink_ends hs₆ (Finset.mem_insert_self dp ∅) name _).mono fun r s₇ hs₇ => ?_
        split
        · simp only [ends_bind, ends_pure]
          refine (iunlockput_insert_ends hs₇ hnot').mono fun _ s₈ hs₈ => ?_
          exact iput_ends hs₈ fun hin => absurd hin (Finset.notMem_empty _)
        · rw [ends_bind]
          exact (iunlockput_insert_ends hs₇ hnot').mono fun _ s₈ hs₈ => linkBad_ends hs₈

/-- The rest of `unlink` when the entry has been erased. -/
theorem unlinkRest_ends (h : At base (ip ::ₘ dp ::ₘ 0) (insert ip (insert dp ∅)) s)
    (hnot : ip ∉ insert dp (∅ : Finset InodePtr)) :
    (do
      iunlockput dp
      addLink ip (-1)
      iunlockput ip
      pure 0 : FsM Int).Ends NoDoubleFree (fun _ => At base 0 ∅) s := by
  have hne : dp ∉ insert ip (∅ : Finset InodePtr) := by
    intro hin
    exact hnot (by simpa [eq_comm] using hin)
  rw [Finset.insert_comm, Multiset.cons_swap] at h
  simp only [ends_bind, ends_pure]
  refine (iunlockput_insert_ends h hne).mono fun _ s₁ hs₁ => ?_
  refine (addLink_ends hs₁ (Finset.mem_insert_self ip ∅) (-1)).mono fun _ s₂ hs₂ => ?_
  exact iunlockput_insert_ends hs₂ (Finset.notMem_empty _)

theorem eraseEntry_ends (h : At base (ip ::ₘ dp ::ₘ 0) (insert ip (insert dp ∅)) s)
    (hnot : ip ∉ insert dp (∅ : Finset InodePtr)) (off : Nat) (type : InodeType) :
    (eraseEntry dp ip off type).Ends NoDoubleFree (fun _ => At base 0 ∅) s := by
  have hdp : dp ∈ insert ip (insert dp (∅ : Finset InodePtr)) :=
    Finset.mem_insert_of_mem (Finset.mem_insert_self dp _)
  rw [eraseEntry, ends_bind]
  refine (writei_ends h hdp _ _ _).mono fun r s₁ hs₁ => ?_
  split
  · rw [ends_panic]
    decide
  · split
    · rw [ends_bind]
      exact (addLink_ends hs₁ hdp (-1)).mono fun _ s₂ hs₂ => unlinkRest_ends hs₂ hnot
    · exact unlinkRest_ends hs₁ hnot

theorem dirFull_ends (h : At base held L s) (hip : ip ∈ L) (type : InodeType) :
    (dirFull type ip).Ends NoDoubleFree (fun _ => At base held L) s := by
  rw [dirFull]
  split
  · simp only [ends_bind, ends_pure]
    exact isdirempty_ends h hip
  · exact ends_pure.mpr h

theorem unlinkEntry_ends (h : At base (dp ::ₘ 0) (insert dp ∅) s) (name : List UInt8) :
    (unlinkEntry dp name).Ends NoDoubleFree (fun _ => At base 0 ∅) s := by
  have hempty : dp ∉ (∅ : Finset InodePtr) := Finset.notMem_empty _
  rw [unlinkEntry, ends_bind]
  refine (dirlookup_ends h (Finset.mem_insert_self dp ∅) name).mono fun r s₁ hs₁ => ?_
  cases r with
  | none =>
    rw [ends_bind]
    refine (iunlockput_insert_ends hs₁ hempty).mono fun _ s₂ hs₂ => ?_
    exact ends_pure.mpr hs₂
  | some r =>
    obtain ⟨ip, off⟩ := r
    simp only [ends_bind]
    refine (ilock_ends hs₁ noDoubleFree_lock ip).mono ?_
    rintro _ s₂ ⟨hnot, hs₂⟩
    simp only [inode, ends_gets]
    split
    · rw [ends_panic]
      decide
    · rw [ends_bind]
      refine (dirFull_ends hs₂ (Finset.mem_insert_self ip _) _).mono fun full s₃ hs₃ => ?_
      split
      · simp only [ends_bind, ends_pure]
        refine (iunlockput_insert_ends hs₃ hnot).mono fun _ s₄ hs₄ => ?_
        exact iunlockput_insert_ends hs₄ hempty
      · exact eraseEntry_ends hs₃ hnot off _

theorem sysUnlink_ends (h : At base 0 ∅ s) (hcwd : 0 < base cwd) (path : List UInt8) :
    (sysUnlink cwd path).Ends NoDoubleFree (fun _ => At base 0 ∅) s := by
  rw [sysUnlink, ends_bind]
  refine (nameiparent_ends h hcwd path).mono fun r s₁ hs₁ => ?_
  cases r with
  | none => exact ends_pure.mpr hs₁
  | some r =>
    obtain ⟨dp, name⟩ := r
    rw [ends_bind]
    refine (ilock_ends hs₁ noDoubleFree_lock dp).mono fun _ s₂ ⟨hnot, hs₂⟩ => ?_
    split
    · rw [ends_bind]
      refine (iunlockput_insert_ends hs₂ hnot).mono fun _ s₃ hs₃ => ?_
      exact ends_pure.mpr hs₃
    · exact unlinkEntry_ends hs₂ name

end Xv6.Fs
