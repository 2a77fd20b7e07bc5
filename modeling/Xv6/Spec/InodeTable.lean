import Mathlib.Data.Finset.Basic
import Mathlib.Data.Finset.Lattice.Lemmas
import Xv6.Spec.ReadWrite

/-!
# The inode table

`Good s` holds whenever no inode is ahead of the disk: the places own the blocks, an inode has at most
one entry in the table, and a valid entry is a copy of an allocated inode.

`At base held L s` describes a state inside of a system call: besides `Good` it says that an entry
has `base` references from open files and current directories and the ones in `held` from
the call, and that the inodes in `L` are locked, which are then valid and referenced. One lemma for
each function of the inode layer says how it moves `held` and `L`.
-/

namespace Xv6.Fs

open Prog (ends_bind ends_pure ends_gets ends_modify ends_atomic)

/-- The consistency of the disk and the inode table. -/
structure Good (s : State) : Prop where
  disk : DiskOk s.dinode s.bitmap s.data
  distinct : ∀ ip ip', 0 < (s.itable ip).ref → 0 < (s.itable ip').ref →
    (s.itable ip).inum = (s.itable ip').inum → ip = ip'
  clean : ∀ ip, 0 < (s.itable ip).ref → (s.itable ip).valid = true →
    (s.itable ip).din = s.dinode (s.itable ip).inum ∧ (s.itable ip).din.type ≠ .free
  fresh : ∀ h ∈ s.handed, h.Fresh

/-- A state inside of a call, with references from outside (`base`) and from the call (`held`) and
    the locks `L`. -/
structure At (base : InodePtr → Nat) (held : Multiset InodePtr) (L : Finset InodePtr) (s : State) :
    Prop where
  good : Good s
  refs : ∀ ip, (s.itable ip).ref = base ip + held.count ip
  locks : ∀ ip, (s.itable ip).locked = true ↔ ip ∈ L
  valid : ∀ ip ∈ L, (s.itable ip).valid = true
  live : ∀ ip ∈ L, 0 < base ip ∨ ip ∈ held

/-- No inode is locked. -/
def Quiet (s : State) : Prop := ∀ ip, (s.itable ip).locked = false

variable {s s' : State} {base : InodePtr → Nat} {held : Multiset InodePtr} {L : Finset InodePtr} {ip : InodePtr}
  {E : Stop → Prop}

/-- The start of a call. -/
theorem Good.start (h : Good s) (hq : Quiet s) (hr : ∀ ip, (s.itable ip).ref = base ip) :
    At base 0 ∅ s :=
  ⟨h, fun ip => by simp [hr ip], fun ip => by simp [hq ip], by simp, by simp⟩

/-- The end of a call. -/
theorem At.quiet (h : At base held ∅ s) : Quiet s := fun ip => by
  simpa using mt (h.locks ip).mp

theorem At.ref_pos (h : At base held L s) (hip : 0 < base ip ∨ ip ∈ held) :
    0 < (s.itable ip).ref := by
  rw [h.refs ip]
  rcases hip with h0 | hm
  · omega
  · have := Multiset.count_pos.mpr hm
    omega

theorem At.live_of_pos (h : At base held L s) (hip : 0 < (s.itable ip).ref) :
    0 < base ip ∨ ip ∈ held := by
  rw [h.refs ip] at hip
  by_cases h0 : 0 < base ip
  · exact .inl h0
  · exact .inr (Multiset.count_pos.mp (by omega))

/-! ## What a valid entry gives -/

/-- A clean copy makes no difference. -/
theorem Good.logical_eq (h : Good s) (hl : 0 < (s.itable ip).ref) (hv : (s.itable ip).valid = true) :
    logical s ip = s.dinode := by
  rw [logical, (h.clean ip hl hv).1, upd_eq_self]

theorem Good.filled (h : Good s) (hl : 0 < (s.itable ip).ref) (hv : (s.itable ip).valid = true) :
    Filled ip s := by
  obtain ⟨hdin, htype⟩ := h.clean ip hl hv
  have hlog := h.logical_eq hl hv
  have htype' : (s.dinode (s.itable ip).inum).type ≠ .free := by rwa [← hdin]
  have hahead : Ahead ip s := ⟨hl, hv, fun ip' hne hl' hv' =>
    ⟨fun heq => hne (h.distinct ip' ip hl' hl heq), (h.clean ip' hl' hv').1⟩⟩
  refine ⟨⟨hahead, h.fresh, htype, by rw [placeAt, hlog]; exact h.disk.owns⟩, ?_, fun x hx => ?_⟩
  · rw [hdin]
    exact h.disk.small _ htype'
  · rw [blockAt, placeAt, hlog]
    refine h.disk.full _ htype' _ ?_
    have hle := Nat.div_mul_le_self x BSIZE
    rw [hdin] at hx
    omega

/-! ## Changes of one entry -/

/-- The state with another entry in slot `ip`. -/
def State.setEntry (s : State) (ip : InodePtr) (x : Inode) : State :=
  { s with itable := upd s.itable ip x }

@[simp] theorem State.setEntry_self (s : State) (ip : InodePtr) (x : Inode) :
    (s.setEntry ip x).itable ip = x := upd_self ..

variable {x : Inode}

theorem Good.setEntry (h : Good s)
    (hd : 0 < x.ref → ∀ ip', ip' ≠ ip → 0 < (s.itable ip').ref → (s.itable ip').inum ≠ x.inum)
    (hc : 0 < x.ref → x.valid = true → x.din = s.dinode x.inum ∧ x.din.type ≠ .free) :
    Good (s.setEntry ip x) := by
  refine ⟨h.disk, fun ip₁ ip₂ h₁ h₂ heq => ?_, fun ip₁ h₁ hv => ?_, h.fresh⟩
  · simp only [State.setEntry, upd_apply] at h₁ h₂ heq
    by_cases hip₁ : ip₁ = ip <;> by_cases hip₂ : ip₂ = ip
    · rw [hip₁, hip₂]
    · rw [if_pos hip₁] at h₁ heq
      rw [if_neg hip₂] at h₂ heq
      exact absurd heq.symm (hd h₁ ip₂ hip₂ h₂)
    · rw [if_neg hip₁] at h₁ heq
      rw [if_pos hip₂] at h₂ heq
      exact absurd heq (hd h₂ ip₁ hip₁ h₁)
    · rw [if_neg hip₁] at h₁ heq
      rw [if_neg hip₂] at h₂ heq
      exact h.distinct ip₁ ip₂ h₁ h₂ heq
  · simp only [State.setEntry, upd_apply] at h₁ hv ⊢
    by_cases hip₁ : ip₁ = ip
    · rw [if_pos hip₁] at h₁ hv ⊢
      exact hc h₁ hv
    · rw [if_neg hip₁] at h₁ hv ⊢
      exact h.clean ip₁ h₁ hv

/-- A new entry that keeps the inode number, the copy and its validity of a live one. -/
theorem Good.setEntry_same (h : Good s) (hl : 0 < (s.itable ip).ref) (hi : x.inum = (s.itable ip).inum)
    (hv : x.valid = (s.itable ip).valid) (hdin : x.din = (s.itable ip).din) : Good (s.setEntry ip x) := by
  refine h.setEntry (fun _ ip' hne hl' heq => ?_) fun _ hx => ?_
  · exact hne (h.distinct ip' ip hl' hl (heq.trans hi))
  · rw [hdin, hi]
    exact h.clean ip hl (hv ▸ hx)

/-- From `s` to `s'` no more has changed on disk than that the inodes in `F` have been freed, and a
    referenced entry of the inode table has kept its inode number. -/
structure Frees (F : Finset Nat) (s s' : State) : Prop where
  data : s'.data = s.data
  dinode : ∀ i ∉ F, s'.dinode i = s.dinode i
  free : ∀ i ∈ F, (s'.dinode i).type = .free
  inums : ∀ ip, 0 < (s.itable ip).ref → (s'.itable ip).inum = (s.itable ip).inum

theorem frees_setEntry (h : 0 < (s.itable ip).ref → x.inum = (s.itable ip).inum) :
    Frees ∅ s (s.setEntry ip x) := by
  refine ⟨rfl, fun _ _ => rfl, fun _ hi => absurd hi (Finset.notMem_empty _), fun ip' hl => ?_⟩
  simp only [State.setEntry, upd_apply]
  split
  · rename_i heq
    rw [heq] at hl ⊢
    exact h hl
  · rfl

theorem Frees.trans {F F' : Finset Nat} {t : State} (h : Frees F s t) (h' : Frees F' t s')
    (hlive : ∀ ip, 0 < (s.itable ip).ref → 0 < (t.itable ip).ref) : Frees (F ∪ F') s s' := by
  refine ⟨h'.data.trans h.data, fun i hi => ?_, fun i hi => ?_, fun ip hl => ?_⟩
  · rw [Finset.mem_union, not_or] at hi
    rw [h'.dinode i hi.2, h.dinode i hi.1]
  · by_cases hi' : i ∈ F'
    · exact h'.free i hi'
    · rw [h'.dinode i hi']
      exact h.free i ((Finset.mem_union.mp hi).resolve_right hi')
  · rw [h'.inums ip (hlive ip hl), h.inums ip hl]

/-! ## iget and idup -/

theorem findSlot_some {test : Inode → Bool} (h : findSlot s test = some ip) :
    test (s.itable ip) = true :=
  List.find?_some (p := fun ip => test (s.itable ip)) h

theorem findSlot_none {test : Inode → Bool} (h : findSlot s test = none) (ip : InodePtr) :
    test (s.itable ip) = false := by
  have := List.find?_eq_none.mp h ip (List.mem_finRange ip)
  simpa using this

section

variable (h : At base held L s)
include h

/-- One more reference to the entry in slot `ip`, which may be filled anew if it was free. -/
theorem At.addRef (hg : Good (s.setEntry ip x))
    (hr : x.ref = (s.itable ip).ref + 1) (hk : x.locked = (s.itable ip).locked)
    (hv : 0 < (s.itable ip).ref → x.valid = (s.itable ip).valid) :
    At base (ip ::ₘ held) L (s.setEntry ip x) := by
  refine ⟨hg, fun ip' => ?_, fun ip' => ?_, fun ip' hip' => ?_, fun ip' hip' => ?_⟩
  · rw [Multiset.count_cons]
    simp only [State.setEntry, upd_apply]
    by_cases hip' : ip' = ip
    · rw [if_pos hip', if_pos hip', hr, hip', h.refs ip]
      omega
    · rw [if_neg hip', if_neg hip', h.refs ip']
      omega
  · simp only [State.setEntry, upd_apply]
    by_cases hip' : ip' = ip
    · rw [if_pos hip', hk, hip']
      exact h.locks ip
    · rw [if_neg hip']
      exact h.locks ip'
  · simp only [State.setEntry, upd_apply]
    by_cases heq : ip' = ip
    · rw [if_pos heq, hv (heq ▸ h.ref_pos (h.live ip' hip')), ← heq]
      exact h.valid ip' hip'
    · rw [if_neg heq]
      exact h.valid ip' hip'
  · exact (h.live ip' hip').imp_right Multiset.mem_cons_of_mem

/-- `iget` finds the entry of an inode or takes a free one, and stops if there is neither. -/
theorem iget_finds (inum : Nat) (hE : (∀ ip, 0 < (s.itable ip).ref ∧ (s.itable ip).inum ≠ inum) →
      E (.panic "iget: no inodes")) :
    (iget inum).Ends E
      (fun ip s' => At base (ip ::ₘ held) L s' ∧ Frees ∅ s s' ∧ (s'.itable ip).inum = inum) s := by
  rw [iget, ends_atomic]
  cases hfind : findSlot s fun x => decide (0 < x.ref) && x.inum == inum with
  | some ip =>
    have htest := findSlot_some hfind
    simp only [Bool.and_eq_true, decide_eq_true_eq, beq_iff_eq] at htest
    refine ⟨h.addRef (h.good.setEntry_same htest.1 rfl rfl rfl) rfl rfl fun _ => rfl,
      frees_setEntry fun _ => rfl, ?_⟩
    show (upd s.itable ip _ ip).inum = inum
    rw [upd_self]
    exact htest.2
  | none =>
    have hnone : ∀ ip, 0 < (s.itable ip).ref → (s.itable ip).inum ≠ inum := fun ip hl heq => by
      have := findSlot_none hfind ip
      simp [hl, heq] at this
    simp only
    cases hfree : findSlot s fun x => x.ref == 0 with
    | none =>
      refine hE fun ip => ?_
      have hl : 0 < (s.itable ip).ref := Nat.pos_of_ne_zero (by simpa using findSlot_none hfree ip)
      exact ⟨hl, hnone ip hl⟩
    | some ip =>
      have hzero : (s.itable ip).ref = 0 := by simpa using findSlot_some hfree
      refine ⟨h.addRef (h.good.setEntry (fun _ ip' _ hl => hnone ip' hl) fun _ hv => nomatch hv)
        (by simp [hzero]) rfl fun hpos => absurd hpos (by omega),
        frees_setEntry fun hpos => absurd hpos (by omega), ?_⟩
      show (upd s.itable ip _ ip).inum = inum
      rw [upd_self]

theorem iget_ends (hE : E (.panic "iget: no inodes")) (inum : Nat) :
    (iget inum).Ends E (fun ip s' => At base (ip ::ₘ held) L s') s :=
  (iget_finds h inum fun _ => hE).mono fun _ _ hs' => hs'.1

theorem idup_ends (hl : 0 < (s.itable ip).ref) :
    (idup ip).Ends E (fun r s' => r = ip ∧ At base (ip ::ₘ held) L s') s := by
  simp only [idup, setInode, ends_bind, ends_modify, ends_pure, true_and]
  exact h.addRef (h.good.setEntry_same hl rfl rfl rfl) rfl rfl fun _ => rfl

/-! ## Locks -/

/-- A change of a live entry that keeps its references and its inode number. -/
theorem At.setLock {L' : Finset InodePtr} (hg : Good (s.setEntry ip x))
    (hr : x.ref = (s.itable ip).ref) (hk : x.locked = true ↔ ip ∈ L')
    (hL : ∀ ip', ip' ≠ ip → (ip' ∈ L' ↔ ip' ∈ L)) (hv : ip ∈ L' → x.valid = true ∧ 0 < x.ref) :
    At base held L' (s.setEntry ip x) := by
  have hother : ∀ ip', ip' ≠ ip → (s.setEntry ip x).itable ip' = s.itable ip' :=
    fun ip' hne => upd_of_ne hne x
  have hself : (s.setEntry ip x).itable ip = x := upd_self ..
  refine ⟨hg, fun ip' => ?_, fun ip' => ?_, fun ip' hip' => ?_, fun ip' hip' => ?_⟩
  · by_cases heq : ip' = ip
    · rw [heq, hself, hr, h.refs ip]
    · rw [hother ip' heq, h.refs ip']
  · by_cases heq : ip' = ip
    · rw [heq, hself, hk]
    · rw [hother ip' heq, h.locks ip', hL ip' heq]
  · by_cases heq : ip' = ip
    · rw [heq] at hip' ⊢
      rw [hself]
      exact (hv hip').1
    · rw [hother ip' heq]
      exact h.valid ip' ((hL ip' heq).mp hip')
  · by_cases heq : ip' = ip
    · rw [heq] at hip' ⊢
      exact h.live_of_pos (hr ▸ (hv hip').2)
    · exact h.live ip' ((hL ip' heq).mp hip')

end

/-- The reasons for which `ilock` may stop. -/
structure LockStops (E : Stop → Prop) : Prop where
  ref : E (.panic "ilock")
  block : E .block
  type : E (.panic "ilock: no type")

/-- `ilock` behind `acquiresleep`. -/
def ilockRest (ip : InodePtr) : FsM Unit := do
  let x ← inode ip
  if x.valid = false then
    .modify fun s =>
      { s with
        itable := upd s.itable ip
          { s.itable ip with din := s.dinode (s.itable ip).inum, valid := true } }
    let x ← inode ip
    if x.din.type = .free then .panic "ilock: no type"

section

variable (h : At base held L s)
include h

/-- `ilockRest` stops if the inode has not been read yet and is free. -/
theorem ilockRest_loads (hl : 0 < (s.itable ip).ref)
    (hE : (s.dinode (s.itable ip).inum).type = .free → E (.panic "ilock: no type")) :
    (ilockRest ip).Ends E (fun _ s' => At base held (insert ip L) s' ∧ Frees ∅ s s')
      { s with itable := upd s.itable ip { s.itable ip with locked := true } } := by
  have hmem : ∀ ip', ip' ≠ ip → (ip' ∈ insert ip L ↔ ip' ∈ L) := fun ip' hne => by simp [hne]
  simp only [ilockRest, inode, ends_bind, ends_gets, upd_self]
  split
  · simp only [ends_bind, ends_modify, ends_gets, upd_self, upd_upd]
    split
    · rename_i htype
      rw [Prog.ends_panic]
      exact hE htype
    · rename_i htype
      rw [ends_pure]
      refine ⟨h.setLock (h.good.setEntry (fun _ ip' hne hl' heq => ?_) fun _ _ => ?_) rfl
        (by simp) hmem fun _ => ⟨rfl, hl⟩, frees_setEntry fun _ => rfl⟩
      · exact hne (h.good.distinct ip' ip hl' hl heq)
      · exact ⟨rfl, htype⟩
  · rename_i hv
    rw [ends_pure]
    refine ⟨h.setLock (h.good.setEntry_same hl rfl rfl rfl) rfl (by simp) hmem fun _ => ⟨?_, hl⟩,
      frees_setEntry fun _ => rfl⟩
    simpa using hv

theorem ilockRest_ends (hE : LockStops E) (hl : 0 < (s.itable ip).ref) :
    (ilockRest ip).Ends E (fun _ => At base held (insert ip L))
      { s with itable := upd s.itable ip { s.itable ip with locked := true } } :=
  (ilockRest_loads h hl fun _ => hE.type).mono fun _ _ hs' => hs'.1

/-- `ilock` of an inode that is not locked. -/
theorem ilock_loads (hl : 0 < (s.itable ip).ref) (hnot : ip ∉ L)
    (hE : (s.dinode (s.itable ip).inum).type = .free → E (.panic "ilock: no type")) :
    (ilock ip).Ends E (fun _ s' => At base held (insert ip L) s' ∧ Frees ∅ s s') s := by
  rw [ilock, ends_bind, inode, ends_gets, if_neg (by omega), ends_bind,
    acquiresleep, ends_atomic, if_neg fun hk => hnot ((h.locks ip).mp hk)]
  exact ilockRest_loads h hl hE

theorem ilock_ends (hE : LockStops E) (ip : InodePtr) :
    (ilock ip).Ends E (fun _ s' => ip ∉ L ∧ At base held (insert ip L) s') s := by
  rw [ilock, ends_bind, inode, ends_gets]
  split
  · rw [Prog.ends_panic]
    exact hE.ref
  · rename_i href
    rw [ends_bind, acquiresleep, ends_atomic]
    by_cases hk : (s.itable ip).locked = true
    · rw [if_pos hk]
      exact hE.block
    · rw [if_neg hk]
      have hnot : ip ∉ L := fun hin => hk ((h.locks ip).mpr hin)
      show (ilockRest ip).Ends E _ _
      exact (ilockRest_ends h hE (by omega)).mono fun _ _ hs' => ⟨hnot, hs'⟩

section

variable (hip : ip ∈ L)
include hip

/-- `releasesleep` of a locked inode. -/
theorem At.release :
    At base held (L.erase ip) (s.setEntry ip { s.itable ip with locked := false }) := by
  have hl := h.ref_pos (h.live ip hip)
  exact h.setLock (h.good.setEntry_same hl rfl rfl rfl) rfl (by simp)
    (fun ip' hne => by simp [hne]) fun hin => absurd hin (by simp)

theorem iunlock_releases :
    (iunlock ip).Ends E
      (fun _ s' => At base held (L.erase ip) s' ∧
        s' = s.setEntry ip { s.itable ip with locked := false }) s := by
  have hl := h.ref_pos (h.live ip hip)
  have hk := (h.locks ip).mpr hip
  simp only [iunlock, inode, ends_bind, ends_gets, hk]
  have hcond : ¬ (true = false ∨ (s.itable ip).ref < 1) := by
    simp only [Bool.true_eq_false, false_or]
    omega
  rw [if_neg hcond]
  simp only [releasesleep, setInode, ends_modify]
  exact ⟨h.release hip, rfl⟩

theorem iunlock_ends :
    (iunlock ip).Ends E (fun _ => At base held (L.erase ip)) s :=
  (iunlock_releases h hip).mono fun _ _ hs' => hs'.1

/-! ## Changes of a locked inode -/

/-- `ip` has been changed and written to disk; the rest of the table is as it was. -/
theorem At.written {d : Dinode} (htab : s'.itable = upd s.itable ip { s.itable ip with din := d })
    (htype : d.type ≠ .free) (hdin : s'.dinode = upd s.dinode (s.itable ip).inum d)
    (hdisk : DiskOk s'.dinode s'.bitmap s'.data) (hfresh : ∀ h ∈ s'.handed, h.Fresh) :
    At base held L s' := by
  have hl := h.ref_pos (h.live ip hip)
  have hentry : ∀ ip', (s'.itable ip').inum = (s.itable ip').inum ∧
      (s'.itable ip').ref = (s.itable ip').ref ∧ (s'.itable ip').locked = (s.itable ip').locked ∧
      (s'.itable ip').valid = (s.itable ip').valid := by
    intro ip'
    by_cases heq : ip' = ip
    · rw [htab, heq, upd_self]
      exact ⟨rfl, rfl, rfl, rfl⟩
    · rw [htab, upd_of_ne heq]
      exact ⟨rfl, rfl, rfl, rfl⟩
  refine ⟨⟨hdisk, fun ip₁ ip₂ h₁ h₂ heq => ?_, fun ip' hl' hv => ?_, hfresh⟩, fun ip' => ?_, fun ip' => ?_,
    fun ip' hin => ?_, h.live⟩
  · rw [(hentry _).2.1] at h₁ h₂
    rw [(hentry _).1, (hentry _).1] at heq
    exact h.good.distinct ip₁ ip₂ h₁ h₂ heq
  · rw [(hentry _).2.1] at hl'
    rw [(hentry _).2.2.2] at hv
    rw [(hentry _).1, hdin]
    by_cases heq : ip' = ip
    · rw [heq, htab, upd_self, upd_self]
      exact ⟨rfl, htype⟩
    · have hne : (s.itable ip').inum ≠ (s.itable ip).inum := fun hc =>
        heq (h.good.distinct ip' ip hl' hl hc)
      rw [htab, upd_of_ne heq, upd_of_ne hne]
      exact h.good.clean ip' hl' hv
  · rw [(hentry ip').2.1, h.refs ip']
  · rw [(hentry ip').2.2.1, h.locks ip']
  · rw [(hentry ip').2.2.2]
    exact h.valid ip' hin

/-- What `At` gives for a locked inode. -/
theorem At.filled : Filled ip s :=
  h.good.filled (h.ref_pos (h.live ip hip)) (h.valid ip hip)

theorem At.logical_eq : logical s ip = s.dinode :=
  h.good.logical_eq (h.ref_pos (h.live ip hip)) (h.valid ip hip)

theorem At.type_ne : (s.itable ip).din.type ≠ .free :=
  (h.good.clean ip (h.ref_pos (h.live ip hip)) (h.valid ip hip)).2

theorem At.din_eq :
    (s.itable ip).din = s.dinode (s.itable ip).inum :=
  (h.good.clean ip (h.ref_pos (h.live ip hip)) (h.valid ip hip)).1

/-- A change of fields other than the type, the size and the blocks. -/
theorem setDin_iupdate_ends {g : Dinode → Dinode}
    (hg : ∀ d, (g d).type = d.type ∧ (g d).size = d.size ∧ (g d).addrs = d.addrs) :
    (do
      setDin ip g
      iupdate ip : FsM Unit).Ends E (fun _ => At base held L) s := by
  simp only [setDin, setInode, iupdate, ends_bind, ends_modify, upd_self]
  have hdin := h.din_eq hip
  have hsame : ∀ i,
      (upd s.dinode (s.itable ip).inum (g (s.itable ip).din) i).type = (s.dinode i).type ∧
      (upd s.dinode (s.itable ip).inum (g (s.itable ip).din) i).size = (s.dinode i).size ∧
      (upd s.dinode (s.itable ip).inum (g (s.itable ip).din) i).addrs = (s.dinode i).addrs := by
    intro i
    by_cases hi : i = (s.itable ip).inum
    · rw [hi, upd_self, ← hdin]
      exact hg _
    · rw [upd_of_ne hi]
      exact ⟨rfl, rfl, rfl⟩
  have hplace : place (upd s.dinode (s.itable ip).inum (g (s.itable ip).din)) s.data =
      place s.dinode s.data :=
    place_congr fun i => ⟨by rw [(hsame i).1], (hsame i).2.2⟩
  refine h.written hip rfl (by rw [(hg _).1]; exact h.type_ne hip) rfl
    ⟨by rw [hplace]; exact h.good.disk.owns, fun i ht => ?_, fun i ht n hn => ?_⟩ h.good.fresh
  · rw [(hsame i).2.1]
    exact h.good.disk.small i ((hsame i).1 ▸ ht)
  · rw [hplace]
    rw [(hsame i).2.1] at hn
    exact h.good.disk.full i ((hsame i).1 ▸ ht) n hn

end

end

/-! ## writei and itrunc -/

variable {a : Nat → Nat}

/-- The places after a write, as they stand on disk. -/
theorem Changes.place_eq {off n : Nat} (h : Changes ip off n s s') (htab : s'.itable =
      upd s.itable ip { s.itable ip with din := { (s.itable ip).din with addrs := a } }) (size : Nat) :
    place (upd s.dinode (s.itable ip).inum { (s.itable ip).din with addrs := a, size := size })
      s'.data = placeAt s' ip := by
  have hlog' : logical s' ip =
      upd s.dinode (s.itable ip).inum { (s.itable ip).din with addrs := a } := by
    rw [logical, h.dinode, htab, upd_self]
  rw [placeAt, hlog']
  refine place_congr fun i => ?_
  by_cases hi : i = (s.itable ip).inum
  · rw [hi, upd_self, upd_self]
    exact ⟨Iff.rfl, rfl⟩
  · rw [upd_of_ne hi, upd_of_ne hi]
    exact ⟨Iff.rfl, rfl⟩

theorem Changes.diskOk {off n tot : Nat} {size : Nat} (hg : Good s) (h : Changes ip off n s s')
    (hlog : logical s ip = s.dinode) (hdin : (s.itable ip).din = s.dinode (s.itable ip).inum)
    (htab : s'.itable =
      upd s.itable ip { s.itable ip with din := { (s.itable ip).din with addrs := a } })
    (hsmall : size ≤ MAXFILE * BSIZE)
    (hsize : size = (s.itable ip).din.size ∨ size = off + tot ∧ off ≤ (s.itable ip).din.size)
    (hmapped : ∀ x, off ≤ x → x < off + tot → blockAt s' ip x ≠ 0) :
    DiskOk (upd s.dinode (s.itable ip).inum { (s.itable ip).din with addrs := a, size := size })
      s'.bitmap s'.data := by
  have hplace := h.place_eq htab size
  have hold : placeAt s ip = place s.dinode s.data := by rw [placeAt, hlog]
  refine ⟨by rw [hplace]; exact h.maps.owns, fun i ht => ?_, fun i ht m hm => ?_⟩
  · by_cases hi : i = (s.itable ip).inum
    · rw [hi, upd_self]
      exact hsmall
    · rw [upd_of_ne hi] at ht ⊢
      exact hg.disk.small i ht
  · rw [hplace]
    -- a block below the old size is where it was
    have hkept : (s.dinode i).type ≠ .free → m * BSIZE < (s.dinode i).size →
        placeAt s' ip (filePlace i m) ≠ 0 := fun ht hm => by
      have hne := hg.disk.full i ht m hm
      rw [← hold] at hne
      rwa [h.keeps i m hne]
    by_cases hi : i = (s.itable ip).inum
    · rw [hi, upd_self] at ht hm
      rw [hi] at hkept ⊢
      rw [← hdin] at hkept
      by_cases hlt : m * BSIZE < (s.itable ip).din.size
      · exact hkept ht hlt
      · -- a block behind the old size has been written
        have hm' : m * BSIZE < size := hm
        have hx := hmapped (m * BSIZE) (by omega) (by omega)
        rwa [blockAt, h.inum_eq, Nat.mul_div_cancel _ BSIZE_pos] at hx
    · rw [upd_of_ne hi] at ht hm
      exact hkept ht hm

/-- What `writei` has done to the file in `ip` when it returns `tot`. -/
structure WroteFile (ip : InodePtr) (src : Source) (off n : Nat) (s : State) (tot : Nat)
    (s' : State) : Prop where
  start : off ≤ (s.dinode (s.itable ip).inum).size
  fits : off + n ≤ MAXFILE * BSIZE
  le : tot ≤ n
  table : ∃ d, s'.itable = upd s.itable ip { s.itable ip with din := d }
  size : (s'.dinode (s.itable ip).inum).size = max (s.dinode (s.itable ip).inum).size (off + tot)
  inside : ∀ f : Nat → UInt8,
    (∀ pos m, src.ok pos m = true → src.bytes pos m = (List.range m).map fun k => f (pos + k)) →
    ∀ k < tot, fileByte s' (s.itable ip).inum (off + k) = f k
  outside : ∀ x < (s.dinode (s.itable ip).inum).size, x < off ∨ off + n ≤ x →
    fileByte s' (s.itable ip).inum x = fileByte s (s.itable ip).inum x

/-- The loop of `writei`, followed by `iupdate` with the new size. -/
theorem Wrote.file {src : Source} {off n tot size : Nat} {s₁ : State} (h : At base held L s)
    (hip : ip ∈ L) (hw : Wrote ip src off 0 n s tot s₁) (hoff : off ≤ (s.itable ip).din.size)
    (hmax : off + n ≤ MAXFILE * BSIZE) (ha : s₁.itable =
      upd s.itable ip { s.itable ip with din := { (s.itable ip).din with addrs := a } })
    (hsize : size = max (s.itable ip).din.size (off + tot)) (hdata : s'.data = s₁.data)
    (htab : s'.itable = upd s.itable ip
      { s.itable ip with din := { (s.itable ip).din with addrs := a, size := size } })
    (hdin : s'.dinode = upd s.dinode (s.itable ip).inum
      { (s.itable ip).din with addrs := a, size := size }) :
    WroteFile ip src off n s tot s' := by
  have hplace := hw.changes.place_eq ha size
  have hinum := hw.changes.inum_eq
  have hold := h.din_eq hip
  have hlog := h.logical_eq hip
  have hnew : ∀ x, fileByte s' (s.itable ip).inum x = byteAt s₁ ip x := by
    intro x
    rw [fileByte, hdin, hdata, hplace, byteAt, blockAt, hinum]
  refine ⟨by rwa [← hold], hmax, hw.le, ⟨_, htab⟩, ?_, fun f hf k hk => ?_, fun x hx hout => ?_⟩
  · rw [hdin, upd_self, ← hold, hsize]
  · rw [hnew, hw.inside f hf k hk, Nat.zero_add]
  · have hbefore : fileByte s (s.itable ip).inum x = byteAt s ip x := by
      rw [fileByte, byteAt, blockAt, placeAt, hlog]
    rw [hnew, hbefore]
    refine hw.changes.outside x ((h.filled hip).full x ?_) hout
    rwa [hold]

/-- `writei` fails at once and changes nothing, or it writes a part of the bytes. -/
theorem writei_ends_file (h : At base held L s) (hip : ip ∈ L) (src : Source) (off n : Nat) :
    (writei ip src off n).Ends E
      (fun r s' => At base held L s' ∧
        (r = -1 ∧ s' = s ∨ ∃ tot : Nat, r = tot ∧ WroteFile ip src off n s tot s')) s := by
  have hf := h.filled hip
  simp only [writei, inode, ends_bind, ends_gets]
  split
  · rw [ends_pure]
    exact ⟨h, .inl ⟨rfl, rfl⟩⟩
  · rename_i hoff
    split
    · rw [ends_pure]
      exact ⟨h, .inl ⟨rfl, rfl⟩⟩
    · rename_i hmax
      rw [ends_bind]
      refine (writeLoop_ends hf.maps (Nat.le_refl n) (by omega)).mono fun tot s₁ hw => ?_
      simp only [setDin, setInode, iupdate, ends_bind, ends_modify, ends_pure, upd_self]
      obtain ⟨a, ha⟩ := hw.changes.table
      have hle := hw.le
      have hsmall := hf.small
      have hentry : s₁.itable ip =
          { s.itable ip with din := { (s.itable ip).din with addrs := a } } := by
        rw [ha, upd_self]
      have htype : (s.itable ip).din.type ≠ .free := h.type_ne hip
      simp only [hentry, hw.changes.dinode]
      split
      · have hdisk := hw.changes.diskOk h.good (h.logical_eq hip) (h.din_eq hip) ha
          (by omega : off + tot ≤ MAXFILE * BSIZE) (.inr ⟨rfl, by omega⟩) hw.mapped
        refine ⟨h.written
          (d := { (s.itable ip).din with addrs := a, size := off + tot }) hip
          (by simp only [ha, upd_upd]) htype rfl hdisk hw.changes.maps.fresh, .inr ⟨tot, rfl, ?_⟩⟩
        exact hw.file h hip (by omega) (by omega) ha (by omega) rfl (by simp only [ha, upd_upd]) rfl
      · have hdisk := hw.changes.diskOk h.good (h.logical_eq hip) (h.din_eq hip) ha
          hsmall (.inl rfl) hw.mapped
        refine ⟨h.written (d := { (s.itable ip).din with addrs := a }) hip
          (by simp only [ha, upd_upd]) htype rfl hdisk hw.changes.maps.fresh, .inr ⟨tot, rfl, ?_⟩⟩
        exact hw.file h hip (by omega) (by omega) ha (by omega) rfl (by simp only [ha, upd_upd]) rfl

theorem writei_ends (h : At base held L s) (hip : ip ∈ L) (src : Source) (off n : Nat) :
    (writei ip src off n).Ends E (fun _ => At base held L) s :=
  (writei_ends_file h hip src off n).mono fun _ _ h' => h'.1

/-- The disk after `itrunc`. -/
theorem Truncated.diskOk (hg : Good s) (hlog : logical s ip = s.dinode) (h : Truncated ip s s') :
    DiskOk s'.dinode s'.bitmap s'.data := by
  obtain ⟨a, -, htab⟩ := h.table
  have hold : placeAt s ip = place s.dinode s.data := by rw [placeAt, hlog]
  refine ⟨h.owns, fun i ht => ?_, fun i ht m hm => ?_⟩
  · rw [h.dinode] at ht ⊢
    by_cases hi : i = (s.itable ip).inum
    · rw [hi, upd_self, htab, upd_self]
      exact Nat.zero_le _
    · rw [upd_of_ne hi] at ht ⊢
      exact hg.disk.small i ht
  · by_cases hi : i = (s.itable ip).inum
    · rw [h.dinode, hi, upd_self, htab, upd_self] at hm
      exact absurd hm (Nat.not_lt_zero _)
    · have hinum : (filePlace i m).inum = i := by
        rw [filePlace]
        split <;> rfl
      rw [h.dinode, upd_of_ne hi] at ht hm
      rw [h.keeps _ (by rwa [hinum]), hold]
      exact hg.disk.full i ht m hm

theorem At.itrunc_ends (h : At base held L s) (hip : ip ∈ L) :
    (itrunc ip).Ends E (fun _ => At base held L) s := by
  refine (Fs.itrunc_ends (h.filled hip).maps).mono fun _ s' ht => ?_
  have hdisk := ht.diskOk h.good (h.logical_eq hip)
  obtain ⟨a, -, htab⟩ := ht.table
  refine h.written hip htab (h.type_ne hip) ?_ hdisk (by rw [ht.handed]; exact h.good.fresh)
  rw [ht.dinode, htab, upd_self]

/-! ## iput -/

/-- What `iput` does when it frees the inode, up to the reference count. -/
structure Freed (ip : InodePtr) (s s' : State) : Prop where
  handed : s'.handed = s.handed
  data : s'.data = s.data
  disk : DiskOk s'.dinode s'.bitmap s'.data
  table : ∃ d, s'.itable =
    upd s.itable ip { s.itable ip with din := d, valid := false, locked := false }
  dinode : ∃ d : Dinode, d.type = .free ∧ s'.dinode = upd s.dinode (s.itable ip).inum d
  freed : ∀ p, p.inum = (s.itable ip).inum → place s.dinode s.data p ≠ 0 →
    s'.bitmap (place s.dinode s.data p) = false

/-- The inode is truncated and its type cleared. -/
theorem ifree_ends (h : Good s) (hl : 0 < (s.itable ip).ref) (hv : (s.itable ip).valid = true)
    (hk : (s.itable ip).locked = false) : (ifree ip).Ends E (fun _ => Freed ip s) s := by
  -- `itrunc` works on the state `s₁` with the lock taken
  obtain ⟨s₁, hs₁⟩ : ∃ s₁, s₁ = s.setEntry ip { s.itable ip with locked := true } := ⟨_, rfl⟩
  have hg : Good s₁ := hs₁ ▸ h.setEntry_same hl rfl rfl rfl
  have hself : s₁.itable ip = { s.itable ip with locked := true } := by
    rw [hs₁]
    exact upd_self ..
  have hl₁ : 0 < (s₁.itable ip).ref := by rw [hself]; exact hl
  have hv₁ : (s₁.itable ip).valid = true := by rw [hself]; exact hv
  have hdin₁ : s₁.dinode = s.dinode := by rw [hs₁]; rfl
  have hdata₁ : s₁.data = s.data := by rw [hs₁]; rfl
  have hlog := hg.logical_eq hl₁ hv₁
  rw [ifree, ends_bind, acquiresleep, ends_atomic, hk, if_neg (by simp)]
  show Prog.Ends E _ _ (s.setEntry ip { s.itable ip with locked := true })
  rw [← hs₁, ends_bind]
  refine (Fs.itrunc_ends (hg.filled hl₁ hv₁).maps).mono fun _ t ht => ?_
  have hdisk := ht.diskOk hg hlog
  obtain ⟨a, ha, htab⟩ := ht.table
  have htab' : t.itable = upd s.itable ip
      { s.itable ip with
        locked := true, din := { (s.itable ip).din with addrs := a, size := 0 } } := by
    rw [htab, hself, hs₁]
    exact upd_upd ..
  have hdin : t.dinode = upd s.dinode (s.itable ip).inum
      { (s.itable ip).din with addrs := a, size := 0 } := by
    rw [ht.dinode, htab', upd_self, hself, hdin₁]
  simp only [setDin, setInode, iupdate, releasesleep, ends_bind, ends_modify, htab', hdin,
    upd_self, upd_upd]
  have hplace : place (upd s.dinode (s.itable ip).inum
      { (s.itable ip).din with type := .free, addrs := a, size := 0 }) t.data =
      place t.dinode t.data := by
    have hempty : ∀ k ≤ NDIRECT, (t.dinode (s.itable ip).inum).addrs k = 0 := by
      rw [hdin, upd_self]
      exact ha
    have hupd : place (upd t.dinode (s.itable ip).inum
        { (s.itable ip).din with type := .free, addrs := a, size := 0 }) t.data = _ :=
      place_upd_empty _ (.inr hempty) (.inl rfl)
    rw [← hupd, hdin, upd_upd]
  -- the other inodes are what they were
  have hother : ∀ i, (upd s.dinode (s.itable ip).inum
      { (s.itable ip).din with type := .free, addrs := a, size := 0 } i).type ≠ .free →
      i ≠ (s.itable ip).inum := by
    rintro i hti rfl
    exact hti (by rw [upd_self])
  have hhand : t.handed = s.handed := by
    rw [ht.handed, hs₁]
    rfl
  refine ⟨hhand, ht.data.trans hdata₁, ⟨?_, fun i hti => ?_, fun i hti m hm => ?_⟩, ⟨_, rfl⟩,
    ⟨_, rfl, rfl⟩, fun p hp hne => ?_⟩
  · rw [hplace]
    exact hdisk.owns
  · have hi := hother i hti
    simp only [upd_of_ne hi] at hti ⊢
    exact h.disk.small i hti
  · have hi := hother i hti
    rw [hplace]
    simp only [upd_of_ne hi] at hti hm
    refine hdisk.full i ?_ m ?_
    · rwa [hdin, upd_of_ne hi]
    · rwa [hdin, upd_of_ne hi]
  · have hold : placeAt s₁ ip = place s.dinode s.data := by rw [placeAt, hlog, hdin₁, hdata₁]
    have hfreed := ht.freed p (by rw [hself]; exact hp) (by rwa [hold])
    rwa [hold] at hfreed

/-- A freed inode is not in the table any more once its last reference is dropped. -/
theorem Freed.good (h : Good s) (hl : 0 < (s.itable ip).ref) (hf : Freed ip s s') (hx : x.ref = 0) :
    Good (s'.setEntry ip x) := by
  obtain ⟨d, htab⟩ := hf.table
  obtain ⟨d', -, hdin⟩ := hf.dinode
  have hother : ∀ ip', ip' ≠ ip → (s'.setEntry ip x).itable ip' = s.itable ip' := fun ip' hne => by
    show upd s'.itable ip x ip' = _
    rw [htab, upd_upd, upd_of_ne hne]
  -- slot `ip` has no references, so that live entries are other ones
  have hne : ∀ ip', 0 < ((s'.setEntry ip x).itable ip').ref → ip' ≠ ip := by
    rintro ip' hl' rfl
    rw [State.setEntry_self, hx] at hl'
    exact absurd hl' (Nat.lt_irrefl 0)
  refine ⟨hf.disk, fun ip₁ ip₂ h₁ h₂ heq => ?_, fun ip' hl' hv => ?_, fun x hx => ?_⟩
  · have hne₁ := hne ip₁ h₁
    have hne₂ := hne ip₂ h₂
    rw [hother _ hne₁] at h₁ heq
    rw [hother _ hne₂] at h₂ heq
    exact h.distinct ip₁ ip₂ h₁ h₂ heq
  · have hne' := hne ip' hl'
    rw [hother _ hne'] at hl' hv ⊢
    have hinum : (s.itable ip').inum ≠ (s.itable ip).inum := fun hc =>
      hne' (h.distinct ip' ip hl' hl hc)
    show _ = s'.dinode _ ∧ _
    rw [hdin, upd_of_ne hinum]
    exact h.clean ip' hl' hv
  · have hx' : x ∈ s'.handed := hx
    rw [hf.handed] at hx'
    exact h.fresh x hx'

/-- `iput` frees the inode of its last reference if it has no links, and drops a reference. -/
theorem iput_ends_good {Q : Unit → State → Prop} (h : Good s) (hl : 0 < (s.itable ip).ref)
    (hk : (s.itable ip).ref = 1 → (s.itable ip).locked = false)
    (hfree : ∀ s' x, (s.itable ip).ref = 1 → (s.itable ip).valid = true →
      (s.itable ip).din.nlink = 0 → Freed ip s s' → x.inum = (s.itable ip).inum → x.ref = 0 →
      x.locked = false → Q () (s'.setEntry ip x))
    (hkeep : ¬ ((s.itable ip).ref = 1 ∧ (s.itable ip).valid = true ∧ (s.itable ip).din.nlink = 0) →
      Q () (s.setEntry ip { s.itable ip with ref := (s.itable ip).ref - 1 })) :
    (iput ip).Ends E Q s := by
  rw [iput, inode, ends_bind, ends_gets]
  split
  · rename_i hc
    rw [ends_bind]
    refine (ifree_ends h hl hc.2.1 (hk hc.1)).mono fun _ s₁ hs₁ => ?_
    obtain ⟨d, htab⟩ := hs₁.table
    simp only [setInode, ends_modify]
    refine hfree s₁ _ hc.1 hc.2.1 hc.2.2 hs₁ ?_ ?_ ?_
    · show (s₁.itable ip).inum = _
      rw [htab, upd_self]
    · show (s₁.itable ip).ref - 1 = 0
      rw [htab, upd_self]
      simp [hc.1]
    · show (s₁.itable ip).locked = false
      rw [htab, upd_self]
  · rename_i hc
    simp only [setInode, ends_modify]
    exact hkeep hc

/-- A reference less, in a table where the inode has been freed or not. -/
theorem At.dropRef (h : At base (ip ::ₘ held) L s) (hL : ip ∈ L → 0 < base ip ∨ ip ∈ held)
    (hg : Good s') (hother : ∀ ip', ip' ≠ ip → s'.itable ip' = s.itable ip')
    (hself : s'.itable ip = x) (hr : x.ref = (s.itable ip).ref - 1)
    (hk : x.locked = (s.itable ip).locked) (hv : ip ∈ L → x.valid = (s.itable ip).valid) :
    At base held L s' := by
  refine ⟨hg, fun ip' => ?_, fun ip' => ?_, fun ip' hin => ?_, fun ip' hin => ?_⟩
  · have hrefs := h.refs ip'
    rw [Multiset.count_cons] at hrefs
    by_cases heq : ip' = ip
    · rw [if_pos heq] at hrefs
      rw [heq] at hrefs ⊢
      rw [hself, hr]
      omega
    · rw [if_neg heq] at hrefs
      rw [hother ip' heq, hrefs]
      omega
  · by_cases heq : ip' = ip
    · rw [heq, hself, hk]
      exact h.locks ip
    · rw [hother ip' heq]
      exact h.locks ip'
  · by_cases heq : ip' = ip
    · rw [heq] at hin ⊢
      rw [hself, hv hin]
      exact h.valid ip hin
    · rw [hother ip' heq]
      exact h.valid ip' hin
  · by_cases heq : ip' = ip
    · rw [heq] at hin ⊢
      exact hL hin
    · exact (h.live ip' hin).imp_right fun hm => (Multiset.mem_cons.mp hm).resolve_left heq

/-- The inode that `iput` of an entry frees, if it frees one. -/
def Inode.freed (x : Inode) : Finset Nat :=
  if x.ref = 1 ∧ x.valid = true ∧ x.din.nlink = 0 then {x.inum} else ∅

section

variable (h : At base (ip ::ₘ held) L s)
include h

theorem iput_frees (hL : ip ∈ L → 0 < base ip ∨ ip ∈ held) :
    (iput ip).Ends E (fun _ s' => At base held L s' ∧ Frees (s.itable ip).freed s s') s := by
  have hl : 0 < (s.itable ip).ref := h.ref_pos (.inr (Multiset.mem_cons_self ..))
  -- the last reference is not one to a locked inode
  have hlast : (s.itable ip).ref = 1 → ip ∉ L := by
    intro h1 hin
    have hrefs := h.refs ip
    rw [Multiset.count_cons_self] at hrefs
    rcases hL hin with hb | hm
    · omega
    · have := Multiset.count_pos.mpr hm
      omega
  have hunlocked : (s.itable ip).ref = 1 → (s.itable ip).locked = false := fun h1 =>
    Bool.eq_false_iff.mpr fun hk => hlast h1 ((h.locks ip).mp hk)
  refine iput_ends_good h.good hl hunlocked (fun s' x h1 hv hn hf hi hx hk => ?_) fun hc => ?_
  · obtain ⟨d, htab⟩ := hf.table
    obtain ⟨d', ht, hdin⟩ := hf.dinode
    have hother : ∀ ip', ip' ≠ ip → (s'.setEntry ip x).itable ip' = s.itable ip' :=
      fun ip' hne => by
        show upd s'.itable ip x ip' = _
        rw [htab, upd_upd, upd_of_ne hne]
    refine ⟨h.dropRef hL (hf.good h.good hl hx) hother (State.setEntry_self ..) (by omega)
      (by rw [hk, hunlocked h1]) fun hin => absurd hin (hlast h1), ?_⟩
    rw [Inode.freed, if_pos ⟨h1, hv, hn⟩]
    refine ⟨hf.data, fun i hF => ?_, fun i hF => ?_, fun ip' _ => ?_⟩
    · exact (congrFun hdin i).trans (upd_of_ne (by simpa using hF) _)
    · rw [Finset.mem_singleton.mp hF]
      show (s'.dinode _).type = _
      rw [hdin, upd_self, ht]
    · by_cases heq : ip' = ip
      · rw [heq, State.setEntry_self, hi]
      · rw [hother ip' heq]
  · rw [Inode.freed, if_neg hc]
    refine ⟨h.dropRef hL (h.good.setEntry_same hl rfl rfl rfl) (fun ip' hne => upd_of_ne hne _)
      (State.setEntry_self ..) rfl rfl fun _ => rfl, frees_setEntry fun _ => rfl⟩

theorem iput_ends (hL : ip ∈ L → 0 < base ip ∨ ip ∈ held) :
    (iput ip).Ends E (fun _ => At base held L) s :=
  (iput_frees h hL).mono fun _ _ hs' => hs'.1

theorem iunlockput_frees (hip : ip ∈ L) :
    (iunlockput ip).Ends E
      (fun _ s' => At base held (L.erase ip) s' ∧ Frees (s.itable ip).freed s s') s := by
  rw [iunlockput, ends_bind]
  refine (iunlock_releases h hip).mono fun _ s₁ ⟨hs₁, hset⟩ => ?_
  have hself : s₁.itable ip = { s.itable ip with locked := false } := by
    rw [hset, State.setEntry_self]
  refine (iput_frees hs₁ fun hin => absurd hin (by simp)).mono fun _ s' ⟨hs', hf⟩ => ⟨hs', ?_⟩
  have hunlocked : Frees ∅ s s₁ := hset ▸ frees_setEntry fun _ => rfl
  have htrans := hunlocked.trans hf fun ip' hl => by rwa [hs₁.refs, ← h.refs]
  rwa [hself, Finset.empty_union] at htrans

theorem iunlockput_ends (hip : ip ∈ L) :
    (iunlockput ip).Ends E (fun _ => At base held (L.erase ip)) s :=
  (iunlockput_frees h hip).mono fun _ _ hs' => hs'.1

end

/-! ## ialloc -/

/-- A free inode becomes allocated on disk. -/
theorem Good.allocInode (h : Good s) {inum : Nat} (hfree : (s.dinode inum).type = .free)
    (type : InodeType) :
    Good { s with dinode := upd s.dinode inum { Dinode.zero with type := type } } := by
  refine ⟨h.disk.allocInode hfree type, h.distinct, fun ip hl hv => ?_, h.fresh⟩
  -- no valid entry is a copy of a free inode
  obtain ⟨hdin, ht⟩ := h.clean ip hl hv
  have hne : (s.itable ip).inum ≠ inum := fun hc => ht (by rw [hdin, hc, hfree])
  show _ = upd s.dinode inum _ _ ∧ _
  rw [upd_of_ne hne]
  exact ⟨hdin, ht⟩

theorem ialloc_ends (h : At base held L s) (hE : E (.panic "iget: no inodes")) (type : InodeType) :
    (ialloc type).Ends E
      (fun r s' => match r with
        | some ip => At base (ip ::ₘ held) L s'
        | none => At base held L s') s := by
  rw [ialloc, ends_bind]
  refine Prog.Ends.mono (Prog.ends_findUp (J := fun _ => At base held L)
    (Q := fun _ => At base held L) (fun inum s _ _ hs => ?_) h) fun r s' hs' => ?_
  · rw [ends_atomic]
    split
    · rename_i hfree
      exact ⟨hs.good.allocInode hfree type, hs.refs, hs.locks, hs.valid, hs.live⟩
    · exact hs
  · cases r with
    | none => exact ends_pure.mpr hs'
    | some inum =>
      simp only [ends_bind, ends_pure]
      exact iget_ends hs' hE inum

end Xv6.Fs
