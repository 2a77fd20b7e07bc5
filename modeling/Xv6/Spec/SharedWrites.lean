import Mathlib.Algebra.Order.BigOperators.Group.Finset
import Xv6.Spec.BlockOwnership

/-!
# Writers of one open file

`N` processes call `filewrite` on the same `struct file`. Each piece is written and counted in `f->off`
under the lock of the inode, so the pieces stand in the file one behind the other in the order in
which the lock was taken.

The proof keeps a log of the pieces. A process outside of the lock owns the pieces it has written;
a process that holds the lock owns the whole state (`valid_of_wp`), so that the specifications of
`ilock`, `writei` and `iunlock` for a process that runs alone apply. `Holds` ties the log to the disk
and to `f->off`. A piece that is cut short by an error is logged as well, and the log is no longer
`clean`.

## Key results

* `filewrite_valid`: a call of `filewrite` keeps to the protocol.
* `shared_writes`: what the file holds when all calls have returned without an error.
-/

namespace Xv6.Fs

open Prog (only_atomic only_bind only_pure valid_bind valid_gets wp_imp wp_zoom)

variable {N : Nat}

/-! ## What a locked section leaves alone -/

/-- The locks of the inodes stay as they are. -/
def SameLocks (s s' : State) : Prop := ∀ ip, (s'.itable ip).locked = (s.itable ip).locked

/-- The disk and the inode numbers stay as they are. -/
def SameFiles (s s' : State) : Prop :=
  s'.dinode = s.dinode ∧ s'.data = s.data ∧ ∀ ip, (s'.itable ip).inum = (s.itable ip).inum

theorem SameFiles.trans {s s' s'' : State} (h : SameFiles s s') (h' : SameFiles s' s'') :
    SameFiles s s'' :=
  ⟨h'.1.trans h.1, h'.2.1.trans h.2.1, fun ip => (h'.2.2 ip).trans (h.2.2 ip)⟩

/-- A change of a slot of the inode table that keeps its inode number. -/
theorem sameFiles_setEntry (s : State) {ip : InodePtr} {x : Inode} (hx : x.inum = (s.itable ip).inum) :
    SameFiles s (s.setEntry ip x) :=
  ⟨rfl, rfl, fun ip' => apply_upd (F := Inode.inum) hx ip'⟩

/-- Reasons to stop do not matter here. -/
def AnyStop (_ : Stop) : Prop := True

section Only

variable {T : State → State → Prop}

theorem only_gets {R : Type} (hT : ∀ s, T s s) (g : State → R) :
    (Prog.gets g : FsM R).Only T AnyStop :=
  only_atomic fun s => hT s

theorem only_setInode {ip : InodePtr} {g : Inode → Inode} (hg : ∀ x, (g x).locked = x.locked) :
    (setInode ip g).Only SameLocks AnyStop :=
  only_atomic fun s ip' => apply_upd (F := Inode.locked) (hg (s.itable ip)) ip'

theorem only_setDin (ip : InodePtr) (g : Dinode → Dinode) :
    (setDin ip g).Only SameLocks AnyStop :=
  only_setInode fun _ => rfl

theorem only_table {R : Type} {g : State → State} (hg : ∀ s, (g s).itable = s.itable) (r : R) :
    (Prog.atomic fun s => .ok r (g s) : FsM R).Only SameLocks AnyStop :=
  only_atomic fun s ip => by
    show ((g s).itable ip).locked = _
    rw [hg s]

theorem sameLocks_refl (s : State) : SameLocks s s := fun _ => rfl

theorem only_balloc : balloc.Only SameLocks AnyStop := by
  refine only_bind (only_atomic fun s => ?_) fun found => ?_
  · cases firstFree s.bitmap 0 FSSIZE with
    | some b | none => exact fun _ => rfl
  · cases found with
    | some b => exact only_bind (only_table (fun _ => rfl) ()) fun _ => only_pure _
    | none => exact only_pure _

theorem only_addrBlock (ip : InodePtr) (k : Nat) : (addrBlock ip k).Only SameLocks AnyStop := by
  refine only_bind (only_gets sameLocks_refl _) fun x => ?_
  split
  · refine only_bind only_balloc fun b => ?_
    split
    · exact only_pure _
    · exact only_bind (only_setDin ip _) fun _ => only_pure _
  · exact only_pure _

theorem only_entryBlock (addr j : Nat) : (entryBlock addr j).Only SameLocks AnyStop := by
  refine only_bind (only_gets sameLocks_refl _) fun a => ?_
  split
  · refine only_bind only_balloc fun b => ?_
    split
    · exact only_bind (only_table (fun _ => rfl) ()) fun _ => only_pure _
    · exact only_pure _
  · exact only_pure _

theorem only_bmap (ip : InodePtr) (bn : Nat) : (bmap ip bn).Only SameLocks AnyStop := by
  rw [bmap]
  split
  · exact only_addrBlock ip bn
  split
  · refine only_bind (only_addrBlock ip _) fun addr => ?_
    split
    · exact only_pure _
    · exact only_entryBlock _ _
  · exact only_atomic fun _ => trivial

theorem only_writeLoop (ip : InodePtr) (src : Source) (fuel off pos n : Nat) :
    (writeLoop ip src fuel off pos n).Only SameLocks AnyStop := by
  induction fuel generalizing off pos n with
  | zero => exact only_pure _
  | succ fuel ih =>
    rw [writeLoop]
    split
    · exact only_pure _
    · refine only_bind (only_bmap ip _) fun addr => ?_
      split
      · exact only_pure _
      · refine only_bind (only_table (fun _ => rfl) ()) fun _ => ?_
        split
        · exact only_bind (ih _ _ _) fun _ => only_pure _
        · exact only_pure _

theorem only_writei (ip : InodePtr) (src : Source) (off n : Nat) :
    (writei ip src off n).Only SameLocks AnyStop := by
  refine only_bind (only_gets sameLocks_refl _) fun x => ?_
  split
  · exact only_pure _
  split
  · exact only_pure _
  · refine only_bind (only_writeLoop _ _ _ _ _ _) fun tot => ?_
    refine only_bind (only_setDin ip _) fun _ => ?_
    exact only_bind (only_table (fun _ => rfl) ()) fun _ => only_pure _

theorem only_ilockRest (ip : InodePtr) :
    (ilockRest ip).Only (fun s s' => SameFiles s s' ∧ SameLocks s s') AnyStop := by
  have hrefl : ∀ s, SameFiles s s ∧ SameLocks s s :=
    fun s => ⟨⟨rfl, rfl, fun _ => rfl⟩, fun _ => rfl⟩
  refine only_bind (only_gets hrefl _) fun x => ?_
  split
  · refine only_bind (only_atomic fun s => ?_) fun _ => ?_
    · exact ⟨sameFiles_setEntry s rfl, fun ip' => apply_upd (F := Inode.locked) (by rfl) ip'⟩
    · refine only_bind (only_gets hrefl _) fun x => ?_
      split
      · exact only_atomic fun _ => trivial
      · exact only_pure _
  · exact only_pure _

end Only

/-! ## The pieces -/

/-- Piece `j` of the `n` bytes in `mem`: what round `j` of the loop of `filewrite` writes. -/
def piece (mem : Nat → UInt8) (n j : Nat) : List UInt8 :=
  (List.range (min (n - writeMax * j) writeMax)).map fun k => mem (writeMax * j + k)

/-- The pieces of a call of `filewrite`, in their order. -/
def pieces (mem : Nat → UInt8) (n : Nat) : List (List UInt8) :=
  (List.range ((n + writeMax - 1) / writeMax)).map (piece mem n)

/-- Pieces with their writers, in the order in which they were written. -/
abbrev Writes (N : Nat) := List (Fin N × List UInt8)

/-- The bytes of all pieces. -/
def Writes.content (l : Writes N) : List UInt8 := l.flatMap Prod.snd

/-- The pieces of one writer. -/
def Writes.of (l : Writes N) (p : Fin N) : List (List UInt8) :=
  (l.filter fun x => x.1 = p).map Prod.snd

/-! ## What the file holds -/

/-- The number of the inode behind an open file. -/
def Sys.target (s : Sys) (f : FilePtr) : Nat := (s.fs.itable (s.ftable f).ip).inum

/-- The file behind `f` when the bytes `bs` have been written from `s₀` on. -/
structure Holds (s₀ : Sys) (f : FilePtr) (bs : List UInt8) (s : Sys) : Prop where
  inum : (s.fs.itable (s₀.ftable f).ip).inum = s₀.target f
  off : (s.ftable f).off = (s₀.ftable f).off + bs.length
  size : (s.fs.dinode (s₀.target f)).size =
    if bs = [] then (s₀.fs.dinode (s₀.target f)).size
    else max (s₀.fs.dinode (s₀.target f)).size ((s₀.ftable f).off + bs.length)
  inside : fileBytes s.fs (s₀.target f) (s₀.ftable f).off bs.length = bs
  outside : ∀ x < (s₀.fs.dinode (s₀.target f)).size,
    x < (s₀.ftable f).off ∨ (s₀.ftable f).off + bs.length ≤ x →
    fileByte s.fs (s₀.target f) x = fileByte s₀.fs (s₀.target f) x

variable {mem : Nat → UInt8} {n : Nat}

section Holds

variable {s₀ s s' : Sys} {f : FilePtr} {bs : List UInt8}

theorem holds_start (s₀ : Sys) (f : FilePtr) : Holds s₀ f [] s₀ :=
  ⟨rfl, rfl, rfl, rfl, fun _ _ _ => rfl⟩

/-- Locks and copies of inodes do not matter. -/
theorem Holds.congr (h : Holds s₀ f bs s) (hfs : SameFiles s.fs s'.fs)
    (hoff : (s'.ftable f).off = (s.ftable f).off) : Holds s₀ f bs s' := by
  obtain ⟨hdinode, hdata, hinum⟩ := hfs
  have hbyte : ∀ i x, fileByte s'.fs i x = fileByte s.fs i x := fun i x => by
    rw [fileByte, fileByte, hdinode, hdata]
  refine ⟨(hinum _).trans h.inum, hoff.trans h.off, ?_, ?_, fun x hx hout => ?_⟩
  · rw [hdinode]
    exact h.size
  · rw [← h.inside]
    simp only [fileBytes, hbyte, List.length_map, List.length_range]
  · rw [hbyte]
    exact h.outside x hx hout

theorem fileBytes_append (t : State) (i off m n : Nat) :
    fileBytes t i off (m + n) = fileBytes t i off m ++ fileBytes t i (off + m) n := by
  simp only [fileBytes, List.range_add, List.map_append, List.map_map, Function.comp_def,
    Nat.add_assoc]

/-- A complete piece is put behind the bytes that are there. -/
theorem Holds.append (h : Holds s₀ f bs s) {src : Source} (hn : 0 < n)
    (hsrc : ∀ pos m, src.ok pos m = true →
      src.bytes pos m = (List.range m).map fun k => mem (pos + k))
    (hw : WroteFile (s₀.ftable f).ip src (s.ftable f).off n s.fs n s'.fs)
    (hoff : (s'.ftable f).off = ((s.ftable f).off + n) % 2 ^ 32) :
    Holds s₀ f (bs ++ (List.range n).map mem) s' := by
  have hlen : (bs ++ (List.range n).map mem).length = bs.length + n := by simp
  have hne : bs ++ (List.range n).map mem ≠ [] := fun hnil => by
    rw [hnil, List.length_nil] at hlen
    omega
  have hsize := hw.size
  have hstart := hw.start
  have hfits := hw.fits
  have hin := hw.inside mem hsrc
  have hout := hw.outside
  rw [h.inum, h.off] at hsize hin hout
  rw [h.inum, h.off] at hstart
  rw [h.off] at hfits hoff
  have hold := h.size
  refine ⟨?_, ?_, ?_, ?_, fun x hx hx' => ?_⟩
  · obtain ⟨d, hd⟩ := hw.table
    rw [hd, ← h.inum]
    exact apply_upd (F := Inode.inum) (by rfl) _
  · have hmax : MAXFILE * BSIZE < 2 ^ 32 := by decide
    rw [hoff, hlen, Nat.mod_eq_of_lt (by omega)]
    omega
  · rw [if_neg hne, hlen, hsize, hold]
    split
    · rename_i hnil
      rw [hnil, List.length_nil]
      simp only [Nat.zero_add, Nat.add_zero]
    · omega
  · -- the old bytes lie below the piece
    rw [hlen, fileBytes_append]
    congr 1
    · rw [← h.inside]
      simp only [fileBytes, List.length_map, List.length_range]
      refine List.map_congr_left fun k hk => ?_
      rw [List.mem_range] at hk
      refine hout _ ?_ (.inl (by omega))
      omega
    · refine List.map_congr_left fun k hk => ?_
      rw [List.mem_range] at hk
      exact hin k hk
  · rw [hlen] at hx'
    have hsmaller : x < (s.fs.dinode (s₀.target f)).size := by
      rw [hold]
      split <;> omega
    rw [hout x hsmaller (by omega), h.outside x hx (by omega)]

end Holds

/-! ## The protocol -/

/-- The pieces so far, and whether no error has cut one short. -/
structure Journal (N : Nat) where
  writes : Writes N
  clean : Bool

/-- What a writer owns: the pieces it has written, whether there was an error, and, while it
    holds the lock of the inode, the whole state and the journal. -/
structure Share (N : Nat) where
  wrote : List (List UInt8)
  failed : Bool
  inside : Option (Sys × Journal N)

/-- The writer takes the lock. -/
def Share.enter (g : Share N) (j : Journal N) (s : Sys) : Share N := { g with inside := some (s, j) }

section Sharing

variable (s₀ : Sys) (f : FilePtr)

/-- What a writer sees of the state at any time: the file table is the one of `s₀` up to the
    offset. -/
def Seen (s : Sys) : Prop := ∃ off, s.ftable = upd s₀.ftable f { s₀.ftable f with off := off }

/-- A state in which the inode is locked. -/
def Busy (s : Sys) : Prop := Seen s₀ f s ∧ (s.fs.itable (s₀.ftable f).ip).locked = true

/-- A state in which the inodes in `L` are locked and the file holds what is in the journal. -/
structure Agrees (L : Finset InodePtr) (j : Journal N) (s : Sys) : Prop where
  ok : SysAt (fileRefs s₀.proc) (cwdRefs s₀.proc) 0 L s
  holds : j.clean = true → Holds s₀ f j.writes.content s

/-- What the writers keep to. -/
def sharing (N : Nat) : Protocol Sys (Share N) N where
  inv s c := ∃ j : Journal N, Seen s₀ f s ∧ (∀ q, j.writes.of q = (c q).wrote) ∧
    ((∀ q, (c q).failed = false) → j.clean = true) ∧
    ((∀ q, (c q).inside = none) ∧ Agrees s₀ f ∅ j s ∨
      ∃ p, (c p).inside = some (s, j) ∧ (∀ q, q ≠ p → (c q).inside = none) ∧ Busy s₀ f s)
  guard _ _ := True
  safe _ _ _ _ := True

variable {s₀ f} {s t : Sys} {j : Journal N} {c : Fin N → Share N} {p : Fin N} {g : Share N}

/-- What the writer that holds the lock knows. -/
theorem sharing_inside (h : (sharing s₀ f N).inv s c) (hp : (c p).inside = some (t, j)) :
    s = t ∧ Busy s₀ f s ∧ (∀ q, j.writes.of q = (c q).wrote) ∧
      ((∀ q, (c q).failed = false) → j.clean = true) ∧ ∀ q, q ≠ p → (c q).inside = none := by
  obtain ⟨j', -, hof, hclean, ⟨hnone, -⟩ | ⟨p', hp', hother, hbusy⟩⟩ := h
  · rw [hnone p] at hp
    cases hp
  · by_cases hpp : p = p'
    · subst hpp
      rw [hp'] at hp
      cases hp
      exact ⟨rfl, hbusy, hof, hclean, hother⟩
    · rw [hother p hpp] at hp
      cases hp

/-- While the lock is free, nobody is inside. -/
theorem sharing_free (h : (sharing s₀ f N).inv s c)
    (hk : (s.fs.itable (s₀.ftable f).ip).locked = false) :
    ∃ j : Journal N, Seen s₀ f s ∧ (∀ q, j.writes.of q = (c q).wrote) ∧
      ((∀ q, (c q).failed = false) → j.clean = true) ∧ (∀ q, (c q).inside = none) ∧
      Agrees s₀ f ∅ j s := by
  obtain ⟨j, hseen, hof, hclean, ⟨hnone, hagrees⟩ | ⟨p', -, -, hbusy⟩⟩ := h
  · exact ⟨j, hseen, hof, hclean, hnone, hagrees⟩
  · rw [hbusy.2] at hk
    cases hk

/-- A part of the locked section, as a program that runs alone. -/
theorem valid_inside {R : Type} {m : SysM R} {Q : R → Sys → Prop} (h : m.wp (Busy s₀ f) AnyStop Q s) :
    m.Valid (sharing s₀ f N) p (fun r g' => ∃ s', Q r s' ∧ g' = g.enter j s') (g.enter j s) := by
  refine Prog.valid_of_wp (fun s c t hg hi => ?_) (fun s c s' hg hi hbusy => ?_)
    (fun _ _ _ _ _ _ => trivial) h
  · exact (sharing_inside hi (by rw [hg]; rfl)).1
  · obtain ⟨-, -, hof, hclean, hother⟩ := sharing_inside hi (p := p) (t := s) (j := j) (by rw [hg]; rfl)
    have hwrote : ∀ q, (upd c p (g.enter j s') q).wrote = (c q).wrote :=
      apply_upd (F := Share.wrote) (by rw [hg]; rfl)
    have hfailed : ∀ q, (upd c p (g.enter j s') q).failed = (c q).failed :=
      apply_upd (F := Share.failed) (by rw [hg]; rfl)
    refine ⟨j, hbusy.1, fun q => (hof q).trans (hwrote q).symm, fun hq => hclean fun q => ?_,
      .inr ⟨p, by rw [upd_self]; rfl, fun q hq => ?_, hbusy⟩⟩
    · rw [← hfailed q]
      exact hq q
    · rw [upd_of_ne hq]
      exact hother q hq

/-- The inode of an open file is referenced. -/
theorem Agrees.ref_pos {L : Finset InodePtr} (h : Agrees s₀ f L j s) (hseen : Seen s₀ f s)
    (hf : (s₀.ftable f).type ≠ .none) : 0 < (s.fs.itable (s₀.ftable f).ip).ref := by
  obtain ⟨off, htab⟩ := hseen
  have hrefers : (s.ftable f).refersTo (s₀.ftable f).ip = 1 := by
    rw [htab, upd_self, File.refersTo, if_pos ⟨hf, rfl⟩]
  have hle : (s.ftable f).refersTo (s₀.ftable f).ip ≤ openRefs s.ftable (s₀.ftable f).ip :=
    Finset.single_le_sum (f := fun f' => (s.ftable f').refersTo (s₀.ftable f).ip)
      (fun _ _ => Nat.zero_le _) (Finset.mem_univ f)
  exact h.ok.fs.ref_pos (.inl (by omega))

/-- `ilock` behind `acquiresleep`. -/
theorem ilockRest_wp (hseen : Seen s₀ f s) (h : Agrees s₀ f ∅ j s) (hf : (s₀.ftable f).type ≠ .none) :
    (monadLift (ilockRest (s₀.ftable f).ip) : SysM Unit).wp (Busy s₀ f) AnyStop
      (fun _ s' => Agrees s₀ f {(s₀.ftable f).ip} j s' ∧ Busy s₀ f s')
      { s with
        fs := s.fs.setEntry (s₀.ftable f).ip
          { s.fs.itable (s₀.ftable f).ip with locked := true } } := by
  have hends := ilockRest_ends (E := AnyStop) h.ok.fs ⟨trivial, trivial, trivial⟩
    (h.ref_pos hseen hf)
  refine wp_zoom.mpr ?_
  have hlock : ((s.fs.setEntry (s₀.ftable f).ip
      { s.fs.itable (s₀.ftable f).ip with locked := true }).itable (s₀.ftable f).ip).locked = true := by
    rw [State.setEntry_self]
  -- what the actions keep: the disk, the inode numbers and the lock
  have hwp := hends.wp_of_only
    (I := fun fs => SameFiles s.fs fs ∧ (fs.itable (s₀.ftable f).ip).locked = true)
    (only_ilockRest _) ⟨sameFiles_setEntry s.fs rfl, hlock⟩
    fun fs fs' hfs hT => ⟨hfs.1.trans hT.1, (hT.2 _).trans hfs.2⟩
  refine wp_imp (fun fs hfs => ⟨hseen, hfs.2⟩) (fun _ fs hfs hat => ?_) hwp
  exact ⟨⟨h.ok.withFs hat, fun hc => (h.holds hc).congr hfs.1 rfl⟩, hseen, hfs.2⟩

theorem ilock_valid (hf : (s₀.ftable f).type ≠ .none) :
    (monadLift (ilock (s₀.ftable f).ip) : SysM Unit).Valid (sharing s₀ f N) p
      (fun _ g' => ∃ j s, g' = g.enter j s ∧ Agrees s₀ f {(s₀.ftable f).ip} j s ∧ Busy s₀ f s) g := by
  show (Prog.zoom fsPart (ilock _)).Valid _ _ _ _
  rw [ilock, Prog.zoom_bind]
  refine valid_bind (valid_gets (fun _ _ _ _ => trivial) fun s c _ _ => ?_)
  dsimp only
  split
  · exact fun s c _ _ => ⟨trivial, fun b s' hb => by cases hb⟩
  · rw [Prog.zoom_bind]
    refine valid_bind (Prog.valid_atomic (fun _ _ _ _ => trivial) fun s c b s' hc hi hb _ => ?_)
    by_cases hk : (s.fs.itable (s₀.ftable f).ip).locked = true
    · simp [fsPart, hk] at hb
    · simp only [fsPart, hk, Bool.false_eq_true, if_false, Outcome.ok.injEq] at hb
      obtain ⟨-, rfl⟩ := hb
      obtain ⟨j, hseen, hof, hclean, hnone, hagrees⟩ := sharing_free hi (by simpa using hk)
      have hwp := ilockRest_wp hseen hagrees hf
      refine ⟨g.enter j _, ⟨j, hseen, fun q => ?_, fun hq => hclean fun q => ?_, .inr ⟨p, ?_⟩⟩,
        (valid_inside hwp).mono fun _ g' hg' => ⟨j, hg'.choose, hg'.choose_spec.symm⟩⟩
      · rw [hof q]
        exact (apply_upd (F := Share.wrote) (by rw [hc]; rfl) q).symm
      · rw [← hq q]
        exact (apply_upd (F := Share.failed) (by rw [hc]; rfl) q).symm
      · refine ⟨by rw [upd_self]; rfl, fun q hq => ?_, Prog.wp_inv hwp⟩
        rw [upd_of_ne hq]
        exact hnone q

/-- `writei` of a piece. -/
theorem writei_wp (h : Agrees s₀ f {(s₀.ftable f).ip} j s) (hbusy : Busy s₀ f s) (src : Source)
    (off n : Nat) :
    (monadLift (writei (s₀.ftable f).ip src off n) : SysM Int).wp (Busy s₀ f) AnyStop
      (fun r s' => s'.ftable = s.ftable ∧ Busy s₀ f s' ∧
        SysAt (fileRefs s₀.proc) (cwdRefs s₀.proc) 0 {(s₀.ftable f).ip} s' ∧
        (r = n → WroteFile (s₀.ftable f).ip src off n s.fs n s'.fs)) s := by
  have hends := writei_ends_file (E := AnyStop) h.ok.fs (Finset.mem_singleton_self _) src off n
  have hwp := hends.wp_of_only (I := fun fs => (fs.itable (s₀.ftable f).ip).locked = true)
    (only_writei _ src off n) hbusy.2 fun fs fs' hfs hT => (hT _).trans hfs
  refine wp_zoom.mpr ?_
  refine wp_imp (fun fs hfs => ⟨hbusy.1, hfs⟩) (fun r fs hfs ⟨hat, hr⟩ => ?_) hwp
  refine ⟨rfl, ⟨hbusy.1, hfs⟩, h.ok.withFs hat, fun hrn => ?_⟩
  obtain ⟨hneg, -⟩ | ⟨tot, htot, hw⟩ := hr
  · omega
  · obtain rfl : tot = n := by omega
    exact hw

/-- The journal after a round of writer `p`, with `none` for an error. -/
def Journal.add (j : Journal N) (p : Fin N) : Option (List UInt8) → Journal N
  | some bs => ⟨j.writes ++ [(p, bs)], j.clean⟩
  | none => ⟨j.writes, false⟩

/-- What the writer owns after the round. -/
def Share.leave (g : Share N) : Option (List UInt8) → Share N
  | some bs => ⟨g.wrote ++ [bs], g.failed, none⟩
  | none => ⟨g.wrote, true, none⟩

theorem Writes.of_append (l l' : Writes N) (q : Fin N) :
    Writes.of (l ++ l') q = l.of q ++ Writes.of l' q := by
  simp only [Writes.of, List.filter_append, List.map_append]

theorem Journal.of_add (hof : ∀ q, j.writes.of q = (c q).wrote) (hp : (c p).wrote = g.wrote)
    (r : Option (List UInt8)) (q : Fin N) :
    (j.add p r).writes.of q = (upd c p (g.leave r) q).wrote := by
  by_cases hq : q = p
  · subst hq
    rw [upd_self]
    cases r with
    | none => exact (hof q).trans hp
    | some bs =>
      have hlast : Writes.of [(q, bs)] q = [bs] := by simp [Writes.of]
      show Writes.of (j.writes ++ _) q = g.wrote ++ [bs]
      rw [Writes.of_append, hof q, hp, hlast]
  · rw [upd_of_ne hq, ← hof q]
    cases r with
    | none => rfl
    | some bs =>
      have hlast : Writes.of [(p, bs)] q = [] := by simp [Writes.of, Ne.symm hq]
      show Writes.of (j.writes ++ _) q = _
      rw [Writes.of_append, hlast, List.append_nil]

theorem Journal.clean_add (hclean : (∀ q, (c q).failed = false) → j.clean = true)
    (hp : (c p).failed = g.failed) {r : Option (List UInt8)}
    (hall : ∀ q, (upd c p (g.leave r) q).failed = false) : (j.add p r).clean = true := by
  have hself := hall p
  rw [upd_self] at hself
  cases r with
  | none => cases hself
  | some bs =>
    refine hclean fun q => ?_
    rw [← hall q]
    exact (apply_upd (F := Share.failed) (show (g.leave (some bs)).failed = _ from hp.symm) q).symm

/-- `iunlock` at the end of a round. -/
theorem iunlock_valid {r : Option (List UInt8)} (h : Agrees s₀ f {(s₀.ftable f).ip} (j.add p r) s) :
    (monadLift (iunlock (s₀.ftable f).ip) : SysM Unit).Valid (sharing s₀ f N) p
      (fun _ g' => g' = g.leave r) (g.enter j s) := by
  show (Prog.zoom fsPart (iunlock _)).Valid _ _ _ _
  rw [iunlock, Prog.zoom_bind]
  refine valid_bind (valid_gets (fun _ _ _ _ => trivial) fun _ _ _ _ => ?_)
  dsimp only
  split
  · exact fun s c _ _ => ⟨trivial, fun b s' hb => by cases hb⟩
  · refine Prog.valid_atomic (fun _ _ _ _ => trivial) fun t c b s' hc hi hb _ => ?_
    cases hb
    obtain ⟨rfl, hbusy, hof, hclean, hother⟩ := sharing_inside hi (by rw [hc]; rfl)
    have hrelease := h.ok.fs.release (Finset.mem_singleton_self _)
    rw [Finset.erase_singleton] at hrelease
    refine ⟨g.leave r, ⟨j.add p r, hbusy.1, Journal.of_add hof (by rw [hc]; rfl) r,
      Journal.clean_add hclean (by rw [hc]; rfl), .inl ⟨fun q => ?_, h.ok.withFs hrelease, fun hcl => ?_⟩⟩, rfl⟩
    · by_cases hq : q = p
      · subst hq
        rw [upd_self]
        cases r <;> rfl
      · rw [upd_of_ne hq]
        exact hother q hq
    · exact (h.holds hcl).congr (sameFiles_setEntry t.fs rfl) rfl

/-! ## filewrite -/

/-- A read of the file table shows the file of `s₀` with some offset. -/
theorem ftable_valid (p : Fin N) (g : Share N) :
    (Prog.gets fun s : Sys => s.ftable f).Valid (sharing s₀ f N) p
      (fun x g' => g' = g ∧ ∃ off, x = { s₀.ftable f with off := off }) g := by
  refine valid_gets (fun _ _ _ _ => trivial) fun s c _ hi => ⟨rfl, ?_⟩
  obtain ⟨j, ⟨off, hoff⟩, -⟩ := hi
  exact ⟨off, by rw [hoff, upd_self]⟩

variable {i : Nat}

/-- The piece that the loop of `filewrite` writes after `k` rounds. -/
theorem piece_eq {k : Nat} (hi : i = writeMax * k) :
    piece mem n k = (List.range (min (n - i) writeMax)).map fun m => mem (i + m) := by
  rw [hi, piece]

/-- The state after a complete piece. -/
theorem Agrees.written {w : Writer} (h : Agrees s₀ f {(s₀.ftable f).ip} j s) (hn : 0 < n)
    (hok : SysAt (fileRefs s₀.proc) (cwdRefs s₀.proc) 0 {(s₀.ftable f).ip} t)
    (htab : t.ftable = s.ftable)
    (hw : WroteFile (s₀.ftable f).ip (w.src.drop i) (s.ftable f).off n s.fs n t.fs) :
    Agrees s₀ f {(s₀.ftable f).ip}
      (j.add p (some ((List.range n).map fun m => w.mem (i + m))))
      { t with
        ftable := upd t.ftable f
          { t.ftable f with off := ((t.ftable f).off + n) % 2 ^ 32 } } := by
  refine ⟨hok.setOff f _, fun hc => ?_⟩
  have happend : (j.add p (some ((List.range n).map fun m => w.mem (i + m)))).writes.content =
      j.writes.content ++ (List.range n).map fun m => w.mem (i + m) := by
    simp [Journal.add, Writes.content]
  rw [happend]
  refine (h.holds hc).append hn (fun pos m hm => ?_) hw ?_
  · rw [show (w.src.drop i).bytes pos m = w.src.bytes (i + pos) m from rfl, w.reads _ _ hm]
    simp only [Nat.add_assoc]
  · rw [← htab]
    simp only [upd_self]

/-- The end of a round: the offset has been moved, the inode is unlocked and the loop goes on. -/
theorem round_valid {k : Nat} {w : Writer} {r : Int} {Q : Nat → Share N → Prop} {next : SysM Nat}
    (hi : i = writeMax * k) (hlt : i < n) (h : Agrees s₀ f {(s₀.ftable f).ip} j s)
    (htab : t.ftable = s.ftable) (hbusy : Busy s₀ f t)
    (hok : SysAt (fileRefs s₀.proc) (cwdRefs s₀.proc) 0 {(s₀.ftable f).ip} t)
    (hr : r = (min (n - i) writeMax : Nat) →
      WroteFile (s₀.ftable f).ip (w.src.drop i) (s.ftable f).off (min (n - i) writeMax) s.fs
        (min (n - i) writeMax) t.fs) (hstop : Q i (g.leave none))
    (hnext : next.Valid (sharing s₀ f N) p Q (g.leave (some (piece w.mem n k)))) :
    (do
      if 0 < r then
        .modify fun s =>
          { s with
            ftable := upd s.ftable f
              { s.ftable f with off := ((s.ftable f).off + r.toNat) % 2 ^ 32 } }
      iunlock (s₀.ftable f).ip
      if r ≠ (min (n - i) writeMax : Nat) then pure i else next : SysM Nat).Valid
        (sharing s₀ f N) p Q (g.enter j t) := by
  have hpos : 0 < min (n - i) writeMax := by
    have : writeMax = 3072 := rfl
    omega
  -- the move of the offset keeps what the other writers see
  have hmove : ∀ off : Nat, Busy s₀ f
      { t with ftable := upd t.ftable f { t.ftable f with off := off } } := by
    intro off
    obtain ⟨⟨o, ho⟩, hk⟩ := hbusy
    exact ⟨⟨off, by simp only [ho, upd_self, upd_upd]⟩, hk⟩
  by_cases hrn : r = (min (n - i) writeMax : Nat)
  · rw [if_pos (by omega)]
    refine valid_bind ((valid_inside (Q := fun _ s' => s' = _)
      (Prog.wp_modify.mpr ⟨hbusy, hmove _, rfl⟩)).mono fun _ g' ⟨s', hs', hg'⟩ => ?_)
    rw [hg', hs']
    refine (iunlock_valid (r := some (piece w.mem n k)) ?_).bind fun _ g'' hg'' => ?_
    · rw [piece_eq hi, hrn, Int.toNat_natCast]
      exact h.written hpos hok htab (hr hrn)
    · rw [if_neg (not_not.mpr hrn), hg'']
      exact hnext
  · -- an error: the journal is no longer clean
    have hrest : ∀ t' : Sys, SysAt (fileRefs s₀.proc) (cwdRefs s₀.proc) 0 {(s₀.ftable f).ip} t' →
        (do
          iunlock (s₀.ftable f).ip
          if r ≠ (min (n - i) writeMax : Nat) then pure i else next : SysM Nat).Valid
            (sharing s₀ f N) p Q (g.enter j t') := by
      intro t' hok'
      refine (iunlock_valid (r := none) ⟨hok', fun hc => nomatch hc⟩).bind fun _ g'' hg'' => ?_
      rw [if_pos hrn, hg'']
      exact hstop
    by_cases hr0 : 0 < r
    · rw [if_pos hr0]
      refine valid_bind ((valid_inside (Q := fun _ s' => s' = _)
        (Prog.wp_modify.mpr ⟨hbusy, hmove _, rfl⟩)).mono fun _ g' ⟨s', hs', hg'⟩ => ?_)
      rw [hg', hs']
      exact hrest _ (hok.setOff f _)
    · rw [if_neg hr0]
      exact hrest t hok

/-- What a writer owns at the end: its pieces, if there was no error. -/
def Finished (w : Writer) (r : Int) (g : Share N) : Prop :=
  g.inside = none ∧ (r = w.n → g.failed = false ∧ g.wrote = pieces w.mem w.n)

/-- At the end of the buffer all pieces are written. -/
theorem finished_of_rounds {w : Writer} {k : Nat} (hge : ¬ i < w.n) (hi : i = min (writeMax * k) w.n)
    (hk : k ≤ (w.n + writeMax - 1) / writeMax) (hin : g.inside = none) (hfail : g.failed = false)
    (hwrote : g.wrote = (List.range k).map (piece w.mem w.n)) (r : Int) : Finished w r g := by
  refine ⟨hin, fun _ => ⟨hfail, ?_⟩⟩
  have hall : k = (w.n + writeMax - 1) / writeMax := by
    rw [show writeMax = 3072 from rfl] at hi hk ⊢
    omega
  rw [hwrote, hall, pieces]

/-- The loop of `filewrite` after `k` rounds. -/
theorem filewriteLoop_valid (w : Writer) (hf : (s₀.ftable f).type ≠ .none) {fuel k : Nat}
    (hi : i = min (writeMax * k) w.n) (hk : k ≤ (w.n + writeMax - 1) / writeMax)
    (hfuel : w.n - i ≤ fuel) (hin : g.inside = none) (hfail : g.failed = false)
    (hwrote : g.wrote = (List.range k).map (piece w.mem w.n)) :
    (filewriteLoop f w.src fuel i w.n).Valid (sharing s₀ f N) p
      (fun r g' => Finished w r g') g := by
  have hmax : writeMax = 3072 := rfl
  induction fuel generalizing i k g with
  | zero => exact finished_of_rounds (by omega) hi hk hin hfail hwrote i
  | succ fuel ih =>
    rw [filewriteLoop]
    split
    · rename_i hlt
      have hik : i = writeMax * k := by
        rw [hmax] at hi ⊢
        omega
      refine (ftable_valid p g).bind ?_
      rintro x g' ⟨hg', off, hx⟩
      have hip : x.ip = (s₀.ftable f).ip := by rw [hx]
      rw [hg', hip]
      refine (ilock_valid hf).bind ?_
      rintro _ g₁ ⟨j, s, hg₁, hagrees, hbusy⟩
      rw [hg₁]
      refine valid_bind ((valid_inside (Q := fun r s' => r = (s.ftable f).off ∧ s' = s)
        (Prog.wp_gets.mpr ⟨hbusy, hbusy, rfl, rfl⟩)).mono ?_)
      rintro off g₂ ⟨s', ⟨hoff, hs'⟩, hg₂⟩
      rw [hg₂, hs', hoff]
      refine (valid_inside (writei_wp hagrees hbusy (w.src.drop i) _ _)).bind ?_
      rintro r g₃ ⟨t, ⟨htab, hbusy', hok, hr⟩, hg₃⟩
      rw [hg₃]
      refine round_valid hik hlt hagrees htab hbusy' hok hr ⟨rfl, fun hw => ?_⟩ ?_
      · -- an error ends the loop before the end of the buffer
        omega
      · refine ih (k := k + 1) ?_ ?_ (by omega) rfl hfail ?_
        · rw [hmax] at hik ⊢
          omega
        · rw [hmax] at hik hk ⊢
          omega
        · rw [List.range_succ, List.map_append, ← hwrote]
          rfl
    · rename_i hge
      exact finished_of_rounds hge hi hk hin hfail hwrote i

/-- A call of `filewrite` keeps to the protocol. -/
theorem filewrite_valid (w : Writer) (hf : (s₀.ftable f).type = .inode) :
    (filewrite f w.src w.n 0).Valid (sharing s₀ f N) p (Finished w) ⟨[], false, none⟩ := by
  rw [filewrite]
  refine (ftable_valid p _).bind ?_
  rintro x g' ⟨hg', off, hx⟩
  have htype : x.type = .inode := by rw [hx]; exact hf
  rw [hg']
  split
  · exact ⟨rfl, fun h => by omega⟩
  · rw [htype, Int.toNat_natCast]
    refine (filewriteLoop_valid w (by rw [hf]; decide) (k := 0) (by simp) (Nat.zero_le _) (by omega)
      rfl rfl rfl).bind fun i g' hg' => ⟨hg'.1, fun hr => hg'.2 ?_⟩
    by_contra hne
    rw [if_neg hne] at hr
    omega

theorem follows_of_reachable {w : Fin N → Writer} {x : Threads Sys Int N} (hs : SysOk s₀)
    (hf : (s₀.ftable f).type = .inode) (h : (writers s₀ f w).Reachable x) :
    x.Follows (sharing s₀ f N) fun p => Finished (w p) := by
  refine h.induct (P := fun x : Threads Sys Int N => x.Follows (sharing s₀ f N) fun p => Finished (w p))
    (fun x hx => ?_) fun x p y _ hfollows _ hstep => hfollows.step hstep trivial
  rw [show x = ⟨s₀, _⟩ from hx]
  refine ⟨fun _ => ⟨[], false, none⟩, ⟨⟨[], true⟩, ⟨(s₀.ftable f).off, (upd_eq_self ..).symm⟩,
    fun _ => rfl, fun _ => rfl, .inl ⟨fun _ => rfl, hs, fun _ => holds_start s₀ f⟩⟩, fun p => ?_⟩
  exact filewrite_valid (w p) hf

end Sharing

/-! ## The file at the end -/

/-- The pieces of a call are its bytes. -/
theorem pieces_flatten (mem : Nat → UInt8) (n : Nat) :
    (pieces mem n).flatten = (List.range n).map mem := by
  have hmax : writeMax = 3072 := rfl
  have hfirst : ∀ k, ((List.range k).map (piece mem n)).flatten =
      (List.range (min (writeMax * k) n)).map mem := by
    intro k
    induction k with
    | zero => simp
    | succ k ih =>
      have hsplit : min (writeMax * (k + 1)) n =
          min (writeMax * k) n + min (n - writeMax * k) writeMax := by
        rw [hmax]
        omega
      have hpiece : piece mem n k = (List.range (min (n - writeMax * k) writeMax)).map
          fun m => mem (min (writeMax * k) n + m) := by
        refine List.map_congr_left fun m hm => ?_
        rw [List.mem_range] at hm
        rw [show min (writeMax * k) n = writeMax * k by omega]
      rw [List.range_succ, List.map_append, List.flatten_append, ih, hsplit, List.range_add,
        List.map_append, List.map_map, List.map_singleton, List.flatten_singleton, hpiece]
      rfl
  rw [pieces, hfirst]
  congr 2
  rw [hmax]
  omega

theorem Writes.length_content (l : Writes N) :
    l.content.length = ∑ q, (l.of q).flatten.length := by
  induction l with
  | nil => simp [Writes.content, Writes.of]
  | cons x l ih =>
    -- the first piece counts for its own writer only
    have hof : ∀ q, (Writes.of (x :: l) q).flatten.length =
        (if x.1 = q then x.2.length else 0) + (Writes.of l q).flatten.length := by
      intro q
      by_cases hq : x.1 = q
      · simp [Writes.of, hq]
      · simp [Writes.of, hq]
    simp only [hof, Finset.sum_add_distrib, Finset.sum_ite_eq, Finset.mem_univ, if_true, ← ih]
    simp [Writes.content]

theorem length_le_of_mem_pieces {bs : List UInt8} (h : bs ∈ pieces mem n) : bs.length ≤ 3072 := by
  obtain ⟨k, -, rfl⟩ := List.mem_map.mp h
  have hmax : writeMax = 3072 := rfl
  simp only [piece, List.length_map, List.length_range]
  omega

/-- Any number of processes write to one open file at the same time, and all calls have returned
    without an error. The pieces stand in the file one behind the other from the initial offset on,
    those of each writer in their order; the offset has been moved by the number of bytes, the size is
    the end of the last piece if the file was not longer before, and other bytes are as they were. -/
theorem shared_writes {s : Sys} {f : FilePtr} {w : Fin N → Writer} {x : Threads Sys Int N}
    (hs : (files BlocksOk).Reachable s) (hf : (s.ftable f).type = .inode)
    (hx : (writers s f w).Reachable x) (hdone : ∀ p, x.prog p = .ret ((w p).n : Int)) :
    ∃ order : Writes N, (∀ q, order.of q = pieces (w q).mem (w q).n) ∧
      (∀ y ∈ order, y.2.length ≤ 3072) ∧
      order.content.length = ∑ q, (w q).n ∧
      fileBytes x.shared.fs (s.target f) (s.ftable f).off order.content.length = order.content ∧
      (x.shared.ftable f).off = (s.ftable f).off + ∑ q, (w q).n ∧
      (x.shared.fs.dinode (s.target f)).size =
        (if ∑ q, (w q).n = 0 then (s.fs.dinode (s.target f)).size
        else max (s.fs.dinode (s.target f)).size ((s.ftable f).off + ∑ q, (w q).n)) ∧
      ∀ k < (s.fs.dinode (s.target f)).size,
        k < (s.ftable f).off ∨ (s.ftable f).off + ∑ q, (w q).n ≤ k →
        fileByte x.shared.fs (s.target f) k = fileByte s.fs (s.target f) k := by
  have hfollows := follows_of_reachable (sysOk_reachable (fun _ h => h) hs) hf hx
  obtain ⟨c, hinv, hc⟩ := hfollows.idle fun p => by rw [hdone p]; rfl
  have hend : ∀ p, (c p).inside = none ∧ (c p).failed = false ∧
      (c p).wrote = pieces (w p).mem (w p).n := by
    intro p
    obtain ⟨r, hr, hin, hall⟩ := hc p
    rw [hdone p] at hr
    cases hr
    exact ⟨hin, hall rfl⟩
  obtain ⟨j, -, hof, hclean, ⟨-, hagrees⟩ | ⟨p, hp, -⟩⟩ := hinv
  · have hholds := hagrees.holds (hclean fun q => (hend q).2.1)
    have hpieces : ∀ q, j.writes.of q = pieces (w q).mem (w q).n := fun q =>
      (hof q).trans (hend q).2.2
    have hlen : j.writes.content.length = ∑ q, (w q).n := by
      rw [Writes.length_content]
      refine Finset.sum_congr rfl fun q _ => ?_
      rw [hpieces, pieces_flatten, List.length_map, List.length_range]
    have hnil : j.writes.content = [] ↔ ∑ q, (w q).n = 0 := by
      rw [← hlen, List.length_eq_zero_iff]
    refine ⟨j.writes, hpieces, fun y hy => ?_, hlen, hholds.inside, ?_, ?_, ?_⟩
    · have hmem : y.2 ∈ j.writes.of y.1 :=
        List.mem_map.mpr ⟨y, List.mem_filter.mpr ⟨hy, by simp⟩, rfl⟩
      rw [hpieces] at hmem
      exact length_le_of_mem_pieces hmem
    · rw [hholds.off, hlen]
    · have hsize := hholds.size
      simp only [hnil, hlen] at hsize
      exact hsize
    · have hout := hholds.outside
      rwa [hlen] at hout
  · rw [(hend p).1] at hp
    cases hp

/-! ## Two runs -/

/-- A writer of bytes that are known to be mapped. -/
def Writer.kernel (bs : List UInt8) : Writer where
  mem a := bs.getD a 0
  src := .kernel bs
  reads _ _ _ := rfl
  n := bs.length

/-- A run of calls on the image of `mkfs`, followed by a run of writers. -/
theorem exists_writers_run {α : Type} (calls : List (Slot × Call)) (f : FilePtr) (w : Fin N → Writer)
    (steps : List (Fin N)) (g : Sys → Threads Sys Int N → α) {y : α}
    (h : ((files BlocksOk).run mkfsBoot calls).bind (fun s =>
      ((writers s f w).run ⟨s, fun p => filewrite f (w p).src (w p).n 0⟩ steps).map (g s)) = some y) :
    ∃ s x, (files BlocksOk).Reachable s ∧ (writers s f w).Reachable x ∧ g s x = y := by
  obtain ⟨s, hs, hrun⟩ := Option.bind_eq_some_iff.mp h
  obtain ⟨x, hreach, hy⟩ := TransitionSystem.exists_reachable_of_run hrun rfl
  have hboot : (files BlocksOk).Reachable mkfsBoot := .init ⟨blocksOk_mkfsImage, boot_mkfsBoot⟩
  exact ⟨s, x, TransitionSystem.reachable_run hboot hs,
    hreach, hy⟩

/-- The file `f` in the root directory. -/
def pathF : Path := ⟨[102], by simp, by decide⟩

set_option maxRecDepth 100000 in
/-- Two writers of one byte each; the second one is first. -/
theorem shared_writes_two : ∃ (s : Sys) (x : Threads Sys Int 2) (order : Writes 2),
    (s.ftable ⟨0, by decide⟩).type = .inode ∧ (∀ p, x.prog p = .ret 1) ∧
    order.of 0 = pieces (fun a => [7].getD a 0) 1 ∧ order.of 1 = pieces (fun a => [8].getD a 0) 1 ∧
    fileBytes x.shared.fs (s.target ⟨0, by decide⟩) (s.ftable ⟨0, by decide⟩).off
      order.content.length = order.content := by
  obtain ⟨s, x, hs, hx, hg⟩ := exists_writers_run
    [(initproc, .open (some pathF) (O_CREATE ||| O_RDWR))] ⟨0, by decide⟩
    (fun p : Fin 2 => Writer.kernel [if p = 0 then 7 else 8])
    (0 :: List.replicate 17 1 ++ List.replicate 13 0)
    (fun s x => ((s.ftable ⟨0, by decide⟩).type, (x.prog 0).value, (x.prog 1).value))
    (y := (.inode, some 1, some 1)) (by decide +kernel)
  simp only [Prod.mk.injEq] at hg
  obtain ⟨hf, h0, h1⟩ := hg
  have hdone : ∀ p : Fin 2, x.prog p = .ret (Writer.kernel [if p = 0 then 7 else 8]).n := by
    intro p
    refine Prog.eq_ret_of_value ?_
    match p with
    | 0 => exact h0
    | 1 => exact h1
  obtain ⟨order, hof, -, -, hbytes, -⟩ := shared_writes hs hf hx hdone
  exact ⟨s, x, order, hf, hdone, hof 0, hof 1, hbytes⟩

set_option maxRecDepth 100000 in
/-- A byte written at the start of a file of two bytes does not make it shorter. -/
theorem shared_writes_keep_size : ∃ (s : Sys) (x : Threads Sys Int 1),
    (files BlocksOk).Reachable s ∧ (s.ftable ⟨1, by decide⟩).type = .inode ∧
    (s.fs.dinode (s.target ⟨1, by decide⟩)).type = .file ∧
    (writers s ⟨1, by decide⟩ fun _ => .kernel [7]).Reachable x ∧ (∀ p, x.prog p = .ret 1) ∧
    (x.shared.fs.dinode (s.target ⟨1, by decide⟩)).size ≠ (s.ftable ⟨1, by decide⟩).off + 1 := by
  obtain ⟨s, x, hs, hx, hg⟩ := exists_writers_run
    [(initproc, .open (some pathF) (O_CREATE ||| O_RDWR)),
      (initproc, .write 0 (.kernel [1, 2]) 2 0), (initproc, .open (some pathF) O_RDWR)]
    ⟨1, by decide⟩ (fun _ : Fin 1 => .kernel [7]) (List.replicate 14 0)
    (fun s x => ((s.ftable ⟨1, by decide⟩).type, (s.fs.dinode (s.target ⟨1, by decide⟩)).type,
      (x.prog 0).value, decide ((x.shared.fs.dinode (s.target ⟨1, by decide⟩)).size ≠
        (s.ftable ⟨1, by decide⟩).off + 1)))
    (y := (.inode, .file, some 1, true)) (by decide +kernel)
  simp only [Prod.mk.injEq, decide_eq_true_eq] at hg
  obtain ⟨hf, htype, hret, hsize⟩ := hg
  refine ⟨s, x, hs, hf, htype, hx, fun p => Prog.eq_ret_of_value ?_, hsize⟩
  rw [Subsingleton.elim p 0]
  exact hret

end Xv6.Fs
