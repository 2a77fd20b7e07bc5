import Xv6.Spec.CallInvariant

/-!
# Every block has one owner

In every state between calls the data blocks marked in the bitmap are exactly the ones that stand in a
slot of `addrs` of an allocated inode or in an entry of its indirect block, and none stands in
two places. The image only has to be consistent in this respect and to have no holes in
its files (`BlocksOk`). `mkfs` writes a hole into the root directory when the entries fill its
last block, since it rounds the size up to the next block; with other numbers of files its image is
such a one.
-/

namespace Xv6.Fs

/-- An image whose blocks have one owner each and whose files have no holes. -/
def BlocksOk (s : State) : Prop := DiskOk s.dinode s.bitmap s.data

variable {s : Sys}

/-! ## The start -/

theorem boot_fileRefs (h : Boot s) (f : FilePtr) : fileRefs s.proc f = 0 := by
  refine Finset.sum_eq_zero fun p _ => ?_
  rw [h.proc, upd_apply]
  split
  · simp [ProcFiles.fileRefs]
  · rfl

theorem boot_cwdRefs (h : Boot s) (ip : InodePtr) :
    cwdRefs s.proc ip = if ip.val = 0 then 1 else 0 := by
  have hall := cwdRefs_upd (fun _ => none) initproc (some ⟨fun _ => none, ⟨0, by decide⟩⟩) ip
  have hnone : cwdRefs (fun _ => none) ip = 0 := Finset.sum_eq_zero fun _ _ => rfl
  rw [hnone] at hall
  simp only [Option.map_none, Option.getD_none, Option.map_some, Option.getD_some, Fin.ext_iff,
    eq_comm (a := 0)] at hall
  rw [h.proc]
  omega

theorem boot_openRefs (h : Boot s) (ip : InodePtr) : openRefs s.ftable ip = 0 := by
  refine Finset.sum_eq_zero fun f _ => ?_
  simp [File.refersTo, (h.closed f).2]

theorem sysOk_boot (himg : BlocksOk s.fs) (h : Boot s) : SysOk s := by
  -- only the first entry of the inode table is live, and it is not valid
  have hlive : ∀ ip : InodePtr, 0 < (s.fs.itable ip).ref → ip = ⟨0, by decide⟩ := by
    intro ip hl
    by_contra hne
    rw [h.unused ip fun hv => hne (Fin.ext hv)] at hl
    exact absurd hl (Nat.lt_irrefl 0)
  have hgood : Good s.fs := by
    refine ⟨himg, fun ip ip' hl hl' _ => by rw [hlive ip hl, hlive ip' hl'], fun ip hl hv => ?_,
      by simp [h.handed]⟩
    rw [hlive ip hl, h.root.2.2] at hv
    cases hv
  refine ⟨hgood.start h.unlocked fun ip => ?_, fun f => ?_, fun f _ => (h.closed f).2⟩
  · rw [boot_openRefs h, boot_cwdRefs h]
    split
    · rename_i hip
      rw [(Fin.ext hip : ip = ⟨0, by decide⟩), h.root.2.1]
    · rename_i hip
      rw [h.unused ip hip]
  · rw [(h.closed f).1, boot_fileRefs h]

/-! ## Runs -/

theorem step_some {s s' : Sys} {a : Slot × Call} (h : step s a = some s') :
    ∃ q r, s.proc a.1 = some q ∧ (a.2.run a.1).exec s = .ok r s' := by
  rw [step] at h
  cases hq : s.proc a.1 with
  | none =>
    rw [hq] at h
    cases h
  | some q =>
    rw [hq] at h
    cases hrun : (a.2.run a.1).exec s with
    | stop why =>
      rw [hrun] at h
      cases h
    | ok r t =>
      rw [hrun] at h
      exact ⟨q, r, rfl, by rw [Option.some.inj h]⟩

/-- One call keeps the invariant. -/
theorem sysOk_step {s s' : Sys} {a : Slot × Call} (h : SysOk s) (hs : step s a = some s') :
    SysOk s' := by
  obtain ⟨q, r, hq, hrun⟩ := step_some hs
  have hend := (run_ends hq h a.2).exec
  rw [hrun] at hend
  exact hend

theorem sysOk_reachable {Image : State → Prop} (himg : ∀ fs, Image fs → BlocksOk fs)
    {C : Sys → Slot × Call → Prop} (h : (files Image).ReachableBy C s) : SysOk s := by
  refine h.induct (P := SysOk) (fun s h0 => ?_) fun _ _ _ _ hs _ hstep => sysOk_step hs hstep
  obtain ⟨hi, hb⟩ : Image s.fs ∧ Boot s := h0
  exact sysOk_boot (himg s.fs hi) hb

section

variable {i : Nat} {d : Dinode} (hd : d.type ≠ .free)
  (ha : d.addrs = fun k => if k = 0 then nmeta else 0) (data : Nat → ByteMem)
include hd ha

/-- A disk with one inode, which has one block. -/
theorem place_one (p : Place) :
    place (upd (fun _ => Dinode.zero) i d) data p = if p = .slot i 0 then nmeta else 0 := by
  by_cases hp : p.inum = i
  · cases p with
    | slot j k =>
      obtain rfl : j = i := hp
      simp only [place, upd_self, ha, Place.slot.injEq, true_and]
      by_cases hk : k = 0
      · rw [if_pos hk, if_pos ⟨hd, by omega⟩]
      · rw [if_neg hk, ite_self]
    | entry j k =>
      obtain rfl : j = i := hp
      rw [place, upd_self, ha, if_neg (fun hc => hc.2.1 rfl), if_neg (by simp)]
  · rw [place_of_empty (.inl (by rw [upd_of_ne hp]; rfl)) p rfl, if_neg]
    rintro rfl
    exact hp rfl

theorem owns_one {bitmap : Nat → Bool} (hbit : ∀ b < FSSIZE, bitmap b = decide (b < nmeta + 1)) :
    Owns (place (upd (fun _ => Dinode.zero) i d) data) bitmap nmeta FSSIZE := by
  have hself : place (upd (fun _ => Dinode.zero) i d) data (.slot i 0) = nmeta := by
    rw [place_one hd ha, if_pos rfl]
  have hplace : ∀ p, place (upd (fun _ => Dinode.zero) i d) data p ≠ 0 → p = .slot i 0 := by
    intro p hp
    rw [place_one hd ha] at hp
    by_contra hne
    exact hp (if_neg hne)
  refine ⟨by decide, fun p hp => ?_, fun p hp => ?_, fun p q hp hpq => ?_, fun b hlo hhi hb => ?_,
    fun b hb => ?_⟩
  · rw [hplace p hp, hself]
    decide
  · rw [hplace p hp, hself, hbit nmeta (by decide)]
    decide
  · rw [hplace p hp, hplace q (hpq ▸ hp)]
  · rw [hbit b hhi, decide_eq_true_iff] at hb
    exact ⟨.slot i 0, by rw [hself]; omega⟩
  · have hlt : b < FSSIZE := Nat.lt_trans hb (by decide)
    rw [hbit b hlt, decide_eq_true_iff]
    omega

end

theorem mkfsImage_root : mkfsImage.dinode ROOTINO = rootDinode := by
  show upd (fun _ => Dinode.zero) ROOTINO rootDinode ROOTINO = _
  rw [upd_self]

theorem mkfsImage_free {i : Nat} (hi : i ≠ ROOTINO) : (mkfsImage.dinode i).type = .free := by
  show (upd (fun _ => Dinode.zero) ROOTINO rootDinode i).type = _
  rw [upd_of_ne hi]
  rfl

theorem blocksOk_mkfsImage : BlocksOk mkfsImage := by
  have hroot : ∀ i, (mkfsImage.dinode i).type ≠ .free → i = ROOTINO := fun i ht =>
    by_contra fun hne => ht (mkfsImage_free hne)
  refine ⟨owns_one (by decide) rfl _ fun _ _ => rfl, fun i ht => ?_, fun i ht n hn => ?_⟩
  · rw [hroot i ht, mkfsImage_root]
    decide
  · rw [hroot i ht, mkfsImage_root] at hn
    have hn0 : n = 0 := by
      have hlt : n * BSIZE < 1 * BSIZE := by simpa [rootDinode] using hn
      have := Nat.lt_of_mul_lt_mul_right hlt
      omega
    rw [hroot i ht, hn0]
    show place _ _ (.slot ROOTINO 0) ≠ 0
    rw [show mkfsImage.dinode = upd (fun _ => Dinode.zero) ROOTINO rootDinode from rfl,
      place_one (by decide) rfl, if_pos rfl]
    decide

end Xv6.Fs
