import Xv6.Spec.Bmap

/-!
# Discarding the contents of an inode

`itrunc` frees the blocks of an inode one by one. The entries of the indirect block are freed
but not cleared, so in the middle of that loop the disk still names free blocks. The loops are
therefore followed on the block numbers that are still owned (`cleared`), which agree
with the disk again when `itrunc` has removed the indirect block.
-/

namespace Xv6.Fs

/-- The block numbers without the first `k` slots and the first `j` entries of inode `i`. -/
def cleared (i k j : Nat) (own : Place → Nat) : Place → Nat
  | .slot i' k' => if i' = i ∧ k' < k then 0 else own (.slot i' k')
  | .entry i' j' => if i' = i ∧ j' < j then 0 else own (.entry i' j')

theorem cleared_zero (i : Nat) (own : Place → Nat) : cleared i 0 0 own = own := by
  funext p
  cases p <;> simp [cleared]

/-- The next slot to be emptied. -/
theorem cleared_slot (i k j : Nat) (own : Place → Nat) :
    cleared i (k + 1) j own = upd (cleared i k j own) (.slot i k) 0 := by
  funext p
  cases p with
  | slot i' k' =>
    rw [upd_apply]
    simp only [cleared, Place.slot.injEq]
    by_cases hi : i' = i
    · rcases Nat.lt_trichotomy k' k with hlt | heq | hgt
      · rw [if_pos ⟨hi, by omega⟩, if_neg (by omega), if_pos ⟨hi, hlt⟩]
      · rw [if_pos ⟨hi, by omega⟩, if_pos ⟨hi, heq⟩]
      · rw [if_neg (by omega), if_neg (by omega), if_neg (by omega)]
    · rw [if_neg (by simp [hi]), if_neg (by simp [hi]), if_neg (by simp [hi])]
  | entry i' j' =>
    rw [upd_of_ne (by simp)]
    rfl

/-- The next entry to be emptied. -/
theorem cleared_entry (i k j : Nat) (own : Place → Nat) :
    cleared i k (j + 1) own = upd (cleared i k j own) (.entry i j) 0 := by
  funext p
  cases p with
  | slot i' k' =>
    rw [upd_of_ne (by simp)]
    rfl
  | entry i' j' =>
    rw [upd_apply]
    simp only [cleared, Place.entry.injEq]
    by_cases hi : i' = i
    · rcases Nat.lt_trichotomy j' j with hlt | heq | hgt
      · rw [if_pos ⟨hi, by omega⟩, if_neg (by omega), if_pos ⟨hi, hlt⟩]
      · rw [if_pos ⟨hi, by omega⟩, if_pos ⟨hi, heq⟩]
      · rw [if_neg (by omega), if_neg (by omega), if_neg (by omega)]
    · rw [if_neg (by simp [hi]), if_neg (by simp [hi]), if_neg (by simp [hi])]

theorem cleared_slot_self (i k j : Nat) (own : Place → Nat) :
    cleared i k j own (.slot i k) = own (.slot i k) := by
  simp [cleared]

theorem cleared_entry_self (i k j : Nat) (own : Place → Nat) :
    cleared i k j own (.entry i j) = own (.entry i j) := by
  simp [cleared]

variable {ip : InodePtr} {s t : State} {E : Stop → Prop} {own : Place → Nat} {a : Nat → Nat}

/-- On the way of `itrunc` from `s`: `addrs` is `a`, the block numbers still owned are `own`, and the
    blocks that are no longer owned are free. -/
structure Truncating (ip : InodePtr) (s : State) (a : Nat → Nat) (own : Place → Nat) (t : State) :
    Prop where
  data : t.data = s.data
  handed : t.handed = s.handed
  dinode : t.dinode = s.dinode
  table : t.itable =
    upd s.itable ip { s.itable ip with din := { (s.itable ip).din with addrs := a } }
  owns : Owns own t.bitmap nmeta FSSIZE
  freed : ∀ p, own p = 0 → placeAt s ip p ≠ 0 → t.bitmap (placeAt s ip p) = false

/-- Freeing the block of a place that is still owned. -/
theorem Truncating.bfree_ends (h : Truncating ip s a own t) {p : Place} (hp : own p ≠ 0)
    (hsame : own p = placeAt s ip p) :
    (bfree (own p)).Ends E (fun _ t' => Truncating ip s a (upd own p 0) t') t := by
  rw [bfree, Prog.ends_atomic, h.owns.marked p hp, if_pos rfl]
  refine ⟨h.data, h.handed, h.dinode, h.table, h.owns.free hp, fun q hq hne => ?_⟩
  show upd t.bitmap (own p) false (placeAt s ip q) = false
  by_cases hqp : q = p
  · rw [hqp, ← hsame, upd_self]
  · rw [upd_of_ne hqp] at hq
    have hfree := h.freed q hq hne
    rw [upd_apply, hfree, ite_self]

theorem Truncating.addrs (h : Truncating ip s a own t) : (t.itable ip).din.addrs = a := by
  rw [h.table, upd_self]

/-- Clearing a slot in memory. -/
theorem Truncating.setAddr_ends (h : Truncating ip s a own t) (k : Nat) :
    (setAddr ip k 0).Ends E (fun _ t' => Truncating ip s (upd a k 0) own t') t := by
  rw [setAddr, setDin, setInode, Prog.ends_modify]
  refine ⟨h.data, h.handed, h.dinode, ?_, h.owns, h.freed⟩
  simp only [h.table, upd_self, upd_upd]

/-- `addrs` of inode `d` with its first `k` slots cleared. -/
def clearedAddrs (addrs : Nat → Nat) (k : Nat) : Nat → Nat := fun m => if m < k then 0 else addrs m

theorem clearedAddrs_succ (addrs : Nat → Nat) (k : Nat) :
    upd (clearedAddrs addrs k) k 0 = clearedAddrs addrs (k + 1) := by
  funext m
  rw [upd_apply]
  simp only [clearedAddrs]
  by_cases hm : m = k
  · rw [if_pos hm, if_pos (by omega)]
  · rw [if_neg hm]
    by_cases hlt : m < k
    · rw [if_pos hlt, if_pos (by omega)]
    · rw [if_neg hlt, if_neg (by omega)]

/-- A slot that is empty already. -/
theorem clearedAddrs_of_zero {addrs : Nat → Nat} {k : Nat} (h : addrs k = 0) :
    clearedAddrs addrs (k + 1) = clearedAddrs addrs k := by
  rw [← clearedAddrs_succ]
  have hk : clearedAddrs addrs k k = 0 := by simp [clearedAddrs, h]
  exact upd_of_eq hk

/-- What `itrunc` leaves. -/
structure Truncated (ip : InodePtr) (s t : State) : Prop where
  data : t.data = s.data
  handed : t.handed = s.handed
  table : ∃ a, (∀ k ≤ NDIRECT, a k = 0) ∧ t.itable =
    upd s.itable ip { s.itable ip with din := { (s.itable ip).din with addrs := a, size := 0 } }
  dinode : t.dinode = upd s.dinode (s.itable ip).inum (t.itable ip).din
  owns : Owns (place t.dinode t.data) t.bitmap nmeta FSSIZE
  keeps : ∀ p, p.inum ≠ (s.itable ip).inum → place t.dinode t.data p = placeAt s ip p
  freed : ∀ p, p.inum = (s.itable ip).inum → placeAt s ip p ≠ 0 →
    t.bitmap (placeAt s ip p) = false

/-- The loop over the direct slots. -/
theorem truncDirect_ends (h : Maps ip s) :
    (Prog.forUp
      (fun i => do
        let x ← inode ip
        if x.din.addrs i ≠ 0 then
          bfree (x.din.addrs i)
          setAddr ip i 0)
      0 NDIRECT).Ends E
      (fun _ => Truncating ip s (clearedAddrs (s.itable ip).din.addrs NDIRECT)
        (cleared (s.itable ip).inum NDIRECT 0 (placeAt s ip))) s := by
  refine Prog.ends_for
    (J := fun k => Truncating ip s (clearedAddrs (s.itable ip).din.addrs k)
      (cleared (s.itable ip).inum k 0 (placeAt s ip))) (fun k t hk ht => ?_) ?_
  · have hslot := h.placeAt_slot (Nat.le_of_lt hk)
    have haddr : (t.itable ip).din.addrs k = (s.itable ip).din.addrs k := by
      rw [ht.addrs]
      simp [clearedAddrs]
    rw [inode, Prog.ends_bind, Prog.ends_gets, haddr]
    have hown := cleared_slot_self (s.itable ip).inum k 0 (placeAt s ip)
    split
    · rename_i hne
      rw [Prog.ends_bind, ← hslot, ← hown]
      refine (ht.bfree_ends (by rwa [hown, hslot]) hown).mono fun _ t' ht' => ?_
      refine (ht'.setAddr_ends k).mono fun _ t'' ht'' => ?_
      rwa [clearedAddrs_succ, ← cleared_slot] at ht''
    · rename_i hz
      have hz0 : (s.itable ip).din.addrs k = 0 := not_not.mp hz
      rw [Prog.ends_pure, clearedAddrs_of_zero hz0, cleared_slot,
        upd_of_eq (hown.trans (hslot.trans hz0))]
      exact ht
  · refine ⟨rfl, rfl, rfl, ?_, by rw [cleared_zero]; exact h.owns, fun p hp hne => ?_⟩
    · have haddrs : clearedAddrs (s.itable ip).din.addrs 0 = (s.itable ip).din.addrs := by
        funext m
        simp [clearedAddrs]
      rw [haddrs]
      exact (upd_eq_self s.itable ip).symm
    · rw [cleared_zero] at hp
      exact absurd hp hne

/-- The loop over the entries of the indirect block. -/
theorem truncEntries_ends (h : Maps ip s) (ha : (s.itable ip).din.addrs NDIRECT ≠ 0)
    (ht : Truncating ip s a (cleared (s.itable ip).inum NDIRECT 0 (placeAt s ip)) t) :
    (Prog.forUp
      (fun j => do
        if word (s.data ((s.itable ip).din.addrs NDIRECT)) j ≠ 0 then
          bfree (word (s.data ((s.itable ip).din.addrs NDIRECT)) j))
      0 NINDIRECT).Ends E
      (fun _ => Truncating ip s a (cleared (s.itable ip).inum NDIRECT NINDIRECT (placeAt s ip))) t := by
  refine Prog.ends_for
    (J := fun j => Truncating ip s a (cleared (s.itable ip).inum NDIRECT j (placeAt s ip)))
    (fun j t hj ht => ?_) ht
  have hentry := h.placeAt_entry ha hj
  have hown := cleared_entry_self (s.itable ip).inum NDIRECT j (placeAt s ip)
  rw [cleared_entry]
  split
  · rename_i hne
    rw [← hentry, ← hown]
    exact ht.bfree_ends (by rwa [hown, hentry]) hown
  · rename_i hz
    rw [Prog.ends_pure, upd_of_eq (hown.trans (hentry.trans (not_not.mp hz)))]
    exact ht

/-- The inodes when `ip` has lost all its blocks. -/
theorem place_truncated (s : State) (ip : InodePtr) {d : Dinode} (h : ∀ k ≤ NDIRECT, d.addrs k = 0) :
    place (upd s.dinode (s.itable ip).inum d) s.data =
      cleared (s.itable ip).inum (NDIRECT + 1) NINDIRECT (placeAt s ip) := by
  have hupd : upd s.dinode (s.itable ip).inum d = upd (logical s ip) (s.itable ip).inum d := by
    rw [logical, upd_upd]
  rw [hupd]
  funext p
  by_cases hp : p.inum = (s.itable ip).inum
  · rw [place_of_empty (i := (s.itable ip).inum) (.inr (by rwa [upd_self])) p hp]
    cases p with
    | slot i k =>
      by_cases hk : k < NDIRECT + 1
      · exact (if_pos ⟨hp, hk⟩).symm
      · rw [cleared, if_neg (fun hc => hk hc.2), placeAt, place, if_neg (by omega)]
    | entry i j =>
      by_cases hj : j < NINDIRECT
      · exact (if_pos ⟨hp, hj⟩).symm
      · rw [cleared, if_neg (fun hc => hj hc.2), placeAt, place, if_neg (fun hc => hj hc.2.2)]
  · rw [place_upd_of_ne d p hp]
    cases p with
    | slot i k | entry i j => exact (if_neg fun hc => hp hc.1).symm

/-- The end of `itrunc`, when no block is left. -/
theorem Truncating.finish (h : Truncating ip s (clearedAddrs (s.itable ip).din.addrs (NDIRECT + 1))
      (cleared (s.itable ip).inum (NDIRECT + 1) NINDIRECT (placeAt s ip)) t) :
    (do
      setDin ip fun d => { d with size := 0 }
      iupdate ip : FsM Unit).Ends E (fun _ => Truncated ip s) t := by
  simp only [setDin, setInode, iupdate, Prog.ends_bind, Prog.ends_modify, h.table, h.dinode, h.data,
    upd_self, upd_upd]
  have hzero : ∀ k ≤ NDIRECT, clearedAddrs (s.itable ip).din.addrs (NDIRECT + 1) k = 0 :=
    fun k hk => if_pos (by omega)
  have hplace := place_truncated s ip
    (d := { (s.itable ip).din with
      addrs := clearedAddrs (s.itable ip).din.addrs (NDIRECT + 1), size := 0 }) hzero
  refine ⟨rfl, h.handed, ⟨_, hzero, rfl⟩, by simp only [upd_self], ?_, fun p hp => ?_, fun p hp hne => ?_⟩
  · rw [← hplace] at h
    exact h.owns
  · rw [place_upd_of_ne _ p hp, placeAt, logical, place_upd_of_ne _ p hp]
  · refine h.freed p ?_ hne
    rw [← hplace]
    exact place_of_empty (i := (s.itable ip).inum) (.inr (by simpa only [upd_self] using hzero)) p hp

/-- `itrunc` frees every block of the inode, and no other. -/
theorem itrunc_ends (h : Maps ip s) : (itrunc ip).Ends E (fun _ => Truncated ip s) s := by
  rw [itrunc, Prog.ends_bind]
  refine (truncDirect_ends h).mono fun _ t ht => ?_
  have haddr : (t.itable ip).din.addrs NDIRECT = (s.itable ip).din.addrs NDIRECT := by
    rw [ht.addrs]
    simp [clearedAddrs]
  have hslot := h.placeAt_slot (Nat.le_refl NDIRECT)
  rw [inode, Prog.ends_bind, Prog.ends_gets, haddr]
  by_cases hz : (s.itable ip).din.addrs NDIRECT = 0
  · rw [if_neg (not_not.mpr hz)]
    -- without an indirect block the second loop has nothing to free
    have hsame : cleared (s.itable ip).inum (NDIRECT + 1) NINDIRECT (placeAt s ip) =
        cleared (s.itable ip).inum NDIRECT 0 (placeAt s ip) := by
      funext p
      cases p with
      | slot i k =>
        rw [cleared_slot, upd_apply]
        split
        · rename_i hp
          rw [hp, cleared_slot_self, hslot, hz]
        · rfl
      | entry i j =>
        by_cases hij : i = (s.itable ip).inum ∧ j < NINDIRECT
        · rw [cleared, cleared, if_pos hij, if_neg (by omega), hij.1,
            placeAt_entry_of_none hz]
        · rw [cleared, cleared, if_neg hij, if_neg (by omega)]
    refine Truncating.finish ?_
    rw [hsame, clearedAddrs_of_zero hz]
    exact ht
  · rw [if_pos hz, bread]
    simp only [Prog.ends_bind, Prog.ends_gets, ht.data]
    refine (truncEntries_ends h hz ht).mono fun _ t₁ ht₁ => ?_
    have hown := cleared_slot_self (s.itable ip).inum NDIRECT NINDIRECT (placeAt s ip)
    rw [← hslot, ← hown]
    refine (ht₁.bfree_ends (by rwa [hown, hslot]) hown).mono fun _ t₂ ht₂ => ?_
    refine (ht₂.setAddr_ends NDIRECT).mono fun _ t₃ ht₃ => ?_
    rw [clearedAddrs_succ, ← cleared_slot] at ht₃
    exact Prog.ends_bind.mp ht₃.finish

end Xv6.Fs
