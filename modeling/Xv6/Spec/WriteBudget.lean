import Mathlib.Data.Finset.Card
import Xv6.Spec.ReadInode

/-!
# The blocks of one chunk of filewrite

`filewrite` writes at most `writeMax` bytes in one operation, for which `begin_op` has reserved
`MAXOPBLOCKS` blocks of the log. `spent t` is the number of blocks passed to `log_write` so far. A block
that `bmap` allocates costs its bitmap block and itself, and the indirect block is paid for
once: `load` counts it in advance, so that a round of `writei` raises `load` by 2 at
most, and by 1 if the block was there (`bmap_load`). The first round of a write that does not start at the
beginning of a block finds its block, since the file has no holes (`writei_fits`).
-/

namespace Xv6.InodeIo

open Fs

variable {sb : Superblock} {ip : InodePtr} {t : State} {B : Nat}

/-- The blocks that were passed to `log_write`. -/
def State.logged (t : State) : Finset Nat := t.passed.toFinset

/-- The number of blocks that were passed to `log_write`. -/
def State.spent (t : State) : Nat := t.logged.card

/-- The inode has its indirect block, which was passed to `log_write`. -/
def State.Paid (t : State) (ip : InodePtr) : Prop :=
  (t.itable ip).din.addrs NDIRECT ≠ 0 ∧ (t.itable ip).din.addrs NDIRECT ∈ t.logged

instance (t : State) (ip : InodePtr) : Decidable (t.Paid ip) := inferInstanceAs (Decidable (_ ∧ _))

/-- The blocks passed to `log_write`, with two more as long as the indirect block may have to be
    allocated. -/
def State.load (t : State) (ip : InodePtr) : Nat := t.spent + if t.Paid ip then 0 else 2

/-- At most `B` blocks were passed to `log_write`. -/
def Within (B : Nat) (t : State) : Prop := t.spent ≤ B

/-- `p` passes at most `B` blocks to `log_write` at any time, and `Q` holds at its end. -/
def Spends {R : Type} (B : Nat) (p : M R) (Q : R → State → Prop) (t : State) : Prop :=
  p.wp (Within B) (fun _ => True) Q t

variable {R : Type} {Q : Unit → State → Prop} {k off : Nat} {t' : State} {src : Source}

theorem spends_bind {R' : Type} {p : M R} {k : R → M R'} {Q : R' → State → Prop} :
    Spends B (p >>= k) Q t ↔ Spends B p (fun r t' => Spends B (k r) Q t') t := Prog.wp_bind

theorem spends_pure {r : R} {Q : R → State → Prop} :
    Spends B (pure r : M R) Q t ↔ t.spent ≤ B ∧ Q r t := Iff.rfl

theorem Spends.mono {p : M R} {Q Q' : R → State → Prop} (h : Spends B p Q t)
    (hQ : ∀ r t', t'.spent ≤ B → Q r t' → Q' r t') : Spends B p Q' t :=
  Prog.wp_mono hQ h

/-- An action that passes nothing to `log_write`. -/
theorem spends_modify {f : State → State} (hf : (f t).passed = t.passed) (hB : t.spent ≤ B)
    (hQ : Q () (f t)) : Spends B (.modify f) Q t := by
  have hsame : (f t).spent = t.spent := by rw [State.spent, State.logged, hf]; rfl
  exact ⟨hB, show (f t).spent ≤ B by omega, hQ⟩

theorem spends_gets {f : State → R} {Q : R → State → Prop} (hB : t.spent ≤ B) (hQ : Q (f t) t) :
    Spends B (.gets f) Q t :=
  ⟨hB, hB, hQ⟩

/-! ## log_write and balloc -/

/-- From `t` to `t'` at most `k` more blocks were passed to `log_write`, and the inodes in memory are the
    same. -/
structure Grows (t : State) (k : Nat) (t' : State) : Prop where
  itable : t'.itable = t.itable
  sub : t.logged ⊆ t'.logged
  le : t'.spent ≤ t.spent + k

theorem Grows.refl (t : State) : Grows t 0 t := ⟨rfl, Finset.Subset.refl _, Nat.le_refl _⟩

theorem Grows.trans {t'' : State} {l : Nat} (h : Grows t k t') (h' : Grows t' l t'') :
    Grows t (k + l) t'' :=
  ⟨h'.itable.trans h.itable, h.sub.trans h'.sub, by have := h.le; have := h'.le; omega⟩

theorem Grows.mono {l : Nat} (h : Grows t k t') (hkl : k ≤ l) : Grows t l t' :=
  ⟨h.itable, h.sub, by have := h.le; omega⟩

/-- A change of a buffer. -/
theorem setBuf_spends {b : Nat} {f : ByteMem → ByteMem} (hB : t.spent ≤ B)
    (hQ : ∀ t', Grows t 0 t' → Q () t') : Spends B (setBuf b f) Q t :=
  spends_modify rfl hB (hQ _ ⟨rfl, Finset.Subset.refl _, Nat.le_refl _⟩)

/-- `log_write` of a block that was passed before costs nothing. -/
theorem logWrite_spends {b : Nat} (hk : b ∈ t.logged ∨ k = 1) (hB : t.spent + k ≤ B)
    (hQ : ∀ t', Grows t k t' → b ∈ t'.logged → Q () t') : Spends B (logWrite sb b) Q t := by
  have hlogged : ∀ lh, State.logged { t with passed := b :: t.passed, lh := lh } =
      insert b t.logged := fun _ => List.toFinset_cons
  have hle : (insert b t.logged).card ≤ t.spent + k := by
    rcases hk with hmem | rfl
    · rw [Finset.insert_eq_of_mem hmem]
      exact Nat.le_add_right _ _
    · exact Finset.card_insert_le b t.logged
  have hcost : ∀ lh, State.spent { t with passed := b :: t.passed, lh := lh } ≤ t.spent + k := by
    intro lh
    rw [State.spent, hlogged]
    exact hle
  have hnext : Within B { t with passed := b :: t.passed } := Nat.le_trans (hcost t.lh) hB
  rw [logWrite, spends_bind]
  refine ⟨show t.spent ≤ B by omega, hnext, hnext, ?_⟩
  -- the tests of `log_write` stop the machine or let it go on
  simp only
  split
  · trivial
  · split
    · trivial
    · refine ⟨Nat.le_trans (hcost _) hB, hQ _ ⟨rfl, ?_, hcost _⟩ ?_⟩
      · rw [hlogged]
        exact Finset.subset_insert b t.logged
      · rw [hlogged]
        exact Finset.mem_insert_self b t.logged

/-- What `balloc` does when it returns `r`. -/
structure Bought (t : State) (r : Nat) (t' : State) : Prop where
  grows : Grows t 2 t'
  logged : r ≠ 0 → r ∈ t'.logged

theorem balloc_spends {Q : Nat → State → Prop} (hB : t.spent + 2 ≤ B)
    (hQ : ∀ r t', Bought t r t' → Q r t') : Spends B (balloc sb) Q t := by
  rw [balloc, spends_bind]
  -- the bitmap block of the block found, and the block itself
  refine Spends.mono (Prog.wp_findUp (J := fun _ t' => t' = t) (Q := fun _ t' => Grows t 1 t')
    (fun _ t' ht' => show t'.spent ≤ B by rw [ht']; omega) (fun k t' _ _ ht' => ?_) rfl)
    fun found t' _ hfound => ?_
  · subst ht'
    refine (spends_bind).mpr (spends_gets (by omega) ?_)
    split
    · refine (spends_bind).mpr (setBuf_spends (by omega) fun t₁ h₁ => ?_)
      have hle := h₁.le
      refine (spends_bind).mpr (logWrite_spends (.inr rfl) (by omega) fun t₂ h₂ _ => ?_)
      have hle₂ := h₂.le
      exact ⟨show t₂.spent ≤ B by omega, h₁.trans h₂⟩
    · exact ⟨show t'.spent ≤ B by omega, rfl⟩
  · cases found with
    | none =>
      have ht' : t' = t := hfound
      subst ht'
      exact ⟨show t'.spent ≤ B by omega, hQ 0 t' ⟨(Grows.refl t').mono (by omega), fun h => absurd rfl h⟩⟩
    | some b =>
      have hg : Grows t 1 t' := hfound
      have hle := hg.le
      simp only
      rw [spends_bind, bzero, spends_bind]
      refine setBuf_spends (by omega) fun t₁ h₁ => ?_
      have hle₁ := h₁.le
      refine logWrite_spends (.inr rfl) (by omega) fun t₂ h₂ hmem => ?_
      have hle₂ := h₂.le
      exact ⟨show t₂.spent ≤ B by omega, hQ b t₂ ⟨(hg.trans h₁).trans h₂, fun _ => hmem⟩⟩

/-! ## bmap -/

theorem State.load_le (t : State) (ip : InodePtr) : t.load ip ≤ t.spent + 2 := by
  rw [State.load]
  split <;> omega

theorem State.spent_le (t : State) (ip : InodePtr) : t.spent ≤ t.load ip := Nat.le_add_right _ _

theorem State.Paid.load_eq (h : t.Paid ip) : t.load ip = t.spent := by rw [State.load, if_pos h, Nat.add_zero]

theorem State.load_of_not_paid (h : ¬ t.Paid ip) : t.load ip = t.spent + 2 := by rw [State.load, if_neg h]

/-- The indirect block stays paid for. -/
theorem load_mono (haddr : (t'.itable ip).din.addrs NDIRECT = (t.itable ip).din.addrs NDIRECT)
    (hsub : t.logged ⊆ t'.logged) (hle : t'.spent ≤ t.spent + k) : t'.load ip ≤ t.load ip + k := by
  by_cases hp : t.Paid ip
  · have hp' : t'.Paid ip := by
      rw [State.Paid, haddr]
      exact ⟨hp.1, hsub hp.2⟩
    rw [hp'.load_eq, hp.load_eq]
    exact hle
  · rw [State.load_of_not_paid hp]
    have := t'.load_le ip
    omega

theorem Grows.load_le (h : Grows t k t') : t'.load ip ≤ t.load ip + k :=
  load_mono (by rw [h.itable]) h.sub h.le

theorem addrBlock_spends {i : Nat} {Q : Nat → State → Prop} (hB : t.spent + 2 ≤ B)
    (hold : (t.itable ip).din.addrs i ≠ 0 → Q ((t.itable ip).din.addrs i) t)
    (hnone : ∀ t', Bought t 0 t' → Q 0 t')
    (hnew : ∀ r t', (t.itable ip).din.addrs i = 0 → r ≠ 0 → Bought t r t' →
      Q r (t'.setAddr ip i r)) :
    Spends B (addrBlock sb ip i) Q t := by
  rw [addrBlock, spends_bind]
  refine spends_gets (by omega) ?_
  split
  · rename_i hz
    rw [spends_bind]
    refine balloc_spends hB fun r t' hr => ?_
    have hle := hr.grows.le
    split
    · rename_i hr0
      exact ⟨show t'.spent ≤ B by omega, hnone t' (hr0 ▸ hr)⟩
    · rename_i hr0
      rw [spends_bind]
      exact spends_modify rfl (by omega) ⟨show t'.spent ≤ B by omega, hnew r t' hz hr0 hr⟩
  · rename_i hz
    exact ⟨show t.spent ≤ B by omega, hold hz⟩

/-- What `bmap` has passed to `log_write` when it returns `r`, where `L` blocks were counted before: at
    most two more, and at most one more if `r` is not among them. -/
def Charged (ip : InodePtr) (L r : Nat) (t' : State) : Prop :=
  t'.load ip ≤ L + 2 ∧ (r = 0 ∨ r ∈ t'.logged ∨ t'.load ip ≤ L + 1)

/-- The entry of an indirect block, when what is left of the budget is for it. -/
theorem entryBlock_spends {addr j L : Nat} (haddr : (t.itable ip).din.addrs NDIRECT = addr)
    (h0 : addr ≠ 0) (hload : t.load ip ≤ L) (hB : L + 2 ≤ B) :
    Spends B (entryBlock sb addr j) (Charged ip L) t := by
  have hspent := t.spent_le ip
  rw [entryBlock, spends_bind]
  refine spends_gets (by omega) ?_
  split
  · rw [spends_bind]
    refine balloc_spends (by omega) fun r t₁ hr => ?_
    have hle := hr.grows.le
    have hload₁ : t₁.load ip ≤ t.load ip + 2 := hr.grows.load_le
    by_cases hr0 : r = 0
    · subst hr0
      simp only [ne_eq, not_true_eq_false, if_false]
      exact ⟨show t₁.spent ≤ B by omega, show t₁.load ip ≤ L + 2 by omega, .inl rfl⟩
    · simp only [ne_eq, hr0, not_false_eq_true, if_true]
      rw [spends_bind]
      refine setBuf_spends (by omega) fun t₂ h₂ => ?_
      rw [spends_bind]
      have hle₂ := h₂.le
      have haddr₂ : (t₂.itable ip).din.addrs NDIRECT = addr := by
        rw [h₂.itable, hr.grows.itable, haddr]
      have hmem : r ∈ t₂.logged := h₂.sub (hr.logged hr0)
      -- the indirect block is paid for, or counted in advance
      by_cases hp : addr ∈ t₂.logged
      · refine logWrite_spends (k := 0) (.inl hp) (by omega) fun t₃ h₃ _ => ?_
        have hle₃ := h₃.le
        have hload₃ : t₃.load ip ≤ _ := ((hr.grows.trans h₂).trans h₃).load_le
        exact ⟨show t₃.spent ≤ B by omega, show t₃.load ip ≤ L + 2 by omega,
          .inr (.inl (h₃.sub hmem))⟩
      · have hnot : ¬ t.Paid ip := fun hpaid =>
          hp (h₂.sub (hr.grows.sub (haddr ▸ hpaid.2)))
        have hcount := State.load_of_not_paid hnot
        refine logWrite_spends (.inr rfl) (by omega) fun t₃ h₃ hlogged => ?_
        have hle₃ := h₃.le
        have hpaid : t₃.Paid ip := by
          rw [State.Paid, h₃.itable, haddr₂]
          exact ⟨h0, hlogged⟩
        have hload₃ := hpaid.load_eq
        exact ⟨show t₃.spent ≤ B by omega, show t₃.load ip ≤ L + 2 by omega,
          .inr (.inl (h₃.sub hmem))⟩
  · exact ⟨show t.spent ≤ B by omega, show t.load ip ≤ L + 2 by omega,
      .inr (.inr (show t.load ip ≤ L + 1 by omega))⟩

/-- A round of the loop of `writei` costs two blocks at most. -/
theorem bmap_load {bn : Nat} (hB : t.load ip + 2 ≤ B) :
    Spends B (bmap sb ip bn) (Charged ip (t.load ip)) t := by
  have hspent := t.spent_le ip
  have hsame : Charged ip (t.load ip) ((t.itable ip).din.addrs bn) t :=
    ⟨Nat.le_add_right _ _, .inr (.inr (Nat.le_add_right _ _))⟩
  rw [bmap]
  by_cases hd : bn < NDIRECT
  · rw [if_pos hd]
    refine addrBlock_spends (by omega) (fun _ => hsame) (fun t' hr => ?_) fun r t' _ hr0 hr => ?_
    · exact ⟨hr.grows.load_le, .inl rfl⟩
    · -- another slot than the one of the indirect block
      refine ⟨?_, .inr (.inl (hr.logged hr0))⟩
      refine load_mono ?_ hr.grows.sub hr.grows.le
      rw [State.setAddr_addrs, if_neg (by omega), hr.grows.itable]
  · rw [if_neg hd]
    split
    · rw [spends_bind]
      refine addrBlock_spends (by omega) (fun h0 => ?_) (fun t' hr => ?_) fun r t' hz hr0 hr => ?_
      · rw [if_neg h0]
        exact entryBlock_spends rfl h0 (Nat.le_refl _) hB
      · rw [if_pos rfl, spends_pure]
        have hle := hr.grows.le
        exact ⟨by omega, hr.grows.load_le, .inl rfl⟩
      · -- the new indirect block was counted in advance
        rw [if_neg hr0]
        have hself : ((t'.setAddr ip NDIRECT r).itable ip).din.addrs NDIRECT = r := by
          rw [State.setAddr_addrs, if_pos rfl]
        have hpaid : (t'.setAddr ip NDIRECT r).Paid ip := by
          rw [State.Paid, hself]
          exact ⟨hr0, hr.logged hr0⟩
        have hnot : ¬ t.Paid ip := fun hp => hp.1 hz
        have hle := hr.grows.le
        have hsum : (t'.setAddr ip NDIRECT r).load ip ≤ t.load ip := by
          rw [hpaid.load_eq, State.load_of_not_paid hnot]
          exact hle
        exact entryBlock_spends hself hr0 hsum hB
    · exact ⟨show t.spent ≤ B by omega, trivial⟩

/-! ## writei -/

/-- The number of blocks that hold the `n` bytes from `off` on. -/
def touched (off n : Nat) : Nat := if n = 0 then 0 else (off + n - 1) / BSIZE - off / BSIZE + 1

/-- One round of the loop goes up to the end of a block. -/
theorem touched_eq {n : Nat} (hn : n ≠ 0) :
    touched off n =
      touched (off + min n (BSIZE - off % BSIZE)) (n - min n (BSIZE - off % BSIZE)) + 1 := by
  rw [touched, touched, if_neg hn]
  by_cases hlast : n - min n (BSIZE - off % BSIZE) = 0
  · rw [if_pos hlast]
    simp only [BSIZE] at hlast ⊢
    omega
  · rw [if_neg hlast]
    simp only [BSIZE] at hlast ⊢
    omega

/-- `log_write` of the block that `bmap` has returned. -/
theorem logData_spends {r L : Nat} (h : Charged ip L r t) (h0 : r ≠ 0) (hB : L + 2 ≤ B)
    (hQ : ∀ t', t'.load ip ≤ L + 2 → Q () t') : Spends B (logWrite sb r) Q t := by
  have hspent := t.spent_le ip
  have hload := h.1
  rcases h.2 with hr | hmem | hless
  · exact absurd hr h0
  · refine logWrite_spends (k := 0) (.inl hmem) (by omega) fun t' h' _ => hQ t' ?_
    have hle : t'.load ip ≤ _ := h'.load_le
    omega
  · refine logWrite_spends (.inr rfl) (by omega) fun t' h' _ => hQ t' ?_
    have hle : t'.load ip ≤ _ := h'.load_le
    omega

/-- The part of a round behind `bmap`, when `K` is what the rest of the loop needs. -/
theorem storeRound_spends {r L K m pos : Nat} {rest : M Nat} (h : Charged ip L r t) (h0 : r ≠ 0)
    (hB : L + 2 + K ≤ B)
    (hrest : ∀ t', t'.load ip ≤ L + 2 → Spends B rest (fun _ t'' => t''.load ip ≤ L + 2 + K) t') :
    Spends B
      (do
        setBuf r fun b => b.write (off % BSIZE) (src.bytes pos m)
        if src.ok pos m then do
          logWrite sb r
          let tot ← rest
          pure (m + tot)
        else pure 0)
      (fun _ t' => t'.load ip ≤ L + 2 + K) t := by
  have hspent := t.spent_le ip
  have hload := h.1
  rw [spends_bind]
  refine setBuf_spends (by omega) fun t₁ h₁ => ?_
  have hle₁ : t₁.load ip ≤ t.load ip := h₁.load_le
  have hspent₁ := t₁.spent_le ip
  have hcharged : Charged ip L r t₁ :=
    ⟨by omega, h.2.imp_right (Or.imp (fun hm => h₁.sub hm) fun hl => by omega)⟩
  split
  · rw [spends_bind]
    refine logData_spends hcharged h0 (by omega) fun t₂ h₂ => ?_
    rw [spends_bind]
    refine (hrest t₂ h₂).mono fun tot t₃ hB₃ h₃ => ?_
    exact ⟨hB₃, h₃⟩
  · exact ⟨show t₁.spent ≤ B by omega, show t₁.load ip ≤ L + 2 + K by omega⟩

theorem writeLoop_load {fuel pos n : Nat} (hB : t.load ip + 2 * touched off n ≤ B) :
    Spends B (writeLoop sb ip src fuel off pos n)
      (fun _ t' => t'.load ip ≤ t.load ip + 2 * touched off n) t := by
  have hspent := t.spent_le ip
  induction fuel generalizing t off pos n with
  | zero => exact ⟨show t.spent ≤ B by omega, Nat.le_add_right _ _⟩
  | succ fuel ih =>
    rw [writeLoop]
    split
    · exact ⟨show t.spent ≤ B by omega, Nat.le_add_right _ _⟩
    · rename_i hz
      obtain ⟨K, hK⟩ : ∃ K, touched (off + min n (BSIZE - off % BSIZE))
        (n - min n (BSIZE - off % BSIZE)) = K := ⟨_, rfl⟩
      rw [touched_eq hz, hK] at hB ⊢
      rw [spends_bind]
      refine (bmap_load (by omega)).mono fun r t₁ hB₁ h₁ => ?_
      split
      · have hload := h₁.1
        exact ⟨hB₁, show t₁.load ip ≤ _ by omega⟩
      · rename_i hr0
        refine Spends.mono (storeRound_spends h₁ hr0 (K := 2 * K) (by omega) fun t₂ h₂ => ?_)
          fun _ t' _ h' => by omega
        exact (ih (by omega) (t₂.spent_le ip)).mono fun _ t' _ h' => by omega

/-- The first round of a write inside of a block that is there costs one block. -/
theorem writeLoop_load_found {fuel pos n L : Nat} (hload : t.load ip + 1 = L + 2) (hn : n ≠ 0)
    (hfound : t.blockOf ip (off / BSIZE) ≠ 0) (hbn : off / BSIZE < MAXFILE)
    (hB : L + 2 * touched off n ≤ B) :
    Spends B (writeLoop sb ip src (fuel + 1) off pos n)
      (fun _ t' => t'.load ip ≤ L + 2 * touched off n) t := by
  have hspent := t.spent_le ip
  obtain ⟨K, hK⟩ : ∃ K, touched (off + min n (BSIZE - off % BSIZE))
    (n - min n (BSIZE - off % BSIZE)) = K := ⟨_, rfl⟩
  rw [touched_eq hn, hK] at hB ⊢
  rw [writeLoop, if_neg hn, spends_bind]
  refine bmap_found hfound hbn (show t.spent ≤ B by omega) ?_
  rw [if_neg hfound]
  have hcharged : Charged ip L (t.blockOf ip (off / BSIZE)) t :=
    ⟨by omega, .inr (.inr (by omega))⟩
  refine Spends.mono (storeRound_spends hcharged hfound (K := 2 * K) (by omega) fun t₂ h₂ => ?_)
    fun _ t' _ h' => by omega
  refine Spends.mono (writeLoop_load (by omega)) fun _ t' _ h' => ?_
  omega

/-- The end of `writei`: one more block, that of the inode. -/
theorem iupdate_spends (hB : t.spent + 1 ≤ B) (hQ : ∀ t', t'.spent ≤ B → Q () t') :
    Spends B (iupdate sb ip) Q t := by
  rw [iupdate, spends_bind]
  refine spends_gets (by omega) ?_
  rw [spends_bind]
  refine setBuf_spends (by omega) fun t₁ h₁ => ?_
  have hle := h₁.le
  refine logWrite_spends (.inr rfl) (by omega) fun t₂ h₂ _ => hQ t₂ ?_
  have hle₂ := h₂.le
  omega

/-- A chunk of `filewrite` at any offset passes at most `MAXOPBLOCKS` blocks to `log_write`, at
    any time, with any superblock and any contents of the bitmap. -/
theorem writei_fits (hfull : t.NoHoles ip) (src : Source) {off n1 : Nat} (hn : n1 ≤ writeMax)
    (hstart : t.passed = []) :
    (writei sb ip src off n1).wp (fun t' => t'.spent ≤ Log.MAXOPBLOCKS) (fun _ => True)
      (fun _ _ => True) t := by
  show Spends Log.MAXOPBLOCKS _ _ t
  have hmax : writeMax = 3072 := rfl
  have hspent : t.spent = 0 := by rw [State.spent, State.logged, hstart]; rfl
  have hload : t.load ip = 2 := by
    rw [State.load_of_not_paid (fun hp => ?_), hspent]
    have hmem := hp.2
    rw [State.logged, hstart] at hmem
    exact absurd hmem (Finset.notMem_empty _)
  have hten : Log.MAXOPBLOCKS = 10 := rfl
  rw [writei, spends_bind]
  refine spends_gets (by omega) ?_
  split
  · exact ⟨show t.spent ≤ _ by omega, trivial⟩
  · rename_i hoff
    split
    · exact ⟨show t.spent ≤ _ by omega, trivial⟩
    · rename_i hfile
      have hloop : Spends Log.MAXOPBLOCKS (writeLoop sb ip src n1 off 0 n1)
          (fun _ t' => t'.load ip ≤ 9) t := by
        by_cases hz : n1 = 0
        · rw [hz]
          exact ⟨show t.spent ≤ _ by omega, show t.load ip ≤ 9 by omega⟩
        · by_cases halign : off % BSIZE = 0
          · -- three blocks
            have htouched : touched off n1 ≤ 3 := by
              simp only [touched, BSIZE, if_neg hz] at halign ⊢
              omega
            exact (writeLoop_load (by omega)).mono fun _ t' _ h' => by omega
          · -- four blocks, the first of which is there
            have htouched : touched off n1 ≤ 4 := by
              simp only [touched, BSIZE, if_neg hz] at halign ⊢
              omega
            have hfound : t.blockOf ip (off / BSIZE) ≠ 0 := by
              refine hfull _ ?_
              have := Nat.div_add_mod off BSIZE
              rw [Nat.mul_comm] at this
              omega
            have hbn : off / BSIZE < MAXFILE := (Nat.div_lt_iff_lt_mul (by decide)).mpr (by omega)
            obtain ⟨fuel, rfl⟩ : ∃ fuel, n1 = fuel + 1 := ⟨n1 - 1, by omega⟩
            have hround : Spends Log.MAXOPBLOCKS (writeLoop sb ip src (fuel + 1) off 0 (fuel + 1))
                (fun _ t' => t'.load ip ≤ 1 + 2 * touched off (fuel + 1)) t :=
              writeLoop_load_found (by omega) hz hfound hbn (by omega)
            exact hround.mono fun _ t' _ h' => by omega
      rw [spends_bind]
      refine hloop.mono fun tot t₁ hB h₁ => ?_
      have hspent₁ := t₁.spent_le ip
      rw [spends_bind]
      refine spends_modify rfl (by omega) ?_
      rw [spends_bind]
      exact iupdate_spends (show t₁.spent + 1 ≤ _ by omega) fun t' hB' => ⟨hB', trivial⟩

/-- A file of 1000 bytes in the first entry of the inode table, on an empty disk. -/
def smallFile : State where
  cache _ _ := 0
  disk _ _ := 0
  lh := ⟨0, fun _ => 0⟩
  outstanding := 1
  itable _ := ⟨2, 1, true, true, ⟨.file, 0, 0, 1, 1000, fun k => if k = 0 then nmeta else 0⟩⟩
  ftable _ := ⟨.none, 0, false, false, ⟨0, Fs.NINODE_pos⟩, 0, 0⟩
  mem _ := 0
  stored := 0
  passed := []

theorem noHoles_smallFile (ip : InodePtr) : smallFile.NoHoles ip := by
  intro bn hbn
  have hsmall : bn * 1024 < 1000 := hbn
  obtain rfl : bn = 0 := by omega
  exact (by decide : nmeta ≠ 0)

/-- A chunk at the end of that file, which does not start at the beginning of a block. -/
theorem writei_fits_smallFile :
    smallFile.NoHoles ⟨0, by decide⟩ ∧
    (writei mkfsSuperblock ⟨0, by decide⟩ ⟨fun _ m => List.replicate m 7, fun _ _ => true,
        fun _ _ => by simp, fun _ _ _ => by simp⟩ 1000 writeMax).wp
      (fun t' => t'.spent ≤ Log.MAXOPBLOCKS) (fun _ => True) (fun _ _ => True) smallFile :=
  ⟨noHoles_smallFile _, writei_fits (noHoles_smallFile _) _ (Nat.le_refl _) rfl⟩

end Xv6.InodeIo
