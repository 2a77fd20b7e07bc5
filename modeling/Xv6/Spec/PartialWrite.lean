import Mathlib.Data.List.TakeWhile
import Xv6.Spec.ByteArray
import Xv6.Spec.InodeBlocks

/-!
# A write whose copy fails

`either_copyin` copies into the buffer of the block. When it fails after some bytes, `writei` leaves
the loop without a call of `log_write`: these bytes stay in the buffer, although they are not
counted, and they are not in the log. `writei_reports_iff` says when the write has changed
only what it reports all the same.
-/

namespace Xv6.InodeIo

open Fs

variable {ip : InodePtr} {t t' t₁ : State} {s s' s₁ : Fs.State} {src : Source}

/-- The first piece of a write whose copy fails: its position in the source and its length. -/
def firstFail (src : Source) : (fuel off pos n : Nat) → Option (Nat × Nat)
  | 0, _, _, _ => none
  | fuel + 1, off, pos, n =>
    if n = 0 then none
    else
      let m := min n (BSIZE - off % BSIZE)
      if src.ok pos m then firstFail src fuel (off + m) (pos + m) (n - m) else some (pos, m)

theorem firstFail_ge {fuel off pos n p m : Nat} (h : firstFail src fuel off pos n = some (p, m)) :
    pos ≤ p := by
  induction fuel generalizing off pos n with
  | zero => cases h
  | succ fuel ih =>
    rw [firstFail] at h
    split at h
    · cases h
    · simp only at h
      split at h
      · have := ih h
        omega
      · cases h
        exact Nat.le_refl _

/-! ## The loop -/

/-- The state after bytes were stored in a buffer without `log_write`. -/
def State.fill (t : State) (b a : Nat) (bs : List UInt8) : State :=
  { t with cache := upd t.cache b ((t.cache b).write a bs) }

/-- What the loop of `writei` has done after `tot` bytes, if all copies succeeded. -/
structure Progress (ip : InodePtr) (off n : Nat) (t : State) (s : Fs.State) (tot : Nat) (t₁ : State)
    (s₁ : Fs.State) : Prop where
  shows : Shows t₁ s₁
  changes : Changes ip off tot s s₁
  le : tot ≤ n
  kept : Kept (fun _ => True) t t₁
  aligned : tot < n → tot = 0 ∨ (off + tot) % BSIZE = 0
  only : tot < n → blockAt s ip (off + tot) ≠ 0 → t₁.lh.names (blockAt s ip (off + tot)) →
    t.lh.names (blockAt s ip (off + tot))

/-- How the loop ends after `tot` bytes: all bytes are written, there is no block for the next one, or
    the copy of the next piece fails. -/
def LoopEnds (ip : InodePtr) (src : Source) (fuel off pos n : Nat) (t : State) (s : Fs.State)
    (tot : Nat) (t' : State) : Prop :=
  ∃ t₁ s₁, Progress ip off n t s tot t₁ s₁ ∧
    (t' = t₁ ∧ tot = n ∧ firstFail src fuel off pos n = none ∨
     t' = t₁ ∧ tot < n ∧ blockAt s ip (off + tot) = 0 ∧
       (∀ p m, firstFail src fuel off pos n = some (p, m) → pos + tot ≤ p) ∨
     ∃ m, tot < n ∧ firstFail src fuel off pos n = some (pos + tot, m) ∧
       (off + tot) % BSIZE + m ≤ BSIZE ∧ blockAt s₁ ip (off + tot) ≠ 0 ∧
       t' = t₁.fill (blockAt s₁ ip (off + tot)) ((off + tot) % BSIZE) (src.bytes (pos + tot) m))

/-- Nothing is written yet. -/
theorem Progress.zero {off n : Nat} (hs : Shows t₁ s₁) (hc : Changes ip off 0 s s₁)
    (hk : Kept (fun _ => True) t t₁)
    (honly : 0 < n → blockAt s ip off ≠ 0 → t₁.lh.names (blockAt s ip off) →
      t.lh.names (blockAt s ip off)) : Progress ip off n t s 0 t₁ s₁ :=
  ⟨hs, hc, Nat.zero_le _, hk, fun _ => .inl rfl, honly⟩

/-- One round: `bmap` has found or allocated the block, and its new contents are in the log. -/
structure Round (ip : InodePtr) (src : Source) (off pos m : Nat) (t : State) (s : Fs.State)
    (t₂ : State) (s₂ : Fs.State) : Prop where
  shows : Shows t₂ s₂
  changes : Changes ip off m s s₂
  kept : Kept (fun _ => True) t t₂
  only : ∀ x, x / BSIZE ≠ off / BSIZE → blockAt s ip x ≠ 0 → t₂.lh.names (blockAt s ip x) →
    t.lh.names (blockAt s ip x)

theorem Round.mk_of_put {off pos m r : Nat} {t₂ : State} (hm : Maps ip s) (hs : Shows t₁ s₁)
    (hr : Mapped ip (off / BSIZE) s r s₁) (hk : Kept (Spare ip s s₁) t t₁) (hr0 : r ≠ 0)
    (hput : Put r ((t₁.cache r).write (off % BSIZE) (src.bytes pos m)) t₁ t₂) :
    Round ip src off pos m t s t₂ (s₁.store ip off (src.bytes pos m)) := by
  have hblock : r = blockAt s₁ ip off := by
    rw [hr.found hr0, blockAt, hr.ext.inum_eq]
  have hb : blockAt s₁ ip off ≠ 0 := hblock ▸ hr0
  have hmeta : nmeta ≤ r := by
    rw [hblock]
    exact (hr.maps.owns.range _ hb).1
  have hshows := hput.shows hs hmeta
  rw [← hs.data r hmeta, hblock] at hshows
  refine ⟨hshows, (hr.changes off m).trans (changes_store hr.maps hb (src.le pos m))
      ⟨Nat.le_refl _, Nat.le_refl _⟩ ⟨Nat.le_refl _, Nat.le_refl _⟩,
    (hk.trans hput.kept).mono fun _ _ => trivial, fun x hx hbx hn => ?_⟩
  -- neither the block of this round nor one that `bmap` has passed to `log_write`
  rcases hput.kept.only _ hn with hn | heq
  · exact (hk.only _ hn).resolve_right (not_spare hm hr hbx)
  · have hkeep := (hr.changes off m).blockAt_eq hbx
    rw [hblock, ← hkeep] at heq
    rw [← hkeep] at hbx
    exact absurd (filePlace_inj (hr.maps.owns.inj _ _ hbx heq)).2 hx

/-- A round, followed by the rest of the loop. -/
theorem Progress.cons {off pos n m tot : Nat} {t₂ t₃ : State} {s₂ s₃ : Fs.State}
    (hm : m = min n (BSIZE - off % BSIZE)) (h : Round ip src off pos m t s t₂ s₂)
    (hrest : Progress ip (off + m) (n - m) t₂ s₂ tot t₃ s₃) :
    Progress ip off n t s (m + tot) t₃ s₃ := by
  have hle := hrest.le
  have hmod : off % BSIZE < BSIZE := Nat.mod_lt _ BSIZE_pos
  refine ⟨hrest.shows, h.changes.trans hrest.changes ⟨by omega, by omega⟩ ⟨by omega, by omega⟩,
    by omega, (h.kept.trans hrest.kept).mono fun _ _ => trivial, fun hlt => ?_, fun hlt hb hn => ?_⟩
  · rcases hrest.aligned (by omega) with h0 | halign
    · refine .inr ?_
      simp only [BSIZE] at hm hmod ⊢
      omega
    · rw [← Nat.add_assoc]
      exact .inr halign
  · rw [← Nat.add_assoc] at hb hn ⊢
    have hkeep := h.changes.blockAt_eq hb
    have hdiv : (off + m + tot) / BSIZE ≠ off / BSIZE := by
      simp only [BSIZE] at hm ⊢
      omega
    refine h.only _ hdiv hb ?_
    rw [← hkeep] at hb hn ⊢
    exact hrest.only (by omega) hb hn

theorem LoopEnds.cons {fuel off pos n m tot : Nat} {t₂ : State} {s₂ : Fs.State}
    (hm : m = min n (BSIZE - off % BSIZE)) (hn : n ≠ 0) (hok : src.ok pos m = true)
    (h : Round ip src off pos m t s t₂ s₂)
    (hrest : LoopEnds ip src fuel (off + m) (pos + m) (n - m) t₂ s₂ tot t') :
    LoopEnds ip src (fuel + 1) off pos n t s (m + tot) t' := by
  obtain ⟨t₃, s₃, hp, hend⟩ := hrest
  have hle := hp.le
  have hfail : firstFail src (fuel + 1) off pos n =
      firstFail src fuel (off + m) (pos + m) (n - m) := by
    rw [firstFail, if_neg hn, ← hm, if_pos hok]
  refine ⟨t₃, s₃, hp.cons hm h, ?_⟩
  rw [hfail, ← Nat.add_assoc, ← Nat.add_assoc]
  rcases hend with ⟨rfl, htot, hf⟩ | ⟨rfl, htot, hb, hf⟩ | ⟨k, htot, hf, hlen, hb, rfl⟩
  · exact .inl ⟨rfl, by omega, hf⟩
  · refine .inr (.inl ⟨rfl, by omega, ?_, hf⟩)
    -- blocks stay in their places
    by_contra hold
    rw [h.changes.blockAt_eq hold] at hb
    exact hold hb
  · exact .inr (.inr ⟨k, by omega, hf, hlen, hb, rfl⟩)

/-- There is nothing to write. -/
theorem LoopEnds.done {fuel off pos n : Nat} (h : Shows t s) (hm : Maps ip s) (hn : n = 0) :
    LoopEnds ip src fuel off pos n t s 0 t := by
  subst hn
  refine ⟨t, s, .zero h (.refl hm) (.refl _ t) fun h0 => absurd h0 (by omega), .inl ⟨rfl, rfl, ?_⟩⟩
  cases fuel with
  | zero => rfl
  | succ fuel => rw [firstFail, if_pos rfl]

theorem writeLoop_ends {fuel off pos n : Nat} (h : Shows t s) (hm : Maps ip s)
    (ho : 1 ≤ t.outstanding) (hfuel : n ≤ fuel) (hmax : off + n ≤ MAXFILE * BSIZE) :
    (writeLoop mkfsSuperblock ip src fuel off pos n).Ends TooBig
      (LoopEnds ip src fuel off pos n t s) t := by
  induction fuel generalizing t s off pos n with
  | zero =>
    rw [writeLoop, Prog.ends_pure]
    exact .done h hm (by omega)
  | succ fuel ih =>
    rw [writeLoop]
    split
    · rename_i hz
      rw [Prog.ends_pure]
      exact .done h hm hz
    · rename_i hz
      have hbn : off / BSIZE < MAXFILE := (Nat.div_lt_iff_lt_mul BSIZE_pos).mpr (by omega)
      have hmod : off % BSIZE < BSIZE := Nat.mod_lt _ BSIZE_pos
      obtain ⟨m, hmin⟩ : ∃ m, m = min n (BSIZE - off % BSIZE) := ⟨_, rfl⟩
      rw [Prog.ends_bind, ← hmin]
      refine (bmap_shows h hm ho hbn).mono fun r t₁ ⟨s₁, hs, hr, hk⟩ => ?_
      have hkept : Kept (fun _ => True) t t₁ := hk.mono fun _ _ => trivial
      have hprogress : Progress ip off n t s 0 t₁ s₁ :=
        .zero hs (hr.changes off 0) hkept fun _ hb hn => (hk.only _ hn).resolve_right
          (not_spare hm hr hb)
      split
      · rename_i hr0
        rw [Prog.ends_pure]
        refine ⟨t₁, s₁, hprogress, .inr (.inl ⟨rfl, by omega, ?_, fun p m hf => firstFail_ge hf⟩)⟩
        by_contra hb
        exact (hr.same hb).1 hr0
      · rename_i hr0
        have hblock : r = blockAt s₁ ip off := by
          rw [hr.found hr0, blockAt, hr.ext.inum_eq]
        rw [Prog.ends_bind]
        cases hok : src.ok pos m with
        | true =>
          simp only [if_true, Prog.ends_bind]
          refine put_ends (hk.outstanding_le ho) fun t₂ hput => ?_
          have hround := Round.mk_of_put hm hs hr hk hr0 hput
          have ho₂ := hround.kept.outstanding_le ho
          refine (ih hround.shows hround.changes.maps ho₂ (by omega) (by omega)).mono
            fun tot t' hrest => ?_
          rw [Prog.ends_pure]
          exact hrest.cons hmin hz hok hround
        | false =>
          rw [setBuf, Prog.ends_modify, if_neg Bool.false_ne_true, Prog.ends_pure]
          refine ⟨t₁, s₁, hprogress, .inr (.inr ⟨m, by omega, ?_, ?_, hblock ▸ hr0, ?_⟩)⟩
          · simp only [firstFail, if_neg hz, ← hmin, hok]
            rfl
          · rw [Nat.add_zero]
            omega
          · rw [hblock]
            rfl

/-! ## What a write reports -/

/-- A write of `k` bytes at `off` that leaves a file of `size` bytes has changed only these bytes, and when
    the transaction has been committed the blocks of the file on the disk are those in the buffers. -/
structure Reported (ip : InodePtr) (size off k : Nat) (t t' : State) : Prop where
  bytes : ∀ x < size, x < off ∨ off + k ≤ x → t'.byteOf ip x = t.byteOf ip x
  disk : ∀ bn, bn * BSIZE < size → t'.commitView (t'.blockOf ip bn) = t'.cache (t'.blockOf ip bn)
  indirect : (t'.itable ip).din.addrs NDIRECT ≠ 0 →
    t'.commitView ((t'.itable ip).din.addrs NDIRECT) = t'.cache ((t'.itable ip).din.addrs NDIRECT)

/-- The bytes that a failing copy stores in a block of the file are the ones that are there, or they lie
    behind the end of the file in a block that is in the log. -/
def Harmless (ip : InodePtr) (src : Source) (off n : Nat) (t : State) : Prop :=
  ∀ pos m, firstFail src n off 0 n = some (pos, m) →
    (off + pos) / BSIZE * BSIZE < (t.itable ip).din.size →
    ∀ j < (src.bytes pos m).length,
      (src.bytes pos m)[j]? = some (t.byteOf ip (off + pos + j)) ∨
      (t.itable ip).din.size ≤ off + pos + j ∧ t.lh.names (t.blockOf ip ((off + pos) / BSIZE))

theorem commitView_eq_iff {b : Nat} :
    t.commitView b = t.cache b ↔ t.lh.names b ∨ t.cache b = t.disk b := by
  rw [State.commitView]
  split
  · rename_i hn
    exact iff_of_true rfl (.inl hn)
  · rename_i hn
    exact ⟨fun h => .inr h.symm, fun h => (h.resolve_left hn).symm⟩

/-- Bytes outside of the range that was written. -/
theorem Progress.byteOf_eq {off n tot x : Nat} (h : Progress ip off n t s tot t₁ s₁) (hs : Shows t s)
    (hm : Maps ip s) (hx : x < MAXFILE * BSIZE) (hb : blockAt s ip x ≠ 0)
    (hout : x < off ∨ off + tot ≤ x) : t₁.byteOf ip x = t.byteOf ip x := by
  have hb₁ : blockAt s₁ ip x ≠ 0 := by rwa [h.changes.blockAt_eq hb]
  rw [h.shows.byteOf_eq h.changes.maps hx hb₁, hs.byteOf_eq hm hx hb, h.changes.outside x hb hout]

/-- A byte of the new file outside of the range is one of the old file. -/
theorem lt_size_of_outside {size off tot x : Nat} (hoff : off ≤ size) (hx : x < max size (off + tot))
    (hout : x < off ∨ off + tot ≤ x) : x < size := by omega

/-- Without a failing copy all changes are reported. -/
theorem Progress.reported {off n tot : Nat} (hp : Progress ip off n t s tot t₁ s₁) (hs : Shows t s)
    (hf : Filled ip s) (hclean : t.Clean) (hoff : off ≤ (s.itable ip).din.size) :
    Reported ip (max (s.itable ip).din.size (off + tot)) off tot t t₁ := by
  have hsmall := hf.small
  refine ⟨fun x hx hout => ?_, fun bn _ => ?_, fun _ => ?_⟩
  · have hlt := lt_size_of_outside hoff hx hout
    exact hp.byteOf_eq hs hf.maps (by omega) (hf.full x hlt) hout
  · exact commitView_eq_iff.mpr (hp.kept.clean hclean _)
  · exact commitView_eq_iff.mpr (hp.kept.clean hclean _)

/-! ## A failing copy -/

/-- The bytes of a failing copy in the buffer. -/
theorem Shows.fill {q : Nat} {bs : List UInt8} (h : Shows t₁ s₁) (hm : Maps ip s₁)
    (hb : blockAt s₁ ip q ≠ 0) :
    Shows (t₁.fill (blockAt s₁ ip q) (q % BSIZE) bs) (s₁.store ip q bs) := by
  have hmeta := (hm.owns.range _ hb).1
  have hne : Mkfs.bmapstart ≠ blockAt s₁ ip q := by
    have := bmapstart_lt
    rw [blockAt]
    omega
  refine ⟨h.itable, fun b hb' => ?_, fun b hb' => ?_⟩
  · show upd s₁.data _ _ b = upd t₁.cache _ _ b
    rw [upd_apply, upd_apply, h.data b hb', h.data (blockAt s₁ ip q) hmeta]
  · show _ = Mkfs.bit (upd t₁.cache _ _ Mkfs.bmapstart) b
    rw [upd_of_ne hne]
    exact h.bitmap b hb'

/-- A failing copy at `q`, after all bytes before it were written. -/
structure Failed (ip : InodePtr) (off n : Nat) (t : State) (s : Fs.State) (tot : Nat) (t₁ : State)
    (s₁ : Fs.State) (bs : List UInt8) : Prop where
  shows : Shows t s
  filled : Filled ip s
  clean : t.Clean
  start : off ≤ (s.itable ip).din.size
  fits : off + n ≤ MAXFILE * BSIZE
  progress : Progress ip off n t s tot t₁ s₁
  lt : tot < n
  inBlock : (off + tot) % BSIZE + bs.length ≤ BSIZE
  found : blockAt s₁ ip (off + tot) ≠ 0

namespace Failed

variable {off n tot : Nat} {bs : List UInt8} (h : Failed ip off n t s tot t₁ s₁ bs)
include h

/-- The state after the failing copy. -/
theorem shows_fill :
    Shows (t₁.fill (blockAt s₁ ip (off + tot)) ((off + tot) % BSIZE) bs)
      (s₁.store ip (off + tot) bs) :=
  h.progress.shows.fill h.progress.changes.maps h.found

theorem maps_store : Maps ip (s₁.store ip (off + tot) bs) :=
  (changes_store h.progress.changes.maps h.found (Nat.le_refl _)).maps

/-- Bytes that the failing copy does not reach. -/
theorem byteOf_fill {x : Nat} (hx : x < MAXFILE * BSIZE) (hb : blockAt s₁ ip x ≠ 0)
    (hout : x < off + tot ∨ off + tot + bs.length ≤ x) :
    (t₁.fill (blockAt s₁ ip (off + tot)) ((off + tot) % BSIZE) bs).byteOf ip x = t₁.byteOf ip x := by
  have hc := changes_store h.progress.changes.maps h.found (Nat.le_refl bs.length)
  have hb' : blockAt (s₁.store ip (off + tot) bs) ip x ≠ 0 := by rwa [hc.blockAt_eq hb]
  rw [h.shows_fill.byteOf_eq h.maps_store hx hb', h.progress.shows.byteOf_eq h.progress.changes.maps hx hb,
    hc.outside x hb hout]

/-- Bytes of the failing copy. -/
theorem byteOf_fill_self {j : Nat} (hx : off + tot + j < MAXFILE * BSIZE) (hj : j < bs.length) :
    bs[j]? = some
      ((t₁.fill (blockAt s₁ ip (off + tot)) ((off + tot) % BSIZE) bs).byteOf ip (off + tot + j)) := by
  have hmaps := h.progress.changes.maps
  have hdiv := (div_mod_of_lt (off + tot) j (by have := h.inBlock; omega)).1
  have hb : blockAt (s₁.store ip (off + tot) bs) ip (off + tot + j) ≠ 0 := by
    rw [blockAt_store hmaps h.found, blockAt, hdiv]
    exact h.found
  rw [h.shows_fill.byteOf_eq h.maps_store hx hb]
  exact byteAt_store hmaps h.found hj h.inBlock

/-- The block numbers are the same before and after the failing copy. -/
theorem blockOf_fill {bn : Nat} (hbn : bn < MAXFILE) :
    (t₁.fill (blockAt s₁ ip (off + tot)) ((off + tot) % BSIZE) bs).blockOf ip bn =
      t₁.blockOf ip bn := by
  rw [h.shows_fill.blockOf_eq h.maps_store hbn, h.progress.shows.blockOf_eq h.progress.changes.maps hbn,
    placeAt_store h.progress.changes.maps h.found]
  rfl

/-- Only the block of the failing copy may differ from the disk. -/
theorem commitView_fill {b : Nat} (hb : b ≠ blockAt s₁ ip (off + tot)) :
    (t₁.fill (blockAt s₁ ip (off + tot)) ((off + tot) % BSIZE) bs).commitView b =
      (t₁.fill (blockAt s₁ ip (off + tot)) ((off + tot) % BSIZE) bs).cache b := by
  rw [commitView_eq_iff]
  refine (h.progress.kept.clean h.clean b).imp_right fun hsame => ?_
  show upd t₁.cache _ _ b = t₁.disk b
  rwa [upd_of_ne hb]

/-- Another block of the file. -/
theorem blockOf_ne {bn : Nat} (hbn : bn < MAXFILE) (hne : bn ≠ (off + tot) / BSIZE) :
    t₁.blockOf ip bn ≠ blockAt s₁ ip (off + tot) := by
  have hmaps := h.progress.changes.maps
  intro heq
  rw [h.progress.shows.blockOf_eq hmaps hbn] at heq
  have hb := h.found
  rw [← heq] at hb
  exact hne (filePlace_inj (hmaps.owns.inj _ _ hb heq)).2

/-- The indirect block. -/
theorem indirect_ne : (t₁.itable ip).din.addrs NDIRECT ≠ blockAt s₁ ip (off + tot) := by
  have hmaps := h.progress.changes.maps
  intro heq
  rw [← h.progress.shows.itable, ← hmaps.placeAt_slot (Nat.le_refl _)] at heq
  exact filePlace_ne_indirect _ _ _ (hmaps.owns.inj _ _ h.found heq.symm)

theorem q_lt : off + tot < MAXFILE * BSIZE := by
  have := h.lt
  have := h.fits
  omega

/-- A failing copy behind the end of the file does no harm. -/
theorem reported_of_behind (hend : (s.itable ip).din.size ≤ (off + tot) / BSIZE * BSIZE) :
    Reported ip (max (s.itable ip).din.size (off + tot)) off tot t
      (t₁.fill (blockAt s₁ ip (off + tot)) ((off + tot) % BSIZE) bs) := by
  have hsmall := h.filled.small
  have hstart := h.start
  have hq := h.q_lt
  have hdiv := Nat.div_add_mod (off + tot) BSIZE
  rw [Nat.mul_comm] at hdiv
  refine ⟨fun x hx hout => ?_, fun bn hbn => ?_, fun _ => h.commitView_fill h.indirect_ne⟩
  · have hlt := lt_size_of_outside hstart hx hout
    have hb := h.filled.full x hlt
    rw [h.byteOf_fill (by omega) (by rwa [h.progress.changes.blockAt_eq hb]) (.inl (by omega)),
      h.progress.byteOf_eq h.shows h.filled.maps (by omega) hb hout]
  · -- the new size is not behind the start of the block
    have hlt : bn * BSIZE < (off + tot) / BSIZE * BSIZE := by
      rcases h.progress.aligned h.lt with h0 | halign
      · omega
      · omega
    have hne : bn ≠ (off + tot) / BSIZE := fun heq => by
      rw [heq] at hlt
      exact Nat.lt_irrefl _ hlt
    have hbn' : bn < MAXFILE :=
      Nat.lt_trans (Nat.lt_of_mul_lt_mul_right hlt) ((Nat.div_lt_iff_lt_mul BSIZE_pos).mpr hq)
    rw [h.blockOf_fill hbn']
    exact h.commitView_fill (h.blockOf_ne hbn' hne)

section Inside

variable (hin : (off + tot) / BSIZE * BSIZE < (s.itable ip).din.size)
include hin

/-- The block of the failing copy is a block of the file. -/
theorem block_there : blockAt s ip (off + tot) ≠ 0 := by
  have hfull := h.filled.full _ hin
  rw [blockAt, Nat.mul_div_cancel _ BSIZE_pos] at hfull
  exact hfull

theorem block_eq : blockAt s₁ ip (off + tot) = blockAt s ip (off + tot) :=
  h.progress.changes.blockAt_eq (h.block_there hin)

/-- The block is in the header of the log only if it was there before the call. -/
theorem names_iff : t₁.lh.names (blockAt s₁ ip (off + tot)) ↔
    t.lh.names (t.blockOf ip ((off + tot) / BSIZE)) := by
  have hq := h.q_lt
  have hbn : (off + tot) / BSIZE < MAXFILE := (Nat.div_lt_iff_lt_mul BSIZE_pos).mpr hq
  rw [h.shows.blockOf_eq h.filled.maps hbn, h.block_eq hin]
  exact ⟨h.progress.only h.lt (h.block_there hin), h.progress.kept.names _⟩

/-- The bytes that were in the buffer. -/
theorem byteOf_before {j : Nat} (hj : j < bs.length) (hx : off + tot + j < MAXFILE * BSIZE) :
    t₁.byteOf ip (off + tot + j) = t.byteOf ip (off + tot + j) := by
  have hdiv := (div_mod_of_lt (off + tot) j (by have := h.inBlock; omega)).1
  refine h.progress.byteOf_eq h.shows h.filled.maps hx ?_ (.inr (by omega))
  rw [blockAt, hdiv]
  exact h.block_there hin

omit hin in
theorem inBlock_lt {j : Nat} (hj : j < bs.length) : off + tot + j < MAXFILE * BSIZE := by
  have hbn : (off + tot) / BSIZE < MAXFILE := (Nat.div_lt_iff_lt_mul BSIZE_pos).mpr h.q_lt
  have hdiv := (div_mod_of_lt (off + tot) j (by have := h.inBlock; omega)).1
  rwa [← hdiv, Nat.div_lt_iff_lt_mul BSIZE_pos] at hbn

omit hin in
/-- A byte of the block as `readi` finds it before the failing copy. -/
theorem cache_eq {j : Nat} (hj : j < bs.length) :
    t₁.cache (blockAt s₁ ip (off + tot)) ((off + tot) % BSIZE + j) = t₁.byteOf ip (off + tot + j) := by
  obtain ⟨hdiv, hmod⟩ := div_mod_of_lt (off + tot) j (by have := h.inBlock; omega)
  have hbn : (off + tot) / BSIZE < MAXFILE := (Nat.div_lt_iff_lt_mul BSIZE_pos).mpr h.q_lt
  rw [State.byteOf, hdiv, hmod, h.progress.shows.blockOf_eq h.progress.changes.maps hbn]
  rfl

/-- The buffer of the block is as it was exactly if the bytes of the copy are those in it. -/
theorem cache_fill_iff :
    (t₁.cache (blockAt s₁ ip (off + tot))).write ((off + tot) % BSIZE) bs =
        t₁.cache (blockAt s₁ ip (off + tot)) ↔
      ∀ j < bs.length, bs[j]? = some (t.byteOf ip (off + tot + j)) := by
  rw [ByteMem.write_eq_self_iff]
  constructor
  · intro hread j hj
    rw [← h.byteOf_before hin hj (h.inBlock_lt hj), ← h.cache_eq hj, ← ByteMem.getElem?_read hj, hread]
  · intro hall
    refine List.ext_getElem? fun j => ?_
    by_cases hj : j < bs.length
    · rw [ByteMem.getElem?_read hj, h.cache_eq hj, h.byteOf_before hin hj (h.inBlock_lt hj), hall j hj]
    · rw [List.getElem?_eq_none (by rw [ByteMem.read_length]; omega),
        List.getElem?_eq_none (by omega)]

/-- The block of the failing copy on the disk after the commit. -/
theorem commitView_block_iff :
    (t₁.fill (blockAt s₁ ip (off + tot)) ((off + tot) % BSIZE) bs).commitView
        (blockAt s₁ ip (off + tot)) =
      (t₁.fill (blockAt s₁ ip (off + tot)) ((off + tot) % BSIZE) bs).cache
        (blockAt s₁ ip (off + tot)) ↔
    t.lh.names (t.blockOf ip ((off + tot) / BSIZE)) ∨
      ∀ j < bs.length, bs[j]? = some (t.byteOf ip (off + tot + j)) := by
  rw [commitView_eq_iff, ← h.names_iff hin, ← h.cache_fill_iff hin]
  show t₁.lh.names _ ∨ upd t₁.cache _ _ _ = t₁.disk _ ↔ _
  rw [upd_self]
  rcases h.progress.kept.clean h.clean (blockAt s₁ ip (off + tot)) with hn | hsame
  · exact iff_of_true (.inl hn) (.inl hn)
  · rw [hsame]

/-- A failing copy in a block of the file. -/
theorem reported_iff_inside :
    Reported ip (max (s.itable ip).din.size (off + tot)) off tot t
        (t₁.fill (blockAt s₁ ip (off + tot)) ((off + tot) % BSIZE) bs) ↔
      ∀ j < bs.length, bs[j]? = some (t.byteOf ip (off + tot + j)) ∨
        (s.itable ip).din.size ≤ off + tot + j ∧
          t.lh.names (t.blockOf ip ((off + tot) / BSIZE)) := by
  have hsmall := h.filled.small
  have hstart := h.start
  have hq := h.q_lt
  have hbn : (off + tot) / BSIZE < MAXFILE := (Nat.div_lt_iff_lt_mul BSIZE_pos).mpr hq
  have hself : t₁.blockOf ip ((off + tot) / BSIZE) = blockAt s₁ ip (off + tot) :=
    h.progress.shows.blockOf_eq h.progress.changes.maps hbn
  constructor
  · intro hr j hj
    by_cases hlt : off + tot + j < (s.itable ip).din.size
    · refine .inl ?_
      rw [h.byteOf_fill_self (h.inBlock_lt hj) hj,
        hr.bytes (off + tot + j) (by omega) (.inr (by omega))]
    · have hdisk := hr.disk ((off + tot) / BSIZE) (by omega)
      rw [h.blockOf_fill hbn, hself, h.commitView_block_iff hin] at hdisk
      rcases hdisk with hn | hall
      · exact .inr ⟨by omega, hn⟩
      · exact .inl (hall j hj)
  · intro hall
    refine ⟨fun x hx hout => ?_, fun bn hbn' => ?_, fun _ => h.commitView_fill h.indirect_ne⟩
    · have hlt := lt_size_of_outside hstart hx hout
      by_cases hx' : off + tot ≤ x ∧ x < off + tot + bs.length
      · obtain ⟨j, rfl⟩ := Nat.exists_eq_add_of_le hx'.1
        have hj : j < bs.length := by omega
        have hbyte := (hall j hj).resolve_right fun hc => by omega
        rw [h.byteOf_fill_self (h.inBlock_lt hj) hj] at hbyte
        exact Option.some.inj hbyte
      · have hb := h.filled.full x hlt
        rw [h.byteOf_fill (by omega) (by rwa [h.progress.changes.blockAt_eq hb]) (by omega),
          h.progress.byteOf_eq h.shows h.filled.maps (by omega) hb hout]
    · have hmax : bn < MAXFILE := Nat.lt_of_mul_lt_mul_right (a := BSIZE) (by omega)
      rw [h.blockOf_fill hmax]
      by_cases hne : bn = (off + tot) / BSIZE
      · rw [hne, hself, h.commitView_block_iff hin]
        by_cases hn : t.lh.names (t.blockOf ip ((off + tot) / BSIZE))
        · exact .inl hn
        · exact .inr fun j hj => (hall j hj).resolve_right fun hc => hn hc.2
      · exact h.commitView_fill (h.blockOf_ne hmax hne)

end Inside

end Failed

/-! ## writei -/

/-- What is left of the buffers when the loop ends. -/
theorem LoopEnds.shows {fuel off pos n tot : Nat}
    (h : LoopEnds ip src fuel off pos n t s tot t') (ho : 1 ≤ t.outstanding) :
    tot ≤ n ∧ ∃ s', Shows t' s' ∧ Maps ip s' ∧ 1 ≤ t'.outstanding ∧
      (t'.itable ip).inum = (s.itable ip).inum ∧
      (t'.itable ip).din.size = (s.itable ip).din.size := by
  obtain ⟨t₁, s₁, hp, hend⟩ := h
  obtain ⟨a, ha⟩ := hp.changes.table
  have hentry : t₁.itable ip =
      { s.itable ip with din := { (s.itable ip).din with addrs := a } } := by
    rw [← hp.shows.itable, ha, upd_self]
  have ho₁ := hp.kept.outstanding_le ho
  refine ⟨hp.le, ?_⟩
  rcases hend with ⟨rfl, -, -⟩ | ⟨rfl, -, -, -⟩ | ⟨m, -, -, -, hb, rfl⟩
  · exact ⟨s₁, hp.shows, hp.changes.maps, ho₁, by rw [hentry], by rw [hentry]⟩
  · exact ⟨s₁, hp.shows, hp.changes.maps, ho₁, by rw [hentry], by rw [hentry]⟩
  · refine ⟨_, hp.shows.fill hp.changes.maps hb,
      (changes_store hp.changes.maps hb (Nat.le_refl _)).maps, ho₁, ?_, ?_⟩
    · show (t₁.itable ip).inum = _
      rw [hentry]
    · show (t₁.itable ip).din.size = _
      rw [hentry]

/-- The loop has changed only what it reports exactly if a failing copy does no harm. -/
theorem LoopEnds.reported_iff {off n tot : Nat} (h : LoopEnds ip src n off 0 n t s tot t')
    (hs : Shows t s) (hf : Filled ip s) (hclean : t.Clean) (hoff : off ≤ (s.itable ip).din.size)
    (hmax : off + n ≤ MAXFILE * BSIZE) :
    Reported ip (max (s.itable ip).din.size (off + tot)) off tot t t' ↔ Harmless ip src off n t := by
  obtain ⟨t₁, s₁, hp, hend⟩ := h
  rw [Harmless, ← hs.itable]
  rcases hend with ⟨rfl, -, hnone⟩ | ⟨rfl, hlt, hzero, hlater⟩ | ⟨m, hlt, hfail, hlen, hb, rfl⟩
  · refine iff_of_true (hp.reported hs hf hclean hoff) fun pos m hfail => ?_
    rw [hnone] at hfail
    cases hfail
  · -- there is no block for the next byte, so that it lies behind the end of the file
    refine iff_of_true (hp.reported hs hf hclean hoff) fun pos m hfail hin => ?_
    have hpos := hlater pos m hfail
    have hdiv : (off + tot) / BSIZE ≤ (off + pos) / BSIZE := Nat.div_le_div_right (by omega)
    have hle := Nat.mul_le_mul_right BSIZE hdiv
    have hfull := hf.full ((off + tot) / BSIZE * BSIZE) (by omega)
    rw [blockAt, Nat.mul_div_cancel _ BSIZE_pos] at hfull
    exact absurd hzero hfull
  · rw [Nat.zero_add] at hfail
    have hbytes := src.le tot m
    have hF : Failed ip off n t s tot t₁ s₁ (src.bytes tot m) :=
      ⟨hs, hf, hclean, hoff, hmax, hp, hlt, by omega, hb⟩
    rw [Nat.zero_add]
    by_cases hin : (off + tot) / BSIZE * BSIZE < (s.itable ip).din.size
    · rw [hF.reported_iff_inside hin]
      constructor
      · intro hall pos m' hfail' _
        rw [hfail] at hfail'
        cases hfail'
        exact hall
      · exact fun hharm => hharm tot m hfail hin
    · refine iff_of_true (hF.reported_of_behind (by omega)) fun pos m' hfail' hin' => ?_
      rw [hfail] at hfail'
      cases hfail'
      exact absurd hin' hin

/-- `iupdate` changes no block of a file. -/
theorem Reported.iupdate_iff {size off k ib : Nat} {m : ByteMem} {t₂ t₃ : State}
    (hs : Shows t' s') (hm : Maps ip s') (hsize : size ≤ MAXFILE * BSIZE) (hput : Put ib m t₂ t₃)
    (hib : ib < nmeta) (hib0 : ib ≠ 0) (haddrs : (t₂.itable ip).din.addrs = (t'.itable ip).din.addrs)
    (hcache : t₂.cache = t'.cache) (hdisk : t₂.disk = t'.disk) (hlh : t₂.lh = t'.lh) :
    Reported ip size off k t t₃ ↔ Reported ip size off k t t' := by
  -- the numbers of the blocks of the file
  have hind : (t'.itable ip).din.addrs NDIRECT ≠ ib := by
    rw [← hs.itable, ← hm.placeAt_slot (Nat.le_refl _)]
    intro heq
    have := hm.owns.range (.slot (s'.itable ip).inum NDIRECT) (by rw [heq]; exact hib0)
    omega
  have hblock : ∀ bn < MAXFILE, t'.blockOf ip bn ≠ ib := by
    intro bn hbn heq
    rw [hs.blockOf_eq hm hbn] at heq
    have := hm.owns.range _ (heq ▸ hib0)
    omega
  have hsame : ∀ b, b ≠ ib → t₃.cache b = t'.cache b := fun b hb => by
    rw [hput.cache, upd_of_ne hb, hcache]
  have haddrs₃ : (t₃.itable ip).din.addrs = (t'.itable ip).din.addrs := by rw [hput.itable, haddrs]
  have hblockOf : ∀ bn, t₃.blockOf ip bn = t'.blockOf ip bn := fun bn => by
    rw [State.blockOf, State.blockOf, haddrs₃, hsame _ hind]
  have hview : ∀ b, b ≠ ib →
      (t₃.commitView b = t₃.cache b ↔ t'.commitView b = t'.cache b) := fun b hb => by
    rw [commitView_eq_iff, commitView_eq_iff, hsame b hb, hput.kept.disk, hdisk]
    refine or_congr_left ⟨fun hn => ?_, fun hn => hput.kept.names b (hlh ▸ hn)⟩
    rw [← hlh]
    exact (hput.kept.only b hn).resolve_right hb
  have hbn : ∀ x < size, x / BSIZE < MAXFILE := fun x hx =>
    (Nat.div_lt_iff_lt_mul BSIZE_pos).mpr (by omega)
  have hbytes : ∀ x < size, t₃.byteOf ip x = t'.byteOf ip x := fun x hx => by
    rw [State.byteOf, State.byteOf, hblockOf, hsame _ (hblock _ (hbn x hx))]
  have hdata : ∀ bn, bn * BSIZE < size → t'.blockOf ip bn ≠ ib := fun bn hlt =>
    hblock bn (Nat.lt_of_mul_lt_mul_right (a := BSIZE) (by omega))
  constructor
  · intro h
    refine ⟨fun x hx hout => ?_, fun bn hlt => ?_, fun ha => ?_⟩
    · rw [← hbytes x hx]
      exact h.bytes x hx hout
    · have hd := h.disk bn hlt
      rw [hblockOf] at hd
      exact (hview _ (hdata bn hlt)).mp hd
    · have hd := h.indirect (by rwa [haddrs₃])
      rw [haddrs₃] at hd
      exact (hview _ hind).mp hd
  · intro h
    refine ⟨fun x hx hout => ?_, fun bn hlt => ?_, fun ha => ?_⟩
    · rw [hbytes x hx]
      exact h.bytes x hx hout
    · rw [hblockOf]
      exact (hview _ (hdata bn hlt)).mpr (h.disk bn hlt)
    · rw [haddrs₃] at ha ⊢
      exact (hview _ hind).mpr (h.indirect ha)

/-- The state after `if(off > ip->size) ip->size = off`. -/
def State.resize (t : State) (ip : InodePtr) (off : Nat) : State :=
  { t with
    itable := upd t.itable ip
      { t.itable ip with
        din :=
          if off > (t.itable ip).din.size then { (t.itable ip).din with size := off }
          else (t.itable ip).din } }

theorem State.resize_self (t : State) (ip : InodePtr) (off : Nat) :
    (t.resize ip off).itable ip =
      { t.itable ip with
        din :=
          if off > (t.itable ip).din.size then { (t.itable ip).din with size := off }
          else (t.itable ip).din } := upd_self ..

theorem State.resize_size (t : State) (ip : InodePtr) (off : Nat) :
    ((t.resize ip off).itable ip).din.size = max (t.itable ip).din.size off := by
  rw [State.resize_self]
  simp only
  split
  · rename_i hgt
    exact (Nat.max_eq_right (Nat.le_of_lt hgt)).symm
  · rename_i hle
    exact (Nat.max_eq_left (Nat.le_of_not_lt hle)).symm

theorem State.resize_addrs (t : State) (ip : InodePtr) (off : Nat) :
    ((t.resize ip off).itable ip).din.addrs = (t.itable ip).din.addrs := by
  rw [State.resize_self]
  simp only
  split <;> rfl

theorem State.resize_inum (t : State) (ip : InodePtr) (off : Nat) :
    ((t.resize ip off).itable ip).inum = (t.itable ip).inum := by
  rw [State.resize_self]

/-- The inode blocks lie before the data blocks. -/
theorem iblock_mkfs {i : Nat} (hi : i < NINODES) :
    mkfsSuperblock.iblock i < nmeta ∧ mkfsSuperblock.iblock i ≠ 0 := by
  have hi' : i < 200 := hi
  have hval : mkfsSuperblock.iblock i = i / 16 + 32 := rfl
  have hmeta : nmeta = 46 := rfl
  omega

/-- Inside of a transaction, on a file without holes, `writei` has changed only what it reports exactly
    if it rejects its arguments or the first copy that fails does no harm. -/
theorem writei_reports_iff (hf : Filled ip t.fs) (hinum : (t.itable ip).inum < NINODES)
    (hclean : t.Clean) (ho : 1 ≤ t.outstanding) (src : Source) (off n : Nat) :
    (writei mkfsSuperblock ip src off n).Ends TooBig
      (fun r t' => Reported ip (t'.itable ip).din.size off r.toNat t t' ↔
        (t.itable ip).din.size < off ∨ MAXFILE * BSIZE < off + n ∨ Harmless ip src off n t) t := by
  have hs := shows_fs t
  have hsmall : (t.itable ip).din.size ≤ MAXFILE * BSIZE := hf.small
  have hmax : MAXFILE * BSIZE = 274432 := rfl
  -- nothing has happened
  have hsame : ∀ size, Reported ip size off (-1 : Int).toNat t t := fun size =>
    ⟨fun _ _ _ => rfl, fun bn _ => commitView_eq_iff.mpr (hclean _),
      fun _ => commitView_eq_iff.mpr (hclean _)⟩
  rw [writei, inode, Prog.ends_bind, Prog.ends_gets]
  split
  · rename_i hc
    rw [Prog.ends_pure]
    exact iff_of_true (hsame _) (by omega)
  · rename_i hc
    split
    · rename_i hlong
      rw [Prog.ends_pure]
      exact iff_of_true (hsame _) (.inr (.inl hlong))
    · rename_i hlong
      have hoff : off ≤ (t.itable ip).din.size := by omega
      rw [Prog.ends_bind]
      refine (writeLoop_ends hs hf.maps ho (Nat.le_refl n) (by omega)).mono fun tot t₁ hloop => ?_
      obtain ⟨hle, s₁, hs₁, hm₁, ho₁, hinum₁, hsize₁⟩ := hloop.shows ho
      have hiff := hloop.reported_iff hs hf hclean hoff (by omega)
      rw [Prog.ends_bind, setDin, setInode, Prog.ends_modify, Prog.ends_bind, iupdate, inode,
        Prog.ends_bind, Prog.ends_gets, Prog.ends_bind]
      refine put_ends ho₁ fun t₃ hput => ?_
      rw [Prog.ends_pure]
      have hput' : Put (mkfsSuperblock.iblock ((t₁.resize ip (off + tot)).itable ip).inum) _
          (t₁.resize ip (off + tot)) t₃ := hput
      have hsize : (t₃.itable ip).din.size = max (t.itable ip).din.size (off + tot) := by
        rw [hput'.itable, State.resize_size, hsize₁]
        rfl
      have hinum₂ : ((t₁.resize ip (off + tot)).itable ip).inum < NINODES := by
        rw [State.resize_inum, hinum₁]
        exact hinum
      obtain ⟨hlow, hne⟩ := iblock_mkfs hinum₂
      rw [hsize, Int.toNat_natCast, Reported.iupdate_iff hs₁ hm₁ (by omega) hput' hlow hne
        (State.resize_addrs t₁ ip _) rfl rfl rfl,
        or_iff_right (by omega : ¬ (t.itable ip).din.size < off), or_iff_right hlong]
      exact hiff

/-! ## A buffer that ends at an invalid page -/

/-- `PGSIZE` of `kernel/riscv.h`. -/
def PGSIZE : Nat := 4096

/-- `copyin` from user address `addr`: it copies page by page and fails at the first page that is not
    valid. -/
def userSource (mem : Nat → UInt8) (valid : Nat → Bool) (addr : Nat) : Source where
  bytes pos m := ((List.range m).takeWhile fun k => valid ((addr + pos + k) / PGSIZE)).map
    fun k => mem (addr + pos + k)
  ok pos m := (List.range m).all fun k => valid ((addr + pos + k) / PGSIZE)
  le pos m := by
    rw [List.length_map]
    exact Nat.le_trans (List.takeWhile_sublist _).length_le (by simp)
  all pos m h := by
    rw [List.length_map, List.takeWhile_eq_self_iff.mpr (List.all_eq_true.mp h), List.length_range]

/-- A file of one block. -/
def oneBlock : Dinode := ⟨.file, 0, 0, 1, BSIZE, fun k => if k = 0 then nmeta else 0⟩

/-- The buffers of a disk with this file as inode 2. -/
def oneBlockDisk : Nat → ByteMem :=
  upd (upd (fun _ _ => 0) Mkfs.bmapstart (Mkfs.firstBits (nmeta + 1))) (mkfsSuperblock.iblock 2)
    (ByteMem.write (fun _ => 0) (Mkfs.islot 2) (Mkfs.encodeDinode oneBlock))

/-- The file is locked, and a transaction is running. -/
def oneBlockFile : State where
  cache := oneBlockDisk
  disk := oneBlockDisk
  lh := ⟨0, fun _ => 0⟩
  outstanding := 1
  itable ip := if ip.val = 0 then ⟨2, 1, true, true, oneBlock⟩ else ⟨0, 0, false, false, .zero⟩
  ftable _ := ⟨.none, 0, false, false, ⟨0, Fs.NINODE_pos⟩, 0, 0⟩
  mem _ := 0
  stored := 0
  passed := []

theorem dinode_oneBlockFile :
    oneBlockFile.fs.dinode = upd (fun _ => Dinode.zero) 2 oneBlock := by
  funext i
  show (if i < NINODES then
    Mkfs.loadDinode (oneBlockDisk (mkfsSuperblock.iblock i)) (Mkfs.islot i) else Dinode.zero) = _
  by_cases hi : i = 2
  · rw [hi, upd_self, if_pos (by decide), oneBlockDisk, upd_self]
    refine Mkfs.loadDinode_write _ _ ⟨by decide, by decide, by decide, by decide, fun k => ?_, fun k hk => ?_⟩
    · show (if k = 0 then nmeta else 0) < _
      split <;> decide
    · exact if_neg (by omega)
  · rw [upd_of_ne hi]
    split
    · rename_i hlt
      have hlt' : i < 200 := hlt
      have hval : mkfsSuperblock.iblock i = i / 16 + 32 := rfl
      by_cases hblock : i / 16 = 0
      · -- another inode in the same block
        have heq : mkfsSuperblock.iblock i = mkfsSuperblock.iblock 2 := by
          rw [hval, hblock]
          rfl
        rw [heq, oneBlockDisk, upd_self, Mkfs.loadDinode_write_of_ne, Mkfs.loadDinode_zero]
        show i % 16 ≠ 2
        omega
      · have hne : mkfsSuperblock.iblock i ≠ mkfsSuperblock.iblock 2 := by
          show i / 16 + 32 ≠ 32
          omega
        have hne' : mkfsSuperblock.iblock i ≠ Mkfs.bmapstart := by
          show i / 16 + 32 ≠ 45
          omega
        rw [oneBlockDisk, upd_of_ne hne, upd_of_ne hne', Mkfs.loadDinode_zero]
    · rfl

theorem filled_oneBlockFile : Filled ⟨0, by decide⟩ oneBlockFile.fs := by
  have hentry : oneBlockFile.fs.itable ⟨0, by decide⟩ = ⟨2, 1, true, true, oneBlock⟩ := rfl
  have hlogical : logical oneBlockFile.fs ⟨0, by decide⟩ =
      upd (fun _ => Dinode.zero) 2 oneBlock := by
    rw [logical, hentry, dinode_oneBlockFile, upd_upd]
  have hbit : ∀ b < FSSIZE, oneBlockFile.fs.bitmap b = decide (b < nmeta + 1) := by
    intro b hb
    rw [(shows_fs oneBlockFile).bitmap b hb, ← Mkfs.bit_firstBits]
    congr 1
  refine ⟨⟨⟨Nat.one_pos, rfl, fun ip' hne hl => ?_⟩, fun _ hx => absurd hx List.not_mem_nil, ?_, ?_⟩, ?_,
    fun x hx => ?_⟩
  · have hval : ip'.val ≠ 0 := fun h0 => hne (Fin.ext h0)
    have hzero : (oneBlockFile.fs.itable ip').ref = 0 := by
      show (if ip'.val = 0 then _ else _ : Inode).ref = 0
      rw [if_neg hval]
    rw [hzero] at hl
    exact absurd hl (Nat.lt_irrefl 0)
  · rw [hentry]
    decide
  · rw [placeAt, hlogical]
    exact owns_one (by decide) rfl _ hbit
  · rw [hentry]
    decide
  · rw [hentry] at hx
    have hx0 : x / BSIZE = 0 := Nat.div_eq_of_lt hx
    rw [blockAt, hx0, placeAt, hlogical, place_one (by decide) rfl, hentry]
    decide

theorem clean_oneBlockFile : oneBlockFile.Clean := fun _ => .inr rfl

theorem writei_reports_iff_oneBlock :
    Filled ⟨0, by decide⟩ oneBlockFile.fs ∧ oneBlockFile.Clean ∧
    (writei mkfsSuperblock ⟨0, by decide⟩ (userSource (fun _ => 7) (fun _ => true) 4086) 0 20).Ends TooBig
      (fun r t' => Reported ⟨0, by decide⟩ (t'.itable ⟨0, by decide⟩).din.size 0 r.toNat oneBlockFile t')
      oneBlockFile := by
  refine ⟨filled_oneBlockFile, clean_oneBlockFile, ?_⟩
  refine (writei_reports_iff filled_oneBlockFile (by decide) clean_oneBlockFile (by decide)
    (userSource (fun _ => 7) (fun _ => true) 4086) 0 20).mono fun r t' h => h.mpr (.inr (.inr ?_))
  intro pos m hfail
  have hnone : firstFail (userSource (fun _ => 7) (fun _ => true) 4086) 20 0 0 20 = none := by decide
  rw [hnone] at hfail
  cases hfail

/-- The buffer starts ten bytes before the end of the only valid page. The ten bytes are in the file
    although `writei` returns 0, and after the commit they are not on the disk. -/
theorem writei_leaves_bytes :
    Filled ⟨0, by decide⟩ oneBlockFile.fs ∧ oneBlockFile.Clean ∧
    ∃ t', (writei mkfsSuperblock ⟨0, by decide⟩ (userSource (fun _ => 7) (fun p => p == 0) 4086) 0 20).exec
        oneBlockFile = .ok 0 t' ∧
      oneBlockFile.byteOf ⟨0, by decide⟩ 0 = 0 ∧ t'.byteOf ⟨0, by decide⟩ 0 = 7 ∧
      t'.commitView nmeta 0 = 0 ∧
      ¬ Reported ⟨0, by decide⟩ (t'.itable ⟨0, by decide⟩).din.size 0 0 oneBlockFile t' := by
  refine ⟨filled_oneBlockFile, clean_oneBlockFile, ?_⟩
  have hold : oneBlockFile.byteOf ⟨0, by decide⟩ 0 = 0 := by decide +kernel
  have hrun : (match (writei mkfsSuperblock ⟨0, by decide⟩
        (userSource (fun _ => 7) (fun p => p == 0) 4086) 0 20).exec oneBlockFile with
      | .ok r t' => decide (r = 0 ∧ t'.byteOf ⟨0, by decide⟩ 0 = 7 ∧ t'.commitView nmeta 0 = 0 ∧
        0 < (t'.itable ⟨0, by decide⟩).din.size)
      | .stop _ => false) = true := by decide +kernel
  cases hexec : (writei mkfsSuperblock ⟨0, by decide⟩
      (userSource (fun _ => 7) (fun p => p == 0) 4086) 0 20).exec oneBlockFile with
  | stop why =>
    rw [hexec] at hrun
    cases hrun
  | ok r t' =>
    rw [hexec] at hrun
    obtain ⟨rfl, hbyte, hdisk, hsize⟩ := of_decide_eq_true hrun
    refine ⟨t', rfl, hold, hbyte, hdisk, fun h => ?_⟩
    have hsame := h.bytes 0 hsize (.inr (Nat.le_refl 0))
    rw [hold, hbyte] at hsame
    exact absurd hsame (by decide)

end Xv6.InodeIo
