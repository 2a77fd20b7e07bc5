import Xv6.Kernel.InodeIo

/-!
# Reading a file without holes

`blockOf t ip bn` is the block that `bmap` finds. When there is one, `bmap` changes nothing
(`bmap_found`), so that `readi` of a file without holes calls neither `balloc` nor `log_write`.
-/

namespace Xv6.InodeIo

open Fs

variable {sb : Superblock} {ip : InodePtr} {t : State} {I : State → Prop} {E : Stop → Prop}

/-- The number of the block that `bmap` finds; 0 if there is none. -/
def State.blockOf (t : State) (ip : InodePtr) (bn : Nat) : Nat :=
  if bn < NDIRECT then (t.itable ip).din.addrs bn
  else if (t.itable ip).din.addrs NDIRECT = 0 then 0
  else word (t.cache ((t.itable ip).din.addrs NDIRECT)) (bn - NDIRECT)

/-- Every block below the size of the file has a number. -/
def State.NoHoles (t : State) (ip : InodePtr) : Prop :=
  ∀ bn, bn * BSIZE < (t.itable ip).din.size → t.blockOf ip bn ≠ 0

/-- The state after `ip->addrs[i] = addr`. -/
def State.setAddr (t : State) (ip : InodePtr) (i addr : Nat) : State :=
  { t with
    itable := upd t.itable ip
      { t.itable ip with
        din := { (t.itable ip).din with addrs := upd (t.itable ip).din.addrs i addr } } }

theorem State.setAddr_addrs (t : State) (ip : InodePtr) (i addr k : Nat) :
    ((t.setAddr ip i addr).itable ip).din.addrs k =
      if k = i then addr else (t.itable ip).din.addrs k := by
  show (upd t.itable ip _ ip).din.addrs k = _
  rw [upd_self]
  exact upd_apply ..

/-- `bmap` changes nothing when the block is there. -/
theorem bmap_found {bn : Nat} {Q : Nat → State → Prop} (h : t.blockOf ip bn ≠ 0)
    (hbn : bn < MAXFILE) (hI : I t) (hQ : Q (t.blockOf ip bn) t) :
    (bmap sb ip bn).wp I E Q t := by
  rw [State.blockOf] at h hQ
  rw [bmap]
  by_cases hd : bn < NDIRECT
  · rw [if_pos hd] at h hQ ⊢
    simp only [addrBlock, inode, Prog.wp_bind, Prog.wp_gets, if_neg h, Prog.wp_pure]
    exact ⟨hI, hI, hI, hQ⟩
  · rw [if_neg hd] at h hQ
    have ha : (t.itable ip).din.addrs NDIRECT ≠ 0 := fun h0 => h (if_pos h0)
    rw [if_neg ha] at h hQ
    simp only [if_neg hd, if_pos (sub_NDIRECT_lt hbn), addrBlock, entryBlock, inode, bread, Prog.wp_bind,
      Prog.wp_gets, if_neg ha, if_neg h, Prog.wp_pure]
    exact ⟨hI, hI, hI, hI, hI, hI, hQ⟩

/-! ## readi -/

/-- From `t` to `t'` only `k` bytes of the memory at the destination were stored. -/
structure Copied (t : State) (k : Nat) (t' : State) : Prop where
  same : t' = { t with mem := t'.mem, stored := t.stored + k }
  mem : k = 0 → t'.mem = t.mem

theorem Copied.refl (t : State) : Copied t 0 t := ⟨rfl, fun _ => rfl⟩

theorem Copied.trans {t' t'' : State} {k l : Nat} (h : Copied t k t') (h' : Copied t' l t'') :
    Copied t (k + l) t'' := by
  refine ⟨?_, fun h0 => (h'.mem (by omega)).trans (h.mem (by omega))⟩
  rw [h'.same, h.same]
  simp only [Nat.add_assoc]

variable {t' : State} {k : Nat}

theorem Copied.stored (h : Copied t k t') : t'.stored = t.stored + k := by
  rw [h.same]

theorem Copied.itable (h : Copied t k t') : t'.itable = t.itable := by
  rw [h.same]

theorem Copied.ftable (h : Copied t k t') : t'.ftable = t.ftable := by
  rw [h.same]

theorem Copied.blockOf (h : Copied t k t') (bn : Nat) :
    t'.blockOf ip bn = t.blockOf ip bn := by
  rw [h.same]
  rfl

theorem copyout_ends {dst : Dest} {pos m : Nat} {bs : List UInt8} {Q : Bool → State → Prop}
    (hQ : ∀ t', Copied t (dst.copied pos m) t' → Q (decide (dst.copied pos m = m)) t') :
    (copyout dst pos m bs).Ends E Q t := by
  rw [copyout, Prog.ends_atomic]
  refine hQ _ ⟨rfl, fun h0 => ?_⟩
  rw [h0, List.take_zero]
  exact ByteMem.write_eq_self_iff.mpr rfl

/-- The result of `readi` for `n` bytes, when `k` bytes were stored. -/
def ReadResult (dst : Dest) (off tot n k : Nat) (r : Int) : Prop :=
  (r = tot + n ∧ k = n ∨ r = -1 ∧ k < n) ∧
  (n ≠ 0 → (k = 0 ↔ dst.copied tot (min n (BSIZE - off % BSIZE)) = 0))

theorem readLoop_ends {dst : Dest} {fuel off tot n : Nat} (hfuel : n ≤ fuel)
    (hmax : off + n ≤ MAXFILE * BSIZE)
    (hfull : ∀ x, off ≤ x → x < off + n → t.blockOf ip (x / BSIZE) ≠ 0) :
    (readLoop sb ip dst fuel off tot n).Ends E
      (fun r t' => ∃ k, Copied t k t' ∧ ReadResult dst off tot n k r) t := by
  induction fuel generalizing t off tot n with
  | zero =>
    obtain rfl : n = 0 := by omega
    rw [readLoop, Prog.ends_pure]
    exact ⟨0, .refl t, .inl ⟨by simp, rfl⟩, fun h => absurd rfl h⟩
  | succ fuel ih =>
    rw [readLoop]
    split
    · rename_i hz
      subst hz
      rw [Prog.ends_pure]
      exact ⟨0, .refl t, .inl ⟨by simp, rfl⟩, fun h => absurd rfl h⟩
    · rename_i hz
      have hpos : 0 < BSIZE := by decide
      have hbn : off / BSIZE < MAXFILE := (Nat.div_lt_iff_lt_mul hpos).mpr (by omega)
      have hmod : off % BSIZE < BSIZE := Nat.mod_lt _ hpos
      have hfound := hfull off (Nat.le_refl _) (by omega)
      rw [Prog.ends_bind]
      refine bmap_found hfound hbn trivial ?_
      rw [if_neg hfound, bread]
      simp only [Prog.ends_bind, Prog.ends_gets]
      refine copyout_ends fun t₁ h₁ => ?_
      obtain ⟨m, hm⟩ : ∃ m, min n (BSIZE - off % BSIZE) = m := ⟨_, rfl⟩
      simp only [ReadResult, hm] at h₁ ih ⊢
      have hle := dst.le tot m
      by_cases hok : dst.copied tot m = m
      · -- the piece is complete
        rw [hok] at h₁ ⊢
        simp only [decide_true, if_true]
        refine (ih (by omega) (by omega) fun x hlo hhi => ?_).mono ?_
        · rw [h₁.blockOf]
          exact hfull x (by omega) (by omega)
        · rintro r t' ⟨k, hk, hr, _⟩
          refine ⟨m + k, h₁.trans hk, ?_, fun _ => by omega⟩
          rcases hr with ⟨hr, hkn⟩ | ⟨hr, hkn⟩
          · exact .inl ⟨by omega, by omega⟩
          · exact .inr ⟨hr, by omega⟩
      · simp only [hok, decide_false, Bool.false_eq_true, if_false, Prog.ends_pure]
        exact ⟨_, h₁, .inr ⟨trivial, by omega⟩, fun _ => Iff.rfl⟩

/-- The number of bytes that `readi` is asked for, cut at the end of the file. -/
def wanted (size off n : Nat) : Nat :=
  if off > size ∨ (off + n) % 2 ^ 32 < off then 0 else min n (size - off)

/-- `readi` of a file without holes changes nothing but the memory at the destination. -/
theorem readi_ends {dst : Dest} {off n : Nat} (hfull : t.NoHoles ip)
    (hsmall : (t.itable ip).din.size ≤ MAXFILE * BSIZE) :
    (readi sb ip dst off n).Ends E
      (fun r t' => ∃ k, Copied t k t' ∧
        ReadResult dst off 0 (wanted (t.itable ip).din.size off n) k r) t := by
  rw [readi, inode, Prog.ends_bind, Prog.ends_gets]
  split
  · rename_i hc
    rw [Prog.ends_pure, wanted, if_pos hc]
    exact ⟨0, .refl t, .inl ⟨rfl, rfl⟩, fun h => absurd rfl h⟩
  · rename_i hc
    have hn : (if off + n > (t.itable ip).din.size then (t.itable ip).din.size - off else n) =
        wanted (t.itable ip).din.size off n := by
      rw [wanted, if_neg hc]
      split <;> omega
    simp only [hn]
    have hle : off + wanted (t.itable ip).din.size off n ≤ (t.itable ip).din.size := by
      rw [wanted, if_neg hc]
      omega
    refine readLoop_ends (Nat.le_refl _) (by omega) fun x _ hx => hfull _ ?_
    have := Nat.div_mul_le_self x BSIZE
    omega

end Xv6.InodeIo
