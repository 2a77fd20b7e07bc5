import Mathlib.Data.List.GetD
import Xv6.Mkfs.Format
import Xv6.Spec.Bmap

/-!
# Files in the order of their blocks

`mkfs` takes the data blocks one after the other. `Stores D data fb c cap` says that the
inodes `D` and the blocks `data` hold the contents `c`: inode `i` has its first `cap i` blocks, the
blocks from `nmeta` to `fb` are the ones in use, each in one place, and the
others are still zero. A file grows by one block (`Stores.slot`, `Stores.entry`,
`Stores.indirect`) and by bytes behind its end (`Stores.append`).
-/

namespace Xv6.Mkfs

open Fs

/-- The number of blocks for `n` bytes. -/
def blocks (n : Nat) : Nat := (n + BSIZE - 1) / BSIZE

/-- The number of blocks that a file of `k` blocks takes, with its indirect block. -/
def need (k : Nat) : Nat := if NDIRECT < k then k + 1 else k

theorem need_le_succ (k : Nat) : need k ≤ need (k + 1) := by
  simp only [need]
  split <;> split <;> omega

theorem need_mono {k k' : Nat} (h : k ≤ k') : need k ≤ need k' := by
  induction h with
  | refl => exact Nat.le_refl _
  | step _ ih => exact Nat.le_trans ih (need_le_succ _)

theorem blocks_mono {n n' : Nat} (h : n ≤ n') : blocks n ≤ blocks n' :=
  Nat.div_le_div_right (by omega)

/-- The contents `c` in the blocks up to `fb`, with `cap i` blocks for inode `i`. -/
structure Stores (D : Nat → Dinode) (data : Nat → ByteMem) (fb : Nat) (c : Nat → List UInt8)
    (cap : Nat → Nat) : Prop where
  owns : Owns (place D data) (fun b => decide (b < fb)) nmeta FSSIZE
  le : fb ≤ FSSIZE
  short : ∀ i, (c i).length ≤ cap i * BSIZE
  blocks : ∀ i n, (D i).type ≠ .free → n < MAXFILE → (place D data (filePlace i n) ≠ 0 ↔ n < cap i)
  indirect : ∀ i, (D i).type ≠ .free → ((D i).addrs NDIRECT ≠ 0 ↔ NDIRECT < cap i)
  bytes : ∀ i x, place D data (filePlace i (x / BSIZE)) ≠ 0 →
    data (place D data (filePlace i (x / BSIZE))) (x % BSIZE) = (c i).getD x 0
  zero : ∀ b, fb ≤ b → b < FSSIZE → data b = fun _ => 0

variable {D D' : Nat → Dinode} {data data' : Nat → ByteMem} {fb fb' : Nat} {c : Nat → List UInt8}
  {cap : Nat → Nat} {i : Nat}

namespace Stores

section

variable (h : Stores D data fb c cap)
include h

theorem nmeta_le : nmeta ≤ fb := by
  have hpos := h.owns.pos
  have hlast := h.owns.reserved (nmeta - 1) (by omega)
  have hlt : nmeta - 1 < fb := of_decide_eq_true hlast
  omega

theorem unused {b : Nat} (hb : fb ≤ b) (p : Place) :
    place D data p ≠ b := by
  have hle := h.nmeta_le
  have hpos := h.owns.pos
  exact h.owns.ne_of_free (decide_eq_false (by omega)) (by omega) p

theorem addr_eq_zero (ht : (D i).type ≠ .free) (hcap : cap i ≤ NDIRECT) : (D i).addrs NDIRECT = 0 := by
  by_contra hne
  have hlt := (h.indirect i ht).mp hne
  omega

/-- Only the types and addresses of the inodes and the data blocks matter. -/
theorem congr (hD : ∀ i, (D' i).type = (D i).type ∧ (D' i).addrs = (D i).addrs)
    (hdata : ∀ b, nmeta ≤ b → data' b = data b) : Stores D' data' fb c cap := by
  have hplace' : place D' data = place D data :=
    place_congr fun i => ⟨by rw [(hD i).1], (hD i).2⟩
  have hpos := h.owns.pos
  have hplace : place D' data' = place D data := by
    rw [← hplace']
    funext p
    cases p with
    | slot i k => rfl
    | entry i j =>
      simp only [place]
      split
      · rename_i hc
        -- an indirect block is a data block
        have hslot := h.owns.range (.slot i NDIRECT)
        rw [← hplace', place_slot hc.1 (Nat.le_refl _)] at hslot
        rw [hdata _ (hslot hc.2.1).1]
      · rfl
  refine ⟨by rw [hplace]; exact h.owns, h.le, h.short, fun i n ht hn => ?_, fun i ht => ?_,
    fun i x hx => ?_, fun b hb hlt => ?_⟩
  · rw [hplace]
    exact h.blocks i n (by rwa [← (hD i).1]) hn
  · rw [(hD i).2]
    exact h.indirect i (by rwa [← (hD i).1])
  · rw [hplace] at hx ⊢
    rw [hdata _ (h.owns.range _ hx).1]
    exact h.bytes i x hx
  · rw [hdata b (Nat.le_trans h.nmeta_le hb)]
    exact h.zero b hb hlt

/-- A new inode without blocks. -/
theorem new {d : Dinode} (hfree : (D i).type = .free)
    (hd : ∀ k ≤ NDIRECT, d.addrs k = 0) (hcap : cap i = 0) :
    Stores (upd D i d) data fb c cap := by
  have hplace : place (upd D i d) data = place D data := place_upd_empty d (.inl hfree) (.inr hd)
  refine ⟨by rw [hplace]; exact h.owns, h.le, h.short, fun j n ht hn => ?_, fun j ht => ?_,
    fun j x hx => ?_, h.zero⟩
  · rw [hplace]
    by_cases hj : j = i
    · subst hj
      rw [place_of_empty (.inl hfree) _ (by rw [filePlace]; split <;> rfl), hcap]
      omega
    · rw [upd_of_ne hj] at ht
      exact h.blocks j n ht hn
  · by_cases hj : j = i
    · subst hj
      rw [upd_self, hd NDIRECT (Nat.le_refl _), hcap]
      omega
    · rw [upd_of_ne hj] at ht ⊢
      exact h.indirect j ht
  · rw [hplace] at hx ⊢
    exact h.bytes j x hx

end

/-! ## One more block -/

/-- An address does not change the type. -/
theorem type_upd_withAddr (D : Nat → Dinode) (i k b j : Nat) :
    (upd D i ((D i).withAddr k b) j).type = (D j).type := by
  have hself : ((D i).withAddr k b).type = (D i).type := rfl
  exact apply_upd (F := Dinode.type) hself j

/-- Inode `i` gets the new block `b` for its next block, which is still zero, and maybe an indirect
    block. -/
theorem grow (h : Stores D data fb c cap) {b : Nat} (htype : ∀ j, (D' j).type = (D j).type)
    (howns : Owns (place D' data') (fun b => decide (b < fb')) nmeta FSSIZE) (hle : fb' ≤ FSSIZE)
    (hfb : fb ≤ fb') (hother : ∀ j n, filePlace j n ≠ filePlace i (cap i) →
      place D' data' (filePlace j n) = place D data (filePlace j n))
    (hnew : place D' data' (filePlace i (cap i)) = b) (hb : fb ≤ b) (hlt : b < FSSIZE)
    (hkeep : ∀ b, (∀ j, place D' data' (.slot j NDIRECT) ≠ b) → data' b = data b)
    (hind : ∀ j, (D' j).type ≠ .free →
      ((D' j).addrs NDIRECT ≠ 0 ↔ NDIRECT < upd cap i (cap i + 1) j)) :
    Stores D' data' fb' c (upd cap i (cap i + 1)) := by
  have hb0 : b ≠ 0 := by
    have := h.nmeta_le
    have := h.owns.pos
    omega
  have hfile : ∀ j n, place D' data' (filePlace j n) ≠ 0 →
      data' (place D' data' (filePlace j n)) = data (place D' data' (filePlace j n)) := by
    intro j n hne
    refine hkeep _ fun j' heq => ?_
    exact filePlace_ne_indirect _ _ _ (howns.inj _ _ hne heq.symm)
  refine ⟨howns, hle, fun j => ?_, fun j n ht hn => ?_, hind, fun j x hx => ?_, fun b' hb' hlt' => ?_⟩
  · have hj := h.short j
    by_cases heq : j = i
    · subst heq
      rw [upd_self, Nat.add_mul]
      omega
    · rwa [upd_of_ne heq]
  · have hold := h.blocks j n (by rwa [← htype]) hn
    by_cases heq : filePlace j n = filePlace i (cap i)
    · obtain ⟨rfl, rfl⟩ := filePlace_inj heq
      rw [hnew, upd_self]
      exact ⟨fun _ => Nat.lt_succ_self _, fun _ => hb0⟩
    · rw [hother j n heq, hold]
      by_cases hj : j = i
      · subst hj
        have hne : n ≠ cap j := fun hn' => heq (by rw [hn'])
        rw [upd_self]
        omega
      · rw [upd_of_ne hj]
  · rw [hfile j _ hx]
    by_cases heq : filePlace j (x / BSIZE) = filePlace i (cap i)
    · -- a new block is zero, and the file ends before it
      obtain ⟨rfl, hdiv⟩ := filePlace_inj heq
      have hshort := h.short j
      have hge : (c j).length ≤ x := by
        rw [← hdiv] at hshort
        exact Nat.le_trans hshort (Nat.div_mul_le_self x BSIZE)
      rw [heq, hnew, h.zero b hb hlt, List.getD_eq_default _ _ hge]
    · rw [hother j _ heq] at hx ⊢
      exact h.bytes j x hx
  · have hkept : data' b' = data b' := by
      refine hkeep b' fun j => howns.ne_of_free (decide_eq_false (by omega)) ?_ _
      have := h.nmeta_le
      have := h.owns.pos
      omega
    rw [hkept]
    exact h.zero b' (by omega) hlt'

theorem used_succ (fb : Nat) :
    upd (fun b => decide (b < fb)) fb true = fun b => decide (b < fb + 1) := by
  funext b
  by_cases hb : b = fb
  · rw [hb, upd_self, decide_eq_true (Nat.lt_succ_self fb)]
  · rw [upd_of_ne hb]
    exact decide_eq_decide.mpr (by omega)

/-- The next block stands in an empty place. -/
theorem alloc (h : Owns (place D data) (fun b => decide (b < fb)) nmeta FSSIZE) (hlt : fb < FSSIZE)
    {p : Place} (hp : place D data p = 0) :
    Owns (upd (place D data) p fb) (fun b => decide (b < fb + 1)) nmeta FSSIZE := by
  rw [← used_succ]
  exact h.alloc hp (decide_eq_false (Nat.lt_irrefl fb)) hlt

section Growth

variable (h : Stores D data fb c cap) (ht : (D i).type ≠ .free)
include h ht

theorem next_empty (hcap : cap i < MAXFILE) : place D data (filePlace i (cap i)) = 0 := by
  by_contra hne
  exact Nat.lt_irrefl _ ((h.blocks i (cap i) ht hcap).mp hne)

/-- The new block stands in a direct slot. -/
theorem slot (hcap : cap i < NDIRECT) (hlt : fb < FSSIZE) :
    Stores (upd D i ((D i).withAddr (cap i) fb)) data (fb + 1) c (upd cap i (cap i + 1)) := by
  have hplace : place (upd D i ((D i).withAddr (cap i) fb)) data =
      upd (place D data) (.slot i (cap i)) fb := place_withAddr ht hcap fb
  have hfile : filePlace i (cap i) = .slot i (cap i) := if_pos hcap
  have hzero := h.next_empty ht (Nat.lt_of_lt_of_le hcap (by decide))
  refine h.grow (b := fb) (type_upd_withAddr D i _ _) ?_ hlt
    (Nat.le_succ fb) (fun j n hne => ?_) ?_ (Nat.le_refl fb) hlt (fun _ _ => rfl) fun j hj => ?_
  · rw [hplace, ← hfile]
    exact alloc h.owns hlt hzero
  · rw [hplace, ← hfile, upd_of_ne hne]
  · rw [hplace, ← hfile, upd_self]
  · by_cases heq : j = i
    · subst heq
      have hne : NDIRECT ≠ cap j := by omega
      have hold := h.indirect j ht
      have hkept : ((D j).withAddr (cap j) fb).addrs NDIRECT = (D j).addrs NDIRECT := if_neg hne
      rw [upd_self, upd_self, hkept, hold]
      omega
    · rw [upd_of_ne heq] at hj ⊢
      rw [upd_of_ne heq]
      exact h.indirect j hj

/-- The new block stands in an entry of the indirect block. -/
theorem entry (hcap : NDIRECT < cap i) (hmax : cap i < MAXFILE) (hlt : fb < FSSIZE) :
    Stores D (upd data ((D i).addrs NDIRECT) (setWord (data ((D i).addrs NDIRECT)) (cap i - NDIRECT) fb))
      (fb + 1) c (upd cap i (cap i + 1)) := by
  have haddr := (h.indirect i ht).mpr hcap
  have hj := sub_NDIRECT_lt hmax
  have hplace := place_setWord h.owns ht haddr hj (Nat.lt_trans hlt (by decide))
  have hfile : filePlace i (cap i) = .entry i (cap i - NDIRECT) := if_neg (by omega)
  have hslot : place D data (.slot i NDIRECT) = (D i).addrs NDIRECT := place_slot ht (Nat.le_refl _)
  have hzero := h.next_empty ht hmax
  refine h.grow (b := fb) (fun _ => rfl) ?_ hlt (Nat.le_succ fb) (fun j n hne => ?_) ?_
    (Nat.le_refl fb) hlt (fun b hb => ?_) fun j hj => ?_
  · rw [hplace, ← hfile]
    exact alloc h.owns hlt hzero
  · rw [hplace, ← hfile, upd_of_ne hne]
  · rw [hplace, ← hfile, upd_self]
  · have hne := hb i
    rw [hplace, upd_of_ne (by simp), hslot] at hne
    exact upd_of_ne (Ne.symm hne) _
  · rw [h.indirect j hj]
    by_cases heq : j = i
    · subst heq
      rw [upd_self]
      omega
    · rw [upd_of_ne heq]

/-- The first block in an entry comes with the indirect block. -/
theorem first (hcap : cap i = NDIRECT) (hlt : fb + 1 < FSSIZE) :
    Stores (upd D i ((D i).withAddr NDIRECT fb)) (upd data fb (setWord (data fb) 0 (fb + 1)))
      (fb + 2) c (upd cap i (cap i + 1)) := by
  have hb0 : fb ≠ 0 := by
    have := h.nmeta_le
    have := h.owns.pos
    omega
  have haddr := h.addr_eq_zero ht (Nat.le_of_eq hcap)
  have hblank := h.zero fb (Nat.le_refl fb) (by omega)
  have hslot : place D data (.slot i NDIRECT) = 0 := by
    rw [place_slot ht (Nat.le_refl _), haddr]
  -- first the indirect block, then the entry in it
  have hplace₁ : place (upd D i ((D i).withAddr NDIRECT fb)) data =
      upd (place D data) (.slot i NDIRECT) fb := by
    refine place_withIndirect ht (fun j _ => ?_) fun _ j _ => by rw [hblank, word_zero]
    rw [place, if_neg fun hc => hc.2.1 haddr]
  have howns₁ : Owns (place (upd D i ((D i).withAddr NDIRECT fb)) data)
      (fun b => decide (b < fb + 1)) nmeta FSSIZE := by
    rw [hplace₁]
    exact alloc h.owns (by omega) hslot
  have hself : upd D i ((D i).withAddr NDIRECT fb) i = (D i).withAddr NDIRECT fb := upd_self ..
  have haddr' : ((D i).withAddr NDIRECT fb).addrs NDIRECT = fb := upd_self (D i).addrs NDIRECT fb
  have hplace₂ := place_setWord (i := i) (j := 0) (v := fb + 1) howns₁ (by rw [hself]; exact ht)
    (by rw [hself, haddr']; exact hb0) (by decide) (Nat.lt_trans hlt (by decide))
  rw [hself, haddr', hplace₁] at hplace₂
  have hfile : filePlace i (cap i) = .entry i 0 := by rw [hcap]; rfl
  have hentry : upd (place D data) (.slot i NDIRECT) fb (.entry i 0) = 0 := by
    rw [upd_of_ne (by simp), ← hfile]
    exact h.next_empty ht (by rw [hcap]; decide)
  refine h.grow (b := fb + 1) (type_upd_withAddr D i _ _) ?_ (by omega) (by omega)
    (fun j n hne => ?_) ?_ (by omega) hlt (fun b hb => ?_) fun j hj => ?_
  · rw [hplace₂, ← hplace₁]
    refine alloc howns₁ hlt ?_
    rw [hplace₁]
    exact hentry
  · rw [hplace₂, ← hfile, upd_of_ne hne, upd_of_ne (filePlace_ne_indirect _ _ _)]
  · rw [hplace₂, hfile, upd_self]
  · have hne := hb i
    rw [hplace₂, upd_of_ne (by simp), upd_self] at hne
    exact upd_of_ne (Ne.symm hne) _
  · by_cases heq : j = i
    · subst heq
      rw [hself, haddr', upd_self, hcap]
      exact ⟨fun _ => Nat.lt_succ_self _, fun _ => hb0⟩
    · rw [upd_of_ne heq] at hj ⊢
      rw [upd_of_ne heq]
      exact h.indirect j hj

end Growth

/-! ## More bytes -/

/-- Bytes are stored behind the end of a file, in its last block. -/
theorem append (h : Stores D data fb c cap) {bs : List UInt8} {b : Nat}
    (hb : place D data (filePlace i ((c i).length / BSIZE)) = b) (hb0 : b ≠ 0)
    (hbs : (c i).length % BSIZE + bs.length ≤ BSIZE) (hcap : (c i).length / BSIZE < cap i) :
    Stores D (upd data b ((data b).write ((c i).length % BSIZE) bs)) fb (upd c i (c i ++ bs)) cap := by
  have hplace : place D (upd data b ((data b).write ((c i).length % BSIZE) bs)) = place D data := by
    refine place_data _ fun j => .inl fun heq => ?_
    exact filePlace_ne_indirect _ _ _ (h.owns.inj _ _ (by rwa [hb]) (hb.trans heq.symm))
  have hlen := Nat.div_add_mod (c i).length BSIZE
  refine ⟨by rw [hplace]; exact h.owns, h.le, fun j => ?_, fun j n ht hn => ?_, h.indirect,
    fun j x hx => ?_, fun b' hb' hlt => ?_⟩
  · by_cases hj : j = i
    · subst hj
      have hmul : ((c j).length / BSIZE + 1) * BSIZE ≤ cap j * BSIZE := Nat.mul_le_mul_right _ hcap
      rw [upd_self, List.length_append]
      rw [Nat.add_mul, Nat.mul_comm] at hmul
      omega
    · rw [upd_of_ne hj]
      exact h.short j
  · rw [hplace]
    exact h.blocks j n ht hn
  · rw [hplace] at hx ⊢
    have hold := h.bytes j x hx
    by_cases hj : j = i
    · subst hj
      rw [upd_self]
      by_cases hdiv : x / BSIZE = (c j).length / BSIZE
      · have hxlen := Nat.div_add_mod x BSIZE
        rw [hdiv, hb] at hold ⊢
        rw [upd_self]
        rw [hdiv] at hxlen
        -- before the end of the file, in the new bytes, or behind them
        by_cases hlt : x < (c j).length
        · rw [ByteMem.write_of_lt (by omega), hold, List.getD_append _ _ _ _ hlt]
        · rw [List.getD_append_right _ _ _ _ (by omega)]
          obtain ⟨k, hk⟩ := Nat.exists_eq_add_of_le (show (c j).length % BSIZE ≤ x % BSIZE by omega)
          have hsub : x - (c j).length = k := by omega
          rw [hsub, hk]
          by_cases hkb : k < bs.length
          · have hsome := ByteMem.write_add (m := data b) (a := (c j).length % BSIZE) hkb
            rw [List.getD_eq_getElem?_getD, hsome, Option.getD_some]
          · rw [ByteMem.write_of_ge (by omega), ← hk, hold, List.getD_eq_default _ _ (by omega),
              List.getD_eq_default _ _ (by omega)]
      · -- another block of the file lies before its end
        have hne : place D data (filePlace j (x / BSIZE)) ≠ b := by
          rw [← hb]
          exact fun heq => hdiv (filePlace_inj (h.owns.inj _ _ hx heq)).2
        rw [upd_of_ne hne, hold]
        rcases Nat.lt_or_ge x (c j).length with hlt | hge
        · rw [List.getD_append _ _ _ _ hlt]
        · have hgt : (c j).length / BSIZE < x / BSIZE := by
            have := Nat.div_le_div_right (c := BSIZE) hge
            omega
          have hmul : ((c j).length / BSIZE + 1) * BSIZE ≤ x / BSIZE * BSIZE :=
            Nat.mul_le_mul_right _ hgt
          have hx' := Nat.div_mul_le_self x BSIZE
          rw [Nat.add_mul, Nat.mul_comm] at hmul
          rw [List.getD_eq_default _ _ hge, List.getD_eq_default]
          rw [List.length_append]
          omega
    · have hne : place D data (filePlace j (x / BSIZE)) ≠ b := by
        rw [← hb]
        exact fun heq => hj (filePlace_inj (h.owns.inj _ _ hx heq)).1
      rw [upd_of_ne hj, upd_of_ne hne]
      exact hold
  · have hne : b' ≠ b := by
      rw [← hb]
      exact Ne.symm (h.unused hb' _)
    rw [upd_of_ne hne]
    exact h.zero b' hb' hlt

end Stores

end Xv6.Mkfs
