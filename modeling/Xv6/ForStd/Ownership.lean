import Xv6.ForStd.Update

/-!
# Places that own blocks

Places `P` hold block numbers, 0 for none, and an allocation map marks the blocks that are in use.
`Owns own used lo hi` says that the blocks from `lo` to `hi` are marked exactly when a place holds
them, that no block is held by two places, and that the blocks below `lo` are never free.
Storing a free block in an empty place, and emptying a place and clearing the mark of
its block, keep this.
-/

variable {P : Type*} {own : P → Nat} {used : Nat → Bool} {lo hi : Nat}

/-- The marked blocks from `lo` to `hi` are the ones that places hold, each held once. -/
structure Owns (own : P → Nat) (used : Nat → Bool) (lo hi : Nat) : Prop where
  pos : 0 < lo
  range : ∀ p, own p ≠ 0 → lo ≤ own p ∧ own p < hi
  marked : ∀ p, own p ≠ 0 → used (own p) = true
  inj : ∀ p q, own p ≠ 0 → own p = own q → p = q
  held : ∀ b, lo ≤ b → b < hi → used b = true → ∃ p, own p = b
  reserved : ∀ b, b < lo → used b = true

namespace Owns

variable {b : Nat}

/-- A block in use is held by exactly one place. -/
theorem existsUnique (h : Owns own used lo hi) (hlo : lo ≤ b) (hhi : b < hi) (hb : used b = true) :
    ∃! p, own p = b := by
  obtain ⟨p, hp⟩ := h.held b hlo hhi hb
  have hpos := h.pos
  exact ⟨p, hp, fun q hq => (h.inj p q (by omega) (hp.trans hq.symm)).symm⟩

/-- No place holds a block that is not marked. -/
theorem ne_of_free (h : Owns own used lo hi) (hb : used b = false) (hb0 : b ≠ 0) (p : P) :
    own p ≠ b := by
  rintro rfl
  rw [h.marked p hb0] at hb
  cases hb

/-- A block that is not marked is not a reserved one. -/
theorem le_of_free (h : Owns own used lo hi) (hb : used b = false) : lo ≤ b := by
  by_contra hlt
  rw [h.reserved b (by omega)] at hb
  cases hb

variable [DecidableEq P]

/-- A free block is stored in an empty place. -/
theorem alloc (h : Owns own used lo hi) {p : P} (hp : own p = 0) (hb : used b = false) (hhi : b < hi) :
    Owns (upd own p b) (upd used b true) lo hi := by
  have hlo := h.le_of_free hb
  have hb0 : b ≠ 0 := by have := h.pos; omega
  refine ⟨h.pos, fun q hq => ?_, fun q hq => ?_, fun q r hq hqr => ?_, fun c hc hc' hu => ?_,
    fun c hc => ?_⟩
  · by_cases hqp : q = p
    · rw [hqp, upd_self]
      exact ⟨hlo, hhi⟩
    · rw [upd_of_ne hqp] at hq ⊢
      exact h.range q hq
  · by_cases hqp : q = p
    · rw [hqp, upd_self, upd_self]
    · rw [upd_of_ne hqp] at hq ⊢
      rw [upd_of_ne (h.ne_of_free hb hb0 q)]
      exact h.marked q hq
  · by_cases hqp : q = p <;> by_cases hrp : r = p
    · rw [hqp, hrp]
    · rw [hqp, upd_self, upd_of_ne hrp] at hqr
      exact absurd hqr.symm (h.ne_of_free hb hb0 r)
    · rw [hrp, upd_self, upd_of_ne hqp] at hqr
      exact absurd hqr (h.ne_of_free hb hb0 q)
    · rw [upd_of_ne hqp] at hq hqr
      rw [upd_of_ne hrp] at hqr
      exact h.inj q r hq hqr
  · by_cases hcb : c = b
    · exact ⟨p, by rw [upd_self, hcb]⟩
    · rw [upd_of_ne hcb] at hu
      obtain ⟨q, hq⟩ := h.held c hc hc' hu
      have hqp : q ≠ p := by
        rintro rfl
        have := h.pos
        omega
      exact ⟨q, by rw [upd_of_ne hqp, hq]⟩
  · rw [upd_of_ne (by omega)]
    exact h.reserved c hc

/-- A place is emptied and the mark of its block cleared. -/
theorem free (h : Owns own used lo hi) {p : P} (hp : own p ≠ 0) :
    Owns (upd own p 0) (upd used (own p) false) lo hi := by
  have hother : ∀ q, q ≠ p → own q ≠ 0 → own q ≠ own p := fun q hqp hq heq =>
    hqp (h.inj q p hq heq)
  refine ⟨h.pos, fun q hq => ?_, fun q hq => ?_, fun q r hq hqr => ?_, fun c hc hc' hu => ?_,
    fun c hc => ?_⟩
  · by_cases hqp : q = p
    · rw [hqp, upd_self] at hq
      exact absurd rfl hq
    · rw [upd_of_ne hqp] at hq ⊢
      exact h.range q hq
  · by_cases hqp : q = p
    · rw [hqp, upd_self] at hq
      exact absurd rfl hq
    · rw [upd_of_ne hqp] at hq ⊢
      rw [upd_of_ne (hother q hqp hq)]
      exact h.marked q hq
  · by_cases hqp : q = p
    · rw [hqp, upd_self] at hq
      exact absurd rfl hq
    · rw [upd_of_ne hqp] at hq hqr
      by_cases hrp : r = p
      · rw [hrp, upd_self] at hqr
        exact absurd hqr hq
      · rw [upd_of_ne hrp] at hqr
        exact h.inj q r hq hqr
  · by_cases hcp : c = own p
    · rw [hcp, upd_self] at hu
      cases hu
    · rw [upd_of_ne hcp] at hu
      obtain ⟨q, hq⟩ := h.held c hc hc' hu
      have hqp : q ≠ p := fun heq => hcp (by rw [← hq, heq])
      exact ⟨q, by rw [upd_of_ne hqp, hq]⟩
  · have hlo := (h.range p hp).1
    rw [upd_of_ne (by omega)]
    exact h.reserved c hc

end Owns
