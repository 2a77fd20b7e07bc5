import Mathlib.Data.Rat.Floor
import Xv6.Kernel.Proc

/-!
# check_vruntime and the share of the run time

`check_vruntime` divides `rtime` by the sum of the counters before it multiplies with the weight of the
priority. The quotient of the two integers is 1 for a process that has only been running and 0
for all others, so the value says nothing about the share that a process has got, and the weights
have an effect only among processes that never waited.

`vruntime_orders_iff` says for which processes the value is the integer part of the weighted
share all the same.
-/

namespace Xv6

/-- The weight of the priority in `check_vruntime`. -/
def Proc.weight (p : Proc) : Int :=
  if p.cfsPriority = 0 then 75 else if p.cfsPriority = 1 then 100 else 125

/-- The sum of the counters. -/
def Proc.total (p : Proc) : Int := p.rtime + p.retime + p.stime

/-- The weighted share of the time that a process has been running. -/
def Proc.share (p : Proc) : ℚ := p.weight * p.rtime / p.total

/-- Counters that are not negative, with a positive sum that is a `long`, and one of the three
    priorities. -/
structure Proc.Counted (p : Proc) : Prop where
  rtime : 0 ≤ p.rtime
  retime : 0 ≤ p.retime
  stime : 0 ≤ p.stime
  total : 0 < p.total ∧ p.total < 2 ^ 63
  priority : p.cfsPriority = 0 ∨ p.cfsPriority = 1 ∨ p.cfsPriority = 2

/-- The values of `check_vruntime` are the integer parts of the shares and order the processes like
    them. -/
structure OrdersByShare (p q : Proc) : Prop where
  left : checkVruntime p = ⌊p.share⌋
  right : checkVruntime q = ⌊q.share⌋
  sound : checkVruntime p < checkVruntime q → p.share < q.share
  apart : p.share + 1 ≤ q.share → checkVruntime p < checkVruntime q

variable {p q : Proc}

theorem Proc.weight_mem (p : Proc) : p.weight = 75 ∨ p.weight = 100 ∨ p.weight = 125 := by
  unfold weight
  split
  · exact .inl rfl
  · split
    · exact .inr (.inl rfl)
    · exact .inr (.inr rfl)

/-- `check_vruntime` is the weight for a process that has only been running, and 0 otherwise. -/
theorem checkVruntime_of_counted (h : p.Counted) :
    checkVruntime p = if p.retime + p.stime = 0 then p.weight else 0 := by
  obtain ⟨hr, hre, hs, ⟨hpos, hlt⟩, -⟩ := h
  have htotal : p.total = p.rtime + p.retime + p.stime := rfl
  have hsum : toLong (p.rtime + p.retime + p.stime) = p.total :=
    Int.bmod_eq_of_le (by omega) (by omega)
  have hdiv : divLong p.rtime (toLong (p.rtime + p.retime + p.stime)) =
      if p.retime + p.stime = 0 then 1 else 0 := by
    rw [hsum, divLong, if_neg (by omega), Int.tdiv_eq_ediv_of_nonneg hr]
    split
    · rename_i hzero
      rw [show p.total = p.rtime by omega, Int.ediv_self (by omega)]
      rfl
    · rw [Int.ediv_eq_zero_of_lt hr (by omega)]
      rfl
  unfold checkVruntime Proc.weight
  simp only [hdiv]
  split
  · split
    · rfl
    · rfl
  · split
    · split
      · rfl
      · rfl
    · split
      · rfl
      · rfl

/-- The integer part of the share. -/
theorem floor_share (h : p.Counted) : ⌊p.share⌋ = p.weight * p.rtime / p.total := by
  obtain ⟨t, ht⟩ := Int.eq_ofNat_of_zero_le h.total.1.le
  rw [Proc.share, ht, ← Int.cast_mul, Int.cast_natCast]
  exact Rat.floor_intCast_div_natCast ..

/-- The value is the integer part of the share of a process that has only been running, and of one
    whose weighted share is below 1. -/
theorem checkVruntime_eq_floor_iff (h : p.Counted) :
    checkVruntime p = ⌊p.share⌋ ↔ p.retime + p.stime = 0 ∨ p.weight * p.rtime < p.total := by
  rw [checkVruntime_of_counted h, floor_share h]
  obtain ⟨hr, hre, hs, ⟨hpos, -⟩, -⟩ := h
  have htotal : p.total = p.rtime + p.retime + p.stime := rfl
  have hweight : 0 < p.weight := by
    have := p.weight_mem
    omega
  by_cases hzero : p.retime + p.stime = 0
  · rw [if_pos hzero, show p.total = p.rtime by omega, Int.mul_ediv_cancel _ (by omega)]
    exact ⟨fun _ => .inl hzero, fun _ => rfl⟩
  · rw [if_neg hzero]
    have hnonneg : 0 ≤ p.weight * p.rtime := Int.mul_nonneg hweight.le hr
    constructor
    · intro hfloor
      by_contra hge
      rw [not_or, not_lt] at hge
      have hone : 1 ≤ p.weight * p.rtime / p.total := Int.le_ediv_of_mul_le hpos (by omega)
      omega
    · intro hlt
      rw [Int.ediv_eq_zero_of_lt hnonneg (hlt.resolve_left hzero)]

/-- The values of `check_vruntime` are the integer parts of the weighted shares, and then order the
    processes like these, exactly if each of the two has only been running or has a weighted share
    below 1. -/
theorem vruntime_orders_iff (hp : p.Counted) (hq : q.Counted) :
    OrdersByShare p q ↔
      (p.retime + p.stime = 0 ∨ p.weight * p.rtime < p.total) ∧
        (q.retime + q.stime = 0 ∨ q.weight * q.rtime < q.total) := by
  rw [← checkVruntime_eq_floor_iff hp, ← checkVruntime_eq_floor_iff hq]
  constructor
  · exact fun h => ⟨h.left, h.right⟩
  · rintro ⟨hleft, hright⟩
    refine ⟨hleft, hright, fun hlt => ?_, fun hle => ?_⟩
    · rw [hleft, hright] at hlt
      exact Int.floor_lt.mp hlt |>.trans_le (Int.floor_le q.share)
    · rw [hleft, hright, Int.lt_iff_add_one_le, ← Int.floor_add_one]
      exact Int.floor_le_floor hle

/-- A process that has been running for 7 ticks, with low priority, and one that has been sleeping. -/
theorem vruntime_orders_iff_two :
    OrdersByShare { Proc.zero with rtime := 7, cfsPriority := 2 }
      { Proc.zero with stime := 3, cfsPriority := 1 } :=
  (vruntime_orders_iff ⟨by decide, by decide, by decide, by decide, by decide⟩
    ⟨by decide, by decide, by decide, by decide, by decide⟩).mpr ⟨.inl rfl, .inr (by decide)⟩

/-- A process that has run for a quarter of its time and one that has run for three quarters: the
    weighted shares are 25 and 75, and both values are 0. -/
theorem vruntime_ignores_share :
    ∃ p q : Proc, p.Counted ∧ q.Counted ∧ p.share + 1 ≤ q.share ∧
      checkVruntime p = checkVruntime q ∧ ¬ OrdersByShare p q := by
  obtain ⟨p, hp⟩ : ∃ p : Proc, p = { Proc.zero with rtime := 1, retime := 3, cfsPriority := 1 } :=
    ⟨_, rfl⟩
  obtain ⟨q, hq⟩ : ∃ q : Proc, q = { Proc.zero with rtime := 3, retime := 1, cfsPriority := 1 } :=
    ⟨_, rfl⟩
  have hshare : p.share + 1 ≤ q.share := by
    rw [hp, hq]
    norm_num [Proc.share, Proc.weight, Proc.total, Proc.zero]
  have hsame : checkVruntime p = checkVruntime q := by
    rw [hp, hq]
    decide
  refine ⟨p, q, ?_, ?_, hshare, hsame, fun h => ?_⟩
  · rw [hp]
    exact ⟨by decide, by decide, by decide, by decide, by decide⟩
  · rw [hq]
    exact ⟨by decide, by decide, by decide, by decide, by decide⟩
  · have hlt := h.apart hshare
    omega

end Xv6
