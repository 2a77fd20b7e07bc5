import Xv6.Spec.MinimumScan

/-!
# Bounded waiting under the priority policy

One hart runs `schedulerPriority` over processes that are always `RUNNABLE`. A `Turn` is the loop in
front of a slot. If the slot passes the test, the process runs until the next timer tick, which
adds its priority to its accumulator and makes it yield; then the loop computes the minimum again
and goes on to the next slot.

A process is picked only if no other one has a smaller accumulator. So while `p` waits, the
accumulator of `q` passes that of `p` once at most, which bounds the number of times `q` is picked
(`bounded_waiting`). All of this ends when an accumulator overflows: it becomes negative, and its
process is picked again and again (`overtakes_after_overflow`).
-/

namespace Xv6

/-- `schedulerPriority` before `acquire(&p->lock)`. -/
structure Turn where
  mem : Mem
  slot : Slot
  minimum : Int

namespace Turn

/-- The slot passes the test of the loop. -/
def picks (x : Turn) : Bool := Loop.priority.selects (x.mem.proc x.slot) x.minimum

/-- A process is dispatched, and the timer tick makes it yield. -/
def slice (m : Mem) (p : Slot) : Mem :=
  (Op.yield p).apply ((Op.accumulate p).apply ((Op.dispatch p).apply m))

/-- The table after the round. -/
def table (x : Turn) : Mem := if x.picks then slice x.mem x.slot else x.mem

/-- One round of the loop. -/
def next (x : Turn) : Turn := ⟨x.table, x.slot + 1, Loop.priority.scan x.table.proc⟩

/-- The loop after `k` rounds. -/
def after : Nat → Turn → Turn
  | 0, x => x
  | k + 1, x => after k x.next

/-- How often `q` is dispatched in the next `k` rounds. -/
def count (q : Slot) : Nat → Turn → Nat
  | 0, _ => 0
  | k + 1, x => (if x.picks = true ∧ x.slot = q then 1 else 0) + count q k x.next

/-- The process in a slot takes part: it is `RUNNABLE`, its accumulator is not negative and its
    priority is positive. -/
structure Ready (x : Proc) : Prop where
  acc : 0 ≤ x.accumulator ∧ x.accumulator < 2 ^ 63
  prio : 0 < x.psPriority

/-- The loop has computed the minimum, and all `RUNNABLE` processes have accumulators that are not
    negative and positive priorities. -/
structure Sound (x : Turn) : Prop where
  minimum : x.minimum = Loop.priority.scan x.mem.proc
  ready : ∀ z, (x.mem.proc z).state = .runnable → Ready (x.mem.proc z)

/-- The accumulator of a process that is picked does not overflow at the end of its slice. -/
def Fits (x : Turn) : Prop :=
  x.picks = true →
    (x.mem.proc x.slot).accumulator + (x.mem.proc x.slot).psPriority < 2 ^ 63

variable {x : Turn} {p q y z : Slot} {k : Nat}

/-! ## One round -/

theorem slice_self (m : Mem) (p : Slot) :
    (slice m p).proc p =
      { m.proc p with
        state := .runnable
        accumulator := toLong ((m.proc p).accumulator + (m.proc p).psPriority) } := by
  simp [slice, Op.apply, Op.target, Op.write]

theorem slice_of_ne (m : Mem) (h : z ≠ p) : (slice m p).proc z = m.proc z := by
  simp [slice, Op.apply, Op.target, h]

theorem picks_runnable (h : x.picks = true) : (x.mem.proc x.slot).state = .runnable := by
  simp only [picks, Loop.selects, decide_eq_true_eq] at h
  exact h.1

/-- What a round does to a slot. -/
theorem next_proc (x : Turn) (z : Slot) :
    x.next.mem.proc z =
      if x.picks = true ∧ x.slot = z then
        { x.mem.proc z with
          state := .runnable
          accumulator := toLong ((x.mem.proc z).accumulator + (x.mem.proc z).psPriority) }
      else x.mem.proc z := by
  show x.table.proc z = _
  unfold table
  by_cases hpick : x.picks = true
  · rw [if_pos hpick]
    by_cases hz : x.slot = z
    · rw [if_pos ⟨hpick, hz⟩, ← hz, slice_self]
    · rw [if_neg fun h => hz h.2, slice_of_ne _ (Ne.symm hz)]
  · rw [if_neg hpick, if_neg fun h => hpick h.1]

theorem next_state (x : Turn) (z : Slot) :
    (x.next.mem.proc z).state = .runnable ↔ (x.mem.proc z).state = .runnable := by
  rw [next_proc]
  split
  · rename_i h
    have hrun := picks_runnable h.1
    rw [h.2] at hrun
    exact ⟨fun _ => hrun, fun _ => rfl⟩
  · exact Iff.rfl

theorem next_prio (x : Turn) (z : Slot) :
    (x.next.mem.proc z).psPriority = (x.mem.proc z).psPriority := by
  rw [next_proc]
  split
  · rfl
  · rfl

/-- The accumulators after a round without overflow. -/
theorem next_acc (hs : x.Sound) (hfit : x.Fits) (z : Slot) :
    (x.next.mem.proc z).accumulator =
      (x.mem.proc z).accumulator +
        if x.picks = true ∧ x.slot = z then (x.mem.proc z).psPriority else 0 := by
  rw [next_proc]
  split
  · rename_i h
    have hrun := picks_runnable h.1
    have hlt := hfit h.1
    rw [h.2] at hrun hlt
    obtain ⟨⟨hacc, -⟩, hprio⟩ := hs.ready z hrun
    exact Int.bmod_eq_of_le (by omega) (by omega)
  · omega

theorem Sound.next (hs : x.Sound) (hfit : x.Fits) : x.next.Sound := by
  refine ⟨rfl, fun z hz => ?_⟩
  rw [next_state] at hz
  obtain ⟨⟨hacc, hlt⟩, hprio⟩ := hs.ready z hz
  refine ⟨?_, by rw [next_prio]; exact hprio⟩
  rw [next_acc hs hfit]
  split
  · rename_i h
    have hfits := hfit h.1
    rw [h.2] at hfits
    omega
  · omega

/-- A process that is picked has the least accumulator. -/
theorem Sound.le_of_picks (hs : x.Sound) (h : x.picks = true) (hz : (x.mem.proc z).state = .runnable) :
    (x.mem.proc x.slot).accumulator ≤ (x.mem.proc z).accumulator := by
  -- no accumulator is -1
  have hhide : ¬ Loop.priority.Hides x.mem.proc := by
    rintro ⟨⟨⟨y, hy, hkey⟩, -⟩, -⟩
    have hacc := (hs.ready y hy).acc
    simp only [Loop.key] at hkey
    omega
  have hmin : Loop.priority.PicksMinimum x.mem.proc :=
    (Loop.picksMinimum_iff (show Loop.priority ≠ .old from nofun) ⟨z, hz⟩).mpr hhide
  have hpick := hmin.pick x.slot
  rw [← hs.minimum] at hpick
  exact hpick h z hz

/-! ## Whole runs -/

/-- What holds at the start holds after any number of rounds. -/
theorem Sound.after {a : Nat} (hs : x.Sound) (hfit : ∀ i < a, (x.after i).Fits) :
    (x.after a).Sound := by
  induction a generalizing x with
  | zero => exact hs
  | succ a ih => exact ih (hs.next (hfit 0 (by omega))) fun i hi => hfit (i + 1) (by omega)

theorem after_state {a : Nat} (x : Turn) (z : Slot) :
    ((x.after a).mem.proc z).state = .runnable ↔ (x.mem.proc z).state = .runnable := by
  induction a generalizing x with
  | zero => exact Iff.rfl
  | succ a ih => rw [after, ih, next_state]

theorem after_add (x : Turn) (a i : Nat) : (x.after a).after i = x.after (a + i) := by
  induction a generalizing x with
  | zero => rw [Nat.zero_add]; rfl
  | succ a ih => rw [after, ih, Nat.add_right_comm]; rfl

theorem sub_ediv_add_one (d e : Int) {r : Int} (hr : 0 < r) :
    (d + 0 - (e + r)) / r + 1 = (d - e) / r := by
  have hmul := Int.add_mul_ediv_right (d + 0 - (e + r)) 1 (show r ≠ 0 by omega)
  rw [← hmul]
  congr 1
  omega

/-- The bound on the number of times that `q` is picked while `p` waits. -/
theorem count_le (hs : x.Sound) (hfit : ∀ i < k, (x.after i).Fits)
    (hp : (x.mem.proc p).state = .runnable) (hq : (x.mem.proc q).state = .runnable)
    (hwait : count p k x = 0) :
    (count q k x : Int) ≤
      if (x.mem.proc q).accumulator ≤ (x.mem.proc p).accumulator then
        ((x.mem.proc p).accumulator - (x.mem.proc q).accumulator) / (x.mem.proc q).psPriority + 1
      else 0 := by
  induction k generalizing x with
  | zero =>
    simp only [count]
    split
    · rename_i hle
      have hdiv := Int.ediv_nonneg (a := (x.mem.proc p).accumulator - (x.mem.proc q).accumulator)
        (b := (x.mem.proc q).psPriority) (by omega) (hs.ready q hq).prio.le
      omega
    · exact Int.le_refl 0
  | succ k ih =>
    have hfit0 : x.Fits := hfit 0 (by omega)
    simp only [count] at hwait ⊢
    have hrest := ih (hs.next hfit0) (fun i hi => hfit (i + 1) (by omega))
      ((next_state x p).mpr hp) ((next_state x q).mpr hq) (by omega)
    have hnot : ¬ (x.picks = true ∧ x.slot = p) := fun h => by
      rw [if_pos h] at hwait
      omega
    rw [next_acc hs hfit0, next_acc hs hfit0, next_prio, if_neg hnot] at hrest
    by_cases hpick : x.picks = true ∧ x.slot = q
    · -- `q` is picked, so its accumulator was not above that of `p`
      have hle := hs.le_of_picks hpick.1 hp
      have hprio := (hs.ready q hq).prio
      rw [hpick.2] at hle
      rw [if_pos hpick] at hrest ⊢
      rw [if_pos hle]
      have hstep : ((x.mem.proc p).accumulator + 0 -
          ((x.mem.proc q).accumulator + (x.mem.proc q).psPriority)) / (x.mem.proc q).psPriority + 1 =
          ((x.mem.proc p).accumulator - (x.mem.proc q).accumulator) / (x.mem.proc q).psPriority :=
        sub_ediv_add_one _ _ hprio
      have hdiv := Int.ediv_nonneg (a := (x.mem.proc p).accumulator - (x.mem.proc q).accumulator)
        (b := (x.mem.proc q).psPriority) (by omega) hprio.le
      rw [hstep] at hrest
      split at hrest
      · push_cast
        omega
      · push_cast
        omega
    · rw [if_neg hpick] at hrest ⊢
      simpa using hrest

/-- A bound on the differences of the accumulators that is not below any priority is kept. -/
theorem spread_le {D : Int} {a : Nat} (hs : x.Sound) (hfit : ∀ i < a, (x.after i).Fits)
    (hspread : ∀ y z, (x.mem.proc y).state = .runnable → (x.mem.proc z).state = .runnable →
      (x.mem.proc y).accumulator - (x.mem.proc z).accumulator ≤ D)
    (hprio : ∀ y, (x.mem.proc y).state = .runnable → (x.mem.proc y).psPriority ≤ D)
    (hy : (x.mem.proc y).state = .runnable) (hz : (x.mem.proc z).state = .runnable) :
    ((x.after a).mem.proc y).accumulator - ((x.after a).mem.proc z).accumulator ≤ D := by
  induction a generalizing x with
  | zero => exact hspread y z hy hz
  | succ a ih =>
    have hfit0 : x.Fits := hfit 0 (by omega)
    refine ih (hs.next hfit0) (fun i hi => hfit (i + 1) (by omega)) (fun y z hy hz => ?_)
      (fun y hy => ?_) ((next_state x y).mpr hy) ((next_state x z).mpr hz)
    · rw [next_state] at hy hz
      have hdiff := hspread y z hy hz
      have hpy := hprio y hy
      have hpz := (hs.ready z hz).prio
      rw [next_acc hs hfit0, next_acc hs hfit0]
      by_cases hpick : x.picks = true ∧ x.slot = y
      · -- the accumulator that grows was the least one
        have hle := hs.le_of_picks hpick.1 hz
        rw [hpick.2] at hle
        rw [if_pos hpick]
        split
        · omega
        · omega
      · rw [if_neg hpick]
        split
        · omega
        · omega
    · rw [next_state] at hy
      rw [next_prio]
      exact hprio y hy

/-- Bounded waiting. In every run without an overflow of an accumulator: from any moment on (after
    `a` rounds), while `p` is not dispatched (in the next `k` rounds), any other process `q` is dispatched
    at most `(acc p - acc q) / prio q + 1` times if its accumulator is not above that of `p` at that moment, and
    never otherwise; and the differences between accumulators stay below every bound of the initial
    ones and of the priorities. -/
theorem bounded_waiting {a : Nat} (hs : x.Sound) (hfit : ∀ i < a + k, (x.after i).Fits) :
    (∀ p q, p ≠ q → (x.mem.proc p).state = .runnable → (x.mem.proc q).state = .runnable →
      count p k (x.after a) = 0 →
      (count q k (x.after a) : Int) ≤
        if ((x.after a).mem.proc q).accumulator ≤ ((x.after a).mem.proc p).accumulator then
          (((x.after a).mem.proc p).accumulator - ((x.after a).mem.proc q).accumulator) /
            ((x.after a).mem.proc q).psPriority + 1
        else 0) ∧
    ∀ D : Int,
      (∀ y z, (x.mem.proc y).state = .runnable → (x.mem.proc z).state = .runnable →
        (x.mem.proc y).accumulator - (x.mem.proc z).accumulator ≤ D) →
      (∀ y, (x.mem.proc y).state = .runnable → (x.mem.proc y).psPriority ≤ D) →
      ∀ y z, (x.mem.proc y).state = .runnable → (x.mem.proc z).state = .runnable →
        ((x.after a).mem.proc y).accumulator - ((x.after a).mem.proc z).accumulator ≤ D := by
  refine ⟨fun p q _ hp hq hwait => ?_, fun D hspread hprio y z hy hz => ?_⟩
  · refine count_le (hs.after fun i hi => hfit i (by omega)) (fun i hi => ?_)
      ((after_state x p).mpr hp) ((after_state x q).mpr hq) hwait
    rw [after_add]
    exact hfit (a + i) (by omega)
  · exact spread_le hs (fun i hi => hfit i (by omega)) hspread hprio hy hz

/-- The loop in front of slot 0, with two `RUNNABLE` processes in the slots 0 and 1. -/
def two (acc prio : Int) : Turn where
  mem :=
    { procinit 1 with
      proc := fun z =>
        if z.val < 2 then
          { Proc.zero with state := .runnable, accumulator := acc, psPriority := prio }
        else Proc.zero }
  slot := 0
  minimum := acc

theorem two_sound {acc prio : Int} (hacc : 0 ≤ acc ∧ acc < 2 ^ 63) (hprio : 0 < prio)
    (hmin : (two acc prio).minimum = Loop.priority.scan (two acc prio).mem.proc) :
    (two acc prio).Sound := by
  refine ⟨hmin, fun z hz => ?_⟩
  simp only [two] at hz ⊢
  split at hz
  · rename_i hlt
    rw [if_pos hlt]
    exact ⟨hacc, hprio⟩
  · cases hz

/-- Two processes with accumulator 5 and priority 3: while slot 1 waits, slot 0 is dispatched
    once at most. -/
theorem bounded_waiting_two :
    (count 1 1 ((two 5 3).after 0) = 0) ∧ (count 0 1 ((two 5 3).after 0) : Int) ≤ 1 := by
  have hwait : count 1 1 ((two 5 3).after 0) = 0 := by decide +kernel
  have hle := (bounded_waiting (a := 0) (k := 1) (two_sound ⟨by decide, by decide⟩ (by decide)
    (by decide +kernel)) (fun i hi => by
      obtain rfl : i = 0 := by omega
      exact fun _ => by decide)).1 1 0 (by decide) rfl rfl hwait
  exact ⟨hwait, hle.trans (by decide +kernel)⟩

/-- The accumulators are at the end of the range of `long long`. The first dispatch makes the one of
    slot 0 negative, and slot 0 is dispatched again before slot 1, which waits with the same
    accumulator. -/
theorem overtakes_after_overflow :
    (two (2 ^ 63 - 1) 1).Sound ∧ count 1 65 (two (2 ^ 63 - 1) 1) = 0 ∧
      (count 0 65 (two (2 ^ 63 - 1) 1) : Int) >
        (((two (2 ^ 63 - 1) 1).mem.proc 1).accumulator -
          ((two (2 ^ 63 - 1) 1).mem.proc 0).accumulator) /
            ((two (2 ^ 63 - 1) 1).mem.proc 0).psPriority + 1 := by
  refine ⟨two_sound ⟨by decide, by decide⟩ (by decide) (by decide +kernel), by decide +kernel, ?_⟩
  decide +kernel

end Turn

end Xv6
