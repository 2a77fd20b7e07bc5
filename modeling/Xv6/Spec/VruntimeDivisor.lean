import Xv6.Spec.TickAccounting
import Xv6.Spec.Vruntime

/-!
# The divisor of check_vruntime

`check_vruntime` divides by `rtime + retime + stime`. The sum is, as a `long`, the number of times that
`update_ticks` has charged the process since `allocproc` cleared the counters (`divisor_eq`). A new
process is `RUNNABLE` before any tick has been charged to it, so a loop that looks at it then divides by
zero, which gives -1 on RISC-V and no trap.
-/

namespace Xv6

open TransitionSystem

variable {n : Nat}

/-! ## Charges -/

/-- What an operation adds to a counter of a process. -/
def Op.charges (m : Mem) (z : Slot) (k : Counter) : Op → Nat
  | .chargeSleep q => if q = z ∧ (m.proc q).state = .sleeping ∧ k = .stime then 1 else 0
  | .charge q =>
    if q = z ∧ ((m.proc q).state = .runnable ∧ k = .retime ∨ (m.proc q).state = .running ∧ k = .rtime)
    then 1 else 0
  | _ => 0

/-- Apart from `allocproc`, the counters are changed by `update_ticks` only. -/
theorem Op.apply_time (op : Op) (m : Mem) (z : Slot) (k : Counter) (hop : ∀ a, op ≠ .setPagetable z a) :
    ((op.apply m).proc z).time k =
      if op.charges m z k = 1 then toLong ((m.proc z).time k + 1) else (m.proc z).time k := by
  by_cases ht : op.target = some z
  · rw [op.apply_proc_target m ht]
    cases op with
    | setPagetable q a =>
      cases ht
      exact absurd rfl (hop a)
    | chargeSleep q =>
      cases ht
      cases k with
      | stime => by_cases hs : (m.proc z).state = .sleeping <;> simp [write, charges, Proc.time, hs]
      | rtime | retime => simp [write, charges, Proc.time]
    | charge q =>
      cases ht
      cases k with
      | stime => simp [write, charges, Proc.time]
      | rtime => by_cases hs : (m.proc z).state = .running <;> simp [write, charges, Proc.time, hs]
      | retime => by_cases hs : (m.proc z).state = .runnable <;> simp [write, charges, Proc.time, hs]
    | _ => cases k <;> rfl
  · rw [op.apply_proc_of_ne m ht, if_neg]
    cases op with
    | chargeSleep q | charge q =>
      have hq : q ≠ z := fun hq => ht (by rw [hq]; rfl)
      simp [charges, hq]
    | _ => rintro ⟨⟩

theorem Op.charges_le_one (op : Op) (m : Mem) (z : Slot) (k : Counter) : op.charges m z k ≤ 1 := by
  cases op with
  | chargeSleep q | charge q =>
    simp only [charges]
    split <;> omega
  | _ => exact Nat.zero_le _

/-- In a sum of `long`s a counter grows by what is charged to it. -/
theorem Op.toLong_apply_time {op : Op} {m : Mem} {z : Slot} (hop : ∀ a, op ≠ .setPagetable z a)
    (k : Counter) (b : Int) :
    toLong (((op.apply m).proc z).time k + b) = toLong ((m.proc z).time k + (op.charges m z k + b)) := by
  rw [op.apply_time m z k hop]
  split
  · rename_i hone
    rw [toLong_toLong_add, hone, Int.add_assoc]
    rfl
  · rename_i hone
    have hzero : op.charges m z k = 0 := by
      have := op.charges_le_one m z k
      omega
    rw [hzero]
    simp

/-- What an operation adds to the three counters together. -/
def Op.charged (op : Op) (m : Mem) (z : Slot) : Nat :=
  op.charges m z .rtime + op.charges m z .retime + op.charges m z .stime

/-- The number of charges since `allocproc` cleared the counters. -/
def recordCharges (m : Mem) (h : Slot → Nat) (op : Op) (z : Slot) : Nat :=
  match op with
  | .setPagetable np _ => if np = z then 0 else h z
  | _ => h z + op.charged m z

/-- The kernel together with the charges of every process. -/
def chargeLog (n : Nat) : TransitionSystem (State n × (Slot → Nat)) (Fin n × Input) :=
  (kernel n).observe (fun _ => 0) fun s x h => recordCharges s.mem h (s.op x)

theorem total_apply {op : Op} {m : Mem} {h : Slot → Nat} (z : Slot)
    (hz : toLong (m.proc z).total = toLong (h z)) :
    toLong ((op.apply m).proc z).total = toLong (recordCharges m h op z) := by
  have hsum : ∀ x : Proc, x.total = x.time .rtime + (x.time .retime + x.time .stime) := by
    intro x
    rw [Proc.total, Int.add_assoc]
    rfl
  by_cases hop : ∃ a, op = .setPagetable z a
  · obtain ⟨a, rfl⟩ := hop
    rw [Op.apply_proc_target _ _ rfl]
    simp [Op.write, Proc.total, recordCharges]
  · have hne : ∀ a, op ≠ .setPagetable z a := fun a ha => hop ⟨a, ha⟩
    have hrec : recordCharges m h op z = h z + op.charged m z := by
      unfold recordCharges
      split
      · rename_i np a
        have hnp : np ≠ z := fun hnp => hne a (by rw [hnp])
        rw [if_neg hnp]
        rfl
      · rfl
    -- one counter after the other, each in front of the rest of the sum
    calc toLong ((op.apply m).proc z).total
        = toLong ((m.proc z).time .rtime + (op.charges m z .rtime +
            (((op.apply m).proc z).time .retime + ((op.apply m).proc z).time .stime))) := by
          rw [hsum, Op.toLong_apply_time hne]
      _ = toLong (((op.apply m).proc z).time .retime + ((m.proc z).time .rtime +
            op.charges m z .rtime + ((op.apply m).proc z).time .stime)) := by
          congr 1
          omega
      _ = toLong (((op.apply m).proc z).time .stime + ((m.proc z).time .rtime +
            op.charges m z .rtime + (m.proc z).time .retime + op.charges m z .retime)) := by
          rw [Op.toLong_apply_time hne]
          congr 1
          omega
      _ = toLong ((m.proc z).total + op.charged m z) := by
          rw [Op.toLong_apply_time hne, hsum, Op.charged]
          congr 1
          push_cast
          omega
      _ = toLong (recordCharges m h op z) := by
          rw [hrec, ← toLong_toLong_add, hz, toLong_toLong_add]
          push_cast
          rfl

/-- The sum of the counters is the number of charges. -/
theorem divisor_eq {x : State n × (Slot → Nat)} (hr : (chargeLog n).Reachable x) (z : Slot) :
    toLong (x.1.mem.proc z).total = toLong (x.2 z) := by
  refine hr.induct (P := fun x : State n × (Slot → Nat) =>
    ∀ z, toLong (x.1.mem.proc z).total = toLong (x.2 z)) (fun x hx z => ?_)
    (fun x i y _ hz _ hs z => ?_) z
  · obtain ⟨⟨b, hb⟩, hx2⟩ := hx
    rw [hb, hx2]
    by_cases hz : z = 0
    · subst hz
      rfl
    · rw [boot_proc_of_ne b hz]
      rfl
  · obtain ⟨hstep, hh⟩ := observe_step.mp hs
    rw [hh]
    have hmem : y.1.mem = (x.1.op i).apply x.1.mem := State.step_mem hstep
    rw [hmem]
    exact total_apply z (hz z)

/-! ## The division -/

/-- The slot that a loop looks at in its next step. -/
def LoopPc.looksAt : LoopPc → Option Nat
  | enter i _ | rescan _ i _ => some i
  | visit p _ => some p.val
  | start _ | back _ | test _ _ => none

/-- The slot that `schedulerCFS` or `minimum_vruntime` looks at next on a hart. -/
def State.cfsSlot (s : State n) (c : Fin n) : Option Nat :=
  match s.cur c with
  | .scheduler .cfs pc :: _ => pc.looksAt
  | _ => none

/-- The next step of a hart evaluates `check_vruntime(p)`. -/
def State.evaluates (s : State n) (c : Fin n) (p : Slot) : Prop :=
  s.cfsSlot c = some p.val ∧ (s.mem.proc p).state = .runnable

instance (s : State n) (c : Fin n) (p : Slot) : Decidable (s.evaluates c p) :=
  inferInstanceAs (Decidable (_ ∧ _))

/-- Where `check_vruntime(p)` is evaluated, the divisor is not zero exactly if the number of
    times that `update_ticks` has charged the process since `allocproc` is not a multiple of `2 ^ 64`;
    in particular not before the first charge. -/
theorem vruntime_divisor_iff {x : State n × (Slot → Nat)} {c : Fin n} {p : Slot}
    (hr : (chargeLog n).Reachable x) (_ : x.1.evaluates c p) :
    toLong ((x.1.mem.proc p).rtime + (x.1.mem.proc p).retime + (x.1.mem.proc p).stime) ≠ 0 ↔
      ¬ 2 ^ 64 ∣ x.2 p := by
  have hdiv := divisor_eq hr p
  rw [Proc.total] at hdiv
  rw [hdiv, ne_eq, not_iff_not, toLong, ← Int.dvd_iff_bmod_eq_zero]
  exact Int.natCast_dvd_natCast

theorem chargeLog_boot (n : Nat) (b : Boot) :
    (chargeLog n).Reachable (State.boot n b, fun _ => 0) :=
  .init ⟨⟨b, rfl⟩, rfl⟩

/-- The first process sets the policy to 2, and a timer interrupt makes it yield. -/
def chargedRun : List (Fin 1 × Input) :=
  List.replicate 5 (0, .run) ++ [(0, .syscall (.setPolicy 2))] ++ List.replicate 4 (0, .run) ++
    [(0, .timer)] ++ List.replicate 202 (0, .run)

/-- `minimum_vruntime` looks at the first process, which has been charged once. -/
theorem vruntime_divisor_iff_once :
    ∃ x : State 1 × (Slot → Nat), x.2 0 = 1 ∧ x.1.evaluates 0 0 ∧
      toLong ((x.1.mem.proc 0).rtime + (x.1.mem.proc 0).retime + (x.1.mem.proc 0).stime) ≠ 0 := by
  have hrun : ((chargeLog 1).run (State.boot 1 ⟨1, 2, 3, 0⟩, fun _ => 0) chargedRun).map
      (fun x => (decide (x.1.evaluates 0 0), x.2 0)) = some (true, 1) := by
    decide +kernel
  obtain ⟨x, hx, hproj⟩ := Option.map_eq_some_iff.mp hrun
  simp only [Prod.mk.injEq, decide_eq_true_eq] at hproj
  refine ⟨x, hproj.2, hproj.1,
    (vruntime_divisor_iff (reachable_run (chargeLog_boot 1 _) hx) hproj.1).mpr ?_⟩
  rw [hproj.2]
  decide

/-- It sets the policy to 2, forks and sleeps. -/
def unchargedRun : List (Fin 1 × Input) :=
  List.replicate 5 (0, .run) ++ [(0, .syscall (.setPolicy 2))] ++ List.replicate 4 (0, .run) ++
    [(0, .syscall .fork)] ++ List.replicate 4 (0, .run) ++ [(0, .page 5), (0, .page 5)] ++
    List.replicate 6 (0, .run) ++ [(0, .syscall (.sleep 1))] ++ List.replicate 10 (0, .run)

/-- `minimum_vruntime` looks at the child, to which nothing has been charged yet. -/
theorem vruntime_divides_by_zero :
    ∃ s : State 1, (kernel 1).Reachable s ∧ s.evaluates 0 1 ∧
      (s.mem.proc 1).rtime + (s.mem.proc 1).retime + (s.mem.proc 1).stime = 0 := by
  have hrun : ((kernel 1).run (State.boot 1 ⟨1, 2, 3, 0⟩) unchargedRun).map
      (fun s => (decide (s.evaluates 0 1),
        (s.mem.proc 1).rtime + (s.mem.proc 1).retime + (s.mem.proc 1).stime)) = some (true, 0) := by
    decide +kernel
  obtain ⟨s, hreach, hproj⟩ := exists_reachable_of_run hrun ⟨_, rfl⟩
  simp only [Prod.mk.injEq, decide_eq_true_eq] at hproj
  exact ⟨s, hreach, hproj⟩

end Xv6
