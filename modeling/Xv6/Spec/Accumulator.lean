import Xv6.Spec.Reaping

/-!
# The accumulator of a new process

`p->accumulator` is what `schedulerPriority` compares. Timer interrupts add `ps_priority`
to it and nothing else ever stores it: `allocproc` has only the comment of the missing
assignment, and `freeproc` does not touch the field. So a new process starts with what all
earlier users of its slot have accumulated (`Earned`), whatever the accumulators of the
processes that are ready to run.
-/

namespace Xv6

open TransitionSystem

variable {n : Nat}

/-- The minimum of the accumulators of the processes that are `RUNNABLE` or `RUNNING`, 0 if
    there is none. -/
def minAccumulator (m : Mem) : Int :=
  (((List.finRange NPROC).filter fun z =>
      (m.proc z).state = .runnable ∨ (m.proc z).state = .running).map fun z =>
    (m.proc z).accumulator).min?.getD 0

/-- What the processes that ran in a slot have accumulated. -/
structure Earnings where
  /-- all of them, since boot -/
  total : Slot → Int
  /-- the ones before the present process -/
  before : Slot → Int

namespace Earnings

def start : Earnings := ⟨fun _ => 0, fun _ => 0⟩

/-- `accumulate` adds the priority; `alloc` begins a new process. -/
def record (m : Mem) (h : Earnings) : Op → Earnings
  | .accumulate p => { h with total := upd h.total p (h.total p + (m.proc p).psPriority) }
  | .alloc np => { h with before := upd h.before np (h.total np) }
  | _ => h

variable {m : Mem} {h : Earnings} {op : Op} {z : Slot}

theorem record_total_of_ne (hop : op ≠ .accumulate z) : (h.record m op).total z = h.total z := by
  cases op with
  | accumulate p =>
    have hne : z ≠ p := fun heq => hop (by rw [heq])
    exact upd_of_ne hne _
  | _ => rfl

theorem record_before_of_ne (hop : op ≠ .alloc z) : (h.record m op).before z = h.before z := by
  cases op with
  | alloc np =>
    have hne : z ≠ np := fun heq => hop (by rw [heq])
    exact upd_of_ne hne _
  | _ => rfl

end Earnings

/-- The kernel together with what was accumulated in every slot. -/
def earnings (n : Nat) : TransitionSystem (State n × Earnings) (Fin n × Input) :=
  (kernel n).observe Earnings.start fun s x h => h.record s.mem (s.op x)

/-- An accumulator is the sum of the priorities that were added since boot, and a process that
    `fork` is still building has not added anything. -/
structure Earned (s : State n) (h : Earnings) : Prop where
  total : ∀ z, (s.mem.proc z).accumulator = toLong (h.total z)
  new : ∀ p pc np, .fork pc ∈ s.stack (.proc p) → pc.forking = some np → pc ≠ .found np →
    h.total np = h.before np

/-- Only a timer interrupt stores the accumulator. -/
theorem Op.write_accumulator {m : Mem} {x : Proc} {op : Op} (hop : ∀ p, op ≠ .accumulate p) :
    (op.write m x).accumulator = x.accumulator := by
  cases op with
  | accumulate p => exact absurd rfl (hop p)
  | _ => rfl

section

variable {s : State n} {c : Fin n} {i : Input} {rest : List Frame} {e : Effect} {h : Earnings}
variable (hi : Inv s) (hp : Planned s c i rest e)
include hp

/-- A process adds to its own accumulator. -/
theorem Inv.running_of_accumulate (hi : Inv s) {p : Slot} (hop : e.op = .accumulate p) :
    s.running c = .proc p := by
  obtain ⟨f, hc, -, hspec⟩ := hp.opSpec hop (by simp)
  obtain ⟨hme, rfl | rfl⟩ := hspec
  · exact hi.running_of_not_scheduler hc (by simp) hme
  · exact hi.running_of_not_scheduler hc (by simp) hme

variable (hh : Earned s h)
include hh

omit hp in
theorem Earned.total_next (z : Slot) :
    ((e.op.apply s.mem).proc z).accumulator = toLong ((h.record s.mem e.op).total z) := by
  by_cases hop : e.op = .accumulate z
  · rw [hop, Op.apply_proc_target _ _ rfl]
    show toLong ((s.mem.proc z).accumulator + _) = toLong (upd h.total z _ z)
    rw [upd_self, hh.total z, toLong_toLong_add]
  · rw [Earnings.record_total_of_ne hop, ← hh.total z]
    by_cases ht : e.op.target = some z
    · rw [e.op.apply_proc_target s.mem ht]
      refine Op.write_accumulator fun p hop' => hop ?_
      rw [hop'] at ht ⊢
      cases ht
      rfl
    · rw [e.op.apply_proc_of_ne s.mem ht]

include hi in
theorem Earned.new_next (p : Slot) (pc : ForkPc) (np : Slot)
    (hm : .fork pc ∈ (s.commit c rest e).stack (.proc p)) (hpc : pc.forking = some np)
    (hne : pc ≠ .found np) :
    (h.record s.mem e.op).total np = (h.record s.mem e.op).before np := by
  rcases hp.mem_stack (by simp) hm with ⟨hf, -⟩ | ⟨hr, hf⟩
  · -- neither a timer interrupt nor `allocproc` works on the slot of another `fork`
    have hacc : e.op ≠ .accumulate np := fun hop =>
      hi.not_running_of_forking hf hpc c (hi.running_of_accumulate hp hop)
    have halloc : e.op ≠ .alloc np := fun hop =>
      nomatch ((hi.fork p pc hf).used hpc hne).symm.trans (hi.alloc_unused hp hop)
    rw [Earnings.record_total_of_ne hacc, Earnings.record_before_of_ne halloc]
    exact hh.new p pc np hf hpc hne
  · rcases hi.fork_new hp hr hf with rfl | ⟨pc', hstk, hnext⟩
    · cases hpc
    have hmem : .fork pc' ∈ s.stack (.proc p) := mem_of_eq_cons hstk
    cases hnext with
    | alloc j hop => cases hpc
    | found q hop hs hacq => cases hpc; exact absurd rfl hne
    | trapframe q hop =>
      cases hpc
      rw [hop]
      exact (upd_self ..).symm
    | pagetable q a hop | copy q a hop | setParent q r hme hop | relock q r pid hme hop
    | runnable q pid hop =>
      rw [hop]
      exact hh.new p _ np hmem hpc (by simp)

end

/-! ## Runs -/

theorem earned_boot (b : Boot) : Earned (State.boot n b) Earnings.start := by
  constructor
  · intro z
    by_cases hz : z = 0
    · subst hz
      simp [State.boot, userinit, procinit, Op.apply, Op.target, Op.write, Proc.zero,
        Earnings.start, toLong]
    · rw [boot_proc_of_ne b hz]
      rfl
  · intro p pc np hm
    cases mem_boot_stack hm

theorem Earned.step {s s' : State n} {h : Earnings} {x : Fin n × Input} (hi : Inv s)
    (hh : Earned s h) (hs : s.step x = some s') : Earned s' (h.record s.mem (s.op x)) := by
  obtain ⟨rest, e, hp, -, hop, rfl⟩ := hi.step_commit hs
  rw [hop]
  exact { total := hh.total_next, new := hh.new_next hi hp }

theorem earned_reachable {x : State n × Earnings} (hr : (earnings n).Reachable x) :
    Earned x.1 x.2 := by
  refine ReachableBy.induct (P := fun x => Earned x.1 x.2) ?_ ?_ hr
  · rintro ⟨s, h⟩ ⟨⟨b, rfl⟩, rfl⟩
    exact earned_boot b
  · intro x i y hx hh _ hs
    obtain ⟨hs, hy⟩ := observe_step.mp hs
    rw [hy]
    exact hh.step (inv_reachable (reachable_of_observe hx)) hs

/-- When `fork` makes a child `RUNNABLE`, its accumulator is what the earlier users of the slot
    have accumulated. -/
theorem accumulator_of_setRunnable {x y : State n × Earnings} {i : Fin n × Input}
    {parent np : Slot} (hr : (earnings n).Reachable x) (hs : (earnings n).step x i = some y)
    (hop : x.1.op i = .setRunnable parent np) :
    (y.1.mem.proc np).accumulator = toLong (x.2.before np) := by
  have hi := inv_reachable (reachable_of_observe hr)
  have hh := earned_reachable hr
  obtain ⟨rest, e, hp, -, hope, hs'⟩ := hi.step_commit (observe_step.mp hs).1
  have hop' : e.op = .setRunnable parent np := hope.symm.trans hop
  obtain ⟨f, hc, -, hspec⟩ := hp.opSpec hop' (by simp)
  obtain ⟨-, pid, rfl⟩ := hspec
  obtain ⟨p, -, -, hstk⟩ := hi.exec_fork hc
  have hnew := hh.new p (.runnable np pid) np (mem_of_eq_cons hstk) rfl
    (by simp)
  rw [hs']
  show ((e.op.apply x.1.mem).proc np).accumulator = _
  rw [hop', Op.apply_proc_target _ _ rfl, ← hnew]
  exact hh.total np

/-- A child gets the minimum of the accumulators of the processes that are ready to run
    exactly if the earlier users of its slot happen to have accumulated just that much, and in
    two runs the children get the same accumulator exactly if the earlier users of the two
    slots have accumulated the same. -/
theorem fork_accumulator_iff {x y : State n × Earnings} {i : Fin n × Input} {parent np : Slot}
    (hr : (earnings n).Reachable x) (hs : (earnings n).step x i = some y)
    (hop : x.1.op i = .setRunnable parent np) :
    ((y.1.mem.proc np).accumulator = minAccumulator x.1.mem ↔
      toLong (x.2.before np) = minAccumulator x.1.mem) ∧
    ∀ (m : Nat) (x' y' : State m × Earnings) (i' : Fin m × Input) (parent' np' : Slot),
      (earnings m).Reachable x' → (earnings m).step x' i' = some y' →
      x'.1.op i' = .setRunnable parent' np' →
      ((y.1.mem.proc np).accumulator = (y'.1.mem.proc np').accumulator ↔
        toLong (x.2.before np) = toLong (x'.2.before np')) := by
  have hacc := accumulator_of_setRunnable hr hs hop
  refine ⟨by rw [hacc], fun m x' y' i' parent' np' hr' hs' hop' => ?_⟩
  rw [hacc, accumulator_of_setRunnable hr' hs' hop']

/-- The parent and the child when `fork` makes the child `RUNNABLE`. -/
def Op.forked : Op → Option (Slot × Slot)
  | .setRunnable parent np => some (parent, np)
  | _ => none

theorem Op.eq_of_forked {op : Op} {parent np : Slot} (h : op.forked = some (parent, np)) :
    op = .setRunnable parent np := by
  cases op with
  | setRunnable a b =>
    cases h
    rfl
  | _ => cases h

/-- The first child in a slot that was never used. -/
theorem fork_accumulator_iff_first : ∃ x y : State 2 × Earnings,
    (earnings 2).run (State.boot 2 ⟨1, 2, 3, 0⟩, Earnings.start) forkRun.dropLast = some x ∧
      (earnings 2).step x (0, .run) = some y ∧ x.1.op (0, .run) = .setRunnable 0 1 ∧
      ((y.1.mem.proc 1).accumulator = minAccumulator x.1.mem ↔
        toLong (x.2.before 1) = minAccumulator x.1.mem) := by
  have hrun : ((earnings 2).run (State.boot 2 ⟨1, 2, 3, 0⟩, Earnings.start) forkRun.dropLast).map
      (fun x => (((earnings 2).step x (0, .run)).isSome, (x.1.op (0, .run)).forked)) =
      some (true, some (0, 1)) := by decide +kernel
  obtain ⟨x, hx, h⟩ := Option.map_eq_some_iff.mp hrun
  simp only [Prod.mk.injEq] at h
  obtain ⟨y, hy⟩ := Option.isSome_iff_exists.mp h.1
  have hop := Op.eq_of_forked h.2
  have hr : (earnings 2).Reachable x := reachable_run (.init ⟨⟨_, rfl⟩, rfl⟩) hx
  exact ⟨x, y, hx, hy, hop, (fork_accumulator_iff hr hy hop).1⟩

/-- Hart 1 dispatches the child of `forkRun`, which sets its priority to `k`; a timer interrupt
    makes it accumulate and yield, and it is dispatched again. -/
def accumulateRun (k : Int) : List (Fin 2 × Input) :=
  List.replicate 7 (1, .run) ++ [(1, .syscall (.setPsPriority k))] ++ List.replicate 4 (1, .run) ++
    [(1, .timer)] ++ List.replicate 265 (1, .run)

/-- In both runs only the first process is alive when it forks into slot 1, and its accumulator
    is 0. In the second run a child with priority 5 used the slot before: the new child
    starts with accumulator 5 and not with 0. -/
theorem fork_accumulator_leftover :
    ((kernel 2).run (State.boot 2 ⟨1, 2, 3, 0⟩) forkRun.dropLast).map
      (fun s => ((s.op (0, .run)).forked, minAccumulator s.mem,
        (s.step (0, .run)).map fun s' => (s'.mem.proc 1).accumulator)) =
      some (some (0, 1), 0, some 0) ∧
    ((kernel 2).run (State.boot 2 ⟨1, 2, 3, 0⟩)
        (forkRun ++ accumulateRun 5 ++ (exitRun 0 [0]).drop 7 ++ waitRun 0 0 ++
          forkAgainRun.dropLast)).map
      (fun s => ((s.op (0, .run)).forked, minAccumulator s.mem,
        (s.step (0, .run)).map fun s' => (s'.mem.proc 1).accumulator)) =
      some (some (0, 1), 0, some 5) := by
  decide +kernel

end Xv6
