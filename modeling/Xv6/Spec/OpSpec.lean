import Xv6.Spec.StepSpec

/-!
# Which frame performs which operation

`effect_opSpec` is the inversion lemma for the operations on the shared memory: from the
operation of a step it recovers the frame that performs it, the locks it takes and the
tests it has made.
-/

namespace Xv6

/-! ## Operations -/

/-- What is known when frame `f` of `me` performs an operation in a step with effect `e`. -/
def OpSpec (m : Mem) (me : Option Slot) (f : Frame) (e : Effect) : Op → Prop
  | .skip => True
  | .alloc np => f = .fork (.found np)
  | .setTrapframe np a => f = .fork (.trapframe np) ∧ a ≠ 0
  | .setPagetable np a => f = .fork (.pagetable np) ∧ a ≠ 0
  | .free np =>
    f = .fork (.trapframe np) ∨ f = .fork (.pagetable np) ∨ f = .fork (.copy np)
  | .copy p np => me = some p ∧ f = .fork (.copy np)
  | .setParent p np =>
    me = some p ∧ e.visit = some .wait ∧ ∃ pid, f = .fork (.setParent np pid)
  | .setRunnable parent np =>
    (m.proc np).parent = some parent ∧ ∃ pid, f = .fork (.runnable np pid)
  | .dispatch p =>
    (m.proc p).state = .runnable ∧ e.acquire = some (.proc p) ∧ e.switch = .dispatch p
  | .yield p => me = some p ∧ f = .yield .acquire ∧ e.acquire = some (.proc p)
  | .sleep p ch => me = some p ∧ ∃ lk, f = .sleep ch lk .locked ∧ e.release = lk
  | .awake p => me = some p ∧ ∃ ch lk, f = .sleep ch lk .wake
  | .wakeup _ q => me ≠ some q ∧ e.visit = some (.proc q)
  | .kill q pid => (m.proc q).pid = pid ∧ f = .kill pid q ∧ e.visit = some (.proc q)
  | .setkilled p => me = some p ∧ f = .usertrap .setkilled
  | .exitMsg p st msg => me = some p ∧ f = .exit (.entry st msg)
  | .closeFd p fd => me = some p ∧ ∃ st, f = .exit (.closed st fd)
  | .clearCwd p => me = some p ∧ ∃ st, f = .exit (.iput st)
  | .reparent p pp =>
    me = some p ∧ (m.proc pp).parent = some p ∧ ∃ st, f = .exit (.reparent st pp)
  | .zombie p st => me = some p ∧ f = .exit (.zombie st)
  | .copyMsg p _ _ => me = some p
  | .reap p pp addr addr2 =>
    me = some p ∧ (m.proc pp).parent = some p ∧ (m.proc pp).state = .zombie ∧
      e.visit = some (.proc pp) ∧ e.release = some .wait ∧
      ∃ havekids, f = .wait addr addr2 (.scan pp havekids)
  | .accumulate p => me = some p ∧ (f = .usertrap .accumulate ∨ f = .kerneltrap .yield)
  | .setPsPriority p k => me = some p ∧ f = .setPsPriority k
  | .setCfsPriority p k => me = some p ∧ f = .setCfsPriority k
  | .chargeSleep q => f = .updateTicks q false
  | .charge q => f = .updateTicks q true
  | .tick => f = .clockintr .acquire
  | .setPolicy k => f = .setPolicy k ∧ validArg k = true
  | .setFd p _ _ | .setCwd p _ | .setMem p _ _ => me = some p ∧ f = .other

variable {e : Effect} {f : Frame} {m : Mem}

theorem procActs_opSpec {p : Slot} (h : ProcActs m p f e) :
    OpSpec m (some p) f e e.op := by
  cases h with
  | yield => exact ⟨rfl, rfl, rfl⟩
  | sleep ch lk => exact ⟨rfl, lk, rfl, rfl⟩
  | awake ch lk => exact ⟨rfl, ch, lk, rfl⟩
  | forkAlloc np => exact rfl
  | forkFree np hpc => exact hpc.imp (congrArg _) (Or.imp (congrArg _) (congrArg _))
  | forkTrapframe np a ha | forkPagetable np a ha => exact ⟨rfl, ha⟩
  | forkCopy np | exitInit st msg | exitEntry st msg | exitZombie st
  | trapFault | setPs k | setCfs k hk => exact ⟨rfl, rfl⟩
  | forkParent np pid => exact ⟨rfl, rfl, pid, rfl⟩
  | forkRunnable np parent pid hpar => exact ⟨hpar, pid, rfl⟩
  | exitClosed st fd | exitCwd st => exact ⟨rfl, st, rfl⟩
  | exitChild st pp hpar => exact ⟨rfl, hpar, st, rfl⟩
  | waitFailStatus | waitChild => exact rfl
  | waitReap pp a a2 b hpar hz => exact ⟨rfl, hpar, hz, rfl, rfl, b, rfl⟩
  | kill q pid hpid => exact ⟨hpid, rfl, rfl⟩
  | trapYield => exact ⟨rfl, .inl rfl⟩
  | setPolicy k hk => exact ⟨rfl, hk⟩
  | ownFields hop => rcases hop with ⟨_, _, rfl⟩ | ⟨_, rfl⟩ | ⟨_, _, rfl⟩ <;> exact ⟨rfl, rfl⟩
  | _ => trivial

/-- The frame that performs an operation, and what it has checked. -/
theorem effect_opSpec {me : Option Slot} {i : Input}
    (he : f.effect m me i = some e) : OpSpec m me f e e.op := by
  cases effect_acts he with
  | proc p hme h => exact hme ▸ procActs_opSpec h
  | dispatch l p mn hsel =>
    simp only [Loop.selects, decide_eq_true_eq] at hsel
    exact ⟨hsel.1, rfl, rfl⟩
  | wake hl hq => exact ⟨hq, rfl⟩
  | kernelYield p hme hs => exact ⟨hme, .inr rfl⟩
  | tick | chargeSleep q | charge q => exact rfl
  | _ => trivial

end Xv6
