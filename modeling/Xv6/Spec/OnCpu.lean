import Xv6.Spec.Reachable

/-!
# `RUNNING` means: on exactly one hart

`p->lock` is handed over across `swtch`, between three scheduler loops that enter each
other. What remains true at every point where the lock is free: a process is `RUNNING`
iff exactly one hart has it in `c->proc`, a dispatched process was on no hart, and `wait`
frees no slot whose kernel stack is still in use.
-/

namespace Xv6

open TransitionSystem

variable {n : Nat} {s : State n}

/-- While `p->lock` is free, some hart has `c->proc == p` iff `p` is `RUNNING`. -/
theorem Inv.running_iff (h : Inv s) {p : Slot} (hl : s.lock (.proc p) = none) :
    (s.mem.proc p).state = .running ↔ ∃ c, s.proc c = some p := by
  constructor
  · intro hs
    by_cases hrun : ∃ c, s.running c = .proc p
    · obtain ⟨c, hc⟩ := hrun
      exact ⟨c, h.thread c p hc⟩
    · have hsus := h.suspended p fun c hc => hrun ⟨c, hc⟩
      exact absurd hs hsus.not_running
  · rintro ⟨c, hc⟩
    by_cases hs : (s.mem.proc p).state = .running
    · exact hs
    · exact absurd hc (h.proc_ne_of_free hl hs c)

/-- The slot that a step dispatches or frees is on no hart. -/
theorem Inv.off_cpu_of_op (h : Inv s) {s' : State n} {x : Fin n × Input}
    (hs : s.step x = some s') {p : Slot}
    (hop : s.op x = .dispatch p ∨ ∃ q addr addr2, s.op x = .reap q p addr addr2) (c : Fin n) :
    s.proc c ≠ some p ∧ s.running c ≠ .proc p := by
  obtain ⟨rest, e, hp, hb, hope, -⟩ := h.step_commit hs
  have hne : e.op ≠ .skip := by
    rcases hop with hop | ⟨q, addr, addr2, hop⟩ <;> simp [← hope, hop]
  obtain ⟨f, -, he⟩ := hp.exec_of_op hne
  have hspec := effect_opSpec he
  rw [hope] at hop
  -- both operations find `p->lock` free and `p` not `RUNNING`
  have hfree : s.lock (.proc p) = none ∧ (s.mem.proc p).state ≠ .running := by
    rcases hop with hop | ⟨q, addr, addr2, hop⟩
    · rw [hop] at hspec
      exact ⟨State.lock_of_acquire hb hspec.2.1, by simp [hspec.1]⟩
    · rw [hop] at hspec
      exact ⟨State.lock_of_visit hb hspec.2.2.2.1, by simp [hspec.2.2.1]⟩
  exact ⟨h.proc_ne_of_free hfree.1 hfree.2 c, h.not_running_of_free hfree.1 hfree.2 c⟩

/-- In every reachable state a process whose lock is free is `RUNNING` iff it is on exactly
    one hart, and on none otherwise; no process is on two harts, whether its lock is free or
    not; a process is dispatched only from no hart; and `wait` frees a slot only when no hart
    has it in `c->proc` or runs on its kernel stack. -/
theorem running_iff_exactly_one_cpu (hr : (kernel n).Reachable s) :
    (∀ p, s.lock (.proc p) = none →
      ((s.mem.proc p).state = .running ↔ ∃! c, s.proc c = some p) ∧
      ((s.mem.proc p).state ≠ .running → ∀ c, s.proc c ≠ some p)) ∧
    (∀ p c d, s.proc c = some p → s.proc d = some p → c = d) ∧
    (∀ p c d, s.running c = .proc p → s.running d = .proc p → c = d) ∧
    (∀ x s' p, (kernel n).step s x = some s' → s.op x = .dispatch p →
      ∀ c, s.proc c ≠ some p ∧ s.running c ≠ .proc p) ∧
    (∀ x s' q p addr addr2, (kernel n).step s x = some s' → s.op x = .reap q p addr addr2 →
      ∀ c, s.proc c ≠ some p ∧ s.running c ≠ .proc p) := by
  have h := inv_reachable hr
  refine ⟨?_, fun p c d => h.uniq c d p, fun p c d hc hd => h.running_inj (hc.trans hd.symm),
    fun x s' p hs hop => h.off_cpu_of_op hs (.inl hop),
    fun x s' q p addr addr2 hs hop => h.off_cpu_of_op hs (.inr ⟨q, addr, addr2, hop⟩)⟩
  intro p hl
  refine ⟨⟨?_, ?_⟩, fun hs c => h.proc_ne_of_free hl hs c⟩
  · intro hs
    obtain ⟨c, hc⟩ := (h.running_iff hl).mp hs
    exact ⟨c, hc, fun d hd => h.uniq d c p hd hc⟩
  · rintro ⟨c, hc, -⟩
    exact (h.running_iff hl).mpr ⟨c, hc⟩

/-- Hart 0 has dispatched the first process and `forkret` has released its lock. -/
theorem running_iff_exactly_one_cpu_first : ∃ s : State 2,
    (kernel 2).run (State.boot 2 ⟨1, 2, 3, 0⟩) (List.replicate 4 (0, .run)) = some s ∧
      (s.mem.proc 0).state = .running ∧ ∃! c, s.proc c = some 0 := by
  have hrun : ((kernel 2).run (State.boot 2 ⟨1, 2, 3, 0⟩) (List.replicate 4 (0, .run))).map
      (fun s => (s.lock (.proc 0), (s.mem.proc 0).state)) = some (none, .running) := by
    decide +kernel
  obtain ⟨s, hs, hval⟩ := Option.map_eq_some_iff.mp hrun
  obtain ⟨hlock, hstate⟩ := Prod.mk.inj hval
  have hr : (kernel 2).Reachable s := reachable_run (.init ⟨_, rfl⟩) hs
  exact ⟨s, hs, hstate, ((running_iff_exactly_one_cpu hr).1 0 hlock).1.mp hstate⟩

end Xv6
