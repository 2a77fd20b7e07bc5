import Xv6.Spec.MinimumScan

/-!
# A scheduler loop finds work

On a table that does not change, the result of `find_minimum` and `minimum_vruntime` is the value of
some `RUNNABLE` process, whatever the -1 in `minimum` makes of the others (`exists_selects`). So the
test of the loop succeeds for at least one slot, and a hart that goes on alone switches to a process
before it has been once around the table (`work_conserving`).

`Looping` describes a hart in a scheduler loop while nothing else happens, and `Walk` what it does
from there, with the number of slots it visits.
-/

namespace Xv6

variable {l : Loop} {m : Mem} {rest : List Frame} {pc : LoopPc} {s : State 1}

/-- The minimum is the value of a `RUNNABLE` process, which then passes the test. -/
theorem Loop.exists_selects {T : Slot → Proc} (hr : ∃ z, (T z).state = .runnable) :
    ∃ q, (T q).state = .runnable ∧ l.key (T q) = l.scan T := by
  obtain ⟨z, hz⟩ := hr
  have hne : (ready T).map (fun q => l.key (T q)) ≠ [] :=
    List.ne_nil_of_mem (List.mem_map_of_mem (mem_ready.mpr hz))
  have hmem := (scanMin_spec (x := (-1 : Int)) hne).1
  rw [← scan_eq_scanMin] at hmem
  exact mem_values_iff.mp hmem

/-! ## The hart in its loop -/

/-- The hart stands at a point of a scheduler loop, and the process locks are free. -/
structure Looping (m : Mem) (l : Loop) (rest : List Frame) (pc : LoopPc) (s : State 1) : Prop where
  mem : s.mem = m
  running : s.running 0 = .sched 0
  stack : s.cur 0 = .scheduler l pc :: rest
  free : ∀ q, s.lock (.proc q) = none

/-- The next thing the hart does is to visit a slot. -/
def State.visiting (s : State 1) : Bool :=
  match s.cur 0 with
  | .scheduler _ (.visit _ _) :: _ => true
  | _ => false

/-- The hart goes on alone from `s` to `s'` and visits `j` slots on the way. -/
inductive Walk : State 1 → Nat → State 1 → Prop
  | refl (s : State 1) : Walk s 0 s
  | visit {s s₁ s' : State 1} {j : Nat} : s.visiting = true → s.step (0, .run) = some s₁ →
      Walk s₁ j s' → Walk s (j + 1) s'
  | move {s s₁ s' : State 1} {j : Nat} : s.visiting = false → s.step (0, .run) = some s₁ →
      Walk s₁ j s' → Walk s j s'

theorem Looping.plan (h : Looping m l rest pc s) :
    s.plan 0 .run = some (rest, schedulerStep m l pc) := by
  simp only [State.plan, h.running, h.stack, State.kernelEntry, Frame.effect, h.mem, Option.map_some]

/-- A step inside of the loop that takes no lock for longer than the step. -/
theorem Looping.step (h : Looping m l rest pc s) (v : Option Lock) (sw : Switch) (pc' : LoopPc)
    (he : schedulerStep m l pc = { visit := v, frames := [.scheduler l pc'], switch := sw })
    (hv : v = none ∨ ∃ q, v = some (.proc q)) (hsw : sw = .stay ∨ sw = .clear) :
    ∃ s', s.step (0, .run) = some s' ∧ Looping m l rest pc' s' := by
  have hplan := h.plan
  rw [he] at hplan
  have hpanics : s.panics 0 { visit := v, frames := [.scheduler l pc'], switch := sw } = false := by
    rcases hv with rfl | ⟨q, rfl⟩
    · rfl
    · simp [State.panics, h.free q]
  have hblocked : s.blocked { visit := v, frames := [.scheduler l pc'], switch := sw } = false := by
    rcases hv with rfl | ⟨q, rfl⟩
    · rfl
    · simp [State.blocked, h.free q]
  have hrunning : s.runningAfter 0 sw = s.running := by
    rcases hsw with rfl | rfl
    · rfl
    · rfl
  refine ⟨s.commit 0 rest { visit := v, frames := [.scheduler l pc'], switch := sw },
    by simp [State.step, hplan, hpanics, hblocked], ?_, ?_, ?_, h.free⟩
  · exact h.mem
  · show s.runningAfter 0 sw 0 = _
    rw [hrunning, h.running]
  · show upd s.stack (s.running 0) _ (s.runningAfter 0 sw 0) = _
    rw [hrunning, upd_self]
    rfl

theorem Looping.not_visiting (h : Looping m l rest pc s) (hpc : ∀ p mn, pc ≠ .visit p mn) :
    s.visiting = false := by
  rw [State.visiting, h.stack]
  cases pc with
  | visit p mn => exact absurd rfl (hpc p mn)
  | enter | start | back | rescan | test => rfl

variable {p : Slot} {mn : Int}

/-- The step at a slot that passes the test. -/
theorem Looping.dispatch (h : Looping m l rest (.visit p mn) s)
    (hsel : l.selects (m.proc p) mn = true) :
    ∃ s', s.step (0, .run) = some s' ∧ s'.running 0 = .proc p := by
  have hplan := h.plan
  simp only [schedulerStep, hsel, if_true] at hplan
  refine ⟨_, by simp [State.step, hplan, State.panics, State.blocked, h.free p]; rfl, ?_⟩
  show upd s.running 0 (.proc p) 0 = _
  exact upd_self ..

/-! ## One round -/

/-- The scan after a round leads to the test of the policy, with the minimum of the table. -/
theorem Looping.rescan {i : Nat} (h : Looping m l rest (.rescan p i (l.scanTo m.proc i)) s) :
    ∃ s', Looping m l rest (.test p (l.scan m.proc)) s' ∧ ∀ {j t}, Walk s' j t → Walk s j t := by
  -- on the number of slots that the scan has still to look at
  obtain ⟨d, hd⟩ : ∃ d, d = NPROC - i := ⟨_, rfl⟩
  induction d generalizing i s with
  | zero =>
    have hi : NPROC ≤ i := by omega
    rw [Loop.scanTo_of_le hi] at h
    obtain ⟨s', hs', hloop⟩ := h.step none .stay (.test p (l.scan m.proc))
      (by simp [schedulerStep, forSlot, Nat.not_lt.mpr hi]) (.inl rfl) (.inl rfl)
    exact ⟨s', hloop, fun hw => .move (h.not_visiting (by rintro _ _ ⟨⟩)) hs' hw⟩
  | succ d ih =>
    have hi : i < NPROC := by omega
    have hnext : l.scanTo m.proc (i + 1) = l.minimum (m.proc ⟨i, hi⟩) (l.scanTo m.proc i) :=
      Loop.scanTo_succ ⟨i, hi⟩
    obtain ⟨s₁, hs₁, hloop⟩ := h.step (some (.proc ⟨i, hi⟩)) .stay
      (.rescan p (i + 1) (l.scanTo m.proc (i + 1)))
      (by simp [schedulerStep, forSlot, hi, hnext]) (.inr ⟨_, rfl⟩) (.inl rfl)
    obtain ⟨s', hs', hwalk⟩ := ih hloop (by omega)
    exact ⟨s', hs', fun hw => .move (h.not_visiting (by rintro _ _ ⟨⟩)) hs₁ (hwalk hw)⟩

/-- The loop keeps the minimum of the table in its variable; `scheduler_old` has none. -/
def Current (l : Loop) (T : Slot → Proc) (mn : Int) : Prop := l = .old ∨ mn = l.scan T

/-- The test of the policy leads to the next slot. -/
theorem Looping.test (h : Looping m l rest (.test p mn) s) (hpol : l.callee m.policy = none) :
    ∃ s', Looping m l rest (.visit (p + 1) mn) s' ∧ ∀ {j t}, Walk s' j t → Walk s j t := by
  obtain ⟨s', hs', hloop⟩ := h.step none .stay (.visit (p + 1) mn)
    (by simp [schedulerStep, hpol]) (.inl rfl) (.inl rfl)
  exact ⟨s', hloop, fun hw => .move (h.not_visiting (by rintro _ _ ⟨⟩)) hs' hw⟩

/-- A visit of a slot that does not pass the test leads to the next slot. -/
theorem Looping.round (h : Looping m l rest (.visit p mn) s) (hsel : l.selects (m.proc p) mn = false)
    (hpol : l.callee m.policy = none) (hmn : Current l m.proc mn) :
    ∃ s' mn', Looping m l rest (.visit (p + 1) mn') s' ∧ Current l m.proc mn' ∧
      ∀ {j t}, Walk s' j t → Walk s (j + 1) t := by
  have hvisit : s.visiting = true := by rw [State.visiting, h.stack]
  obtain ⟨s₁, hs₁, hloop⟩ := h.step (some (.proc p)) .stay (l.afterRound p)
    (by simp [schedulerStep, hsel]) (.inr ⟨p, rfl⟩) (.inl rfl)
  by_cases hl : l = .old
  · subst hl
    have htest : Looping m .old rest (.test p 0) s₁ := hloop
    obtain ⟨s', hs', hwalk⟩ := htest.test hpol
    exact ⟨s', 0, hs', .inl rfl, fun hw => .visit hvisit hs₁ (hwalk hw)⟩
  · -- the loops with a minimum compute it again
    have hrescan : Looping m l rest (.rescan p 0 (l.scanTo m.proc 0)) s₁ := by
      cases l with
      | old => exact absurd rfl hl
      | priority | cfs => exact hloop
    obtain ⟨s₂, hs₂, hwalk₂⟩ := hrescan.rescan
    obtain ⟨s', hs', hwalk⟩ := hs₂.test hpol
    exact ⟨s', _, hs', .inr rfl, fun hw => .visit hvisit hs₁ (hwalk₂ (hwalk hw))⟩

/-! ## Around the table -/

/-- A visit of a slot that passes the test. -/
theorem Looping.walk_dispatch (h : Looping m l rest (.visit p mn) s)
    (hsel : l.selects (m.proc p) mn = true) :
    ∃ t, Walk s 1 t ∧ t.running 0 = .proc p ∧ (m.proc p).state = .runnable := by
  have hvisit : s.visiting = true := by rw [State.visiting, h.stack]
  obtain ⟨t, ht, hrunning⟩ := h.dispatch hsel
  simp only [Loop.selects, decide_eq_true_eq] at hsel
  exact ⟨t, .visit hvisit ht (.refl t), hrunning, hsel.1⟩

/-- The loop that is `d` slots in front of one that passes the test. -/
theorem Looping.walk {p q : Slot} {d : Nat} (h : Looping m l rest (.visit p mn) s)
    (hpol : l.callee m.policy = none) (hmn : Current l m.proc mn) (hd : (p.val + d) % NPROC = q.val)
    (hq : ∀ mn, Current l m.proc mn → l.selects (m.proc q) mn = true) :
    ∃ j t z, Walk s j t ∧ j ≤ d + 1 ∧ t.running 0 = .proc z ∧ (m.proc z).state = .runnable := by
  induction d generalizing p mn s with
  | zero =>
    have hpq : q = p := by
      refine Fin.ext ?_
      rw [← hd, Nat.add_zero, Nat.mod_eq_of_lt p.isLt]
    obtain ⟨t, hwalk, hrunning, hstate⟩ := h.walk_dispatch (hpq ▸ hq mn hmn)
    exact ⟨1, t, p, hwalk, Nat.le_refl _, hrunning, hstate⟩
  | succ d ih =>
    by_cases hsel : l.selects (m.proc p) mn = true
    · obtain ⟨t, hwalk, hrunning, hstate⟩ := h.walk_dispatch hsel
      exact ⟨1, t, p, hwalk, by omega, hrunning, hstate⟩
    · obtain ⟨s', mn', hs', hmn', hwalk⟩ := h.round (by simpa using hsel) hpol hmn
      have hnext : (p + 1).val = (p.val + 1) % NPROC := Fin.val_add p 1
      obtain ⟨j, t, z, hw, hj, hrunning, hstate⟩ := ih hs' hmn' (by
        rw [hnext, ← hd, Nat.mod_add_mod, Nat.add_assoc, Nat.add_comm 1 d])
      exact ⟨j + 1, t, z, hwalk hw, by omega, hrunning, hstate⟩

/-- Every loop switches to some `RUNNABLE` process before it has been once around the table: a hart that
    stands in front of a round, with the minimum just computed, goes on alone to a switch and
    visits at most `NPROC` slots until then. -/
theorem work_conserving {p : Slot} {mn : Int} (h : Looping m l rest pc s)
    (hpc : pc = .start mn ∨ pc = .test p mn) (hmn : l = .old ∨ mn = l.scan m.proc)
    (hpol : l.callee m.policy = none) (hr : ∃ z, (m.proc z).state = .runnable) :
    (∃ q, l.selects (m.proc q) (l.scan m.proc) = true) ∧
      ∃ j t q, Walk s j t ∧ j ≤ NPROC ∧ t.running 0 = .proc q ∧ (m.proc q).state = .runnable := by
  obtain ⟨q, hq, hkey⟩ := Loop.exists_selects (l := l) hr
  have hsel : ∀ mn, Current l m.proc mn → l.selects (m.proc q) mn = true := by
    intro mn hmn
    simp only [Loop.selects, decide_eq_true_eq]
    exact ⟨hq, hmn.imp_right fun hmn => by rw [hkey, hmn]⟩
  refine ⟨⟨q, hsel _ (.inr rfl)⟩, ?_⟩
  -- both points lead to a visit of some slot
  obtain ⟨z, s', hs', hwalk⟩ : ∃ z s', Looping m l rest (.visit z mn) s' ∧
      ∀ {j t}, Walk s' j t → Walk s j t := by
    rcases hpc with rfl | rfl
    · obtain ⟨s', hs', hloop⟩ := h.step none .clear (.visit 0 mn) rfl (.inl rfl) (.inr rfl)
      exact ⟨0, s', hloop, fun hw => .move (h.not_visiting (by rintro _ _ ⟨⟩)) hs' hw⟩
    · obtain ⟨s', hs', hwalk⟩ := h.test hpol
      exact ⟨p + 1, s', hs', hwalk⟩
  obtain ⟨d, hd, hlt⟩ : ∃ d, (z.val + d) % NPROC = q.val ∧ d < NPROC := by
    have hz : z.val < 64 := z.isLt
    have hlt : q.val < 64 := q.isLt
    refine ⟨(q.val + 64 - z.val) % 64, ?_, Nat.mod_lt _ (by decide)⟩
    show (z.val + (q.val + 64 - z.val) % 64) % 64 = q.val
    omega
  obtain ⟨j, t, y, hw, hj, hrunning, hstate⟩ := hs'.walk hpol hmn hd hsel
  exact ⟨j, t, y, hwalk hw, by omega, hrunning, hstate⟩

/-- The first process is `RUNNABLE`, and `schedulerPriority` is at the end of the round of slot 5. -/
theorem work_conserving_boot :
    ∃ j t q, Walk { State.boot 1 ⟨1, 2, 3, 1⟩ with
        stack := fun _ => [.scheduler .priority (.test 5 0)] } j t ∧ j ≤ NPROC ∧
      t.running 0 = .proc q ∧ ((userinit ⟨1, 2, 3, 1⟩).proc q).state = .runnable :=
  have hloop : Looping (userinit ⟨1, 2, 3, 1⟩) .priority [] (.test 5 0)
      { State.boot 1 ⟨1, 2, 3, 1⟩ with stack := fun _ => [.scheduler .priority (.test 5 0)] } :=
    ⟨rfl, rfl, rfl, fun _ => rfl⟩
  (work_conserving hloop (.inr rfl) (.inr (by decide +kernel)) rfl ⟨0, rfl⟩).2

end Xv6
