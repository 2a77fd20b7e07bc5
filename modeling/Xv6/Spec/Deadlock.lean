import Xv6.Spec.Reaping

/-!
# The process locks cannot deadlock

`wait_lock` and `tickslock` are taken by harts that hold nothing, and while a hart holds one of
them it takes only a `p->lock`. A hart that holds a `p->lock` takes no further lock, with one
exception: `fork` holds the lock of the child when it takes the lock of the parent. The parent is
the process that executes `fork`, which is `RUNNING`, whereas the child is still `USED`; so no
hart that is itself in `fork` with a child's lock holds the lock that `fork` waits for.
-/

namespace Xv6

open TransitionSystem Relation

variable {n : Nat}

/-- The next step of hart `c` takes `L`: if another hart holds it, `c` spins in `acquire`. -/
def State.spins (s : State n) (c : Fin n) (L : Lock) : Prop :=
  ∃ i rest e, s.plan c i = some (rest, e) ∧ (e.visit = some L ∨ e.acquire = some L)

/-- Hart `c` spins for a lock that hart `d` holds. -/
def State.waitsFor (s : State n) (c d : Fin n) : Prop := ∃ L, s.spins c L ∧ s.lock L = some d

/-! ## The order in which a frame takes locks -/

/-- What frame `f` of thread `t` holds when it takes `L`. -/
def OrderSpec (t : Thread n) (m : Mem) (f : Frame) (L : Lock) : Prop :=
  f.held t = [] ∨ ((∀ q, .proc q ∉ f.held t) ∧ ∃ q, L = .proc q) ∨
    ∃ np pid parent, f = .fork (.runnable np pid) ∧ (m.proc np).parent = some parent ∧
      L = .proc parent

/-- The order for all locks that an effect takes. -/
def OrderedBy (t : Thread n) (m : Mem) (f : Frame) (e : Effect) : Prop :=
  ∀ L, e.visit = some L ∨ e.acquire = some L → OrderSpec t m f L

section

attribute [local simp] OrderedBy OrderSpec Frame.held LoopPc.held ClockPc.held YieldPc.held SleepPc.held
  ForkPc.held ExitPc.held WaitPc.held SysSleepPc.held

variable {e : Effect} {f : Frame} {m : Mem}

theorem procActs_ordered {p : Slot} (hf : f.onProc p)
    (h : ProcActs m p f e) : OrderedBy (.proc p : Thread n) m f e := by
  cases h with
  | sleepLock ch lk =>
    -- the lock that protects the condition is `wait_lock` or `tickslock`
    have hlk : ∀ q, Lock.proc q ∉ lk.toList := by
      rcases hf with ⟨-, h⟩ | ⟨-, h⟩ | ⟨h, -⟩ <;> simp [h]
    rintro L (h | h)
    · cases h
    · exact .inr (.inl ⟨hlk, p, (Option.some.inj h).symm⟩)
  | forkRunnable np parent pid hpar => simp [hpar]
  | badArg k hf | fsSleep a hf | fsWakeup a hf | fsReturn hf => rcases hf with rfl | rfl <;> simp
  | _ => simp

/-- Every step takes its locks in order. -/
theorem effect_ordered {t : Thread n} {me : Option Slot} {i : Input}
    (hr : Runs t me f) (he : f.effect m me i = some e) : OrderedBy t m f e := by
  cases effect_acts he with
  | proc p hme h =>
    subst hme
    cases t with
    | sched c => exact absurd hr.1 h.not_onSched
    | proc q =>
      obtain rfl : p = q := Option.some.inj hr.2
      exact procActs_ordered hr.1 h
  | skipSelf hl | wake hl => cases hl <;> simp
  | _ => simp

end

/-! ## Levels -/

/-- Hart `c` is in `fork`, about to take the parent's lock. -/
def State.forking (s : State n) (c : Fin n) : Prop :=
  ∃ np pid rest, s.cur c = .fork (.runnable np pid) :: rest

open Classical in
/-- A number that decreases from a hart that spins to the holder of the lock. -/
noncomputable def State.level (s : State n) (c : Fin n) : Nat :=
  if s.forking c then 1
  else if ∃ L, s.spins c L then if topHeld (s.running c) (s.cur c) = [] then 3 else 2
  else 0

section

variable {s : State n} {c d : Fin n} {L : Lock}

/-- What a hart that spins for a lock holds. -/
theorem Inv.spins_order (hi : Inv s) (h : s.spins c L) :
    topHeld (s.running c) (s.cur c) = [] ∨
      ((∀ q, .proc q ∉ topHeld (s.running c) (s.cur c)) ∧ ∃ q, L = .proc q) ∨
      ∃ np pid rest parent, s.cur c = .fork (.runnable np pid) :: rest ∧
        (s.mem.proc np).parent = some parent ∧ L = .proc parent := by
  obtain ⟨i, rest, e, hplan, hL⟩ := h
  cases planned_of_plan hplan with
  | user p fs hr hc hfs => exact .inl (by rw [hc]; rfl)
  | kernel fs hne hlock hfs hoff => exact .inl hlock
  | exec f rest e hc he hk =>
    rw [hc]
    rcases effect_ordered (hi.runs hc) he L hL with h | h | ⟨np, pid, parent, rfl, hpar, h⟩
    · exact .inl h
    · exact .inr (.inl h)
    · exact .inr (.inr ⟨np, pid, rest, parent, rfl, hpar, h⟩)

/-- A hart that holds a `p->lock` and spins is in `fork`. -/
theorem Inv.forking_of_spins (hi : Inv s) {q : Slot} (hlock : s.lock (.proc q) = some d)
    (h : s.spins d L) : s.forking d := by
  have hheld := (hi.lock _ d).mp hlock
  rcases hi.spins_order h with hnil | ⟨hne, -⟩ | ⟨np, pid, rest, parent, hc, -, -⟩
  · rw [hnil] at hheld
    cases hheld
  · exact absurd hheld (hne q)
  · exact ⟨np, pid, rest, hc⟩

/-- In `fork` the lock of the child is held, and the child is `USED`. -/
theorem Inv.used_of_forking (hi : Inv s) {q : Slot} (hlock : s.lock (.proc q) = some d)
    (h : s.forking d) : (s.mem.proc q).state = .used := by
  obtain ⟨np, pid, rest, hc⟩ := h
  have hheld := (hi.lock _ d).mp hlock
  rw [hc] at hheld
  cases List.mem_singleton.mp hheld
  obtain ⟨p, -, -, hstk⟩ := hi.exec_fork hc
  exact (hi.fork p (.runnable q pid) (mem_of_eq_cons hstk)).1

/-- The parent whose lock `fork` takes is the process that executes it. -/
theorem Inv.parent_running (hi : Inv s) {np parent : Slot} {pid : Int} {rest : List Frame}
    (hc : s.cur c = .fork (.runnable np pid) :: rest) (hpar : (s.mem.proc np).parent = some parent) :
    (s.mem.proc parent).state = .running := by
  obtain ⟨p, hr, -, hstk⟩ := hi.exec_fork hc
  have hok := hi.fork p (.runnable np pid) (mem_of_eq_cons hstk)
  obtain rfl : p = parent := Option.some.inj (hok.2.2.symm.trans hpar)
  have hactive := hi.active c p hr
  rw [hstk] at hactive
  exact (Active.of_plain rfl).mp hactive

theorem Inv.level_lt (hi : Inv s) (h : s.waitsFor c d) : s.level d < s.level c := by
  obtain ⟨L, hspins, hlock⟩ := h
  have hheld := (hi.lock L d).mp hlock
  have hne : topHeld (s.running d) (s.cur d) ≠ [] := fun hnil => by
    rw [hnil] at hheld
    cases hheld
  have hlt : s.level d < 3 := by
    unfold State.level
    split_ifs <;> omega
  rcases hi.spins_order hspins with hnil | ⟨hnp, q, rfl⟩ | ⟨np, pid, rest, parent, hc, hpar, rfl⟩
  · -- `c` holds nothing
    have hnf : ¬ s.forking c := by
      rintro ⟨np, pid, rest, hc⟩
      rw [hc] at hnil
      cases hnil
    have hc : s.level c = 3 := by
      unfold State.level
      rw [if_neg hnf, if_pos ⟨L, hspins⟩, if_pos hnil]
    omega
  · -- `c` holds `wait_lock` or `tickslock` and takes a `p->lock`
    have hnf : ¬ s.forking c := by
      rintro ⟨np, pid, rest, hc⟩
      rw [hc] at hnp
      exact hnp np (by simp [topHeld, Frame.held, ForkPc.held])
    have hc : 2 ≤ s.level c := by
      unfold State.level
      rw [if_neg hnf, if_pos ⟨_, hspins⟩]
      split <;> omega
    have hd : s.level d ≤ 1 := by
      unfold State.level
      by_cases hf : s.forking d
      · rw [if_pos hf]
      · rw [if_neg hf, if_neg fun ⟨L, hs⟩ => hf (hi.forking_of_spins hlock hs)]
        omega
    omega
  · -- `c` is in `fork`: the lock of a `RUNNING` process is held by no hart that spins
    have hnf : ¬ s.forking d := fun hf =>
      nomatch (hi.parent_running hc hpar).symm.trans (hi.used_of_forking hlock hf)
    have hns : ¬ ∃ L, s.spins d L := fun ⟨L, hs⟩ => hnf (hi.forking_of_spins hlock hs)
    have hc : s.level c = 1 := if_pos ⟨np, pid, rest, hc⟩
    have hd : s.level d = 0 := by
      unfold State.level
      rw [if_neg hnf, if_neg hns]
    omega

end

/-- In no reachable state is there a cycle of harts that each spin for a lock that the next one
    holds, and no hart takes a lock that it already holds. -/
theorem no_deadlock {s : State n} (hr : (kernel n).Reachable s) (c : Fin n) :
    ¬ TransGen s.waitsFor c c ∧ ∀ L, s.spins c L → s.lock L ≠ some c := by
  have hacyclic : ¬ TransGen s.waitsFor c c :=
    acyclic_of_rank (fun _ _ h => (inv_reachable hr).level_lt h) c
  exact ⟨hacyclic, fun L hs hl => hacyclic (.single ⟨L, hs, hl⟩)⟩

/-- Hart 0 has switched to the first process, which still holds its lock; hart 1 spins for it. -/
theorem no_deadlock_spinning : ∃ s : State 2,
    (kernel 2).run (State.boot 2 ⟨1, 2, 3, 0⟩)
        (List.replicate 3 (0, .run) ++ List.replicate 2 (1, .run)) = some s ∧
      s.waitsFor 1 0 ∧ ¬ TransGen s.waitsFor 1 1 := by
  have hrun : ((kernel 2).run (State.boot 2 ⟨1, 2, 3, 0⟩)
      (List.replicate 3 (0, .run) ++ List.replicate 2 (1, .run))).map
      (fun s => ((s.plan 1 .run).map fun x => x.2.visit, s.lock (.proc 0))) =
      some (some (some (.proc 0)), some 0) := by decide +kernel
  obtain ⟨s, hs, h⟩ := Option.map_eq_some_iff.mp hrun
  simp only [Prod.mk.injEq, Option.map_eq_some_iff] at h
  obtain ⟨⟨⟨rest, e⟩, hplan, hv⟩, hlock⟩ := h
  have hr : (kernel 2).Reachable s := reachable_run (.init ⟨_, rfl⟩) hs
  exact ⟨s, hs, ⟨_, ⟨_, _, _, hplan, .inl hv⟩, hlock⟩, (no_deadlock hr 1).1⟩

end Xv6
