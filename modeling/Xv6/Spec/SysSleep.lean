import Mathlib.Data.BitVec
import Xv6.ForStd.Transition

/-!
# How long sleep waits

`sys_sleep` with the tick counter, the wakeups and the kills around it. It compares the `uint`
`ticks - ticks0` with the `int` `n`, which C turns into an `uint` too: a negative `n` is a wait for
years, and after 2^32 ticks the difference starts again at 0.

* `sleep_waits_iff`: when the tests of `sys_sleep` are right.
-/

namespace Xv6.SysSleep

/-! ## sys_sleep -/

inductive Pc where
  /-- at the test of the `while`; `held` says that `tickslock` is held since `ticks0 = ticks` -/
  | test (held : Bool)
  /-- not killed: on the way into `sleep(&ticks, &tickslock)`, with `tickslock` -/
  | doze
  | asleep
  | done (r : Int)
deriving DecidableEq

structure State where
  ticks0 : BitVec 32
  ticks : BitVec 32
  killed : Bool
  pc : Pc
  /-- the ticks since the call -/
  elapsed : Nat
  /-- the tests so far: the ticks since the call, and whether the loop was left -/
  tests : List (Nat × Bool)

inductive Input where
  /-- the process goes on -/
  | run
  /-- `clockintr` -/
  | tick
  /-- any other `wakeup` that finds the process -/
  | wakeup
  | kill

namespace State

/-- What the process does when its state is set to `RUNNABLE`. -/
def wake (s : State) : State := if s.pc = .asleep then { s with pc := .test false } else s

/-- The test of the `while`, and what follows up to `sleep` or `return`. -/
def test (n : BitVec 32) (s : State) : State :=
  if s.ticks - s.ticks0 < n then
    { s with
      pc := if s.killed then .done (-1) else .doze
      tests := (s.elapsed, false) :: s.tests }
  else { s with pc := .done 0, tests := (s.elapsed, true) :: s.tests }

def step (n : BitVec 32) (s : State) : Input → Option State
  | .run =>
    match s.pc with
    | .test _ => some (s.test n)
    | .doze => some { s with pc := .asleep }
    | .asleep | .done _ => none
  | .tick =>
    -- `clockintr` waits for `tickslock`
    if s.pc = .test true ∨ s.pc = .doze then none
    else some { s with ticks := s.ticks + 1#32, elapsed := s.elapsed + 1 }.wake
  | .wakeup => some s.wake
  | .kill => some { s with killed := true }.wake

end State

/-- A call of `sleep(n)`. -/
def sysSleep (n : BitVec 32) : TransitionSystem State Input where
  init s := s.ticks = s.ticks0 ∧ s.pc = .test true ∧ s.elapsed = 0 ∧ s.tests = []
  step s := s.step n

/-! ## What the tests find -/

structure Inv (n : BitVec 32) (s : State) : Prop where
  ticks : (s.ticks - s.ticks0).toNat = s.elapsed % 2 ^ 32
  held : s.pc = .test true → s.elapsed = 0 ∧ s.tests = []
  tests : ∀ x ∈ s.tests, x.2 = decide (n.toNat ≤ x.1 % 2 ^ 32)
  first : s.pc ≠ .test true → ∃ b, (0, b) ∈ s.tests
  killed : s.pc = .done (-1) → s.killed = true
  returned : s.pc = .done 0 ↔ ∃ x ∈ s.tests, x.2 = true

variable {n : BitVec 32} {s s' : State}

theorem Inv.wake (h : Inv n s) : Inv n s.wake := by
  rw [State.wake]
  split
  · rename_i hpc
    have hnot : s.pc ≠ .test true := by rw [hpc]; exact Pc.noConfusion
    refine ⟨h.ticks, fun h0 => ?_, h.tests, fun _ => h.first hnot, fun h0 => ?_, ?_⟩
    · exact absurd (Pc.test.inj h0) Bool.false_ne_true
    · cases h0
    · rw [← h.returned, hpc]
      exact iff_of_false Pc.noConfusion Pc.noConfusion
  · exact h

theorem Inv.test (h : Inv n s) {held : Bool} (hpc : s.pc = .test held) : Inv n (s.test n) := by
  have hlt : s.ticks - s.ticks0 < n ↔ ¬ n.toNat ≤ s.elapsed % 2 ^ 32 := by
    rw [BitVec.lt_def, h.ticks, Nat.not_le]
  -- the first test is made when no tick has passed
  have hfirst : ∀ b, ∃ b', (0, b') ∈ (s.elapsed, b) :: s.tests := by
    intro b
    cases held with
    | true => exact ⟨b, by rw [(h.held hpc).1]; exact List.mem_cons_self⟩
    | false =>
      obtain ⟨b', hb⟩ := h.first (by rw [hpc]; simp)
      exact ⟨b', List.mem_cons_of_mem _ hb⟩
  have hno : ∀ x ∈ s.tests, x.2 ≠ true := fun x hx hx2 => by
    have := h.returned.mpr ⟨x, hx, hx2⟩
    rw [hpc] at this
    cases this
  rw [State.test]
  split
  · rename_i hc
    refine ⟨h.ticks, fun h0 => ?_, fun x hx => ?_, fun _ => hfirst false, fun h0 => ?_, ?_⟩
    · simp only at h0
      split at h0 <;> cases h0
    · rcases List.mem_cons.mp hx with rfl | hx
      · exact (decide_eq_false (hlt.mp hc)).symm
      · exact h.tests x hx
    · by_contra hk
      simp only [if_neg hk] at h0
      cases h0
    · refine iff_of_false (fun h0 => ?_) ?_
      · simp only at h0
        split at h0
        · exact absurd (Pc.done.inj h0) (by decide)
        · cases h0
      · rintro ⟨x, hx, hx2⟩
        rcases List.mem_cons.mp hx with rfl | hx
        · cases hx2
        · exact hno x hx hx2
  · rename_i hc
    refine ⟨h.ticks, nofun, fun x hx => ?_, fun _ => hfirst true, fun h0 => ?_, ?_⟩
    · rcases List.mem_cons.mp hx with rfl | hx
      · exact (decide_eq_true (not_not.mp (mt hlt.mpr hc))).symm
      · exact h.tests x hx
    · exact absurd (Pc.done.inj h0) (by decide)
    · exact iff_of_true rfl ⟨_, List.mem_cons_self, rfl⟩

theorem Inv.step (h : Inv n s) {i : Input} (hs : s.step n i = some s') : Inv n s' := by
  cases i with
  | run =>
    rw [State.step] at hs
    split at hs
    · rename_i held hpc
      cases hs
      exact h.test hpc
    · rename_i hpc
      cases hs
      refine ⟨h.ticks, nofun, h.tests, fun _ => h.first (by rw [hpc]; exact Pc.noConfusion), nofun, ?_⟩
      rw [← h.returned, hpc]
      exact iff_of_false Pc.noConfusion Pc.noConfusion
    · cases hs
    · cases hs
  | tick =>
    rw [State.step] at hs
    split at hs
    · cases hs
    · rename_i hpc
      cases hs
      refine Inv.wake ⟨?_, fun h0 => absurd (.inl h0) hpc, h.tests, h.first, h.killed, h.returned⟩
      have hone : s.ticks + 1#32 - s.ticks0 = s.ticks - s.ticks0 + 1#32 := by
        rw [add_sub_right_comm]
      rw [hone, BitVec.toNat_add, h.ticks]
      simp
  | wakeup =>
    cases hs
    exact h.wake
  | kill =>
    cases hs
    exact Inv.wake ⟨h.ticks, h.held, h.tests, h.first, fun _ => rfl, h.returned⟩

theorem inv_reachable (h : (sysSleep n).Reachable s) : Inv n s := by
  refine h.induct (P := Inv n) (fun s h0 => ?_) fun _ _ _ _ hinv _ hs => hinv.step hs
  obtain ⟨hticks, hpc, he, htests⟩ := h0
  refine ⟨?_, fun _ => ⟨he, htests⟩, ?_, fun h0 => absurd hpc h0, fun h0 => ?_, ?_⟩
  · rw [hticks, he, BitVec.sub_self]
    rfl
  · rw [htests]
    exact fun x hx => absurd hx List.not_mem_nil
  · rw [hpc] at h0
    cases h0
  · rw [hpc, htests]
    refine iff_of_false Pc.noConfusion ?_
    rintro ⟨x, hx, -⟩
    exact absurd hx List.not_mem_nil

/-- For `n` that is not negative a test is right until 2^32 ticks have passed, and after that when
    the ticks of the last round are enough. -/
theorem test_right_iff (hn : 0 ≤ n.toInt) (e : Nat) :
    (n.toNat ≤ e % 2 ^ 32 ↔ n.toInt ≤ e) ↔ (e < 2 ^ 32 ∨ n.toNat ≤ e % 2 ^ 32) := by
  have hlt : n.toNat < 2 ^ 32 := n.isLt
  have hcast : (n.toNat : Int) = n.toInt := by
    rw [BitVec.toInt_eq_toNat_cond] at hn ⊢
    split at hn <;> omega
  omega

/-- The tests of `sleep(n)` find out whether `n` ticks have passed, so that it returns 0 at the first
    test after that, iff `n` is not negative and no test is made so late that the counter has gone
    around and is behind `n` again. It returns -1 only if the process was killed. -/
theorem sleep_waits_iff (h : (sysSleep n).Reachable s) :
    ((∀ x ∈ s.tests, x.2 = true ↔ n.toInt ≤ x.1) ↔
      s.tests = [] ∨ 0 ≤ n.toInt ∧ ∀ x ∈ s.tests, x.1 < 2 ^ 32 ∨ n.toNat ≤ x.1 % 2 ^ 32) ∧
    (s.pc = .done 0 ↔ ∃ x ∈ s.tests, x.2 = true) ∧ (s.pc = .done (-1) → s.killed = true) := by
  have hinv := inv_reachable h
  refine ⟨⟨fun hall => ?_, fun hc x hx => ?_⟩, hinv.returned, hinv.killed⟩
  · by_cases hpc : s.pc = .test true
    · exact .inl (hinv.held hpc).2
    · -- a negative `n` fails at the first test
      obtain ⟨b, hb⟩ := hinv.first hpc
      have hn : 0 ≤ n.toInt := by
        by_contra hneg
        have hzero := (hall _ hb).mpr (by simp only; omega)
        have hval := hinv.tests _ hb
        simp only at hzero hval
        rw [hzero] at hval
        have hle := of_decide_eq_true hval.symm
        have h0 : n = 0#32 := BitVec.eq_of_toNat_eq (by simpa using hle)
        rw [h0] at hneg
        exact hneg (by decide)
      refine .inr ⟨hn, fun x hx => (test_right_iff hn x.1).mp ?_⟩
      rw [← hall x hx, hinv.tests x hx, decide_eq_true_iff]
  · rcases hc with hnil | ⟨hn, hlate⟩
    · rw [hnil] at hx
      exact absurd hx List.not_mem_nil
    · rw [hinv.tests x hx, decide_eq_true_iff]
      exact (test_right_iff hn x.1).mpr (hlate x hx)

/-- A call when the counter is about to wrap around. -/
def called : State := ⟨BitVec.allOnes 32, BitVec.allOnes 32, false, .test true, 0, []⟩

theorem called_run (is : List Input) (h : (sysSleep n).run called is = some s) : (sysSleep n).Reachable s :=
  TransitionSystem.reachable_run (.init ⟨rfl, rfl, rfl, rfl⟩) h

/-- `sleep(1)` returns at the test after the first tick. -/
theorem sleep_waits_iff_one :
    ∃ s, (sysSleep 1).Reachable s ∧ s.tests = [(1, true), (0, false)] ∧ s.pc = .done 0 ∧
      ∀ x ∈ s.tests, x.2 = true ↔ (1 : BitVec 32).toInt ≤ x.1 := by
  have hreach : (sysSleep 1).Reachable ⟨BitVec.allOnes 32, 0, false, .done 0, 1, [(1, true), (0, false)]⟩ :=
    called_run [.run, .run, .tick, .run] rfl
  exact ⟨_, hreach, rfl, rfl, (sleep_waits_iff hreach).1.mpr (.inr (by decide))⟩

/-- `sleep(-1)` goes to sleep. -/
theorem sleep_negative :
    ∃ s, (sysSleep (-1)).Reachable s ∧ s.pc = .asleep ∧ (-1 : BitVec 32).toInt ≤ s.elapsed :=
  ⟨⟨BitVec.allOnes 32, BitVec.allOnes 32, false, .asleep, 0, [(0, false)]⟩,
    called_run [.run, .run] rfl, rfl, by decide⟩

end Xv6.SysSleep
