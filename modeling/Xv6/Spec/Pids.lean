import Xv6.Spec.Reaping

/-!
# Pids

`allocpid` hands out the values of a 32-bit counter and never compares them with the table;
an allocation that fails later has used up its pid. As long as the counter has not run
through the positive values, the pids of the processes are positive and distinct
(`pids_identify`). After that they are not, since the first process lives for the whole run
(`pids_wrap`).
-/

namespace Xv6

open TransitionSystem

variable {n : Nat}

/-- Two slots in use have different pids, and every such pid is positive. -/
def PidsIdentify (m : Mem) : Prop :=
  (∀ z, (m.proc z).state ≠ .unused → 0 < (m.proc z).pid) ∧
    ∀ y z, (m.proc y).state ≠ .unused → (m.proc z).state ≠ .unused → y ≠ z →
      (m.proc y).pid ≠ (m.proc z).pid

/-! ## History -/

/-- The number of pids that `fork` has taken. -/
def recordPid (h : Nat) : Op → Nat
  | .alloc _ => h + 1
  | _ => h

/-- The kernel together with the number of pids that `fork` has taken. -/
def pidLog (n : Nat) : TransitionSystem (State n × Nat) (Fin n × Input) :=
  (kernel n).observe 0 fun s x h => recordPid h (s.op x)

def Op.allocates : Op → Bool
  | .alloc _ => true
  | _ => false

/-- `allocproc` takes a pid only while there are positive ones left: the first process has
    pid 1, so `fork` can take `2 ^ 31 - 2` of them. -/
def PidsLeft (x : State n × Nat) (i : Fin n × Input) : Prop :=
  (x.1.op i).allocates = true → x.2 < 2 ^ 31 - 2

instance (x : State n × Nat) (i : Fin n × Input) : Decidable (PidsLeft x i) :=
  inferInstanceAs (Decidable (_ → _))

/-- The pids in use are among the ones handed out so far. -/
structure Numbered (m : Mem) (h : Nat) : Prop where
  next : m.nextpid = toInt (2 + h)
  bound : h ≤ 2 ^ 31 - 2
  range : ∀ z, (m.proc z).state ≠ .unused → 0 < (m.proc z).pid ∧ (m.proc z).pid < 2 + h
  distinct : ∀ y z, (m.proc y).state ≠ .unused → (m.proc z).state ≠ .unused → y ≠ z →
    (m.proc y).pid ≠ (m.proc z).pid

variable {m : Mem} {h : Nat}

theorem Numbered.identify (hh : Numbered m h) : PidsIdentify m :=
  ⟨fun z hz => (hh.range z hz).1, hh.distinct⟩

theorem Numbered.next_of_lt (hh : Numbered m h) (hlt : h < 2 ^ 31 - 2) :
    m.nextpid = 2 + h := by
  rw [hh.next, toInt, Int.bmod_eq_of_le] <;> omega

/-- The positive values of an `int` are used up. -/
theorem Numbered.next_of_eq (hh : Numbered m h) (heq : h = 2 ^ 31 - 2) :
    m.nextpid = -2 ^ 31 := by
  rw [hh.next, heq]
  rfl

theorem toInt_toInt_add (a b : Int) : toInt (toInt a + b) = toInt (a + b) := by
  simp [toInt]

section

variable {s : State n} {c : Fin n} {i : Input} {rest : List Frame} {e : Effect} {h : Nat}
variable (hh : Numbered s.mem h)
include hh

/-- A step that takes no pid. -/
theorem Numbered.keep (hi : Inv s) (hp : Planned s c i rest e) (hop : ∀ np, e.op ≠ .alloc np) :
    Numbered (e.op.apply s.mem) h := by
  have hold : ∀ z, ((e.op.apply s.mem).proc z).state ≠ .unused →
      (s.mem.proc z).state ≠ .unused ∧ ((e.op.apply s.mem).proc z).pid = (s.mem.proc z).pid := by
    intro z hz
    have hz₀ := (hi.used_step hp hz).resolve_right (hop z)
    exact ⟨hz₀, hi.pid_step hp hz₀ hz⟩
  refine ⟨?_, hh.bound, fun z hz => ?_, fun y z hy hz hne => ?_⟩
  · rw [← hh.next]
    cases hop' : e.op with
    | alloc np => exact absurd hop' (hop np)
    | _ => rfl
  · obtain ⟨hz₀, hpid⟩ := hold z hz
    rw [hpid]
    exact hh.range z hz₀
  · obtain ⟨hy₀, hpy⟩ := hold y hy
    obtain ⟨hz₀, hpz⟩ := hold z hz
    rw [hpy, hpz]
    exact hh.distinct y z hy₀ hz₀ hne

/-- `allocproc` takes the next pid. -/
theorem Numbered.alloc {np : Slot} (hop : e.op = .alloc np) (hlt : h < 2 ^ 31 - 2) :
    Numbered (e.op.apply s.mem) (h + 1) := by
  have hnext := hh.next_of_lt hlt
  have hnew : ((e.op.apply s.mem).proc np).pid = 2 + h := by
    rw [hop, Op.apply_proc_target _ _ rfl, ← hnext]
    rfl
  have hold : ∀ z, z ≠ np → (e.op.apply s.mem).proc z = s.mem.proc z := by
    intro z hz
    rw [hop, Op.apply_proc_other _ _ rfl hz]
  refine ⟨?_, by omega, fun z hz => ?_, fun y z hy hz hne => ?_⟩
  · rw [hop]
    show toInt (s.mem.nextpid + 1) = _
    rw [hh.next, toInt_toInt_add]
    congr 1
  · by_cases hnp : z = np
    · subst hnp
      rw [hnew]
      omega
    · rw [hold z hnp] at hz ⊢
      have := hh.range z hz
      omega
  · by_cases hynp : y = np
    · subst hynp
      rw [hnew]
      rw [hold z hne.symm] at hz ⊢
      have := hh.range z hz
      omega
    · rw [hold y hynp] at hy ⊢
      by_cases hznp : z = np
      · subst hznp
        rw [hnew]
        have := hh.range y hy
        omega
      · rw [hold z hznp] at hz ⊢
        exact hh.distinct y z hy hz hne

/-- A pid that is taken when no positive ones are left is negative. -/
theorem Numbered.not_identify {np : Slot} (hop : e.op = .alloc np) (hge : ¬ h < 2 ^ 31 - 2) :
    ¬ PidsIdentify (e.op.apply s.mem) := by
  intro hid
  have hnext := hh.next_of_eq (by have := hh.bound; omega)
  have hpos := hid.1 np
  rw [hop, Op.apply_proc_target _ _ rfl] at hpos
  have hpid : (0 : Int) < s.mem.nextpid := hpos (by simp [Op.write])
  rw [hnext] at hpid
  exact absurd hpid (by decide)

end

/-! ## Runs -/

theorem numbered_boot (b : Boot) : Numbered (State.boot n b).mem 0 := by
  have hzero : ((State.boot n b).mem.proc 0).pid = 1 := by
    simp [State.boot, userinit, procinit, Op.apply, Op.target, Op.write]
  have hz : ∀ z, ((State.boot n b).mem.proc z).state ≠ .unused → z = 0 := by
    intro z hz
    by_contra hne
    rw [boot_proc_of_ne b hne] at hz
    exact hz rfl
  refine ⟨rfl, by omega, fun z h => ?_, fun y z hy hz' hne => ?_⟩
  · rw [hz z h, hzero]
    omega
  · exact absurd ((hz y hy).trans (hz z hz').symm) hne

theorem numbered_reachable {x : State n × Nat} (hr : (pidLog n).ReachableBy PidsLeft x) :
    Numbered x.1.mem x.2 := by
  refine ReachableBy.induct (P := fun x => Numbered x.1.mem x.2) ?_ ?_ hr
  · rintro ⟨s, h⟩ ⟨⟨b, rfl⟩, rfl⟩
    exact numbered_boot b
  · intro x i y hx hh hleft hs
    obtain ⟨hs, hy⟩ := observe_step.mp hs
    have hi := inv_reachable (reachable_of_observe hx)
    obtain ⟨rest, e, hp, -, hop, hs'⟩ := hi.step_commit hs
    rw [PidsLeft, hop] at hleft
    rw [hy, hs', hop]
    show Numbered (e.op.apply x.1.mem) _
    by_cases halloc : ∃ np, e.op = .alloc np
    · obtain ⟨np, hnp⟩ := halloc
      have hnext := hh.alloc hnp (hleft (by rw [hnp]; rfl))
      rw [hnp] at hnext ⊢
      exact hnext
    · have hne : ∀ np, e.op ≠ .alloc np := fun np h => halloc ⟨np, h⟩
      have hrec : recordPid x.2 e.op = x.2 := by
        cases hop' : e.op with
        | alloc np => exact absurd hop' (hne np)
        | _ => rfl
      rw [hrec]
      exact hh.keep hi hp hne

/-- In every run in which `fork` takes at most `2 ^ 31 - 2` pids, the pids of the slots in use
    are positive and distinct. The condition is exact: a step from such a state keeps them so
    exactly if it does not take a further pid. -/
theorem pids_identify {x : State n × Nat} (hr : (pidLog n).ReachableBy PidsLeft x) :
    PidsIdentify x.1.mem ∧
      ∀ i y, (pidLog n).step x i = some y → (PidsIdentify y.1.mem ↔ PidsLeft x i) := by
  have hh := numbered_reachable hr
  refine ⟨hh.identify, fun i y hs => ⟨fun hid => ?_, fun hleft => ?_⟩⟩
  · intro halloc
    by_contra hge
    have hi := inv_reachable (reachable_of_observe hr)
    obtain ⟨rest, e, hp, -, hop, hs'⟩ := hi.step_commit (observe_step.mp hs).1
    rw [hop] at halloc
    rw [hs'] at hid
    cases hop' : e.op with
    | alloc np => exact hh.not_identify hop' hge hid
    | _ => rw [hop'] at halloc; cases halloc
  · exact (numbered_reachable (hr.step hleft hs)).identify

/-- The first process forks; nobody else has its pid or the one of the child. -/
theorem pids_identify_fork : ∃ x : State 2 × Nat,
    (pidLog 2).runBy PidsLeft (State.boot 2 ⟨1, 2, 3, 0⟩, 0) forkRun = some x ∧
      (x.1.mem.proc 1).pid = 2 ∧ PidsIdentify x.1.mem := by
  have hrun : ((pidLog 2).runBy PidsLeft (State.boot 2 ⟨1, 2, 3, 0⟩, 0) forkRun).map
      (fun x => (x.1.mem.proc 1).pid) = some 2 := by decide +kernel
  obtain ⟨x, hx, h⟩ := Option.map_eq_some_iff.mp hrun
  have hr : (pidLog 2).ReachableBy PidsLeft x := reachableBy_runBy (.init ⟨⟨_, rfl⟩, rfl⟩) hx
  exact ⟨x, hx, h, (pids_identify hr).1⟩

/-! ## Running out of pids

One hart runs the first process, which calls `fork` again and again; the allocation of the
trapframe fails every time. -/

section

/-- Some run leads to a state in which the only hart runs process 0 with stack `stk`. -/
def Solo (stk : List Frame) (m : Mem) : Prop :=
  ∃ s : State 1, (kernel 1).Reachable s ∧ s.running 0 = .proc 0 ∧ s.stack (.proc 0) = stk ∧ s.mem = m

variable {rest : List Frame} {e : Effect} {i : Input} {s : State 1}

/-- A hart that is alone never waits for a lock. -/
theorem Inv.not_blocked_alone (hi : Inv s) (hp : Planned s 0 i rest e) : s.blocked e = false := by
  have hfree : ∀ L, L ∈ e.visit.toList ∨ L ∈ e.acquire.toList → s.lock L = none := by
    intro L hL
    cases hc : s.lock L with
    | none => rfl
    | some c =>
      obtain rfl : c = 0 := Subsingleton.elim c 0
      exact absurd ((hi.lock L 0).mp hc) ((hi.move hp).enter L hL)
  simp only [State.blocked, Bool.or_eq_false_iff]
  constructor
  · cases hv : e.visit with
    | none => rfl
    | some L => simp [hfree L (by simp [hv])]
  · cases hv : e.acquire with
    | none => rfl
    | some L => simp [hfree L (by simp [hv])]

theorem Solo.commit (hr : (kernel 1).Reachable s) (hrun : s.running 0 = .proc 0)
    (hplan : s.plan 0 i = some (rest, e)) (hsw : e.switch = .stay) :
    Solo (e.frames ++ rest) (e.op.apply s.mem) := by
  have hi := inv_reachable hr
  have hp := planned_of_plan hplan
  have hstep : s.step (0, i) = some (s.commit 0 rest e) := by
    simp only [State.step, hplan, hi.panics_eq_false hp, hi.not_blocked_alone hp]
    rfl
  have hstk := hi.commit_stack_running hp 0
  rw [if_pos rfl, hrun] at hstk
  exact ⟨_, hr.next hstep, by rw [State.commit_running_self, hsw]; exact hrun, hstk, rfl⟩

variable {m : Mem}

theorem Solo.user {fs : List Frame} (h : Solo [] m) (hfs : State.userEntry (0 : Fin 1) i = some fs) :
    Solo fs m := by
  obtain ⟨s, hr, hrun, hstk, rfl⟩ := h
  have hplan : s.plan 0 i = some ([], { frames := fs }) := by
    simp [State.plan, State.cur, hrun, hstk, hfs]
  have := Solo.commit hr hrun hplan rfl
  rwa [List.append_nil] at this

theorem Solo.exec {f : Frame} (i : Input)
    (h : Solo (f :: rest) m) (hk : State.kernelEntry (0 : Fin 1) i = none)
    (he : f.effect m (some 0) i = some e) (hsw : e.switch = .stay) :
    Solo (e.frames ++ rest) (e.op.apply m) := by
  obtain ⟨s, hr, hrun, hstk, rfl⟩ := h
  have hproc := (inv_reachable hr).thread 0 0 hrun
  have hplan : s.plan 0 i = some (rest, e) := by
    simp [State.plan, State.cur, hrun, hstk, hk, hproc, he]
  exact Solo.commit hr hrun hplan hsw

/-- The first process runs, and slot 1 is free. -/
structure Alone (m : Mem) : Prop where
  state : (m.proc 0).state = .running
  killed : (m.proc 0).killed = false
  pid : (m.proc 0).pid = 1
  unused : (m.proc 1).state = .unused

/-- A call of `fork` up to the point where it has its pid. -/
theorem Solo.alloc (h : Solo [] m) (hm : Alone m) :
    Solo [.fork (.trapframe 1), .usertrap (.killed .syscall)] ((Op.alloc 1).apply m) := by
  have huser : Solo [.usertrap (.syscall .fork)] m := h.user (i := .syscall .fork) rfl
  have hcall : Solo [.fork (.alloc 0), .usertrap (.killed .syscall)] m := by
    have := huser.exec .run rfl rfl rfl
    simp only [usertrapStep, hm.killed] at this
    exact this
  have hne : (m.proc 0).state ≠ .unused := by rw [hm.state]; decide
  have hzero : Solo [.fork (.alloc 1), .usertrap (.killed .syscall)] m :=
    hcall.exec (e := { visit := some (.proc 0), frames := [.fork (.alloc 1)] }) .run rfl
      (if_neg hne) rfl
  have hone : Solo [.fork (.found 1), .usertrap (.killed .syscall)] m :=
    hzero.exec (e := { acquire := some (.proc 1), frames := [.fork (.found 1)] }) .run rfl
      (if_pos hm.unused) rfl
  exact hone.exec .run rfl rfl rfl

/-- `freeproc` and the return to user mode. -/
theorem Solo.fail (h : Solo [.fork (.trapframe 1), .usertrap (.killed .syscall)] m)
    (hk : (m.proc 0).killed = false) : Solo [] ((Op.free 1).apply m) := by
  have hfree : Solo [.usertrap (.killed .syscall)] ((Op.free 1).apply m) :=
    h.exec (.page 0) rfl rfl rfl
  have hret : Solo [.usertrap .ret] ((Op.free 1).apply m) := by
    have := hfree.exec .run rfl rfl rfl
    have hk' : (((Op.free 1).apply m).proc 0).killed = false := by
      rw [Op.apply_proc_other _ _ rfl (by decide), hk]
    simp only [usertrapStep, hk'] at this
    exact this
  exact hret.exec .run rfl rfl rfl

/-- The run goes on for any number of calls. -/
theorem exists_solo (k : Nat) : ∃ m, Solo [] m ∧ Alone m ∧ m.nextpid = toInt (2 + k) := by
  induction k with
  | zero =>
    have hrun : ((kernel 1).run (State.boot 1 ⟨1, 2, 3, 0⟩) (List.replicate 5 (0, .run))).map
        (fun s => ((s.running 0, (s.stack (.proc 0)).isEmpty),
          ((s.mem.proc 0).state, (s.mem.proc 0).killed, (s.mem.proc 0).pid),
          ((s.mem.proc 1).state, s.mem.nextpid))) =
        some ((.proc 0, true), (.running, false, 1), (.unused, 2)) := by decide +kernel
    obtain ⟨s, hreach, h⟩ := exists_reachable_of_run hrun ⟨_, rfl⟩
    simp only [Prod.mk.injEq, List.isEmpty_iff] at h
    obtain ⟨⟨hr, hstk⟩, ⟨hstate, hkilled, hpid⟩, hunused, hnext⟩ := h
    refine ⟨s.mem, ⟨s, hreach, hr, hstk, rfl⟩, ?_, hnext⟩
    exact ⟨hstate, hkilled, hpid, hunused⟩
  | succ k ih =>
    obtain ⟨m, hsolo, hm, hnext⟩ := ih
    have halloc := hsolo.alloc hm
    have hzero : (((Op.free 1).apply ((Op.alloc 1).apply m)).proc 0) = m.proc 0 := by
      rw [Op.apply_proc_other _ _ rfl (by decide), Op.apply_proc_other _ _ rfl (by decide)]
    refine ⟨_, halloc.fail ?_, ⟨?_, ?_, ?_, ?_⟩, ?_⟩
    · rw [Op.apply_proc_other _ _ rfl (by decide), hm.killed]
    · rw [hzero, hm.state]
    · rw [hzero, hm.killed]
    · rw [hzero, hm.pid]
    · rw [Op.apply_proc_target _ _ rfl]
      rfl
    · show toInt (m.nextpid + 1) = _
      rw [hnext, toInt_toInt_add]
      congr 1

/-- After `k` failed calls of `fork` the next one has the pid `2 + k`, as an `int`. -/
theorem exists_pid (k : Nat) : ∃ s : State 1, (kernel 1).Reachable s ∧
    (s.mem.proc 0).state = .running ∧ (s.mem.proc 0).pid = 1 ∧
      (s.mem.proc 1).state = .used ∧ (s.mem.proc 1).pid = toInt (2 + k) := by
  obtain ⟨m, hsolo, hm, hnext⟩ := exists_solo k
  obtain ⟨s, hr, -, -, hmem⟩ := hsolo.alloc hm
  refine ⟨s, hr, ?_, ?_, ?_, ?_⟩ <;> rw [hmem]
  · rw [Op.apply_proc_other _ _ rfl (by decide), hm.state]
  · rw [Op.apply_proc_other _ _ rfl (by decide), hm.pid]
  · rw [Op.apply_proc_target _ _ rfl]
    rfl
  · rw [Op.apply_proc_target _ _ rfl, ← hnext]
    rfl

end

/-- In one run a process in use has a negative pid, in another one two processes in use have
    pid 1. -/
theorem pids_wrap :
    (∃ s : State 1, (kernel 1).Reachable s ∧ (s.mem.proc 1).state = .used ∧
      (s.mem.proc 1).pid = -2 ^ 31) ∧
    ∃ s : State 1, (kernel 1).Reachable s ∧ (s.mem.proc 0).state = .running ∧
      (s.mem.proc 0).pid = 1 ∧ (s.mem.proc 1).state = .used ∧ (s.mem.proc 1).pid = 1 := by
  constructor
  · obtain ⟨s, hr, -, -, hused, hpid⟩ := exists_pid (2 ^ 31 - 2)
    exact ⟨s, hr, hused, hpid.trans rfl⟩
  · obtain ⟨s, hr, hrun, hpid₀, hused, hpid⟩ := exists_pid (2 ^ 32 - 1)
    exact ⟨s, hr, hrun, hpid₀, hused, hpid.trans rfl⟩

end Xv6
