import Xv6.Spec.CallGraph
import Xv6.Spec.ExitMessage

/-!
# What wait stores

`wait` copies the message of every child it looks at to `addr2`, before it knows whether the child is a
`ZOMBIE`. `waitLog` records for every process what its current call of `wait` has stored: the
children whose message it has copied, the memory of the caller as a function of the memory at the
start, and the `ZOMBIE` children that the call could have found.

* `wait_stores_result`: if a call that has looked at a living child has no other child, is not killed
  and no `copyout` fails afterwards, then the stored messages are those of the child it returns, and a
  call that returns -1 has changed nothing.
* `wait_stores_early`: a call that is killed has stored the message of a child that is alive.
-/

namespace Xv6

open TransitionSystem

variable {n : Nat}

/-! ## History -/

/-- What a call of `wait` has done so far. -/
structure WaitCall where
  /-- the children whose message it has stored at `addr2` -/
  children : List Slot
  /-- the memory of the caller, as a function of the memory at the start of the call -/
  memory : ByteMem → ByteMem
  /-- the pid, status and message of the children that were `ZOMBIE` during the call -/
  dead : Slot → Option (Int × Int × ExitMsg)

def WaitCall.start : WaitCall where
  children := []
  memory := id
  dead _ := none

/-- The children whose message an operation of `wait` stores. -/
def Op.messages : Op → List Slot
  | .copyMsg _ pp addr2 | .reap _ pp _ addr2 => if addr2 ≠ 0 then [pp] else []
  | _ => []

/-- What an operation of `wait` makes of the memory of the caller. -/
def Op.stores (m : Mem) (u : ByteMem) : Op → ByteMem
  | .copyMsg _ pp addr2 => waitMessage (m.proc pp) addr2 u
  | .reap _ pp addr addr2 => (waitReap (m.proc pp) addr addr2 u).2
  | _ => u

/-- A process that the parent can report. -/
def Proc.report (x : Proc) (p : Slot) : Option (Int × Int × ExitMsg) :=
  if x.state = .zombie ∧ x.parent = some p then some (x.pid, x.xstate, x.exitMsg) else none

/-- The next step of the hart calls a system call. -/
def State.callsSyscall (s : State n) (c : Fin n) : Bool :=
  match s.cur c with
  | .usertrap (.syscall _) :: _ => true
  | _ => false

/-- The process whose `wait` makes the next step of the hart. -/
def State.waiter (s : State n) (c : Fin n) : Option Slot :=
  match s.running c, s.cur c with
  | .proc p, .wait _ _ _ :: _ => some p
  | _, _ => none

/-- The records of all processes after a step of the kernel. -/
def recordWait (s : State n) (x : Fin n × Input) (h : Slot → WaitCall) (p : Slot) : WaitCall :=
  let b := if s.running x.1 = .proc p ∧ s.callsSyscall x.1 = true then .start else h p
  let op := if s.waiter x.1 = some p then s.op x else .skip
  { children := op.messages ++ b.children
    memory := fun u => op.stores s.mem (b.memory u)
    dead := fun z => (b.dead z).or ((((s.op x).apply s.mem).proc z).report p) }

/-- The kernel together with the records of the calls of `wait`. -/
def waitLog (n : Nat) : TransitionSystem (State n × (Slot → WaitCall)) (Fin n × Input) :=
  (kernel n).observe (fun _ => .start) recordWait

/-! ## The condition -/

/-- A child that `wait` looks at. -/
structure Look where
  caller : Slot
  addr : Nat
  addr2 : Nat
  child : Slot
deriving DecidableEq

/-- The child that `wait` looks at in the next step of a hart. -/
def State.looksAt (s : State n) (c : Fin n) : Option Look :=
  match s.running c, s.cur c with
  | .proc p, .wait addr addr2 (.scan j _) :: _ =>
    forSlot j (fun pp => if (s.mem.proc pp).parent = some p then some ⟨p, addr, addr2, pp⟩ else none) none
  | _, _ => none

/-- The process that tests `killed(p)` in `wait` in the next step of a hart. -/
def State.checksKilled (s : State n) (c : Fin n) : Option Slot :=
  match s.running c, s.cur c with
  | .proc p, .wait _ _ (.check _) :: _ => some p
  | _, _ => none

def Input.failsMessage : Input → Bool
  | .fail => true
  | _ => false

def Input.failsStatus : Input → Bool
  | .failStatus => true
  | _ => false

/-- `wait` has a message to store and the child is alive, or it has stored a message before. -/
def Look.early (y : Look) (m : Mem) (b : WaitCall) : Prop :=
  y.addr2 ≠ 0 ∧ ((m.proc y.child).state ≠ .zombie ∨ b.children ≠ [])

instance (y : Look) (m : Mem) (b : WaitCall) : Decidable (y.early m b) :=
  inferInstanceAs (Decidable (_ ∧ _))

/-- `wait` looks at a living child only if the caller has no other child, and from then on the
    `copyout`s succeed and the caller is not killed. Where a message is stored, the `copyout` of the
    status succeeds too. -/
structure Careful (x : State n × (Slot → WaitCall)) (i : Fin n × Input) : Prop where
  message : ∀ y, x.1.looksAt i.1 = some y → y.early x.1.mem (x.2 y.caller) →
    i.2.failsMessage = false ∧ ∀ z, (x.1.mem.proc z).parent = some y.caller → z = y.child
  status : ∀ y, x.1.looksAt i.1 = some y → y.addr2 ≠ 0 → y.addr ≠ 0 → i.2.failsStatus = false
  killed : ∀ p, x.1.checksKilled i.1 = some p → (x.2 p).children ≠ [] →
    (x.1.mem.proc p).killed = false

/-! ## Parents -/

/-- The slot that `fork` has not given a parent yet. -/
def ForkPc.orphan : ForkPc → Option Slot
  | .found np | .trapframe np | .pagetable np | .copy np | .setParent np _ => some np
  | .alloc _ | .relock _ _ | .runnable _ _ => none

theorem ForkPc.forking_of_orphan {pc : ForkPc} {np : Slot} (h : pc.orphan = some np) :
    pc.forking = some np := by
  cases pc with
  | found | trapframe | pagetable | copy | setParent => exact h
  | _ => cases h

/-- `p->parent` is 0 until `fork` stores it. -/
def Orphans (s : State n) : Prop :=
  ∀ q pc np, .fork pc ∈ s.stack (.proc q) → pc.orphan = some np → (s.mem.proc np).parent = none

variable {s : State n}

/-- `freeproc` clears `p->parent`. -/
theorem parent_of_unused (hr : (kernel n).Reachable s) {z : Slot}
    (hz : (s.mem.proc z).state = .unused) : (s.mem.proc z).parent = none := by
  obtain ⟨h, hx⟩ : ∃ h, (lineage n).Reachable (s, h) := exists_observe hr
  exact (records_reachable hx).unusedParent z hz

section

variable {s : State n} {c : Fin n} {i : Input} {rest : List Frame} {e : Effect}
variable (hi : Inv s) (ho : Orphans s) (hp : Planned s c i rest e)
include hi ho hp

theorem Orphans.keep {q np : Slot} {pc : ForkPc} (hm : .fork pc ∈ s.stack (.proc q))
    (hne : s.running c = .proc q → .fork pc ∈ rest) (hpc : pc.orphan = some np) :
    ((e.op.apply s.mem).proc np).parent = none := by
  have hnone := ho q pc np hm hpc
  rcases hp.parentTouch np with hk | ⟨f, hc, he, ht⟩
  · exact hk.trans hnone
  · cases ht with
    | keep hk => exact hk.trans hnone
    | setParent p pid hme hop hf hv hpar =>
      rw [hf] at hc
      exact absurd (ForkPc.forking_of_orphan hpc) (hi.forking_ne hm hne hc rfl)
    | free pc' hf hpc' hop hpar => exact hpar
    | reparent p st hme hold hf hop hpar => exact nomatch hnone.symm.trans hold
    | reap p hme hold hs hs' hpar => exact hpar

theorem Orphans.commit (hunused : ∀ z, (s.mem.proc z).state = .unused → (s.mem.proc z).parent = none) :
    Orphans (s.commit c rest e) := by
  intro q pc np hm hpc
  show ((e.op.apply s.mem).proc np).parent = none
  rcases hp.mem_stack (by simp) hm with ⟨hm, hne⟩ | ⟨hr, hm⟩
  · exact ho.keep hi hp hm hne hpc
  · rcases hi.fork_new hp hr hm with rfl | ⟨pc', hstk, hnext⟩
    · cases hpc
    · have hmem : Frame.fork pc' ∈ s.stack (.proc q) := mem_of_eq_cons hstk
      have hold := ho q pc' np hmem
      cases hnext with
      | alloc j hop | relock | runnable => cases hpc
      | found np' hop hs hacq =>
        cases hpc
        rw [hop]
        exact hunused np hs
      | trapframe np' hop | pagetable np' a hop | copy np' a hop | setParent p' np' hme hop =>
        cases hpc
        rw [hop, Op.apply_proc_target _ _ rfl]
        exact hold rfl

end

theorem orphans_reachable (hr : (kernel n).Reachable s) : Orphans s := by
  refine hr.induct (P := fun s : State n => Orphans s) (fun s hs => ?_) (fun s x s' hr ho _ hs => ?_)
  · obtain ⟨b, rfl⟩ := hs
    intro q pc np hm
    exact nomatch mem_boot_stack hm
  · obtain ⟨rest, e, hp, -, -, rfl⟩ := (inv_reachable hr).step_commit hs
    exact ho.commit (inv_reachable hr) hp fun z => parent_of_unused hr

/-! ## Children of a waiting process -/

section

variable {s : State n} {c : Fin n} {i : Input} {rest : List Frame} {e : Effect} {p q z : Slot}
variable (hi : Inv s) (ho : Orphans s) (hp : Planned s c i rest e)
include hi hp

/-- A `ZOMBIE` stays one until it is reaped. -/
theorem Inv.zombie_keep (hz : (s.mem.proc z).state = .zombie) :
    ((e.op.apply s.mem).proc z).state = .zombie ∨ ∃ p a a2, e.op = .reap p z a a2 := by
  rcases hp.touch z with ⟨hs, -⟩ | ⟨f, hc, he, ht⟩
  · exact .inl (hs.trans hz)
  · cases ht with
    | keep hs hch => exact .inl (hs.trans hz)
    | own hme hf hs =>
      -- a process that parks or wakes up itself is `RUNNING`
      have hspec := effect_opSpec he
      have hplain : f.plain = true := by
        rcases hs with hpark | hop
        · cases hop : e.op with
          | yield p => rw [hop] at hspec; rw [hspec.2.1]; rfl
          | sleep p ch =>
            rw [hop] at hspec
            obtain ⟨-, lk, rfl, -⟩ := hspec
            rfl
          | zombie p st => rw [hop] at hspec; rw [hspec.2]; rfl
          | _ => rw [hop] at hpark; cases hpark
        · rw [hop] at hspec
          obtain ⟨-, ch, lk, rfl⟩ := hspec
          rfl
      obtain ⟨hr, hstk⟩ := hi.running_of_proc hc hf hme
      have hact := hi.active c z hr
      rw [hstk, Active.of_plain hplain] at hact
      exact nomatch hact.symm.trans hz
    | fork pc hf hpc hs =>
      rw [hf] at hc
      obtain ⟨r, -, -, hstk⟩ := hi.exec_fork hc
      have hok := hi.fork r pc (mem_of_eq_cons hstk)
      rcases hok.state hpc with h | h <;> exact nomatch h.symm.trans hz
    | dispatch hop hs hacq | wake hv hs hs' => exact nomatch hs.symm.trans hz
    | reap hv hs hs' =>
      have htarget : e.op.target = some z := by
        by_contra hne
        rw [e.op.apply_proc_of_ne s.mem hne, hz] at hs'
        cases hs'
      rw [e.op.apply_proc_target s.mem htarget] at hs'
      rcases Op.write_unused hs' with ⟨np, hop⟩ | ⟨p, pp, a, a2, hop⟩ | h
      · have hspec := effect_opSpec he
        rw [hop] at hspec htarget
        cases htarget
        obtain ⟨pc, hf, hpc⟩ : ∃ pc, f = .fork pc ∧ pc.forking = some z := by
          rcases hspec with h | h | h <;> exact ⟨_, h, rfl⟩
        rw [hf] at hc
        obtain ⟨r, -, -, hstk⟩ := hi.exec_fork hc
        have hok := hi.fork r pc (mem_of_eq_cons hstk)
        rcases hok.state hpc with h | h <;> exact nomatch h.symm.trans hz
      · rw [hop] at htarget
        cases htarget
        exact .inr ⟨p, a, a2, hop⟩
      · exact nomatch h.symm.trans hz

variable (hwait : ∃ a a2 pc, .wait a a2 pc ∈ s.stack (.proc p))
include ho hwait

/-- A child of a process that waits stays its child until it is reaped. -/
theorem Inv.child_keep (hq : (s.mem.proc q).parent = some p) :
    ((e.op.apply s.mem).proc q).parent = some p ∨ ∃ a a2, e.op = .reap p q a a2 := by
  rcases hp.parentTouch q with hk | ⟨f, hc, he, ht⟩
  · exact .inl (hk.trans hq)
  · cases ht with
    | keep hk => exact .inl (hk.trans hq)
    | setParent p' pid hme hop hf hv hpar =>
      rw [hf] at hc
      obtain ⟨r, -, -, hstk⟩ := hi.exec_fork hc
      have hnone := ho r (.setParent q pid) q (mem_of_eq_cons hstk) rfl
      exact nomatch hnone.symm.trans hq
    | free pc hf hpc hop hpar =>
      have hspec := effect_opSpec he
      rw [hop] at hspec
      rw [hf] at hc
      obtain ⟨r, -, -, hstk⟩ := hi.exec_fork hc
      have horphan : pc.orphan = some q := by
        rw [hf] at hspec
        rcases hspec with h | h | h <;> cases h <;> rfl
      have hnone := ho r pc q (mem_of_eq_cons hstk) horphan
      exact nomatch hnone.symm.trans hq
    | reparent p' st hme hold hf hop hpar =>
      -- a process that waits does not exit
      obtain rfl : p = p' := Option.some.inj (hq.symm.trans hold)
      rw [hf] at hc
      obtain ⟨-, hstk⟩ := hi.running_of_proc hc nofun hme
      obtain ⟨a, a2, pc, hm⟩ := hwait
      have hnest := hi.nested (.proc p)
      rw [hstk] at hnest hm
      rcases List.mem_cons.mp hm with heq | hm
      · cases heq
      · exact absurd hm (hnest.not_mem_rest rfl rfl)
    | reap p' hme hold hs hs' hpar =>
      rcases hi.zombie_keep hp hs with hkeep | ⟨p₁, a, a2, hop⟩
      · exact nomatch hkeep.symm.trans hs'
      · have hp₁ : (s.mem.proc q).parent = some p₁ := (hp.reap_spec hop).1
        obtain rfl : p = p₁ := Option.some.inj (hq.symm.trans hp₁)
        exact .inr ⟨a, a2, hop⟩

/-- What the parent can report of a `ZOMBIE` child does not change until it is reaped. -/
theorem Inv.report_keep {d : Int × Int × ExitMsg} (hz : (s.mem.proc z).report p = some d) :
    ((e.op.apply s.mem).proc z).report p = some d ∨ ∃ a a2, e.op = .reap p z a a2 := by
  unfold Proc.report at hz
  split at hz
  case isFalse => cases hz
  case isTrue hrep =>
    obtain ⟨hs, hpar⟩ := hrep
    rcases hi.child_keep ho hp hwait hpar with hpar' | hop
    · rcases hi.zombie_keep hp hs with hs' | ⟨p', a, a2, hop⟩
      · left
        have hpid := hi.pid_step hp (by rw [hs]; exact nofun) (by rw [hs']; exact nofun)
        have hx := hi.xstate_step hp hs (by rw [hs']; exact nofun)
        have hmsg : ((e.op.apply s.mem).proc z).exitMsg = (s.mem.proc z).exitMsg :=
          Op.exitMsg_keep fun st msg hop => nomatch (hi.exitMsg_spec hp hop).2.2.symm.trans hs
        rw [Proc.report, if_pos ⟨hs', hpar'⟩, hpid, hx, hmsg]
        exact hz
      · have hp' : (s.mem.proc z).parent = some p' := (hp.reap_spec hop).1
        obtain rfl : p = p' := Option.some.inj (hpar.symm.trans hp')
        exact .inr ⟨a, a2, hop⟩
    · exact .inr hop

end

/-! ## The invariant -/

/-- What is known about a call of `wait` of process `p` at the point `pc`. -/
structure WaitOk (m : Mem) (p : Slot) (addr2 : Nat) (pc : WaitPc) (b : WaitCall) : Prop where
  memory : b.children = [] → b.memory = id
  addr2 : addr2 = 0 → b.children = []
  child : ∀ q ∈ b.children, (m.proc q).parent = some p
  scan : ∀ j k, pc = .scan j k → ∀ q ∈ b.children, q.val < j → k = true
  check : ∀ k, pc = .check k → b.children ≠ [] → k = true
  dead : ∀ z d, b.dead z = some d → (m.proc z).report p = some d

def WaitsOk (s : State n) (h : Slot → WaitCall) : Prop :=
  ∀ p a a2 pc, .wait a a2 pc ∈ s.stack (.proc p) → WaitOk s.mem p a2 pc (h p)

/-- The steps of `wait`. -/
inductive WaitStep (m : Mem) (p : Slot) (addr addr2 : Nat) (i : Input) : WaitPc → Effect → Prop
  | acquire :
      WaitStep m p addr addr2 i .acquire
        { acquire := some .wait, frames := [.wait addr addr2 (.scan 0 false)] }
  | other (pp : Slot) (k : Bool) (hpar : (m.proc pp).parent ≠ some p) :
      WaitStep m p addr addr2 i (.scan pp k) { frames := [.wait addr addr2 (.scan (pp + 1) k)] }
  | failMessage (pp : Slot) (k : Bool) (hpar : (m.proc pp).parent = some p) (hi : i = .fail)
      (ha2 : addr2 ≠ 0) :
      WaitStep m p addr addr2 i (.scan pp k)
        { visit := some (.proc pp), release := some .wait, frames := [] }
  | failStatus (pp : Slot) (k : Bool) (hpar : (m.proc pp).parent = some p) (hi : i = .failStatus)
      (ha : addr ≠ 0) :
      WaitStep m p addr addr2 i (.scan pp k)
        { visit := some (.proc pp)
          release := some .wait
          op := .copyMsg p pp addr2
          frames := [] }
  | reap (pp : Slot) (k : Bool) (hpar : (m.proc pp).parent = some p)
      (hz : (m.proc pp).state = .zombie) :
      WaitStep m p addr addr2 i (.scan pp k)
        { visit := some (.proc pp)
          release := some .wait
          op := .reap p pp addr addr2
          frames := [] }
  | alive (pp : Slot) (k : Bool) (hpar : (m.proc pp).parent = some p) :
      WaitStep m p addr addr2 i (.scan pp k)
        { visit := some (.proc pp)
          op := .copyMsg p pp addr2
          frames := [.wait addr addr2 (.scan (pp + 1) true)] }
  | scanned (j : Nat) (k : Bool) (hj : NPROC ≤ j) :
      WaitStep m p addr addr2 i (.scan j k) { frames := [.wait addr addr2 (.check k)] }
  | childless : WaitStep m p addr addr2 i (.check false) { release := some .wait, frames := [] }
  | killed (hk : (m.proc p).killed = true) :
      WaitStep m p addr addr2 i (.check true)
        { visit := some (.proc p), release := some .wait, frames := [] }
  | sleep :
      WaitStep m p addr addr2 i (.check true)
        { visit := some (.proc p)
          frames := [.sleep (.proc p) (some .wait) .acquire, .wait addr addr2 .acquire] }

theorem waitVisit_spec {m : Mem} {p pp : Slot} (addr addr2 : Nat) (i : Input) (k : Bool)
    (hpar : (m.proc pp).parent = some p) :
    WaitStep m p addr addr2 i (.scan pp k) (waitStep.waitVisit m p addr addr2 i pp pp) := by
  unfold waitStep.waitVisit
  split
  · rename_i hz
    split
    · split
      · rename_i ha
        exact .failStatus pp k hpar rfl ha
      · exact .reap pp k hpar hz
    · exact .reap pp k hpar hz
  · exact .alive pp k hpar

theorem waitStep_spec (m : Mem) (p : Slot) (addr addr2 : Nat) (i : Input) (pc : WaitPc) :
    WaitStep m p addr addr2 i pc (waitStep m p addr addr2 i pc) := by
  cases pc with
  | acquire => exact .acquire
  | scan j k =>
    simp only [waitStep]
    refine forSlot_ind (P := fun e => WaitStep m p addr addr2 i (.scan j k) e) (fun pp hpp => ?_)
      (fun hj => .scanned j k hj)
    subst hpp
    split
    · rename_i hpar
      split
      · split
        · rename_i ha2
          exact .failMessage pp k hpar rfl ha2
        · exact waitVisit_spec addr addr2 _ k hpar
      · exact waitVisit_spec addr addr2 _ k hpar
    · rename_i hpar
      exact .other pp k hpar
  | check k =>
    simp only [waitStep]
    cases k with
    | false => exact .childless
    | true =>
      rw [if_pos rfl]
      split
      · rename_i hk
        exact .killed hk
      · exact .sleep

variable {a a2 : Nat}

/-- A frame of `wait` comes from a system call or from a step of `wait`. -/
theorem effect_wait {m : Mem} {me : Option Slot} {f : Frame} {i : Input} {e : Effect} {pc' : WaitPc}
    (he : f.effect m me i = some e) (hm : .wait a a2 pc' ∈ e.frames) :
    (∃ sc, f = .usertrap (.syscall sc)) ∨
      ∃ p pc, me = some p ∧ f = .wait a a2 pc ∧ WaitStep m p a a2 i pc e := by
  rcases effect_calls he _ hm with hfn | hcall
  · cases f with
    | wait b b2 pc =>
      cases hfn
      obtain ⟨p, hme, he⟩ := Option.bind_eq_some_iff.mp he
      cases he
      exact .inr ⟨p, pc, hme, rfl, waitStep_spec m p a a2 i pc⟩
    | _ => cases hfn
  · cases f with
    | usertrap pc =>
      obtain ⟨p, -, he⟩ := Option.bind_eq_some_iff.mp he
      cases he
      cases pc with
      | syscall sc => exact .inl ⟨sc, rfl⟩
      | setkilled | update | accumulate | ret => simp [usertrapStep] at hm
      | killed t =>
        simp only [usertrapStep] at hm
        split at hm
        · simp [exitKilled] at hm
        · cases t <;> simp at hm
    | _ => cases hcall

/-! ## Steps -/

section

variable {s : State n} {h : Slot → WaitCall} {c : Fin n} {i : Input} {rest : List Frame} {e : Effect}
variable {p : Slot}

/-- The record of a call that does not move. -/
theorem recordWait_other (hw : s.waiter c ≠ some p)
    (hr : ¬ (s.running c = .proc p ∧ s.callsSyscall c = true)) :
    (recordWait s (c, i) h p).children = (h p).children ∧
      (recordWait s (c, i) h p).memory = (h p).memory := by
  simp only [recordWait]
  rw [if_neg hw, if_neg hr]
  exact ⟨rfl, rfl⟩

theorem recordWait_dead {z : Slot} {d : Int × Int × ExitMsg}
    (hr : ¬ (s.running c = .proc p ∧ s.callsSyscall c = true))
    (hd : (recordWait s (c, i) h p).dead z = some d) :
    (h p).dead z = some d ∨ (((s.op (c, i)).apply s.mem).proc z).report p = some d := by
  simp only [recordWait, if_neg hr] at hd
  rcases Option.or_eq_some_iff.mp hd with hd | ⟨-, hd⟩
  · exact .inl hd
  · exact .inr hd

variable {pc : WaitPc}

/-- The record of a call that makes the step. -/
theorem recordWait_self (hr : s.running c = .proc p) (hc : s.cur c = .wait a a2 pc :: rest) :
    (recordWait s (c, i) h p).children = (s.op (c, i)).messages ++ (h p).children ∧
      (∀ u, (recordWait s (c, i) h p).memory u = (s.op (c, i)).stores s.mem ((h p).memory u)) ∧
      ¬ (s.running c = .proc p ∧ s.callsSyscall c = true) := by
  have hw : s.waiter c = some p := by
    simp only [State.waiter, hr, hc]
  have hcall : ¬ (s.running c = .proc p ∧ s.callsSyscall c = true) := by
    simp [State.callsSyscall, hc]
  simp only [recordWait]
  rw [if_pos hw, if_neg hcall]
  exact ⟨rfl, fun _ => rfl, hcall⟩

variable (hi : Inv s) (ho : Orphans s) (hp : Planned s c i rest e) (hop : s.op (c, i) = e.op)
include hi ho hp hop

/-- The zombies that a call in progress has seen are still there, unless it reaps one. -/
theorem WaitOk.dead_next (hok : WaitOk s.mem p a2 pc (h p))
    (hwait : ∃ a a2 pc, .wait a a2 pc ∈ s.stack (.proc p))
    (hr : ¬ (s.running c = .proc p ∧ s.callsSyscall c = true)) (hne : ∀ z a a2, e.op ≠ .reap p z a a2)
    (z : Slot) (d : Int × Int × ExitMsg) (hd : (recordWait s (c, i) h p).dead z = some d) :
    ((e.op.apply s.mem).proc z).report p = some d := by
  rcases recordWait_dead hr hd with hd | hd
  · rcases hi.report_keep ho hp hwait (hok.dead z d hd) with hkeep | ⟨a, a2, hreap⟩
    · exact hkeep
    · exact absurd hreap (hne z a a2)
  · rw [hop] at hd
    exact hd

omit ho hop in
/-- While `p` waits, the frame that executes on its stack is another one, and no system call begins. -/
theorem Inv.wait_below (hm : .wait a a2 pc ∈ s.stack (.proc p))
    (hne : s.running c = .proc p → .wait a a2 pc ∈ rest) :
    ¬ (s.running c = .proc p ∧ s.callsSyscall c = true) ∧ (s.waiter c = some p → e.op = .skip) ∧
      ∀ z a a2, e.op ≠ .reap p z a a2 := by
  have hnest := hi.nested (.proc p)
  have htop {b b2 : Nat} {pc' : WaitPc} (hr : s.running c = .proc p)
      (hc : s.stack (.proc p) = .wait b b2 pc' :: rest) : False := by
    rw [hc] at hnest
    exact hnest.not_mem_rest rfl rfl (hne hr)
  refine ⟨?_, ?_, ?_⟩
  · rintro ⟨hr, hcall⟩
    unfold State.callsSyscall at hcall
    split at hcall
    · rename_i sc r hc
      have hstk : s.stack (.proc p) = .usertrap (.syscall sc) :: r := by rw [← hr]; exact hc
      rw [hstk] at hnest hm
      have hnil : r = [] := hnest.1
      rw [hnil, List.mem_singleton] at hm
      cases hm
    · cases hcall
  · intro hw
    unfold State.waiter at hw
    split at hw
    · rename_i q b b2 pc' r hr hc
      cases hw
      cases hp with
      | user _ fs _ hc' hfs => exact rfl
      | kernel fs hne' hlock hfs => exact rfl
      | exec f rest e hc' he =>
        obtain ⟨rfl, rfl⟩ : f = .wait b b2 pc' ∧ rest = r := List.cons.inj (hc'.symm.trans hc)
        exact (htop hr (by rw [← hr]; exact hc)).elim
    · cases hw
  · intro z b b2 hreap
    obtain ⟨f, hc, -, hspec⟩ := hp.opSpec hreap (by simp)
    obtain ⟨hme, -, -, -, -, k, rfl⟩ := hspec
    obtain ⟨hr, hstk⟩ := hi.running_of_proc hc nofun hme
    exact htop hr hstk

/-- A frame of `wait` that does not make the step. -/
theorem WaitsOk.keep (hw : WaitsOk s h) (hm : .wait a a2 pc ∈ s.stack (.proc p))
    (hne : s.running c = .proc p → .wait a a2 pc ∈ rest) :
    WaitOk (e.op.apply s.mem) p a2 pc (recordWait s (c, i) h p) := by
  have hok := hw p a a2 pc hm
  obtain ⟨hcall, hskip, hreap⟩ := hi.wait_below hp hm hne
  have hwait : ∃ a a2 pc, .wait a a2 pc ∈ s.stack (.proc p) := ⟨a, a2, pc, hm⟩
  have hsame : (recordWait s (c, i) h p).children = (h p).children ∧
      (recordWait s (c, i) h p).memory = (h p).memory := by
    by_cases hwaiter : s.waiter c = some p
    · simp only [recordWait, if_neg hcall, hop, hskip hwaiter, ite_self]
      exact ⟨rfl, rfl⟩
    · exact recordWait_other hwaiter hcall
  constructor
  · rw [hsame.1, hsame.2]
    exact hok.memory
  · rw [hsame.1]
    exact hok.addr2
  · rw [hsame.1]
    intro q hq
    rcases hi.child_keep ho hp hwait (hok.child q hq) with hkeep | ⟨b, b2, hop'⟩
    · exact hkeep
    · exact absurd hop' (hreap q b b2)
  · rw [hsame.1]
    exact hok.scan
  · rw [hsame.1]
    exact hok.check
  · exact hok.dead_next hi ho hp hop hwait hcall hreap

omit hi ho hp in
/-- A new call of `wait`. -/
theorem waitOk_call {sc : Syscall} (hr : s.running c = .proc p)
    (hc : s.cur c = .usertrap (.syscall sc) :: rest) :
    WaitOk (e.op.apply s.mem) p a2 .acquire (recordWait s (c, i) h p) := by
  have hcall : s.running c = .proc p ∧ s.callsSyscall c = true := by
    refine ⟨hr, ?_⟩
    rw [State.callsSyscall, hc]
  have hwaiter : s.waiter c ≠ some p := by
    rw [State.waiter, hr, hc]
    exact nofun
  have hchildren : (recordWait s (c, i) h p).children = [] := by
    simp only [recordWait, if_pos hcall, if_neg hwaiter]
    rfl
  constructor
  · intro _
    simp only [recordWait, if_pos hcall, if_neg hwaiter]
    rfl
  · exact fun _ => hchildren
  · rw [hchildren]
    exact nofun
  · exact nofun
  · exact nofun
  · intro z d hd
    simp only [recordWait, if_pos hcall, WaitCall.start, Option.none_or, hop] at hd
    exact hd

/-- A step of `wait` that does not return. -/
theorem WaitsOk.exec (hw : WaitsOk s h) {pc' : WaitPc} (hr : s.running c = .proc p)
    (hc : s.cur c = .wait a a2 pc :: rest) (hstep : WaitStep s.mem p a a2 i pc e)
    (hm : .wait a a2 pc' ∈ e.frames) :
    WaitOk (e.op.apply s.mem) p a2 pc' (recordWait s (c, i) h p) := by
  have hmem : .wait a a2 pc ∈ s.stack (.proc p) := by
    rw [← hr, ← State.cur, hc]
    exact List.mem_cons_self
  have hok := hw p a a2 pc hmem
  obtain ⟨hchildren, hmemory, hcall⟩ := recordWait_self (i := i) (h := h) hr hc
  have hdead := fun hne => hok.dead_next hi ho hp hop ⟨a, a2, pc, hmem⟩ hcall hne
  rw [hop] at hchildren hmemory
  -- a step without an operation keeps what has been stored
  have hskip (hsk : e.op = .skip)
      (hscan : ∀ j k, pc' = .scan j k → ∀ q ∈ (h p).children, q.val < j → k = true)
      (hcheck : ∀ k, pc' = .check k → (h p).children ≠ [] → k = true) :
      WaitOk (e.op.apply s.mem) p a2 pc' (recordWait s (c, i) h p) := by
    rw [hsk] at hchildren hmemory
    replace hchildren : (recordWait s (c, i) h p).children = (h p).children := hchildren
    have hdead := hdead (by rw [hsk]; rintro _ _ _ ⟨⟩)
    rw [hsk] at hdead ⊢
    refine ⟨fun hnil => ?_, ?_, ?_, ?_, ?_, hdead⟩
    · rw [hchildren] at hnil
      rw [funext hmemory, hok.memory hnil]
      rfl
    · rw [hchildren]
      exact hok.addr2
    · rw [hchildren]
      exact hok.child
    · rw [hchildren]
      exact hscan
    · rw [hchildren]
      exact hcheck
  cases hstep with
  | acquire =>
    cases List.mem_singleton.mp hm
    refine hskip rfl (fun j k hj q _ hq => ?_) (by rintro _ ⟨⟩)
    cases hj
    exact absurd hq (Nat.not_lt_zero _)
  | other pp k hpar =>
    cases List.mem_singleton.mp hm
    refine hskip rfl (fun j k' hj q hq hlt => ?_) (by rintro _ ⟨⟩)
    cases hj
    have hne : q.val ≠ pp.val := fun heq => hpar (by rw [← Fin.ext heq]; exact hok.child q hq)
    exact hok.scan _ _ rfl q hq (by omega)
  | failMessage | failStatus | reap | childless | killed => cases hm
  | alive pp k hpar =>
    cases List.mem_singleton.mp hm
    refine ⟨fun hnil => ?_, fun ha2 => ?_, fun q hq => ?_, fun j k' hj _ _ _ => ?_,
      (by rintro _ ⟨⟩), hdead (by rintro _ _ _ ⟨⟩)⟩
    · rw [hchildren, List.append_eq_nil_iff] at hnil
      have hzero : a2 = 0 := by
        by_contra ha2
        simp [Op.messages, ha2] at hnil
      funext u
      rw [hmemory, hok.memory hnil.2]
      simp [Op.stores, waitMessage, hzero]
    · rw [hchildren, hok.addr2 ha2]
      simp [Op.messages, ha2]
    · rw [hchildren, List.mem_append] at hq
      rcases hq with hq | hq
      · simp only [Op.messages] at hq
        split at hq
        · rw [List.mem_singleton.mp hq]
          exact hpar
        · cases hq
      · exact hok.child q hq
    · cases hj
      rfl
  | scanned j k hj =>
    cases List.mem_singleton.mp hm
    refine hskip rfl (by rintro _ _ ⟨⟩) (fun k' hk hne => ?_)
    cases hk
    obtain ⟨q, hq⟩ := List.exists_mem_of_ne_nil _ hne
    exact hok.scan _ _ rfl q hq (Nat.lt_of_lt_of_le q.isLt hj)
  | sleep =>
    have hpc' : pc' = .acquire := by simpa using hm
    subst hpc'
    exact hskip rfl (by rintro _ _ ⟨⟩) (by rintro _ ⟨⟩)

theorem WaitsOk.commit (hw : WaitsOk s h) : WaitsOk (s.commit c rest e) (recordWait s (c, i) h) := by
  intro p a a2 pc hm
  show WaitOk (e.op.apply s.mem) p a2 pc (recordWait s (c, i) h p)
  rcases hp.mem_stack (by simp) hm with ⟨hm, hne⟩ | ⟨hr, hnew⟩
  · exact hw.keep hi ho hp hop hm hne
  · clear hm
    cases hp with
    | user q fs hr' hc hfs =>
      have hhandler := (userEntry_spec q hfs).1 _ hnew
      cases hhandler
    | kernel fs hne hlock hfs =>
      have hhandler := (kernelEntry_spec (s.running c) hfs).1 _ hnew
      cases hhandler
    | exec f rest e hc he hk =>
      rcases effect_wait he hnew with ⟨sc, rfl⟩ | ⟨q, pc₀, hme, rfl, hstep⟩
      · obtain rfl : pc = .acquire := by
          rcases (effect_frameSpec (hi.ready hc) he).call _ hnew with hstart | hfn
          · cases pc with
            | acquire => rfl
            | _ => cases hstart
          · cases hfn
        exact waitOk_call hop hr hc
      · obtain rfl : p = q := Option.some.inj ((hi.thread c p hr).symm.trans hme)
        exact hw.exec hi ho (.exec _ rest e hc he hk) hop hr hc hstep hnew

end

theorem waitsOk_reachable {x : State n × (Slot → WaitCall)} (hr : (waitLog n).Reachable x) :
    WaitsOk x.1 x.2 := by
  refine hr.induct (P := fun x : State n × (Slot → WaitCall) => WaitsOk x.1 x.2) (fun x hx => ?_)
    (fun x i y hr hw _ hs => ?_)
  · obtain ⟨⟨b, hb⟩, -⟩ := hx
    intro p a a2 pc hm
    rw [hb] at hm
    exact nomatch mem_boot_stack hm
  · have hreach := reachable_of_observe hr
    obtain ⟨hstep, hh⟩ := observe_step.mp hs
    obtain ⟨rest, e, hp, -, hop, hcommit⟩ := (inv_reachable hreach).step_commit hstep
    rw [hh, hcommit]
    exact hw.commit (inv_reachable hreach) (orphans_reachable hreach) hp hop

/-! ## Returning -/

/-- The next step of a hart returns from `wait`: the caller and the child whose pid is returned, none
    for -1. -/
def State.waitReturns (s : State n) (x : Fin n × Input) : Option (Slot × Option Slot) :=
  match s.waiter x.1, s.plan x.1 x.2 with
  | some p, some (_, e) => if e.frames.isEmpty then some (p, e.op.reaps.map fun r => r.2.1) else none
  | _, _ => none

/-- What a call of `wait` that has returned has done. -/
structure WaitResult (m : Mem) (p : Slot) (b : WaitCall) (r : Option Slot) : Prop where
  stored : ∀ pp, r = some pp → ∀ q ∈ b.children, q = pp
  memory : r = none → b.memory = id
  dead : r = none → ∀ z d, b.dead z = some d → (m.proc z).report p = some d

theorem eq_of_waiter {c : Fin n} {p : Slot} (h : s.waiter c = some p) :
    s.running c = .proc p ∧ ∃ a a2 pc rest, s.cur c = .wait a a2 pc :: rest := by
  unfold State.waiter at h
  split at h
  · rename_i q a a2 pc rest hr hc
    cases h
    exact ⟨hr, a, a2, pc, rest, hc⟩
  · cases h

/-- The step of `wait` that returns. -/
theorem Inv.waitReturns_spec (hi : Inv s) {x : Fin n × Input} {s' : State n}
    {p : Slot} {r : Option Slot} (hs : s.step x = some s') (hret : s.waitReturns x = some (p, r)) :
    ∃ a a2 pc rest e, s.running x.1 = .proc p ∧ s.cur x.1 = .wait a a2 pc :: rest ∧
      Planned s x.1 x.2 rest e ∧ s.op x = e.op ∧ s' = s.commit x.1 rest e ∧
      WaitStep s.mem p a a2 x.2 pc e ∧ e.frames = [] ∧ r = e.op.reaps.map fun r => r.2.1 := by
  unfold State.waitReturns at hret
  split at hret
  case h_2 => cases hret
  case h_1 q rest e hw hplan =>
  split at hret
  case isFalse => cases hret
  case isTrue hnil =>
  cases hret
  rw [List.isEmpty_iff] at hnil
  obtain ⟨hr, a, a2, pc, rest', hc⟩ := eq_of_waiter hw
  have hp := planned_of_plan hplan
  have hpan := hi.panics_eq_false hp
  have hop : s.op x = e.op := by simp [State.op, hplan, hpan]
  have hcommit : s' = s.commit x.1 rest e := by
    unfold State.step at hs
    rw [hplan] at hs
    simp only [hpan, Bool.false_eq_true, if_false] at hs
    split at hs
    · cases hs
    · exact (Option.some.inj hs).symm
  cases hp with
  | user _ fs _ hc' hfs => cases hc.symm.trans hc'
  | kernel fs hne hlock hfs =>
    -- a trap entry pushes frames
    unfold State.kernelEntry State.timerFrames at hfs
    split at hfs
    · cases hfs
      split at hnil <;> cases hnil
    · cases hfs
      cases hnil
    · cases hfs
  | exec f rest e hc' he hk =>
    obtain ⟨rfl, rfl⟩ : f = .wait a a2 pc ∧ rest = rest' := List.cons.inj (hc'.symm.trans hc)
    refine ⟨a, a2, pc, rest, e, hr, hc, .exec _ rest e hc he hk, hop, hcommit, ?_, hnil, rfl⟩
    obtain ⟨q, hme, he⟩ := Option.bind_eq_some_iff.mp he
    obtain rfl : p = q := Option.some.inj ((hi.thread x.1 p hr).symm.trans hme)
    cases he
    exact waitStep_spec s.mem p a a2 x.2 pc

/-- The child that a step of `wait` looks at. -/
theorem looksAt_eq {c : Fin n} {p pp : Slot} {k : Bool} {rest : List Frame} (hr : s.running c = .proc p)
    (hc : s.cur c = .wait a a2 (.scan pp k) :: rest) (hpar : (s.mem.proc pp).parent = some p) :
    s.looksAt c = some ⟨p, a, a2, pp⟩ := by
  simp only [State.looksAt, hr, hc, forSlot, pp.isLt, dite_true, Fin.eta, if_pos hpar]

/-- `wait` stores the messages of the child it returns only, and a call that returns -1 has changed
    neither the memory of the caller nor a `ZOMBIE` child, and has found one if the `copyout` of the
    message has failed, provided that the step that returns meets the condition. -/
theorem wait_stores_result {x y : State n × (Slot → WaitCall)} {i : Fin n × Input} {p : Slot}
    {r : Option Slot} (hr : (waitLog n).Reachable x) (hcareful : Careful x i)
    (hs : (waitLog n).step x i = some y) (hret : x.1.waitReturns i = some (p, r)) :
    WaitResult y.1.mem p (y.2 p) r ∧
      (∀ l, x.1.looksAt i.1 = some l → l.addr2 ≠ 0 → i.2.failsMessage = true →
        ∃ z, ((x.1.mem.proc z).report p).isSome = true) := by
  have hreach := reachable_of_observe hr
  have hi := inv_reachable hreach
  have ho := orphans_reachable hreach
  obtain ⟨hstep, hh⟩ := observe_step.mp hs
  obtain ⟨a, a2, pc, rest, e, hrun, hc, hp, hop, hcommit, hwait, hnil, rfl⟩ :=
    hi.waitReturns_spec hstep hret
  have hmem : .wait a a2 pc ∈ x.1.stack (.proc p) := by
    rw [← hrun, ← State.cur, hc]
    exact List.mem_cons_self
  have hok := waitsOk_reachable hr p a a2 pc hmem
  obtain ⟨hchildren, hmemory, hcall⟩ := recordWait_self (i := i.2) (h := x.2) hrun hc
  have hdead := fun hne => hok.dead_next hi ho hp hop ⟨a, a2, pc, hmem⟩ hcall hne
  rw [show x.1.op (i.1, i.2) = e.op from hop] at hchildren hmemory
  have hym : y.1.mem = e.op.apply x.1.mem := by rw [hcommit]; rfl
  rw [hh, hym]
  -- a return of -1 without anything stored
  have hminus (hne : ∀ z b b2, e.op ≠ .reap p z b b2) (hold : (x.2 p).children = [])
      (hnone : e.op.reaps = none) (hstores : ∀ u, e.op.stores x.1.mem u = u) :
      WaitResult (e.op.apply x.1.mem) p (recordWait x.1 i x.2 p) (e.op.reaps.map fun r => r.2.1) := by
    rw [hnone]
    refine ⟨(by rintro _ ⟨⟩), fun _ => ?_, fun _ => hdead hne⟩
    funext u
    rw [show (recordWait x.1 i x.2 p).memory u = _ from hmemory u, hstores, hok.memory hold]
  have hreport (pp : Slot) (hz : (x.1.mem.proc pp).state = .zombie)
      (hpar : (x.1.mem.proc pp).parent = some p) : ((x.1.mem.proc pp).report p).isSome = true := by
    rw [Proc.report, if_pos ⟨hz, hpar⟩]
    rfl
  cases hwait with
  | acquire | other | alive | scanned | sleep => cases hnil
  | failMessage pp k hpar hfail ha2 =>
    -- the condition leaves a `ZOMBIE` only, before anything was stored
    have hlook := looksAt_eq hrun hc hpar
    have hlate : ¬ (Look.mk p a a2 pp).early x.1.mem (x.2 p) := by
      intro hearly
      have hno := (hcareful.message _ hlook hearly).1
      rw [hfail] at hno
      cases hno
    simp only [Look.early, not_and, not_or, not_not] at hlate
    obtain ⟨hz, hold⟩ := hlate ha2
    exact ⟨hminus (by rintro _ _ _ ⟨⟩) hold rfl fun _ => rfl, fun _ _ _ _ => ⟨pp, hreport pp hz hpar⟩⟩
  | failStatus pp k hpar hfail ha =>
    have hzero : a2 = 0 := by
      by_contra ha2
      have hno := hcareful.status _ (looksAt_eq hrun hc hpar) ha2 ha
      rw [hfail] at hno
      cases hno
    refine ⟨hminus (by rintro _ _ _ ⟨⟩) (hok.addr2 hzero) rfl fun u => ?_, fun _ _ _ hmsg => ?_⟩
    · simp [Op.stores, waitMessage, hzero]
    · rw [hfail] at hmsg
      cases hmsg
  | reap pp k hpar hz =>
    refine ⟨⟨fun q hq z hz => ?_, (by rintro ⟨⟩), (by rintro ⟨⟩)⟩, fun _ _ _ _ => ⟨pp, hreport pp hz hpar⟩⟩
    cases hq
    rw [show (recordWait x.1 i x.2 p).children = _ from hchildren, List.mem_append] at hz
    rcases hz with hnew | hold
    · simp only [Op.messages] at hnew
      split at hnew
      · exact List.mem_singleton.mp hnew
      · cases hnew
    · -- a child whose message was stored before is the only one
      have hne : (x.2 p).children ≠ [] := List.ne_nil_of_mem hold
      have ha2 : a2 ≠ 0 := fun ha2 => hne (hok.addr2 ha2)
      exact (hcareful.message _ (looksAt_eq hrun hc hpar) ⟨ha2, .inr hne⟩).2 z (hok.child z hold)
  | childless =>
    have hold : (x.2 p).children = [] := by
      by_contra hne
      cases hok.check false rfl hne
    refine ⟨hminus (by rintro _ _ _ ⟨⟩) hold rfl fun _ => rfl, fun l hl => ?_⟩
    simp [State.looksAt, hrun, hc] at hl
  | killed hk =>
    have hold : (x.2 p).children = [] := by
      by_contra hne
      have hno := hcareful.killed p (by simp only [State.checksKilled, hrun, hc]) hne
      cases hk.symm.trans hno
    refine ⟨hminus (by rintro _ _ _ ⟨⟩) hold rfl fun _ => rfl, fun l hl => ?_⟩
    simp [State.looksAt, hrun, hc] at hl

/-- The child of `forkRun` has exited, and `wait` looks at it. -/
def waitAtChild : List (Fin 2 × Input) :=
  forkRun ++ exitRun 7 [104, 105, 0] ++ List.replicate 2 (0, .run) ++
    [(0, .syscall (.wait 4096 8192))] ++ List.replicate 3 (0, .run)

theorem wait_stores_result_child : ∃ x y : State 2 × (Slot → WaitCall),
    (waitLog 2).step x (0, .run) = some y ∧ x.1.waitReturns (0, .run) = some (0, some 1) ∧
      (y.2 0).children = [1] ∧ WaitResult y.1.mem 0 (y.2 0) (some 1) := by
  have hrun : ((waitLog 2).run (State.boot 2 ⟨1, 2, 3, 0⟩, fun _ => .start) waitAtChild).map
      (fun x => (decide (x.1.looksAt 0 = some ⟨0, 4096, 8192, 1⟩ ∧ (x.1.mem.proc 1).state = .zombie ∧
          (x.2 0).children = [] ∧ x.1.checksKilled 0 = none ∧
          x.1.waitReturns (0, .run) = some (0, some 1)),
        ((waitLog 2).step x (0, .run)).map fun y => (y.2 0).children)) = some (true, some [1]) := by
    decide +kernel
  obtain ⟨x, hreach, hproj⟩ := exists_reachable_of_run hrun ⟨⟨_, rfl⟩, rfl⟩
  simp only [Prod.mk.injEq, decide_eq_true_eq] at hproj
  obtain ⟨⟨hlook, hz, hnil, hcheck, hret⟩, hstep⟩ := hproj
  obtain ⟨y, hy, hchildren⟩ := Option.map_eq_some_iff.mp hstep
  have hcareful : Careful x (0, .run) := by
    refine ⟨fun l hl hearly => ?_, fun _ _ _ _ => rfl, fun p hp => nomatch hcheck.symm.trans hp⟩
    cases hlook.symm.trans hl
    rcases hearly.2 with hs | hne
    · exact absurd hz hs
    · exact absurd hnil hne
  exact ⟨x, y, hy, hret, hchildren, (wait_stores_result hreach hcareful hy hret).1⟩

/-- The child of `forkRun` kills its parent, which has called `wait`. -/
def waitKilled : List (Fin 2 × Input) :=
  forkRun ++ List.replicate 7 (1, .run) ++ List.replicate 2 (0, .run) ++
    [(0, .syscall (.wait 4096 8192)), (0, .run), (1, .syscall (.kill 1))] ++
    List.replicate 2 (1, .run) ++ List.replicate 66 (0, .run)

/-- The call returns -1, and the 32 bytes at `addr2` are those of a child that is alive. -/
theorem wait_stores_early : ∃ x y : State 2 × (Slot → WaitCall),
    (waitLog 2).Reachable x ∧ (waitLog 2).step x (0, .run) = some y ∧
      x.1.waitReturns (0, .run) = some (0, none) ∧ (x.1.mem.proc 1).state = .running ∧
      (y.2 0).memory (fun _ => 1) 8192 = 0 := by
  have hrun : ((waitLog 2).run (State.boot 2 ⟨1, 2, 3, 0⟩, fun _ => .start) waitKilled).map
      (fun x => (x.1.waitReturns (0, .run), (x.1.mem.proc 1).state,
        ((waitLog 2).step x (0, .run)).map fun y => (y.2 0).memory (fun _ => 1) 8192)) =
      some (some (0, none), .running, some 0) := by
    decide +kernel
  obtain ⟨x, hreach, hproj⟩ := exists_reachable_of_run hrun ⟨⟨_, rfl⟩, rfl⟩
  simp only [Prod.mk.injEq] at hproj
  obtain ⟨y, hy, hbyte⟩ := Option.map_eq_some_iff.mp hproj.2.2
  exact ⟨x, y, hreach, hy, hproj.1, hproj.2.1, hbyte⟩

end Xv6
