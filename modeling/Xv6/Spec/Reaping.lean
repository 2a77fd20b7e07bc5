import Xv6.Spec.WaitWakeup

/-!
# Every child is reaped once, by its parent

`Records` relates the history of a run to the process table: creation numbers of occupied
slots are distinct, a process that has called `exit` still has the pid and the status of
that call when it is a `ZOMBIE`, and whoever is its parent forked it or is the first
process after the forking process has called `exit`.
-/

namespace Xv6

open TransitionSystem

variable {n : Nat}

/-- The argument `status` once `exit` has recorded its call. -/
def ExitPc.status : ExitPc → Option Int
  | .entry _ _ | .swtch | .dead => none
  | .close st _ | .closed st _ | .iput st | .acquire st | .reparent st _ | .reparentWake st _ _
  | .wakeParent st _ _ | .lock st | .zombie st => some st

variable {p : Slot}
variable {m : Mem} {op : Op}

/-- Inside `exit` the argument `status` stays the same; its first step stores the message. -/
theorem ExitNext.status {pc pc' : ExitPc} {st : Int}
    (h : ExitNext m p op pc pc') (hst : pc'.status = some st) :
    (pc.status = some st ∧ ∀ q st' msg, op ≠ .exitMsg q st' msg) ∨
      ∃ msg, pc = .entry st msg ∧ op = .exitMsg p st msg := by
  cases h with
  | entry st' msg hinit =>
    cases hst
    exact .inr ⟨msg, rfl, rfl⟩
  | swtch | dead => cases hst
  | wakeInit st' i q | wake st' ch q =>
    refine .inl ⟨hst, fun r st msg hop => ?_⟩
    split at hop <;> cases hop
  | _ => exact .inl ⟨hst, by simp⟩

/-- The history of a run and the process table. -/
structure Records (s : State n) (h : Lineage) : Prop where
  inj : ∀ a b, (s.mem.proc a).state ≠ .unused → (s.mem.proc b).state ≠ .unused →
    h.birth a = h.birth b → a = b
  unusedParent : ∀ z, (s.mem.proc z).state = .unused → (s.mem.proc z).parent = none
  exiting : ∀ p pc st, .exit pc ∈ s.stack (.proc p) → pc.status = some st →
    h.exited (h.birth p) = some ((s.mem.proc p).pid, st)
  zombie : ∀ z, (s.mem.proc z).state = .zombie →
    h.exited (h.birth z) = some ((s.mem.proc z).pid, (s.mem.proc z).xstate)
  parent : ∀ z q, (s.mem.proc z).parent = some q →
    h.birth q = h.forker (h.birth z) ∨
      (q = s.mem.initproc ∧ (h.exited (h.forker (h.birth z))).isSome = true)
  gone : ∀ r ∈ h.reaped, r.child ≤ h.clock ∧
    ∀ z, (s.mem.proc z).state ≠ .unused → h.birth z ≠ r.child
  reaped : ∀ r ∈ h.reaped, h.exited r.child = some (r.pid, r.status) ∧
    (r.waiter = h.forker r.child ∨ (r.waiter = 0 ∧ r.orphan = true))
  nodup : (h.reaped.map Reaped.child).Nodup

/-! ## What a step does to a slot -/

/-- Only `freeproc` makes a slot `UNUSED`. -/
theorem Op.write_unused {x : Proc} (h : (op.write m x).state = .unused) :
    (∃ np, op = .free np) ∨ (∃ p pp a a2, op = .reap p pp a a2) ∨ x.state = .unused := by
  cases op with
  | free np => exact .inl ⟨np, rfl⟩
  | reap p pp a a2 => exact .inr (.inl ⟨p, pp, a, a2, rfl⟩)
  | alloc | setRunnable | dispatch | yield | sleep | zombie => cases h
  | wakeup ch q | kill q pid =>
    simp only [Op.write] at h
    split at h
    · cases h
    · exact .inr (.inr h)
  | _ => exact .inr (.inr h)

/-- `p->pid` is stored by `allocproc` and `freeproc` only. -/
theorem Op.write_pid {x : Proc} (halloc : ∀ np, op ≠ .alloc np)
    (hfree : ∀ np, op ≠ .free np) (hreap : ∀ p pp a a2, op ≠ .reap p pp a a2) :
    (op.write m x).pid = x.pid := by
  cases op with
  | alloc np => exact absurd rfl (halloc np)
  | free np => exact absurd rfl (hfree np)
  | reap p pp a a2 => exact absurd rfl (hreap p pp a a2)
  | _ => rfl

section

variable {s : State n} {c : Fin n} {i : Input} {rest : List Frame} {e : Effect}
variable (hi : Inv s)
include hi

/-- A process whose `exit` has begun and not finished is alive. -/
theorem Inv.exit_live {pc : ExitPc} {st : Int} (hm : .exit pc ∈ s.stack (.proc p))
    (hst : pc.status = some st) : (s.mem.proc p).state.live = true := by
  -- the only other frame of `exit` on a stack is the innermost one of a dead process
  have hnot : ∀ pc₁ r, s.stack (.proc p) = .exit pc₁ :: r → pc₁.status ≠ none := by
    intro pc₁ r hstk hnone
    have hnest := hi.nested (.proc p)
    rw [hstk] at hm hnest
    rcases List.mem_cons.mp hm with hm | hm
    · cases hm
      exact nomatch hst.symm.trans hnone
    · exact hnest.not_mem_rest rfl rfl hm
  by_cases hrun : ∃ d, s.running d = .proc p
  · obtain ⟨d, hd⟩ := hrun
    have ha := hi.active d p hd
    unfold Active at ha
    split at ha
    · rw [ha]; rfl
    · rw [ha.1]; rfl
    · rename_i r hstk
      exact absurd rfl (hnot _ r hstk)
    · exact ha.elim
    · rw [ha]; rfl
  · have hsus := hi.suspended p fun d hd => hrun ⟨d, hd⟩
    have hidle : ¬ Idle (s.stack (.proc p)) := by
      rintro (hstk | hstk | ⟨r, hstk⟩)
      · rw [hstk] at hm
        cases hm
      · rw [hstk, List.mem_singleton] at hm
        cases hm
      · exact hnot _ r hstk rfl
    cases hs : (s.mem.proc p).state with
    | unused => exact absurd (hsus.idle (.inl hs)) hidle
    | used => exact absurd (hsus.idle (.inr (.inl hs))) hidle
    | zombie => exact absurd (hsus.idle (.inr (.inr hs))) hidle
    | sleeping | runnable | running => rfl

variable (hp : Planned s c i rest e)
include hp

/-- A slot is taken by `allocproc` only. -/
theorem Inv.used_step {z : Slot} (hz : ((e.op.apply s.mem).proc z).state ≠ .unused) :
    (s.mem.proc z).state ≠ .unused ∨ e.op = .alloc z := by
  rcases hp.touch z with ⟨hs, -⟩ | ⟨f, hc, he, ht⟩
  · exact .inl (hs ▸ hz)
  · cases ht with
    | keep hs hch => exact .inl (hs ▸ hz)
    | own hme hf hs =>
      obtain ⟨hr, -⟩ := hi.running_of_proc hc hf hme
      exact .inl (hi.active c z hr).created.1
    | fork pc hf hpc hs =>
      rcases hs with ⟨-, hop⟩ | hs | ⟨-, ⟨pid, rfl⟩, -⟩
      · exact .inr hop
      · exact absurd hs hz
      · rw [hf] at hc
        obtain ⟨q, -, -, hstk⟩ := hi.exec_fork hc
        have hok := hi.fork q (.runnable z pid) (mem_of_eq_cons hstk)
        exact .inl (by simp [hok.1])
    | dispatch hop hs hacq | wake hv hs hs' => exact .inl (by simp [hs])
    | reap hv hs hs' => exact absurd hs' hz

/-- A process that neither is created nor freed keeps its pid. -/
theorem Inv.pid_step (hs : (s.mem.proc p).state ≠ .unused)
    (hs' : ((e.op.apply s.mem).proc p).state ≠ .unused) :
    ((e.op.apply s.mem).proc p).pid = (s.mem.proc p).pid := by
  by_cases ht : e.op.target = some p
  case neg => rw [e.op.apply_proc_of_ne s.mem ht]
  have hw := e.op.apply_proc_target s.mem ht
  rw [hw] at hs' ⊢
  refine Op.write_pid ?_ ?_ ?_
  · intro np hop
    rw [hop] at ht
    cases ht
    exact hs (hi.alloc_unused hp hop)
  · intro np hop
    rw [hop] at hs'
    exact hs' rfl
  · intro q pp a a2 hop
    rw [hop] at hs'
    exact hs' rfl

/-- The process that calls `exit` runs at its first line. -/
theorem Inv.exitMsg_spec {st : Int} {msg : List UInt8} (hop : e.op = .exitMsg p st msg) :
    s.running c = .proc p ∧ s.stack (.proc p) = .exit (.entry st msg) :: rest ∧
      (s.mem.proc p).state = .running := by
  obtain ⟨f, hc, -, hspec⟩ := hp.opSpec hop (by simp)
  rw [hspec.2] at hc
  obtain ⟨hr, hstk⟩ := hi.running_of_proc hc (by simp [Frame.onSched]) hspec.1
  have ha := hi.active c p hr
  rw [hstk, Active.of_plain rfl] at ha
  exact ⟨hr, hstk, ha⟩

/-- The slot whose parent `fork` sets is under construction. -/
theorem Inv.setParent_used {np : Slot} (hop : e.op = .setParent p np) :
    (s.mem.proc np).state = .used := by
  obtain ⟨f, hc, -, hspec⟩ := hp.opSpec hop (by simp)
  obtain ⟨hme, -, pid, rfl⟩ := hspec
  obtain ⟨-, hstk⟩ := hi.running_of_proc hc (by simp [Frame.onSched]) hme
  exact (hi.fork p (.setParent np pid) (mem_of_eq_cons hstk)).1

omit hi in
/-- `wait` reaps a `ZOMBIE` child of the calling process. -/
theorem Planned.reap_spec {pp : Slot} {a a2 : Nat} (hop : e.op = .reap p pp a a2) :
    (s.mem.proc pp).parent = some p ∧ s.proc c = some p ∧ (s.mem.proc pp).state = .zombie := by
  obtain ⟨f, hc, -, hspec⟩ := hp.opSpec hop (by simp)
  exact ⟨hspec.2.1, hspec.1, hspec.2.2.1⟩

/-- `p->xstate` of a process that has exited does not change before it is freed. -/
theorem Inv.xstate_step {z : Slot} (hs : (s.mem.proc z).state = .zombie)
    (hs' : ((e.op.apply s.mem).proc z).state ≠ .unused) :
    ((e.op.apply s.mem).proc z).xstate = (s.mem.proc z).xstate := by
  by_cases ht : e.op.target = some z
  case neg => rw [e.op.apply_proc_of_ne s.mem ht]
  have hw := e.op.apply_proc_target s.mem ht
  rw [hw] at hs' ⊢
  cases hop : e.op with
  | free np | reap p pp a a2 => rw [hop] at hs'; exact absurd rfl hs'
  | zombie p st =>
    -- a process that stores `ZOMBIE` is `RUNNING`
    rw [hop] at ht
    cases ht
    obtain ⟨f, hc, -, hspec⟩ := hp.opSpec hop (by simp)
    rw [hspec.2] at hc
    obtain ⟨hr, hstk⟩ := hi.running_of_proc hc (by simp [Frame.onSched]) hspec.1
    have ha := hi.active c z hr
    rw [hstk, Active.of_plain rfl] at ha
    exact nomatch hs.symm.trans ha
  | _ => rfl

end

/-! ## The history after a step -/

namespace Lineage

variable {m : Mem} {h : Lineage} {op : Op} {k : Nat}

theorem record_exited (hk : ∀ p st msg, op = .exitMsg p st msg → h.birth p ≠ k) :
    (h.record m op).exited k = h.exited k := by
  cases op with
  | exitMsg p st msg => exact upd_of_ne (Ne.symm (hk p st msg rfl)) _
  | _ => rfl

/-- A recorded call of `exit` stays recorded. -/
theorem record_exited_isSome (hk : (h.exited k).isSome = true) :
    ((h.record m op).exited k).isSome = true := by
  cases op with
  | exitMsg p st msg =>
    show (upd h.exited _ _ k).isSome = true
    rw [upd_apply]
    split
    · rfl
    · exact hk
  | _ => exact hk

theorem record_forker (hk : ∀ p np, op = .setParent p np → h.birth np ≠ k) :
    (h.record m op).forker k = h.forker k := by
  cases op with
  | setParent p np => exact upd_of_ne (Ne.symm (hk p np rfl)) _
  | _ => rfl

theorem record_reaped (hop : ∀ p pp a a2, op ≠ .reap p pp a a2) :
    (h.record m op).reaped = h.reaped := by
  cases op with
  | reap p pp a a2 => exact absurd rfl (hop p pp a a2)
  | _ => rfl

theorem clock_le_record (m : Mem) (h : Lineage) (op : Op) : h.clock ≤ (h.record m op).clock := by
  cases op with
  | alloc np => exact Nat.le_succ _
  | _ => exact Nat.le_refl _

end Lineage

/-! ## Preservation -/

section

variable {s : State n} {h : Lineage} {c : Fin n} {i : Input} {rest : List Frame} {e : Effect}
variable (hi : Inv s) (hf : Family s h) (hr : Records s h) (hp : Planned s c i rest e)
include hi hr hp

/-- The records of a process that is not at the first line of `exit` do not change. -/
theorem Records.exited_keep {z : Slot} (hz : (s.mem.proc z).state ≠ .unused)
    (hne : ∀ st msg, s.running c = .proc z → s.stack (.proc z) ≠ .exit (.entry st msg) :: rest) :
    (h.record s.mem e.op).exited (h.birth z) = h.exited (h.birth z) := by
  refine Lineage.record_exited fun p st msg hop heq => ?_
  obtain ⟨hrun, hstk, hstate⟩ := hi.exitMsg_spec hp hop
  obtain rfl : p = z := hr.inj p z (by simp [hstate]) hz heq
  exact hne st msg hrun hstk

include hf in
theorem Records.inj_next (a b : Slot) (ha : ((e.op.apply s.mem).proc a).state ≠ .unused)
    (hb : ((e.op.apply s.mem).proc b).state ≠ .unused)
    (hab : (h.record s.mem e.op).birth a = (h.record s.mem e.op).birth b) : a = b := by
  have hclock : ∀ x y, e.op = .alloc x → (s.mem.proc y).state ≠ .unused →
      (h.record s.mem e.op).birth y < (h.record s.mem e.op).birth x := by
    intro x y hop hy
    have := hf.clock y
    rw [hi.birth_next hp hy, hop, Lineage.record_birth_alloc, upd_self]
    omega
  rcases hi.used_step hp ha with ha | hopa
  · rcases hi.used_step hp hb with hb | hopb
    · rw [hi.birth_next hp ha, hi.birth_next hp hb] at hab
      exact hr.inj a b ha hb hab
    · have := hclock b a hopb ha
      omega
  · rcases hi.used_step hp hb with hb | hopb
    · have := hclock a b hopa hb
      omega
    · exact Op.alloc.inj (hopa.symm.trans hopb)

theorem Records.unusedParent_next (z : Slot) (hz : ((e.op.apply s.mem).proc z).state = .unused) :
    ((e.op.apply s.mem).proc z).parent = none := by
  cases hpar : ((e.op.apply s.mem).proc z).parent with
  | none => rfl
  | some q =>
    have hold : (s.mem.proc z).state = .unused := by
      by_cases ht : e.op.target = some z
      · rw [e.op.apply_proc_target s.mem ht] at hz hpar
        rcases Op.write_unused hz with ⟨np, hop⟩ | ⟨p, pp, a, a2, hop⟩ | hs
        · rw [hop] at hpar
          cases hpar
        · rw [hop] at hpar
          cases hpar
        · exact hs
      · rwa [e.op.apply_proc_of_ne s.mem ht] at hz
    have hnone := hr.unusedParent z hold
    rcases hp.parent_cases hpar with hop | ⟨p, hop, -⟩ | ⟨hq, -, -⟩
    · exact nomatch hold.symm.trans (hi.setParent_used hp hop)
    · obtain ⟨f, hc, -, hspec⟩ := hp.opSpec hop (by simp)
      exact nomatch hnone.symm.trans hspec.2.1
    · exact nomatch hnone.symm.trans hq

/-- The frames of `exit` of a process that is not at its first line. -/
theorem Records.exiting_next (p : Slot) (pc : ExitPc) (st : Int)
    (hm : .exit pc ∈ (s.commit c rest e).stack (.proc p)) (hst : pc.status = some st)
    (hi' : Inv (s.commit c rest e)) :
    (h.record s.mem e.op).exited ((h.record s.mem e.op).birth p) =
      some (((e.op.apply s.mem).proc p).pid, st) := by
  have hlive' : ((e.op.apply s.mem).proc p).state.live = true := hi'.exit_live hm hst
  have hused' : ((e.op.apply s.mem).proc p).state ≠ .unused := by
    intro hs
    rw [hs] at hlive'
    cases hlive'
  rcases hp.mem_stack (by simp) hm with ⟨hold, hrest⟩ | ⟨hrun, hnew⟩
  · have hlive := hi.exit_live hold hst
    have hused : (s.mem.proc p).state ≠ .unused := by
      intro hs
      rw [hs] at hlive
      cases hlive
    rw [hi.birth_next hp hused, hi.pid_step hp hused hused', hr.exited_keep hi hp hused]
    · exact hr.exiting p pc st hold hst
    · intro st' msg hrun hstk
      have hnest := hi.nested (.proc p)
      rw [hstk] at hnest
      exact hnest.not_mem_rest rfl rfl (hrest hrun)
  · rcases hi.exit_new hp hrun hnew with ⟨st', msg, rfl⟩ | ⟨pc', hstk, hnext⟩
    · cases hst
    have hmem : Frame.exit pc' ∈ s.stack (.proc p) := mem_of_eq_cons hstk
    have hused : (s.mem.proc p).state ≠ .unused := (hi.active c p hrun).created.1
    rw [hi.birth_next hp hused, hi.pid_step hp hused hused']
    rcases hnext.status hst with ⟨hst', hop⟩ | ⟨msg, -, hop⟩
    · rw [Lineage.record_exited fun q st' msg hq => absurd hq (hop q st' msg)]
      exact hr.exiting p pc' st hmem hst'
    · -- the call is recorded in this step
      rw [hop]
      exact upd_self ..

theorem Records.zombie_next (z : Slot) (hz : ((e.op.apply s.mem).proc z).state = .zombie) :
    (h.record s.mem e.op).exited ((h.record s.mem e.op).birth z) =
      some (((e.op.apply s.mem).proc z).pid, ((e.op.apply s.mem).proc z).xstate) := by
  have hused' : ((e.op.apply s.mem).proc z).state ≠ .unused := by simp [hz]
  rcases hi.zombie_step hp hz with hold | ⟨st, hop, hrun, hstk⟩
  · -- nothing is written to a slot that stays `ZOMBIE` but its parent and its counters
    have hnr : s.running c ≠ .proc z ∨ ∃ r, s.stack (.proc z) = .exit .swtch :: r := by
      by_cases hrun : s.running c = .proc z
      · have ha := hi.active c z hrun
        unfold Active at ha
        split at ha
        · exact nomatch hold.symm.trans ha
        · exact nomatch hold.symm.trans ha.1
        · rename_i r hstk
          exact .inr ⟨r, hstk⟩
        · exact ha.elim
        · exact nomatch hold.symm.trans ha
      · exact .inl hrun
    have hused : (s.mem.proc z).state ≠ .unused := by simp [hold]
    rw [hi.birth_next hp hused, hi.pid_step hp hused hused', hr.exited_keep hi hp hused,
      hr.zombie z hold]
    · rw [hi.xstate_step hp hold hused']
    · intro st msg hrun hstk
      rcases hnr with hnr | ⟨r, hstk'⟩
      · exact hnr hrun
      · exact nomatch hstk.symm.trans hstk'
  · have hused := (hi.active c z hrun).created.1
    have hrec := hr.exiting z (.zombie st) st (mem_of_eq_cons hstk) rfl
    rw [hi.birth_next hp hused, hi.pid_step hp hused hused', hop, Op.apply_proc_target _ _ rfl]
    exact hrec

include hf in
theorem Records.parent_next (z q : Slot) (hz : ((e.op.apply s.mem).proc z).parent = some q) :
    (h.record s.mem e.op).birth q =
        (h.record s.mem e.op).forker ((h.record s.mem e.op).birth z) ∨
      (q = s.mem.initproc ∧ ((h.record s.mem e.op).exited
        ((h.record s.mem e.op).forker ((h.record s.mem e.op).birth z))).isSome = true) := by
  rcases hp.parent_cases hz with hop | ⟨p, hop, hq⟩ | ⟨hold, hset, -⟩
  · left
    rw [Lineage.record_birth (by simp [hop]), hop]
    exact (upd_self ..).symm
  · -- the forking parent is in `exit`, so its call is recorded
    right
    refine ⟨hq, ?_⟩
    obtain ⟨f, hc, -, hspec⟩ := hp.opSpec hop (by simp)
    obtain ⟨hme, hold, st, rfl⟩ := hspec
    obtain ⟨-, hstk⟩ := hi.running_of_proc hc (by simp [Frame.onSched]) hme
    have hmem : Frame.exit (.reparent st z) ∈ s.stack (.proc p) := mem_of_eq_cons hstk
    have hexit := hr.exiting p (.reparent st z) st hmem rfl
    rw [Lineage.record_birth (by simp [hop]), Lineage.record_forker (by simp [hop])]
    refine Lineage.record_exited_isSome ?_
    rcases hr.parent z p hold with hfork | ⟨-, hsome⟩
    · rw [← hfork, hexit]
      rfl
    · exact hsome
  · have hused : (s.mem.proc z).state ≠ .unused := fun hs =>
      nomatch (hr.unusedParent z hs).symm.trans hold
    have hforker : (h.record s.mem e.op).forker (h.birth z) = h.forker (h.birth z) := by
      refine Lineage.record_forker fun p np hop heq => ?_
      have := hi.setParent_used hp hop
      obtain rfl : np = z := hr.inj np z (by simp [this]) hused heq
      exact hset p hop
    rw [hi.birth_next hp (hf.parent_created hold), hi.birth_next hp hused, hforker]
    rcases hr.parent z q hold with hfork | ⟨hq, hsome⟩
    · exact .inl hfork
    · exact .inr ⟨hq, Lineage.record_exited_isSome hsome⟩

include hf in
/-- A process that has been reaped does not come back. -/
theorem Records.gone_next (r : Reaped) (hm : r ∈ (h.record s.mem e.op).reaped) :
    r.child ≤ (h.record s.mem e.op).clock ∧
      ∀ z, ((e.op.apply s.mem).proc z).state ≠ .unused →
        (h.record s.mem e.op).birth z ≠ r.child := by
  have hle := Lineage.clock_le_record s.mem h e.op
  have hold : r ∈ h.reaped → r.child ≤ (h.record s.mem e.op).clock ∧
      ∀ z, ((e.op.apply s.mem).proc z).state ≠ .unused →
        (h.record s.mem e.op).birth z ≠ r.child := by
    intro hm
    obtain ⟨hclock, hgone⟩ := hr.gone r hm
    refine ⟨by omega, fun z hz => ?_⟩
    rcases hi.used_step hp hz with hz | hop
    · rw [hi.birth_next hp hz]
      exact hgone z hz
    · rw [hop, Lineage.record_birth_alloc, upd_self]
      omega
  by_cases hop : ∃ p pp a a2, e.op = .reap p pp a a2
  · obtain ⟨p, pp, a, a2, hop⟩ := hop
    rw [hop] at hm
    rcases List.mem_cons.mp hm with rfl | hm
    · have hzombie := (hp.reap_spec hop).2.2
      rw [hop]
      refine ⟨hf.clock pp, fun z hz heq => ?_⟩
      have hne : z ≠ pp := by
        rintro rfl
        rw [Op.apply_proc_target _ _ rfl] at hz
        exact hz rfl
      rw [Op.apply_proc_other _ _ rfl hne] at hz
      exact hne (hr.inj z pp hz (by simp [hzombie]) heq)
    · exact hold hm
  · rw [Lineage.record_reaped fun p pp a a2 h => hop ⟨p, pp, a, a2, h⟩] at hm
    exact hold hm

include hf in
theorem Records.reaped_next (r : Reaped) (hm : r ∈ (h.record s.mem e.op).reaped) :
    (h.record s.mem e.op).exited r.child = some (r.pid, r.status) ∧
      (r.waiter = (h.record s.mem e.op).forker r.child ∨ (r.waiter = 0 ∧ r.orphan = true)) := by
  have hold : r ∈ h.reaped → (h.record s.mem e.op).exited r.child = some (r.pid, r.status) ∧
      (r.waiter = (h.record s.mem e.op).forker r.child ∨
        (r.waiter = 0 ∧ r.orphan = true)) := by
    intro hm
    obtain ⟨-, hgone⟩ := hr.gone r hm
    rw [Lineage.record_exited, Lineage.record_forker]
    · exact hr.reaped r hm
    · intro p np hop
      exact hgone np (by simp [hi.setParent_used hp hop])
    · intro p st msg hop
      exact hgone p (by simp [(hi.exitMsg_spec hp hop).2.2])
  by_cases hop : ∃ p pp a a2, e.op = .reap p pp a a2
  · obtain ⟨p, pp, a, a2, hop⟩ := hop
    rw [hop] at hm
    rcases List.mem_cons.mp hm with rfl | hm
    · -- the status is the one of the call of `exit`, the waiter is the parent
      have hzombie := (hp.reap_spec hop).2.2
      rw [hop]
      refine ⟨hr.zombie pp hzombie, ?_⟩
      rcases hr.parent pp p (hp.reap_spec hop).1 with hfork | ⟨hinit, hsome⟩
      · exact .inl hfork
      · refine .inr ⟨?_, hsome⟩
        show h.birth p = 0
        rw [hinit]
        exact hf.initBirth
    · exact hold hm
  · rw [Lineage.record_reaped fun p pp a a2 h => hop ⟨p, pp, a, a2, h⟩] at hm
    exact hold hm

omit hi in
theorem Records.nodup_next : ((h.record s.mem e.op).reaped.map Reaped.child).Nodup := by
  by_cases hop : ∃ p pp a a2, e.op = .reap p pp a a2
  · obtain ⟨p, pp, a, a2, hop⟩ := hop
    have hzombie := (hp.reap_spec hop).2.2
    rw [hop]
    refine List.nodup_cons.mpr ⟨?_, hr.nodup⟩
    intro hm
    obtain ⟨r, hm, heq⟩ := List.mem_map.mp hm
    exact (hr.gone r hm).2 pp (by simp [hzombie]) heq.symm
  · rw [Lineage.record_reaped fun p pp a a2 h => hop ⟨p, pp, a, a2, h⟩]
    exact hr.nodup

end

/-! ## Runs -/

theorem records_boot (b : Boot) : Records (State.boot n b) Lineage.start := by
  have hstate : ∀ z : Slot, ((State.boot n b).mem.proc z).state =
      if z = 0 then .runnable else .unused := by
    intro z
    by_cases hz : z = 0
    · simp [State.boot, userinit, hz]
    · simp [State.boot, userinit, procinit, Op.apply, Op.target, Proc.zero, hz]
  have hzero : ∀ z : Slot, ((State.boot n b).mem.proc z).state ≠ .unused → z = 0 := by
    intro z hz
    by_cases h0 : z = 0
    · exact h0
    · rw [hstate, if_neg h0] at hz
      exact absurd rfl hz
  constructor
  · intro x y hx hy _
    rw [hzero x hx, hzero y hy]
  · intro z _
    exact boot_parent b z
  · intro p pc st hm
    by_cases hp : p = 0 <;> simp [State.boot, hp] at hm
  · intro z hz
    rw [hstate] at hz
    split at hz <;> cases hz
  · intro z q hz
    cases (boot_parent b z).symm.trans hz
  · intro r hm
    cases hm
  · intro r hm
    cases hm
  · exact List.nodup_nil

theorem Records.step {s s' : State n} {h : Lineage} {x : Fin n × Input} (hi : Inv s)
    (hf : Family s h) (hr : Records s h) (hs : s.step x = some s') :
    Records s' (h.record s.mem (s.op x)) := by
  have hi' := hi.step hs
  obtain ⟨rest, e, hp, -, hop, rfl⟩ := hi.step_commit hs
  rw [hop]
  exact
    { inj := hr.inj_next hi hf hp
      unusedParent := hr.unusedParent_next hi hp
      exiting := fun p pc st hm hst => hr.exiting_next hi hp p pc st hm hst hi'
      zombie := hr.zombie_next hi hp
      parent := hr.parent_next hi hf hp
      gone := hr.gone_next hi hf hp
      reaped := hr.reaped_next hi hf hp
      nodup := hr.nodup_next hp }

theorem records_reachable {x : State n × Lineage} (hr : (lineage n).Reachable x) :
    Records x.1 x.2 := by
  refine ReachableBy.induct (P := fun x => Records x.1 x.2) ?_ ?_ hr
  · rintro ⟨s, h⟩ ⟨⟨b, rfl⟩, rfl⟩
    exact records_boot b
  · intro x i y hx hrec _ hs
    obtain ⟨hs, hy⟩ := observe_step.mp hs
    rw [hy]
    exact hrec.step (inv_reachable (reachable_of_observe hx)) (family_reachable hx) hs

/-- In every run no process is reaped twice; a call of `wait` that returns a child returns the
    pid and delivers the status of that child's call of `exit`, and it is made by the process
    that forked the child, or by the first process after the forking process has called
    `exit`; the child is at that moment a `ZOMBIE` whose parent is the caller. Whenever
    `wait_lock` and all `p->lock`s are free, no process sleeps in `wait` with a `ZOMBIE`
    child. -/
theorem reaped_once_by_parent {x : State n × Lineage} (hr : (lineage n).Reachable x) :
    (x.2.reaped.map Reaped.child).Nodup ∧
    (∀ r ∈ x.2.reaped, x.2.exited r.child = some (r.pid, r.status) ∧
      (r.waiter = x.2.forker r.child ∨
        (r.waiter = x.2.birth x.1.mem.initproc ∧ r.orphan = true))) ∧
    (∀ i s' p z addr addr2, (kernel n).step x.1 i = some s' →
      x.1.op i = .reap p z addr addr2 →
      x.1.proc i.1 = some p ∧ (x.1.mem.proc z).parent = some p ∧
        (x.1.mem.proc z).state = .zombie) ∧
    (x.1.lock .wait = none → (∀ p, x.1.lock (.proc p) = none) →
      ∀ q z, (x.1.mem.proc q).state = .sleeping → (x.1.mem.proc q).chan = some (.proc q) →
        (x.1.mem.proc z).parent = some q → (x.1.mem.proc z).state ≠ .zombie) := by
  have hi := inv_reachable (reachable_of_observe hr)
  have hf := family_reachable hr
  have hrec := records_reachable hr
  refine ⟨hrec.nodup, ?_, ?_, ?_⟩
  · rw [hf.initBirth]
    exact hrec.reaped
  · intro i s' p z addr addr2 hs hop
    obtain ⟨rest, e, hp, -, hope, -⟩ := hi.step_commit hs
    obtain ⟨hpar, hme, hz⟩ := hp.reap_spec (hope.symm.trans hop)
    exact ⟨hme, hpar, hz⟩
  · intro hl _ q z hq hch hpar hz
    exact (noLost_reachable hr).no_sleeper hi hl ⟨hq, hch⟩ ⟨hpar, hz⟩

/-- Hart 1 dispatches the child of `forkRun`, which calls `exit(st, msg)` with no open file. -/
def exitRun (st : Int) (msg : List UInt8) : List (Fin 2 × Input) :=
  List.replicate 7 (1, .run) ++ [(1, .syscall (.exit st msg ⟨List.replicate 32 0, length_zeroBytes⟩))] ++
    List.replicate 156 (1, .run)

/-- The first process returns from `fork` and calls `wait`. -/
def waitRun (addr addr2 : Nat) : List (Fin 2 × Input) :=
  List.replicate 2 (0, .run) ++ [(0, .syscall (.wait addr addr2))] ++ List.replicate 4 (0, .run)

/-- The first process returns from a system call and forks into slot 1. -/
def forkAgainRun : List (Fin 2 × Input) :=
  List.replicate 2 (0, .run) ++ [(0, .syscall .fork)] ++ List.replicate 4 (0, .run) ++
    [(0, .page 5), (0, .page 5)] ++ List.replicate 4 (0, .run)

/-- The child exits with status 7 and is reaped by the first process, which forked it. -/
theorem reaped_once_by_parent_child : ∃ x : State 2 × Lineage,
    (lineage 2).run (State.boot 2 ⟨1, 2, 3, 0⟩, Lineage.start)
        (forkRun ++ exitRun 7 [104, 105, 0] ++ waitRun 4096 8192) = some x ∧
      x.2.reaped.map (fun r => (r.child, r.waiter, r.pid, r.status)) = [(1, 0, 2, 7)] ∧
      (x.2.reaped.map Reaped.child).Nodup ∧
      ∀ r ∈ x.2.reaped, x.2.exited r.child = some (r.pid, r.status) := by
  have hrun : ((lineage 2).run (State.boot 2 ⟨1, 2, 3, 0⟩, Lineage.start)
      (forkRun ++ exitRun 7 [104, 105, 0] ++ waitRun 4096 8192)).map
      (fun x => x.2.reaped.map fun r => (r.child, r.waiter, r.pid, r.status)) =
      some [(1, 0, 2, 7)] := by decide +kernel
  obtain ⟨x, hx, hreaped⟩ := Option.map_eq_some_iff.mp hrun
  have hr : (lineage 2).Reachable x := reachable_run (.init ⟨⟨_, rfl⟩, rfl⟩) hx
  obtain ⟨hnodup, hrec, -⟩ := reaped_once_by_parent hr
  exact ⟨x, hx, hreaped, hnodup, fun r hm => (hrec r hm).1⟩

end Xv6
