import Xv6.Spec.ExitSpec
import Xv6.ForStd.Forest

/-!
# Parents

Parents are raw pointers into a table whose slots are recycled. `Lineage` is a history
variable that numbers the processes in the order in which `allocproc` creates them, so
that a process can be told apart from a later one in the same slot. `Family` is the
invariant about parent pointers: a parent is alive, older than its child, and the process
it was when the pointer was stored. `parents_lead_to_init` is the result.
-/

namespace Xv6

open TransitionSystem Relation

variable {n : Nat}

/-! ## History -/

/-- A call of `wait` that returned a child. -/
structure Reaped where
  child : Nat
  waiter : Nat
  pid : Int
  status : Int
  /-- the process that forked the child had called `exit` before -/
  orphan : Bool

/-- What has happened so far. Processes are named by their creation number. -/
structure Lineage where
  /-- the number of processes that `fork` has created -/
  clock : Nat
  /-- the process in a slot, or the last one that was there -/
  birth : Slot → Nat
  /-- the process that `p->parent` pointed to when it was stored -/
  parentBirth : Slot → Nat
  /-- the process that called `fork` -/
  forker : Nat → Nat
  /-- the pid and the argument of the call of `exit` -/
  exited : Nat → Option (Int × Int)
  reaped : List Reaped

/-- The first process has number 0. -/
def Lineage.start : Lineage where
  clock := 0
  birth _ := 0
  parentBirth _ := 0
  forker _ := 0
  exited _ := none
  reaped := []

/-- What an operation adds to the history. -/
def Lineage.record (m : Mem) (h : Lineage) : Op → Lineage
  | .alloc np => { h with clock := h.clock + 1, birth := upd h.birth np (h.clock + 1) }
  | .setParent p np =>
    { h with
      parentBirth := upd h.parentBirth np (h.birth p)
      forker := upd h.forker (h.birth np) (h.birth p) }
  | .reparent _ pp => { h with parentBirth := upd h.parentBirth pp (h.birth m.initproc) }
  | .exitMsg p st _ => { h with exited := upd h.exited (h.birth p) (some ((m.proc p).pid, st)) }
  | .reap p pp _ _ =>
    { h with
      reaped :=
        { child := h.birth pp
          waiter := h.birth p
          pid := (m.proc pp).pid
          status := (m.proc pp).xstate
          orphan := (h.exited (h.forker (h.birth pp))).isSome } :: h.reaped }
  | _ => h

/-- The kernel together with its history. -/
def lineage (n : Nat) : TransitionSystem (State n × Lineage) (Fin n × Input) :=
  (kernel n).observe Lineage.start fun s x h => h.record s.mem (s.op x)

/-! ## The invariant -/

/-- The process has been started and has not exited. -/
def ProcState.live : ProcState → Bool
  | runnable | running | sleeping => true
  | unused | used | zombie => false

/-- The process has been started and its slot has not been freed. -/
def ProcState.started : ProcState → Bool
  | runnable | running | sleeping | zombie => true
  | unused | used => false

/-- How far `reparent` has come in `exit` of `p`. -/
def ExitOk (m : Mem) (p : Slot) : ExitPc → Prop
  | .reparent _ i => ∀ j : Slot, j.val < i → (m.proc j).parent ≠ some p
  | .reparentWake _ i _ => ∀ j : Slot, j.val ≤ i → (m.proc j).parent ≠ some p
  | .wakeParent _ _ _ | .lock _ | .zombie _ => ∀ j, (m.proc j).parent ≠ some p
  | _ => True

/-- Parent pointers and creation numbers in a reachable state. -/
structure Family (s : State n) (h : Lineage) : Prop where
  live : ∀ z q, (s.mem.proc z).parent = some q → (s.mem.proc q).state.live = true
  initLive : (s.mem.proc s.mem.initproc).state.live = true
  parented : ∀ z, z ≠ s.mem.initproc → (s.mem.proc z).state.started = true →
    ∃ q, (s.mem.proc z).parent = some q
  initExit : ∀ pc, .exit pc ∈ s.stack (.proc s.mem.initproc) → ∃ st msg, pc = .entry st msg
  exitOk : ∀ p pc, .exit pc ∈ s.stack (.proc p) → ExitOk s.mem p pc
  clock : ∀ z, h.birth z ≤ h.clock
  initBirth : h.birth s.mem.initproc = 0
  older : ∀ z q, (s.mem.proc z).parent = some q → h.birth q < h.birth z
  same : ∀ z q, (s.mem.proc z).parent = some q → h.parentBirth z = h.birth q
  forkOlder : ∀ p pc np, .fork pc ∈ s.stack (.proc p) → pc.forking = some np →
    pc ≠ .found np → h.birth p < h.birth np

/-! ## Liveness of a slot -/

variable {q z p : Slot}

section

variable {s : State n} {c : Fin n} {i : Input} {rest : List Frame} {e : Effect}
variable (hi : Inv s) (hp : Planned s c i rest e)
include hi hp

/-- A process stops being alive only by storing `ZOMBIE`. -/
theorem Inv.live_step (hq : (s.mem.proc q).state.live = true) :
    ((e.op.apply s.mem).proc q).state.live = true ∨
      ∃ st, e.op = .zombie q st ∧ s.running c = .proc q ∧
        s.stack (.proc q) = .exit (.zombie st) :: rest := by
  rcases hp.touch q with ⟨hs, -⟩ | ⟨f, hc, he, ht⟩
  · exact .inl (hs ▸ hq)
  · cases ht with
    | keep hs hch => exact .inl (hs ▸ hq)
    | own hme hf hs =>
      have hspec := effect_opSpec he
      rcases hs with hpk | hs
      · cases hop : e.op with
        | yield p | sleep p ch =>
          rw [hop] at hspec
          obtain rfl : q = p := Option.some.inj (hme.symm.trans hspec.1)
          rw [Op.apply_proc_target _ _ rfl]
          exact .inl rfl
        | zombie p st =>
          rw [hop] at hspec
          obtain rfl : q = p := Option.some.inj (hme.symm.trans hspec.1)
          rw [hspec.2] at hc
          exact .inr ⟨st, rfl, hi.running_of_proc hc (by simp [Frame.onSched]) hme⟩
        | _ => rw [hop] at hpk; cases hpk
      · rw [hs, Op.apply_proc_target _ _ rfl]
        exact .inl hq
    | fork pc hf hpc hs =>
      rw [hf] at hc
      obtain ⟨p, -, -, hstk⟩ := hi.exec_fork hc
      have hok := hi.fork p pc (mem_of_eq_cons hstk)
      rcases hok.state hpc with hs | hs <;> simp [hs, ProcState.live] at hq
    | dispatch hop hs hacq =>
      rw [hop, Op.apply_proc_target _ _ rfl]
      exact .inl rfl
    | wake hv hs hs' => exact .inl (by rw [hs']; rfl)
    | reap hv hs hs' => simp [hs, ProcState.live] at hq

/-- A process is started by the last step of `fork`. -/
theorem Inv.started_step (hz : ((e.op.apply s.mem).proc z).state.started = true) :
    (s.mem.proc z).state.started = true ∨ ∃ parent, e.op = .setRunnable parent z := by
  rcases hp.touch z with ⟨hs, -⟩ | ⟨f, hc, he, ht⟩
  · exact .inl (hs ▸ hz)
  · cases ht with
    | keep hs hch => exact .inl (hs ▸ hz)
    | own hme hf hs =>
      obtain ⟨hr, hstk⟩ := hi.running_of_proc hc hf hme
      have hcr := (hi.active c z hr).created
      left
      cases hst : (s.mem.proc z).state <;> simp_all [ProcState.started]
    | fork pc hf hpc hs =>
      rcases hs with ⟨hs, -⟩ | hs | ⟨-, -, hop⟩
      · simp [hs, ProcState.started] at hz
      · simp [hs, ProcState.started] at hz
      · exact .inr hop
    | dispatch hop hs hacq | wake hv hs hs' | reap hv hs hs' => exact .inl (by rw [hs]; rfl)

end

/-! ## Preservation -/

section

variable {s : State n} {h : Lineage} {c : Fin n} {i : Input} {rest : List Frame} {e : Effect}

theorem Planned.parentTouch (hp : Planned s c i rest e) (q : Slot) :
    ((e.op.apply s.mem).proc q).parent = (s.mem.proc q).parent ∨
      ∃ f, s.cur c = f :: rest ∧ f.effect s.mem (s.proc c) i = some e ∧
        ParentTouch s.mem (s.proc c) f e q := by
  by_cases hop : e.op = .skip
  · rw [hop]
    exact .inl rfl
  · obtain ⟨f, hc, he⟩ := hp.exec_of_op hop
    exact .inr ⟨f, hc, he, (effect_opSpec he).parentTouch q⟩

variable (hi : Inv s) (hf : Family s h) (hp : Planned s c i rest e)
include hi hf hp

/-- A process with children does not exit: `reparent` has given them away. -/
theorem Family.parent_live (hz : (s.mem.proc z).parent = some q) :
    ((e.op.apply s.mem).proc q).state.live = true := by
  rcases hi.live_step hp (hf.live z q hz) with hl | ⟨st, -, -, hstk⟩
  · exact hl
  · have hok := hf.exitOk q (.zombie st) (mem_of_eq_cons hstk)
    exact absurd hz (hok z)

/-- The first process does not exit: `exit` panics. -/
theorem Family.init_live : ((e.op.apply s.mem).proc s.mem.initproc).state.live = true := by
  rcases hi.live_step hp hf.initLive with hl | ⟨st, -, -, hstk⟩
  · exact hl
  · obtain ⟨st', msg, hpc⟩ := hf.initExit (.zombie st) (mem_of_eq_cons hstk)
    cases hpc

omit hf hp in
/-- The process that executes a step of `fork` is alive. -/
theorem Inv.forker_live {pc : ForkPc} (hc : s.cur c = .fork pc :: rest) (hme : s.proc c = some p) :
    (s.mem.proc p).state = .running := by
  obtain ⟨hr, hstk⟩ := hi.running_of_proc hc (by simp [Frame.onSched]) hme
  have ha := hi.active c p hr
  rw [hstk] at ha
  exact (Active.of_plain rfl).mp ha

theorem Family.live_next (z q : Slot) (hz : ((e.op.apply s.mem).proc z).parent = some q) :
    ((e.op.apply s.mem).proc q).state.live = true := by
  rcases hp.parentTouch z with hk | ⟨f, hc, he, ht⟩
  · exact hf.parent_live hi hp (hk ▸ hz)
  · cases ht with
    | keep hk => exact hf.parent_live hi hp (hk ▸ hz)
    | setParent p pid hme hop hf' hv hpar =>
      obtain rfl : p = q := Option.some.inj (hpar.symm.trans hz)
      have hrun := hi.forker_live (hf' ▸ hc) hme
      rcases hi.live_step hp (q := p) (by rw [hrun]; rfl) with hl | ⟨st, hop', -⟩
      · exact hl
      · exact nomatch hop.symm.trans hop'
    | free pc hf' hpc hop hpar | reap p hme hold hs hs' hpar => exact nomatch hpar.symm.trans hz
    | reparent p st hme hold hf' hop hpar =>
      obtain rfl : s.mem.initproc = q := Option.some.inj (hpar.symm.trans hz)
      exact hf.init_live hi hp

theorem Family.parented_next (z : Slot) (hne : z ≠ s.mem.initproc)
    (hz : ((e.op.apply s.mem).proc z).state.started = true) :
    ∃ q, ((e.op.apply s.mem).proc z).parent = some q := by
  rcases hi.started_step hp hz with hst | ⟨parent, hop⟩
  · obtain ⟨q, hq⟩ := hf.parented z hne hst
    rcases hp.parentTouch z with hk | ⟨f, hc, he, ht⟩
    · exact ⟨q, hk.trans hq⟩
    · cases ht with
      | keep hk => exact ⟨q, hk.trans hq⟩
      | setParent p pid hme hop hf' hv hpar => exact ⟨p, hpar⟩
      | free pc hf' hpc hop hpar =>
        rw [hf'] at hc
        obtain ⟨p, -, -, hstk⟩ := hi.exec_fork hc
        have hok := hi.fork p pc (mem_of_eq_cons hstk)
        rcases hok.state hpc with hs | hs <;> simp [hs, ProcState.started] at hst
      | reparent p st hme hold hf' hop hpar => exact ⟨_, hpar⟩
      | reap p hme hold hs hs' hpar => simp [hs', ProcState.started] at hz
  · obtain ⟨f, hc, -, hspec⟩ := hp.opSpec hop (by simp)
    refine ⟨parent, ?_⟩
    rw [hop, Op.apply_proc_target _ _ rfl]
    exact hspec.1

theorem Family.initExit_next (pc : ExitPc)
    (hm : .exit pc ∈ (s.commit c rest e).stack (.proc s.mem.initproc)) :
    ∃ st msg, pc = .entry st msg := by
  rcases hp.mem_stack (by simp) hm with ⟨hold, -⟩ | ⟨hr, hnew⟩
  · exact hf.initExit pc hold
  · rcases hi.exit_new hp hr hnew with hentry | ⟨pc', hstk, hnext⟩
    · exact hentry
    · obtain ⟨st, msg, rfl⟩ := hf.initExit pc' (mem_of_eq_cons hstk)
      generalize e.op = op at hnext
      cases hnext with
      | entry _ _ hinit => exact absurd rfl hinit

omit hf in
/-- The children of a process in `exit` are the ones it had before the step. -/
theorem Inv.child_before {j : Slot} {pc : ExitPc} (hm : .exit pc ∈ s.stack (.proc p))
    (hinit : p ≠ s.mem.initproc) (hj : ((e.op.apply s.mem).proc j).parent = some p) :
    (s.mem.proc j).parent = some p := by
  rcases hp.parentTouch j with hk | ⟨f, hc, he, ht⟩
  · exact hk ▸ hj
  · cases ht with
    | keep hk => exact hk ▸ hj
    | setParent q pid hme hop hf' hv hpar =>
      -- `p` would have to be in `fork` and in `exit` at once
      obtain rfl : q = p := Option.some.inj (hpar.symm.trans hj)
      rw [hf'] at hc
      obtain ⟨hr, hstk⟩ := hi.running_of_proc hc (by simp [Frame.onSched]) hme
      have hnest := hi.nested (.proc q)
      rw [hstk] at hnest hm
      rcases List.mem_cons.mp hm with hm | hm
      · cases hm
      · exact absurd hm (hnest.not_mem_rest rfl rfl)
    | free pc hf' hpc hop hpar | reap q hme hold hs hs' hpar => exact nomatch hpar.symm.trans hj
    | reparent q st hme hold hf' hop hpar =>
      exact absurd (Option.some.inj (hpar.symm.trans hj)).symm hinit

omit hi hp in
/-- `exit` has passed its first line, so this is not the first process. -/
theorem Family.ne_init {pc : ExitPc} (hm : .exit pc ∈ s.stack (.proc p))
    (hpc : ∀ st msg, pc ≠ .entry st msg) : p ≠ s.mem.initproc := by
  rintro rfl
  obtain ⟨st, msg, h⟩ := hf.initExit pc hm
  exact hpc st msg h

omit hi hf hp in
/-- What `exit` knows about its children is a statement about the slots that are not its
    children any more. -/
theorem ExitOk.mono {m m' : Mem} {pc : ExitPc} (hok : ExitOk m p pc)
    (hsub : ∀ j, (m'.proc j).parent = some p → (m.proc j).parent = some p) : ExitOk m' p pc := by
  cases pc with
  | reparent st i | reparentWake st i k => exact fun j hj hpar => hok j hj (hsub j hpar)
  | wakeParent st ch k | lock st | zombie st => exact fun j hpar => hok j (hsub j hpar)
  | _ => trivial

theorem Family.exitOk_next (p : Slot) (pc : ExitPc)
    (hm : .exit pc ∈ (s.commit c rest e).stack (.proc p)) : ExitOk (e.op.apply s.mem) p pc := by
  rcases hp.mem_stack (by simp) hm with ⟨hold, -⟩ | ⟨hr, hnew⟩
  · by_cases hentry : ∃ st msg, pc = .entry st msg
    · obtain ⟨st, msg, rfl⟩ := hentry
      trivial
    · have hinit := hf.ne_init hold fun st msg h => hentry ⟨st, msg, h⟩
      exact (hf.exitOk p pc hold).mono fun j => hi.child_before hp hold hinit
  · rcases hi.exit_new hp hr hnew with ⟨st, msg, rfl⟩ | ⟨pc', hstk, hnext⟩
    · trivial
    · have hmem : Frame.exit pc' ∈ s.stack (.proc p) := mem_of_eq_cons hstk
      have hok := hf.exitOk p pc' hmem
      by_cases hentry : ∃ st msg, pc' = .entry st msg
      · obtain ⟨st, msg, rfl⟩ := hentry
        generalize e.op = op at hnext
        cases hnext
        trivial
      have hinit := hf.ne_init hmem fun st msg h => hentry ⟨st, msg, h⟩
      -- no slot becomes a child of `p` in this step
      have hsub : ∀ j, ((e.op.apply s.mem).proc j).parent = some p →
          (s.mem.proc j).parent = some p := fun j => hi.child_before hp hmem hinit
      clear hnew hm
      revert hnext hsub
      generalize e.op = op
      intro hnext hsub
      cases hnext with
      | entry | close | next | iput | closed | cwd | swtch | dead => trivial
      | reparent st => exact fun j hj => absurd hj (Nat.not_lt_zero _)
      | child st pp hpar =>
        intro j hj hpar'
        rcases Nat.lt_or_eq_of_le hj with hlt | heq
        · exact hok j hlt (hsub j hpar')
        · obtain rfl : j = pp := Fin.ext heq
          rw [Op.apply_proc_target _ _ rfl] at hpar'
          exact hinit (Option.some.inj hpar').symm
      | other st pp hpar =>
        intro j hj hpar'
        rcases Nat.lt_or_eq_of_le (Nat.le_of_lt_succ hj) with hlt | heq
        · exact hok j hlt hpar'
        · obtain rfl : j = pp := Fin.ext heq
          exact hpar hpar'
      | wakeInit st k q => exact fun j hj hpar' => hok j hj (hsub j hpar')
      | resume st k l hl => exact fun j hj hpar' => hok j (Nat.le_of_lt_succ hj) hpar'
      | wakeParent st k hk =>
        intro j hpar'
        have := j.isLt
        exact hok j (by omega) hpar'
      | wake st ch q => exact fun j hpar' => hok j (hsub j hpar')
      | lock st ch l hl | zombie st => exact fun j hpar' => hok j hpar'

end

/-! ## Creation numbers -/

theorem Lineage.record_birth_alloc (m : Mem) (h : Lineage) (np : Slot) :
    (h.record m (.alloc np)).birth = upd h.birth np (h.clock + 1) := rfl

theorem Lineage.record_birth {m : Mem} {h : Lineage} {op : Op} (hop : ∀ np, op ≠ .alloc np) :
    (h.record m op).birth = h.birth := by
  cases op with
  | alloc np => exact absurd rfl (hop np)
  | _ => rfl

theorem Lineage.record_parentBirth {m : Mem} {h : Lineage} {op : Op}
    (hset : ∀ p, op ≠ .setParent p z) (hrep : ∀ p, op ≠ .reparent p z) :
    (h.record m op).parentBirth z = h.parentBirth z := by
  cases op with
  | setParent p np =>
    have hz : z ≠ np := fun hz => hset p (by rw [hz])
    simp [Lineage.record, hz]
  | reparent p pp =>
    have hz : z ≠ pp := fun hz => hrep p (by rw [hz])
    simp [Lineage.record, hz]
  | _ => rfl

section

variable {s : State n} {h : Lineage} {c : Fin n} {i : Input} {rest : List Frame} {e : Effect}
variable (hi : Inv s) (hp : Planned s c i rest e)
include hi hp

/-- `allocproc` takes a free slot. -/
theorem Inv.alloc_unused {np : Slot} (hop : e.op = .alloc np) :
    (s.mem.proc np).state = .unused := by
  obtain ⟨f, hc, -, hspec⟩ := hp.opSpec hop (by simp)
  obtain rfl : f = .fork (.found np) := hspec
  obtain ⟨p, -, -, hstk⟩ := hi.exec_fork hc
  exact hi.fork p (.found np) (mem_of_eq_cons hstk)

omit hp in
/-- A process with a frame of `fork` on its stack has been started. -/
theorem Inv.fork_created {pc : ForkPc} (hm : .fork pc ∈ s.stack (.proc p)) :
    (s.mem.proc p).state ≠ .unused := by
  intro hs
  by_cases hrun : ∃ d, s.running d = .proc p
  · obtain ⟨d, hd⟩ := hrun
    exact (hi.active d p hd).created.1 hs
  · have hsus := hi.suspended p fun d hd => hrun ⟨d, hd⟩
    have hnest := hi.nested (.proc p)
    rcases hsus.idle (.inl hs) with hstk | hstk | ⟨r, hstk⟩
    · rw [hstk] at hm
      cases hm
    · rw [hstk, List.mem_singleton] at hm
      cases hm
    · rw [hstk] at hm hnest
      rcases List.mem_cons.mp hm with hm | hm
      · cases hm
      · exact hnest.not_mem_rest rfl rfl hm

omit hi in
/-- Where a parent pointer comes from. -/
theorem Planned.parent_cases (hz : ((e.op.apply s.mem).proc z).parent = some q) :
    e.op = .setParent q z ∨ (∃ p, e.op = .reparent p z ∧ q = s.mem.initproc) ∨
      ((s.mem.proc z).parent = some q ∧ (∀ p, e.op ≠ .setParent p z) ∧
        ∀ p, e.op ≠ .reparent p z) := by
  by_cases hset : ∃ p, e.op = .setParent p z
  · obtain ⟨p, hop⟩ := hset
    rw [hop, Op.apply_proc_target _ _ rfl] at hz
    cases hz
    exact .inl hop
  by_cases hrep : ∃ p, e.op = .reparent p z
  · obtain ⟨p, hop⟩ := hrep
    rw [hop, Op.apply_proc_target _ _ rfl] at hz
    exact .inr (.inl ⟨p, hop, (Option.some.inj hz).symm⟩)
  refine .inr (.inr ⟨?_, fun p hop => hset ⟨p, hop⟩, fun p hop => hrep ⟨p, hop⟩⟩)
  rcases hp.parentTouch z with hk | ⟨f, hc, he, ht⟩
  · exact hk ▸ hz
  · cases ht with
    | keep hk => exact hk ▸ hz
    | setParent p pid hme hop hf hv hpar => exact absurd ⟨p, hop⟩ hset
    | free pc hf hpc hop hpar | reap p hme hold hs hs' hpar => exact nomatch hpar.symm.trans hz
    | reparent p st hme hold hf hop hpar => exact absurd ⟨p, hop⟩ hrep

variable (hf : Family s h)
include hf

omit hi hp in
theorem Family.clock_next (z : Slot) :
    (h.record s.mem e.op).birth z ≤ (h.record s.mem e.op).clock := by
  have hz := hf.clock z
  cases hop : e.op with
  | alloc np =>
    show upd h.birth np (h.clock + 1) z ≤ h.clock + 1
    rw [upd_apply]
    split <;> omega
  | _ => exact hz

theorem Family.initBirth_next : (h.record s.mem e.op).birth s.mem.initproc = 0 := by
  by_cases hop : ∃ np, e.op = .alloc np
  · obtain ⟨np, hop⟩ := hop
    have hne : s.mem.initproc ≠ np := by
      intro heq
      have hl := hf.initLive
      rw [heq, hi.alloc_unused hp hop] at hl
      cases hl
    rw [hop, Lineage.record_birth_alloc, upd_of_ne hne]
    exact hf.initBirth
  · rw [Lineage.record_birth fun np h => hop ⟨np, h⟩]
    exact hf.initBirth

omit hf in
/-- Creation numbers of processes that are not being created do not change. -/
theorem Inv.birth_next (hq : (s.mem.proc q).state ≠ .unused) :
    (h.record s.mem e.op).birth q = h.birth q := by
  by_cases hop : ∃ np, e.op = .alloc np
  · obtain ⟨np, hop⟩ := hop
    have hne : q ≠ np := fun heq => hq (heq ▸ hi.alloc_unused hp hop)
    rw [hop, Lineage.record_birth_alloc, upd_of_ne hne]
  · rw [Lineage.record_birth fun np h => hop ⟨np, h⟩]

omit hi hp in
/-- Creation numbers only grow. -/
theorem Family.birth_le (z : Slot) : h.birth z ≤ (h.record s.mem e.op).birth z := by
  have hz := hf.clock z
  by_cases hop : ∃ np, e.op = .alloc np
  · obtain ⟨np, hop⟩ := hop
    rw [hop, Lineage.record_birth_alloc, upd_apply]
    split <;> omega
  · rw [Lineage.record_birth fun np h => hop ⟨np, h⟩]

omit hi hp in
theorem Family.parent_created (hz : (s.mem.proc z).parent = some q) :
    (s.mem.proc q).state ≠ .unused := by
  intro hs
  have hl := hf.live z q hz
  rw [hs] at hl
  cases hl

theorem Family.older_next (z q : Slot) (hz : ((e.op.apply s.mem).proc z).parent = some q) :
    (h.record s.mem e.op).birth q < (h.record s.mem e.op).birth z := by
  rcases hp.parent_cases hz with hop | ⟨p, hop, rfl⟩ | ⟨hold, -, -⟩
  · -- `fork` sets the parent of a younger process
    obtain ⟨f, hc, he, hspec⟩ := hp.opSpec hop (by simp)
    obtain ⟨hme, -, pid, rfl⟩ := hspec
    obtain ⟨-, hstk⟩ := hi.running_of_proc hc (by simp [Frame.onSched]) hme
    rw [Lineage.record_birth (by simp [hop])]
    exact hf.forkOlder q (.setParent z pid) z (mem_of_eq_cons hstk) rfl
      (by simp)
  · -- the first process is older than any child of another process
    obtain ⟨f, hc, -, hspec⟩ := hp.opSpec hop (by simp)
    have hlt := hf.older z p hspec.2.1
    rw [hf.initBirth_next hi hp, Lineage.record_birth (by simp [hop])]
    omega
  · have hlt := hf.older z q hold
    have hle := hf.birth_le (e := e) z
    rw [hi.birth_next hp (hf.parent_created hold)]
    omega

theorem Family.same_next (z q : Slot) (hz : ((e.op.apply s.mem).proc z).parent = some q) :
    (h.record s.mem e.op).parentBirth z = (h.record s.mem e.op).birth q := by
  rcases hp.parent_cases hz with hop | ⟨p, hop, rfl⟩ | ⟨hold, hset, hrep⟩
  · rw [hop]
    exact upd_self ..
  · rw [hop]
    exact upd_self ..
  · rw [Lineage.record_parentBirth hset hrep, hi.birth_next hp (hf.parent_created hold)]
    exact hf.same z q hold

theorem Family.forkOlder_next (p : Slot) (pc : ForkPc) (np : Slot)
    (hm : .fork pc ∈ (s.commit c rest e).stack (.proc p)) (hpc : pc.forking = some np)
    (hne : pc ≠ .found np) : (h.record s.mem e.op).birth p < (h.record s.mem e.op).birth np := by
  rcases hp.mem_stack (by simp) hm with ⟨hold, -⟩ | ⟨hr, hnew⟩
  · have hlt := hf.forkOlder p pc np hold hpc hne
    have hle := hf.birth_le (e := e) np
    rw [hi.birth_next hp (hi.fork_created hold)]
    omega
  · rcases hi.fork_new hp hr hnew with rfl | ⟨pc', hstk, hnext⟩
    · cases hpc
    have hmem : Frame.fork pc' ∈ s.stack (.proc p) := mem_of_eq_cons hstk
    have hkeep : pc'.forking = some np → pc' ≠ .found np →
        (h.record s.mem e.op).birth p < (h.record s.mem e.op).birth np := by
      intro hpc' hne'
      have hlt := hf.forkOlder p pc' np hmem hpc' hne'
      have hle := hf.birth_le (e := e) np
      rw [hi.birth_next hp (hi.fork_created hmem)]
      omega
    cases hnext with
    | alloc j hop => cases hpc
    | found q hop hs hacq => cases hpc; exact absurd rfl hne
    | trapframe q hop =>
      -- the new process gets the largest number so far
      cases hpc
      have hc := hf.clock p
      rw [hi.birth_next hp (hi.fork_created hmem), hop, Lineage.record_birth_alloc, upd_self]
      omega
    | pagetable q a hop | copy q a hop | setParent q r hme hop | relock q r pid hme hop
    | runnable q pid hop => exact hkeep hpc (by simp)

end

/-! ## Runs -/

theorem boot_parent (b : Boot) (z : Slot) : ((State.boot n b).mem.proc z).parent = none := by
  by_cases hz : z = 0
  · subst hz
    simp [State.boot, userinit, procinit, Op.apply, Op.target, Op.write, Proc.zero]
  · simp [State.boot, userinit, procinit, Op.apply, Op.target, Proc.zero, hz]

theorem family_boot (b : Boot) : Family (State.boot n b) Lineage.start := by
  constructor
  · intro z q hz
    cases (boot_parent b z).symm.trans hz
  · simp [State.boot, userinit, procinit, Op.apply, ProcState.live]
  · intro z hz hs
    rw [boot_proc_of_ne b hz] at hs
    cases hs
  · intro pc hm
    cases mem_boot_stack hm
  · intro p pc hm
    cases mem_boot_stack hm
  · intro z
    exact Nat.le_refl _
  · rfl
  · intro z q hz
    cases (boot_parent b z).symm.trans hz
  · intro z q hz
    cases (boot_parent b z).symm.trans hz
  · intro p pc np hm
    cases mem_boot_stack hm

/-- One step keeps the invariant about parents. -/
theorem Family.step {s s' : State n} {h : Lineage} {x : Fin n × Input} (hi : Inv s)
    (hf : Family s h) (hs : s.step x = some s') : Family s' (h.record s.mem (s.op x)) := by
  obtain ⟨rest, e, hp, -, hop, rfl⟩ := hi.step_commit hs
  rw [hop]
  exact
    { live := hf.live_next hi hp
      initLive := hf.init_live hi hp
      parented := hf.parented_next hi hp
      initExit := hf.initExit_next hi hp
      exitOk := hf.exitOk_next hi hp
      clock := hf.clock_next
      initBirth := hf.initBirth_next hi hp
      older := hf.older_next hi hp
      same := hf.same_next hi hp
      forkOlder := hf.forkOlder_next hi hp }

theorem family_reachable {x : State n × Lineage} (hr : (lineage n).Reachable x) :
    Family x.1 x.2 := by
  refine ReachableBy.induct (P := fun x => Family x.1 x.2) ?_ ?_ hr
  · rintro ⟨s, h⟩ ⟨⟨b, rfl⟩, rfl⟩
    exact family_boot b
  · intro x i y hx hf _ hs
    obtain ⟨hs, hy⟩ := observe_step.mp hs
    rw [hy]
    exact hf.step (inv_reachable (reachable_of_observe hx)) hs

/-- In every reachable state, whether `wait_lock` is free or not and whether or not the kernel
    has panicked: every started process but the first has a parent that is alive, the parent
    relation is acyclic and leads to the first process, and a parent pointer still refers to
    the process it was stored for. -/
theorem parents_lead_to_init {x : State n × Lineage} (hr : (lineage n).Reachable x) :
    (∀ z, z ≠ x.1.mem.initproc → (x.1.mem.proc z).state.started = true →
      ∃ q, (x.1.mem.proc z).parent = some q ∧ (x.1.mem.proc q).state.live = true) ∧
    (∀ z, ¬ TransGen (fun a b => (x.1.mem.proc a).parent = some b) z z) ∧
    (∀ z, (x.1.mem.proc z).state.started = true →
      ReflTransGen (fun a b => (x.1.mem.proc a).parent = some b) z x.1.mem.initproc) ∧
    (∀ z q, (x.1.mem.proc z).parent = some q → x.2.parentBirth z = x.2.birth q) := by
  have hf := family_reachable hr
  have hparent : ∀ z, (x.1.mem.proc z).state.started = true → z ≠ x.1.mem.initproc →
      ∃ q, (x.1.mem.proc z).parent = some q ∧ (x.1.mem.proc q).state.live = true := by
    intro z hz hne
    obtain ⟨q, hq⟩ := hf.parented z hne hz
    exact ⟨q, hq, hf.live z q hq⟩
  have hstarted : ∀ q, (x.1.mem.proc q).state.live = true →
      (x.1.mem.proc q).state.started = true := by
    intro q hq
    cases hst : (x.1.mem.proc q).state <;> simp_all [ProcState.live, ProcState.started]
  refine ⟨fun z hne hz => hparent z hz hne, acyclic_of_rank hf.older, fun z hz => ?_, hf.same⟩
  refine reflTransGen_of_rank hf.older (P := fun z => (x.1.mem.proc z).state.started = true)
    (fun a ha hne => ?_) hz
  obtain ⟨q, hq, hlive⟩ := hparent a ha hne
  exact ⟨q, hq, hstarted q hlive⟩

/-- Hart 0 boots, runs the first process and lets it fork a child into slot 1. -/
def forkRun : List (Fin 2 × Input) :=
  List.replicate 5 (0, .run) ++ [(0, .syscall .fork)] ++ List.replicate 4 (0, .run) ++
    [(0, .page 5), (0, .page 5)] ++ List.replicate 4 (0, .run)

/-- The forked child leads to the first process. -/
theorem parents_lead_to_init_child : ∃ x : State 2 × Lineage,
    (lineage 2).run (State.boot 2 ⟨1, 2, 3, 0⟩, Lineage.start) forkRun = some x ∧
      (x.1.mem.proc 1).state = .runnable ∧
      ReflTransGen (fun a b => (x.1.mem.proc a).parent = some b) 1 x.1.mem.initproc := by
  have hrun : ((lineage 2).run (State.boot 2 ⟨1, 2, 3, 0⟩, Lineage.start) forkRun).map
      (fun x => (x.1.mem.proc 1).state) = some .runnable := by decide +kernel
  obtain ⟨x, hx, hstate⟩ := Option.map_eq_some_iff.mp hrun
  have hr : (lineage 2).Reachable x := reachable_run (.init ⟨⟨_, rfl⟩, rfl⟩) hx
  exact ⟨x, hx, hstate, (parents_lead_to_init hr).2.2.1 1 (by rw [hstate]; rfl)⟩

end Xv6
