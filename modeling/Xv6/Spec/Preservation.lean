import Xv6.Spec.Invariant

/-!
# Every reachable state satisfies the scheduling invariant

One lemma for each field of `Inv`, each from the specification of a single step, and
`inv_reachable` by induction over the run.
-/

namespace Xv6

variable {n : Nat}

/-! ## What an operation does to a slot -/

/-- The ways in which a step of frame `f` may change `q->state` or `q->chan`. -/
inductive Touch (m : Mem) (me : Option Slot) (f : Frame) (e : Effect) (q : Slot) : Prop
  | keep (hs : ((e.op.apply m).proc q).state = (m.proc q).state)
      (hch : ((e.op.apply m).proc q).chan = (m.proc q).chan)
  | own (hme : me = some q) (hf : ¬ f.onSched)
      (hs : e.op.parks = true ∨ e.op = .awake q)
  | fork (pc : ForkPc) (hf : f = .fork pc) (hpc : pc.forking = some q)
      (hs : (((e.op.apply m).proc q).state = .used ∧ e.op = .alloc q) ∨
        ((e.op.apply m).proc q).state = .unused ∨
        (((e.op.apply m).proc q).state = .runnable ∧ (∃ pid, pc = .runnable q pid) ∧
          ∃ parent, e.op = .setRunnable parent q))
  | dispatch (hop : e.op = .dispatch q) (hs : (m.proc q).state = .runnable)
      (hacq : e.acquire = some (.proc q))
  | wake (hv : e.visit = some (.proc q)) (hs : (m.proc q).state = .sleeping)
      (hs' : ((e.op.apply m).proc q).state = .runnable)
  | reap (hv : e.visit = some (.proc q)) (hs : (m.proc q).state = .zombie)
      (hs' : ((e.op.apply m).proc q).state = .unused)

variable {f : Frame} {p : Slot} {d : Fin n}
variable {e : Effect} {me : Option Slot}

theorem OpSpec.touch {m : Mem} (h : OpSpec m me f e e.op) (q : Slot) :
    Touch m me f e q := by
  by_cases ht : e.op.target = some q
  case neg =>
    exact .keep (by rw [e.op.apply_proc_of_ne m ht]) (by rw [e.op.apply_proc_of_ne m ht])
  have hw := e.op.apply_proc_target m ht
  have keep (hs : (e.op.write m (m.proc q)).state = (m.proc q).state)
      (hch : (e.op.write m (m.proc q)).chan = (m.proc q).chan) : Touch m me f e q :=
    .keep (by rw [hw, hs]) (by rw [hw, hch])
  cases hop : e.op with
  | skip | copyMsg _ _ _ | tick | setPolicy _ =>
    rw [hop] at ht
    cases ht
  | alloc np => rw [hop] at h ht; cases ht; exact .fork _ h rfl (.inl ⟨by rw [hw, hop]; rfl, hop⟩)
  | free np =>
    rw [hop] at h ht; cases ht
    rcases h with h | h | h <;> exact .fork _ h rfl (.inr (.inl (by rw [hw, hop]; rfl)))
  | setRunnable parent np =>
    rw [hop] at h ht; cases ht
    obtain ⟨-, pid, h⟩ := h
    exact .fork _ h rfl (.inr (.inr ⟨by rw [hw, hop]; rfl, ⟨pid, rfl⟩, parent, hop⟩))
  | dispatch p => rw [hop] at h ht; cases ht; exact .dispatch hop h.1 h.2.1
  | yield p =>
    rw [hop] at h ht; cases ht
    exact .own h.1 (by simp [h.2.1, Frame.onSched]) (.inl (by rw [hop]; rfl))
  | sleep p ch =>
    rw [hop] at h ht; cases ht
    obtain ⟨hme, lk, hf, -⟩ := h
    exact .own hme (by simp [hf, Frame.onSched]) (.inl (by rw [hop]; rfl))
  | awake p =>
    rw [hop] at h ht; cases ht
    obtain ⟨hme, ch, lk, hf⟩ := h
    exact .own hme (by simp [hf, Frame.onSched]) (.inr hop)
  | zombie p st =>
    rw [hop] at h ht; cases ht
    exact .own h.1 (by simp [h.2, Frame.onSched]) (.inl (by rw [hop]; rfl))
  | wakeup ch p =>
    by_cases hsl : (m.proc q).state = .sleeping ∧ (m.proc q).chan = ch
    · rw [hop] at h ht; cases ht
      refine .wake h.2 hsl.1 ?_
      rw [hw, hop]
      simp [Op.write, hsl]
    · exact keep (by rw [hop]; simp [Op.write, hsl]) (by rw [hop]; rfl)
  | kill p pid =>
    by_cases hsl : (m.proc q).state = .sleeping
    · rw [hop] at h ht; cases ht
      refine .wake h.2.2 hsl ?_
      rw [hw, hop]
      simp [Op.write, hsl]
    · exact keep (by rw [hop]; simp [Op.write, hsl]) (by rw [hop]; rfl)
  | reap p pp addr addr2 =>
    rw [hop] at h ht; cases ht
    exact .reap h.2.2.2.1 h.2.2.1 (by rw [hw, hop]; rfl)
  | setTrapframe _ _ | setPagetable _ _ | copy _ _ | setParent _ _ | setkilled _ | exitMsg _ _ _
  | closeFd _ _ | clearCwd _ | reparent _ _ | accumulate _ | setPsPriority _ _
  | setCfsPriority _ _ | chargeSleep _ | charge _ | setFd _ _ _ | setCwd _ _ | setMem _ _ _ =>
    exact keep (by rw [hop]; rfl) (by rw [hop]; rfl)

/-- The ways in which a step of frame `f` may change `q->parent`. -/
inductive ParentTouch (m : Mem) (me : Option Slot) (f : Frame) (e : Effect) (q : Slot) : Prop
  | keep (hpar : ((e.op.apply m).proc q).parent = (m.proc q).parent)
  | setParent (p : Slot) (pid : Int) (hme : me = some p) (hop : e.op = .setParent p q)
      (hf : f = .fork (.setParent q pid)) (hv : e.visit = some .wait)
      (hpar : ((e.op.apply m).proc q).parent = some p)
  | free (pc : ForkPc) (hf : f = .fork pc) (hpc : pc.forking = some q) (hop : e.op = .free q)
      (hpar : ((e.op.apply m).proc q).parent = none)
  | reparent (p : Slot) (st : Int) (hme : me = some p) (hold : (m.proc q).parent = some p)
      (hf : f = .exit (.reparent st q)) (hop : e.op = .reparent p q)
      (hpar : ((e.op.apply m).proc q).parent = some m.initproc)
  | reap (p : Slot) (hme : me = some p) (hold : (m.proc q).parent = some p)
      (hs : (m.proc q).state = .zombie) (hs' : ((e.op.apply m).proc q).state = .unused)
      (hpar : ((e.op.apply m).proc q).parent = none)

theorem OpSpec.parentTouch {m : Mem} (h : OpSpec m me f e e.op) (q : Slot) : ParentTouch m me f e q := by
  by_cases ht : e.op.target = some q
  case neg => exact .keep (by rw [e.op.apply_proc_of_ne m ht])
  have hw := e.op.apply_proc_target m ht
  cases hop : e.op with
  | free np =>
    rw [hop] at h ht; cases ht
    rcases h with h | h | h <;> exact .free _ h rfl hop (by rw [hw, hop]; rfl)
  | setParent p np =>
    rw [hop] at h ht; cases ht
    obtain ⟨hme, hv, pid, hf⟩ := h
    exact .setParent p pid hme hop hf hv (by rw [hw, hop]; rfl)
  | reparent p pp =>
    rw [hop] at h ht; cases ht
    obtain ⟨hme, hold, st, hf⟩ := h
    exact .reparent p st hme hold hf hop (by rw [hw, hop]; rfl)
  | reap p pp addr addr2 =>
    rw [hop] at h ht; cases ht
    exact .reap p h.1 h.2.1 h.2.2.1 (by rw [hw, hop]; rfl) (by rw [hw, hop]; rfl)
  | _ => exact .keep (by rw [hw, hop]; rfl)

theorem State.lock_of_visit {s : State n} {L : Lock} (hb : s.blocked e = false)
    (hv : e.visit = some L) : s.lock L = none := by
  simp only [State.blocked, Bool.or_eq_false_iff, hv, Option.any_some] at hb
  simpa using hb.1

theorem State.lock_of_acquire {s : State n} {L : Lock} (hb : s.blocked e = false)
    (ha : e.acquire = some L) : s.lock L = none := by
  simp only [State.blocked, Bool.or_eq_false_iff, ha, Option.any_some] at hb
  simpa using hb.2

/-! ## Facts about the pre-state -/

section

variable {s : State n} (h : Inv s)
include h

/-- While `p->lock` is free, a process that is not `RUNNING` is on no hart. -/
theorem Inv.proc_ne_of_free (hl : s.lock (.proc p) = none) (hs : (s.mem.proc p).state ≠ .running)
    (c : Fin n) : s.proc c ≠ some p := by
  intro hp
  have hfree : ∀ L, L = .proc p → L ∉ topHeld (s.running c) (s.cur c) := by
    rintro L rfl hL
    rw [(h.lock _ c).mpr hL] at hl
    cases hl
  cases hr : s.running c with
  | proc q =>
    obtain rfl : q = p := Option.some.inj ((h.thread c q hr).symm.trans hp)
    have := (h.active c q hr).held (n := n) (p := q) hs
    exact hfree _ rfl (by rwa [State.cur, hr])
  | sched d =>
    obtain rfl := h.own c d hr
    have hb := (h.back d).symm.trans hp
    unfold backSlot at hb
    split at hb
    · rename_i l q rest hstk
      cases hb
      exact hfree _ rfl (by simp [State.cur, hr, hstk, topHeld, Frame.held, LoopPc.held])
    · cases hb

theorem Inv.not_running_of_free (hl : s.lock (.proc p) = none)
    (hs : (s.mem.proc p).state ≠ .running) (c : Fin n) : s.running c ≠ .proc p :=
  fun hr => h.proc_ne_of_free hl hs c (h.thread c p hr)

/-- The slot of an unfinished `fork` is on no hart. -/
theorem Inv.not_running_of_forking {np : Slot} {pc : ForkPc} (hf : .fork pc ∈ s.stack (.proc p))
    (hpc : pc.forking = some np) (c : Fin n) : s.running c ≠ .proc np := by
  intro hr
  have hc := (h.active c np hr).created
  rcases (h.fork p pc hf).state hpc with hs | hs
  · exact hc.1 hs
  · exact hc.2 hs

/-- The stack of an executing frame that occurs on process stacks only. -/
theorem Inv.exec_fork {c : Fin n} {pc : ForkPc} {rest : List Frame} (hc : s.cur c = .fork pc :: rest) :
    ∃ p, s.running c = .proc p ∧ s.proc c = some p ∧ s.stack (.proc p) = .fork pc :: rest :=
  h.running_of_not_onSched hc (by simp [Frame.onSched])

end

/-! ## Shape of a planned step -/

section

variable {s : State n} {c : Fin n} {i : Input} {rest : List Frame} {e : Effect}

theorem Planned.exec_of_op (hp : Planned s c i rest e) (hop : e.op ≠ .skip) :
    ∃ f, s.cur c = f :: rest ∧ f.effect s.mem (s.proc c) i = some e := by
  cases hp with
  | user p fs hr hc hfs | kernel fs hne hlock hfs => exact absurd rfl hop
  | exec f rest e hc he => exact ⟨f, hc, he⟩

/-- The frame that performs an operation, with what is known about it. -/
theorem Planned.opSpec (hp : Planned s c i rest e) {op : Op} (hop : e.op = op) (hne : op ≠ .skip) :
    ∃ f, s.cur c = f :: rest ∧ f.effect s.mem (s.proc c) i = some e ∧
      OpSpec s.mem (s.proc c) f e op := by
  obtain ⟨f, hc, he⟩ := hp.exec_of_op (hop ▸ hne)
  exact ⟨f, hc, he, hop ▸ effect_opSpec he⟩

theorem Planned.exec_of_switch (hp : Planned s c i rest e) (hsw : e.switch ≠ .stay) :
    ∃ f, s.cur c = f :: rest ∧ f.effect s.mem (s.proc c) i = some e := by
  cases hp with
  | user p fs hr hc hfs | kernel fs hne hlock hfs => exact absurd rfl hsw
  | exec f rest e hc he => exact ⟨f, hc, he⟩

theorem backSlot_of_topHeld {t : Thread n} {stk : List Frame} (h : topHeld t stk = []) :
    backSlot stk = none := by
  unfold backSlot
  split
  · simp [topHeld, Frame.held, LoopPc.held] at h
  · rfl

theorem backSlot_append {fs rest : List Frame} (hfs : backSlot fs = none)
    (hrest : backSlot rest = none) : backSlot (fs ++ rest) = none := by
  cases fs with
  | nil => exact hrest
  | cons f fs =>
    unfold backSlot at hfs ⊢
    split at hfs <;> simp_all

end

/-! ## Stacks, harts and threads after a step -/

section

variable {s : State n} {c : Fin n} {i : Input} {rest : List Frame} {e : Effect}

theorem State.commit_running_of_ne (hd : d ≠ c) :
    (s.commit c rest e).running d = s.running d := by
  simp only [State.commit, State.runningAfter]
  cases e.switch <;> simp [hd]

theorem State.commit_proc_of_ne (hd : d ≠ c) :
    (s.commit c rest e).proc d = s.proc d := by
  simp only [State.commit, State.procAfter]
  cases e.switch <;> simp [hd]

theorem State.commit_running_self (s : State n) (c : Fin n) (rest : List Frame) (e : Effect) :
    (s.commit c rest e).running c =
      match e.switch with
      | .stay | .clear => s.running c
      | .sched => .sched c
      | .dispatch p => .proc p := by
  simp only [State.commit, State.runningAfter]
  cases e.switch <;> simp

theorem State.commit_proc_self (s : State n) (c : Fin n) (rest : List Frame) (e : Effect) :
    (s.commit c rest e).proc c =
      match e.switch with
      | .stay | .sched => s.proc c
      | .clear => none
      | .dispatch p => some p := by
  simp only [State.commit, State.procAfter]
  cases e.switch <;> simp

theorem State.setContext_of_ne {stack : Thread n → List Frame} {op : Op}
    (hop : ∀ np a, op ≠ .setPagetable np a) : State.setContext stack op = stack := by
  unfold State.setContext
  split
  · rename_i np a
    exact absurd rfl (hop np a)
  · rfl

theorem State.commit_stack (s : State n) (c : Fin n) (rest : List Frame) (e : Effect) (t : Thread n) :
    (∃ np a, e.op = .setPagetable np a ∧ t = .proc np ∧
        (s.commit c rest e).stack t = [.forkret]) ∨
      ((∀ np a, e.op = .setPagetable np a → t ≠ .proc np) ∧
        (s.commit c rest e).stack t = upd s.stack (s.running c) (e.frames ++ rest) t) := by
  simp only [State.commit, State.setCur]
  by_cases hop : ∃ np a, e.op = .setPagetable np a
  · obtain ⟨np, a, hop⟩ := hop
    rw [hop]
    by_cases ht : t = .proc np
    · exact .inl ⟨np, a, rfl, ht, by rw [ht]; exact upd_self ..⟩
    · refine .inr ⟨?_, upd_of_ne ht _⟩
      intro np' a' hop'
      cases hop'
      exact ht
  · have hne : ∀ np a, e.op ≠ .setPagetable np a := fun np a h => hop ⟨np, a, h⟩
    exact .inr ⟨fun np a h => absurd h (hne np a), by rw [State.setContext_of_ne hne]⟩

variable (h : Inv s) (hp : Planned s c i rest e)
include h hp

/-- `allocproc` prepares the stack of a process that no hart runs. -/
theorem Inv.not_running_of_setPagetable {np : Slot} {a : Nat} (hop : e.op = .setPagetable np a)
    (d : Fin n) : s.running d ≠ .proc np := by
  obtain ⟨f, hc, -, hspec⟩ := hp.opSpec hop (by simp)
  rw [hspec.1] at hc
  obtain ⟨p, -, -, hstk⟩ := h.exec_fork hc
  exact h.not_running_of_forking (p := p) (mem_of_eq_cons hstk) rfl d

theorem Inv.commit_stack_running (d : Fin n) :
    (s.commit c rest e).stack (s.running d) =
      if d = c then e.frames ++ rest else s.stack (s.running d) := by
  rcases State.commit_stack s c rest e (s.running d) with ⟨np, a, hop, ht, -⟩ | ⟨-, hstk⟩
  · exact absurd ht (h.not_running_of_setPagetable hp hop d)
  · rw [hstk]
    split
    · rename_i hd
      rw [hd, upd_self]
    · rename_i hd
      exact upd_of_ne (fun heq => hd (h.running_inj heq)) _

omit h hp in
theorem State.commit_stack_sched (hd : s.running c ≠ .sched d) :
    (s.commit c rest e).stack (.sched d) = s.stack (.sched d) := by
  rcases State.commit_stack s c rest e (.sched d) with ⟨np, a, -, ht, -⟩ | ⟨-, hstk⟩
  · cases ht
  · rw [hstk, upd_of_ne (Ne.symm hd)]

omit h hp in
/-- A process that hart `c` does not run keeps its stack, unless `allocproc` prepares it. -/
theorem State.commit_stack_proc (hr : s.running c ≠ .proc p) (hop : ∀ a, e.op ≠ .setPagetable p a) :
    (s.commit c rest e).stack (.proc p) = s.stack (.proc p) := by
  rcases State.commit_stack s c rest e (.proc p) with ⟨np, a, hop', ht, -⟩ | ⟨-, hstk⟩
  · cases ht
    exact absurd hop' (hop a)
  · rw [hstk, upd_of_ne (Ne.symm hr)]

omit h hp in
/-- A property of stacks is kept if the new stack of the running thread has it. -/
theorem State.commit_stack_ind {P : Thread n → List Frame → Prop}
    (hforkret : ∀ np, P (.proc np) [.forkret]) (hcur : P (s.running c) (e.frames ++ rest))
    (hold : ∀ t, P t (s.stack t)) (t : Thread n) : P t ((s.commit c rest e).stack t) := by
  rcases State.commit_stack s c rest e t with ⟨np, a, -, ht, hstk⟩ | ⟨-, hstk⟩
  · rw [hstk, ht]
    exact hforkret np
  · rw [hstk, upd_apply]
    split
    · rename_i ht
      rw [ht]
      exact hcur
    · exact hold t

/-- A step without a switch leaves no `swtch` open on its own stack. -/
theorem Inv.stay_spec (hsw : e.switch = .stay) :
    backSlot (s.cur c) = none ∧ backSlot (e.frames ++ rest) = none ∧
      (Parks e.op e.frames ∨ e.op.parks = false ∧ ∀ g ∈ e.frames, g.plain = true) := by
  have htrap : ∀ {fs : List Frame}, (∀ g ∈ fs, g.handler = true) →
      topHeld (s.running c) (s.cur c) = [] →
      backSlot (s.cur c) = none ∧ backSlot (fs ++ s.cur c) = none ∧
        (Parks .skip fs ∨ Op.parks .skip = false ∧ ∀ g ∈ fs, g.plain = true) := by
    intro fs hfs htop
    have hcur := backSlot_of_topHeld htop
    refine ⟨hcur, backSlot_append ?_ hcur, .inr ⟨rfl, ?_⟩⟩
    · cases fs with
      | nil => rfl
      | cons g fs =>
        apply backSlot_of_topHeld (t := s.running c)
        exact (handler_spec (hfs g List.mem_cons_self)).1
    · exact fun g hg => (handler_spec (t := s.running c) (hfs g hg)).2.1
  cases hp with
  | user p fs hr hc hfs => exact htrap (userEntry_spec p hfs).1 (by rw [hc]; rfl)
  | kernel fs hne hlock hfs => exact htrap (kernelEntry_spec (s.running c) hfs).1 hlock
  | exec f rest e hc he =>
    have hsp := (effect_frameSpec (h.ready hc) he).switch
    rw [hsw] at hsp
    obtain ⟨-, hf, hfr, hpk⟩ := hsp
    have hrest : ∀ g ∈ rest, g.held (s.running c) = [] := by
      have := h.tail (s.running c)
      rwa [← State.cur, hc] at this
    refine ⟨?_, backSlot_append hfr ?_, hpk⟩
    · rw [hc]
      unfold backSlot at hf ⊢
      split at hf <;> simp_all
    · cases rest with
      | nil => rfl
      | cons g rest => exact backSlot_of_topHeld (hrest g List.mem_cons_self)

omit hp in
/-- A step that touches `c->proc` or dispatches runs on the scheduler stack. -/
theorem Inv.running_sched {l : Loop} {pc : LoopPc} (hc : s.cur c = f :: rest)
    (hf : f = .scheduler l pc) : s.running c = .sched c := by
  have hr := (h.runs hc).1
  cases ht : s.running c with
  | sched d => rw [h.own c d ht]
  | proc p => simp [ht, hf, Frame.wf, Frame.onProc] at hr

end

/-! ## Harts -/

theorem backSlot_held {t : Thread n} {stk : List Frame} (h : backSlot stk = some p) :
    topHeld t stk = [.proc p] := by
  unfold backSlot at h
  split at h
  · cases h
    rfl
  · cases h

theorem Resumes.held {g : Frame} (h : Resumes f g) (p : Slot) :
    g.held (.proc p : Thread n) = [.proc p] := by
  cases h <;> rfl

theorem Resumes.not_onSched {g : Frame} (h : Resumes f g) : ¬ f.onSched := by
  cases h <;> simp [Frame.onSched]

section

variable {s : State n} {c : Fin n} {i : Input} {rest : List Frame} {e : Effect}
variable (h : Inv s) (hp : Planned s c i rest e) (hb : s.blocked e = false)
include h

theorem Inv.own_step (d d' : Fin n) (hr : (s.commit c rest e).running d = .sched d') :
    d' = d := by
  by_cases hd : d = c
  · subst hd
    rw [State.commit_running_self] at hr
    cases hsw : e.switch with
    | stay | clear => rw [hsw] at hr; exact h.own d d' hr
    | sched => rw [hsw] at hr; exact (Thread.sched.inj hr).symm
    | dispatch p => rw [hsw] at hr; cases hr
  · rw [State.commit_running_of_ne hd] at hr
    exact h.own d d' hr

/-- The frames below an executing one hold no lock. -/
theorem Inv.rest_held (hc : s.cur c = f :: rest) :
    ∀ g ∈ rest, g.held (s.running c) = [] := by
  have := h.tail (s.running c)
  rwa [← State.cur, hc] at this

theorem Inv.backSlot_rest (hc : s.cur c = f :: rest) : backSlot rest = none := by
  have hrest := h.rest_held hc
  cases rest with
  | nil => rfl
  | cons g rest => exact backSlot_of_topHeld (hrest g List.mem_cons_self)

include hp

/-- A step that calls `swtch` towards the scheduler. -/
theorem Inv.sched_spec (hsw : e.switch = .sched) :
    ∃ f g p, s.cur c = f :: rest ∧ Resumes f g ∧ e.frames = [g] ∧ e.op = .skip ∧
      e.acquire = none ∧ e.release = none ∧ s.running c = .proc p ∧
      s.stack (.proc p) = f :: rest := by
  obtain ⟨f, hc, he⟩ := hp.exec_of_switch (by simp [hsw])
  have hsp := (effect_frameSpec (h.ready hc) he).switch
  rw [hsw] at hsp
  obtain ⟨-, hop, hacq, hrel, g, hfr, hres⟩ := hsp
  obtain ⟨p, hr, -, hstk⟩ := h.running_of_not_onSched hc hres.not_onSched
  exact ⟨f, g, p, hc, hres, hfr, hop, hacq, hrel, hr, hstk⟩

/-- A step that calls `swtch` towards a process. -/
theorem Inv.dispatch_spec (hsw : e.switch = .dispatch p) :
    e.op = .dispatch p ∧ e.acquire = some (.proc p) ∧ (s.mem.proc p).state = .runnable ∧
      s.running c = .sched c ∧ ∃ l, e.frames = [.scheduler l (.back p)] := by
  obtain ⟨f, hc, he⟩ := hp.exec_of_switch (by simp [hsw])
  have hsp := (effect_frameSpec (h.ready hc) he).switch
  rw [hsw] at hsp
  obtain ⟨⟨l, mn, hf⟩, hop, hacq, hfr⟩ := hsp
  have hspec := effect_opSpec he
  rw [hop] at hspec
  exact ⟨hop, hacq, hspec.1, h.running_sched hc hf, hfr⟩

/-- A step that stores `c->proc = 0`. -/
theorem Inv.clear_spec (hsw : e.switch = .clear) :
    e.op = .skip ∧ s.running c = .sched c ∧ backSlot (e.frames ++ rest) = none := by
  obtain ⟨f, hc, he⟩ := hp.exec_of_switch (by simp [hsw])
  have hsp := (effect_frameSpec (h.ready hc) he).switch
  rw [hsw] at hsp
  obtain ⟨⟨l, pc, hf⟩, hop, -, hfr⟩ := hsp
  exact ⟨hop, h.running_sched hc hf, backSlot_append hfr (h.backSlot_rest hc)⟩

theorem Inv.back_step (d : Fin n) :
    (s.commit c rest e).proc d = backSlot ((s.commit c rest e).stack (.sched d)) := by
  by_cases hd : d = c
  · subst hd
    rw [State.commit_proc_self]
    cases hsw : e.switch with
    | stay =>
      obtain ⟨hold, hnew, -⟩ := h.stay_spec hp hsw
      cases hr : s.running d with
      | sched d' =>
        obtain rfl := h.own d d' hr
        have hback := h.back d'
        rw [← hr] at hback ⊢
        rw [h.commit_stack_running hp d', if_pos rfl, hnew, hback]
        exact hold
      | proc p =>
        rw [State.commit_stack_sched (by simp [hr])]
        exact h.back d
    | clear =>
      obtain ⟨-, hr, hnew⟩ := h.clear_spec hp hsw
      rw [← hr, h.commit_stack_running hp d, if_pos rfl, hnew]
    | dispatch p =>
      obtain ⟨-, -, -, hr, l, hfr⟩ := h.dispatch_spec hp hsw
      rw [← hr, h.commit_stack_running hp d, if_pos rfl, hfr]
      rfl
    | sched =>
      obtain ⟨f, g, p, -, -, -, -, -, -, hr, -⟩ := h.sched_spec hp hsw
      rw [State.commit_stack_sched (by simp [hr])]
      exact h.back d
  · have hne : s.running c ≠ .sched d := fun hr => hd (h.own c d hr)
    rw [State.commit_proc_of_ne hd, State.commit_stack_sched hne]
    exact h.back d

end

section

variable {s : State n} {c : Fin n} {i : Input} {rest : List Frame} {e : Effect}
variable (h : Inv s) (hp : Planned s c i rest e) (hb : s.blocked e = false)
include h hp

theorem Inv.thread_step (d : Fin n) (p : Slot) (hr : (s.commit c rest e).running d = .proc p) :
    (s.commit c rest e).proc d = some p := by
  by_cases hd : d = c
  · subst hd
    rw [State.commit_running_self] at hr
    rw [State.commit_proc_self]
    cases hsw : e.switch with
    | stay => rw [hsw] at hr; exact h.thread d p hr
    | clear =>
      obtain ⟨-, hr', -⟩ := h.clear_spec hp hsw
      rw [hsw] at hr
      exact nomatch hr.symm.trans hr'
    | sched => rw [hsw] at hr; cases hr
    | dispatch q => rw [hsw] at hr; rw [Thread.proc.inj hr]
  · rw [State.commit_running_of_ne hd] at hr
    rw [State.commit_proc_of_ne hd]
    exact h.thread d p hr

include hb in
/-- A dispatched process was on no hart. -/
theorem Inv.proc_ne_of_dispatch (hsw : e.switch = .dispatch p) (d : Fin n) :
    s.proc d ≠ some p := by
  obtain ⟨-, hacq, hs, -⟩ := h.dispatch_spec hp hsw
  exact h.proc_ne_of_free (State.lock_of_acquire hb hacq) (by simp [hs]) d

include hb in
theorem Inv.uniq_step (d d' : Fin n) (p : Slot) (hd : (s.commit c rest e).proc d = some p)
    (hd' : (s.commit c rest e).proc d' = some p) : d = d' := by
  -- a hart that has `p` now had it before, unless it is `c` and has just dispatched `p`
  have hbefore : ∀ x, (s.commit c rest e).proc x = some p →
      s.proc x = some p ∨ (x = c ∧ e.switch = .dispatch p) := by
    intro x hx
    by_cases hxc : x = c
    · subst hxc
      rw [State.commit_proc_self] at hx
      cases hsw : e.switch with
      | stay | sched => rw [hsw] at hx; exact .inl hx
      | clear => rw [hsw] at hx; cases hx
      | dispatch q => rw [hsw] at hx; rw [Option.some.inj hx]; exact .inr ⟨rfl, rfl⟩
    · rw [State.commit_proc_of_ne hxc] at hx
      exact .inl hx
  rcases hbefore d hd with h1 | ⟨h1, hsw⟩
  · rcases hbefore d' hd' with h2 | ⟨-, hsw⟩
    · exact h.uniq d d' p h1 h2
    · exact absurd h1 (h.proc_ne_of_dispatch hp hb hsw d)
  · rcases hbefore d' hd' with h2 | ⟨h2, -⟩
    · exact absurd h2 (h.proc_ne_of_dispatch hp hb hsw d')
    · rw [h1, h2]

/-! ## Locks -/

omit h hp in
theorem State.lockAfter_eq (s : State n) (c : Fin n) (e : Effect) (L : Lock) :
    s.lockAfter c e L =
      if L ∈ e.acquire.toList then some c
      else if L ∈ e.release.toList then none else s.lock L := by
  unfold State.lockAfter
  cases ha : e.acquire with
  | none =>
    cases hr : e.release with
    | none => simp
    | some R => simp [upd_apply]
  | some A =>
    cases hr : e.release with
    | none => simp [upd_apply]
    | some R => simp [upd_apply]

/-- After a step the own locks are those of the new innermost frame. -/
theorem Inv.lock_self (L : Lock) :
    (s.commit c rest e).lock L = some c ↔ L ∈ topHeld (s.running c) (e.frames ++ rest) := by
  rw [(h.move hp).top L, ← h.lock L c]
  simp only [State.commit, State.lockAfter_eq]
  by_cases ha : L ∈ e.acquire.toList
  · simp [ha]
  · by_cases hr : L ∈ e.release.toList
    · simp [ha, hr]
    · simp [ha, hr]

include hb in
/-- The locks of the other harts do not change. -/
theorem Inv.lock_other (hd : d ≠ c) (L : Lock) :
    (s.commit c rest e).lock L = some d ↔ s.lock L = some d := by
  simp only [State.commit, State.lockAfter_eq]
  split
  · rename_i ha
    rw [State.lock_of_acquire hb (Option.mem_toList.mp ha)]
    simp [Ne.symm hd]
  · split
    · rename_i hr
      have := (h.lock L c).mpr ((h.move hp).leave L (.inl hr))
      simp [this, Ne.symm hd]
    · rfl

/-- The stack of a dispatched process is the one it was suspended with. -/
theorem Inv.stack_of_dispatch (hsw : e.switch = .dispatch p) :
    (s.commit c rest e).stack (.proc p) = s.stack (.proc p) := by
  obtain ⟨hop, -, -, hr, -⟩ := h.dispatch_spec hp hsw
  exact State.commit_stack_proc (by simp [hr]) (by simp [hop])

include hb in
theorem Inv.suspended_of_dispatch (hsw : e.switch = .dispatch p) :
    Suspended (s.mem.proc p) (s.stack (.proc p)) :=
  h.suspended p fun d hr => h.proc_ne_of_dispatch hp hb hsw d (h.thread d p hr)

include hb in
theorem Inv.lock_step (L : Lock) (d : Fin n) :
    (s.commit c rest e).lock L = some d ↔
      L ∈ topHeld ((s.commit c rest e).running d) ((s.commit c rest e).cur d) := by
  simp only [State.cur]
  by_cases hd : d = c
  · subst hd
    rw [h.lock_self hp L, State.commit_running_self]
    cases hsw : e.switch with
    | stay | clear => rw [h.commit_stack_running hp d, if_pos rfl]
    | dispatch p =>
      -- `p->lock` passes from the scheduler loop to the process
      obtain ⟨-, -, hs, -, l, hfr⟩ := h.dispatch_spec hp hsw
      have hsus := h.suspended_of_dispatch hp hb hsw
      obtain ⟨f, r, hstk, -, hheld⟩ := hsus.resume (n := n) (p := p) hs
      dsimp only
      rw [h.stack_of_dispatch hp hsw, hstk, hfr,
        show topHeld (.proc p) (f :: r) = [.proc p] from hheld]
      rfl
    | sched =>
      -- … and back
      obtain ⟨f, g, p, -, hres, hfr, -, -, -, hr, -⟩ := h.sched_spec hp hsw
      have hback := (h.back d).symm.trans (h.thread d p hr)
      dsimp only
      rw [State.commit_stack_sched (by simp [hr]), backSlot_held hback, hfr, hr]
      simp [topHeld, hres.held p]
  · rw [h.lock_other hp hb hd L, State.commit_running_of_ne hd, h.commit_stack_running hp d,
      if_neg hd]
    exact h.lock L d

end

end Xv6
