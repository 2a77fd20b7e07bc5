import Xv6.Spec.Preservation

/-!
# The scheduling invariant in every reachable state

The fields of `Inv` that speak about processes, the initial state, and the induction over
the run: `inv_reachable`.
-/

namespace Xv6

variable {n : Nat}
variable {p : Slot} {g : Frame} {pc : ForkPc}

theorem plain_of_held {f : Frame} (h : f.held (.proc p : Thread n) = []) :
    f.plain = true := by
  unfold Frame.plain
  split <;> simp_all [Frame.held, YieldPc.held, SleepPc.held, ExitPc.held, Thread.ownLock]

/-- Frames that hold no lock keep their process `RUNNING`. -/
theorem Active.of_running {x : Proc} {fs rest : List Frame} (hx : x.state = .running)
    (hfs : ∀ g ∈ fs, g.plain = true) (hrest : ∀ g ∈ rest, g.held (.proc p : Thread n) = []) :
    Active x (fs ++ rest) := by
  have hplain : ∀ g ∈ fs ++ rest, g.plain = true := by
    intro g hg
    rcases List.mem_append.mp hg with hg | hg
    · exact hfs g hg
    · exact plain_of_held (hrest g hg)
  cases hstk : fs ++ rest with
  | nil => exact hx
  | cons g r =>
    rw [hstk] at hplain
    exact (Active.of_plain (hplain g List.mem_cons_self)).mpr hx

theorem Suspended.idle {x : Proc} {stk : List Frame} (h : Suspended x stk)
    (hx : x.state = .unused ∨ x.state = .used ∨ x.state = .zombie) : Idle stk := by
  cases h with
  | unused _ hi => exact hi
  | used _ hi => exact hi
  | sleeping hs _ | woken hs | yielded hs | new hs => simp [hs] at hx
  | zombie _ => exact .inr (.inr ⟨_, rfl⟩)

section

variable {s : State n} {c : Fin n} {i : Input} {rest : List Frame} {e : Effect}
variable (h : Inv s) (hp : Planned s c i rest e) (hb : s.blocked e = false)
include h hp

/-! ## Processes -/

omit h in
/-- `Touch` for any step, trap entries included. -/
theorem Planned.touch (q : Slot) :
    (((e.op.apply s.mem).proc q).state = (s.mem.proc q).state ∧
        ((e.op.apply s.mem).proc q).chan = (s.mem.proc q).chan) ∨
      ∃ f, s.cur c = f :: rest ∧ f.effect s.mem (s.proc c) i = some e ∧
        Touch s.mem (s.proc c) f e q := by
  by_cases hop : e.op = .skip
  · rw [hop]
    exact .inl ⟨rfl, rfl⟩
  · obtain ⟨f, hc, he⟩ := hp.exec_of_op hop
    exact .inr ⟨f, hc, he, (effect_opSpec he).touch q⟩

/-- The frames below the new ones hold no lock. -/
theorem Inv.below_held : ∀ g ∈ rest, g.held (s.running c) = [] := by
  cases hp with
  | user q fs hr hc hfs => rw [hc]; exact fun g hg => nomatch hg
  | kernel fs hne hlock hfs => exact held_of_topHeld_nil hlock (h.tail _)
  | exec f rest e hc he => exact h.rest_held hc

/-- A process that does not switch away is `RUNNING`. -/
theorem Inv.running_of_stay (hr : s.running c = .proc p) (hsw : e.switch = .stay) :
    (s.mem.proc p).state = .running := by
  have ha := h.active c p hr
  have hcur : s.cur c = s.stack (.proc p) := by rw [State.cur, hr]
  cases hp with
  | user q fs hr' hc hfs =>
    rw [← hcur, hc] at ha
    exact ha
  | kernel fs hne hlock hfs =>
    by_cases hs : (s.mem.proc p).state = .running
    · exact hs
    · have hheld := ha.held (n := n) (p := p) hs
      rw [← hcur, ← hr, hlock] at hheld
      cases hheld
  | exec f rest e hc he =>
    have hsp := (effect_frameSpec (h.ready hc) he).switch
    rw [hsw] at hsp
    rw [← hcur, hc] at ha
    exact (Active.of_plain hsp.1).mp ha

/-- A step of the process itself, without a switch. -/
theorem Inv.active_self (hr : s.running c = .proc p) (hsw : e.switch = .stay) :
    Active ((e.op.apply s.mem).proc p) (e.frames ++ rest) := by
  have hrun := h.running_of_stay hp hr hsw
  have hme := h.thread c p hr
  obtain ⟨-, -, hpk⟩ := h.stay_spec hp hsw
  rcases hpk with hpk | ⟨hnp, hplain⟩
  · -- the process stores its new state and calls `sched`
    have hop : e.op ≠ .skip := by
      intro hop
      rw [hop] at hpk
      cases hpk
    obtain ⟨f, hc, he⟩ := hp.exec_of_op hop
    have hspec := effect_opSpec he
    generalize hfr : e.frames = fs at hpk ⊢
    cases hop' : e.op with
    | yield q | zombie q st =>
      rw [hop'] at hspec hpk
      obtain rfl : p = q := Option.some.inj (hme.symm.trans hspec.1)
      cases hpk
      rw [Op.apply_proc_target _ _ rfl]
      rfl
    | sleep q ch =>
      rw [hop'] at hspec hpk
      obtain rfl : p = q := Option.some.inj (hme.symm.trans hspec.1)
      cases hpk
      rw [Op.apply_proc_target _ _ rfl]
      exact ⟨rfl, rfl⟩
    | _ => rw [hop'] at hpk; cases hpk
  · -- every other operation leaves it `RUNNING`
    have hrest : ∀ g ∈ rest, g.held (.proc p : Thread n) = [] := hr ▸ h.below_held hp
    refine Active.of_running (n := n) (p := p) ?_ hplain hrest
    rcases hp.touch p with ⟨hs, -⟩ | ⟨f, hc, he, ht⟩
    · exact hs.trans hrun
    · cases ht with
      | keep hs hch => exact hs.trans hrun
      | own hme' hf hs =>
        rcases hs with hs | hop
        · rw [hnp] at hs
          cases hs
        · rw [hop, Op.apply_proc_target _ _ rfl]
          exact hrun
      | fork pc hf hpc hs =>
        rw [hf] at hc
        obtain ⟨q, -, -, hstk⟩ := h.exec_fork hc
        have hmem : Frame.fork pc ∈ s.stack (.proc q) := mem_of_eq_cons hstk
        exact absurd hr (h.not_running_of_forking hmem hpc c)
      | dispatch hop hs hacq | wake hv hs hs' | reap hv hs hs' => simp [hs] at hrun

include hb in
/-- A step of one hart does not touch the process another hart runs. -/
theorem Inv.keep_other {d : Fin n} (hd : d ≠ c) (hr : s.running d = .proc p) :
    ((e.op.apply s.mem).proc p).state = (s.mem.proc p).state ∧
      ((e.op.apply s.mem).proc p).chan = (s.mem.proc p).chan := by
  rcases hp.touch p with hk | ⟨f, hc, he, ht⟩
  · exact hk
  · cases ht with
    | keep hs hch => exact ⟨hs, hch⟩
    | own hme hf hs => exact absurd (h.uniq d c p (h.thread d p hr) hme) hd
    | fork pc hf hpc hs =>
      rw [hf] at hc
      obtain ⟨q, -, -, hstk⟩ := h.exec_fork hc
      have hmem : Frame.fork pc ∈ s.stack (.proc q) := mem_of_eq_cons hstk
      exact absurd hr (h.not_running_of_forking hmem hpc d)
    | dispatch hop hs hacq =>
      exact absurd hr (h.not_running_of_free (State.lock_of_acquire hb hacq) (by simp [hs]) d)
    | wake hv hs hs' | reap hv hs hs' =>
      exact absurd hr (h.not_running_of_free (State.lock_of_visit hb hv) (by simp [hs]) d)

include hb in
theorem Inv.active_step (d : Fin n) (p : Slot) (hr : (s.commit c rest e).running d = .proc p) :
    Active ((s.commit c rest e).mem.proc p) ((s.commit c rest e).stack (.proc p)) := by
  show Active ((e.op.apply s.mem).proc p) _
  by_cases hd : d = c
  · subst hd
    rw [State.commit_running_self] at hr
    cases hsw : e.switch with
    | stay =>
      rw [hsw] at hr
      have hstk := h.commit_stack_running hp d
      rw [if_pos rfl, show s.running d = .proc p from hr] at hstk
      rw [hstk]
      exact h.active_self hp hr hsw
    | clear =>
      obtain ⟨-, hr', -⟩ := h.clear_spec hp hsw
      rw [hsw] at hr
      exact nomatch hr.symm.trans hr'
    | sched => rw [hsw] at hr; cases hr
    | dispatch q =>
      rw [hsw] at hr
      cases hr
      obtain ⟨hop, -, hs, -⟩ := h.dispatch_spec hp hsw
      obtain ⟨f, r, hstk, hplain, -⟩ :=
        (h.suspended_of_dispatch hp hb hsw).resume (n := n) (p := p) hs
      rw [h.stack_of_dispatch hp hsw, hstk, Active.of_plain hplain, hop,
        Op.apply_proc_target _ _ rfl]
      rfl
  · rw [State.commit_running_of_ne hd] at hr
    have hstk := h.commit_stack_running hp d
    rw [if_neg hd, hr] at hstk
    rw [hstk]
    obtain ⟨hs, hch⟩ := h.keep_other hp hb hd hr
    exact (h.active d p hr).congr hs hch

end

section

variable {s : State n} {c : Fin n} {i : Input} {rest : List Frame} {e : Effect}
variable (h : Inv s) (hp : Planned s c i rest e)
include h hp

/-- A process that hart `c` switches away from. -/
theorem Inv.suspended_self (hr : s.running c = .proc p)
    (hr' : (s.commit c rest e).running c ≠ .proc p) :
    Suspended ((e.op.apply s.mem).proc p) ((s.commit c rest e).stack (.proc p)) := by
  rw [State.commit_running_self] at hr'
  cases hsw : e.switch with
  | stay | clear => rw [hsw] at hr'; exact absurd hr hr'
  | dispatch q =>
    obtain ⟨-, -, -, hsched, -⟩ := h.dispatch_spec hp hsw
    exact nomatch hr.symm.trans hsched
  | sched =>
    obtain ⟨f, g, q, -, hres, hfr, hop, -, -, hq, hstk⟩ := h.sched_spec hp hsw
    obtain rfl : p = q := Thread.proc.inj (hr.symm.trans hq)
    have ha := h.active c p hr
    have hnew := h.commit_stack_running hp c
    rw [if_pos rfl, hr, hfr] at hnew
    rw [hnew, hop]
    rw [hstk] at ha
    exact ha.suspended hres

/-- A process on no hart, before and after a step of hart `c`. -/
theorem Inv.suspended_other (hr : ∀ d, s.running d ≠ .proc p)
    (hr' : (s.commit c rest e).running c ≠ .proc p) :
    Suspended ((e.op.apply s.mem).proc p) ((s.commit c rest e).stack (.proc p)) := by
  have hsus := h.suspended p hr
  by_cases hpt : ∃ a, e.op = .setPagetable p a
  · -- `allocproc` prepares the stack of a slot in state `USED`
    obtain ⟨a, hop⟩ := hpt
    obtain ⟨f, hc, he, hspec⟩ := hp.opSpec hop (by simp)
    rw [hspec.1] at hc
    obtain ⟨q, -, -, hstk⟩ := h.exec_fork hc
    have hused : (s.mem.proc p).state = .used :=
      h.fork q (.pagetable p) (mem_of_eq_cons hstk)
    have hnew : (s.commit c rest e).stack (.proc p) = [.forkret] := by
      simp [State.commit, hop, State.setContext]
    rw [hnew, hop, Op.apply_proc_target _ _ rfl]
    exact .used hused (.inr (.inl rfl))
  · have hstk : (s.commit c rest e).stack (.proc p) = s.stack (.proc p) :=
      State.commit_stack_proc (hr c) fun a hop => hpt ⟨a, hop⟩
    rw [hstk]
    rcases hp.touch p with ⟨hs, hch⟩ | ⟨f, hc, he, ht⟩
    · exact hsus.congr hs hch
    · cases ht with
      | keep hs hch => exact hsus.congr hs hch
      | own hme hf hs => exact absurd (h.running_of_proc hc hf hme).1 (hr c)
      | fork pc hf hpc hs =>
        rw [hf] at hc
        obtain ⟨q, -, -, hq⟩ := h.exec_fork hc
        have hok := h.fork q pc (mem_of_eq_cons hq)
        have hidle : Idle (s.stack (.proc p)) := by
          rcases hok.state hpc with hs | hs
          · exact hsus.idle (.inl hs)
          · exact hsus.idle (.inr (.inl hs))
        rcases hs with ⟨hs, -⟩ | hs | ⟨hs, ⟨pid, rfl⟩, -⟩
        · exact .used hs hidle
        · exact .unused hs hidle
        · rw [hok.2.1]
          exact .new hs
      | dispatch hop hs hacq =>
        have hsw := effect_opSpec he
        rw [hop] at hsw
        rw [State.commit_running_self, hsw.2.2] at hr'
        exact absurd rfl hr'
      | wake hv hs hs' => exact hsus.wake hs hs'
      | reap hv hs hs' => exact .unused hs' (hsus.idle (.inr (.inr hs)))

theorem Inv.suspended_step (p : Slot) (hr' : ∀ d, (s.commit c rest e).running d ≠ .proc p) :
    Suspended ((s.commit c rest e).mem.proc p) ((s.commit c rest e).stack (.proc p)) := by
  by_cases hr : s.running c = .proc p
  · exact h.suspended_self hp hr (hr' c)
  · refine h.suspended_other hp (fun d => ?_) (hr' c)
    by_cases hd : d = c
    · rw [hd]
      exact hr
    · rw [← State.commit_running_of_ne (s := s) (c := c) hd]
      exact hr' d

end

/-! ## fork -/

/-- A system call frame is alone above `usertrap`. -/
theorem Nested.not_mem_rest {f : Frame} {rest : List Frame} (h : Nested (f :: rest))
    (hf : f.isCall = true) (hg : g.isCall = true) : g ∉ rest := by
  obtain ⟨pc, hrest⟩ : ∃ pc, rest = [.usertrap pc] := by
    have := h.1
    unfold Frame.nests at this
    split at this
    · cases hf
    · exact this hf
  rw [hrest, List.mem_singleton]
  rintro rfl
  cases hg

section

variable {s : State n} {c : Fin n} {i : Input} {rest : List Frame} {e : Effect}
variable (h : Inv s)
include h

/-- A `fork` that holds a lock is the innermost frame of a running thread. -/
theorem Inv.fork_running (hf : .fork pc ∈ s.stack (.proc p)) (hheld : pc.held ≠ []) :
    ∃ d r, s.running d = .proc p ∧ s.stack (.proc p) = .fork pc :: r := by
  cases hstk : s.stack (.proc p) with
  | nil => rw [hstk] at hf; cases hf
  | cons g r =>
    rw [hstk] at hf
    rcases List.mem_cons.mp hf with rfl | hr
    · by_cases hrun : ∃ d, s.running d = .proc p
      · obtain ⟨d, hd⟩ := hrun
        exact ⟨d, r, hd, rfl⟩
      · -- a suspended process stands in `sleep`, `yield`, `forkret` or `exit`
        have hsus := h.suspended p fun d hd => hrun ⟨d, hd⟩
        rw [hstk] at hsus
        cases hsus with
        | unused _ hi | used _ hi => rcases hi with hi | hi | ⟨_, hi⟩ <;> cases hi
    · have htail := h.tail (.proc p) (.fork pc) (by rw [hstk]; exact hr)
      exact absurd htail hheld

/-- Two activations of `fork` do not work on the same slot: `hne` says that the executing
    frame is not the activation `pc`. -/
theorem Inv.forking_ne {np : Slot} {pc' : ForkPc} (hf : .fork pc ∈ s.stack (.proc p))
    (hne : s.running c = .proc p → .fork pc ∈ rest) (hc : s.cur c = .fork pc' :: rest)
    (hpc' : pc'.forking = some np) : pc.forking ≠ some np := by
  intro hpc
  obtain ⟨q, hr, -, hstk⟩ := h.exec_fork hc
  have hq : .fork pc' ∈ s.stack (.proc q) := mem_of_eq_cons hstk
  obtain rfl := h.forkUniq p q np pc pc' hf hq hpc hpc'
  have hnest := h.nested (.proc p)
  rw [hstk] at hnest
  exact hnest.not_mem_rest rfl rfl (hne hr)

/-- What `fork` knows survives the steps of other frames. -/
theorem Inv.forkOk_keep (hp : Planned s c i rest e) (hf : .fork pc ∈ s.stack (.proc p))
    (hne : s.running c = .proc p → .fork pc ∈ rest) : ForkOk (s.commit c rest e) p pc := by
  have hok := h.fork p pc hf
  have hother : ∀ np pc', s.cur c = .fork pc' :: rest → pc'.forking = some np →
      pc.forking ≠ some np := fun np pc' => h.forking_ne hf hne
  cases hpc : pc.forking with
  | none => cases pc <;> simp_all [ForkPc.forking, ForkOk]
  | some np =>
    have hst := hok.state hpc
    have hnr : s.running c ≠ .proc np := h.not_running_of_forking hf hpc c
    have hstate : ((e.op.apply s.mem).proc np).state = (s.mem.proc np).state := by
      rcases hp.touch np with ⟨hs, -⟩ | ⟨f, hc, he, ht⟩
      · exact hs
      · cases ht with
        | keep hs hch => exact hs
        | own hme hf' hs => exact absurd (h.running_of_proc hc hf' hme).1 hnr
        | fork pc' hf' hpc' hs => exact absurd hpc (hother np pc' (hf' ▸ hc) hpc')
        | dispatch hop hs hacq | wake hv hs hs' | reap hv hs hs' => simp [hs] at hst
    have hstack : (s.commit c rest e).stack (.proc np) = s.stack (.proc np) := by
      refine State.commit_stack_proc hnr fun a hop => ?_
      obtain ⟨f, hc, he, hspec⟩ := hp.opSpec hop (by simp)
      exact hother np (.pagetable np) (hspec.1 ▸ hc) rfl hpc
    have hparent : (s.mem.proc np).parent = some p →
        ((e.op.apply s.mem).proc np).parent = some p := by
      intro hpar
      by_cases hop : e.op = .skip
      · rw [hop]
        exact hpar
      obtain ⟨f, hc, he⟩ := hp.exec_of_op hop
      cases (effect_opSpec he).parentTouch np with
      | keep hk => exact hk.trans hpar
      | setParent q pid hme hop' hf' hv hpar' =>
        exact absurd hpc (hother np _ (hf' ▸ hc) rfl)
      | free pc' hf' hpc' hop' hpar' => exact absurd hpc (hother np pc' (hf' ▸ hc) hpc')
      | reparent q st hme hold hf' hop' hpar' =>
        -- `p` would have to be in `exit` and in `fork` at once
        obtain rfl : p = q := Option.some.inj (hpar.symm.trans hold)
        rw [hf'] at hc
        obtain ⟨hr, hstk⟩ := h.running_of_proc hc (by simp [Frame.onSched]) hme
        have hnest := h.nested (.proc p)
        rw [hstk] at hnest hf
        rcases List.mem_cons.mp hf with hf | hf
        · cases hf
        · exact absurd hf (hnest.not_mem_rest rfl rfl)
      | reap q hme hold hs hs' hpar' => simp [hs] at hst
    cases pc with
    | alloc j => cases hpc
    | found q | trapframe q | pagetable q => cases hpc; exact hstate.trans hok
    | copy q | setParent q pid => cases hpc; exact ⟨hstate.trans hok.1, hstack.trans hok.2⟩
    | relock q pid | runnable q pid =>
      cases hpc
      exact ⟨hstate.trans hok.1, hstack.trans hok.2.1, hparent hok.2.2⟩

end

section

variable {s : State n} {c : Fin n} {i : Input} {rest : List Frame} {e : Effect}
variable (h : Inv s) (hp : Planned s c i rest e)
include hp

/-- The frames below the new ones were on the stack before. -/
theorem Planned.rest_subset (hg : g ∈ rest) : g ∈ s.cur c := by
  cases hp with
  | user p fs hr hc hfs => exact hg
  | kernel fs hne hlock hfs => exact hg
  | exec f rest e hc he => rw [hc]; exact List.mem_cons_of_mem _ hg

/-- A frame after a step is an old one or a frame of this step. -/
theorem Planned.mem_stack (hg : g ≠ .forkret) (hm : g ∈ (s.commit c rest e).stack (.proc p)) :
    (g ∈ s.stack (.proc p) ∧ (s.running c = .proc p → g ∈ rest)) ∨
      (s.running c = .proc p ∧ g ∈ e.frames) := by
  rcases State.commit_stack s c rest e (.proc p) with ⟨np, a, -, -, hstk⟩ | ⟨-, hstk⟩
  · rw [hstk, List.mem_singleton] at hm
    exact absurd hm hg
  · rw [hstk, upd_apply] at hm
    split at hm
    · rename_i hr
      rcases List.mem_append.mp hm with hm | hm
      · exact .inr ⟨hr.symm, hm⟩
      · have hcur := hp.rest_subset hm
        rw [State.cur, ← hr] at hcur
        exact .inl ⟨hcur, fun _ => hm⟩
    · rename_i hr
      exact .inl ⟨hm, fun hr' => absurd hr'.symm hr⟩

include h

/-- A new `fork` frame starts the loop of `allocproc` or continues an activation. -/
theorem Inv.fork_new (hr : s.running c = .proc p) (hf : .fork pc ∈ e.frames) :
    pc = .alloc 0 ∨
      ∃ pc', s.stack (.proc p) = .fork pc' :: rest ∧ ForkNext s.mem (s.proc c) e pc' pc := by
  cases hp with
  | user q fs hr' hc hfs =>
    have := (userEntry_spec q hfs).1 _ hf
    cases this
  | kernel fs hne hlock hfs =>
    have := (kernelEntry_spec (s.running c) hfs).1 _ hf
    cases this
  | exec f rest e hc he =>
    rcases (effect_frameSpec (h.ready hc) he).fork pc hf with hpc | ⟨pc', hf', hnext⟩
    · exact .inl hpc
    · refine .inr ⟨pc', ?_, hnext⟩
      rw [← hr, ← State.cur, hc, hf']

theorem Inv.fork_step (p : Slot) (pc : ForkPc) (hf : .fork pc ∈ (s.commit c rest e).stack (.proc p)) :
    ForkOk (s.commit c rest e) p pc := by
  rcases hp.mem_stack (by simp) hf with ⟨hf, hne⟩ | ⟨hr, hf⟩
  · exact h.forkOk_keep hp hf hne
  · rcases h.fork_new hp hr hf with rfl | ⟨pc', hstk, hnext⟩
    · trivial
    · have hmem : Frame.fork pc' ∈ s.stack (.proc p) := mem_of_eq_cons hstk
      have hok := h.fork p pc' hmem
      have hme := h.thread c p hr
      -- the stack of the new process is not the one this step works on
      have hstack : ∀ np, pc'.forking = some np → (∀ a, e.op ≠ .setPagetable np a) →
          (s.commit c rest e).stack (.proc np) = s.stack (.proc np) := fun np hnp hop =>
        State.commit_stack_proc (h.not_running_of_forking hmem hnp c) hop
      cases hnext with
      | alloc j hop => trivial
      | found np hop hs hacq =>
        show ((e.op.apply s.mem).proc np).state = .unused
        rw [hop]
        exact hs
      | trapframe np hop =>
        show ((e.op.apply s.mem).proc np).state = .used
        rw [hop, Op.apply_proc_target _ _ rfl]
        rfl
      | pagetable np a hop =>
        show ((e.op.apply s.mem).proc np).state = .used
        rw [hop, Op.apply_proc_target _ _ rfl]
        exact hok
      | copy np a hop =>
        refine ⟨?_, by simp [State.commit, hop, State.setContext]⟩
        show ((e.op.apply s.mem).proc np).state = .used
        rw [hop, Op.apply_proc_target _ _ rfl]
        exact hok
      | setParent q np hme' hop =>
        refine ⟨?_, (hstack np rfl (by simp [hop])).trans hok.2⟩
        show ((e.op.apply s.mem).proc np).state = .used
        rw [hop, Op.apply_proc_target _ _ rfl]
        exact hok.1
      | relock q np pid hme' hop =>
        obtain rfl : p = q := Option.some.inj (hme.symm.trans hme')
        refine ⟨?_, (hstack np rfl (by simp [hop])).trans hok.2, ?_⟩
        · show ((e.op.apply s.mem).proc np).state = .used
          rw [hop, Op.apply_proc_target _ _ rfl]
          exact hok.1
        · show ((e.op.apply s.mem).proc np).parent = some p
          rw [hop, Op.apply_proc_target _ _ rfl]
          rfl
      | runnable np pid hop =>
        refine ⟨?_, (hstack np rfl (by simp [hop])).trans hok.2.1, ?_⟩
        · show ((e.op.apply s.mem).proc np).state = .used
          rw [hop]
          exact hok.1
        · show ((e.op.apply s.mem).proc np).parent = some p
          rw [hop]
          exact hok.2.2

/-- A `fork` that works on `np` after a step did so before, or it has just found `np`. -/
theorem Inv.forking_before {np : Slot} (hf : .fork pc ∈ (s.commit c rest e).stack (.proc p))
    (hpc : pc.forking = some np) :
    (∃ pc', .fork pc' ∈ s.stack (.proc p) ∧ pc'.forking = some np) ∨
      (s.running c = .proc p ∧ (s.mem.proc np).state = .unused ∧
        e.acquire = some (.proc np)) := by
  rcases hp.mem_stack (by simp) hf with ⟨hf, -⟩ | ⟨hr, hf⟩
  · exact .inl ⟨pc, hf, hpc⟩
  · rcases h.fork_new hp hr hf with rfl | ⟨pc', hstk, hnext⟩
    · cases hpc
    · have hmem : Frame.fork pc' ∈ s.stack (.proc p) := mem_of_eq_cons hstk
      cases hnext with
      | alloc j hop => cases hpc
      | found q hop hs hacq => cases hpc; exact .inr ⟨hr, hs, hacq⟩
      | trapframe | pagetable | copy | setParent | relock | runnable =>
        exact .inl ⟨_, hmem, hpc⟩

omit hp in
/-- A slot that `allocproc` has just found is not in use by another `fork`. -/
theorem Inv.not_forking_of_acquire (hb : s.blocked e = false) {q np : Slot}
    (hs : (s.mem.proc np).state = .unused) (hacq : e.acquire = some (.proc np))
    (hf : .fork pc ∈ s.stack (.proc q)) : pc.forking ≠ some np := by
  intro hpc
  have hok := h.fork q pc hf
  have hfree := State.lock_of_acquire hb hacq
  cases pc with
  | alloc j => cases hpc
  | found r =>
    cases hpc
    obtain ⟨d, rr, hd, hstk⟩ := h.fork_running hf (by simp [ForkPc.held])
    have hl := (h.lock (.proc np) d).mpr (by
      rw [State.cur, hd, hstk]
      simp [topHeld, Frame.held, ForkPc.held])
    rw [hfree] at hl
    cases hl
  | trapframe r | pagetable r => cases hpc; rw [show _ = _ from hok] at hs; cases hs
  | copy r | setParent r _ | relock r _ | runnable r _ =>
    cases hpc
    rw [hok.1] at hs
    cases hs

theorem Inv.forkUniq_step (hb : s.blocked e = false) (p q np : Slot) (pc pc' : ForkPc)
    (hf : .fork pc ∈ (s.commit c rest e).stack (.proc p))
    (hf' : .fork pc' ∈ (s.commit c rest e).stack (.proc q)) (hpc : pc.forking = some np)
    (hpc' : pc'.forking = some np) : p = q := by
  rcases h.forking_before hp hf hpc with ⟨pc₁, h1, hp1⟩ | ⟨hr1, hs1, ha1⟩
  · rcases h.forking_before hp hf' hpc' with ⟨pc₂, h2, hp2⟩ | ⟨hr2, hs2, ha2⟩
    · exact h.forkUniq p q np pc₁ pc₂ h1 h2 hp1 hp2
    · exact absurd hp1 (h.not_forking_of_acquire hb hs2 ha2 h1)
  · rcases h.forking_before hp hf' hpc' with ⟨pc₂, h2, hp2⟩ | ⟨hr2, hs2, ha2⟩
    · exact absurd hp2 (h.not_forking_of_acquire hb hs1 ha1 h2)
    · exact Thread.proc.inj (hr1.symm.trans hr2)

end

/-! ## Runs -/

/-- The only kernel stack in use at boot is the one `allocproc` prepared. -/
theorem mem_boot_stack {b : Boot} (h : g ∈ (State.boot n b).stack (.proc p)) : g = .forkret := by
  by_cases hp : p = 0 <;> simp_all [State.boot]

theorem boot_proc_of_ne (b : Boot) {z : Slot} (hz : z ≠ 0) :
    (State.boot n b).mem.proc z = Proc.zero := by
  simp [State.boot, userinit, procinit, Op.apply, Op.target, hz]

theorem boot_state_init (b : Boot) : ((State.boot n b).mem.proc 0).state = .runnable := by
  simp [State.boot, userinit]

/-- The invariant holds when the harts leave `main`. -/
theorem inv_boot (b : Boot) : Inv (State.boot n b) := by
  have hstack : ∀ t, (State.boot n b).stack t = [.main] ∧ (∃ c, t = .sched c) ∨
      (State.boot n b).stack t = [.forkret] ∧ t = .proc 0 ∨
      (State.boot n b).stack t = [] ∧ ∃ p, t = .proc p ∧ p ≠ 0 := by
    intro t
    cases t with
    | sched c => exact .inl ⟨rfl, c, rfl⟩
    | proc p =>
      by_cases hp : p = 0
      · exact .inr (.inl ⟨by simp [State.boot, hp], by rw [hp]⟩)
      · exact .inr (.inr ⟨by simp [State.boot, hp], p, rfl, hp⟩)
  have hfork : ∀ p pc, Frame.fork pc ∉ (State.boot n b).stack (.proc p) := by
    intro p pc
    rcases hstack (.proc p) with ⟨-, _, h⟩ | ⟨h, -⟩ | ⟨h, -⟩
    · cases h
    · simp [h]
    · simp [h]
  constructor
  · intro L c
    simp [State.boot, State.cur, topHeld, Frame.held]
  · intro t
    rcases hstack t with ⟨h, -⟩ | ⟨h, -⟩ | ⟨h, -⟩ <;> simp [h]
  · intro t
    rcases hstack t with ⟨h, c, rfl⟩ | ⟨h, rfl⟩ | ⟨h, -⟩ <;>
      simp [h, Frame.wf, Frame.onSched, Frame.onProc]
  · intro t
    rcases hstack t with ⟨h, -⟩ | ⟨h, -⟩ | ⟨h, -⟩ <;>
      simp [h, Nested, Frame.nests, Frame.isCall]
  · intro c d h
    exact (Thread.sched.inj h).symm
  · intro c
    rfl
  · intro c p h
    cases h
  · intro c d p h
    cases h
  · intro c p h
    cases h
  · intro p _
    rcases hstack (.proc p) with ⟨-, _, h⟩ | ⟨h, h0⟩ | ⟨h, q, hq, h0⟩
    · cases h
    · cases h0
      rw [h]
      exact .new (by simp [State.boot, userinit])
    · cases hq
      rw [h]
      refine .unused ?_ (.inl rfl)
      simp [State.boot, userinit, h0, Op.apply, Op.target, procinit, Proc.zero]
  · intro p pc h
    exact absurd h (hfork p pc)
  · intro p q np pc pc' h
    exact absurd h (hfork p pc)

/-- One step keeps the invariant. -/
theorem Inv.step {s s' : State n} {x : Fin n × Input} (h : Inv s) (hs : s.step x = some s') :
    Inv s' := by
  obtain ⟨rest, e, hp, hb, -, rfl⟩ := h.step_commit hs
  have hm := h.move hp
  exact
    { lock := h.lock_step hp hb
      tail := State.commit_stack_ind (P := fun t stk => ∀ g ∈ stk.tail, g.held t = [])
        (by simp) hm.tail h.tail
      wf := State.commit_stack_ind (P := fun t stk => ∀ g ∈ stk, g.wf t)
        (by simp [Frame.wf, Frame.onProc]) hm.wf h.wf
      nested := State.commit_stack_ind (P := fun _ stk => Nested stk)
        (by simp [Nested, Frame.nests, Frame.isCall]) hm.nested h.nested
      own := h.own_step
      back := h.back_step hp
      thread := h.thread_step hp
      uniq := h.uniq_step hp hb
      active := h.active_step hp hb
      suspended := h.suspended_step hp
      fork := h.fork_step hp
      forkUniq := h.forkUniq_step hp hb }

/-- The invariant holds in every reachable state. -/
theorem inv_reachable {s : State n} (hr : (kernel n).Reachable s) : Inv s := by
  refine TransitionSystem.ReachableBy.induct ?_ ?_ hr
  · rintro s ⟨b, rfl⟩
    exact inv_boot b
  · intro s x s' _ h _ hs
    exact h.step hs

end Xv6
