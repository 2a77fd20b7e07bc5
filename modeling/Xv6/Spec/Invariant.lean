import Xv6.Spec.FrameSpec

/-!
# The scheduling invariant

`Inv` holds in every reachable state: locks are held exactly by the innermost frames of
running threads, `c->proc` mirrors the scheduler stack of its hart, a process that a hart
runs is `RUNNING` up to the last moment before `swtch`, a process that no hart runs is
parked where `swtch` or `forkret` will resume it, and a slot under construction belongs to
a single `fork`.
-/

namespace Xv6

variable {n : Nat}

/-! ## What the state of a process says about its stack -/

/-- A process on a hart is `RUNNING` unless it is about to switch away. -/
def Active (x : Proc) : List Frame → Prop
  | .yield .swtch :: _ => x.state = .runnable
  | .sleep ch _ .swtch :: _ => x.state = .sleeping ∧ x.chan = some ch
  | .exit .swtch :: _ => x.state = .zombie
  | .exit .dead :: _ => False
  | _ => x.state = .running

/-- The stack of a slot that holds no process: never used, prepared by `allocproc`, or left
    behind by `exit`. -/
def Idle (stk : List Frame) : Prop :=
  stk = [] ∨ stk = [.forkret] ∨ ∃ rest, stk = .exit .dead :: rest

/-- A process on no hart waits where the next dispatch resumes it. -/
inductive Suspended (x : Proc) : List Frame → Prop
  | unused {stk : List Frame} (hs : x.state = .unused) (hi : Idle stk) : Suspended x stk
  | used {stk : List Frame} (hs : x.state = .used) (hi : Idle stk) : Suspended x stk
  | sleeping {ch : Chan} {lk : Option Lock} {rest : List Frame} (hs : x.state = .sleeping)
      (hch : x.chan = some ch) : Suspended x (.sleep ch lk .wake :: rest)
  | woken {ch : Chan} {lk : Option Lock} {rest : List Frame} (hs : x.state = .runnable) :
      Suspended x (.sleep ch lk .wake :: rest)
  | yielded {rest : List Frame} (hs : x.state = .runnable) : Suspended x (.yield .release :: rest)
  | new (hs : x.state = .runnable) : Suspended x [.forkret]
  | zombie {rest : List Frame} (hs : x.state = .zombie) : Suspended x (.exit .dead :: rest)

variable {x : Proc} {f : Frame} {rest stk fs : List Frame} {p : Slot} {c : Fin n} {t : Thread n}
  {i : Input}

theorem Active.of_plain (hf : f.plain = true) :
    Active x (f :: rest) ↔ x.state = .running := by
  unfold Active
  split <;> simp_all [Frame.plain]

theorem Active.congr {y : Proc} (hs : y.state = x.state) (hch : y.chan = x.chan) (h : Active x stk) :
    Active y stk := by
  unfold Active at h ⊢
  split at h <;> simp_all

/-- Before `swtch` the process holds its own lock. -/
theorem Active.held (h : Active x stk) (hs : x.state ≠ .running) :
    .proc p ∈ topHeld (.proc p : Thread n) stk := by
  unfold Active at h
  split at h
  · simp [topHeld, Frame.held, YieldPc.held, Thread.ownLock]
  · simp [topHeld, Frame.held, SleepPc.held, Thread.ownLock]
  · simp [topHeld, Frame.held, ExitPc.held, Thread.ownLock]
  · exact h.elim
  · exact absurd h hs

/-- A process on a hart is neither unused nor under construction. -/
theorem Active.created (h : Active x stk) :
    x.state ≠ .unused ∧ x.state ≠ .used := by
  unfold Active at h
  split at h
  · simp [h]
  · simp [h.1]
  · simp [h]
  · exact h.elim
  · simp [h]

/-- `swtch` turns an active process into a suspended one. -/
theorem Active.suspended {g : Frame} (h : Active x (f :: rest)) (hr : Resumes f g) :
    Suspended x (g :: rest) := by
  cases hr with
  | yield => exact .yielded h
  | sleep ch lk => exact .sleeping h.1 h.2
  | exit => exact .zombie h

theorem Suspended.not_running (h : Suspended x stk) :
    x.state ≠ .running := by
  cases h <;> simp_all

theorem Suspended.congr {y : Proc} (hs : y.state = x.state) (hch : y.chan = x.chan)
    (h : Suspended x stk) : Suspended y stk := by
  cases h with
  | unused h hi => exact .unused (hs.trans h) hi
  | used h hi => exact .used (hs.trans h) hi
  | sleeping h hc => exact .sleeping (hs.trans h) (hch.trans hc)
  | woken h => exact .woken (hs.trans h)
  | yielded h => exact .yielded (hs.trans h)
  | new h => exact .new (hs.trans h)
  | zombie h => exact .zombie (hs.trans h)

/-- A `RUNNABLE` process resumes at a frame that holds its own lock. -/
theorem Suspended.resume (h : Suspended x stk) (hs : x.state = .runnable) :
    ∃ f rest, stk = f :: rest ∧ f.plain = true ∧ f.held (.proc p : Thread n) = [.proc p] := by
  cases h with
  | unused h _ | used h _ | sleeping h _ | zombie h => simp [h] at hs
  | woken h | yielded h | new h => exact ⟨_, _, rfl, rfl, rfl⟩

theorem Suspended.wake {y : Proc} (h : Suspended x stk) (hx : x.state = .sleeping)
    (hy : y.state = .runnable) : Suspended y stk := by
  cases h with
  | unused h _ | used h _ | woken h | yielded h | new h | zombie h => simp [h] at hx
  | sleeping h _ => exact .woken hy

/-! ## fork -/

/-- What `fork` by `p` knows about the slot it is working on. -/
def ForkOk (s : State n) (p : Slot) : ForkPc → Prop
  | .alloc _ => True
  | .found np => (s.mem.proc np).state = .unused
  | .trapframe np | .pagetable np => (s.mem.proc np).state = .used
  | .copy np | .setParent np _ =>
    (s.mem.proc np).state = .used ∧ s.stack (.proc np) = [.forkret]
  | .relock np _ | .runnable np _ =>
    (s.mem.proc np).state = .used ∧ s.stack (.proc np) = [.forkret] ∧
      (s.mem.proc np).parent = some p

variable {s : State n} {pc : ForkPc} {np : Slot}

/-- The slot of an unfinished `fork` holds no process yet. -/
theorem ForkOk.state (h : ForkOk s p pc)
    (hpc : pc.forking = some np) :
    (s.mem.proc np).state = .unused ∨ (s.mem.proc np).state = .used := by
  cases pc with
  | alloc i => cases hpc
  | found q => cases hpc; exact .inl h
  | trapframe q | pagetable q => cases hpc; exact .inr h
  | copy q | setParent q pid | relock q pid | runnable q pid => cases hpc; exact .inr h.1

/-- Once `allocproc` has taken the slot it is `USED`. -/
theorem ForkOk.used (h : ForkOk s p pc)
    (hpc : pc.forking = some np) (hne : pc ≠ .found np) : (s.mem.proc np).state = .used := by
  cases pc with
  | alloc i => cases hpc
  | found q => cases hpc; exact absurd rfl hne
  | trapframe q | pagetable q => cases hpc; exact h
  | copy q | setParent q pid | relock q pid | runnable q pid => cases hpc; exact h.1

/-- The state of the machine between two steps. -/
structure Inv (s : State n) : Prop where
  lock : ∀ L c, s.lock L = some c ↔ L ∈ topHeld (s.running c) (s.cur c)
  tail : ∀ t, ∀ g ∈ (s.stack t).tail, g.held t = []
  wf : ∀ t, ∀ g ∈ s.stack t, g.wf t
  nested : ∀ t, Nested (s.stack t)
  own : ∀ c d, s.running c = .sched d → d = c
  back : ∀ c, s.proc c = backSlot (s.stack (.sched c))
  thread : ∀ c p, s.running c = .proc p → s.proc c = some p
  uniq : ∀ c d p, s.proc c = some p → s.proc d = some p → c = d
  active : ∀ c p, s.running c = .proc p → Active (s.mem.proc p) (s.stack (.proc p))
  suspended : ∀ p, (∀ c, s.running c ≠ .proc p) →
    Suspended (s.mem.proc p) (s.stack (.proc p))
  fork : ∀ p pc, .fork pc ∈ s.stack (.proc p) → ForkOk s p pc
  forkUniq : ∀ p q np pc pc', .fork pc ∈ s.stack (.proc p) → .fork pc' ∈ s.stack (.proc q) →
    pc.forking = some np → pc'.forking = some np → p = q

/-! ## Consequences -/

variable {s : State n}

/-- No thread runs on two harts. -/
theorem Inv.running_inj (h : Inv s) {d : Fin n} (hcd : s.running c = s.running d) : c = d := by
  cases hr : s.running d with
  | sched e => exact (h.own c e (hcd.trans hr)).symm.trans (h.own d e hr)
  | proc p => exact h.uniq c d p (h.thread c p (hcd.trans hr)) (h.thread d p hr)

theorem Inv.runs (h : Inv s) (hc : s.cur c = f :: rest) : Runs (s.running c) (s.proc c) f := by
  have hwf : f.wf (s.running c) := h.wf _ f (by rw [← State.cur, hc]; simp)
  refine ⟨hwf, ?_⟩
  cases hr : s.running c with
  | proc p => exact h.thread c p hr
  | sched d =>
    obtain rfl := h.own c d hr
    have hb := h.back d
    rw [← hr, ← State.cur, hc] at hb
    unfold backSlot at hb
    split at hb
    · rename_i l p _ hf
      cases hf
      exact .inr ⟨l, .back p, rfl⟩
    · exact .inl hb

/-- A frame that only occurs on process stacks runs on the stack of `myproc()`. -/
theorem Inv.running_of_not_onSched (h : Inv s) (hc : s.cur c = f :: rest) (hf : ¬ f.onSched) :
    ∃ p, s.running c = .proc p ∧ s.proc c = some p ∧ s.stack (.proc p) = f :: rest := by
  have hr := h.runs hc
  cases ht : s.running c with
  | sched d => exact absurd (by simpa [Frame.wf, ht] using hr.1) hf
  | proc p => exact ⟨p, rfl, h.thread c p ht, by rw [← hc, State.cur, ht]⟩

/-- The other direction: `myproc()` is the process whose thread runs. -/
theorem Inv.running_of_proc (h : Inv s) (hc : s.cur c = f :: rest) (hf : ¬ f.onSched)
    (hp : s.proc c = some p) : s.running c = .proc p ∧ s.stack (.proc p) = f :: rest := by
  obtain ⟨q, hq, hpq, hstk⟩ := h.running_of_not_onSched hc hf
  obtain rfl : p = q := Option.some.inj (hp.symm.trans hpq)
  exact ⟨hq, hstk⟩

/-- Outside its loops the scheduler thread runs without a process. -/
theorem Inv.running_of_not_scheduler (h : Inv s) (hc : s.cur c = f :: rest)
    (hf : ∀ l pc, f ≠ .scheduler l pc) (hp : s.proc c = some p) : s.running c = .proc p := by
  have hr := (h.runs hc).2
  cases ht : s.running c with
  | proc q =>
    rw [ht] at hr
    rw [Option.some.inj (hp.symm.trans hr)]
  | sched d =>
    rw [ht] at hr
    rcases hr with hr | ⟨l, pc, hr⟩
    · exact nomatch hp.symm.trans hr
    · exact absurd hr (hf l pc)

theorem Inv.ready (h : Inv s) (hc : s.cur c = f :: rest) : Ready s.mem (s.proc c) f := by
  refine ⟨?_, ?_, ?_⟩
  · intro p hp hf
    have hns : ¬ f.onSched := by
      intro hs
      unfold Frame.atSwtch at hf
      split at hf <;> simp_all [Frame.onSched]
    obtain ⟨hr, hstk⟩ := h.running_of_proc hc hns hp
    have ha := h.active c p hr
    rw [hstk] at ha
    unfold Frame.atSwtch at hf
    split at hf
    · simp [show _ = _ from ha]
    · simp [show _ = _ from ha.1]
    · simp [show _ = _ from ha]
    · cases hf
  · rintro np pid rfl
    obtain ⟨p, hr, -, hstk⟩ := h.running_of_not_onSched hc (by simp [Frame.onSched])
    obtain ⟨hused, -, hpar⟩ := h.fork p (.runnable np pid) (by simp [hstk])
    have ha := h.active c p hr
    intro hself
    obtain rfl : np = p := Option.some.inj (hself.symm.trans hpar)
    exact ha.created.2 hused
  · rintro rfl
    obtain ⟨p, hr, -, hstk⟩ := h.running_of_not_onSched hc (by simp [Frame.onSched])
    have ha := h.active c p hr
    rw [hstk] at ha
    exact ha

/-! ## Trap entries -/

/-- The frames that a trap pushes. -/
def Frame.handler : Frame → Bool
  | .usertrap _ | .kerneltrap _ | .clockintr .acquire | .wakeup _ _ => true
  | _ => false

theorem handler_spec {g : Frame} (hg : g.handler = true) :
    g.held t = [] ∧ g.plain = true ∧ backSlot [g] = none ∧ ∀ pc, Frame.fork pc ≠ g := by
  unfold Frame.handler at hg
  split at hg <;> simp_all [Frame.held, ClockPc.held, Frame.plain, backSlot]

theorem userEntry_spec (p : Slot) (h : State.userEntry c i = some fs) :
    (∀ g ∈ fs, g.handler = true) ∧ (∀ g ∈ fs, g.onProc p) ∧ Nested fs := by
  unfold State.userEntry State.timerFrames at h
  split at h
  · cases h; simp [Frame.handler, Frame.onProc, Nested, Frame.nests]
  · cases h; simp [Frame.handler, Frame.onProc, Nested, Frame.nests]
  · cases h; split <;> simp [Frame.handler, Frame.onProc, Nested, Frame.nests, Frame.isCall]
  · cases h; simp [Frame.handler, Frame.onProc, Nested, Frame.nests, Frame.isCall]
  · cases h

theorem kernelEntry_spec (t : Thread n) (h : State.kernelEntry c i = some fs) :
    (∀ g ∈ fs, g.handler = true) ∧ (∀ g ∈ fs, g.wf t) ∧
      ∀ rest, Nested rest → Nested (fs ++ rest) := by
  unfold State.kernelEntry State.timerFrames at h
  split at h
  · cases h
    split <;> cases t <;>
      simp [Frame.handler, Frame.wf, Frame.onProc, Frame.onSched, Nested, Frame.nests, Frame.isCall]
  · cases h
    cases t <;>
      simp [Frame.handler, Frame.wf, Frame.onProc, Frame.onSched, Nested, Frame.nests, Frame.isCall]
  · cases h

/-! ## What a planned step does to its own stack -/

/-- The lock discipline and the well-formedness of a step, on the whole stack. -/
structure Move (s : State n) (c : Fin n) (rest : List Frame) (e : Effect) : Prop where
  enter : ∀ L, L ∈ e.visit.toList ∨ L ∈ e.acquire.toList →
    L ∉ topHeld (s.running c) (s.cur c)
  leave : ∀ L, L ∈ e.release.toList ∨ L ∈ e.holding.toList →
    L ∈ topHeld (s.running c) (s.cur c)
  top : ∀ L, L ∈ topHeld (s.running c) (e.frames ++ rest) ↔
    (L ∈ topHeld (s.running c) (s.cur c) ∧ L ∉ e.release.toList) ∨ L ∈ e.acquire.toList
  tail : ∀ g ∈ (e.frames ++ rest).tail, g.held (s.running c) = []
  wf : ∀ g ∈ e.frames ++ rest, g.wf (s.running c)
  nested : Nested (e.frames ++ rest)

theorem topHeld_append (hrest : ∀ g ∈ rest, g.held t = []) :
    topHeld t (fs ++ rest) = topHeld t fs := by
  cases fs with
  | cons f fs => rfl
  | nil =>
    cases rest with
    | nil => rfl
    | cons g rest => exact hrest g List.mem_cons_self

theorem held_tail_append (hfs : ∀ g ∈ fs.tail, g.held t = []) (hrest : ∀ g ∈ rest, g.held t = []) :
    ∀ g ∈ (fs ++ rest).tail, g.held t = [] := by
  cases fs with
  | nil => exact fun g hg => hrest g (List.mem_of_mem_tail hg)
  | cons f fs =>
    intro g hg
    rcases List.mem_append.mp hg with hg | hg
    · exact hfs g hg
    · exact hrest g hg

theorem held_of_topHeld_nil (htop : topHeld t stk = []) (htail : ∀ g ∈ stk.tail, g.held t = []) :
    ∀ g ∈ stk, g.held t = [] := by
  cases stk with
  | nil => exact fun _ hg => nomatch hg
  | cons f rest => exact List.forall_mem_cons.mpr ⟨htop, htail⟩

/-- A trap pushes frames that hold nothing on a stack that holds nothing. -/
theorem Inv.move_trap (h : Inv s) (htop : topHeld (s.running c) (s.cur c) = [])
    (hfs : ∀ g ∈ fs, g.handler = true) (hwf : ∀ g ∈ fs, g.wf (s.running c))
    (hnest : Nested (fs ++ s.cur c)) : Move s c (s.cur c) { frames := fs } := by
  have hcur : ∀ g ∈ s.cur c, g.held (s.running c) = [] :=
    held_of_topHeld_nil htop (h.tail _)
  have hheld : ∀ g ∈ fs, g.held (s.running c) = [] := fun g hg => (handler_spec (hfs g hg)).1
  refine ⟨by simp, by simp, ?_, ?_, ?_, hnest⟩
  · have hnil : topHeld (s.running c) (fs ++ s.cur c) = [] := by
      rw [topHeld_append hcur]
      cases fs with
      | nil => rfl
      | cons g fs => exact hheld g List.mem_cons_self
    simp [hnil, htop]
  · exact held_tail_append (fun g hg => hheld g (List.mem_of_mem_tail hg)) hcur
  · intro g hg
    rcases List.mem_append.mp hg with hg | hg
    · exact hwf g hg
    · exact h.wf _ g hg

theorem Inv.move (h : Inv s) {e : Effect} (hp : Planned s c i rest e) : Move s c rest e := by
  cases hp with
  | user p fs hr hc hfs =>
    obtain ⟨hh, hwf, hnest⟩ := userEntry_spec p hfs
    refine h.move_trap (by rw [hc]; rfl) hh ?_ (by rw [hc, List.append_nil]; exact hnest)
    rw [hr]
    exact hwf
  | kernel fs hne hlock hfs =>
    obtain ⟨hh, hwf, hnest⟩ := kernelEntry_spec (s.running c) hfs
    exact h.move_trap hlock hh hwf (hnest _ (h.nested _))
  | exec f rest e hc he =>
    have hl := effect_lockSpec (h.runs hc) (h.ready hc) he
    have hf := effect_frameSpec (h.ready hc) he
    have hrest : ∀ g ∈ rest, g.held (s.running c) = [] := by
      have := h.tail (s.running c)
      rwa [← State.cur, hc] at this
    refine ⟨?_, ?_, ?_, ?_, ?_, ?_⟩
    · rw [hc]
      exact hl.enter
    · rw [hc]
      exact hl.leave
    · intro L
      rw [hc, topHeld_append hrest]
      exact hl.top L
    · exact held_tail_append hl.tail hrest
    · intro g hg
      rcases List.mem_append.mp hg with hg | hg
      · exact hl.wf g hg
      · exact h.wf _ g (by rw [← State.cur, hc]; exact List.mem_cons_of_mem _ hg)
    · apply hf.nested
      rw [← hc]
      exact h.nested _

/-- No lock operation of the process subsystem panics. -/
theorem Inv.panics_eq_false (h : Inv s) {e : Effect} (hp : Planned s c i rest e) :
    s.panics c e = false := by
  have hm := h.move hp
  simp only [State.panics, Bool.or_eq_false_iff]
  have henter : ∀ L, L ∈ e.visit.toList ∨ L ∈ e.acquire.toList → s.lock L ≠ some c :=
    fun L hL hc => hm.enter L hL ((h.lock L c).mp hc)
  have hleave : ∀ L, L ∈ e.release.toList ∨ L ∈ e.holding.toList → s.lock L = some c :=
    fun L hL => (h.lock L c).mpr (hm.leave L hL)
  refine ⟨⟨⟨?_, ?_⟩, ?_⟩, ?_⟩
  · cases hv : e.visit with
    | none => rfl
    | some L => simpa using henter L (by simp [hv])
  · cases hv : e.acquire with
    | none => rfl
    | some L => simpa using henter L (by simp [hv])
  · cases hv : e.release with
    | none => rfl
    | some L => simpa using hleave L (by simp [hv])
  · cases hv : e.holding with
    | none => rfl
    | some L => simpa using hleave L (by simp [hv])

/-- Under the invariant every step commits. -/
theorem Inv.step_commit (h : Inv s) {s' : State n} {x : Fin n × Input} (hs : s.step x = some s') :
    ∃ rest e, Planned s x.1 x.2 rest e ∧ s.blocked e = false ∧ s.op x = e.op ∧
      s' = s.commit x.1 rest e := by
  obtain ⟨rest, e, hp, ⟨hpan, -⟩ | ⟨-, hb, hop, hs'⟩⟩ := step_cases hs
  · rw [h.panics_eq_false hp] at hpan
    cases hpan
  · exact ⟨rest, e, hp, hb, hop, hs'⟩

end Xv6
