import Xv6.Spec.Reaping
import Xv6.Spec.CallGraph

/-!
# Time accounting

`clockintr` advances `ticks` on hart 0 only. `update_ticks` books a tick to the counters of
all processes, but it runs later, on every hart, and only if the interrupted process has not
been killed. `TickLog` counts the ticks that a process has seen in each state; `ticks_booked`
says under which conditions on the steps of a run the counters agree with it.

A tick is booked slot by slot. Between `ticks++` and the booking of a slot the tick is
pending for that slot (`State.pending`).
-/

namespace Xv6

open TransitionSystem

variable {n : Nat}

/-- The three counters of `struct proc`. -/
inductive Counter where
  | rtime
  | retime
  | stime
deriving DecidableEq

def Proc.time (x : Proc) : Counter → Int
  | .rtime => x.rtime
  | .retime => x.retime
  | .stime => x.stime

/-- The counter of a process state. -/
def ProcState.counter : ProcState → Option Counter
  | .running => some .rtime
  | .runnable => some .retime
  | .sleeping => some .stime
  | .unused | .used | .zombie => none

/-! ## History -/

/-- How often `ticks` was incremented while the process in a slot was in the state of a
    counter; `allocproc` starts again at 0. -/
def recordTick (m : Mem) (h : Slot → Counter → Nat) : Op → Slot → Counter → Nat
  | .tick => fun z k => if (m.proc z).state.counter = some k then h z k + 1 else h z k
  | .setPagetable np _ => upd h np fun _ => 0
  | _ => h

/-- The kernel together with the ticks that every process has seen. -/
def tickLog (n : Nat) : TransitionSystem (State n × (Slot → Counter → Nat)) (Fin n × Input) :=
  (kernel n).observe (fun _ _ => 0) fun s x h => recordTick s.mem h (s.op x)

/-! ## Pending ticks -/

/-- The stack that hart 0 is executing on. -/
def State.tickStack (s : State n) : List Frame :=
  if h : 0 < n then s.cur ⟨0, h⟩ else []

/-- Hart 0 has incremented `ticks` and has not finished with slot `z`. -/
def chargingIn (z : Slot) : List Frame → Bool
  | .clockintr (.wakeup _) :: _ | .usertrap (.killed .timer) :: _ | .usertrap .update :: _
  | .kerneltrap .update :: _ => true
  | .updateTicks i _ :: _ => i ≤ z.val
  | _ => false

/-- … and has not booked the tick to it: `update_ticks` tests for `SLEEPING` before it takes
    the lock. -/
def pendingIn (m : Mem) (z : Slot) : List Frame → Bool
  | .updateTicks i true :: _ => i < z.val ∨ i = z.val ∧ (m.proc z).state ≠ .sleeping
  | stk => chargingIn z stk

def State.charging (s : State n) (z : Slot) : Bool := chargingIn z s.tickStack

def State.pending (s : State n) (z : Slot) : Bool := pendingIn s.mem z s.tickStack

/-- The tick that is still to be booked to a counter. -/
def State.due (s : State n) (z : Slot) (k : Counter) : Int :=
  if s.pending z = true ∧ (s.mem.proc z).state.counter = some k then 1 else 0

/-! ## The condition -/

def Input.isTimer : Input → Bool
  | .timer => true
  | _ => false

/-- The process that a timer interrupt has stopped is found to be killed. -/
def State.killedInTimer (s : State n) (c : Fin n) : Bool :=
  match s.running c, s.cur c with
  | .proc p, .usertrap (.killed .timer) :: _ => (s.mem.proc p).killed
  | _, _ => false

/-- The process that a step works on stays in the state of the same counter while a tick is
    being booked to it. -/
def State.keepsCounter (s : State n) (i : Fin n × Input) : Bool :=
  (s.op i).target.all fun z =>
    !s.charging z ||
      (((s.op i).apply s.mem).proc z).state.counter = (s.mem.proc z).state.counter

/-- Only hart 0 takes timer interrupts, the process it stops has not been killed, and no
    process moves between the states of different counters while a tick is being booked to
    it. -/
def Accounted (x : State n × (Slot → Counter → Nat)) (i : Fin n × Input) : Prop :=
  (i.2.isTimer = true → i.1.val = 0) ∧ x.1.killedInTimer i.1 = false ∧
    x.1.keepsCounter i = true

instance (x : State n × (Slot → Counter → Nat)) (i : Fin n × Input) : Decidable (Accounted x i) :=
  inferInstanceAs (Decidable (_ ∧ _ ∧ _))

variable {z : Slot} {s : State n}

theorem State.counter_of_keepsCounter {i : Fin n × Input}
    (h : s.keepsCounter i = true) (hz : s.charging z = true) :
    (((s.op i).apply s.mem).proc z).state.counter = (s.mem.proc z).state.counter := by
  by_cases ht : (s.op i).target = some z
  · simpa [State.keepsCounter, ht, hz] using h
  · rw [Op.apply_proc_of_ne _ _ ht]

/-! ## The handler -/

/-- The frames between a timer interrupt and the end of `update_ticks`. -/
def Frame.timed : Frame → Bool
  | .clockintr _ | .updateTicks _ _ | .usertrap (.killed .timer) | .usertrap .update
  | .kerneltrap .update => true
  | _ => false

def Quiet (stk : List Frame) : Prop := ∀ g ∈ stk, g.timed = false

/-- Where these frames stand on a stack: `clockintr` above its handler, the others alone. -/
def TimerStack : List Frame → Prop
  | .clockintr _ :: rest =>
    ∃ f r, rest = f :: r ∧ (f = .usertrap (.killed .timer) ∨ f = .kerneltrap .update) ∧ Quiet r
  | .updateTicks _ _ :: rest => Quiet rest ∧ ∃ g ∈ rest, g.intrOff = true
  | _ :: rest => Quiet rest
  | [] => True

/-- Ticks are handled by the thread that hart 0 runs. -/
structure Handler (s : State n) : Prop where
  shape : ∀ t, TimerStack (s.stack t)
  hart : ∀ t, ∀ g ∈ s.stack t, g.timed = true → ∃ c : Fin n, c.val = 0 ∧ s.running c = t

variable {stk fs : List Frame} {f : Frame} {me : Option Slot}

theorem TimerStack.of_quiet (h : Quiet stk) : TimerStack stk := by
  unfold TimerStack
  split
  · exact nomatch h _ List.mem_cons_self
  · exact nomatch h _ List.mem_cons_self
  · exact fun g hg => h g (List.mem_cons_of_mem _ hg)
  · trivial

variable {rest : List Frame}

/-- Below a frame other than `clockintr` there is no frame of a handler. -/
theorem TimerStack.quiet_tail (h : TimerStack (f :: rest)) (hf : ∀ pc, f ≠ .clockintr pc) : Quiet rest := by
  unfold TimerStack at h
  split at h
  · rename_i pc _ heq
    cases heq
    exact absurd rfl (hf pc)
  · rename_i heq
    cases heq
    exact h.1
  · rename_i heq
    cases heq
    exact h
  · rename_i heq
    cases heq

/-- While a handler is active, interrupts are off. -/
theorem TimerStack.intrOff (h : TimerStack stk) (hq : ¬ Quiet stk) :
    ∃ g ∈ stk, g.intrOff = true := by
  unfold TimerStack at h
  split at h
  · obtain ⟨f, r, rfl, hf, -⟩ := h
    refine ⟨f, by simp, ?_⟩
    rcases hf with rfl | rfl <;> rfl
  · obtain ⟨-, g, hg, hoff⟩ := h
    exact ⟨g, List.mem_cons_of_mem _ hg, hoff⟩
  · rename_i f rest _ _
    -- the frame on top is the one that is not quiet
    refine ⟨f, List.mem_cons_self, ?_⟩
    by_contra hoff
    refine hq fun g hg => ?_
    rcases List.mem_cons.mp hg with rfl | hg
    · unfold Frame.timed
      split <;> simp_all [Frame.intrOff]
    · exact h g hg
  · exact absurd (fun g hg => nomatch hg) hq

/-- The steps of a handler. -/
inductive TimedNext : Frame → Op → List Frame → Prop
  | tick : TimedNext (.clockintr .acquire) .tick [.clockintr (.wakeup 0)]
  | wake (i : Nat) (op : Op) (hop : op = .skip ∨ ∃ ch q, op = .wakeup ch q) :
      TimedNext (.clockintr (.wakeup i)) op [.clockintr (.wakeup (i + 1))]
  | woken (i : Nat) : TimedNext (.clockintr (.wakeup i)) .skip []
  | check : TimedNext (.usertrap (.killed .timer)) .skip [.usertrap .update]
  | user : TimedNext (.usertrap .update) .skip [.updateTicks 0 false, .usertrap .accumulate]
  | kernel : TimedNext (.kerneltrap .update) .skip [.updateTicks 0 false, .kerneltrap .yield]
  | sleep (q : Slot) : TimedNext (.updateTicks q false) (.chargeSleep q) [.updateTicks q true]
  | book (q : Slot) : TimedNext (.updateTicks q true) (.charge q) [.updateTicks (q + 1) false]
  | done (i : Nat) (b : Bool) (hi : NPROC ≤ i) : TimedNext (.updateTicks i b) .skip []

theorem effect_timedNext (hf : f.timed = true) (he : f.effect m me i = some e)
    (hk : ∀ p, me = some p → f = .usertrap (.killed .timer) → (m.proc p).killed = false) :
    TimedNext f e.op e.frames ∧ e.switch = .stay := by
  cases effect_acts he with
  | skipSelf hl =>
    cases hl with
    | clock => exact ⟨.wake _ _ (.inl rfl), rfl⟩
    | _ => cases hf
  | wake hl =>
    cases hl with
    | clock => exact ⟨.wake _ _ (.inr ⟨_, _, rfl⟩), rfl⟩
    | _ => cases hf
  | tick => exact ⟨.tick, rfl⟩
  | ticked j => exact ⟨.woken j, rfl⟩
  | chargeSleep q => exact ⟨.sleep q, rfl⟩
  | charge q => exact ⟨.book q, rfl⟩
  | charged j locked hj => exact ⟨.done j locked hj, rfl⟩
  | kernelUpdate => exact ⟨.kernel, rfl⟩
  | proc p hme h =>
    cases h with
    | trapTimer => exact ⟨.check, rfl⟩
    | trapUpdate => exact ⟨.user, rfl⟩
    | @trapExit pc hpc hkilled =>
      -- a killed process does not get as far as `update_ticks`
      rcases hpc with ⟨sc, rfl⟩ | ⟨t, rfl⟩
      · cases hf
      · cases t with
        | timer => simp [hk p hme rfl] at hkilled
        | _ => cases hf
    | trapLeave t ht =>
      cases t with
      | timer => exact absurd rfl ht
      | _ => cases hf
    | sched hr | schedRunning hr => cases hr <;> cases hf
    | badArg _ h | fsSleep _ h | fsWakeup _ h | fsReturn h =>
      rcases h with rfl | rfl <;> cases hf
    | _ => cases hf
  | _ => cases hf

/-- Only a handler pushes frames of a handler. -/
theorem effect_timed {g : Frame} (he : f.effect m me i = some e) (hg : g ∈ e.frames)
    (ht : g.timed = true) : f.timed = true := by
  revert g
  cases effect_acts he with
  | skipSelf hl | wake hl => cases hl <;> simp [Frame.timed]
  | proc p hme h =>
    cases h with
    | sched hr | schedRunning hr => cases hr <;> simp [Frame.timed]
    | fsSleep _ hf | fsWakeup _ hf | fsReturn hf => rcases hf with rfl | rfl <;> simp [Frame.timed]
    | trapCall sc => cases sc <;> simp [Frame.timed, Syscall.frame]
    | trapExit hpc => rcases hpc with ⟨sc, rfl⟩ | ⟨t, rfl⟩ <;> simp [Frame.timed, exitKilled]
    | _ => simp [Frame.timed]
  | _ => simp [Frame.timed]

theorem Quiet.append (hfs : Quiet fs) (hrest : Quiet rest) :
    Quiet (fs ++ rest) := by
  intro g hg
  rcases List.mem_append.mp hg with hg | hg
  · exact hfs g hg
  · exact hrest g hg

variable {i : Input} {m : Mem}

/-- A frame outside the handlers leaves no frame of a handler behind. -/
theorem TimerStack.quiet_next {e : Effect}
    (h : TimerStack (f :: rest)) (hf : f.timed = false) (he : f.effect m me i = some e) :
    Quiet rest ∧ Quiet (e.frames ++ rest) := by
  have hrest : Quiet rest := h.quiet_tail fun pc hpc => by
    rw [hpc] at hf
    cases hf
  refine ⟨hrest, Quiet.append (fun g hg => ?_) hrest⟩
  by_contra ht
  rw [effect_timed he hg (by simpa using ht)] at hf
  cases hf

/-- What a step of a handler leaves on the stack. -/
theorem TimedNext.timerStack {op : Op} (h : TimedNext f op fs) (hs : TimerStack (f :: rest)) :
    TimerStack (fs ++ rest) := by
  cases h with
  | tick | wake i op hop | check | sleep q | book q => exact hs
  | woken i =>
    obtain ⟨g, r, rfl, hg | hg, hq⟩ := hs
    · subst hg
      exact hq
    · subst hg
      exact hq
  | user | kernel =>
    refine ⟨?_, _, List.mem_cons_self, rfl⟩
    exact List.forall_mem_cons.mpr ⟨rfl, hs⟩
  | done i b hi => exact .of_quiet hs.1

section

variable {s : State n} {c : Fin n} {i : Input} {rest : List Frame} {e : Effect}
variable (hi : Inv s) (hp : Planned s c i rest e) (hh : Handler s)
variable (htimer : i.isTimer = true → c.val = 0) (hkill : s.killedInTimer c = false)

include hh in
/-- Only hart 0 executes frames of a handler. -/
theorem Handler.hart_of_timed (hi : Inv s) {g : Frame} (hg : g ∈ s.cur c) (ht : g.timed = true) :
    c.val = 0 := by
  obtain ⟨d, hd, hr⟩ := hh.hart (s.running c) g hg ht
  rwa [← hi.running_inj hr]

include hh in
/-- While interrupts are on, no handler is active. -/
theorem Handler.quiet_cur (hoff : ∀ g ∈ s.cur c, g.intrOff = false) : Quiet (s.cur c) := by
  by_contra hq
  obtain ⟨g, hg, hon⟩ := (hh.shape (s.running c)).intrOff hq
  rw [hoff g hg] at hon
  cases hon

include hi hkill in
theorem Handler.timedNext (hc : s.cur c = f :: rest) (he : f.effect s.mem (s.proc c) i = some e)
    (hf : f.timed = true) : TimedNext f e.op e.frames ∧ e.switch = .stay := by
  refine effect_timedNext hf he fun p hme hkilled => ?_
  subst hkilled
  have hr := hi.running_of_not_scheduler hc (by simp) hme
  rw [State.killedInTimer, hc, hr] at hkill
  exact hkill

include hi hp hh htimer hkill in
/-- The stack that a step leaves behind. -/
theorem Handler.next :
    TimerStack (e.frames ++ rest) ∧
      (Quiet (e.frames ++ rest) ∨ c.val = 0 ∧ e.switch = .stay) := by
  cases hp with
  | user p fs hr hc hfs =>
    rw [hc]
    unfold State.userEntry at hfs
    split at hfs
    · cases hfs
      rename_i sc
      have hq : Quiet [.usertrap (.syscall sc)] := by simp [Quiet, Frame.timed]
      exact ⟨.of_quiet hq, .inl hq⟩
    · cases hfs
      have hq : Quiet [.usertrap .setkilled] := by simp [Quiet, Frame.timed]
      exact ⟨.of_quiet hq, .inl hq⟩
    · cases hfs
      have h0 := htimer rfl
      simp only [State.timerFrames, h0, if_true]
      exact ⟨⟨_, _, rfl, .inl rfl, fun _ hg => nomatch hg⟩, .inr ⟨trivial, trivial⟩⟩
    · cases hfs
      rename_i a
      have hq : Quiet [.wakeup (some (.other a)) 0, .usertrap (.killed .device)] := by
        simp [Quiet, Frame.timed]
      exact ⟨.of_quiet hq, .inl hq⟩
    · cases hfs
  | kernel fs hne hlock hfs hoff =>
    have hquiet := hh.quiet_cur hoff
    unfold State.kernelEntry at hfs
    split at hfs
    · cases hfs
      have h0 := htimer rfl
      simp only [State.timerFrames, h0, if_true]
      exact ⟨⟨_, _, rfl, .inr rfl, hquiet⟩, .inr ⟨trivial, trivial⟩⟩
    · cases hfs
      rename_i a
      have hq : Quiet ([.wakeup (some (.other a)) 0, .kerneltrap .ret] ++ s.cur c) :=
        Quiet.append (by simp [Quiet, Frame.timed]) hquiet
      exact ⟨.of_quiet hq, .inl hq⟩
    · cases hfs
  | exec f rest e hc he =>
    have hs : TimerStack (f :: rest) := hc ▸ hh.shape (s.running c)
    cases hf : f.timed with
    | true =>
      obtain ⟨hnext, hsw⟩ := Handler.timedNext hi hkill hc he hf
      have h0 := hh.hart_of_timed hi (hc ▸ List.mem_cons_self) hf
      exact ⟨hnext.timerStack hs, .inr ⟨h0, hsw⟩⟩
    | false =>
      have hquiet := (hs.quiet_next hf he).2
      exact ⟨.of_quiet hquiet, .inl hquiet⟩

include hi hp hh htimer hkill in
theorem Handler.commit : Handler (s.commit c rest e) := by
  obtain ⟨hshape, hhart⟩ := hh.next hi hp htimer hkill
  constructor
  · intro t
    rcases State.commit_stack s c rest e t with ⟨np, a, -, -, hstk⟩ | ⟨-, hstk⟩
    · rw [hstk]
      exact fun _ hg => nomatch hg
    · rw [hstk, upd_apply]
      split
      · exact hshape
      · exact hh.shape t
  · intro t g hg ht
    rcases State.commit_stack s c rest e t with ⟨np, a, -, -, hstk⟩ | ⟨-, hstk⟩
    · rw [hstk, List.mem_singleton] at hg
      rw [hg] at ht
      cases ht
    · rw [hstk, upd_apply] at hg
      split at hg
      · rename_i htc
        rcases hhart with hq | ⟨h0, hsw⟩
        · rw [hq g hg] at ht
          cases ht
        · exact ⟨c, h0, by rw [State.commit_running_self, hsw, htc]⟩
      · rename_i htc
        obtain ⟨d, h0, hr⟩ := hh.hart t g hg ht
        have hd : d ≠ c := fun heq => htc (by rw [← hr, heq])
        exact ⟨d, h0, by rw [State.commit_running_of_ne hd, hr]⟩

end

theorem handler_boot (b : Boot) : Handler (State.boot n b) := by
  have hquiet : ∀ t, Quiet ((State.boot n b).stack t) := by
    intro t g hg
    cases t with
    | sched c =>
      rw [List.mem_singleton.mp hg]
      rfl
    | proc p =>
      rw [mem_boot_stack hg]
      rfl
  refine ⟨fun t => .of_quiet (hquiet t), fun t g hg ht => ?_⟩
  rw [hquiet t g hg] at ht
  cases ht

/-! ## Steps of hart 0 -/

theorem Quiet.charging (h : Quiet stk) (z : Slot) : chargingIn z stk = false := by
  unfold chargingIn
  split
  · exact nomatch h _ List.mem_cons_self
  · exact nomatch h _ List.mem_cons_self
  · exact nomatch h _ List.mem_cons_self
  · exact nomatch h _ List.mem_cons_self
  · exact nomatch h _ List.mem_cons_self
  · rfl

theorem chargingIn_of_pendingIn (h : pendingIn m z stk = true) :
    chargingIn z stk = true := by
  unfold pendingIn at h
  split at h
  · simp only [decide_eq_true_eq, chargingIn] at h ⊢
    omega
  · exact h

theorem pendingIn_of_not_charging (h : chargingIn z stk = false) :
    pendingIn m z stk = false := by
  by_contra hpend
  rw [chargingIn_of_pendingIn (Bool.of_not_eq_false hpend)] at h
  cases h

theorem counter_eq_stime {st : ProcState} : st.counter = some .stime ↔ st = .sleeping := by
  cases st <;> simp [ProcState.counter]

theorem pendingIn_congr {m m' : Mem} (h : (m'.proc z).state.counter = (m.proc z).state.counter) :
    pendingIn m' z stk = pendingIn m z stk := by
  have hs : (m'.proc z).state = .sleeping ↔ (m.proc z).state = .sleeping := by
    rw [← counter_eq_stime, h, counter_eq_stime]
  unfold pendingIn
  split
  · simp only [ne_eq, hs]
  · rfl

/-- The operations that count a tick for a slot. -/
def Op.books (z : Slot) : Op → Bool
  | .tick => true
  | .chargeSleep q | .charge q => q = z
  | _ => false

theorem effect_books {e : Effect} (he : f.effect m me i = some e) (hop : e.op.books z = true) :
    f.timed = true := by
  have hspec := effect_opSpec he
  generalize e.op = op at hop hspec
  cases op with
  | tick | chargeSleep q | charge q =>
    cases hspec
    rfl
  | _ => cases hop

/-- What a step does to the tick that hart 0 is handling. -/
inductive TickStep (s s' : State n) (rest : List Frame) (e : Effect) : Prop
  | other (hstk : s'.tickStack = s.tickStack) (hop : ∀ z, e.op.books z = false)
  | idle (hz : ∀ z, s.charging z = false) (hz' : ∀ z, s'.charging z = false)
      (hop : ∀ z, e.op.books z = false)
  | handler (f : Frame) (hnext : TimedNext f e.op e.frames) (hshape : TimerStack (f :: rest))
      (hstk : s.tickStack = f :: rest) (hstk' : s'.tickStack = e.frames ++ rest)

theorem State.tickStack_of_zero {c : Fin n} (hc : c.val = 0) :
    s.tickStack = s.cur c := by
  have hn : 0 < n := by omega
  have heq : (⟨0, hn⟩ : Fin n) = c := Fin.ext hc.symm
  simp only [State.tickStack, hn, dite_true, heq]

theorem userEntry_charging {c : Fin n} (hc : c.val = 0)
    (h : State.userEntry c i = some fs) (rest : List Frame) (z : Slot) :
    chargingIn z (fs ++ rest) = false := by
  unfold State.userEntry at h
  split at h
  · cases h; rfl
  · cases h; rfl
  · cases h
    simp only [State.timerFrames, hc, if_true]
    rfl
  · cases h; rfl
  · cases h

theorem kernelEntry_charging {c : Fin n} (hc : c.val = 0)
    (h : State.kernelEntry c i = some fs) (rest : List Frame) (z : Slot) :
    chargingIn z (fs ++ rest) = false := by
  unfold State.kernelEntry at h
  split at h
  · cases h
    simp only [State.timerFrames, hc, if_true]
    rfl
  · cases h; rfl
  · cases h

section

variable {s : State n} {c : Fin n} {i : Input} {rest : List Frame} {e : Effect}
variable (hi : Inv s) (hp : Planned s c i rest e) (hh : Handler s)

include hi hp in
theorem Inv.tickStack_of_ne (hc : c.val ≠ 0) : (s.commit c rest e).tickStack = s.tickStack := by
  unfold State.tickStack
  split
  · rename_i hn
    have hne : (⟨0, hn⟩ : Fin n) ≠ c := fun h => hc (by rw [← h])
    rw [State.cur, State.commit_running_of_ne hne, hi.commit_stack_running hp, if_neg hne]
    rfl
  · rfl

include hi hp in
theorem Inv.tickStack_of_stay (hc : c.val = 0) (hsw : e.switch = .stay) :
    (s.commit c rest e).tickStack = e.frames ++ rest := by
  rw [State.tickStack_of_zero hc, State.cur, State.commit_running_self, hsw,
    hi.commit_stack_running hp, if_pos rfl]

include hh in
/-- When hart 0 leaves a quiet stack behind, no stack has frames of a handler. -/
theorem Handler.quiet (hc : c.val = 0) (hq : Quiet (e.frames ++ rest)) (t : Thread n) :
    Quiet ((s.commit c rest e).stack t) := by
  intro g hg
  by_contra ht
  have ht : g.timed = true := by simpa using ht
  rcases State.commit_stack s c rest e t with ⟨np, a, -, -, hstk⟩ | ⟨-, hstk⟩
  · rw [hstk, List.mem_singleton] at hg
    rw [hg] at ht
    cases ht
  · rw [hstk, upd_apply] at hg
    split at hg
    · rw [hq g hg] at ht
      cases ht
    · rename_i htc
      obtain ⟨d, h0, hr⟩ := hh.hart t g hg ht
      obtain rfl : d = c := Fin.ext (h0.trans hc.symm)
      exact htc hr.symm

include hi hp hh in
theorem Handler.tickStep (hkill : s.killedInTimer c = false) :
    TickStep s (s.commit c rest e) rest e := by
  by_cases hc0 : c.val = 0
  case neg =>
    -- the frames of handlers are on hart 0
    refine .other (hi.tickStack_of_ne hp hc0) fun z => ?_
    by_contra hop
    obtain ⟨f, hc, he⟩ := hp.exec_of_op fun h => hop (by rw [h]; rfl)
    have hf := effect_books he (Bool.of_not_eq_false hop)
    exact hc0 (hh.hart_of_timed hi (hc ▸ List.mem_cons_self) hf)
  have hstk := State.tickStack_of_zero (s := s) hc0
  cases hp with
  | user p fs hr hc hfs =>
    refine .idle (fun z => ?_) (fun z => ?_) fun z => rfl
    · rw [State.charging, hstk, hc]
      rfl
    · rw [State.charging, hi.tickStack_of_stay (.user p fs hr hc hfs) hc0 rfl]
      exact userEntry_charging hc0 hfs _ z
  | kernel fs hne hlock hfs hoff =>
    refine .idle (fun z => ?_) (fun z => ?_) fun z => rfl
    · rw [State.charging, hstk]
      exact (hh.quiet_cur hoff).charging z
    · rw [State.charging, hi.tickStack_of_stay (.kernel fs hne hlock hfs hoff) hc0 rfl]
      exact kernelEntry_charging hc0 hfs _ z
  | exec f rest e hc he hk =>
    have hs : TimerStack (f :: rest) := hc ▸ hh.shape (s.running c)
    cases hf : f.timed with
    | true =>
      obtain ⟨hnext, hsw⟩ := Handler.timedNext hi hkill hc he hf
      exact .handler f hnext hs (hstk.trans hc)
        (hi.tickStack_of_stay (.exec f rest e hc he hk) hc0 hsw)
    | false =>
      obtain ⟨hrest, hquiet⟩ := hs.quiet_next hf he
      refine .idle (fun z => ?_) (fun z => ?_) fun z => ?_
      · rw [State.charging, hstk, hc]
        exact Quiet.charging (List.forall_mem_cons.mpr ⟨hf, hrest⟩) z
      · rw [State.charging, State.tickStack_of_zero hc0]
        exact (hh.quiet hc0 hquiet _).charging z
      · by_contra hop
        rw [effect_books he (Bool.of_not_eq_false hop)] at hf
        cases hf

end

/-! ## The counters -/

/-- A counter is the number of ticks seen in its state, less the one that is pending. -/
def BookedAt (s : State n) (h : Slot → Counter → Nat) (z : Slot) (k : Counter) : Prop :=
  (s.mem.proc z).time k = toLong (h z k - s.due z k)

def Booked (s : State n) (h : Slot → Counter → Nat) : Prop := ∀ z k, BookedAt s h z k

variable {m : Mem} {h : Slot → Counter → Nat} {op : Op} {z : Slot}

theorem Op.time_keep (hop : op.books z = false) (hne : ∀ a, op ≠ .setPagetable z a) (k : Counter) :
    ((op.apply m).proc z).time k = (m.proc z).time k := by
  by_cases ht : op.target = some z
  case neg => rw [op.apply_proc_of_ne m ht]
  rw [op.apply_proc_target m ht]
  cases op with
  | tick => cases hop
  | chargeSleep q | charge q =>
    cases ht
    simp [Op.books] at hop
  | setPagetable np a =>
    cases ht
    exact absurd rfl (hne a)
  | _ => cases k <;> rfl

theorem recordTick_keep (hop : op.books z = false) (hne : ∀ a, op ≠ .setPagetable z a) :
    recordTick m h op z = h z := by
  cases op with
  | tick => cases hop
  | setPagetable np a =>
    have hz : z ≠ np := fun heq => hne a (by rw [heq])
    exact upd_of_ne hz _
  | _ => rfl

theorem State.due_of_not_pending (hz : s.pending z = false) (k : Counter) :
    s.due z k = 0 := by
  simp [State.due, hz]

theorem State.due_congr {s s' : State n} (hz : s'.pending z = s.pending z)
    (hc : s.pending z = true → (s'.mem.proc z).state.counter = (s.mem.proc z).state.counter)
    (k : Counter) : s'.due z k = s.due z k := by
  unfold State.due
  rw [hz]
  cases hpend : s.pending z with
  | false => rfl
  | true => rw [hc hpend]

section

variable {s : State n} {c : Fin n} {i : Input} {rest : List Frame} {e : Effect}
variable (hb : Booked s h)

include hb in
/-- A step that neither counts a tick nor books one to the slot. -/
theorem Booked.keep (hop : e.op.books z = false) (hne : ∀ a, e.op ≠ .setPagetable z a)
    (hz : (s.commit c rest e).pending z = s.pending z) (hc : s.charging z = true →
      ((e.op.apply s.mem).proc z).state.counter = (s.mem.proc z).state.counter) (k : Counter) :
    BookedAt (s.commit c rest e) (recordTick s.mem h e.op) z k := by
  show ((e.op.apply s.mem).proc z).time k = _
  rw [Op.time_keep hop hne, recordTick_keep hop hne, hb z k,
    State.due_congr hz fun hpend => hc (chargingIn_of_pendingIn hpend)]

/-- `allocproc` starts the counters of a process that is in none of their states. -/
theorem bookedAt_setPagetable {a : Nat} (hop : e.op = .setPagetable z a)
    (hs : (s.mem.proc z).state = .used) (k : Counter) :
    BookedAt (s.commit c rest e) (recordTick s.mem h e.op) z k := by
  have hdue : (s.commit c rest e).due z k = 0 := by
    simp [State.due, State.commit, hop, Op.apply, Op.target, Op.write, hs, ProcState.counter]
  have hh : recordTick s.mem h e.op z k = 0 := by
    rw [hop]
    exact congrFun (upd_self ..) k
  show ((e.op.apply s.mem).proc z).time k = _
  rw [hdue, hh, hop, Op.apply_proc_target _ _ rfl]
  cases k <;> rfl

include hb in
theorem Booked.tick (hop : e.op = .tick) (hz : s.pending z = false)
    (hz' : (s.commit c rest e).pending z = true) (k : Counter) :
    BookedAt (s.commit c rest e) (recordTick s.mem h e.op) z k := by
  have hp : (s.commit c rest e).mem.proc z = s.mem.proc z := by
    simp only [State.commit, hop]
    rfl
  have htime := hb z k
  rw [BookedAt, State.due_of_not_pending hz] at htime
  simp only [BookedAt, State.due, hz', hp, htime, hop, recordTick, true_and]
  split
  · congr 1
    omega
  · rfl

include hb in
/-- The test for `SLEEPING`. -/
theorem Booked.chargeSleep (hop : e.op = .chargeSleep z) (hz : s.pending z = true)
    (hz' : (s.commit c rest e).pending z = decide ((s.mem.proc z).state ≠ .sleeping)) (k : Counter) :
    BookedAt (s.commit c rest e) (recordTick s.mem h e.op) z k := by
  have hp : (s.commit c rest e).mem.proc z = (Op.chargeSleep z).write s.mem (s.mem.proc z) := by
    simp only [State.commit, hop]
    exact Op.apply_proc_target _ _ rfl
  have htime := hb z k
  simp only [BookedAt, State.due, hz, true_and] at htime
  simp only [BookedAt, State.due, hz', hp, hop]
  cases hs : (s.mem.proc z).state <;> cases k <;>
    simp_all [Op.write, Proc.time, ProcState.counter, recordTick, toLong_toLong_add]

include hb in
/-- The tests for `RUNNABLE` and `RUNNING`. -/
theorem Booked.charge (hop : e.op = .charge z)
    (hz : s.pending z = decide ((s.mem.proc z).state ≠ .sleeping))
    (hz' : (s.commit c rest e).pending z = false) (k : Counter) :
    BookedAt (s.commit c rest e) (recordTick s.mem h e.op) z k := by
  have hp : (s.commit c rest e).mem.proc z = (Op.charge z).write s.mem (s.mem.proc z) := by
    simp only [State.commit, hop]
    exact Op.apply_proc_target _ _ rfl
  have htime := hb z k
  simp only [BookedAt, State.due, hz] at htime
  rw [BookedAt, State.due_of_not_pending hz', hp, hop]
  cases hs : (s.mem.proc z).state <;> cases k <;>
    simp_all [Op.write, Proc.time, ProcState.counter, recordTick, toLong_toLong_add]

include hb in
/-- A step of the handler. -/
theorem Booked.handler (hnext : TimedNext f e.op e.frames) (hshape : TimerStack (f :: rest))
    (hstk : s.tickStack = f :: rest) (hstk' : (s.commit c rest e).tickStack = e.frames ++ rest)
    (hc : s.charging z = true →
      ((e.op.apply s.mem).proc z).state.counter = (s.mem.proc z).state.counter) (k : Counter) :
    BookedAt (s.commit c rest e) (recordTick s.mem h e.op) z k := by
  have hpend : s.pending z = pendingIn s.mem z (f :: rest) := by rw [State.pending, hstk]
  have hpend' : (s.commit c rest e).pending z =
      pendingIn (e.op.apply s.mem) z (e.frames ++ rest) := by rw [State.pending, hstk']; rfl
  -- a step that counts nothing and leaves the tick pending as it was
  have keep (hop : e.op.books z = false) (hne : ∀ a, e.op ≠ .setPagetable z a)
      (hz : pendingIn (e.op.apply s.mem) z (e.frames ++ rest) = pendingIn s.mem z (f :: rest)) :
      BookedAt (s.commit c rest e) (recordTick s.mem h e.op) z k :=
    hb.keep hop hne (by rw [hpend, hpend', hz]) hc k
  generalize hop : e.op = op, hfs : e.frames = fs at hnext
  rw [hop, hfs] at hpend' keep
  cases hnext with
  | tick => exact hop ▸ hb.tick hop hpend hpend' k
  | wake i op hop' =>
    rcases hop' with rfl | ⟨ch, q, rfl⟩
    · exact hop ▸ keep rfl (by simp) rfl
    · exact hop ▸ keep rfl (by simp) rfl
  | woken i =>
    obtain ⟨g, r, rfl, rfl | rfl, -⟩ := hshape
    · exact hop ▸ keep rfl (by simp) rfl
    · exact hop ▸ keep rfl (by simp) rfl
  | check => exact hop ▸ keep rfl (by simp) rfl
  | user | kernel => exact hop ▸ keep rfl (by simp) (by simp [pendingIn, chargingIn])
  | sleep q =>
    by_cases hq : q = z
    · subst hq
      refine hop ▸ hb.chargeSleep hop ?_ ?_ k
      · simp [hpend, pendingIn, chargingIn]
      · simp [hpend', pendingIn, Op.apply, Op.target, Op.write]
    · -- the slot of another turn
      refine hop ▸ keep (by simpa [Op.books] using hq) (by simp) ?_
      have hne : q.val ≠ z.val := fun h => hq (Fin.ext h)
      simp only [pendingIn, chargingIn, List.cons_append, decide_eq_decide]
      omega
  | book q =>
    by_cases hq : q = z
    · subst hq
      refine hop ▸ hb.charge hop ?_ ?_ k
      · simp [hpend, pendingIn]
      · simp [hpend', pendingIn, chargingIn]
    · refine hop ▸ keep (by simpa [Op.books] using hq) (by simp) ?_
      have hne : q.val ≠ z.val := fun h => hq (Fin.ext h)
      simp only [pendingIn, chargingIn, List.cons_append, decide_eq_decide]
      omega
  | done i b hi =>
    refine hop ▸ keep rfl (by simp) ?_
    have hz : chargingIn z (.updateTicks i b :: rest) = false := by
      simp only [chargingIn, decide_eq_false_iff_not]
      omega
    rw [pendingIn_of_not_charging hz]
    exact pendingIn_of_not_charging (hshape.1.charging z)

/-- One step. -/
theorem Booked.commit (hb : Booked s h) (hi : Inv s) (hh : Handler s) (hp : Planned s c i rest e)
    (hkill : s.killedInTimer c = false) (hc : ∀ z, s.charging z = true →
      ((e.op.apply s.mem).proc z).state.counter = (s.mem.proc z).state.counter) :
    Booked (s.commit c rest e) (recordTick s.mem h e.op) := by
  intro z k
  by_cases hpt : ∃ a, e.op = .setPagetable z a
  · obtain ⟨a, hop⟩ := hpt
    obtain ⟨f, hf, -, hspec⟩ := hp.opSpec hop (by simp)
    rw [hspec.1] at hf
    obtain ⟨p, -, -, hstk⟩ := hi.exec_fork hf
    have hfork := hi.fork p (.pagetable z) (mem_of_eq_cons hstk)
    exact bookedAt_setPagetable hop (hfork.used rfl (by simp)) k
  · have hne : ∀ a, e.op ≠ .setPagetable z a := fun a h => hpt ⟨a, h⟩
    cases hh.tickStep hi hp hkill with
    | other hstk hop =>
      refine hb.keep (hop z) hne ?_ (hc z) k
      rw [State.pending, State.pending, hstk]
      cases hz : s.charging z with
      | true => exact pendingIn_congr (hc z hz)
      | false => rw [pendingIn_of_not_charging hz, pendingIn_of_not_charging hz]
    | idle hz hz' hop =>
      refine hb.keep (hop z) hne ?_ (hc z) k
      rw [State.pending, State.pending, pendingIn_of_not_charging (hz z),
        pendingIn_of_not_charging (hz' z)]
    | handler f hnext hshape hstk hstk' => exact hb.handler hnext hshape hstk hstk' (hc z) k

end

/-! ## Runs -/

theorem booked_boot (b : Boot) : Booked (State.boot n b) fun _ _ => 0 := by
  intro z k
  have hz : (State.boot n b).charging z = false := by
    unfold State.charging State.tickStack
    split <;> rfl
  rw [BookedAt, State.due_of_not_pending (pendingIn_of_not_charging hz)]
  by_cases hz : z = 0
  · subst hz
    cases k <;> simp [State.boot, userinit, procinit, Op.apply, Op.target, Op.write, Proc.time, toLong]
  · rw [boot_proc_of_ne b hz]
    cases k <;> rfl

theorem booked_reachable {x : State n × (Slot → Counter → Nat)}
    (hr : (tickLog n).ReachableBy Accounted x) : Handler x.1 ∧ Booked x.1 x.2 := by
  refine ReachableBy.induct (P := fun x => Handler x.1 ∧ Booked x.1 x.2) ?_ ?_ hr
  · rintro ⟨s, h⟩ ⟨⟨b, rfl⟩, rfl⟩
    exact ⟨handler_boot b, booked_boot b⟩
  · intro x i y hx ⟨hh, hb⟩ ⟨htimer, hkill, hkeep⟩ hs
    obtain ⟨hs, hy⟩ := observe_step.mp hs
    have hc := fun z => State.counter_of_keepsCounter hkeep (z := z)
    have hi := inv_reachable (reachable_of_observe hx)
    obtain ⟨rest, e, hp, -, hop, hs'⟩ := hi.step_commit hs
    rw [hop] at hc hy
    rw [hs', hy]
    exact ⟨hh.commit hi hp htimer hkill, hb.commit hi hh hp hkill hc⟩

theorem toLong_natCast {k : Nat} (h : k < 2 ^ 63) : toLong k = k := by
  rw [toLong, Int.bmod_eq_of_le] <;> omega

/-- A timer interrupt on hart 0 while it runs the scheduler, until slot 0 has got its tick. -/
def tickRun : List (Fin 1 × Input) :=
  [(0, .run), (0, .run), (0, .timer)] ++ List.replicate 69 (0, .run)

end Xv6
