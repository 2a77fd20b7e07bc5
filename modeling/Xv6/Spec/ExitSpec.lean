import Xv6.Spec.Reachable

/-!
# exit and wait, step by step

`ExitNext` and `WaitNext` list the steps inside one activation of `exit` and `wait`, each
with the operation it performs and the test it has made. `effect_exitNext` and
`effect_waitNext` say that a frame of these functions comes from a call or from such a
step.
-/

namespace Xv6

/-- The steps inside `exit` of process `p`. -/
inductive ExitNext (m : Mem) (p : Slot) : Op → ExitPc → ExitPc → Prop
  | entry (st : Int) (msg : List UInt8) (hinit : p ≠ m.initproc) :
      ExitNext m p (.exitMsg p st msg) (.entry st msg) (.close st 0)
  | close (st : Int) (fd : Fin NOFILE) : ExitNext m p .skip (.close st fd) (.closed st fd)
  | next (st : Int) (fd : Fin NOFILE) (hfd : (m.proc p).ofile fd = 0) :
      ExitNext m p .skip (.close st fd) (.close st (fd + 1))
  | iput (st : Int) (fd : Nat) (hfd : NOFILE ≤ fd) : ExitNext m p .skip (.close st fd) (.iput st)
  | closed (st : Int) (fd : Fin NOFILE) :
      ExitNext m p (.closeFd p fd) (.closed st fd) (.close st (fd + 1))
  | cwd (st : Int) : ExitNext m p (.clearCwd p) (.iput st) (.acquire st)
  | reparent (st : Int) : ExitNext m p .skip (.acquire st) (.reparent st 0)
  | child (st : Int) (pp : Slot) (hpar : (m.proc pp).parent = some p) :
      ExitNext m p (.reparent p pp) (.reparent st pp) (.reparentWake st pp 0)
  | other (st : Int) (pp : Slot) (hpar : (m.proc pp).parent ≠ some p) :
      ExitNext m p .skip (.reparent st pp) (.reparent st (pp + 1))
  | wakeInit (st : Int) (i : Nat) (q : Slot) :
      ExitNext m p (if p = q then .skip else .wakeup (some (.proc m.initproc)) q)
        (.reparentWake st i q) (.reparentWake st i (q + 1))
  | resume (st : Int) (i j : Nat) (hj : NPROC ≤ j) :
      ExitNext m p .skip (.reparentWake st i j) (.reparent st (i + 1))
  | wakeParent (st : Int) (i : Nat) (hi : NPROC ≤ i) :
      ExitNext m p .skip (.reparent st i) (.wakeParent st (m.proc p).parent 0)
  | wake (st : Int) (ch : Option Slot) (q : Slot) :
      ExitNext m p (if p = q then .skip else .wakeup (ch.map .proc) q)
        (.wakeParent st ch q) (.wakeParent st ch (q + 1))
  | lock (st : Int) (ch : Option Slot) (j : Nat) (hj : NPROC ≤ j) :
      ExitNext m p .skip (.wakeParent st ch j) (.lock st)
  | zombie (st : Int) : ExitNext m p .skip (.lock st) (.zombie st)
  | swtch (st : Int) : ExitNext m p (.zombie p st) (.zombie st) .swtch
  | dead : ExitNext m p .skip .swtch .dead

/-- The steps inside `wait` of process `p`, up to the call of `sleep`. -/
inductive WaitNext (m : Mem) (p : Slot) : Op → WaitPc → WaitPc → Prop
  | start : WaitNext m p .skip .acquire (.scan 0 false)
  | other (pp : Slot) (b : Bool) (hpar : (m.proc pp).parent ≠ some p) :
      WaitNext m p .skip (.scan pp b) (.scan (pp + 1) b)
  | child (pp : Slot) (b : Bool) (addr2 : Nat) (hpar : (m.proc pp).parent = some p)
      (hs : (m.proc pp).state ≠ .zombie) :
      WaitNext m p (.copyMsg p pp addr2) (.scan pp b) (.scan (pp + 1) true)
  | check (j : Nat) (b : Bool) (hj : NPROC ≤ j) : WaitNext m p .skip (.scan j b) (.check b)

/-! ## Frames of exit and wait -/

section

variable {m : Mem} {me : Option Slot} {p : Slot} {f : Frame} {i : Input} {e : Effect}
variable {pc' : ExitPc}

theorem procActs_exitNext (hp : ProcActs m p f e) (h : .exit pc' ∈ e.frames) :
    (∃ st msg, pc' = .entry st msg) ∨ ∃ pc, f = .exit pc ∧ ExitNext m p e.op pc pc' := by
  cases hp with
  | exitEntry st msg hinit =>
    obtain rfl : pc' = .close st 0 := by simpa using h
    exact .inr ⟨_, rfl, .entry st msg hinit⟩
  | exitClose st fd hfd =>
    obtain rfl : pc' = .closed st fd := by simpa using h
    exact .inr ⟨_, rfl, .close st fd⟩
  | exitNext st fd hfd =>
    obtain rfl : pc' = .close st (fd + 1) := by simpa using h
    exact .inr ⟨_, rfl, .next st fd hfd⟩
  | exitFiles st fd hfd =>
    obtain rfl : pc' = .iput st := by simpa using h
    exact .inr ⟨_, rfl, .iput st fd hfd⟩
  | exitClosed st fd =>
    obtain rfl : pc' = .close st (fd + 1) := by simpa using h
    exact .inr ⟨_, rfl, .closed st fd⟩
  | exitCwd st =>
    obtain rfl : pc' = .acquire st := by simpa using h
    exact .inr ⟨_, rfl, .cwd st⟩
  | exitAcquire st =>
    obtain rfl : pc' = .reparent st 0 := by simpa using h
    exact .inr ⟨_, rfl, .reparent st⟩
  | exitChild st pp hpar =>
    obtain rfl : pc' = .reparentWake st pp 0 := by simpa using h
    exact .inr ⟨_, rfl, .child st pp hpar⟩
  | exitOther st pp hpar =>
    obtain rfl : pc' = .reparent st (pp + 1) := by simpa using h
    exact .inr ⟨_, rfl, .other st pp hpar⟩
  | exitReparented st i hi =>
    obtain rfl : pc' = .wakeParent st (m.proc p).parent 0 := by simpa using h
    exact .inr ⟨_, rfl, .wakeParent st i hi⟩
  | exitWoken st i j hj =>
    obtain rfl : pc' = .reparent st (i + 1) := by simpa using h
    exact .inr ⟨_, rfl, .resume st i j hj⟩
  | exitParent st ch j hj =>
    obtain rfl : pc' = .lock st := by simpa using h
    exact .inr ⟨_, rfl, .lock st ch j hj⟩
  | exitLock st =>
    obtain rfl : pc' = .zombie st := by simpa using h
    exact .inr ⟨_, rfl, .zombie st⟩
  | exitZombie st =>
    obtain rfl : pc' = .swtch := by simpa using h
    exact .inr ⟨_, rfl, .swtch st⟩
  | sched hr hs =>
    cases hr with
    | exit =>
      obtain rfl : pc' = .dead := by simpa using h
      exact .inr ⟨_, rfl, .dead⟩
    | _ => simp at h
  | trapExit => exact .inl ⟨-1, [0], by simpa [exitKilled] using h⟩
  | trapCall sc =>
    cases sc with
    | exit n copied stack => exact .inl ⟨_, _, by simpa [Syscall.frame] using h⟩
    | _ => simp [Syscall.frame] at h
  | fsSleep a hf | fsWakeup a hf => rcases hf with rfl | rfl <;> simp at h
  | _ => simp at h

theorem wakeLoop_exitNext {ch : Option Chan} {q : Slot} {g : Frame} (hl : WakeLoop m me ch q f g)
    (h : .exit pc' = g) :
    ∃ p pc, me = some p ∧ f = .exit pc ∧
      ExitNext m p (if p = q then .skip else .wakeup ch q) pc pc' := by
  cases hl with
  | init p st i q hme =>
    cases h
    exact ⟨p, _, hme, rfl, .wakeInit st i q⟩
  | parent p st ch q hme =>
    cases h
    exact ⟨p, _, hme, rfl, .wake st ch q⟩
  | _ => cases h

/-- A frame of `exit` comes from a call of `exit` or from a step inside it. -/
theorem effect_exitNext (he : f.effect m me i = some e) (h : .exit pc' ∈ e.frames) :
    (∃ st msg, pc' = .entry st msg) ∨
      ∃ p pc, me = some p ∧ f = .exit pc ∧ ExitNext m p e.op pc pc' := by
  cases effect_acts he with
  | proc p hme hp =>
    exact (procActs_exitNext hp h).imp_right fun ⟨pc, hf, hn⟩ => ⟨p, pc, hme, hf, hn⟩
  | skipSelf hl hq =>
    obtain ⟨p, pc, hme, hf, hn⟩ := wakeLoop_exitNext hl (List.mem_singleton.mp h)
    rw [if_pos (Option.some.inj (hme.symm.trans hq))] at hn
    exact .inr ⟨p, pc, hme, hf, hn⟩
  | wake hl hq =>
    obtain ⟨p, pc, hme, hf, hn⟩ := wakeLoop_exitNext hl (List.mem_singleton.mp h)
    rw [if_neg fun heq => hq (hme.trans (congrArg some heq))] at hn
    exact .inr ⟨p, pc, hme, hf, hn⟩
  | _ => simp at h

/-- A frame of `wait` comes from a call of `wait`, from `sleep`, or from a step inside it. -/
theorem effect_waitNext (he : f.effect m me i = some e) {a a2 : Nat} {pc' : WaitPc}
    (h : .wait a a2 pc' ∈ e.frames) :
    pc' = .acquire ∨
      ∃ p pc, me = some p ∧ f = .wait a a2 pc ∧ WaitNext m p e.op pc pc' := by
  cases effect_acts he with
  | proc p hme hp =>
    cases hp with
    | waitAcquire a a2 =>
      obtain ⟨rfl, rfl, rfl⟩ := Frame.wait.inj (List.mem_singleton.mp h)
      exact .inr ⟨p, _, hme, rfl, .start⟩
    | waitChild pp a a2 b hpar hz =>
      obtain ⟨rfl, rfl, rfl⟩ := Frame.wait.inj (List.mem_singleton.mp h)
      exact .inr ⟨p, _, hme, rfl, .child pp b _ hpar hz⟩
    | waitOther pp a a2 b hpar =>
      obtain ⟨rfl, rfl, rfl⟩ := Frame.wait.inj (List.mem_singleton.mp h)
      exact .inr ⟨p, _, hme, rfl, .other pp b hpar⟩
    | waitScanned a a2 i b hi =>
      obtain ⟨rfl, rfl, rfl⟩ := Frame.wait.inj (List.mem_singleton.mp h)
      exact .inr ⟨p, _, hme, rfl, .check i b hi⟩
    | waitSleep => exact .inl (by simp_all)
    | sched hr hs => cases hr <;> simp at h
    | trapExit => simp [exitKilled] at h
    | trapCall sc => cases sc <;> simp_all [Syscall.frame]
    | fsSleep a hf | fsWakeup a hf => rcases hf with rfl | rfl <;> simp at h
    | _ => simp at h
  | skipSelf hl | wake hl => cases hl <;> simp at h
  | _ => simp at h

end

/-! ## In a reachable state -/

section

variable {n : Nat} {s : State n} {c : Fin n} {i : Input} {rest : List Frame} {e : Effect}

/-- A new frame of `exit` on the stack of `p`. -/
theorem Inv.exit_new (h : Inv s) (hp : Planned s c i rest e) {p : Slot} {pc : ExitPc}
    (hr : s.running c = .proc p) (hm : .exit pc ∈ e.frames) :
    (∃ st msg, pc = .entry st msg) ∨
      ∃ pc', s.stack (.proc p) = .exit pc' :: rest ∧ ExitNext s.mem p e.op pc' pc := by
  cases hp with
  | user q fs hr' hc hfs =>
    have := (userEntry_spec q hfs).1 _ hm
    cases this
  | kernel fs hne hlock hfs =>
    have := (kernelEntry_spec (s.running c) hfs).1 _ hm
    cases this
  | exec f rest e hc he =>
    rcases effect_exitNext he hm with hentry | ⟨q, pc', hme, hf, hnext⟩
    · exact .inl hentry
    · obtain rfl : p = q := Option.some.inj ((h.thread c p hr).symm.trans hme)
      refine .inr ⟨pc', ?_, hnext⟩
      rw [← hr, ← State.cur, hc, hf]

/-- A new frame of `wait` on the stack of `p`. -/
theorem Inv.wait_new (h : Inv s) (hp : Planned s c i rest e) {p : Slot} {a a2 : Nat}
    {pc : WaitPc} (hr : s.running c = .proc p) (hm : .wait a a2 pc ∈ e.frames) :
    pc = .acquire ∨
      ∃ pc', s.stack (.proc p) = .wait a a2 pc' :: rest ∧ WaitNext s.mem p e.op pc' pc := by
  cases hp with
  | user q fs hr' hc hfs =>
    have := (userEntry_spec q hfs).1 _ hm
    cases this
  | kernel fs hne hlock hfs =>
    have := (kernelEntry_spec (s.running c) hfs).1 _ hm
    cases this
  | exec f rest e hc he =>
    rcases effect_waitNext he hm with hentry | ⟨q, pc', hme, hf, hnext⟩
    · exact .inl hentry
    · obtain rfl : p = q := Option.some.inj ((h.thread c p hr).symm.trans hme)
      refine .inr ⟨pc', ?_, hnext⟩
      rw [← hr, ← State.cur, hc, hf]

end

end Xv6
