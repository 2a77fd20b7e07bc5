import Xv6.Spec.Reaping
import Xv6.Kernel.CfsStats
import Mathlib.Data.List.TakeWhile

/-!
# The exit message

The message of `exit` passes through `safestrcpy` with `sizeof(exit_msg)`, which is the size
of a pointer: 7 characters and a NUL are stored, and the rest of `p->exit_msg` stays as the
earlier processes in the slot left it. `wait` copies out all 32 bytes.

* `store_eq` says what `exit` makes of `p->exit_msg`.
* `Delivered` relates the message and the status of a `ZOMBIE` to the arguments of its call
  of `exit`.
-/

namespace Xv6

open TransitionSystem

variable {n : Nat}

/-! ## safestrcpy -/

/-- The string that `safestrcpy` copies when there is room for `k` characters. -/
def cstr (k : Nat) (t : List UInt8) : List UInt8 := (t.take k).takeWhile (· ≠ 0)

/-- How many bytes `safestrcpy` stores then. -/
def stored (k : Nat) (t : List UInt8) : Nat := min ((cstr k t).length + 2) (k + 1)

theorem cstr_length_le (k : Nat) (t : List UInt8) : (cstr k t).length ≤ k := by
  have h : (cstr k t).length ≤ (t.take k).length := (List.takeWhile_sublist _).length_le
  have h' := List.length_take_le k t
  omega

variable {t msg : List UInt8} {p : Slot}

theorem cstr_ne_zero {k : Nat} {b : UInt8} (h : b ∈ cstr k t) : b ≠ 0 := by
  have hb := List.mem_takeWhile_imp h
  simpa using hb

/-- The copied string, one or two NULs, and the old bytes behind them. -/
theorem safestrcpyLoop_eq {k : Nat} {s : List UInt8} (hs : k + 1 ≤ s.length) :
    safestrcpyLoop (k + 1) s t = cstr k t ++ List.replicate (stored k t - (cstr k t).length) 0 ++
      s.drop (stored k t) := by
  induction k generalizing s t with
  | zero =>
    obtain ⟨a, s, rfl⟩ := List.exists_cons_of_length_pos hs
    simp [safestrcpyLoop, nulHead, cstr, stored]
  | succ k ih =>
    obtain ⟨a, s, rfl⟩ := List.exists_cons_of_length_pos (by omega : 0 < s.length)
    have hlen : k + 1 ≤ s.length := by simpa using hs
    obtain ⟨a', s', rfl⟩ := List.exists_cons_of_length_pos (by omega : 0 < s.length)
    -- a NUL ends the string, and so does the end of `t`
    have hnul : (t.headD 0) = 0 → cstr (k + 1) t = [] := by
      intro hb
      cases t with
      | nil => rfl
      | cons b t =>
        have hb : b = 0 := hb
        simp [cstr, hb]
    by_cases hb : t.headD 0 = 0
    · rw [stored, hnul hb]
      simp only [safestrcpyLoop, hb]
      simp [nulHead]
    · cases t with
      | nil => exact absurd rfl hb
      | cons b t =>
        have hb : b ≠ 0 := hb
        have hcons : cstr (k + 1) (b :: t) = b :: cstr k t := by simp [cstr, hb]
        have hstored : stored (k + 1) (b :: t) = stored k t + 1 := by
          simp only [stored, hcons, List.length_cons]
          omega
        have hloop : safestrcpyLoop (k + 2) (a :: a' :: s') (b :: t) =
            b :: safestrcpyLoop (k + 1) (a' :: s') t := by
          simp [safestrcpyLoop, hb]
        rw [hloop, ih hlen, hstored, hcons]
        simp

/-- What `exit` makes of `p->exit_msg`. -/
theorem store_eq (old : ExitMsg) (msg : List UInt8) :
    (old.store msg).1 = cstr 7 msg ++ List.replicate (stored 7 msg - (cstr 7 msg).length) 0 ++
      old.1.drop (stored 7 msg) := by
  have hlen : 7 + 1 ≤ old.1.length := by rw [old.2]; decide
  exact safestrcpyLoop_eq hlen

/-- The string that was copied can be read back. -/
theorem takeWhile_store (old : ExitMsg) (msg : List UInt8) :
    (old.store msg).1.takeWhile (· ≠ 0) = cstr 7 msg := by
  have hlen := cstr_length_le 7 msg
  obtain ⟨k, hk⟩ : ∃ k, stored 7 msg - (cstr 7 msg).length = k + 1 :=
    ⟨stored 7 msg - (cstr 7 msg).length - 1, by unfold stored; omega⟩
  rw [store_eq, hk, List.append_assoc, List.takeWhile_append_of_pos]
  · simp [List.replicate_succ]
  · intro b hb
    simpa using cstr_ne_zero hb

/-- Two stored messages agree exactly if the copied strings and the old bytes behind them do. -/
theorem store_eq_store_iff {old old' : ExitMsg} {msg' : List UInt8} :
    old.store msg = old'.store msg' ↔
      cstr 7 msg = cstr 7 msg' ∧ old.1.drop (stored 7 msg) = old'.1.drop (stored 7 msg) := by
  constructor
  · intro h
    have hc : cstr 7 msg = cstr 7 msg' := by
      rw [← takeWhile_store old msg, h, takeWhile_store]
    have hstored : stored 7 msg' = stored 7 msg := by rw [stored, stored, hc]
    have hbytes := congrArg Subtype.val h
    rw [store_eq, store_eq, hstored, hc] at hbytes
    exact ⟨hc, List.append_cancel_left hbytes⟩
  · rintro ⟨hc, hdrop⟩
    have hstored : stored 7 msg' = stored 7 msg := by rw [stored, stored, hc]
    apply Subtype.ext
    rw [store_eq, store_eq, hstored, hc, hdrop]

/-! ## Calls of exit -/

/-- The arguments of a call of `sys_exit`: the status, the bytes that `argstr` copied, and what
    the buffer on the kernel stack held before. -/
structure ExitCall where
  n : Int
  copied : List UInt8
  stack : ExitMsg
deriving DecidableEq

/-- The argument `status` of `exit`; `usertrap` calls `exit(-1, "")` for a killed process. -/
def exitStatus : Option ExitCall → Int
  | some a => toInt a.n
  | none => -1

/-- The argument `exit_msg` of `exit`. -/
def exitBuffer : Option ExitCall → List UInt8
  | some a => argstr a.copied a.stack
  | none => [0]

/-- The process and its arguments when a step calls `exit`. -/
def State.exitCall (s : State n) (x : Fin n × Input) : Option (Slot × Option ExitCall) :=
  match s.running x.1, s.cur x.1 with
  | .proc p, .usertrap (.syscall sc) :: _ =>
    if (s.mem.proc p).killed then some (p, none)
    else
      match sc with
      | .exit n copied stack => some (p, some ⟨n, copied, stack⟩)
      | _ => none
  | .proc p, .usertrap (.killed _) :: _ =>
    if (s.mem.proc p).killed then some (p, none) else none
  | _, _ => none

/-- For every slot the last call of `exit` and what `p->exit_msg` held before it. -/
structure ExitLog where
  call : Slot → Option ExitCall
  old : Slot → ExitMsg

namespace ExitLog

def start : ExitLog := ⟨fun _ => none, fun _ => ⟨List.replicate 32 0, length_zeroBytes⟩⟩

def record (s : State n) (x : Fin n × Input) (h : ExitLog) : ExitLog where
  call :=
    match s.exitCall x with
    | some (p, a) => upd h.call p a
    | none => h.call
  old :=
    match s.op x with
    | .exitMsg p _ _ => upd h.old p (s.mem.proc p).exitMsg
    | _ => h.old

variable {s : State n} {x : Fin n × Input} {h : ExitLog} {z : Slot}

theorem record_call {a : Option ExitCall} (hx : s.exitCall x = some (z, a)) :
    (record s x h).call z = a := by
  simp [record, hx]

theorem record_call_of_ne (hx : ∀ a, s.exitCall x ≠ some (z, a)) :
    (record s x h).call z = h.call z := by
  unfold record
  cases hcall : s.exitCall x with
  | none => rfl
  | some r =>
    have hne : z ≠ r.1 := fun heq => hx r.2 (by rw [hcall, heq])
    exact upd_of_ne hne _

theorem record_old {st : Int} (hop : s.op x = .exitMsg z st msg) :
    (record s x h).old z = (s.mem.proc z).exitMsg := by
  simp [record, hop]

theorem record_old_of_ne (hop : ∀ st msg, s.op x ≠ .exitMsg z st msg) :
    (record s x h).old z = h.old z := by
  unfold record
  cases hx : s.op x with
  | exitMsg p st msg =>
    have hne : z ≠ p := fun heq => hop st msg (by rw [hx, heq])
    exact upd_of_ne hne _
  | _ => rfl

end ExitLog

/-- The kernel together with the calls of `exit`. -/
def exitLog (n : Nat) : TransitionSystem (State n × ExitLog) (Fin n × Input) :=
  (kernel n).observe ExitLog.start ExitLog.record

/-- Message and status of a process in `exit`, and of a `ZOMBIE`. -/
structure Delivered (s : State n) (h : ExitLog) : Prop where
  entry : ∀ p st msg, .exit (.entry st msg) ∈ s.stack (.proc p) →
    st = exitStatus (h.call p) ∧ msg = exitBuffer (h.call p)
  exiting : ∀ p pc st, .exit pc ∈ s.stack (.proc p) → pc.status = some st →
    st = exitStatus (h.call p) ∧
      (s.mem.proc p).exitMsg = (h.old p).store (exitBuffer (h.call p))
  zombie : ∀ z, (s.mem.proc z).state = .zombie →
    (s.mem.proc z).xstate = exitStatus (h.call z) ∧
      (s.mem.proc z).exitMsg = (h.old z).store (exitBuffer (h.call z))

/-- Only `exit` stores the message. -/
theorem Op.exitMsg_keep {m : Mem} {op : Op} {q : Slot} (hop : ∀ st msg, op ≠ .exitMsg q st msg) :
    ((op.apply m).proc q).exitMsg = (m.proc q).exitMsg := by
  by_cases ht : op.target = some q
  · rw [op.apply_proc_target m ht]
    cases op with
    | exitMsg p st msg => cases ht; exact absurd rfl (hop st msg)
    | _ => rfl
  · rw [op.apply_proc_of_ne m ht]

section

variable {s : State n} {c : Fin n} {i : Input} {rest : List Frame} {e : Effect} {h : ExitLog}

/-- `exit` is called by `usertrap` or by a system call. -/
theorem Inv.exitCall_spec (hi : Inv s) {a : Option ExitCall} (hx : s.exitCall (c, i) = some (p, a)) :
    s.running c = .proc p ∧ ∃ pc, s.stack (.proc p) = [.usertrap pc] := by
  have hstack : ∀ {q : Slot} {pc : UsertrapPc} {r : List Frame}, s.running c = .proc q →
      s.cur c = .usertrap pc :: r → s.stack (.proc q) = [.usertrap pc] := by
    intro q pc r hr hc
    have hnest := hi.nested (.proc q)
    rw [State.cur, hr] at hc
    rw [hc] at hnest ⊢
    rw [show r = [] from hnest.1]
  unfold State.exitCall at hx
  split at hx
  · rename_i q sc r hr hc
    have hpq : q = p := by
      split at hx
      · cases hx; rfl
      · split at hx
        · cases hx; rfl
        · cases hx
    exact ⟨hpq ▸ hr, _, hpq ▸ hstack hr hc⟩
  · rename_i q t r hr hc
    have hpq : q = p := by
      split at hx
      · cases hx; rfl
      · cases hx
    exact ⟨hpq ▸ hr, _, hpq ▸ hstack hr hc⟩
  · cases hx

/-- A new call of `exit` is in the log. -/
theorem Inv.exit_call_new (hi : Inv s) (hp : Planned s c i rest e) {st : Int}
    (hr : s.running c = .proc p) (hm : .exit (.entry st msg) ∈ e.frames) :
    ∃ a, s.exitCall (c, i) = some (p, a) ∧ st = exitStatus a ∧ msg = exitBuffer a := by
  cases hp with
  | user q fs hr' hc hfs =>
    have := (userEntry_spec q hfs).1 _ hm
    cases this
  | kernel fs hne hlock hfs =>
    have := (kernelEntry_spec (s.running c) hfs).1 _ hm
    cases this
  | exec f rest e hc he hk =>
    have hme := hi.thread c p hr
    rw [hme] at he
    cases effect_acts he with
    | proc q hq hp =>
      cases hq
      cases hp with
      | trapExit hpc hkilled =>
        refine ⟨none, ?_, by simpa [exitKilled, exitStatus, exitBuffer] using hm⟩
        rcases hpc with ⟨sc, rfl⟩ | ⟨t, rfl⟩ <;> simp [State.exitCall, hr, hc, hkilled]
      | trapCall sc hkilled =>
        cases sc with
        | exit n copied stack =>
          obtain ⟨hst, hmsg⟩ : st = _ ∧ msg = _ := by simpa [Syscall.frame] using hm
          exact ⟨some ⟨n, copied, stack⟩, by simp [State.exitCall, hr, hc, hkilled], hst, hmsg⟩
        | _ => simp [Syscall.frame] at hm
      | sched hr => cases hr <;> simp at hm
      | fsSleep a hf | fsWakeup a hf => rcases hf with rfl | rfl <;> simp at hm
      | _ => simp at hm
    | skipSelf hl | wake hl => cases hl <;> simp at hm
    | _ => simp at hm

variable (hi : Inv s) (hp : Planned s c i rest e) (hop : s.op (c, i) = e.op) (hd : Delivered s h)
include hi

/-- The call of a process that stands in `exit` does not change. -/
theorem Inv.call_keep {pc : ExitPc} (hm : .exit pc ∈ s.stack (.proc p)) :
    (h.record s (c, i)).call p = h.call p := by
  refine ExitLog.record_call_of_ne fun a hx => ?_
  obtain ⟨-, pc', hstk⟩ := hi.exitCall_spec hx
  rw [hstk, List.mem_singleton] at hm
  cases hm

include hp hop

/-- … and neither does the message, unless it is at the first line of `exit`. -/
theorem Inv.old_keep
    (hne : ∀ st msg, s.running c = .proc p → s.stack (.proc p) ≠ .exit (.entry st msg) :: rest) :
    (h.record s (c, i)).old p = h.old p ∧
      ((e.op.apply s.mem).proc p).exitMsg = (s.mem.proc p).exitMsg := by
  have hop' : ∀ st msg, e.op ≠ .exitMsg p st msg := by
    intro st msg hop'
    obtain ⟨hr, hstk, -⟩ := hi.exitMsg_spec hp hop'
    exact hne st msg hr hstk
  exact ⟨ExitLog.record_old_of_ne (hop ▸ hop'), Op.exitMsg_keep hop'⟩

include hd

omit hop in
theorem Delivered.entry_next (p : Slot) (st : Int) (msg : List UInt8)
    (hm : .exit (.entry st msg) ∈ (s.commit c rest e).stack (.proc p)) :
    st = exitStatus ((h.record s (c, i)).call p) ∧
      msg = exitBuffer ((h.record s (c, i)).call p) := by
  rcases hp.mem_stack (by simp) hm with ⟨hold, -⟩ | ⟨hr, hnew⟩
  · rw [hi.call_keep hold]
    exact hd.entry p st msg hold
  · obtain ⟨a, hx, hst, hmsg⟩ := hi.exit_call_new hp hr hnew
    rw [ExitLog.record_call hx]
    exact ⟨hst, hmsg⟩

theorem Delivered.exiting_next (p : Slot) (pc : ExitPc) (st : Int)
    (hm : .exit pc ∈ (s.commit c rest e).stack (.proc p)) (hst : pc.status = some st) :
    st = exitStatus ((h.record s (c, i)).call p) ∧
      ((e.op.apply s.mem).proc p).exitMsg =
        ((h.record s (c, i)).old p).store (exitBuffer ((h.record s (c, i)).call p)) := by
  rcases hp.mem_stack (by simp) hm with ⟨hold, hin⟩ | ⟨hr, hnew⟩
  · have hne : ∀ st msg, s.running c = .proc p →
        s.stack (.proc p) ≠ .exit (.entry st msg) :: rest := by
      intro st msg hr hstk
      have hnest := hi.nested (.proc p)
      rw [hstk] at hnest
      exact hnest.not_mem_rest rfl rfl (hin hr)
    obtain ⟨hold', hmsg⟩ := hi.old_keep (h := h) hp hop hne
    rw [hi.call_keep hold, hold', hmsg]
    exact hd.exiting p pc st hold hst
  · rcases hi.exit_new hp hr hnew with ⟨st', msg, rfl⟩ | ⟨pc', hstk, hnext⟩
    · cases hst
    have hmem : .exit pc' ∈ s.stack (.proc p) := mem_of_eq_cons hstk
    rw [hi.call_keep hmem]
    rcases hnext.status hst with ⟨hst', hop'⟩ | ⟨msg, rfl, hop'⟩
    · rw [ExitLog.record_old_of_ne (hop ▸ hop' p), Op.exitMsg_keep (hop' p)]
      exact hd.exiting p pc' st hmem hst'
    · -- the message is stored in this step
      obtain ⟨hst', hmsg⟩ := hd.entry p st msg hmem
      rw [ExitLog.record_old (hop.trans hop'), hop', Op.apply_proc_target _ _ rfl, ← hmsg]
      exact ⟨hst', rfl⟩

theorem Delivered.zombie_next (z : Slot) (hz : ((e.op.apply s.mem).proc z).state = .zombie) :
    ((e.op.apply s.mem).proc z).xstate = exitStatus ((h.record s (c, i)).call z) ∧
      ((e.op.apply s.mem).proc z).exitMsg =
        ((h.record s (c, i)).old z).store (exitBuffer ((h.record s (c, i)).call z)) := by
  have hused' : ((e.op.apply s.mem).proc z).state ≠ .unused := by simp [hz]
  rcases hi.zombie_step hp hz with hold | ⟨st, hop', hr, hstk⟩
  · -- a `ZOMBIE` that is still on a hart stands before `swtch`
    have hplain : ∀ f r, s.running c = .proc z → s.stack (.proc z) = f :: r →
        f.plain = false := by
      intro f r hr hstk
      have ha := hi.active c z hr
      rw [hstk] at ha
      cases hf : f.plain with
      | false => rfl
      | true => exact nomatch hold.symm.trans ((Active.of_plain hf).mp ha)
    have hcall : (h.record s (c, i)).call z = h.call z := by
      refine ExitLog.record_call_of_ne fun a hx => ?_
      obtain ⟨hr, pc, hstk⟩ := hi.exitCall_spec hx
      exact nomatch hplain _ _ hr hstk
    obtain ⟨hold', hmsg⟩ := hi.old_keep (h := h) hp hop
      (fun st msg hr hstk => nomatch hplain _ _ hr hstk)
    rw [hcall, hold', hmsg, hi.xstate_step hp hold hused']
    exact hd.zombie z hold
  · have hmem : .exit (.zombie st) ∈ s.stack (.proc z) := mem_of_eq_cons hstk
    obtain ⟨hst, hmsg⟩ := hd.exiting z (.zombie st) st hmem rfl
    rw [hi.call_keep hmem, ExitLog.record_old_of_ne (by rw [hop, hop']; simp), hop',
      Op.apply_proc_target _ _ rfl]
    exact ⟨hst, hmsg⟩

end

/-! ## Runs -/

theorem delivered_boot (b : Boot) : Delivered (State.boot n b) ExitLog.start := by
  constructor
  · intro p st msg hm
    exact nomatch mem_boot_stack hm
  · intro p pc st hm
    exact nomatch mem_boot_stack hm
  · intro z hz
    by_cases h0 : z = 0
    · rw [h0, boot_state_init] at hz
      cases hz
    · rw [boot_proc_of_ne b h0] at hz
      cases hz

theorem Delivered.step {s s' : State n} {h : ExitLog} {x : Fin n × Input} (hi : Inv s)
    (hd : Delivered s h) (hs : s.step x = some s') : Delivered s' (h.record s x) := by
  obtain ⟨rest, e, hp, -, hop, rfl⟩ := hi.step_commit hs
  exact
    { entry := hd.entry_next hi hp
      exiting := hd.exiting_next hi hp hop
      zombie := hd.zombie_next hi hp hop }

theorem delivered_reachable {x : State n × ExitLog} (hr : (exitLog n).Reachable x) :
    Delivered x.1 x.2 := by
  refine ReachableBy.induct (P := fun x => Delivered x.1 x.2) ?_ ?_ hr
  · rintro ⟨s, h⟩ ⟨⟨b, rfl⟩, rfl⟩
    exact delivered_boot b
  · intro x i y hx hd _ hs
    obtain ⟨hs, hy⟩ := observe_step.mp hs
    rw [hy]
    exact hd.step (inv_reachable (reachable_of_observe hx)) hs

/-! ## What wait stores -/

/-- The `copyout` of the message in `wait`; `u` is the memory of the waiting process. -/
def waitMessage (x : Proc) (addr2 : Nat) (u : ByteMem) : ByteMem :=
  if addr2 ≠ 0 then u.write addr2 x.exitMsg.1 else u

/-- The `copyout` of the status in `wait`. -/
def waitStatus (x : Proc) (addr : Nat) (u : ByteMem) : ByteMem :=
  if addr ≠ 0 then u.write addr (leBytes 4 x.xstate) else u

/-- The round of `wait` that reaps `x`, when both addresses are writable: the returned pid, and
    the memory of the caller. -/
def waitReap (x : Proc) (addr addr2 : Nat) (u : ByteMem) : Int × ByteMem :=
  (x.pid, waitStatus x addr (waitMessage x addr2 u))

theorem read_waitMessage {x : Proc} {addr2 : Nat} (h : addr2 ≠ 0) (u : ByteMem) :
    (waitMessage x addr2 u).read addr2 32 = x.exitMsg.1 := by
  have hread := ByteMem.read_write u addr2 x.exitMsg.1
  rw [x.exitMsg.2] at hread
  rw [waitMessage, if_pos h, hread]

variable {addr addr2 : Nat} {pp : Slot}

/-- A child that is reaped has the status and the message of its call of `exit`. -/
theorem reap_delivered {x : State n × ExitLog} {i : Fin n × Input} {s' : State n}
    (hr : (exitLog n).Reachable x) (hs : (kernel n).step x.1 i = some s')
    (hop : x.1.op i = .reap p pp addr addr2) :
    (x.1.mem.proc pp).xstate = exitStatus (x.2.call pp) ∧
      (x.1.mem.proc pp).exitMsg = (x.2.old pp).store (exitBuffer (x.2.call pp)) := by
  have hi := inv_reachable (reachable_of_observe hr)
  obtain ⟨rest, e, hp, -, hope, -⟩ := hi.step_commit hs
  exact (delivered_reachable hr).zombie pp (hp.reap_spec (hope.symm.trans hop)).2.2

/-- Two runs in which a child calls `exit` with the same arguments deliver the same 32 bytes
    exactly if the strings in the first 7 bytes of the two buffers of `sys_exit` agree and so
    do the bytes that were left in `p->exit_msg` behind them. -/
theorem exit_message_same_iff {n' : Nat} {x : State n × ExitLog} {x' : State n' × ExitLog}
    {i : Fin n × Input} {i' : Fin n' × Input} {s₁ : State n} {s₁' : State n'} {p pp p' pp' : Slot}
    {addr addr2 addr' addr2' : Nat} {k : Int} {copied : List UInt8} {stack stack' : ExitMsg}
    (hr : (exitLog n).Reachable x) (hr' : (exitLog n').Reachable x')
    (hs : (kernel n).step x.1 i = some s₁) (hs' : (kernel n').step x'.1 i' = some s₁')
    (hop : x.1.op i = .reap p pp addr addr2) (hop' : x'.1.op i' = .reap p' pp' addr' addr2')
    (hcall : x.2.call pp = some ⟨k, copied, stack⟩)
    (hcall' : x'.2.call pp' = some ⟨k, copied, stack'⟩) (ha : addr2 ≠ 0) (ha' : addr2' ≠ 0)
    (u u' : ByteMem) :
    (waitMessage (x.1.mem.proc pp) addr2 u).read addr2 32 =
        (waitMessage (x'.1.mem.proc pp') addr2' u').read addr2' 32 ↔
      cstr 7 (argstr copied stack) = cstr 7 (argstr copied stack') ∧
        (x.2.old pp).1.drop (stored 7 (argstr copied stack)) =
          (x'.2.old pp').1.drop (stored 7 (argstr copied stack)) := by
  obtain ⟨-, hmsg⟩ := reap_delivered hr hs hop
  obtain ⟨-, hmsg'⟩ := reap_delivered hr' hs' hop'
  rw [hcall] at hmsg
  rw [hcall'] at hmsg'
  rw [read_waitMessage ha, read_waitMessage ha', hmsg, hmsg', ← Subtype.ext_iff]
  exact store_eq_store_iff

/-! ## Messages that arrive -/

/-- The four bytes of the status, which are stored last, cover byte `j` of the message. -/
def Covers (addr addr2 j : Nat) : Prop := addr ≤ addr2 + j ∧ addr2 + j < addr + 4

/-- The message `m` arrives at `addr2`: both addresses are given; where the status covers the
    message it stores the same bytes; and `m` has at most 7 characters, or the status covers
    the NUL that `exit` stores after them and the rest of `m` was left in `p->exit_msg`. -/
structure Arrives (old : ExitMsg) (st : Int) (m : List UInt8) (addr addr2 : Nat) : Prop where
  addr_ne : addr ≠ 0
  addr2_ne : addr2 ≠ 0
  status : ∀ j ≤ m.length, Covers addr addr2 j →
    (leBytes 4 st)[addr2 + j - addr]? = (m ++ [0])[j]?
  rest : m.length ≤ 7 ∨ Covers addr addr2 7 ∧
    ∀ j, 8 ≤ j → j ≤ m.length → Covers addr addr2 j ∨ old.1[j]? = (m ++ [0])[j]?

theorem cstr_append_nul {m : List UInt8} (hm : 0 ∉ m) (k : Nat) :
    cstr k (m ++ 0 :: t) = m.take k := by
  induction m generalizing k with
  | nil => cases k <;> simp [cstr]
  | cons b m ih =>
    cases k with
    | zero => simp [cstr]
    | succ k =>
      have hb : b ≠ 0 := fun h => hm (h ▸ List.mem_cons_self)
      have hrec := ih (fun h => hm (List.mem_cons_of_mem _ h)) k
      simp only [cstr, List.cons_append, List.take_succ_cons, ne_eq, decide_not] at hrec ⊢
      rw [List.takeWhile_cons_of_pos (by simpa using hb), hrec]

section

variable {old : ExitMsg} (stack : ExitMsg) {m : List UInt8} {j : Nat} (hm : 0 ∉ m) (hlen : m.length ≤ 31)
include hm hlen

/-- `exit` copies the first 7 characters. -/
theorem cstr_argstr : cstr 7 (argstr (m ++ [0]) stack) = m.take 7 := by
  have htake : (m ++ [0]).take 32 = m ++ [0] := List.take_of_length_le (by simp; omega)
  rw [argstr, htake, List.append_assoc]
  exact cstr_append_nul hm 7

/-- A string of at most 7 characters arrives, and so do the first 7 of a longer one. -/
theorem store_getElem?_short (hj : j ≤ m.length) (h : j < 7 ∨ m.length ≤ 7) :
    (old.store (argstr (m ++ [0]) stack)).1[j]? = (m ++ [0])[j]? := by
  have hc := cstr_argstr stack hm hlen
  have hclen : (m.take 7).length = min 7 m.length := List.length_take
  rw [store_eq, stored, hc, hclen]
  by_cases hlt : j < min 7 m.length
  · rw [List.append_assoc, List.getElem?_append_left (by omega), List.getElem?_take_of_lt (by omega),
      List.getElem?_append_left (by omega)]
  · -- the NUL behind a short string
    have hj' : j = m.length := by omega
    have hmin : min 7 m.length = m.length := by omega
    rw [List.getElem?_append_left (by simp; omega), List.getElem?_append_right (by omega), hclen,
      hmin, hj']
    have hpos : 0 < min (m.length + 2) (7 + 1) - m.length := by omega
    simp [hpos]

/-- Behind 7 characters there is a NUL. -/
theorem store_getElem?_nul (h : 7 < m.length) :
    (old.store (argstr (m ++ [0]) stack)).1[7]? = some 0 := by
  have hc := cstr_argstr stack hm hlen
  have hclen : (m.take 7).length = 7 := by rw [List.length_take]; omega
  rw [store_eq, stored, hc, hclen, List.getElem?_append_left (by simp; omega),
    List.getElem?_append_right (by omega), hclen]
  rfl

/-- The bytes behind the first 8 stay as they were. -/
theorem store_getElem?_old (h : 7 < m.length) (hj : 8 ≤ j) :
    (old.store (argstr (m ++ [0]) stack)).1[j]? = old.1[j]? := by
  have hc := cstr_argstr stack hm hlen
  have hclen : (m.take 7).length = 7 := by rw [List.length_take]; omega
  rw [store_eq, stored, hc, hclen, List.getElem?_append_right (by simp; omega),
    List.getElem?_drop]
  congr 1
  simp
  omega

end

section

variable {x : Proc} {addr addr2 j : Nat} {u : ByteMem}

theorem waitReap_of_covers (ha : addr ≠ 0) (hc : Covers addr addr2 j) :
    (leBytes 4 x.xstate)[addr2 + j - addr]? = some ((waitReap x addr addr2 u).2 (addr2 + j)) := by
  obtain ⟨hle, hlt⟩ := hc
  have hsub : addr + (addr2 + j - addr) = addr2 + j := by omega
  have hlen : addr2 + j - addr < (leBytes 4 x.xstate).length := by
    rw [leBytes_length]
    omega
  rw [ByteMem.write_add hlen, waitReap, waitStatus, if_pos ha, hsub]

theorem waitReap_of_not_covers (ha : addr ≠ 0) (ha2 : addr2 ≠ 0) (hj : j < 32)
    (hc : ¬ Covers addr addr2 j) :
    x.exitMsg.1[j]? = some ((waitReap x addr addr2 u).2 (addr2 + j)) := by
  have hstatus : (waitReap x addr addr2 u).2 (addr2 + j) = waitMessage x addr2 u (addr2 + j) := by
    rw [waitReap, waitStatus, if_pos ha]
    rcases Nat.lt_or_ge (addr2 + j) addr with hlt | hge
    · exact ByteMem.write_of_lt hlt
    · refine ByteMem.write_of_ge ?_
      rw [leBytes_length]
      exact Nat.le_of_not_lt fun hlt => hc ⟨hge, hlt⟩
  rw [hstatus, waitMessage, if_pos ha2]
  exact ByteMem.write_add (by rw [x.exitMsg.2]; exact hj)

theorem read_waitReap (ha : addr ≠ 0) :
    (waitReap x addr addr2 u).2.read addr 4 = leBytes 4 x.xstate := by
  have hread := ByteMem.read_write (waitMessage x addr2 u) addr (leBytes 4 x.xstate)
  rw [leBytes_length] at hread
  rw [waitReap, waitStatus, if_pos ha, hread]

/-- Nothing is stored at address 0. -/
theorem waitReap_zero : (waitReap x addr addr2 u).2 0 = u 0 := by
  have hmsg : waitMessage x addr2 u 0 = u 0 := by
    unfold waitMessage
    split
    · exact ByteMem.write_of_lt (by omega)
    · rfl
  show waitStatus x addr (waitMessage x addr2 u) 0 = u 0
  unfold waitStatus
  split
  · rw [ByteMem.write_of_lt (by omega), hmsg]
  · exact hmsg

end

theorem toInt_emod_256 (v : Int) : toInt v % 256 = v % 256 := by
  have h : toInt v % 2 ^ 32 = v % 2 ^ 32 := Int.bmod_emod
  omega

/-- The first byte of an `int` in memory is its low byte. -/
theorem low_byte {b : UInt8} {bs : List UInt8} {v : Int} (h : toInt (ofBytes (b :: bs)) = toInt v) :
    (b.toNat : Int) = v % 256 := by
  have hmod := congrArg (· % 256) h
  simp only [toInt_emod_256, ofBytes] at hmod
  have hb := b.toNat_lt
  omega

/-- `Arrives` is the condition under which `wait` delivers status and message, whatever the
    memory of the waiting process held before. -/
theorem arrives_iff {x : Proc} {old stack : ExitMsg} {m : List UInt8} (addr addr2 : Nat)
    (hm : 0 ∉ m) (hlen : m.length ≤ 31) (hx : x.exitMsg = old.store (argstr (m ++ [0]) stack)) :
    (∀ u, toInt (ofBytes ((waitReap x addr addr2 u).2.read addr 4)) = toInt x.xstate ∧
      (waitReap x addr addr2 u).2.IsString addr2 m) ↔ Arrives old x.xstate m addr addr2 := by
  constructor
  · intro h
    -- two memories that differ at address 0 show that both addresses are given
    have ha : addr ≠ 0 := by
      intro ha
      have hlow : ∀ u : ByteMem, ((u 0).toNat : Int) = x.xstate % 256 := by
        intro u
        have hint := (h u).1
        rw [ByteMem.read_succ] at hint
        rw [← low_byte hint, ha, waitReap_zero]
      have h0 := hlow fun _ => 0
      have h1 := hlow fun _ => 1
      exact absurd (h0.trans h1.symm) (by decide)
    have ha2 : addr2 ≠ 0 := by
      intro ha2
      have hfirst : ∀ u : ByteMem, (m ++ [0])[0]? = some (u 0) := by
        intro u
        have hstr := ByteMem.isString_iff.mp (h u).2 0 (Nat.zero_le _)
        rwa [ha2, Nat.add_zero, waitReap_zero] at hstr
      have h0 := hfirst fun _ => 0
      have h1 := hfirst fun _ => 1
      exact absurd (Option.some.inj (h0.symm.trans h1)) (by decide)
    have hbyte := ByteMem.isString_iff.mp (h fun _ => 0).2
    -- outside the status the stored message must agree with `m`
    have hmsg : ∀ j ≤ m.length, ¬ Covers addr addr2 j →
        (old.store (argstr (m ++ [0]) stack)).1[j]? = (m ++ [0])[j]? := by
      intro j hj hc
      rw [hbyte j hj, ← hx]
      exact waitReap_of_not_covers ha ha2 (by omega) hc
    refine ⟨ha, ha2, fun j hj hc => (waitReap_of_covers ha hc).trans (hbyte j hj).symm, ?_⟩
    by_cases hshort : m.length ≤ 7
    · exact .inl hshort
    have hlong : 7 < m.length := by omega
    refine .inr ⟨?_, fun j h8 hj => ?_⟩
    · by_contra hc
      have h7 := hmsg 7 (by omega) hc
      rw [store_getElem?_nul stack hm hlen hlong, List.getElem?_append_left hlong] at h7
      exact hm (List.mem_of_getElem? h7.symm)
    · by_cases hc : Covers addr addr2 j
      · exact .inl hc
      · rw [← hmsg j hj hc, store_getElem?_old stack hm hlen hlong h8]
        exact .inr rfl
  · intro h u
    refine ⟨by rw [read_waitReap h.addr_ne, toInt_ofBytes_leBytes], ?_⟩
    refine ByteMem.isString_iff.mpr fun j hj => ?_
    by_cases hc : Covers addr addr2 j
    · rw [← h.status j hj hc, waitReap_of_covers h.addr_ne hc]
    · rw [← waitReap_of_not_covers h.addr_ne h.addr2_ne (by omega) hc, hx]
      rcases h.rest with hshort | ⟨h7, hold⟩
      · exact (store_getElem?_short stack hm hlen hj (.inr hshort)).symm
      · by_cases hj7 : j < 7
        · exact (store_getElem?_short stack hm hlen hj (.inl hj7)).symm
        · have hne : j ≠ 7 := fun heq => hc (heq ▸ h7)
          rw [store_getElem?_old stack hm hlen (by omega) (by omega)]
          exact ((hold j (by omega) hj).resolve_left hc).symm

/-- A child calls `exit` with a status and a readable string `m` of at most 31 characters, and
    its parent reaps it. `wait` returns its pid and delivers status and message, whatever the
    memory of the parent held before, exactly if `Arrives` holds. -/
theorem exit_message_arrives_iff {x : State n × ExitLog} {i : Fin n × Input} {s' : State n}
    {p pp : Slot} {addr addr2 : Nat} {k : Int} {m : List UInt8} {stack : ExitMsg}
    (hr : (exitLog n).Reachable x) (hs : (kernel n).step x.1 i = some s')
    (hop : x.1.op i = .reap p pp addr addr2) (hcall : x.2.call pp = some ⟨k, m ++ [0], stack⟩)
    (hm : 0 ∉ m) (hlen : m.length ≤ 31) :
    (∀ u, (waitReap (x.1.mem.proc pp) addr addr2 u).1 = (x.1.mem.proc pp).pid ∧
      toInt (ofBytes ((waitReap (x.1.mem.proc pp) addr addr2 u).2.read addr 4)) = toInt k ∧
      (waitReap (x.1.mem.proc pp) addr addr2 u).2.IsString addr2 m) ↔
    Arrives (x.2.old pp) (toInt k) m addr addr2 := by
  obtain ⟨hst, hmsg⟩ := reap_delivered hr hs hop
  rw [hcall] at hst hmsg
  have hint : toInt (x.1.mem.proc pp).xstate = toInt k := by
    rw [hst]
    exact Int.bmod_bmod
  have harr := arrives_iff addr addr2 hm hlen hmsg
  rw [hint, hst] at harr
  exact (forall_congr' fun u => and_iff_right rfl).trans harr

/-- The slot and the addresses when a call of `wait` reaps a child. -/
def Op.reaps : Op → Option (Slot × Slot × Nat × Nat)
  | .reap p pp addr addr2 => some (p, pp, addr, addr2)
  | _ => none

theorem Op.eq_of_reaps {op : Op}
    (h : op.reaps = some (p, pp, addr, addr2)) : op = .reap p pp addr addr2 := by
  cases op with
  | reap p pp addr addr2 =>
    cases h
    rfl
  | _ => cases h

/-- A buffer of zeros. -/
def zeroMsg : ExitMsg := ⟨List.replicate 32 0, length_zeroBytes⟩

/-- The child on hart 1 calls `exit`. -/
def exitCallRun (a : ExitCall) : List (Fin 2 × Input) :=
  [(1, .syscall (.exit a.n a.copied a.stack))] ++ List.replicate 156 (1, .run)

/-- Fork a child into slot 1 and let it call `exit`. -/
def firstChildRun (a : ExitCall) : List (Fin 2 × Input) :=
  forkRun ++ List.replicate 7 (1, .run) ++ exitCallRun a

/-- Reap that child, fork the next one into slot 1 and let it call `exit`. -/
def secondChildRun (a : ExitCall) : List (Fin 2 × Input) :=
  waitRun 4096 8192 ++ forkAgainRun ++ List.replicate 130 (1, .run) ++ exitCallRun a

/-- The state in which the next step of hart 0 reaps the child in slot 1. -/
def reapState (l : List (Fin 2 × Input)) : Option (State 2 × ExitLog) :=
  (exitLog 2).run (State.boot 2 ⟨1, 2, 3, 0⟩, ExitLog.start) (l ++ (waitRun 4096 8192).dropLast)

/-- The call of `exit` of the child, the call of `wait` that reaps it, and some bytes. -/
structure Delivery where
  call : Option ExitCall
  reaps : Option (Slot × Slot × Nat × Nat)
  bytes : List UInt8
deriving DecidableEq

/-- With what the parent then has at address 8192. -/
def delivery (l : List (Fin 2 × Input)) : Option Delivery :=
  (reapState l).map fun x =>
    ⟨x.2.call 1, (x.1.op (0, .run)).reaps,
      (waitReap (x.1.mem.proc 1) 4096 8192 fun _ => 0).2.read 8192 32⟩

/-- With what `p->exit_msg` of the child held before its call of `exit`. -/
def reapable (l : List (Fin 2 × Input)) : Option (Bool × Delivery) :=
  (reapState l).map fun x =>
    (((kernel 2).step x.1 (0, .run)).isSome,
      ⟨x.2.call 1, (x.1.op (0, .run)).reaps, (x.2.old 1).1⟩)

theorem reapable_spec {l : List (Fin 2 × Input)} {a : ExitCall} {old : List UInt8}
    (h : reapable l = some (true, ⟨some a, some (0, 1, 4096, 8192), old⟩)) :
    ∃ x s', (exitLog 2).Reachable x ∧ reapState l = some x ∧
      (kernel 2).step x.1 (0, .run) = some s' ∧ x.1.op (0, .run) = .reap 0 1 4096 8192 ∧
      x.2.call 1 = some a ∧ (x.2.old 1).1 = old := by
  obtain ⟨x, hx, h⟩ := Option.map_eq_some_iff.mp h
  simp only [Prod.mk.injEq, Delivery.mk.injEq] at h
  obtain ⟨hstep, hcall, hop, hold⟩ := h
  obtain ⟨s', hs⟩ := Option.isSome_iff_exists.mp hstep
  have hr : (exitLog 2).Reachable x := reachable_run (.init ⟨⟨_, rfl⟩, rfl⟩) hx
  exact ⟨x, s', hr, hx, hs, Op.eq_of_reaps hop, hcall, hold⟩

/-- The message `"hi"` arrives. -/
theorem exit_message_arrives_iff_hi : ∃ x s',
    reapState (firstChildRun ⟨7, [104, 105, 0], zeroMsg⟩) = some x ∧
      (kernel 2).step x.1 (0, .run) = some s' ∧ x.1.op (0, .run) = .reap 0 1 4096 8192 ∧
      ∀ u, (waitReap (x.1.mem.proc 1) 4096 8192 u).1 = (x.1.mem.proc 1).pid ∧
        toInt (ofBytes ((waitReap (x.1.mem.proc 1) 4096 8192 u).2.read 4096 4)) = toInt 7 ∧
        (waitReap (x.1.mem.proc 1) 4096 8192 u).2.IsString 8192 [104, 105] := by
  have hrun : reapable (firstChildRun ⟨7, [104, 105, 0], zeroMsg⟩) =
      some (true, ⟨some ⟨7, [104, 105, 0], zeroMsg⟩, some (0, 1, 4096, 8192),
        List.replicate 32 0⟩) := by decide +kernel
  obtain ⟨x, s', hr, hx, hs, hop, hcall, -⟩ := reapable_spec hrun
  refine ⟨x, s', hx, hs, hop, ?_⟩
  refine (exit_message_arrives_iff (m := [104, 105]) hr hs hop hcall (by decide) (by decide)).mpr ?_
  refine ⟨by decide, by decide, fun j hj hc => ?_, .inl (by decide)⟩
  obtain ⟨-, hlt⟩ := hc
  omega

/-- `"12345678"` is cut to 7 characters. -/
theorem exit_message_truncated :
    delivery (firstChildRun ⟨7, [49, 50, 51, 52, 53, 54, 55, 56, 0], zeroMsg⟩) =
      some ⟨some ⟨7, [49, 50, 51, 52, 53, 54, 55, 56, 0], zeroMsg⟩, some (0, 1, 4096, 8192),
        [49, 50, 51, 52, 53, 54, 55] ++ List.replicate 25 0⟩ := by
  decide +kernel

/-- Two children that call `exit(0, "hi")` with different bytes on the kernel stack. -/
theorem exit_message_same_iff_hi : ∃ x x' : State 2 × ExitLog,
    reapState (firstChildRun ⟨0, [104, 105, 0], zeroMsg⟩) = some x ∧
      reapState (firstChildRun ⟨0, [104, 105, 0], ⟨List.replicate 32 65, by simp⟩⟩) = some x' ∧
      ∀ u u', (waitMessage (x.1.mem.proc 1) 8192 u).read 8192 32 =
        (waitMessage (x'.1.mem.proc 1) 8192 u').read 8192 32 := by
  have hrun : reapable (firstChildRun ⟨0, [104, 105, 0], zeroMsg⟩) =
      some (true, ⟨some ⟨0, [104, 105, 0], zeroMsg⟩, some (0, 1, 4096, 8192),
        List.replicate 32 0⟩) := by decide +kernel
  have hrun' : reapable (firstChildRun ⟨0, [104, 105, 0], ⟨List.replicate 32 65, by simp⟩⟩) =
      some (true, ⟨some ⟨0, [104, 105, 0], ⟨List.replicate 32 65, by simp⟩⟩,
        some (0, 1, 4096, 8192), List.replicate 32 0⟩) := by decide +kernel
  obtain ⟨x, s₁, hr, hx, hs, hop, hcall, hold⟩ := reapable_spec hrun
  obtain ⟨x', s₁', hr', hx', hs', hop', hcall', hold'⟩ := reapable_spec hrun'
  refine ⟨x, x', hx, hx', fun u u' => ?_⟩
  refine (exit_message_same_iff hr hr' hs hs' hop hop' hcall hcall' (by decide) (by decide)
    u u').mpr ⟨by decide, ?_⟩
  rw [hold, hold']

/-- A child that calls `exit(0, "")` delivers 32 zeros if its slot was never used, and part of
    the message of an earlier child, `"secret"`, if that child had the slot before. A child
    whose message cannot be read delivers what the kernel stack held. -/
theorem exit_message_leaks :
    (delivery (firstChildRun ⟨0, [0], zeroMsg⟩) =
      some ⟨some ⟨0, [0], zeroMsg⟩, some (0, 1, 4096, 8192), List.replicate 32 0⟩ ∧
    delivery (firstChildRun ⟨0, [115, 101, 99, 114, 101, 116, 0], zeroMsg⟩ ++
        secondChildRun ⟨0, [0], zeroMsg⟩) =
      some ⟨some ⟨0, [0], zeroMsg⟩, some (0, 1, 4096, 8192),
        [0, 0, 99, 114, 101, 116] ++ List.replicate 26 0⟩) ∧
    (delivery (firstChildRun ⟨0, [], zeroMsg⟩) =
      some ⟨some ⟨0, [], zeroMsg⟩, some (0, 1, 4096, 8192), List.replicate 32 0⟩ ∧
    delivery (firstChildRun ⟨0, [], ⟨List.replicate 32 65, by simp⟩⟩) =
      some ⟨some ⟨0, [], ⟨List.replicate 32 65, by simp⟩⟩, some (0, 1, 4096, 8192),
        List.replicate 7 65 ++ List.replicate 25 0⟩) := by
  decide +kernel

end Xv6
