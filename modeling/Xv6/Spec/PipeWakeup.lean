import Xv6.Spec.PipeFifo
import Xv6.Spec.OpSpec

/-!
# No user of a pipe sleeps when it could go on

A process that waits for the pipe is blocked by it, or the holder of the lock still has to wake it. The
one exit of `pipewrite` that forgets to is the return of -1 after bytes were stored: a writer that is
killed, or that has lost its readers, in the middle of its loop leaves without `wakeup(&pi->nread)`.

* `WakesReaders`: no writer leaves that way while somebody waits on `&pi->nread`.
* `pipe_no_lost_wakeup`: under this condition nobody sleeps for nothing.
* `reader_sleeps_on`: a run in which a reader sleeps on a pipe with a byte in it.
-/

namespace Xv6

open TransitionSystem

namespace Pipes

/-- The pipe keeps those waiting that sleep on this side. -/
def Pipe.Blocks (pi : Pipe) : Side → Prop
  | .nread => pi.Empty ∧ pi.writeopen = true
  | .nwrite => pi.Full ∧ pi.readopen = true

/-- The process is about to go to sleep on this side and has given up `pi->lock`. -/
def Pc.sets (e : Side) (pc : Pc) : Bool := pc.sleep = some (e, .set)

/-- Process `q` sleeps on this side or is about to. -/
def Waiting (pi : Nat) (s : State) (e : Side) (q : Slot) : Prop :=
  (s.pc q).any (Pc.sets e) = true ∨ asleep (e.chan pi) (s.mem.proc q)

instance (pi : Nat) (s : State) (e : Side) (q : Slot) : Decidable (Waiting pi s e q) :=
  inferInstanceAs (Decidable (_ ∨ _))

/-- The call goes on to wake process `q` if that waits on this side. -/
def Pc.Owes (e : Side) (q : Slot) : Pc → Prop
  | writeLoop w | writeFail w => e = .nread ∧ w.stored = true
  | pc => ∃ k, pc.scan = some (e, k) ∧ k ≤ q.val

variable {c : Pc} {e : Side}

theorem holds_of_owes {q : Slot} (h : c.Owes e q) : c.holds = true := by
  cases c <;> first | rfl | exact nomatch h.choose_spec.1

theorem owes_of_scan {k : Nat} (hscan : c.scan = some (e, k)) (e' : Side) (q : Slot) :
    (c.Owes e' q ↔ e' = e ∧ k ≤ q.val) ∧ (c.scanned.Owes e' q ↔ e' = e ∧ k + 1 ≤ q.val) := by
  cases c with
  | writeFull | writeEnd | readEnd | closeEnd =>
    cases hscan
    simp [Pc.Owes, Pc.scan, Pc.scanned, eq_comm]
  | _ => cases hscan

/-- A call in `sleep` or one that has not taken the lock yet owes nothing. -/
theorem not_owes (h : c.holds = false ∨ ∃ x, c.sleep = some x) (e : Side) (q : Slot) :
    ¬ c.Owes e q := by
  intro ho
  obtain h | ⟨x, h⟩ := h
  · exact absurd (holds_of_owes ho) (by simp [h])
  · cases c with
    | writeSleep | readSleep => exact nomatch ho.choose_spec.1
    | _ => cases h

/-- The place of a process that is asleep. -/
def Parked (pc : Slot → Option Pc) (q : Slot) : Prop :=
  ∃ c e, pc q = some c ∧ c.sleep = some (e, .parked)

/-- The process is in `sleep` and holds its own lock. -/
def Pc.locksSelf (pc : Pc) : Bool :=
  match pc.sleep with
  | some (_, .unlock) | some (_, .set) => true
  | _ => false

/-- Whoever waits is blocked or will be woken. -/
structure Awake (pi : Nat) (s : State) : Prop where
  parked : ∀ q e, asleep (Side.chan pi e) (s.mem.proc q) → Parked s.pc q
  plock : ∀ q c, s.pc q = some c → c.locksSelf = true → s.plock q = true
  owed : ∀ e q, Waiting pi s e q → s.pipe.Blocks e ∨ ∃ p c, s.pc p = some c ∧ c.Owes e q

/-! ## Sleeping processes -/

section Ops

variable {m : Mem} {ch : Chan} {op : Op} {p q : Slot}

theorem asleep_of_apply (ht : op.target = some p)
    (hx : asleep ch (op.write m (m.proc p)) → asleep ch (m.proc p))
    (h : asleep ch ((op.apply m).proc q)) : asleep ch (m.proc q) := by
  by_cases hq : q = p
  · subst hq
    rw [op.apply_proc_target m ht] at h
    exact hx h
  · rwa [op.apply_proc_of_ne m (by rw [ht]; exact fun heq => hq (Option.some.inj heq).symm)] at h

theorem asleep_of_wakeup {o : Option Chan} (h : asleep ch (((Op.wakeup o p).apply m).proc q)) :
    asleep ch (m.proc q) := by
  refine asleep_of_apply rfl (fun hx => ?_) h
  simp only [asleep, Op.write] at hx ⊢
  split at hx
  · cases hx.1
  · exact hx

theorem asleep_of_kill {pid : Int} (h : asleep ch (((Op.kill p pid).apply m).proc q)) :
    asleep ch (m.proc q) := by
  refine asleep_of_apply rfl (fun hx => ?_) h
  simp only [asleep, Op.write] at hx ⊢
  split at hx
  · cases hx.1
  · exact hx

theorem asleep_of_awake (h : asleep ch (((Op.awake p).apply m).proc q)) : asleep ch (m.proc q) := by
  refine asleep_of_apply rfl (fun hx => ?_) h
  exact nomatch hx.2

theorem asleep_of_dispatch (h : asleep ch (((Op.dispatch p).apply m).proc q)) :
    asleep ch (m.proc q) := by
  refine asleep_of_apply rfl (fun hx => ?_) h
  exact nomatch hx.1

/-- The process that `wakeup` has come to does not sleep on its channel any more. -/
theorem not_asleep_wakeup : ¬ asleep ch (((Op.wakeup (some ch) p).apply m).proc p) := by
  rw [Op.apply_proc_target _ _ rfl]
  simp only [asleep, Op.write]
  split
  · exact fun h => by cases h.1
  · assumption

end Ops

section Parts

variable {pi : Nat} {s s' : State} {x : Input} {p : Slot} {o : Option Pc}

/-- A process that is not parked may go to any place. -/
theorem parked_goto (h : ∀ q e, asleep (Side.chan pi e) (s.mem.proc q) → Parked s.pc q)
    (hp : ¬ Parked s.pc p) {m : Mem}
    (hm : ∀ q e, asleep (Side.chan pi e) (m.proc q) → asleep (Side.chan pi e) (s.mem.proc q)) :
    ∀ q e, asleep (Side.chan pi e) (m.proc q) → Parked (upd s.pc p o) q := by
  intro q e hq
  obtain ⟨c, e', hc, hsleep⟩ := h q e (hm q e hq)
  have hne : q ≠ p := by
    rintro rfl
    exact hp ⟨c, e', hc, hsleep⟩
  exact ⟨c, e', by rw [upd_of_ne hne, hc], hsleep⟩

theorem not_parked (hpc : s.pc p = some c) (hc : ∀ e, c.sleep ≠ some (e, .parked)) :
    ¬ Parked s.pc p := by
  rintro ⟨c', e, hc', hsleep⟩
  rw [hpc] at hc'
  cases hc'
  exact hc e hsleep

variable {sp : SleepPc}

theorem sleep_ne_of_holds (h : c.holds = true) (hsp : sp ≠ .lock ∧ sp ≠ .unlock) :
    c.sleep ≠ some (e, sp) := by
  intro hc
  rw [holds_of_sleep hc] at h
  simp [hsp.1, hsp.2] at h

theorem sleep_withSleep (h : c.sleep = some (e, sp)) (sp' : SleepPc) :
    (c.withSleep sp').sleep = some (e, sp') := by
  cases c <;> first | (cases h; rfl) | cases h

theorem parked_step (h : Awake pi s) (hs : Step pi s x s') :
    ∀ q e, asleep (Side.chan pi e) (s'.mem.proc q) → Parked s'.pc q := by
  -- the processor of the process is in a call and not in `swtch`
  have busy {p : Slot} {c : Pc} (hpc : s.pc p = some c) (hc : ∀ e, c.sleep ≠ some (e, .parked))
      {o : Option Pc} : ∀ q e, asleep (Side.chan pi e) (s.mem.proc q) → Parked (upd s.pc p o) q :=
    parked_goto h.parked (not_parked hpc hc) fun _ _ => id
  have other {c : Pc} {e : Side} {sp : SleepPc} (hsleep : c.sleep = some (e, sp))
      (hsp : sp ≠ .parked) : ∀ e, c.sleep ≠ some (e, .parked) := by
    intro e' heq
    rw [hsleep] at heq
    cases heq
    exact hsp rfl
  cases hs with
  | call x p pc hr hpc hread =>
    refine parked_goto h.parked ?_ fun _ _ => id
    rintro ⟨c, e, hc, -⟩
    rw [hr.1] at hc
    cases hc
  | acquire p pc pc' hpc hlk hmove =>
    obtain ⟨w, rfl, rfl⟩ | ⟨r, rfl, rfl⟩ := hmove <;> exact busy hpc nofun
  | close p b hpc hlk | put p w ch hpc hfull | copy p r hpc hwait | killNext p pid k hpc
  | killDone p pid k hpc => exact busy hpc nofun
  | move p pc pc' hpc hmove => exact busy hpc fun _ => sleep_ne_of_holds hmove.holds (by decide)
  | wake p q pc e hpc hscan hne hq =>
    refine parked_goto h.parked (not_parked hpc fun _ => ?_) fun _ _ => asleep_of_wakeup
    exact sleep_ne_of_holds (holds_of_scan hscan).1 (by decide)
  | release p pc hpc hlast =>
    exact busy hpc fun _ => sleep_ne_of_holds (holds_of_last hlast) (by decide)
  | sleepLock p pc e hpc hsleep | sleepUnlock p pc e hpc hsleep =>
    exact busy hpc (other hsleep nofun)
  | sleepSet p pc e hpc hsleep =>
    intro q e' hq
    by_cases hqp : q = p
    · subst hqp
      exact ⟨_, e, upd_self _ _ _, sleep_withSleep hsleep _⟩
    · have ht : (Op.sleep p (e.chan pi)).target ≠ some q := fun ht => hqp (Option.some.inj ht).symm
      rw [Op.apply_proc_of_ne _ _ ht] at hq
      exact busy hpc (other hsleep nofun) q e' hq
  | sleepWake p pc e hpc hsleep =>
    exact parked_goto h.parked (not_parked hpc (other hsleep nofun)) fun _ _ => asleep_of_awake
  | kill p q pid k hpc =>
    exact parked_goto h.parked (not_parked hpc nofun) fun _ _ => asleep_of_kill
  | switched p pc e hpc hsleep => exact h.parked
  | dispatch p pc e hpc hsleep =>
    intro q e' hq
    have hqp : q ≠ p := by
      rintro rfl
      rw [Op.apply_proc_target _ _ rfl] at hq
      exact nomatch hq.1
    obtain ⟨c, e'', hc, hpark⟩ := h.parked q e' (asleep_of_dispatch hq)
    exact ⟨c, e'', by rw [← hc]; exact upd_of_ne hqp _, hpark⟩
  | other p x hpc hx =>
    intro q e hq
    have hqp : q ≠ p := by
      rintro rfl
      exact hx e (by simpa using hq)
    exact h.parked q e (by simpa [hqp] using hq)

variable {pc pc' : Pc}

theorem locksSelf_of_move (h : Move s p pc pc') : pc'.locksSelf = false := by
  cases h with
  | skip pc e hscan => cases pc <;> first | rfl | cases hscan
  | _ => rfl

/-- A process that is about to switch away holds its own lock. -/
theorem plock_step (h : Awake pi s) (hs : Step pi s x s') :
    ∀ q c, s'.pc q = some c → c.locksSelf = true → s'.plock q = true := by
  have goto {p : Slot} {o : Option Pc} {f : Slot → Bool} (hf : ∀ q, q ≠ p → f q = s.plock q)
      (hp : ∀ c, o = some c → c.locksSelf = true → f p = true) :
      ∀ q c, upd s.pc p o q = some c → c.locksSelf = true → f q = true := by
    intro q c
    by_cases hq : q = p
    · subst hq
      rw [upd_self]
      exact hp c
    · rw [upd_of_ne hq, hf q hq]
      exact h.plock q c
  have free {p : Slot} {c : Pc} {f : Slot → Bool} (hf : ∀ q, q ≠ p → f q = s.plock q)
      (hc : c.locksSelf = false) :
      ∀ q c', upd s.pc p (some c) q = some c' → c'.locksSelf = true → f q = true := by
    refine goto hf ?_
    rintro _ ⟨⟩ htrue
    exact absurd htrue (by simp [hc])
  cases hs with
  | call x p pc hr hpc hread =>
    refine free (fun _ _ => rfl) ?_
    cases pc <;> first | rfl | exact hpc.elim
  | acquire p pc pc' hpc hlk hmove =>
    refine free (fun _ _ => rfl) ?_
    obtain ⟨w, rfl, rfl⟩ | ⟨r, rfl, rfl⟩ := hmove <;> rfl
  | close p b hpc hlk | put p w ch hpc hfull | copy p r hpc hwait | killNext p pid k hpc =>
    exact free (fun _ _ => rfl) rfl
  | move p pc pc' hpc hmove => exact free (fun _ _ => rfl) (locksSelf_of_move hmove)
  | wake p q pc e hpc hscan hne hq =>
    refine free (fun _ _ => rfl) ?_
    cases pc <;> first | rfl | cases hscan
  | release p pc hpc hlast | kill p q pid k hpc | killDone p pid k hpc =>
    exact goto (fun _ _ => rfl) nofun
  | sleepLock p pc e hpc hsleep =>
    exact goto (fun q hq => upd_of_ne hq _) fun _ _ _ => upd_self _ _ _
  | sleepUnlock p pc e hpc hsleep =>
    refine goto (fun _ _ => rfl) fun _ _ _ => h.plock p pc hpc ?_
    simp [Pc.locksSelf, hsleep]
  | sleepSet p pc e hpc hsleep =>
    refine free (fun _ _ => rfl) ?_
    simp [Pc.locksSelf, sleep_withSleep hsleep]
  | sleepWake p pc e hpc hsleep =>
    refine free (fun q hq => upd_of_ne hq _) ?_
    cases pc <;> rfl
  | switched p pc e hpc hsleep =>
    have hpark : pc.locksSelf = false := by simp [Pc.locksSelf, hsleep]
    rw [← upd_of_eq hpc]
    exact free (fun q hq => upd_of_ne hq _) hpark
  | dispatch p pc e hpc hsleep =>
    exact goto (fun q hq => upd_of_ne hq _) fun _ _ _ => upd_self _ _ _
  | other p x hpc hx => exact h.plock

/-! ## Who waits -/

variable {q : Slot}

/-- A step after which `p` is not about to sleep gives nobody a reason to wait. -/
theorem waiting_of_goto (h : Waiting pi s' e q) (hpc : s'.pc = upd s.pc p o)
    (ho : ∀ c, o = some c → c.sets e = false)
    (hm : asleep (e.chan pi) (s'.mem.proc q) → asleep (e.chan pi) (s.mem.proc q)) :
    Waiting pi s e q := by
  obtain h | h := h
  · refine .inl ?_
    rw [hpc] at h
    by_cases hq : q = p
    · subst hq
      rw [upd_self] at h
      cases o with
      | none => cases h
      | some c => exact absurd h (by simp [ho c rfl])
    · rwa [upd_of_ne hq] at h
  · exact .inr (hm h)

/-- Nobody but `p` can hold the lock, and `p` owes nothing: whoever waits is blocked. -/
theorem blocks_of_waiting (h : Awake pi s) (hh : Held s.lk s.pc s.pipe)
    (hlk : ∀ p', s.lk = some p' → p' = p) (hp : ∀ c, s.pc p = some c → ¬ c.Owes e q)
    (hw : Waiting pi s e q) : s.pipe.Blocks e := by
  obtain hb | ⟨p', c, hc, howes⟩ := h.owed e q hw
  · exact hb
  · have heq := hlk p' ((hh p' c hc).1 (holds_of_owes howes))
    subst heq
    exact absurd howes (hp c hc)

/-- A step that leaves the pipe alone and after which `p` still owes what it owed. -/
theorem owed_of_goto (h : Awake pi s) (hpc : s'.pc = upd s.pc p o) (hpipe : s'.pipe = s.pipe)
    (hp : ∀ c, s.pc p = some c → c.Owes e q → ∃ c', o = some c' ∧ c'.Owes e q) (hw : Waiting pi s e q) :
    s'.pipe.Blocks e ∨ ∃ p c, s'.pc p = some c ∧ c.Owes e q := by
  obtain hb | ⟨p', c, hc, howes⟩ := h.owed e q hw
  · exact .inl (hpipe ▸ hb)
  · refine .inr ?_
    rw [hpc]
    by_cases heq : p' = p
    · subst heq
      obtain ⟨c', rfl, howes'⟩ := hp c hc howes
      exact ⟨p', c', upd_self _ _ _, howes'⟩
    · exact ⟨p', c, by rw [upd_of_ne heq, hc], howes⟩

/-- A process in a call waits only at its own place of `sleep`. -/
theorem not_waiting (h : Awake pi s) (hpc : s.pc p = some c) (hc : c.sleep = none) :
    ¬ Waiting pi s e p := by
  rintro (hw | hw)
  · simp [hpc, Pc.sets, hc] at hw
  · obtain ⟨c', e', hc', hsleep⟩ := h.parked p e hw
    rw [hpc] at hc'
    cases hc'
    exact nomatch hc.symm.trans hsleep

theorem sleep_of_scan {y : Side × Nat} (h : c.scan = some y) :
    c.sleep = none ∧ c.scanned.sleep = none := by
  cases c <;> first | exact ⟨rfl, rfl⟩ | cases h

theorem sets_of_sleep {e' : Side} (h : c.sleep = some (e, sp)) (hsp : sp ≠ .set) :
    c.sets e' = false := by
  simp [Pc.sets, h, hsp]

/-- Going on, the holder of the lock still wakes whom it had to wake. -/
theorem Move.owes (h : Awake pi s) (hpc : s.pc p = some pc)
    (hm : Move s p pc pc') (hw : Waiting pi s e q) (howes : pc.Owes e q) : pc'.Owes e q := by
  cases hm with
  | fail w => exact howes
  | full w hopen hfull | stop w => exact ⟨0, by rw [howes.1]; rfl, Nat.zero_le _⟩
  | sleepWrite w k hk =>
    have hle := (((owes_of_scan (c := .writeFull w k) rfl e q).1).mp howes).2
    have hlt : q.val < NPROC := q.isLt
    omega
  | killed r | sleepRead r hempty hopen => exact nomatch howes.choose_spec.1
  | skip pc e' hscan =>
    obtain ⟨hold, hnew⟩ := owes_of_scan hscan e q
    obtain ⟨he, hle⟩ := hold.mp howes
    -- the process that scans does not wait itself
    have hne : p.val ≠ q.val := by
      intro heq
      rw [← Fin.ext heq] at hw
      exact not_waiting h hpc (sleep_of_scan hscan).1 hw
    exact hnew.mpr ⟨he, by omega⟩

theorem sets_of_move (h : Move s p pc pc') : pc'.sets e = false := by
  cases h with
  | skip pc e' hscan => simp [Pc.sets, (sleep_of_scan hscan).2]
  | sleepWrite | sleepRead => cases e <;> rfl
  | _ => rfl

theorem chan_injective {e' : Side} (h : e.chan pi = e'.chan pi) : e = e' := by
  cases e <;> cases e' <;> first | rfl | simp [Side.chan, nreadChan, nwriteChan] at h

theorem plock_of_sets (h : Awake pi s) (hq : (s.pc q).any (Pc.sets e) = true) :
    s.plock q = true := by
  cases hc : s.pc q with
  | none => simp [hc] at hq
  | some c =>
    simp only [hc, Option.any_some, Pc.sets, decide_eq_true_eq] at hq
    exact h.plock q c hc (by simp [Pc.locksSelf, hq])

/-- Whoever goes to sleep has seen that the pipe blocks it. -/
theorem blocks_of_sleep {pi : Pipe} (h : c.sleep = some (e, sp)) (hsp : sp = .lock ∨ sp = .unlock)
    (hs : c.Sees pi) : pi.Blocks e := by
  cases c <;> first | (cases h; exact hs hsp) | cases h

/-- The writer leaves its loop with -1 after it has stored bytes. -/
def gaveUp : Option Pc → Bool
  | some (.writeFail w) => w.stored
  | _ => false

/-- A writer does not leave with -1 after it has stored bytes, while somebody waits for bytes. -/
def WakesReaders (pi : Nat) (s : State) : Input → Prop
  | .step p => gaveUp (s.pc p) = true → ∀ q, ¬ Waiting pi s .nread q
  | _ => True

instance (pi : Nat) (s : State) : (x : Input) → Decidable (WakesReaders pi s x)
  | .step _ => inferInstanceAs (Decidable (_ → _))
  | .write _ _ _ | .read _ _ _ | .close _ _ | .kill _ _ | .switched _ | .dispatch _ | .other _ _ =>
    .isTrue trivial

theorem owed_step (h : Awake pi s) (hh : Held s.lk s.pc s.pipe) (hx : WakesReaders pi s x)
    (hs : Step pi s x s') (e : Side) (q : Slot) (hw : Waiting pi s' e q) :
    s'.pipe.Blocks e ∨ ∃ p c, s'.pc p = some c ∧ c.Owes e q := by
  -- the holder of the lock is alone
  have alone {p : Slot} {pc : Pc} (hpc : s.pc p = some pc) (hl : pc.holds = true) :
      ∀ p', s.lk = some p' → p' = p := by
    intro p' heq
    rw [(hh p pc hpc).1 hl] at heq
    exact (Option.some.inj heq).symm
  -- a process whose place before the step owes nothing
  have quiet {p : Slot} {pc : Pc} {o : Option Pc} (hpc : s.pc p = some pc)
      (hc : pc.holds = false ∨ ∃ y, pc.sleep = some y) :
      ∀ c, s.pc p = some c → c.Owes e q → ∃ c', o = some c' ∧ c'.Owes e q := by
    intro c hc' howes
    rw [hpc] at hc'
    cases hc'
    exact absurd howes (not_owes hc e q)
  have sets {c : Pc} (hc : c.sets e = false) : ∀ c', some c = some c' → c'.sets e = false := by
    rintro _ ⟨⟩
    exact hc
  cases hs with
  | call x p pc hr hpc hread =>
    refine owed_of_goto h rfl rfl (fun c hc => ?_) (waiting_of_goto hw rfl (sets ?_) id)
    · rw [hr.1] at hc
      cases hc
    · cases pc <;> first | rfl | exact hpc.elim
  | acquire p pc pc' hpc hlk hmove =>
    refine owed_of_goto h rfl rfl (quiet hpc (.inl ?_)) (waiting_of_goto hw rfl (sets ?_) id)
    · obtain ⟨w, rfl, -⟩ | ⟨r, rfl, -⟩ := hmove <;> rfl
    · obtain ⟨w, -, rfl⟩ | ⟨r, -, rfl⟩ := hmove <;> rfl
  | close p b hpc hlk =>
    have hw' : Waiting pi s e q := waiting_of_goto hw rfl (sets rfl) id
    have hb := blocks_of_waiting h hh (p := p) (by simp [hlk])
      (fun c hc howes => by simpa using quiet (o := none) hpc (.inl rfl) c hc howes) hw'
    -- the other side is still blocked, this one is about to be woken
    cases b <;> cases e <;> first
      | exact .inl hb
      | exact .inr ⟨p, _, upd_self _ _ _, 0, rfl, Nat.zero_le _⟩
  | move p pc pc' hpc hmove =>
    have hw' : Waiting pi s e q := waiting_of_goto hw rfl (sets (sets_of_move hmove)) id
    refine owed_of_goto h rfl rfl (fun c hc howes => ?_) hw'
    rw [hpc] at hc
    cases hc
    exact ⟨pc', rfl, hmove.owes h hpc hw' howes⟩
  | put p w ch hpc hfull =>
    have hw' : Waiting pi s e q := waiting_of_goto hw rfl (sets rfl) id
    cases e with
    | nread => exact .inr ⟨p, _, upd_self _ _ _, rfl, rfl⟩
    | nwrite =>
      have hb := blocks_of_waiting h hh (alone hpc rfl) (fun c hc howes => ?_) hw'
      · exact absurd hb.1 hfull
      · rw [hpc] at hc
        cases hc
        cases howes.1
  | copy p r hpc hwait =>
    have hw' : Waiting pi s e q := waiting_of_goto hw rfl (sets rfl) id
    cases e with
    | nread =>
      have hb := blocks_of_waiting h hh (alone hpc rfl) (fun c hc howes => ?_) hw'
      · exact absurd hb hwait
      · rw [hpc] at hc
        cases hc
        cases howes.choose_spec.1
    | nwrite => exact .inr ⟨p, _, upd_self _ _ _, 0, rfl, Nat.zero_le _⟩
  | wake p q' pc e' hpc hscan hne hq =>
    have hset : pc.scanned.sets e = false := by simp [Pc.sets, (sleep_of_scan hscan).2]
    refine owed_of_goto h rfl rfl (fun c hc howes => ?_) (waiting_of_goto hw rfl (sets hset) asleep_of_wakeup)
    rw [hpc] at hc
    cases hc
    obtain ⟨hold, hnew⟩ := owes_of_scan hscan e q
    obtain ⟨rfl, hle⟩ := hold.mp howes
    -- the process that was just woken does not wait
    have hqq : q'.val ≠ q.val := by
      intro heq
      rw [← Fin.ext heq] at hw
      obtain hw | hw := hw
      · have hsets : (s.pc q').any (Pc.sets e) = true := by
          rwa [← upd_of_ne (f := s.pc) hne (some pc.scanned)]
        exact absurd (plock_of_sets h hsets) (by simp [hq])
      · exact not_asleep_wakeup hw
    exact ⟨_, rfl, hnew.mpr ⟨rfl, by omega⟩⟩
  | release p pc hpc hlast =>
    have hw' : Waiting pi s e q := waiting_of_goto hw rfl (by rintro _ ⟨⟩) id
    refine .inl (blocks_of_waiting (s := s) h hh (alone hpc (holds_of_last hlast)) (fun c hc howes => ?_) hw')
    rw [hpc] at hc
    cases hc
    have hlt : q.val < NPROC := q.isLt
    cases pc with
    | writeFail w =>
      obtain ⟨rfl, hstored⟩ := howes
      exact hx (by rw [hpc]; exact hstored) q hw'
    | readFail => cases howes.choose_spec.1
    | writeEnd w k | readEnd r i k | closeEnd b k =>
      have hle := ((owes_of_scan rfl e q).1.mp howes).2
      have hk : NPROC ≤ k := hlast
      omega
    | _ => exact hlast.elim
  | sleepLock p pc e' hpc hsleep =>
    have hset : (pc.withSleep .unlock).sets e = false := sets_of_sleep (sleep_withSleep hsleep _) (by rintro ⟨⟩)
    exact owed_of_goto h rfl rfl (quiet hpc (.inr ⟨_, hsleep⟩)) (waiting_of_goto hw rfl (sets hset) id)
  | sleepUnlock p pc e' hpc hsleep =>
    by_cases he : e = e'
    · subst he
      exact .inl (blocks_of_sleep hsleep (.inr rfl) (hh p pc hpc).2)
    · have hset : (pc.withSleep .set).sets e = false := by
        simp [Pc.sets, sleep_withSleep hsleep, Ne.symm he]
      exact owed_of_goto h rfl rfl (quiet hpc (.inr ⟨_, hsleep⟩)) (waiting_of_goto hw rfl (sets hset) id)
  | sleepSet p pc e' hpc hsleep =>
    refine owed_of_goto h rfl rfl (quiet hpc (.inr ⟨_, hsleep⟩)) ?_
    by_cases hq : q = p
    · -- the process sleeps where it was about to
      subst hq
      obtain hw | hw := hw
      · have hset : (pc.withSleep .parked).sets e = true := by
          simpa [State.goto] using hw
        exact absurd hset (by simp [sets_of_sleep (sleep_withSleep hsleep _)])
      · rw [Op.apply_proc_target _ _ rfl] at hw
        have he : e' = e := chan_injective (Option.some.inj hw.2)
        subst he
        exact .inl (by simp [hpc, Pc.sets, hsleep])
    · have ht : (Op.sleep p (e'.chan pi)).target ≠ some q := fun ht => hq (Option.some.inj ht).symm
      obtain hw | hw := hw
      · exact .inl (by simpa [State.goto, hq] using hw)
      · rw [Op.apply_proc_of_ne _ _ ht] at hw
        exact .inr hw
  | sleepWake p pc e' hpc hsleep =>
    have hset : pc.back.sets e = false := by cases pc <;> rfl
    exact owed_of_goto h rfl rfl (quiet hpc (.inr ⟨_, hsleep⟩))
      (waiting_of_goto hw rfl (sets hset) asleep_of_awake)
  | kill p q' pid k hpc =>
    exact owed_of_goto h rfl rfl (quiet hpc (.inl rfl)) (waiting_of_goto hw rfl (by rintro _ ⟨⟩) asleep_of_kill)
  | killNext p pid k hpc =>
    exact owed_of_goto h rfl rfl (quiet hpc (.inl rfl)) (waiting_of_goto hw rfl (sets rfl) id)
  | killDone p pid k hpc =>
    exact owed_of_goto h rfl rfl (quiet hpc (.inl rfl)) (waiting_of_goto hw rfl (by rintro _ ⟨⟩) id)
  | switched p pc e' hpc hsleep => exact h.owed e q hw
  | dispatch p pc e' hpc hsleep =>
    have hset : (pc.withSleep .wake).sets e = false := sets_of_sleep (sleep_withSleep hsleep _) (by rintro ⟨⟩)
    exact owed_of_goto h rfl rfl (quiet hpc (.inr ⟨_, hsleep⟩))
      (waiting_of_goto hw rfl (sets hset) asleep_of_dispatch)
  | other p x hpc hnot =>
    refine h.owed e q ?_
    obtain hw | hw := hw
    · exact .inl hw
    · have hq : q ≠ p := by
        rintro rfl
        exact hnot e (by simpa using hw)
      exact .inr (by simpa [hq] using hw)

theorem awake_init (h : (pipe pi).init s) : Awake pi s := by
  obtain ⟨-, -, hpc, hsleep, -⟩ := h
  have hnot : ∀ q (e : Side), ¬ asleep (e.chan pi) (s.mem.proc q) := by
    intro q e
    cases e with
    | nread => exact (hsleep q).1
    | nwrite => exact (hsleep q).2
  refine ⟨fun q e hq => absurd hq (hnot q e), fun q c hc => by simp [hpc q] at hc, fun e q hw => ?_⟩
  obtain hw | hw := hw
  · simp [hpc q] at hw
  · exact absurd hw (hnot q e)

theorem awake_reachable (h : (pipe pi).ReachableBy (WakesReaders pi) s) : Awake pi s :=
  h.induct (fun _ => awake_init) fun _ _ _ hr ha hx hs =>
    have hstep := step_spec hs
    ⟨parked_step ha hstep, plock_step ha hstep, owed_step ha (held_reachable hr) hx hstep⟩

end Parts

/-- As long as no writer gives up after storing bytes that somebody waits for: whenever all locks are
    free, a process that sleeps on `&pi->nread` finds the pipe empty and open for writing, and one that
    sleeps on `&pi->nwrite` finds it full and open for reading. -/
theorem pipe_no_lost_wakeup (pi : Nat) (s : State) (h : (pipe pi).ReachableBy (WakesReaders pi) s)
    (hlk : s.lk = none) (q : Slot) :
    (asleep (nreadChan pi) (s.mem.proc q) → s.pipe.Empty ∧ s.pipe.writeopen = true) ∧
      (asleep (nwriteChan pi) (s.mem.proc q) → s.pipe.Full ∧ s.pipe.readopen = true) := by
  have blocked (e : Side) (hq : asleep (e.chan pi) (s.mem.proc q)) : s.pipe.Blocks e := by
    obtain hb | ⟨p, c, hc, howes⟩ := (awake_reachable h).owed e q (.inr hq)
    · exact hb
    · have hp := (held_reachable h p c hc).1 (holds_of_owes howes)
      rw [hlk] at hp
      cases hp
  exact ⟨blocked .nread, blocked .nwrite⟩

/-- Process 1 goes to sleep on an empty pipe. -/
def readerSleeps : List Input :=
  .read 1 (fun _ => true) 1 :: List.replicate 5 (.step 1) ++ [.switched 1]

theorem pipe_no_lost_wakeup_readerSleeps :
    ∃ s, (pipe 0).ReachableBy (WakesReaders 0) s ∧ s.lk = none ∧
      asleep (nreadChan 0) (s.mem.proc 1) ∧ s.pipe.Empty := by
  have hrun : ((pipe 0).runBy (WakesReaders 0) fresh readerSleeps).map
      (fun s => (s.lk, decide (asleep (nreadChan 0) (s.mem.proc 1)))) = some (none, true) := by
    decide +kernel
  obtain ⟨s, hreach, heq⟩ := exists_reachableBy_of_runBy hrun (init_fresh 0)
  obtain ⟨hlk, hsleep⟩ : s.lk = none ∧ asleep (nreadChan 0) (s.mem.proc 1) := by simpa using heq
  exact ⟨s, hreach, hlk, hsleep, ((pipe_no_lost_wakeup 0 s hreach hlk 1).1 hsleep).1⟩

/-- While process 1 sleeps, process 0 stores one of its two bytes, is killed by process 2 and leaves. -/
def killedWriter : List Input :=
  readerSleeps ++ .write 0 (fun _ => some 7) 2 :: List.replicate 2 (.step 0) ++ [.kill 2 1, .step 2] ++
    List.replicate 2 (.step 0)

/-- The reader sleeps on although there is a byte for it and no lock is held. -/
theorem reader_sleeps_on :
    ∃ s, (pipe 0).Reachable s ∧ s.lk = none ∧ (∀ p, s.plock p = false) ∧ s.pc 0 = none ∧
      asleep (nreadChan 0) (s.mem.proc 1) ∧ ¬ s.pipe.Empty ∧ s.stored = [7] ∧ s.reads = [] := by
  have hrun : ((pipe 0).run fresh killedWriter).map
      (fun s => (s.stored, s.reads, [s.lk.isNone, decide (∀ p, s.plock p = false), (s.pc 0).isNone,
        decide (asleep (nreadChan 0) (s.mem.proc 1)), decide s.pipe.Empty])) =
      some ([7], [], [true, true, true, true, false]) := by
    decide +kernel
  obtain ⟨s, hreach, heq⟩ := exists_reachable_of_run hrun (init_fresh 0)
  simp only [Prod.mk.injEq, List.cons.injEq, Option.isNone_iff_eq_none, decide_eq_true_eq,
    decide_eq_false_iff_not, and_true] at heq
  obtain ⟨hstored, hreads, hlk, hplock, hpc, hsleep, hempty⟩ := heq
  exact ⟨s, hreach, hlk, hplock, hpc, hsleep, hempty, hstored, hreads⟩

end Pipes

end Xv6
