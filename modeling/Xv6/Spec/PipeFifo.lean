import Xv6.Kernel.Pipe
import Xv6.Spec.StepSpec

/-!
# Pipes are first in, first out

The bytes of a pipe lie between `nread` and `nwrite`, which wrap around; its size divides the range of
the counters, so this does not disturb the order. Whoever changes the pipe holds its lock.

* `Step`: what a step of the users of a pipe can do.
* `fifo_reachable`: the bytes that were stored are the bytes that the reads have returned, followed
  by the contents of the pipe.
-/

namespace Xv6

open TransitionSystem

namespace Pipes

/-! ## Steps -/

/-- What users of the pipe sleep on. -/
inductive Side where
  | nread
  | nwrite
deriving DecidableEq

def Side.chan (pi : Nat) : Side → Chan
  | nread => nreadChan pi
  | nwrite => nwriteChan pi

namespace Pc

/-- The call holds `pi->lock`. -/
def holds : Pc → Bool
  | writeLoop _ | writeFull _ _ | writeEnd _ _ | writeFail _ => true
  | readLoop _ | readEnd _ _ _ | readFail | closeEnd _ _ => true
  | writeSleep _ sp | readSleep _ sp => sp = .lock ∨ sp = .unlock
  | writeAcquire _ | readAcquire _ | closeAcquire _ | kill _ _ => false

/-- The `wakeup` that the call is in, with the slot it has come to. -/
def scan : Pc → Option (Side × Nat)
  | writeFull _ k | writeEnd _ k => some (.nread, k)
  | readEnd _ _ k => some (.nwrite, k)
  | closeEnd writable k => some (if writable then .nread else .nwrite, k)
  | _ => none

/-- The same place, one slot further. -/
def scanned : Pc → Pc
  | writeFull w k => writeFull w (k + 1)
  | writeEnd w k => writeEnd w (k + 1)
  | readEnd r i k => readEnd r i (k + 1)
  | closeEnd writable k => closeEnd writable (k + 1)
  | pc => pc

/-- The `sleep` that the call is in. -/
def sleep : Pc → Option (Side × SleepPc)
  | writeSleep _ sp => some (.nwrite, sp)
  | readSleep _ sp => some (.nread, sp)
  | _ => none

/-- The same call at another place of `sleep`. -/
def withSleep (sp : SleepPc) : Pc → Pc
  | writeSleep w _ => writeSleep w sp
  | readSleep r _ => readSleep r sp
  | pc => pc

/-- Where `sleep` goes on to take `pi->lock` again. -/
def back : Pc → Pc
  | writeSleep w _ => writeAcquire w
  | readSleep r _ => readAcquire r
  | pc => pc

/-- The call has come to its last `release(&pi->lock)`. -/
def last : Pc → Prop
  | writeEnd _ k | readEnd _ _ k | closeEnd _ k => NPROC ≤ k
  | writeFail _ | readFail => True
  | _ => False

/-- The call has not taken the lock yet. -/
def outside : Pc → Prop
  | writeAcquire w => w.stored = false
  | readAcquire _ | closeAcquire _ | kill _ _ => True
  | _ => False

end Pc

/-- The holder of the lock goes on and changes nothing. -/
inductive Move (s : State) (p : Slot) : Pc → Pc → Prop
  | fail (w : Write) : Move s p (.writeLoop w) (.writeFail w)
  | full (w : Write) (hopen : s.pipe.readopen = true) (h : s.pipe.Full) :
      Move s p (.writeLoop w) (.writeFull w 0)
  | stop (w : Write) : Move s p (.writeLoop w) (.writeEnd w 0)
  | sleepWrite (w : Write) (k : Nat) (hk : NPROC ≤ k) :
      Move s p (.writeFull w k) (.writeSleep { w with stored := false } .lock)
  | killed (r : Read) : Move s p (.readLoop r) .readFail
  | sleepRead (r : Read) (hempty : s.pipe.Empty) (hopen : s.pipe.writeopen = true) :
      Move s p (.readLoop r) (.readSleep r .lock)
  | skip (pc : Pc) (e : Side) (h : pc.scan = some (e, p.val)) : Move s p pc pc.scanned

/-- What a step can do. -/
inductive Step (pi : Nat) (s : State) : Input → State → Prop
  | call (x : Input) (p : Slot) (pc : Pc) (hr : s.ready p) (hpc : pc.outside)
      (hread : ∀ r, pc = .readAcquire r → x = .read p r.dst r.n) :
      Step pi s x (s.goto p (some pc))
  | acquire (p : Slot) (pc pc' : Pc) (hpc : s.pc p = some pc) (hlk : s.lk = none)
      (h : (∃ w, pc = .writeAcquire w ∧ pc' = .writeLoop w) ∨
        ∃ r, pc = .readAcquire r ∧ pc' = .readLoop r) :
      Step pi s (.step p) { s.goto p (some pc') with lk := some p }
  | close (p : Slot) (writable : Bool) (hpc : s.pc p = some (.closeAcquire writable))
      (hlk : s.lk = none) : Step pi s (.step p) (s.close p writable)
  | move (p : Slot) (pc pc' : Pc) (hpc : s.pc p = some pc) (h : Move s p pc pc') :
      Step pi s (.step p) (s.goto p (some pc'))
  | put (p : Slot) (w : Write) (ch : UInt8) (hpc : s.pc p = some (.writeLoop w))
      (hfull : ¬ s.pipe.Full) :
      Step pi s (.step p)
        { s.goto p (some (.writeLoop { w with i := w.i + 1, stored := true })) with
          pipe := s.pipe.put ch
          stored := s.stored ++ [ch] }
  | copy (p : Slot) (r : Read) (hpc : s.pc p = some (.readLoop r))
      (h : ¬ (s.pipe.Empty ∧ s.pipe.writeopen = true)) :
      Step pi s (.step p)
        { s.goto p (some (.readEnd r (s.pipe.copy r.dst r.n.toNat 0).1.length 0)) with
          pipe := (s.pipe.copy r.dst r.n.toNat 0).2
          reads := s.reads ++ [(s.pipe.copy r.dst r.n.toNat 0).1] }
  | wake (p q : Slot) (pc : Pc) (e : Side) (hpc : s.pc p = some pc) (hscan : pc.scan = some (e, q.val))
      (hne : q ≠ p) (hq : s.plock q = false) :
      Step pi s (.step p)
        { s.goto p (some pc.scanned) with mem := (Op.wakeup (some (e.chan pi)) q).apply s.mem }
  | release (p : Slot) (pc : Pc) (hpc : s.pc p = some pc) (h : pc.last) :
      Step pi s (.step p) (s.release p)
  | sleepLock (p : Slot) (pc : Pc) (e : Side) (hpc : s.pc p = some pc)
      (h : pc.sleep = some (e, .lock)) :
      Step pi s (.step p)
        { s.goto p (some (pc.withSleep .unlock)) with plock := upd s.plock p true }
  | sleepUnlock (p : Slot) (pc : Pc) (e : Side) (hpc : s.pc p = some pc)
      (h : pc.sleep = some (e, .unlock)) :
      Step pi s (.step p) { s.goto p (some (pc.withSleep .set)) with lk := none }
  | sleepSet (p : Slot) (pc : Pc) (e : Side) (hpc : s.pc p = some pc)
      (h : pc.sleep = some (e, .set)) :
      Step pi s (.step p)
        { s.goto p (some (pc.withSleep .parked)) with mem := (Op.sleep p (e.chan pi)).apply s.mem }
  | sleepWake (p : Slot) (pc : Pc) (e : Side) (hpc : s.pc p = some pc)
      (h : pc.sleep = some (e, .wake)) :
      Step pi s (.step p)
        { s.goto p (some pc.back) with
          mem := (Op.awake p).apply s.mem
          plock := upd s.plock p false }
  | kill (p q : Slot) (pid : Int) (k : Nat) (hpc : s.pc p = some (.kill pid k)) :
      Step pi s (.step p) { s.goto p none with mem := (Op.kill q pid).apply s.mem }
  | killNext (p : Slot) (pid : Int) (k : Nat) (hpc : s.pc p = some (.kill pid k)) :
      Step pi s (.step p) (s.goto p (some (.kill pid (k + 1))))
  | killDone (p : Slot) (pid : Int) (k : Nat) (hpc : s.pc p = some (.kill pid k)) :
      Step pi s (.step p) (s.goto p none)
  | switched (p : Slot) (pc : Pc) (e : Side) (hpc : s.pc p = some pc)
      (h : pc.sleep = some (e, .parked)) :
      Step pi s (.switched p) { s with plock := upd s.plock p false }
  | dispatch (p : Slot) (pc : Pc) (e : Side) (hpc : s.pc p = some pc)
      (h : pc.sleep = some (e, .parked)) :
      Step pi s (.dispatch p)
        { s.goto p (some (pc.withSleep .wake)) with
          mem := (Op.dispatch p).apply s.mem
          plock := upd s.plock p true }
  | other (p : Slot) (x : Proc) (hpc : s.pc p = none) (h : ∀ e : Side, ¬ asleep (e.chan pi) x) :
      Step pi s (.other p x) { s with mem := { s.mem with proc := upd s.mem.proc p x } }

variable {x : Input} {s : State} {pi : Nat}

section

variable {pi : Nat} {s s' : State} {p : Slot}
variable {pc : Pc}

theorem step_call (hpc : pc.outside)
    (hread : ∀ r, pc = .readAcquire r → x = .read p r.dst r.n) (h : s.call p pc = some s') :
    Step pi s x s' := by
  simp only [State.call, Option.ite_none_right_eq_some, Option.some.injEq] at h
  obtain ⟨hr, rfl⟩ := h
  exact .call x p pc hr hpc hread

theorem step_writeLoop {w : Write} (hpc : s.pc p = some (.writeLoop w)) :
    Step pi s (.step p) (s.writeLoop p w) := by
  simp only [State.writeLoop]
  split
  · split
    · exact .move p _ _ hpc (.fail w)
    · rename_i hopen
      split
      · rename_i hfull
        rw [not_or, Bool.not_eq_false] at hopen
        exact .move p _ _ hpc (.full w hopen.1 hfull)
      · rename_i hfull
        split
        · exact .move p _ _ hpc (.stop w)
        · exact .put p w _ hpc hfull
  · exact .move p _ _ hpc (.stop w)

theorem step_readLoop {r : Read} (hpc : s.pc p = some (.readLoop r)) :
    Step pi s (.step p) (s.readLoop p r) := by
  simp only [State.readLoop]
  split
  · rename_i h
    split
    · exact .move p _ _ hpc (.killed r)
    · exact .move p _ _ hpc (.sleepRead r h.1 h.2)
  · rename_i h
    exact .copy p r hpc h

/-- A round of `wakeup`, or what follows it. -/
theorem step_wakeup {e : Side} {k : Nat} {place : Nat → Pc} {done : State}
    (hpc : s.pc p = some pc) (hscan : pc.scan = some (e, k)) (hplace : pc.scanned = place (k + 1))
    (hdone : NPROC ≤ k → Step pi s (.step p) done)
    (h : s.wakeupStep p (e.chan pi) place done k = some s') : Step pi s (.step p) s' := by
  refine forSlot_ind (P := fun x => x = some s' → Step pi s (.step p) s') (fun q hq h => ?_)
    (fun hk h => ?_) h
  · rw [← hplace] at h
    rw [← hq] at hscan
    split at h
    · rename_i heq
      cases h
      exact .move p pc _ hpc (.skip pc e (heq ▸ hscan))
    · rename_i hne
      split at h
      · cases h
      · rename_i hlock
        cases h
        exact .wake p q pc e hpc hscan hne (by simpa using hlock)
  · cases h
    exact hdone hk

/-- A step of `sleep`. -/
theorem step_sleep {e : Side} {sp : SleepPc} {place : SleepPc → Pc} {back : Pc} (hpc : s.pc p = some pc)
    (hsleep : pc.sleep = some (e, sp)) (hplace : ∀ sp, pc.withSleep sp = place sp)
    (hback : pc.back = back) (h : s.sleepStep p (e.chan pi) place back sp = some s') :
    Step pi s (.step p) s' := by
  cases sp with
  | lock =>
    simp only [State.sleepStep, Option.ite_none_left_eq_some, Option.some.injEq] at h
    obtain ⟨-, rfl⟩ := h
    rw [← hplace]
    exact .sleepLock p pc e hpc hsleep
  | unlock =>
    cases h
    rw [← hplace]
    exact .sleepUnlock p pc e hpc hsleep
  | set =>
    cases h
    rw [← hplace]
    exact .sleepSet p pc e hpc hsleep
  | parked => cases h
  | wake =>
    cases h
    rw [← hback]
    exact .sleepWake p pc e hpc hsleep

theorem step_exec (hpc : s.pc p = some pc) (h : s.exec pi p pc = some s') :
    Step pi s (.step p) s' := by
  cases pc with
  | writeAcquire w =>
    simp only [State.exec, State.acquire, Option.ite_none_right_eq_some, Option.some.injEq] at h
    obtain ⟨hlk, rfl⟩ := h
    exact .acquire p _ _ hpc hlk (.inl ⟨w, rfl, rfl⟩)
  | readAcquire r =>
    simp only [State.exec, State.acquire, Option.ite_none_right_eq_some, Option.some.injEq] at h
    obtain ⟨hlk, rfl⟩ := h
    exact .acquire p _ _ hpc hlk (.inr ⟨r, rfl, rfl⟩)
  | closeAcquire b =>
    simp only [State.exec, Option.ite_none_right_eq_some, Option.some.injEq] at h
    obtain ⟨hlk, rfl⟩ := h
    exact .close p b hpc hlk
  | writeLoop w =>
    cases h
    exact step_writeLoop hpc
  | readLoop r =>
    cases h
    exact step_readLoop hpc
  | writeFull w k =>
    exact step_wakeup (e := .nread) hpc rfl rfl (fun hk => .move p _ _ hpc (.sleepWrite w k hk)) h
  | writeEnd w k => exact step_wakeup (e := .nread) hpc rfl rfl (fun hk => .release p _ hpc hk) h
  | readEnd r i k => exact step_wakeup (e := .nwrite) hpc rfl rfl (fun hk => .release p _ hpc hk) h
  | closeEnd b k =>
    have hw : s.wakeupStep p ((if b then Side.nread else .nwrite).chan pi) (.closeEnd b) (s.release p) k =
        some s' := by
      cases b <;> exact h
    exact step_wakeup hpc rfl rfl (fun hk => .release p _ hpc hk) hw
  | writeSleep w sp => exact step_sleep (e := .nwrite) hpc rfl (fun _ => rfl) rfl h
  | readSleep r sp => exact step_sleep (e := .nread) hpc rfl (fun _ => rfl) rfl h
  | writeFail w | readFail =>
    cases h
    exact .release p _ hpc trivial
  | kill pid k =>
    simp only [State.exec, State.killStep] at h
    refine forSlot_ind (P := fun x => x = some s' → Step pi s (.step p) s') (fun q hq h => ?_)
      (fun hk h => ?_) h
    · split at h
      · cases h
      · split at h
        · cases h
          exact .kill p q pid k hpc
        · cases h
          exact .killNext p pid k hpc
    · cases h
      exact .killDone p pid k hpc

theorem parked_eq (h : State.parked (s.pc p) = true) :
    ∃ pc e, s.pc p = some pc ∧ pc.sleep = some (e, .parked) ∧ State.unpark pc = pc.withSleep .wake := by
  simp only [State.parked] at h
  split at h
  · rename_i w hpc
    exact ⟨_, .nwrite, hpc, rfl, rfl⟩
  · rename_i r hpc
    exact ⟨_, .nread, hpc, rfl, rfl⟩
  · cases h

theorem step_spec (h : s.step pi x = some s') : Step pi s x s' := by
  cases x with
  | write p src n => exact step_call (by exact rfl) (by rintro r ⟨⟩) h
  | read p dst n => exact step_call (by exact trivial) (by rintro r ⟨⟩; rfl) h
  | close p b | kill p pid => exact step_call (by exact trivial) (by rintro r ⟨⟩) h
  | step p =>
    obtain ⟨pc, hpc, h⟩ := Option.bind_eq_some_iff.mp h
    exact step_exec hpc h
  | switched p =>
    simp only [State.step, Option.ite_none_right_eq_some, Option.some.injEq] at h
    obtain ⟨⟨hpark, -⟩, rfl⟩ := h
    obtain ⟨pc, e, hpc, hsleep, -⟩ := parked_eq hpark
    exact .switched p pc e hpc hsleep
  | dispatch p =>
    simp only [State.step, Option.ite_none_right_eq_some, Option.some.injEq] at h
    obtain ⟨⟨hpark, -⟩, rfl⟩ := h
    obtain ⟨pc, e, hpc, hsleep, hun⟩ := parked_eq hpark
    rw [hpc, Option.map_some, hun]
    exact .dispatch p pc e hpc hsleep
  | other p x =>
    simp only [State.step, Option.ite_none_right_eq_some, Option.some.injEq] at h
    obtain ⟨⟨hpc, -, hr, hw⟩, rfl⟩ := h
    refine .other p x hpc fun e => ?_
    cases e with
    | nread => exact hr
    | nwrite => exact hw

end

/-! ## The lock of the pipe -/

/-- What the holder of the lock knows about the pipe. -/
def Pc.Sees (pi : Pipe) : Pc → Prop
  | writeFull _ _ => pi.Full ∧ pi.readopen = true
  | writeSleep _ sp => sp = .lock ∨ sp = .unlock → pi.Full ∧ pi.readopen = true
  | readSleep _ sp => sp = .lock ∨ sp = .unlock → pi.Empty ∧ pi.writeopen = true
  | readEnd r i _ =>
    (∀ j, r.dst j = true) → 0 < r.n → i = 0 → pi.Empty ∧ pi.writeopen = false
  | _ => True

/-- Whoever stands between `acquire` and `release` of `pi->lock` is its holder, and what it has seen
    of the pipe is still so. -/
def Held (lk : Option Slot) (pc : Slot → Option Pc) (pi : Pipe) : Prop :=
  ∀ p c, pc p = some c → (c.holds = true → lk = some p) ∧ c.Sees pi

theorem sees_of_not_holds {c : Pc} (h : c.holds = false) (pi : Pipe) : c.Sees pi := by
  cases c with
  | writeSleep w sp | readSleep r sp => exact fun hsp => absurd hsp (by simpa [Pc.holds] using h)
  | writeFull | readEnd => cases h
  | _ => exact trivial

namespace Held

variable {lk lk' : Option Slot} {pc : Slot → Option Pc} {pi pi' : Pipe} {p : Slot} {o : Option Pc}

/-- A process goes on. -/
theorem goto (h : Held lk pc pi) (hp : ∀ c, o = some c → (c.holds = true → lk = some p) ∧ c.Sees pi) :
    Held lk (upd pc p o) pi :=
  forall_upd
    (P := fun (q : Slot) (o : Option Pc) =>
      ∀ c, o = some c → (c.holds = true → lk = some q) ∧ c.Sees pi)
    hp fun q _ => h q

/-- A process that nobody else keeps from the lock may change lock and pipe. -/
theorem update (h : Held lk pc pi) (hlk : ∀ q, q ≠ p → lk ≠ some q)
    (hp : ∀ c, o = some c → (c.holds = true → lk' = some p) ∧ c.Sees pi') :
    Held lk' (upd pc p o) pi' := by
  refine forall_upd
    (P := fun (q : Slot) (o : Option Pc) =>
      ∀ c, o = some c → (c.holds = true → lk' = some q) ∧ c.Sees pi')
    hp fun q hq c hc => ?_
  have hfree : c.holds = false := by
    by_contra hholds
    exact hlk q hq ((h q c hc).1 (by simpa using hholds))
  exact ⟨fun hholds => absurd hholds (by simp [hfree]), sees_of_not_holds hfree pi'⟩

end Held

theorem Move.holds {p : Slot} {pc pc' : Pc} (h : Move s p pc pc') : pc.holds = true := by
  cases h with
  | skip pc e hscan =>
    cases pc <;> first | rfl | cases hscan
  | _ => rfl

theorem holds_of_scan {pc : Pc} {x : Side × Nat} (h : pc.scan = some x) :
    pc.holds = true ∧ ∀ pi, pc.Sees pi → pc.scanned.Sees pi := by
  cases pc <;> first | exact ⟨rfl, fun _ h => h⟩ | cases h

theorem Move.sees {p : Slot} {pc pc' : Pc} (h : Move s p pc pc') (hs : pc.Sees s.pipe) :
    pc'.Sees s.pipe := by
  cases h with
  | full w hopen h => exact ⟨h, hopen⟩
  | sleepWrite w k hk => exact fun _ => hs
  | sleepRead r hempty hopen => exact fun _ => ⟨hempty, hopen⟩
  | skip pc e hscan => exact (holds_of_scan hscan).2 _ hs
  | fail | stop | killed => exact trivial

theorem holds_of_last {pc : Pc} (h : pc.last) : pc.holds = true := by
  cases pc <;> first | rfl | exact h.elim

section Sleep

variable {pc : Pc} {e : Side} {sp : SleepPc} (h : pc.sleep = some (e, sp))

include h

/-- `sleep` holds the lock up to its `release(lk)`. -/
theorem holds_of_sleep : pc.holds = decide (sp = .lock ∨ sp = .unlock) := by
  cases pc <;> first | (cases h; rfl) | cases h

theorem holds_withSleep (sp' : SleepPc) :
    (pc.withSleep sp').holds = decide (sp' = .lock ∨ sp' = .unlock) := by
  cases pc <;> first | (cases h; rfl) | cases h

theorem sees_withSleep (hsp : sp = .lock ∨ sp = .unlock) {pi : Pipe} (hs : pc.Sees pi) (sp' : SleepPc) :
    (pc.withSleep sp').Sees pi := by
  cases pc <;> first | (cases h; exact fun _ => hs hsp) | cases h

theorem holds_back : pc.back.holds = false := by
  cases pc <;> first | rfl | cases h

end Sleep

section Copy

variable {dst : Nat → Bool}

/-- `piperead` copies nothing only if there is nothing. -/
theorem copy_eq_nil (hdst : ∀ i, dst i = true) {k i : Nat} (hk : 0 < k) {pi : Pipe}
    (h : (pi.copy dst k i).1 = []) : pi.Empty ∧ (pi.copy dst k i).2 = pi := by
  obtain ⟨k, rfl⟩ : ∃ j, k = j + 1 := ⟨k - 1, by omega⟩
  simp only [Pipe.copy, hdst, if_true] at h ⊢
  split at h
  · rename_i hempty
    exact ⟨hempty, by rw [if_pos hempty]⟩
  · cases h

end Copy

/-- A step keeps what the holder of the lock knows. -/
theorem Held.step {s' : State} (h : Held s.lk s.pc s.pipe) (hs : Step pi s x s') :
    Held s'.lk s'.pc s'.pipe := by
  -- a process at a place that holds the lock is alone with the pipe
  have alone {p : Slot} {pc : Pc} (hpc : s.pc p = some pc) (hh : pc.holds = true) :
      s.lk = some p ∧ ∀ q, q ≠ p → s.lk ≠ some q := by
    have hlk := (h p pc hpc).1 hh
    refine ⟨hlk, fun q hq heq => hq ?_⟩
    rw [hlk] at heq
    exact (Option.some.inj heq).symm
  -- places outside of the lock
  have away {p : Slot} {c : Pc} (hc : c.holds = false) :
      ∀ c', some c = some c' → (c'.holds = true → s.lk = some p) ∧ c'.Sees s.pipe := by
    rintro c' ⟨⟩
    exact ⟨fun hh => absurd hh (by simp [hc]), sees_of_not_holds hc _⟩
  cases hs with
  | call x p pc hr hpc hread =>
    refine h.goto (away ?_)
    cases pc <;> first | rfl | exact hpc.elim
  | acquire p pc pc' hpc hlk hmove =>
    refine h.update (fun q _ => by simp [hlk]) ?_
    rintro c ⟨⟩
    obtain ⟨w, -, rfl⟩ | ⟨r, -, rfl⟩ := hmove <;> exact ⟨fun _ => rfl, trivial⟩
  | close p b hpc hlk =>
    refine h.update (fun q _ => by simp [hlk]) ?_
    rintro c ⟨⟩
    exact ⟨fun _ => rfl, trivial⟩
  | move p pc pc' hpc hmove =>
    refine h.goto ?_
    rintro c ⟨⟩
    exact ⟨fun _ => (alone hpc hmove.holds).1, hmove.sees (h p pc hpc).2⟩
  | put p w ch hpc hfull =>
    obtain ⟨hlk, hq⟩ := alone hpc rfl
    refine h.update hq ?_
    rintro c ⟨⟩
    exact ⟨fun _ => hlk, trivial⟩
  | copy p r hpc hwait =>
    obtain ⟨hlk, hq⟩ := alone hpc rfl
    refine h.update hq ?_
    rintro c ⟨⟩
    refine ⟨fun _ => hlk, fun hdst hn hi => ?_⟩
    obtain ⟨hempty, heq⟩ := copy_eq_nil hdst (by omega) (List.length_eq_zero_iff.mp hi)
    show (s.pipe.copy r.dst r.n.toNat 0).2.Empty ∧ (s.pipe.copy r.dst r.n.toNat 0).2.writeopen = false
    rw [heq]
    exact ⟨hempty, by simpa [hempty] using hwait⟩
  | wake p q pc e hpc hscan hne hq =>
    obtain ⟨hh, hsees⟩ := holds_of_scan hscan
    refine h.goto ?_
    rintro c ⟨⟩
    exact ⟨fun _ => (alone hpc hh).1, hsees _ (h p pc hpc).2⟩
  | release p pc hpc hlast => exact h.update (alone hpc (holds_of_last hlast)).2 nofun
  | sleepLock p pc e hpc hsleep =>
    have hlk := (alone hpc (by rw [holds_of_sleep hsleep]; rfl)).1
    refine h.goto ?_
    rintro c ⟨⟩
    exact ⟨fun _ => hlk, sees_withSleep hsleep (.inl rfl) (h p pc hpc).2 _⟩
  | sleepUnlock p pc e hpc hsleep =>
    have hq := (alone hpc (by rw [holds_of_sleep hsleep]; rfl)).2
    refine h.update hq ?_
    rintro c ⟨⟩
    exact ⟨fun hh => by simp [holds_withSleep hsleep] at hh,
      sees_withSleep hsleep (.inr rfl) (h p pc hpc).2 _⟩
  | sleepSet p pc e hpc hsleep | dispatch p pc e hpc hsleep =>
    exact h.goto (away (holds_withSleep hsleep _))
  | sleepWake p pc e hpc hsleep => exact h.goto (away (holds_back hsleep))
  | kill p q pid k hpc | killDone p pid k hpc => exact h.goto nofun
  | killNext p pid k hpc => exact h.goto (away rfl)
  | switched p pc e hpc hsleep => exact h
  | other p x hpc hx => exact h

theorem held_init (h : (pipe pi).init s) : Held s.lk s.pc s.pipe :=
  fun p c hpc => absurd hpc (by simp [h.2.2.1 p])

theorem held_reachable {C : State → Input → Prop} (h : (pipe pi).ReachableBy C s) :
    Held s.lk s.pc s.pipe :=
  h.induct (P := fun s => Held s.lk s.pc s.pipe) (fun _ => held_init)
    fun _ _ _ _ hheld _ hs => hheld.step (step_spec hs)

/-! ## The order of the bytes -/

/-- The bytes in the pipe, the oldest first. -/
def Pipe.contents (pi : Pipe) : List UInt8 :=
  WrapRing.between pi.data PIPESIZE pi.nread pi.nwrite

/-- The number of bytes in the pipe, `nwrite - nread` modulo 2^32. -/
def Pipe.fill (pi : Pipe) : Nat := (pi.nwrite - pi.nread).toNat

theorem full_iff (pi : Pipe) : pi.Full ↔ pi.fill = PIPESIZE :=
  WrapRing.eq_add_iff (by decide)

theorem dvd_range : PIPESIZE ∣ 2 ^ 32 := by decide

theorem put_fill {pi : Pipe} (h : pi.fill < PIPESIZE) (ch : UInt8) :
    (pi.put ch).fill = pi.fill + 1 := by
  refine WrapRing.dist_push ?_
  show pi.fill + 1 < 2 ^ 32
  have : PIPESIZE = 512 := rfl
  omega

theorem put_contents {pi : Pipe} (h : pi.fill < PIPESIZE) (ch : UInt8) :
    (pi.put ch).contents = pi.contents ++ [ch] :=
  WrapRing.between_push dvd_range (by decide) h

theorem next_fill {pi : Pipe} (h : ¬ pi.Empty) : pi.next.fill + 1 = pi.fill :=
  WrapRing.dist_pop (Ne.symm h)

theorem contents_next {pi : Pipe} (h : ¬ pi.Empty) : pi.contents = pi.front :: pi.next.contents :=
  WrapRing.between_pop dvd_range (Ne.symm h)

/-- Whatever `piperead` takes leaves at most as much behind. -/
theorem copy_fill {dst : Nat → Bool} (k i : Nat) (pi : Pipe) : (pi.copy dst k i).2.fill ≤ pi.fill := by
  induction k generalizing i pi with
  | zero => exact Nat.le_refl _
  | succ k ih =>
    simp only [Pipe.copy]
    split
    · exact Nat.le_refl _
    · rename_i hne
      have hnext := next_fill hne
      split
      · have := ih (i + 1) pi.next
        dsimp only
        omega
      · dsimp only
        omega

/-- `piperead` takes the oldest bytes. -/
theorem contents_copy {dst : Nat → Bool} (hdst : ∀ i, dst i = true) (k i : Nat) (pi : Pipe) :
    pi.contents = (pi.copy dst k i).1 ++ (pi.copy dst k i).2.contents := by
  induction k generalizing i pi with
  | zero => rfl
  | succ k ih =>
    simp only [Pipe.copy, hdst, if_true]
    split
    · rfl
    · rename_i hne
      dsimp only
      rw [contents_next hne, List.cons_append, ← ih]

/-- The bytes that `piperead` takes are the ones it returns, and the one that `copyout` refuses. -/
theorem contents_copy_or (dst : Nat → Bool) (k i : Nat) (pi : Pipe) :
    (∀ j < k, j < pi.fill → dst (i + j) = true) ∧
        pi.contents = (pi.copy dst k i).1 ++ (pi.copy dst k i).2.contents ∨
      (∃ j < k, j < pi.fill ∧ dst (i + j) = false) ∧
        ∃ ch, pi.contents = (pi.copy dst k i).1 ++ ch :: (pi.copy dst k i).2.contents := by
  induction k generalizing i pi with
  | zero => exact .inl ⟨fun j hj => absurd hj (Nat.not_lt_zero j), rfl⟩
  | succ k ih =>
    simp only [Pipe.copy]
    split
    · rename_i hempty
      have hfill : pi.fill = 0 := by
        rw [Pipe.fill, show pi.nread = pi.nwrite from hempty, BitVec.sub_self]
        rfl
      exact .inl ⟨fun j _ hj => by omega, rfl⟩
    · rename_i hne
      have hnext := next_fill hne
      split
      · rename_i hdst
        dsimp only
        rw [contents_next hne]
        rcases ih (i + 1) pi.next with ⟨hall, heq⟩ | ⟨⟨j, hj, hfill, hfail⟩, ch, heq⟩
        · refine .inl ⟨fun j hj hfill => ?_, by rw [List.cons_append, ← heq]⟩
          cases j with
          | zero => exact hdst
          | succ j =>
            rw [← Nat.add_assoc, Nat.add_right_comm]
            exact hall j (by omega) (by omega)
        · refine .inr ⟨⟨j + 1, by omega, by omega, ?_⟩, ch, by rw [List.cons_append, ← heq]⟩
          rwa [Nat.add_right_comm, Nat.add_assoc] at hfail
      · rename_i hdst
        exact .inr ⟨⟨0, by omega, by omega, Bool.eq_false_iff.mpr hdst⟩, pi.front, contents_next hne⟩

/-- The read that a process is in has a valid address. -/
def Pc.Valid : Pc → Prop
  | readAcquire r | readLoop r | readSleep r _ | readEnd r _ _ => ∀ i, r.dst i = true
  | _ => True

/-- Every read is given a valid address. -/
def ValidReads (_ : State) (x : Input) : Prop :=
  ∀ p dst n, x = .read p dst n → ∀ i, dst i = true

theorem valid_step {s' : State} (hx : ValidReads s x) (h : ∀ p c, s.pc p = some c → c.Valid)
    (hs : Step pi s x s') : ∀ p c, s'.pc p = some c → c.Valid := by
  have goto {p : Slot} {o : Option Pc} (hp : ∀ c, o = some c → c.Valid) :
      ∀ q c, upd s.pc p o q = some c → c.Valid :=
    forall_upd (P := fun (_ : Slot) (o : Option Pc) => ∀ c, o = some c → c.Valid) hp fun q _ => h q
  -- the call that goes on is the same read
  have same {p : Slot} {c c' : Pc} (hpc : s.pc p = some c) (hc : c.Valid → c'.Valid) :
      ∀ q c, upd s.pc p (some c') q = some c → c.Valid := by
    refine goto ?_
    rintro _ ⟨⟩
    exact hc (h p c hpc)
  cases hs with
  | call x p pc hr hpc hread =>
    refine goto ?_
    rintro _ ⟨⟩
    cases pc with
    | readAcquire r => exact hx p r.dst r.n (hread r rfl)
    | readLoop | readSleep | readEnd => exact hpc.elim
    | _ => exact trivial
  | acquire p pc pc' hpc hlk hmove =>
    obtain ⟨w, rfl, rfl⟩ | ⟨r, rfl, rfl⟩ := hmove <;> exact same hpc id
  | close p b hpc hlk | put p w ch hpc hfull | copy p r hpc hwait | killNext p pid k hpc =>
    exact same hpc id
  | move p pc pc' hpc hmove =>
    refine same hpc ?_
    cases hmove with
    | sleepRead r hempty hopen => exact id
    | skip pc e hscan => cases pc <;> exact id
    | _ => exact fun _ => trivial
  | wake p q pc e hpc hscan hne hq
  | sleepLock p pc e hpc hsleep | sleepUnlock p pc e hpc hsleep | sleepSet p pc e hpc hsleep | sleepWake p pc e hpc hsleep | dispatch p pc e hpc hsleep =>
    refine same hpc ?_
    cases pc <;> exact id
  | release p pc hpc hlast | kill p q pid k hpc | killDone p pid k hpc => exact goto nofun
  | switched p pc e hpc hsleep => exact h
  | other p x hpc hx => exact h

/-- The stored bytes are the bytes read, followed by those in the pipe. -/
structure Fifo (s : State) : Prop where
  valid : ∀ p c, s.pc p = some c → c.Valid
  room : s.pipe.fill ≤ PIPESIZE
  order : s.stored = s.reads.flatten ++ s.pipe.contents

theorem fifo_init (h : (pipe pi).init s) : Fifo s := by
  obtain ⟨-, -, hpc, -, hr, hw, -, -, hstored, hreads⟩ := h
  refine ⟨fun p c hc => absurd hc (by simp [hpc p]), ?_, ?_⟩
  · simp [Pipe.fill, hr, hw]
  · simp [Pipe.contents, hr, hw, hstored, hreads]

theorem Fifo.step {s' : State} (h : Fifo s) (hx : ValidReads s x) (hs : Step pi s x s') :
    Fifo s' := by
  have hvalid := valid_step hx h.valid hs
  -- only these steps change the pipe or the history
  cases hs with
  | put p w ch hpc hfull =>
    have hroom : s.pipe.fill < PIPESIZE := lt_of_le_of_ne h.room fun heq => hfull ((full_iff _).mpr heq)
    refine ⟨hvalid, ?_, ?_⟩
    · show (s.pipe.put ch).fill ≤ PIPESIZE
      rw [put_fill hroom]
      exact hroom
    · show s.stored ++ [ch] = s.reads.flatten ++ (s.pipe.put ch).contents
      rw [put_contents hroom, h.order, List.append_assoc]
  | copy p r hpc hwait =>
    refine ⟨hvalid, (copy_fill _ _ _).trans h.room, ?_⟩
    show s.stored = (s.reads ++ [_]).flatten ++ Pipe.contents _
    rw [h.order, contents_copy (h.valid p _ hpc) r.n.toNat 0 s.pipe, List.flatten_concat,
      List.append_assoc]
  | close p b hpc hlk =>
    cases b
    all_goals exact ⟨hvalid, h.room, h.order⟩
  | _ => exact ⟨hvalid, h.room, h.order⟩

theorem fifo_reachable (h : (pipe pi).ReachableBy ValidReads s) : Fifo s :=
  h.induct (fun _ => fifo_init) fun _ _ _ _ hf hx hs => hf.step hx (step_spec hs)

/-- The bytes that the reads have returned are the first of those that were stored, and the rest is
    still in the pipe, which never holds more than `PIPESIZE` bytes. A read that returns 0 has seen
    an empty pipe without a writer. -/
theorem piperead_fifo (pi : Nat) (s : State) (h : (pipe pi).ReachableBy ValidReads s) :
    s.reads.flatten <+: s.stored ∧ s.stored = s.reads.flatten ++ s.pipe.contents ∧
      (s.pipe.nwrite - s.pipe.nread).toNat ≤ PIPESIZE ∧
      ∀ p r k, s.pc p = some (.readEnd r 0 k) → 0 < r.n →
        s.pipe.nread = s.pipe.nwrite ∧ s.pipe.writeopen = false := by
  have hf := fifo_reachable h
  refine ⟨⟨s.pipe.contents, hf.order.symm⟩, hf.order, hf.room, fun p r k hpc hn => ?_⟩
  exact (held_reachable h p _ hpc).2 (hf.valid p _ hpc) hn rfl

/-- A new pipe in a system whose processes all run. -/
def fresh : State where
  mem :=
    { proc := fun p => { Proc.zero with state := .running, pid := p.val + 1 }
      initproc := 0
      nextpid := 1
      policy := 0
      ticks := 0 }
  pipe := { data := fun _ => 0, nread := 0, nwrite := 0, readopen := true, writeopen := true }
  lk := none
  plock _ := false
  pc _ := none
  stored := []
  reads := []

theorem init_fresh (pi : Nat) : (pipe pi).init fresh := by
  refine ⟨rfl, fun _ => rfl, fun _ => rfl, fun p => ?_, rfl, rfl, rfl, rfl, rfl, rfl⟩
  simp [asleep, fresh]

/-- Process 0 writes the bytes 1, 2, 3 and process 1 reads two of them. -/
def oneWrite : List Input :=
  .write 0 (fun i => some (UInt8.ofNat (i + 1))) 3 :: List.replicate 70 (.step 0) ++
    .read 1 (fun _ => true) 2 :: List.replicate 2 (.step 1)

theorem piperead_fifo_oneWrite :
    ∃ s, (pipe 0).ReachableBy ValidReads s ∧ s.reads = [[1, 2]] ∧ s.stored = [1, 2, 3] ∧
      s.pipe.contents = [3] ∧ s.reads.flatten <+: s.stored := by
  have hrun : ((pipe 0).run fresh oneWrite).map (fun s => (s.reads, s.stored, s.pipe.contents)) =
      some ([[1, 2]], [1, 2, 3], [3]) := by decide +kernel
  obtain ⟨s, hs, heq⟩ := Option.map_eq_some_iff.mp hrun
  have hreach : (pipe 0).ReachableBy ValidReads s := by
    refine reachableBy_run (.init (init_fresh 0)) (fun x hx _ p dst n heq i => ?_) hs
    subst heq
    simp only [oneWrite, List.mem_append, List.mem_cons, List.mem_replicate] at hx
    simp_all
  obtain ⟨hreads, hstored, hcont⟩ : s.reads = _ ∧ s.stored = _ ∧ s.pipe.contents = _ := by
    simpa using heq
  exact ⟨s, hreach, hreads, hstored, hcont, (piperead_fifo 0 s hreach).1⟩

/-! ## What a read accounts for -/

/-- The advance of `nread`. -/
def Pipe.removed (pi pi' : Pipe) : Nat := (pi'.nread - pi.nread).toNat

theorem copy_nwrite (dst : Nat → Bool) (k i : Nat) (pi : Pipe) :
    (pi.copy dst k i).2.nwrite = pi.nwrite := by
  induction k generalizing i pi with
  | zero => rfl
  | succ k ih =>
    simp only [Pipe.copy]
    split
    · rfl
    · split
      · exact ih _ _
      · rfl

theorem removed_copy (dst : Nat → Bool) (k i : Nat) (pi : Pipe) :
    pi.removed (pi.copy dst k i).2 = pi.fill - (pi.copy dst k i).2.fill := by
  have hle : (pi.copy dst k i).2.fill ≤ pi.fill := copy_fill k i pi
  have hwrite := copy_nwrite dst k i pi
  generalize pi.copy dst k i = got at hle hwrite
  rw [Pipe.fill, Pipe.fill, hwrite] at hle
  rw [Pipe.removed, Pipe.fill, Pipe.fill, hwrite, ← BitVec.toNat_sub_of_le hle,
    sub_sub_sub_cancel_left]

/-- A read that returns `i` has taken `i` bytes from the pipe and left the others, so that the next
    one finds them, iff `copyout` can store every byte that the read has come to. -/
theorem piperead_accounts_iff (s : State) (p : Slot) (r : Read) (i : Nat)
    (h : (s.readLoop p r).pc p = some (.readEnd r i 0)) :
    (s.pipe.removed (s.readLoop p r).pipe = i ∧
        (s.readLoop p r).pipe.contents = s.pipe.contents.drop i) ↔
      ∀ j < r.n.toNat, j < s.pipe.fill → r.dst j = true := by
  rw [State.readLoop] at h ⊢
  by_cases hwait : s.pipe.Empty ∧ s.pipe.writeopen = true
  · -- the call sleeps or fails
    rw [if_pos hwait] at h
    split at h <;> simp [State.goto] at h
  · rw [if_neg hwait] at h ⊢
    have hi : (s.pipe.copy r.dst r.n.toNat 0).1.length = i := by
      simpa [State.goto] using h
    dsimp only
    have hlen : ∀ pi : Pipe, pi.contents.length = pi.fill := fun pi => WrapRing.length_between ..
    rw [removed_copy, ← hi]
    have hbefore := hlen s.pipe
    have hafter := hlen (s.pipe.copy r.dst r.n.toNat 0).2
    rcases contents_copy_or r.dst r.n.toNat 0 s.pipe with ⟨hall, heq⟩ | ⟨⟨j, hj, hfill, hfail⟩, ch, heq⟩
    · simp only [Nat.zero_add] at hall
      refine iff_of_true ⟨?_, ?_⟩ hall
      · rw [heq, List.length_append] at hbefore
        omega
      · rw [heq, List.drop_left]
    · rw [Nat.zero_add] at hfail
      refine iff_of_false (fun hc => ?_) fun hall => ?_
      · have hcount := hc.1
        rw [heq, List.length_append, List.length_cons] at hbefore
        omega
      · rw [hall j hj hfill] at hfail
        cases hfail

/-- A pipe with the byte 7, on which process 1 has called `piperead`. -/
def oneByte : State := { fresh with pipe := fresh.pipe.put 7 }

theorem piperead_accounts_iff_valid :
    (oneByte.readLoop 1 ⟨fun _ => true, 3⟩).pc 1 = some (.readEnd ⟨fun _ => true, 3⟩ 1 0) ∧
      oneByte.pipe.removed (oneByte.readLoop 1 ⟨fun _ => true, 3⟩).pipe = 1 := by
  have hpc : (oneByte.readLoop 1 ⟨fun _ => true, 3⟩).pc 1 = some (.readEnd ⟨fun _ => true, 3⟩ 1 0) := rfl
  exact ⟨hpc, ((piperead_accounts_iff _ _ _ _ hpc).mpr fun _ _ _ => rfl).1⟩

/-- With a bad address the read returns 0, and the byte is gone. -/
theorem piperead_loses_byte :
    (oneByte.readLoop 1 ⟨fun _ => false, 1⟩).pc 1 = some (.readEnd ⟨fun _ => false, 1⟩ 0 0) ∧
      oneByte.pipe.removed (oneByte.readLoop 1 ⟨fun _ => false, 1⟩).pipe = 1 ∧
      oneByte.pipe.contents = [7] ∧
      (oneByte.readLoop 1 ⟨fun _ => false, 1⟩).pipe.contents = [] :=
  ⟨rfl, by decide, by decide, by decide⟩

end Pipes

end Xv6
