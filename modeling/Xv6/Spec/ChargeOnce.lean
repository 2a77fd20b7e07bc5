import Xv6.Spec.VruntimeDivisor

/-!
# What one call of update_ticks charges

`update_ticks` looks at every process twice: it tests for `SLEEPING` without the lock, and for
`RUNNABLE` and `RUNNING` under the lock. `bookings` records for every thread what its current call has
charged and which processes have been in one of the three states since it began.

If no process falls asleep or is woken between its two tests, a call charges every process once
at most, and exactly once if the process has been in one of the three states throughout
(`charged_once`). A process that is woken between the two tests is charged twice
(`charged_twice`).
-/

namespace Xv6

open TransitionSystem

variable {n : Nat}

/-! ## History -/

/-- What a call of `update_ticks` has done so far. -/
structure Booking where
  /-- what it has added to the counters -/
  charged : Slot → Counter → Nat
  /-- the process has been `SLEEPING`, `RUNNABLE` or `RUNNING` since the call began -/
  timed : Slot → Bool

/-- A call that begins. -/
def Booking.start : Booking where
  charged _ _ := 0
  timed _ := true

def Booking.total (b : Booking) (z : Slot) : Nat :=
  b.charged z .rtime + b.charged z .retime + b.charged z .stime

/-- The next step of the frame calls `update_ticks`. -/
def Frame.callsUpdate : Frame → Bool
  | .usertrap .update | .kerneltrap .update => true
  | _ => false

/-- The next step of the hart calls `update_ticks`. -/
def State.callsUpdate (s : State n) (c : Fin n) : Bool :=
  (s.cur c).head?.any Frame.callsUpdate

/-- The records of all threads after a step of the kernel. -/
def recordBooking (s : State n) (x : Fin n × Input) (h : Thread n → Booking) (t : Thread n) : Booking :=
  let b := if t = s.running x.1 ∧ s.callsUpdate x.1 = true then .start else h t
  { charged := fun z k => b.charged z k + if t = s.running x.1 then (s.op x).charges s.mem z k else 0
    timed := fun z => b.timed z && (((s.op x).apply s.mem).proc z).state.counter.isSome }

/-- The kernel together with the records of the calls of `update_ticks`. -/
def bookings (n : Nat) : TransitionSystem (State n × (Thread n → Booking)) (Fin n × Input) :=
  (kernel n).observe (fun _ => .start) recordBooking

/-! ## The condition -/

/-- A stack on which `update_ticks` is between the two tests of process `z`. -/
def testingIn (z : Slot) : List Frame → Bool
  | .updateTicks i true :: _ => i = z.val
  | _ => false

/-- Some hart is in `update_ticks` between the two tests of process `z`. -/
def State.testing (s : State n) (z : Slot) : Bool :=
  (List.finRange n).any fun c => testingIn z (s.cur c)

/-- The step neither wakes a process between its two tests nor makes it sleep there. -/
def Steady (s : State n) (x : Fin n × Input) : Bool :=
  (s.op x).target.all fun z =>
    decide ((((s.op x).apply s.mem).proc z).state = .sleeping ↔ (s.mem.proc z).state = .sleeping) ||
      !s.testing z

/-! ## Where update_ticks runs -/

/-- `update_ticks` is called by frames with interrupts off only, and calls nothing itself. -/
def TickTop : List Frame → Prop
  | [] => True
  | f :: rest =>
    (∀ g ∈ rest, g.fn ≠ .updateTicks) ∧ (f.fn = .updateTicks → ∃ g ∈ rest, g.intrOff = true)

variable {stk rest : List Frame} {f : Frame} {e : Effect} {t : Thread n} {locked : Bool}

theorem TickTop.of_forall (h : ∀ g ∈ stk, g.fn ≠ .updateTicks) : TickTop stk := by
  cases stk with
  | nil => trivial
  | cons f rest =>
    exact ⟨fun g hg => h g (List.mem_cons_of_mem f hg), fun hf => absurd hf (h f List.mem_cons_self)⟩

/-- While interrupts are on, nobody is in `update_ticks`. -/
theorem TickTop.forall_of_intrOn (h : TickTop stk) (hoff : ∀ g ∈ stk, g.intrOff = false) :
    ∀ g ∈ stk, g.fn ≠ .updateTicks := by
  cases stk with
  | nil => exact nofun
  | cons f rest =>
    intro g hg hfn
    rcases List.mem_cons.mp hg with rfl | hg
    · obtain ⟨g', hg', hon⟩ := h.2 hfn
      rw [hoff g' (List.mem_cons_of_mem g hg')] at hon
      cases hon
    · exact h.1 g hg hfn

variable {i : Input} {me : Option Slot}

/-- Which steps leave a frame of `update_ticks`. -/
theorem effect_updateTicks {m : Mem} {g : Frame}
    (he : f.effect m me i = some e) (hg : g ∈ e.frames) (hfn : g.fn = .updateTicks) :
    f.fn = .updateTicks ∨ f.callsUpdate = true ∧ ∃ g', g'.intrOff = true ∧ g'.fn ≠ .updateTicks ∧
      e = { frames := [.updateTicks 0 false, g'] } := by
  rcases effect_calls he g hg with hsame | hcall
  · exact .inl (hsame.symm.trans hfn)
  rw [hfn] at hcall
  right
  -- the other steps of `usertrap` and `kerneltrap` leave no frame of `update_ticks`
  cases effect_acts he with
  | kernelUpdate => exact ⟨rfl, .kerneltrap .yield, rfl, nofun, rfl⟩
  | kernelRet => cases hg
  | kernelYield | kernelStay =>
    simp at hg
    rcases hg with rfl | rfl <;> cases hfn
  | skipSelf hl | wake hl => cases hl <;> cases hcall
  | proc p hme h =>
    cases h with
    | trapUpdate => exact ⟨rfl, .usertrap .accumulate, rfl, nofun, rfl⟩
    | trapRet => cases hg
    | trapExit | trapFault | trapTimer | trapLeave | trapYield =>
      simp [exitKilled] at hg
      rcases hg with rfl | rfl <;> cases hfn
    | trapCall sc =>
      simp at hg
      rcases hg with rfl | rfl
      · cases sc <;> cases hfn
      · cases hfn
    | sched hr | schedRunning hr => cases hr <;> cases hcall
    | badArg _ h | fsSleep _ h | fsWakeup _ h | fsReturn h =>
      rcases h with rfl | rfl <;> cases hcall
    | _ => cases hcall
  | _ => cases hcall

/-- What a step of `update_ticks` does. -/
inductive UpdateStep : Nat → Bool → Effect → Prop
  | done {i : Nat} {locked : Bool} (hi : NPROC ≤ i) : UpdateStep i locked { frames := [] }
  | test (q : Slot) :
      UpdateStep q.val false { op := .chargeSleep q, frames := [.updateTicks q.val true] }
  | lock (q : Slot) :
      UpdateStep q.val true
        { visit := some (.proc q), op := .charge q, frames := [.updateTicks (q.val + 1) false] }

theorem updateTicksStep_spec (i : Nat) (locked : Bool) :
    UpdateStep i locked (updateTicksStep i locked) := by
  unfold updateTicksStep forSlot
  split
  · rename_i hi
    cases locked with
    | false => exact .test ⟨i, hi⟩
    | true => exact .lock ⟨i, hi⟩
  · rename_i hi
    exact .done (Nat.le_of_not_lt hi)

theorem eq_updateTicks (h : f.fn = .updateTicks) : ∃ i b, f = .updateTicks i b := by
  cases f with
  | updateTicks i b => exact ⟨i, b, rfl⟩
  | _ => cases h

theorem TickTop.exec {m : Mem} (h : TickTop (f :: rest)) (he : f.effect m me i = some e) :
    TickTop (e.frames ++ rest) := by
  by_cases hf : f.fn = .updateTicks
  · obtain ⟨j, b, rfl⟩ := eq_updateTicks hf
    cases he
    have hspec := updateTicksStep_spec j b
    generalize updateTicksStep j b = e at hspec ⊢
    cases hspec with
    | done => exact .of_forall h.1
    | test | lock => exact h
  · by_cases hnew : ∃ g ∈ e.frames, g.fn = .updateTicks
    · obtain ⟨g, hg, hfn⟩ := hnew
      rcases effect_updateTicks he hg hfn with hf' | ⟨-, g', hoff, hne, rfl⟩
      · exact absurd hf' hf
      · refine ⟨fun x hx => ?_, fun _ => ⟨g', List.mem_cons_self, hoff⟩⟩
        rcases List.mem_cons.mp hx with rfl | hx
        · exact hne
        · exact h.1 x hx
    · refine .of_forall fun g hg hfn => ?_
      rcases List.mem_append.mp hg with hg | hg
      · exact hnew ⟨g, hg, hfn⟩
      · exact h.1 g hg hfn

theorem handler_ne_updateTicks {g : Frame} (hg : g.handler = true) : g.fn ≠ .updateTicks := by
  intro hfn
  obtain ⟨i, b, rfl⟩ := eq_updateTicks hfn
  cases hg

variable {s : State n}

theorem TickTop.planned {c : Fin n} (h : TickTop (s.cur c)) (hp : Planned s c i rest e) :
    TickTop (e.frames ++ rest) := by
  cases hp with
  | user p fs hr hc hfs =>
    rw [hc, List.append_nil]
    exact .of_forall fun g hg => handler_ne_updateTicks ((userEntry_spec p hfs).1 g hg)
  | kernel fs hne hlock hfs hoff =>
    refine .of_forall fun g hg => ?_
    rcases List.mem_append.mp hg with hg | hg
    · exact handler_ne_updateTicks ((kernelEntry_spec (s.running c) hfs).1 g hg)
    · exact h.forall_of_intrOn hoff g hg
  | exec f rest e hc he hk =>
    rw [hc] at h
    exact h.exec he

theorem tickTop_reachable (hr : (kernel n).Reachable s) (t : Thread n) :
    TickTop (s.stack t) := by
  refine hr.induct (P := fun s : State n => ∀ t, TickTop (s.stack t)) (fun s hs t => ?_)
    (fun s x s' hr h _ hs t => ?_) t
  · obtain ⟨b, rfl⟩ := hs
    cases t with
    | sched c => exact .of_forall fun g hg => by cases List.mem_singleton.mp hg; exact nofun
    | proc p =>
      refine .of_forall fun g hg => ?_
      rw [mem_boot_stack hg]
      exact nofun
  · obtain ⟨rest, e, hp, -, -, rfl⟩ := (inv_reachable hr).step_commit hs
    exact State.commit_stack_ind (P := fun _ stk => TickTop stk) (fun _ => .of_forall (by simp [Frame.fn]))
      ((h (s.running x.1)).planned hp) h t

/-- A thread in `update_ticks` is running on some hart. -/
theorem Inv.running_of_updateTicks (h : Inv s) {i : Nat} {b : Bool}
    (ht : s.stack t = .updateTicks i b :: rest) : ∃ c, s.running c = t := by
  cases t with
  | sched c =>
    have hnone : s.proc c = none := by rw [h.back c, ht]; rfl
    cases hr : s.running c with
    | sched d =>
      have hd := h.own c d hr
      exact ⟨c, by rw [hr, hd]⟩
    | proc p =>
      rw [h.thread c p hr] at hnone
      cases hnone
  | proc p =>
    by_contra hno
    have hsus := h.suspended p fun c hc => hno ⟨c, hc⟩
    rw [ht] at hsus
    cases hsus with
    | unused _ hi | used _ hi => simp [Idle] at hi

/-! ## The invariant -/

/-- What a call has charged to process `z` when it has come to slot `i`. -/
structure ChargedAt (m : Mem) (b : Booking) (i : Nat) (locked : Bool) (z : Slot) : Prop where
  timed : b.timed z = true → (m.proc z).state.counter.isSome = true
  before : z.val < i → b.total z ≤ 1 ∧ (b.timed z = true → b.total z = 1)
  here : z.val = i → locked = true → b.total z = if (m.proc z).state = .sleeping then 1 else 0
  behind : i < z.val ∨ z.val = i ∧ locked = false → b.total z = 0

variable {m m' : Mem} {b b' : Booking} {z q : Slot}

/-- A call begins. -/
theorem ChargedAt.start (htimed : b.timed z = true → (m.proc z).state.counter.isSome = true)
    (htotal : b.total z = 0) : ChargedAt m b 0 false z where
  timed := htimed
  before hz := absurd hz (Nat.not_lt_zero _)
  here _ hl := nomatch hl
  behind _ := htotal

/-- A step of another thread. -/
theorem ChargedAt.keep {i : Nat} (h : ChargedAt m b i locked z) (htotal : b'.total z = b.total z)
    (htimed : b'.timed z = true → b.timed z = true ∧ (m'.proc z).state.counter.isSome = true)
    (hsteady : z.val = i → locked = true →
      ((m'.proc z).state = .sleeping ↔ (m.proc z).state = .sleeping)) :
    ChargedAt m' b' i locked z where
  timed ht := (htimed ht).2
  before hz := by
    rw [htotal]
    exact ⟨(h.before hz).1, fun ht => (h.before hz).2 (htimed ht).1⟩
  here hz hl := by
    rw [htotal, h.here hz hl]
    simp only [hsteady hz hl]
  behind hz := by rw [htotal, h.behind hz]

theorem charged_chargeSleep (m : Mem) (q z : Slot) :
    (Op.chargeSleep q).charged m z = if q = z ∧ (m.proc z).state = .sleeping then 1 else 0 := by
  simp only [Op.charged, Op.charges]
  by_cases hq : q = z
  · subst hq
    simp
  · simp [hq]

theorem charged_charge (m : Mem) (q z : Slot) :
    (Op.charge q).charged m z =
      if q = z ∧ ((m.proc z).state = .runnable ∨ (m.proc z).state = .running) then 1 else 0 := by
  simp only [Op.charged, Op.charges]
  by_cases hq : q = z
  · subst hq
    cases (m.proc q).state <;> simp
  · simp [hq]

/-- The test for `SLEEPING`, without the lock. -/
theorem ChargedAt.test (h : ChargedAt m b q.val false z) (hstate : (m'.proc z).state = (m.proc z).state)
    (htotal : b'.total z = b.total z + (Op.chargeSleep q).charged m z)
    (htimed : b'.timed z = true → b.timed z = true) : ChargedAt m' b' q.val true z := by
  rw [charged_chargeSleep] at htotal
  constructor
  · intro ht
    rw [hstate]
    exact h.timed (htimed ht)
  · intro hz
    have hq : q ≠ z := fun hq => by rw [hq] at hz; exact Nat.lt_irrefl _ hz
    simp only [hq, false_and, if_false, Nat.add_zero] at htotal
    rw [htotal]
    exact ⟨(h.before hz).1, fun ht => (h.before hz).2 (htimed ht)⟩
  · intro hz _
    have hq : q = z := Fin.ext hz.symm
    simp only [hq, true_and] at htotal
    rw [htotal, h.behind (.inr ⟨hz, rfl⟩), hstate, Nat.zero_add]
  · rintro (hz | ⟨-, hl⟩)
    · have hq : q ≠ z := fun hq => by rw [hq] at hz; exact Nat.lt_irrefl _ hz
      simp only [hq, false_and, if_false, Nat.add_zero] at htotal
      rw [htotal]
      exact h.behind (.inl hz)
    · cases hl

/-- The tests under the lock. -/
theorem ChargedAt.lock (h : ChargedAt m b q.val true z) (hstate : (m'.proc z).state = (m.proc z).state)
    (htotal : b'.total z = b.total z + (Op.charge q).charged m z)
    (htimed : b'.timed z = true → b.timed z = true) : ChargedAt m' b' (q.val + 1) false z := by
  rw [charged_charge] at htotal
  refine ⟨fun ht => by rw [hstate]; exact h.timed (htimed ht), fun hz => ?_,
    (fun _ hl => nomatch hl), fun hz => ?_⟩
  · by_cases hq : q = z
    · -- the process is in one of the three states at both tests
      subst hq
      have hhere := h.here rfl rfl
      have hcounter := fun ht => h.timed (htimed ht)
      rw [htotal, hhere]
      cases hs : (m.proc q).state <;> simp_all [ProcState.counter]
    · have hlt : z.val < q.val := by
        have hne : z.val ≠ q.val := fun heq => hq (Fin.ext heq.symm)
        omega
      simp only [hq, false_and, if_false, Nat.add_zero] at htotal
      rw [htotal]
      exact ⟨(h.before hlt).1, fun ht => (h.before hlt).2 (htimed ht)⟩
  · have hlt : q.val < z.val := by omega
    have hq : q ≠ z := fun hq => by rw [hq] at hlt; exact Nat.lt_irrefl _ hlt
    simp only [hq, false_and, if_false, Nat.add_zero] at htotal
    rw [htotal]
    exact h.behind (.inl hlt)

/-! ## Steps -/

/-- Every call of `update_ticks` in progress has charged what it should have. -/
def Charged (s : State n) (h : Thread n → Booking) : Prop :=
  ∀ t i b rest, s.stack t = .updateTicks i b :: rest → ∀ z, ChargedAt s.mem (h t) i b z

theorem recordBooking_total (s : State n) (x : Fin n × Input) (h : Thread n → Booking)
    (t : Thread n) (z : Slot) :
    (recordBooking s x h t).total z =
      (if t = s.running x.1 ∧ s.callsUpdate x.1 = true then 0 else (h t).total z) +
        if t = s.running x.1 then (s.op x).charged s.mem z else 0 := by
  simp only [recordBooking, Booking.total, Op.charged]
  by_cases hcall : t = s.running x.1 ∧ s.callsUpdate x.1 = true
  · simp only [if_pos hcall, if_pos hcall.1, Booking.start]
    omega
  · simp only [if_neg hcall]
    by_cases ht : t = s.running x.1
    · simp only [if_pos ht]
      omega
    · simp only [if_neg ht]
      omega

theorem recordBooking_timed {x : Fin n × Input} {h : Thread n → Booking}
    (ht : (recordBooking s x h t).timed z = true) :
    (¬ (t = s.running x.1 ∧ s.callsUpdate x.1 = true) → (h t).timed z = true) ∧
      (((s.op x).apply s.mem).proc z).state.counter.isSome = true := by
  simp only [recordBooking, Bool.and_eq_true] at ht
  refine ⟨fun hne => ?_, ht.2⟩
  rw [if_neg hne] at ht
  exact ht.1

variable {s : State n} {h : Thread n → Booking} {c : Fin n} {i : Input}

/-- What the step leaves to a call of another thread. -/
theorem Charged.keep (hinv : Inv s) (hb : Charged s h) (ht : t ≠ s.running c) {j : Nat}
    (hstk : s.stack t = .updateTicks j locked :: rest) (hsteady : Steady s (c, i) = true) (z : Slot) :
    ChargedAt ((s.op (c, i)).apply s.mem) (recordBooking s (c, i) h t) j locked z := by
  have hcall : ¬ (t = s.running c ∧ s.callsUpdate c = true) := fun hcall => ht hcall.1
  refine (hb t j locked rest hstk z).keep ?_ (fun htimed => ?_) (fun hz hl => ?_)
  · rw [recordBooking_total, if_neg hcall, if_neg ht, Nat.add_zero]
  · have hrec := recordBooking_timed htimed
    exact ⟨hrec.1 hcall, hrec.2⟩
  · by_cases htarget : (s.op (c, i)).target = some z
    · -- the call is between the two tests of `z`
      obtain ⟨d, hd⟩ := hinv.running_of_updateTicks hstk
      have htesting : s.testing z = true := by
        rw [State.testing, List.any_eq_true]
        refine ⟨d, List.mem_finRange d, ?_⟩
        rw [State.cur, hd, hstk, hl]
        simp [testingIn, hz]
      simp only [Steady, htarget, Option.all_some, htesting, Bool.not_true, Bool.or_false,
        decide_eq_true_eq] at hsteady
      exact hsteady
    · rw [Op.apply_proc_of_ne _ _ htarget]

/-- A step of `update_ticks` itself. -/
theorem Charged.exec (hb : Charged s h) {j : Nat} (hc : s.cur c = .updateTicks j locked :: rest)
    (he : UpdateStep j locked e) (hop : s.op (c, i) = e.op) {j' : Nat} {locked' : Bool}
    {rest' : List Frame} (hstk : e.frames ++ rest = .updateTicks j' locked' :: rest')
    (hrest : ∀ g ∈ rest, g.fn ≠ .updateTicks) (z : Slot) :
    ChargedAt (e.op.apply s.mem) (recordBooking s (c, i) h (s.running c)) j' locked' z := by
  have hat := hb (s.running c) j locked rest hc z
  have hcall : ¬ (s.running c = s.running c ∧ s.callsUpdate c = true) := by
    rw [State.callsUpdate, hc]
    exact fun hcall => nomatch hcall.2
  have htotal : (recordBooking s (c, i) h (s.running c)).total z =
      (h (s.running c)).total z + e.op.charged s.mem z := by
    rw [recordBooking_total, if_neg hcall, if_pos rfl, hop]
  have htimed (ht : (recordBooking s (c, i) h (s.running c)).timed z = true) :
      (h (s.running c)).timed z = true := (recordBooking_timed ht).1 hcall
  have hstate (q : Slot) (op : Op) (hop : op = .chargeSleep q ∨ op = .charge q) :
      ((op.apply s.mem).proc z).state = (s.mem.proc z).state := by
    by_cases hz : op.target = some z
    · rw [op.apply_proc_target s.mem hz]
      rcases hop with rfl | rfl <;> rfl
    · rw [op.apply_proc_of_ne s.mem hz]
  cases he with
  | done hi =>
    have hmem : .updateTicks j' locked' ∈ rest := by
      rw [show rest = _ from hstk]
      exact List.mem_cons_self
    exact absurd rfl (hrest _ hmem)
  | test q =>
    cases hstk
    exact hat.test (hstate q _ (.inl rfl)) htotal htimed
  | lock q =>
    cases hstk
    exact hat.lock (hstate q _ (.inr rfl)) htotal htimed

/-- The step that calls `update_ticks`. -/
theorem Charged.call (hc : s.cur c = f :: rest) (hf : f.callsUpdate = true)
    (hop : s.op (c, i) = .skip) (z : Slot) :
    ChargedAt s.mem (recordBooking s (c, i) h (s.running c)) 0 false z := by
  have hcall : s.running c = s.running c ∧ s.callsUpdate c = true := by
    rw [State.callsUpdate, hc]
    exact ⟨rfl, hf⟩
  refine .start (fun ht => ?_) ?_
  · have hcounter := (recordBooking_timed ht).2
    rw [hop] at hcounter
    exact hcounter
  · rw [recordBooking_total, if_pos hcall, if_pos rfl, hop]
    rfl

theorem Charged.step {s' : State n} {x : Fin n × Input} (hb : Charged s h) (hinv : Inv s)
    (htop : ∀ t, TickTop (s.stack t)) (hsteady : Steady s x = true) (hs : s.step x = some s') :
    Charged s' (recordBooking s x h) := by
  obtain ⟨rest, e, hp, -, hop, rfl⟩ := hinv.step_commit hs
  intro t j locked rest' hstk z
  rcases State.commit_stack s x.1 rest e t with ⟨np, a, -, -, hfork⟩ | ⟨-, hupd⟩
  · rw [hfork] at hstk
    cases hstk
  rw [hupd, upd_apply] at hstk
  split at hstk
  case isFalse ht =>
    have hkeep := hb.keep (i := x.2) hinv ht hstk hsteady z
    rwa [show s.op (x.1, x.2) = e.op from hop] at hkeep
  case isTrue ht =>
    subst ht
    have hmem : .updateTicks j locked ∈ e.frames ++ rest := mem_of_eq_cons hstk
    have htraps (fs : List Frame) (hfs : ∀ g ∈ fs, g.handler = true)
        (hrest : ∀ g ∈ s.cur x.1, g.fn ≠ .updateTicks) (hmem : .updateTicks j locked ∈ fs ++ s.cur x.1) :
        False := by
      rcases List.mem_append.mp hmem with hg | hg
      · exact nomatch hfs _ hg
      · exact hrest _ hg rfl
    cases hp with
    | user p fs hr hc hfs =>
      exact (htraps fs (userEntry_spec p hfs).1 (by rw [hc]; exact nofun) hmem).elim
    | kernel fs hne hlock hfs hoff =>
      exact (htraps fs (kernelEntry_spec (s.running x.1) hfs).1
        ((htop (s.running x.1)).forall_of_intrOn hoff) hmem).elim
    | exec f rest e hc he hk =>
      have hrest : ∀ g ∈ rest, g.fn ≠ .updateTicks := by
        have := htop (s.running x.1)
        rw [show s.stack (s.running x.1) = f :: rest from hc] at this
        exact this.1
      rcases List.mem_append.mp hmem with hg | hg
      · rcases effect_updateTicks he hg rfl with hf | ⟨hf, g', -, -, rfl⟩
        · obtain ⟨j₀, b₀, rfl⟩ := eq_updateTicks hf
          cases he
          exact hb.exec hc (updateTicksStep_spec j₀ b₀) hop hstk hrest z
        · cases hstk
          exact Charged.call hc hf hop z
      · exact absurd rfl (hrest _ hg)

theorem charged_reachable {x : State n × (Thread n → Booking)}
    (hr : (bookings n).ReachableBy (fun x i => Steady x.1 i = true) x) : Charged x.1 x.2 := by
  refine hr.induct (P := fun x : State n × (Thread n → Booking) => Charged x.1 x.2) (fun x hx => ?_)
    (fun x i y hr hb hsteady hs => ?_)
  · obtain ⟨⟨b, hb⟩, -⟩ := hx
    intro t j locked rest hstk
    rw [hb] at hstk
    cases t with
    | sched c => cases hstk
    | proc p =>
      have hmem : .updateTicks j locked ∈ (State.boot n b).stack (.proc p) := mem_of_eq_cons hstk
      exact nomatch mem_boot_stack hmem
  · have hreach := reachable_of_observe hr
    obtain ⟨hstep, hh⟩ := observe_step.mp hs
    rw [hh]
    exact hb.step (inv_reachable hreach) (tickTop_reachable hreach) hsteady hstep

/-- The slot in front of which a call of `update_ticks` stands. -/
def nextCharge : List Frame → Option Nat
  | .updateTicks i false :: _ => some i
  | _ => none

theorem eq_cons_of_nextCharge {i : Nat} (h : nextCharge stk = some i) :
    ∃ rest, stk = .updateTicks i false :: rest := by
  unfold nextCharge at h
  split at h
  · cases h
    exact ⟨_, rfl⟩
  · cases h

/-- Hart 1 takes a timer interrupt in its scheduler loop and runs `update_ticks` to the end. -/
def chargeRun : List (Fin 2 × Input) :=
  [(1, .run), (1, .timer)] ++ List.replicate 129 (1, .run)

/-- The first process sleeps in a system call. Hart 0 tests it for `SLEEPING`, hart 1 wakes it, and
    hart 0 finds it `RUNNABLE`. -/
def racingRun : List (Fin 2 × Input) :=
  List.replicate 5 (0, .run) ++ [(0, .syscall .other), (0, .run), (0, .sleep 7)] ++
    List.replicate 4 (0, .run) ++ [(0, .timer)] ++ List.replicate 68 (0, .run) ++
    [(1, .run), (1, .device 7), (1, .run), (0, .run)]

end Xv6
