import Xv6.Kernel.SleepWakeup

/-!
# No lost wakeup

While a process sleeps on the channel, or is about to, and the condition is true, some caller
holds `lk` and has still to wake it (`Owed`): the condition becomes true only under `lk`, and the
sleeper does not release its `p->lock` before it is `SLEEPING`, so the scan of `wakeup` cannot
pass it too early.
-/

namespace Xv6

open TransitionSystem

namespace Client

variable {ch : Chan} {s s' : State}

/-- The innermost call of an agent. -/
def top (stack : Agent → List Pc) (a : Agent) : Option Pc := (stack a).head?

/-- The caller still has to wake process `p`. -/
def Pc.owes (p : Slot) : Pc → Prop
  | owe => True
  | wakeup i => i ≤ p.val
  | _ => False

/-! ## Steps -/

/-- One step of one agent, by what it does. -/
inductive Step (ch : Chan) (s : State) : State → Prop
  | call (a : Agent) (pc : Pc) (hpc : pc.free = true) (hr : s.ready a = true) :
      Step ch s (s.goto a (pc :: s.stack a))
  | acquire (a : Agent) (b : Bool) (rest : List Pc) (hs : s.stack a = .acquire b :: rest)
      (hlk : s.lk = none) :
      Step ch s { s with stack := upd s.stack a ((if b then .test else .hold) :: rest), lk := some a }
  | test (a : Agent) (rest : List Pc) (hs : s.stack a = .test :: rest) :
      Step ch s (s.goto a ((if s.cond then .hold else .lock) :: rest))
  | lock (p : Slot) (rest : List Pc) (hs : s.stack (.proc p) = .lock :: rest) :
      Step ch s { s with stack := upd s.stack (.proc p) (.unlock :: rest), plock := upd s.plock p true }
  | unlock (p : Slot) (rest : List Pc) (hs : s.stack (.proc p) = .unlock :: rest) :
      Step ch s { s with stack := upd s.stack (.proc p) (.set :: rest), lk := none }
  | set (p : Slot) (rest : List Pc) (hs : s.stack (.proc p) = .set :: rest) :
      Step ch s
        { s with
          stack := upd s.stack (.proc p) (.parked :: rest)
          mem := (Op.sleep p ch).apply s.mem }
  | wake (p : Slot) (rest : List Pc) (hs : s.stack (.proc p) = .wake :: rest) :
      Step ch s
        { s with
          stack := upd s.stack (.proc p) (.acquire true :: rest)
          mem := (Op.awake p).apply s.mem
          plock := upd s.plock p false }
  | skip (a : Agent) (q : Slot) (rest : List Pc) (hs : s.stack a = .wakeup q :: rest)
      (ha : a.myproc = some q) : Step ch s (s.goto a (.wakeup (q + 1) :: rest))
  | wakeup (a : Agent) (q : Slot) (rest : List Pc) (hs : s.stack a = .wakeup q :: rest)
      (hq : s.plock q = false) :
      Step ch s
        { s with
          stack := upd s.stack a (.wakeup (q + 1) :: rest)
          mem := (Op.wakeup (some ch) q).apply s.mem }
  | woken (a : Agent) (i : Nat) (rest : List Pc) (hs : s.stack a = .wakeup i :: rest)
      (hi : NPROC ≤ i) : Step ch s (s.goto a (.hold :: rest))
  | kill (a : Agent) (pid : Int) (q : Slot) (rest : List Pc)
      (hs : s.stack a = .kill pid q :: rest) :
      Step ch s { s with stack := upd s.stack a rest, mem := (Op.kill q pid).apply s.mem }
  | killNext (a : Agent) (pid : Int) (i : Nat) (rest : List Pc)
      (hs : s.stack a = .kill pid i :: rest) : Step ch s (s.goto a (.kill pid (i + 1) :: rest))
  | killed (a : Agent) (pid : Int) (i : Nat) (rest : List Pc)
      (hs : s.stack a = .kill pid i :: rest) : Step ch s (s.goto a rest)
  | setCond (a : Agent) (pc : Pc) (v : Bool) (rest : List Pc) (hs : s.stack a = pc :: rest)
      (hpc : pc = .hold ∨ pc = .owe) :
      Step ch s { s with stack := upd s.stack a ((if v then .owe else pc) :: rest), cond := v }
  | callWakeup (a : Agent) (pc : Pc) (rest : List Pc) (hs : s.stack a = pc :: rest)
      (hpc : pc = .hold ∨ pc = .owe) : Step ch s (s.goto a (.wakeup 0 :: rest))
  | release (a : Agent) (rest : List Pc) (hs : s.stack a = .hold :: rest) :
      Step ch s { s with stack := upd s.stack a rest, lk := none }
  | switched (p : Slot) (rest : List Pc) (hs : s.stack (.proc p) = .parked :: rest) :
      Step ch s { s with plock := upd s.plock p false }
  | dispatch (p : Slot) (rest : List Pc) (hs : s.stack (.proc p) = .parked :: rest)
      (hr : (s.mem.proc p).state = .runnable) :
      Step ch s
        { s with
          stack := upd s.stack (.proc p) (.wake :: rest)
          mem := (Op.dispatch p).apply s.mem
          plock := upd s.plock p true }
  | other (p : Slot) (x : Proc) (hs : s.stack (.proc p) = []) (hx : ¬ asleep ch x) :
      Step ch s { s with mem := { s.mem with proc := upd s.mem.proc p x } }


theorem forSlot_eq_some {i : Nat} {body : Slot → Option State} {done : Option State}
    (h : forSlot i body done = some s') :
    (∃ q : Slot, q.val = i ∧ body q = some s') ∨ NPROC ≤ i ∧ done = some s' := by
  unfold forSlot at h
  split at h
  · exact .inl ⟨_, rfl, h⟩
  · exact .inr ⟨by omega, h⟩

variable {a : Agent} {pc : Pc} {rest : List Pc} {p : Slot} {stack : Agent → List Pc}

theorem step_of_exec (hs : s.stack a = pc :: rest) (h : s.exec ch a pc rest = some s') :
    Step ch s s' := by
  cases pc with
  | acquire b =>
    simp only [State.exec] at h
    split at h
    · cases h
      exact .acquire a b rest hs ‹_›
    · cases h
  | test =>
    cases h
    exact .test a rest hs
  | wakeup i =>
    simp only [State.exec] at h
    rcases forSlot_eq_some h with ⟨q, rfl, h⟩ | ⟨hi, h⟩
    · split at h
      · cases h
        exact .skip a q rest hs ‹_›
      · split at h
        · cases h
        · rename_i hq
          cases h
          exact .wakeup a q rest hs (by simpa using hq)
    · cases h
      exact .woken a i rest hs hi
  | kill pid i =>
    simp only [State.exec] at h
    rcases forSlot_eq_some h with ⟨q, rfl, h⟩ | ⟨hi, h⟩
    · split at h
      · cases h
      · split at h
        · cases h
          exact .kill a pid q rest hs
        · cases h
          exact .killNext a pid q rest hs
    · cases h
      exact .killed a pid i rest hs
  | lock =>
    cases a with
    | hart c => cases h
    | proc p =>
      simp only [State.exec, State.sleepStep] at h
      split at h
      · cases h
      · cases h
        exact .lock p rest hs
  | unlock =>
    cases a with
    | hart c => cases h
    | proc p => cases h; exact .unlock p rest hs
  | set =>
    cases a with
    | hart c => cases h
    | proc p => cases h; exact .set p rest hs
  | wake =>
    cases a with
    | hart c => cases h
    | proc p => cases h; exact .wake p rest hs
  | hold | owe | parked => cases h

theorem step_cases {i : Input} (h : s.step ch i = some s') : Step ch s s' := by
  cases i with
  | sleeper p =>
    simp only [State.step] at h
    split at h
    · rename_i hr
      cases h
      rw [← List.isEmpty_iff.mp hr.2]
      exact .call (.proc p) (.acquire true) rfl hr.1
    · cases h
  | waker a =>
    simp only [State.step] at h
    split at h
    · cases h
      exact .call a (.acquire false) rfl ‹_›
    · cases h
  | kill p pid =>
    simp only [State.step] at h
    split at h
    · rename_i hr
      cases h
      rw [← List.isEmpty_iff.mp hr.2]
      exact .call (.proc p) (.kill pid 0) rfl hr.1
    · cases h
  | step a =>
    simp only [State.step, State.execTop] at h
    split at h
    · cases h
    · exact step_of_exec ‹_› h
  | setCond a v =>
    simp only [State.step, State.setCond] at h
    split at h
    · cases h
      exact .setCond a .hold v _ ‹_› (.inl rfl)
    · cases h
      have : Step ch s _ := .setCond a .owe v _ ‹_› (.inr rfl)
      rwa [ite_self] at this
    · cases h
  | wakeup a =>
    simp only [State.step, State.callWakeup] at h
    split at h
    · cases h
      exact .callWakeup a _ _ ‹_› (.inl rfl)
    · cases h
      exact .callWakeup a _ _ ‹_› (.inr rfl)
    · cases h
  | release a =>
    simp only [State.step, State.release] at h
    split at h
    · cases h
      exact .release a _ ‹_›
    · cases h
  | switched p =>
    simp only [State.step, State.switched] at h
    split at h
    · split at h
      · cases h
        exact .switched p _ ‹_›
      · cases h
    · cases h
  | dispatch p =>
    simp only [State.step, State.dispatch] at h
    split at h
    · split at h
      · rename_i hr
        cases h
        exact .dispatch p _ ‹_› hr.2
      · cases h
    · cases h
  | other p x =>
    simp only [State.step] at h
    split at h
    · rename_i hx
      cases h
      exact .other p x (List.isEmpty_iff.mp hx.1) hx.2.2
    · cases h

/-! ## Each agent on its own -/

/-- What the innermost call of an agent knows. -/
structure Local (s : State) (a : Agent) : Prop where
  lk : s.lk = some a ↔ ∃ pc, top s.stack a = some pc ∧ pc.holds = true
  tail : ∀ pc ∈ (s.stack a).tail, pc.free = true
  cond : top s.stack a = some .lock ∨ top s.stack a = some .unlock → s.cond = false
  plock : ∀ p, a = .proc p → top s.stack a = some .unlock ∨ top s.stack a = some .set →
    s.plock p = true
  running : ∀ p pc, a = .proc p → top s.stack a = some pc → pc ≠ .parked →
    (s.mem.proc p).state = .running

/-- What the other agents may do to it. -/
theorem Local.stable {b : Agent} (h : Local s b) (hstk : s'.stack b = s.stack b)
    (hlk : s'.lk = some b ↔ s.lk = some b) (hcond : s.lk = some b → s'.cond = s.cond)
    (hplock : ∀ p, b = .proc p → s'.plock p = s.plock p)
    (hrun : ∀ p, b = .proc p → (s.mem.proc p).state = .running → (s'.mem.proc p).state = .running) :
    Local s' b := by
  have htop : top s'.stack b = top s.stack b := by rw [top, top, hstk]
  refine ⟨by rw [hlk, htop]; exact h.lk, by rw [hstk]; exact h.tail, ?_, ?_, ?_⟩
  · rw [htop]
    intro hpc
    rw [hcond (h.lk.mpr ?_)]
    · exact h.cond hpc
    · rcases hpc with hpc | hpc <;> exact ⟨_, hpc, rfl⟩
  · rw [htop]
    intro p hb hpc
    rw [hplock p hb]
    exact h.plock p hb hpc
  · rw [htop]
    intro p pc hb hpc hne
    exact hrun p hb (h.running p pc hb hpc hne)

/-- The agent that has made a step. -/
theorem Local.moved (hstk : s'.stack a = pc :: rest) (htail : ∀ pc ∈ rest, pc.free = true)
    (hlk : s'.lk = some a ↔ pc.holds = true) (hcond : pc = .lock ∨ pc = .unlock → s'.cond = false)
    (hplock : ∀ p, a = .proc p → pc = .unlock ∨ pc = .set → s'.plock p = true)
    (hrun : ∀ p, a = .proc p → pc ≠ .parked → (s'.mem.proc p).state = .running) : Local s' a := by
  have htop : top s'.stack a = some pc := by rw [top, hstk]; rfl
  refine ⟨?_, by rw [hstk]; exact htail, ?_, ?_, ?_⟩
  · rw [hlk, htop]
    simp
  · rw [htop]
    simpa using hcond
  · rw [htop]
    simpa using hplock
  · rw [htop]
    rintro p pc' ha h hne
    cases h
    exact hrun p ha hne

/-- … and has returned from its innermost call. -/
theorem Local.returned (htail : ∀ pc ∈ s'.stack a, pc.free = true) (hlk : s'.lk ≠ some a)
    (hrun : ∀ p, a = .proc p → (s'.mem.proc p).state = .running) : Local s' a := by
  cases hstk : s'.stack a with
  | nil =>
    have htop : top s'.stack a = none := by rw [top, hstk]; rfl
    refine ⟨?_, by rw [hstk]; simp, ?_, ?_, ?_⟩ <;> rw [htop] <;> simp [hlk]
  | cons pc rest =>
    rw [hstk] at htail
    have hpc : pc.free = true := htail pc List.mem_cons_self
    refine .moved hstk (fun pc h => htail pc (List.mem_cons_of_mem _ h)) ?_ ?_ ?_ ?_
    · cases pc <;> simp_all [Pc.free, Pc.holds]
    · cases pc <;> simp_all [Pc.free]
    · cases pc <;> simp_all [Pc.free]
    · exact fun p ha _ => hrun p ha

theorem Local.holds_of_top (h : Local s a) (hs : s.stack a = pc :: rest) :
    s.lk = some a ↔ pc.holds = true := by
  rw [h.lk, top, hs]
  simp

theorem Local.free_rest (h : Local s a) (hs : s.stack a = pc :: rest) :
    ∀ pc ∈ rest, pc.free = true := by
  have := h.tail
  rwa [hs] at this

theorem Local.running_of_top (h : Local s a) (hs : s.stack a = pc :: rest) (ha : a = .proc p)
    (hpc : pc ≠ .parked) : (s.mem.proc p).state = .running :=
  h.running p pc ha (by rw [top, hs]; rfl) hpc

variable {q : Slot} {m : Mem} {op : Op}

/-- Waking, killing and dispatching processes stops nobody. -/
theorem running_keep
    (hop : (∃ c, op = .wakeup c q) ∨ (∃ pid, op = .kill q pid) ∨ op = .dispatch q)
    (h : (m.proc p).state = .running) : ((op.apply m).proc p).state = .running := by
  have ht : op.target = some q := by
    rcases hop with ⟨c, rfl⟩ | ⟨pid, rfl⟩ | rfl <;> rfl
  by_cases hp : p = q
  · subst hp
    rw [op.apply_proc_target m ht]
    rcases hop with ⟨c, rfl⟩ | ⟨pid, rfl⟩ | rfl <;> simp [Op.write, h]
  · rw [op.apply_proc_other m ht hp, h]

theorem Agent.ne_proc {b : Agent} (hb : b ≠ .proc p) (hq : b = .proc q) : q ≠ p :=
  fun h => hb (by rw [hq, h])

section

variable (h : ∀ b, Local s b)
include h

/-- A step in which only the stack of `a` changes: `a` goes on to `pc'`. -/
theorem local_goto (pc' : Pc) (hs : s.stack a = pc :: rest) (hne : pc ≠ .parked)
    (hholds : pc'.holds = pc.holds) (hcond : pc' = .lock ∨ pc' = .unlock → s.cond = false)
    (hset : pc' ≠ .unlock ∧ pc' ≠ .set) (b : Agent) : Local (s.goto a (pc' :: rest)) b := by
  by_cases hb : b = a
  · subst hb
    refine .moved (upd_self ..) ((h b).free_rest hs) ?_ hcond ?_ ?_
    · rw [hholds]
      exact (h b).holds_of_top hs
    · exact fun p _ hpc => absurd hpc (by simp [hset])
    · exact fun p ha _ => (h b).running_of_top hs ha hne
  · exact (h b).stable (upd_of_ne hb _) Iff.rfl (fun _ => rfl) (fun _ _ => rfl) (fun _ _ h => h)

/-- Waking or killing a process does not disturb anybody's call. -/
theorem local_op (op : Op) (q : Slot)
    (hop : (∃ c, op = .wakeup c q) ∨ (∃ pid, op = .kill q pid) ∨ op = .dispatch q) (b : Agent) :
    Local { s with mem := op.apply s.mem } b :=
  (h b).stable rfl Iff.rfl (fun _ => rfl) (fun _ _ => rfl) (fun _ _ => running_keep hop)

/-- `a` returns from `kill`. -/
theorem local_return {pid : Int} {i : Nat} (hs : s.stack a = .kill pid i :: rest) (b : Agent) :
    Local (s.goto a rest) b := by
  by_cases hb : b = a
  · subst hb
    refine .returned (by simpa [State.goto] using (h b).free_rest hs) (fun hlk => ?_) ?_
    · exact nomatch ((h b).holds_of_top hs).mp hlk
    · exact fun p ha => (h b).running_of_top hs ha (by simp)
  · exact (h b).stable (upd_of_ne hb _) Iff.rfl (fun _ => rfl) (fun _ _ => rfl) (fun _ _ h => h)

theorem Step.local (hs : Step ch s s') (b : Agent) : Local s' b := by
  cases hs with
  | call a pc hpc hr =>
    simp only [State.ready, Bool.and_eq_true] at hr
    by_cases hb : b = a
    · subst hb
      have hfree : ∀ pc ∈ s.stack b, pc.free = true := by
        intro pc' hmem
        cases hstk : s.stack b with
        | nil =>
          rw [hstk] at hmem
          cases hmem
        | cons pc₀ rest =>
          rw [hstk] at hmem hr
          rcases List.mem_cons.mp hmem with rfl | hmem
          · simpa using hr.2
          · exact (h b).free_rest hstk pc' hmem
      refine .returned ?_ (fun hlk => ?_) ?_
      · simp only [State.goto, upd_self]
        exact List.forall_mem_cons.mpr ⟨hpc, hfree⟩
      · obtain ⟨pc', htop, hholds⟩ := (h b).lk.mp hlk
        have := hfree pc' (List.mem_of_mem_head? htop)
        cases pc' <;> simp_all [Pc.free, Pc.holds]
      · intro p ha
        have := hr.1
        rw [ha] at this
        simpa [State.goto, Agent.myproc] using this
    · exact (h b).stable (upd_of_ne hb _) Iff.rfl (fun _ => rfl) (fun _ _ => rfl) (fun _ _ h => h)
  | acquire a sl rest hs hlk =>
    by_cases hb : b = a
    · subst hb
      refine .moved (upd_self ..) ((h b).free_rest hs) ?_ ?_ ?_ ?_
      · cases sl <;> simp [Pc.holds]
      · cases sl <;> simp
      · cases sl <;> simp
      · exact fun p ha _ => (h b).running_of_top hs ha (by simp)
    · refine (h b).stable (upd_of_ne hb _) ?_ (fun _ => rfl) (fun _ _ => rfl) (fun _ _ h => h)
      simp [hlk, Ne.symm hb]
  | test a rest hs =>
    refine local_goto h _ hs (by simp) ?_ ?_ ?_ b
    · split <;> rfl
    · split <;> simp_all
    · split <;> simp
  | lock p rest hs =>
    by_cases hb : b = .proc p
    · subst hb
      have hlk := ((h _).holds_of_top hs).mpr rfl
      refine .moved (upd_self ..) ((h _).free_rest hs) ?_ ?_ ?_ ?_
      · simp [hlk, Pc.holds]
      · exact fun _ => (h _).cond (.inl (by rw [top, hs]; rfl))
      · rintro q hq -
        cases hq
        exact upd_self ..
      · exact fun q ha _ => (h _).running_of_top hs ha (by simp)
    · exact (h b).stable (upd_of_ne hb _) Iff.rfl (fun _ => rfl)
        (fun q hq => upd_of_ne (Agent.ne_proc hb hq) _) (fun _ _ h => h)
  | unlock p rest hs =>
    have hlk := ((h _).holds_of_top hs).mpr rfl
    by_cases hb : b = .proc p
    · subst hb
      refine .moved (upd_self ..) ((h _).free_rest hs) (by simp [Pc.holds]) (by simp) ?_ ?_
      · exact fun q hq _ => (h _).plock q hq (.inl (by rw [top, hs]; rfl))
      · exact fun q ha _ => (h _).running_of_top hs ha (by simp)
    · refine (h b).stable (upd_of_ne hb _) ?_ (fun _ => rfl) (fun _ _ => rfl) (fun _ _ h => h)
      simp [hlk, Ne.symm hb]
  | set p rest hs =>
    by_cases hb : b = .proc p
    · subst hb
      have hlk := (h _).holds_of_top hs
      refine .moved (upd_self ..) ((h _).free_rest hs) ?_ (by simp) (by simp) (by simp)
      simpa [State.goto, Pc.holds] using hlk
    · refine (h b).stable (upd_of_ne hb _) Iff.rfl (fun _ => rfl) (fun _ _ => rfl) ?_
      intro q hq hrun
      rw [Op.apply_proc_other _ _ rfl (Agent.ne_proc hb hq), hrun]
  | wake p rest hs =>
    by_cases hb : b = .proc p
    · subst hb
      have hlk := (h _).holds_of_top hs
      refine .moved (upd_self ..) ((h _).free_rest hs) ?_ (by simp) (by simp) ?_
      · simpa [State.goto, Pc.holds] using hlk
      · intro q hq _
        cases hq
        rw [Op.apply_proc_target _ _ rfl]
        exact (h _).running_of_top hs rfl (by simp)
    · refine (h b).stable (upd_of_ne hb _) Iff.rfl (fun _ => rfl)
        (fun q hq => upd_of_ne (Agent.ne_proc hb hq) _) ?_
      intro q hq hrun
      rw [Op.apply_proc_other _ _ rfl (Agent.ne_proc hb hq), hrun]
  | skip a q rest hs ha =>
    exact local_goto h (.wakeup (q + 1)) hs (by simp) rfl (by simp) (by simp) b
  | wakeup a q rest hs hq =>
    have hgoto := local_goto h (.wakeup (q + 1)) hs (by simp) rfl (by simp) (by simp)
    exact local_op hgoto (.wakeup (some ch) q) q (.inl ⟨_, rfl⟩) b
  | woken a i rest hs hi => exact local_goto h .hold hs (by simp) rfl (by simp) (by simp) b
  | kill a pid q rest hs =>
    exact local_op (local_return h hs) (.kill q pid) q (.inr (.inl ⟨pid, rfl⟩)) b
  | killNext a pid i rest hs =>
    exact local_goto h (.kill pid (i + 1)) hs (by simp) rfl (by simp) (by simp) b
  | killed a pid i rest hs => exact local_return h hs b
  | setCond a pc v rest hs hpc =>
    have hholds : pc.holds = true := by rcases hpc with rfl | rfl <;> rfl
    have hlk := ((h a).holds_of_top hs).mpr hholds
    by_cases hb : b = a
    · subst hb
      refine .moved (upd_self ..) ((h b).free_rest hs) ?_ ?_ ?_ ?_
      · cases v with
        | false => exact ⟨fun _ => hholds, fun _ => hlk⟩
        | true => exact ⟨fun _ => rfl, fun _ => hlk⟩
      · cases v <;> rcases hpc with rfl | rfl <;> simp
      · cases v <;> rcases hpc with rfl | rfl <;> simp
      · refine fun p ha _ => (h b).running_of_top hs ha ?_
        rcases hpc with rfl | rfl <;> simp
    · refine (h b).stable (upd_of_ne hb _) Iff.rfl (fun hlk' => ?_) (fun _ _ => rfl) (fun _ _ h => h)
      exact absurd (Option.some.inj (hlk'.symm.trans hlk)) hb
  | callWakeup a pc rest hs hpc =>
    refine local_goto h (.wakeup 0) hs ?_ ?_ (by simp) (by simp) b
    · rcases hpc with rfl | rfl <;> simp
    · rcases hpc with rfl | rfl <;> rfl
  | release a rest hs =>
    have hlk := ((h a).holds_of_top hs).mpr rfl
    by_cases hb : b = a
    · subst hb
      refine .returned (by simpa [State.goto] using (h b).free_rest hs) (by simp) ?_
      exact fun p ha => (h b).running_of_top hs ha (by simp)
    · refine (h b).stable (upd_of_ne hb _) ?_ (fun _ => rfl) (fun _ _ => rfl) (fun _ _ h => h)
      simp [hlk, Ne.symm hb]
  | switched p rest hs =>
    by_cases hb : b = .proc p
    · subst hb
      refine .moved hs ((h _).free_rest hs) ((h _).holds_of_top hs) (by simp) (by simp) (by simp)
    · exact (h b).stable rfl Iff.rfl (fun _ => rfl)
        (fun q hq => upd_of_ne (Agent.ne_proc hb hq) _) (fun _ _ h => h)
  | dispatch p rest hs hr =>
    by_cases hb : b = .proc p
    · subst hb
      refine .moved (upd_self ..) ((h _).free_rest hs) ?_ (by simp) (by simp) ?_
      · simpa [State.goto, Pc.holds] using (h _).holds_of_top hs
      · intro q hq _
        cases hq
        rw [Op.apply_proc_target _ _ rfl]
        rfl
    · exact (h b).stable (upd_of_ne hb _) Iff.rfl (fun _ => rfl)
        (fun q hq => upd_of_ne (Agent.ne_proc hb hq) _)
        (fun _ _ => running_keep (.inr (.inr rfl)))
  | other p x hs hx =>
    by_cases hb : b = .proc p
    · subst hb
      have htop : top s.stack (.proc p) = none := by rw [top, hs]; rfl
      have hlk := (h (.proc p)).lk
      refine ⟨hlk, (h _).tail, ?_, ?_, ?_⟩ <;> simp [htop]
    · refine (h b).stable rfl Iff.rfl (fun _ => rfl) (fun _ _ => rfl) ?_
      intro q hq hrun
      simp only [upd_of_ne (Agent.ne_proc hb hq), hrun]

end

/-! ## Sleepers and those who wake them -/

theorem top_upd_self (stack : Agent → List Pc) (a : Agent) (pcs : List Pc) :
    top (upd stack a pcs) a = pcs.head? := by
  rw [top, upd_self]

theorem top_upd_of_ne {b : Agent} (hb : b ≠ a) (pcs : List Pc) :
    top (upd stack a pcs) b = top stack b := by
  rw [top, upd_of_ne hb, top]

theorem top_of_eq (hs : stack a = pc :: rest) : top stack a = some pc := by
  rw [top, hs]
  rfl

/-- Only `sleep` puts a process to sleep on the channel, and it has then switched away. -/
theorem asleep_of_op
    (hop : (∃ c, op = .wakeup c q) ∨ (∃ pid, op = .kill q pid) ∨ op = .dispatch q ∨ op = .awake q)
    (h : asleep ch ((op.apply m).proc p)) : asleep ch (m.proc p) := by
  have ht : op.target = some q := by
    rcases hop with ⟨c, rfl⟩ | ⟨pid, rfl⟩ | rfl | rfl <;> rfl
  by_cases hp : p = q
  · subst hp
    rw [op.apply_proc_target m ht] at h
    rcases hop with ⟨c, rfl⟩ | ⟨pid, rfl⟩ | rfl | rfl
    · simp only [asleep, Op.write] at h ⊢
      split at h <;> simp_all
    · simp only [asleep, Op.write] at h ⊢
      split at h <;> simp_all
    · simp [asleep, Op.write] at h
    · simp [asleep, Op.write] at h
  · rwa [op.apply_proc_other m ht hp] at h

theorem not_asleep_of_wakeup (m : Mem) (q : Slot) :
    ¬ asleep ch (((Op.wakeup (some ch) q).apply m).proc q) := by
  rw [Op.apply_proc_target _ _ rfl]
  simp only [asleep, Op.write]
  split <;> simp_all

/-- Whoever sleeps on the channel has switched away. -/
def Parked (ch : Chan) (s : State) (p : Slot) : Prop :=
  asleep ch (s.mem.proc p) → top s.stack (.proc p) = some .parked

theorem parked_upd (h : ∀ p, Parked ch s p) (hs : s.stack a = pc :: rest) (hne : pc ≠ .parked)
    (pcs : List Pc) (hp : asleep ch (s.mem.proc p)) :
    top (upd s.stack a pcs) (.proc p) = some .parked := by
  have htop := h p hp
  by_cases ha : Agent.proc p = a
  · rw [ha, top_of_eq hs] at htop
    exact absurd (Option.some.inj htop) hne
  · rw [top_upd_of_ne ha, htop]

theorem Step.parked (h : ∀ p, Parked ch s p) (hs : Step ch s s') (p : Slot) : Parked ch s' p := by
  intro hp
  cases hs with
  | call a pc hpc hr =>
    have htop := h p hp
    simp only [State.ready, Bool.and_eq_true] at hr
    by_cases ha : Agent.proc p = a
    · subst ha
      rw [top] at htop
      rw [htop] at hr
      exact nomatch hr.2
    · exact (top_upd_of_ne ha _).trans htop
  | acquire _ _ _ hs | test _ _ hs | lock _ _ hs | unlock _ _ hs | skip _ _ _ hs | woken _ _ _ hs
  | killNext _ _ _ _ hs | killed _ _ _ _ hs | release _ _ hs => exact parked_upd h hs (by simp) _ hp
  | set q rest hs =>
    by_cases hq : p = q
    · rw [hq]
      exact top_upd_self ..
    · rw [Op.apply_proc_other _ _ rfl hq] at hp
      exact parked_upd h hs (by simp) _ hp
  | wake q rest hs =>
    exact parked_upd h hs (by simp) _ (asleep_of_op (.inr (.inr (.inr rfl))) hp)
  | wakeup a q rest hs hq => exact parked_upd h hs (by simp) _ (asleep_of_op (.inl ⟨_, rfl⟩) hp)
  | kill a pid q rest hs =>
    exact parked_upd h hs (by simp) _ (asleep_of_op (.inr (.inl ⟨pid, rfl⟩)) hp)
  | setCond _ _ _ _ hs hpc | callWakeup _ _ _ hs hpc =>
    exact parked_upd h hs (by rcases hpc with rfl | rfl <;> simp) _ hp
  | switched q rest hs => exact h p hp
  | dispatch q rest hs hr =>
    by_cases hq : p = q
    · subst hq
      rw [Op.apply_proc_target _ _ rfl] at hp
      exact nomatch hp.1
    · have hne : Agent.proc p ≠ .proc q := fun h => hq (Agent.proc.inj h)
      rw [Op.apply_proc_other _ _ rfl hq] at hp
      exact (top_upd_of_ne hne _).trans (h p hp)
  | other q x hs hx =>
    by_cases hq : p = q
    · subst hq
      simp only [upd_self] at hp
      exact absurd hp hx
    · simp only [upd_of_ne hq] at hp
      exact h p hp

/-- The process sleeps on the channel or, past `release(lk)`, is going to. -/
def Sleeper (ch : Chan) (m : Mem) (stack : Agent → List Pc) (p : Slot) : Prop :=
  asleep ch (m.proc p) ∨ top stack (.proc p) = some .set

/-- While the condition is true, the holder of `lk` still has to wake the sleeper. -/
def Owed (ch : Chan) (s : State) (p : Slot) : Prop :=
  Sleeper ch s.mem s.stack p → s.cond = true →
    ∃ a pc, s.lk = some a ∧ top s.stack a = some pc ∧ pc.owes p

/-- The sleepers after a step in which `a` goes on to a place other than `set`. -/
theorem sleeper_of_upd {m m' : Mem} {pcs : List Pc} (hset : pcs.head? ≠ some .set)
    (hmem : asleep ch (m'.proc p) → asleep ch (m.proc p)) (hp : Sleeper ch m' (upd stack a pcs) p) :
    Sleeper ch m stack p := by
  rcases hp with hp | hp
  · exact .inl (hmem hp)
  · by_cases ha : Agent.proc p = a
    · rw [ha, top_upd_self] at hp
      exact absurd hp hset
    · rw [top_upd_of_ne ha] at hp
      exact .inr hp

/-- A step of `a` that neither takes nor releases `lk` nor changes the condition. -/
theorem owed_keep {m' : Mem} {plock' : Slot → Bool} (h : ∀ p, Owed ch s p)
    {pcs : List Pc} (hs : s.stack a = pc :: rest)
    (hp : Sleeper ch m' (upd s.stack a pcs) p → Sleeper ch s.mem s.stack p)
    (hpc : Sleeper ch m' (upd s.stack a pcs) p → pc.owes p →
      ∃ pc', pcs.head? = some pc' ∧ pc'.owes p) :
    Owed ch ⟨m', s.cond, s.lk, plock', upd s.stack a pcs⟩ p := by
  intro hsl hc
  obtain ⟨b, pc₀, hb, htop, howes⟩ := h p (hp hsl) hc
  by_cases hba : b = a
  · subst hba
    rw [top_of_eq hs] at htop
    cases htop
    obtain ⟨pc', htop', howes'⟩ := hpc hsl howes
    exact ⟨b, pc', hb, by rw [top_upd_self, htop'], howes'⟩
  · exact ⟨b, pc₀, hb, by rw [top_upd_of_ne hba, htop], howes⟩

/-- When the holder of `lk` owes nothing to `p`, either `p` does not sleep or the condition is
    false. -/
theorem Owed.elim (h : Owed ch s p) (hlk : s.lk = some a) (hs : s.stack a = pc :: rest)
    (hpc : ¬ pc.owes p) (hp : Sleeper ch s.mem s.stack p) (hc : s.cond = true) : False := by
  obtain ⟨b, pc', hb, htop, howes⟩ := h hp hc
  obtain rfl : a = b := Option.some.inj (hlk.symm.trans hb)
  rw [top_of_eq hs] at htop
  cases htop
  exact hpc howes

/-- A process that runs does not sleep. -/
theorem not_sleeper (hpk : Parked ch s p) (hs : s.stack a = pc :: rest) (ha : a = .proc p)
    (hpc : pc ≠ .parked ∧ pc ≠ .set) : ¬ Sleeper ch s.mem s.stack p := by
  subst ha
  rintro (hp | hp)
  · exact hpc.1 (Option.some.inj ((top_of_eq hs).symm.trans (hpk hp)))
  · exact hpc.2 (Option.some.inj ((top_of_eq hs).symm.trans hp))

theorem Step.owed (hl : ∀ b, Local s b) (hpk : ∀ p, Parked ch s p) (h : ∀ p, Owed ch s p)
    (hs : Step ch s s') (p : Slot) : Owed ch s' p := by
  cases hs with
  | call a pc hpc hr =>
    intro hsl hc
    have hset : (pc :: s.stack a).head? ≠ some .set := by
      intro heq
      cases heq
      cases hpc
    obtain ⟨b, pc', hb, htop, howes⟩ := h p (sleeper_of_upd hset id hsl) hc
    have hba : b ≠ a := by
      rintro rfl
      simp only [State.ready, Bool.and_eq_true] at hr
      rw [top] at htop
      rw [htop] at hr
      cases pc' <;> simp_all [Pc.owes, Pc.free]
    exact ⟨b, pc', hb, (top_upd_of_ne hba _).trans htop, howes⟩
  | acquire a sl rest hs hlk =>
    intro hsl hc
    obtain ⟨b, pc, hb, -, -⟩ := h p (sleeper_of_upd (by cases sl <;> simp) id hsl) hc
    exact nomatch hlk.symm.trans hb
  | test a rest hs =>
    exact owed_keep h hs (sleeper_of_upd (by split <;> simp) id) fun _ h => h.elim
  | lock q rest hs | killNext a pid i rest hs =>
    exact owed_keep h hs (sleeper_of_upd (by simp) id) fun _ h => h.elim
  | unlock q rest hs =>
    -- the sleeper has found the condition false, and nobody else held `lk` since
    intro hsl hc
    have hfalse := (hl (.proc q)).cond (.inr (top_of_eq hs))
    exact nomatch hfalse.symm.trans hc
  | set q rest hs =>
    refine owed_keep h hs ?_ fun _ h => h.elim
    by_cases hq : p = q
    · subst hq
      exact fun _ => .inr (top_of_eq hs)
    · refine sleeper_of_upd (by simp) fun hp => ?_
      rwa [Op.apply_proc_other _ _ rfl hq] at hp
  | wake q rest hs =>
    exact owed_keep h hs (sleeper_of_upd (by simp) (asleep_of_op (.inr (.inr (.inr rfl)))))
      fun _ h => h.elim
  | skip a q rest hs ha =>
    refine owed_keep h hs (sleeper_of_upd (by simp) id) fun hsl howes => ⟨_, rfl, ?_⟩
    -- the waker itself does not sleep
    have hne : q.val ≠ p.val := by
      intro hqp
      obtain rfl := Fin.ext hqp
      refine not_sleeper (hpk q) hs ?_ (by simp) (sleeper_of_upd (by simp) id hsl)
      cases a with
      | proc r => rw [Option.some.inj ha]
      | hart c => cases ha
    have hle : q.val ≤ p.val := howes
    show q.val + 1 ≤ p.val
    omega
  | wakeup a q rest hs hq =>
    refine owed_keep h hs (sleeper_of_upd (by simp) (asleep_of_op (.inl ⟨_, rfl⟩)))
      fun hsl howes => ⟨_, rfl, ?_⟩
    -- a process that is about to sleep holds its lock
    have hne : q.val ≠ p.val := by
      intro hqp
      obtain rfl := Fin.ext hqp
      rcases hsl with hp | hp
      · exact not_asleep_of_wakeup s.mem q hp
      · have hset : top s.stack (.proc q) = some .set := by
          by_cases ha : Agent.proc q = a
          · rw [ha, top_upd_self] at hp
            cases hp
          · rwa [top_upd_of_ne ha] at hp
        exact nomatch hq.symm.trans ((hl _).plock q rfl (.inr hset))
    have hle : q.val ≤ p.val := howes
    show q.val + 1 ≤ p.val
    omega
  | woken a i rest hs hi =>
    refine owed_keep h hs (sleeper_of_upd (by simp) id) fun _ howes => ?_
    have hle : i ≤ p.val := howes
    omega
  | kill a pid q rest hs =>
    refine owed_keep h hs (sleeper_of_upd ?_ (asleep_of_op (.inr (.inl ⟨pid, rfl⟩))))
      fun _ h => h.elim
    intro heq
    exact nomatch (hl a).free_rest hs _ (List.mem_of_mem_head? heq)
  | killed a pid i rest hs =>
    refine owed_keep h hs (sleeper_of_upd ?_ id) fun _ h => h.elim
    intro heq
    exact nomatch (hl a).free_rest hs _ (List.mem_of_mem_head? heq)
  | setCond a pc v rest hs hpc =>
    intro hsl hc
    obtain rfl : v = true := hc
    have hlk := ((hl a).holds_of_top hs).mpr (by rcases hpc with rfl | rfl <;> rfl)
    exact ⟨a, .owe, hlk, top_upd_self .., trivial⟩
  | callWakeup a pc rest hs hpc =>
    intro hsl hc
    have hlk := ((hl a).holds_of_top hs).mpr (by rcases hpc with rfl | rfl <;> rfl)
    exact ⟨a, .wakeup 0, hlk, top_upd_self .., Nat.zero_le _⟩
  | release a rest hs =>
    intro hsl hc
    have hlk := ((hl a).holds_of_top hs).mpr rfl
    refine ((h p).elim hlk hs (fun howes => howes) (sleeper_of_upd ?_ id hsl) hc).elim
    intro heq
    exact nomatch (hl a).free_rest hs _ (List.mem_of_mem_head? heq)
  | switched q rest hs => exact h p
  | dispatch q rest hs hr =>
    exact owed_keep h hs (sleeper_of_upd (by simp) (asleep_of_op (.inr (.inr (.inl rfl)))))
      fun _ h => h.elim
  | other q x hs hx =>
    intro hsl hc
    refine h p (hsl.imp_left fun hp => ?_) hc
    by_cases hq : p = q
    · subst hq
      simp only [upd_self] at hp
      exact (hx hp).elim
    · simpa only [upd_of_ne hq] using hp

/-! ## Runs -/

/-- The invariant of all runs. -/
structure Safe (ch : Chan) (s : State) : Prop where
  callers : ∀ a, Local s a
  parked : ∀ p, Parked ch s p
  owed : ∀ p, Owed ch s p

theorem safe_init (h : (client ch).init s) : Safe ch s := by
  obtain ⟨hlk, -, hstk, hasleep⟩ := h
  have htop : ∀ a, top s.stack a = none := fun a => by rw [top, hstk]; rfl
  refine ⟨fun a => ⟨?_, ?_, ?_, ?_, ?_⟩, fun p hp => absurd hp (hasleep p), fun p hp => ?_⟩
  · simp [hlk, htop]
  · simp [hstk]
  · simp [htop]
  · simp [htop]
  · simp [htop]
  · rcases hp with hp | hp
    · exact absurd hp (hasleep p)
    · exact nomatch (htop _).symm.trans hp

theorem safe_reachable (hr : (client ch).Reachable s) : Safe ch s := by
  refine ReachableBy.induct (P := Safe ch) (fun s => safe_init) ?_ hr
  intro s i s' _ hs _ hstep
  have hcases := step_cases hstep
  exact ⟨hcases.local hs.callers, hcases.parked hs.parked,
    hcases.owed hs.callers hs.parked hs.owed⟩

end Client

/-- While nobody holds `lk`, nobody sleeps on the channel with the condition true. -/
theorem no_lost_wakeup {ch : Chan} {s : Client.State} (hr : (client ch).Reachable s)
    (hlk : s.lk = none) (p : Slot) : ¬ (Client.asleep ch (s.mem.proc p) ∧ s.cond = true) := by
  rintro ⟨hp, hc⟩
  obtain ⟨a, pc, ha, -, -⟩ := (Client.safe_reachable hr).owed p (.inl hp) hc
  exact nomatch hlk.symm.trans ha

namespace Client

/-- Two processes run, and the condition is false. -/
def start : State where
  mem :=
    { proc := fun p => if p.val < 2 then { Proc.zero with state := .running } else Proc.zero
      initproc := 0, nextpid := 3, policy := 0, ticks := 0 }
  cond := false
  lk := none
  plock _ := false
  stack _ := []

/-- Process 0 goes to sleep; process 1 makes the condition true and wakes it. -/
def wakeRun : List Input :=
  .sleeper 0 :: List.replicate 5 (.step (.proc 0)) ++
    [.switched 0, .waker (.proc 1), .step (.proc 1), .setCond (.proc 1) true, .wakeup (.proc 1)] ++
    List.replicate 65 (.step (.proc 1)) ++ [.release (.proc 1)]

end Client

theorem no_lost_wakeup_woken : ∃ s : Client.State,
    (client .ticks).run Client.start Client.wakeRun = some s ∧ s.cond = true ∧
      (s.mem.proc 0).state = .runnable ∧ ¬ (Client.asleep .ticks (s.mem.proc 0) ∧ s.cond = true) := by
  have hrun : ((client .ticks).run Client.start Client.wakeRun).map
      (fun s => (s.lk, s.cond, (s.mem.proc 0).state)) = some (none, true, .runnable) := by
    decide +kernel
  obtain ⟨s, hs, h⟩ := Option.map_eq_some_iff.mp hrun
  simp only [Prod.mk.injEq] at h
  have hinit : (client .ticks).init Client.start := by
    refine ⟨rfl, fun _ => rfl, fun _ => rfl, fun p hp => ?_⟩
    simp only [Client.asleep, Client.start] at hp
    split at hp <;> exact nomatch hp.1
  have hr : (client .ticks).Reachable s := reachable_run (.init hinit) hs
  exact ⟨s, hs, h.2.1, h.2.2, no_lost_wakeup hr h.1 0⟩

end Xv6
