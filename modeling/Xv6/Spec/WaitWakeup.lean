import Xv6.Spec.Lineage

/-!
# No lost wakeup in wait

`wait` sleeps on the address of its own process while `exit` stores `ZOMBIE` in a child.
Both hold `wait_lock` from the decision to the store, so a parent that sleeps has no
`ZOMBIE` child, with one exception: `reparent` may hand a `ZOMBIE` to the sleeping first
process and wakes it in the same critical section. `NoLost` makes this an invariant.
-/

namespace Xv6

variable {n : Nat}

theorem wakeupRound_op (p q : Slot) (ch : Option Chan) (fs : List Frame) :
    (wakeupRound (some p) ch q fs).op = if p = q then .skip else .wakeup ch q := by
  unfold wakeupRound
  by_cases hq : p = q
  · simp [hq]
  · simp [hq]

theorem wakeupRound_frames (me : Option Slot) (q : Slot) (ch : Option Chan) (fs : List Frame) :
    (wakeupRound me ch q fs).frames = fs := by
  unfold wakeupRound
  split <;> rfl

/-- `q` sleeps in `wait`. -/
def SelfSleep (m : Mem) (q : Slot) : Prop :=
  (m.proc q).state = .sleeping ∧ (m.proc q).chan = some (.proc q)

/-- `z` is a child of `q` that can be reaped. -/
def ZombieChild (m : Mem) (q z : Slot) : Prop :=
  (m.proc z).parent = some q ∧ (m.proc z).state = .zombie

/-- What a frame of `p` that holds `wait_lock` has established. -/
def FrameOk (m : Mem) (p : Slot) : Frame → Prop
  | .wait _ _ (.scan i _) => ∀ z : Slot, z.val < i → ¬ ZombieChild m p z
  | .wait _ _ (.check _) => ∀ z, ¬ ZombieChild m p z
  | .sleep (.proc _) _ .acquire | .sleep (.proc _) _ .locked => ∀ z, ¬ ZombieChild m p z
  | .exit (.wakeParent _ ch j) =>
    ch = (m.proc p).parent ∧ ∀ q : Slot, ch = some q → q.val < j → ¬ SelfSleep m q
  | .exit (.lock _) | .exit (.zombie _) => ∀ q, (m.proc p).parent = some q → ¬ SelfSleep m q
  | _ => True

/-- Some `exit` is on its way to wake the first process. -/
def WakePending (s : State n) (q : Slot) : Prop :=
  ∃ d p st i j r, s.running d = .proc p ∧
    s.stack (.proc p) = .exit (.reparentWake st i j) :: r ∧ j ≤ q.val

/-- A sleeping parent has no `ZOMBIE` child, unless a wakeup is on its way. -/
structure NoLost (s : State n) : Prop where
  frame : ∀ p g, g ∈ s.stack (.proc p) → FrameOk s.mem p g
  waker : ∀ q z, SelfSleep s.mem q → ZombieChild s.mem q z →
    q = s.mem.initproc ∧ WakePending s q

/-! ## Who holds wait_lock -/

variable {p q z : Slot} {g : Frame}

/-- A process sleeps on a process only with `wait_lock`. -/
theorem sleep_lock {lk : Option Lock} {pc : SleepPc} (h : (Frame.sleep (.proc q) lk pc).onProc p) :
    lk = some .wait := by
  rcases h with ⟨-, h⟩ | ⟨h, -⟩ | ⟨-, a, h⟩
  · exact h
  · cases h
  · cases h

theorem FrameOk.of_not_held {m : Mem} (hwf : g.onProc p) (hw : .wait ∉ g.held (.proc p : Thread n)) :
    FrameOk m p g := by
  unfold FrameOk
  split
  · exact absurd (List.mem_singleton.mpr rfl) hw
  · exact absurd (List.mem_singleton.mpr rfl) hw
  · rename_i q lk
    simp [Frame.held, SleepPc.held, sleep_lock hwf] at hw
  · rename_i q lk
    simp [Frame.held, SleepPc.held, sleep_lock hwf] at hw
  · exact absurd (List.mem_singleton.mpr rfl) hw
  · exact absurd (List.mem_singleton.mpr rfl) hw
  · exact absurd List.mem_cons_self hw
  · trivial

section

variable {s : State n} {c : Fin n} {i : Input} {rest : List Frame} {e : Effect}
variable (hi : Inv s)
include hi

/-- A frame that holds `wait_lock` is innermost on a running thread. -/
theorem Inv.wait_holder (hg : g ∈ s.stack (.proc p)) (hw : .wait ∈ g.held (.proc p : Thread n)) :
    ∃ d r, s.running d = .proc p ∧ s.stack (.proc p) = g :: r ∧ s.lock .wait = some d := by
  cases hstk : s.stack (.proc p) with
  | nil => rw [hstk] at hg; cases hg
  | cons f r =>
    rw [hstk] at hg
    rcases List.mem_cons.mp hg with rfl | hr
    · by_cases hrun : ∃ d, s.running d = .proc p
      · obtain ⟨d, hd⟩ := hrun
        refine ⟨d, r, hd, rfl, (hi.lock .wait d).mpr ?_⟩
        rw [State.cur, hd, hstk]
        exact hw
      · -- a suspended process keeps no lock but its own
        have hsus := hi.suspended p fun d hd => hrun ⟨d, hd⟩
        rw [hstk] at hsus
        cases hsus with
        | unused _ hidle | used _ hidle =>
          rcases hidle with h | h | ⟨_, h⟩
          · cases h
          · cases h
            simp [Frame.held, Thread.ownLock] at hw
          · cases h
            simp [Frame.held, ExitPc.held, Thread.ownLock] at hw
        | sleeping _ _ | woken _ => simp [Frame.held, SleepPc.held, Thread.ownLock] at hw
        | yielded _ => simp [Frame.held, YieldPc.held, Thread.ownLock] at hw
        | new _ => simp [Frame.held, Thread.ownLock] at hw
        | zombie _ => simp [Frame.held, ExitPc.held, Thread.ownLock] at hw
    · have htail := hi.tail (.proc p) g (by rw [hstk]; exact hr)
      rw [htail] at hw
      cases hw

/-- The hart that executes a frame holding `wait_lock`. -/
theorem Inv.wait_lock_self {r : List Frame} (hr : s.running c = .proc p)
    (hstk : s.stack (.proc p) = g :: r) (hw : .wait ∈ g.held (.proc p : Thread n)) :
    s.lock .wait = some c := by
  rw [hi.lock, State.cur, hr, hstk]
  exact hw

/-! ## How sleepers and zombies come about -/

variable (hp : Planned s c i rest e)
include hp

/-- A process starts to sleep in `wait` while it holds `wait_lock`. -/
theorem Inv.selfSleep_step (hq : SelfSleep (e.op.apply s.mem) q) :
    SelfSleep s.mem q ∨
      (e.op = .sleep q (.proc q) ∧ s.running c = .proc q ∧
        s.stack (.proc q) = .sleep (.proc q) (some .wait) .locked :: rest) := by
  obtain ⟨hs', hch'⟩ := hq
  rcases hp.touch q with ⟨hs, hch⟩ | ⟨f, hc, he, ht⟩
  · exact .inl ⟨hs ▸ hs', hch ▸ hch'⟩
  · cases ht with
    | keep hs hch => exact .inl ⟨hs ▸ hs', hch ▸ hch'⟩
    | own hme hf hs =>
      have hspec := effect_opSpec he
      rcases hs with hpk | hop
      · cases hop : e.op with
        | yield p | zombie p st =>
          rw [hop] at hspec hs'
          obtain rfl : q = p := Option.some.inj (hme.symm.trans hspec.1)
          rw [Op.apply_proc_target _ _ rfl] at hs'
          cases hs'
        | sleep p ch =>
          rw [hop] at hspec hch'
          obtain ⟨hme', lk, hfr, -⟩ := hspec
          obtain rfl : q = p := Option.some.inj (hme.symm.trans hme')
          rw [Op.apply_proc_target _ _ rfl] at hch'
          obtain rfl : ch = .proc q := Option.some.inj hch'
          rw [hfr] at hc
          obtain ⟨hr, hstk⟩ := hi.running_of_proc hc (by simp [Frame.onSched]) hme
          have hwf : (Frame.sleep (.proc q) lk .locked).onProc q :=
            hi.wf (.proc q) (.sleep (.proc q) lk .locked) (mem_of_eq_cons hstk)
          obtain rfl : lk = some .wait := sleep_lock hwf
          exact .inr ⟨rfl, hr, hstk⟩
        | _ => rw [hop] at hpk; cases hpk
      · rw [hop, Op.apply_proc_target _ _ rfl] at hch'
        cases hch'
    | fork pc hf hpc hs =>
      rcases hs with ⟨hs, -⟩ | hs | ⟨hs, -⟩ <;> exact nomatch hs.symm.trans hs'
    | dispatch hop hs hacq =>
      rw [hop, Op.apply_proc_target _ _ rfl] at hs'
      cases hs'
    | wake hv hs hs₁ | reap hv hs hs₁ => exact nomatch hs₁.symm.trans hs'

/-- A slot becomes `ZOMBIE` in the critical section of `exit`. -/
theorem Inv.zombie_step (hz : ((e.op.apply s.mem).proc z).state = .zombie) :
    (s.mem.proc z).state = .zombie ∨
      ∃ st, e.op = .zombie z st ∧ s.running c = .proc z ∧
        s.stack (.proc z) = .exit (.zombie st) :: rest := by
  by_cases hst : (s.mem.proc z).state = .zombie
  · exact .inl hst
  have hstart : ((e.op.apply s.mem).proc z).state.started = true := by rw [hz]; rfl
  rcases hi.started_step hp hstart with hs | ⟨parent, hop⟩
  · -- a started process that is not yet a zombie is alive
    have hlive : (s.mem.proc z).state.live = true := by
      cases h : (s.mem.proc z).state <;> simp_all [ProcState.started, ProcState.live]
    rcases hi.live_step hp hlive with hl | hr
    · rw [hz] at hl
      cases hl
    · exact .inr hr
  · rw [hop, Op.apply_proc_target _ _ rfl] at hz
    cases hz

/-- A parent gets a `ZOMBIE` child when the child exits or when `reparent` hands it over. -/
theorem Inv.zombieChild_step (hz : ZombieChild (e.op.apply s.mem) q z) :
    ZombieChild s.mem q z ∨
      (∃ st, e.op = .zombie z st ∧ s.running c = .proc z ∧
        s.stack (.proc z) = .exit (.zombie st) :: rest ∧ (s.mem.proc z).parent = some q) ∨
      (∃ p st, e.op = .reparent p z ∧ q = s.mem.initproc ∧ s.running c = .proc p ∧
        s.stack (.proc p) = .exit (.reparent st z) :: rest ∧
        (s.mem.proc z).parent = some p) := by
  obtain ⟨hpar, hst⟩ := hz
  rcases hp.parent_cases hpar with hop | ⟨p, hop, hq⟩ | ⟨hold, -, -⟩
  · -- the child of an unfinished `fork` is not a zombie
    obtain ⟨f, hc, he, hspec⟩ := hp.opSpec hop (by simp)
    obtain ⟨hme, -, pid, rfl⟩ := hspec
    obtain ⟨-, hstk⟩ := hi.running_of_proc hc (by simp [Frame.onSched]) hme
    have hok := hi.fork q (.setParent z pid) (mem_of_eq_cons hstk)
    rw [hop, Op.apply_proc_target _ _ rfl] at hst
    exact nomatch hok.1.symm.trans hst
  · obtain ⟨f, hc, -, hspec⟩ := hp.opSpec hop (by simp)
    obtain ⟨hme, hold, st, rfl⟩ := hspec
    obtain ⟨hr, hstk⟩ := hi.running_of_proc hc (by simp [Frame.onSched]) hme
    exact .inr (.inr ⟨p, st, hop, hq, hr, hstk, hold⟩)
  · rcases hi.zombie_step hp hst with hs | ⟨st, hop, hr, hstk⟩
    · exact .inl ⟨hold, hs⟩
    · exact .inr (.inl ⟨st, hop, hr, hstk, hold⟩)

end

/-! ## Preservation -/

/-- A round of `wakeup` puts nobody to sleep, and leaves nobody asleep on its channel. -/
theorem SelfSleep.of_wakeup {m : Mem} {ch : Option Chan} {r : Slot}
    (hq : SelfSleep ((Op.wakeup ch r).apply m) q) :
    SelfSleep m q ∧ ¬ (q = r ∧ ch = some (.proc q)) := by
  obtain ⟨hs, hch⟩ := hq
  by_cases hqr : q = r
  · subst hqr
    rw [Op.apply_proc_target _ _ rfl] at hs hch
    simp only [Op.write] at hs hch
    split at hs
    · cases hs
    · rename_i hne
      exact ⟨⟨hs, hch⟩, fun h => hne ⟨hs, h.2 ▸ hch⟩⟩
  · rw [Op.apply_proc_other _ _ rfl hqr] at hs hch
    exact ⟨⟨hs, hch⟩, fun h => hqr h.1⟩

section

variable {s : State n} {c : Fin n} {i : Input} {rest : List Frame} {e : Effect}
variable (hi : Inv s) (hp : Planned s c i rest e)
include hi hp

section

variable {d : Fin n} (hl : s.lock .wait = some d) (hd : d ≠ c)
include hl hd

/-! While one hart holds `wait_lock`, the steps of the others make no sleeper and no zombie. -/

theorem Inv.selfSleep_other (hq : SelfSleep (e.op.apply s.mem) q) :
    SelfSleep s.mem q := by
  rcases hi.selfSleep_step hp hq with h | ⟨-, hr, hstk⟩
  · exact h
  · have := hi.wait_lock_self hr hstk (by simp [Frame.held, SleepPc.held])
    exact absurd (Option.some.inj (hl.symm.trans this)) hd

theorem Inv.zombieChild_other (hz : ZombieChild (e.op.apply s.mem) q z) :
    ZombieChild s.mem q z := by
  rcases hi.zombieChild_step hp hz with h | ⟨st, -, hr, hstk, -⟩ | ⟨p, st, -, -, hr, hstk, -⟩
  · exact h
  · have := hi.wait_lock_self hr hstk (by simp [Frame.held, ExitPc.held])
    exact absurd (Option.some.inj (hl.symm.trans this)) hd
  · have := hi.wait_lock_self hr hstk (by simp [Frame.held, ExitPc.held])
    exact absurd (Option.some.inj (hl.symm.trans this)) hd

theorem Inv.parent_other (hb : s.blocked e = false) (hrun : (s.mem.proc p).state = .running) :
    ((e.op.apply s.mem).proc p).parent = (s.mem.proc p).parent := by
  rcases hp.parentTouch p with hk | ⟨f, hc, he, ht⟩
  · exact hk
  · cases ht with
    | keep hk => exact hk
    | setParent q pid hme hop hf hv hpar =>
      exact nomatch (State.lock_of_visit hb hv).symm.trans hl
    | free pc hf hpc hop hpar =>
      rw [hf] at hc
      obtain ⟨q, -, -, hstk⟩ := hi.exec_fork hc
      have hok := hi.fork q pc (mem_of_eq_cons hstk)
      rcases hok.state hpc with hs | hs <;> exact nomatch hs.symm.trans hrun
    | reparent q st hme hold hf hop hpar =>
      rw [hf] at hc
      obtain ⟨hr, hstk⟩ := hi.running_of_proc hc (by simp [Frame.onSched]) hme
      have := hi.wait_lock_self hr hstk (by simp [Frame.held, ExitPc.held])
      exact absurd (Option.some.inj (hl.symm.trans this)) hd
    | reap q hme hold hs hs' hpar => exact nomatch hs.symm.trans hrun

end

variable (hn : NoLost s)
include hn

/-- A frame that does not execute keeps what it has established. -/
theorem NoLost.frame_old (hb : s.blocked e = false) (hg : g ∈ s.stack (.proc p))
    (hrest : s.running c = .proc p → g ∈ rest) : FrameOk (e.op.apply s.mem) p g := by
  have hok := hn.frame p g hg
  by_cases hw : Lock.wait ∈ g.held (.proc p : Thread n)
  case neg => exact .of_not_held (hi.wf (.proc p) g hg) hw
  obtain ⟨d, r, hr, hstk, hl⟩ := hi.wait_holder hg hw
  have hd : d ≠ c := by
    rintro rfl
    have hheld := hi.below_held hp g (hrest hr)
    rw [hr] at hheld
    rw [hheld] at hw
    cases hw
  have hzc : ∀ z, ZombieChild (e.op.apply s.mem) p z → ZombieChild s.mem p z :=
    fun z => hi.zombieChild_other hp hl hd
  have hss : ∀ q, SelfSleep (e.op.apply s.mem) q → SelfSleep s.mem q :=
    fun q => hi.selfSleep_other hp hl hd
  have hpar : g.plain = true →
      ((e.op.apply s.mem).proc p).parent = (s.mem.proc p).parent := by
    intro hplain
    have ha := hi.active d p hr
    rw [hstk, Active.of_plain hplain] at ha
    exact hi.parent_other hp hl hd hb ha
  unfold FrameOk at hok ⊢
  split at hok
  · exact fun z hz h => hok z hz (hzc z h)
  · exact fun z h => hok z (hzc z h)
  · exact fun z h => hok z (hzc z h)
  · exact fun z h => hok z (hzc z h)
  · rw [hpar rfl]
    exact ⟨hok.1, fun q hq hj h => hok.2 q hq hj (hss q h)⟩
  · rw [hpar rfl]
    exact fun q hq h => hok q hq (hss q h)
  · rw [hpar rfl]
    exact fun q hq h => hok q hq (hss q h)
  · trivial

/-- The frames of `wait` after a step inside it. -/
theorem NoLost.wait_new {a a2 : Nat} {pc : WaitPc} (hr : s.running c = .proc p)
    (hg : .wait a a2 pc ∈ e.frames) : FrameOk (e.op.apply s.mem) p (.wait a a2 pc) := by
  rcases hi.wait_new hp hr hg with rfl | ⟨pc', hstk, hnext⟩
  · trivial
  · have hok := hn.frame p (.wait a a2 pc') (mem_of_eq_cons hstk)
    generalize e.op = op at hnext ⊢
    cases hnext with
    | start => exact fun z hz => absurd hz (Nat.not_lt_zero _)
    | other pp b hpar =>
      intro z hz hzc
      rcases Nat.lt_or_eq_of_le (Nat.le_of_lt_succ hz) with hlt | heq
      · exact hok z hlt hzc
      · obtain rfl : z = pp := Fin.ext heq
        exact hpar hzc.1
    | child pp b addr2 hpar hs =>
      intro z hz hzc
      rcases Nat.lt_or_eq_of_le (Nat.le_of_lt_succ hz) with hlt | heq
      · exact hok z hlt hzc
      · obtain rfl : z = pp := Fin.ext heq
        exact hs hzc.2
    | check j b hj =>
      intro z hzc
      have := z.isLt
      exact hok z (by omega) hzc

/-- The frames of `exit` after a step inside it. -/
theorem NoLost.exit_new {pc : ExitPc} (hr : s.running c = .proc p) (hg : .exit pc ∈ e.frames) :
    FrameOk (e.op.apply s.mem) p (.exit pc) := by
  rcases hi.exit_new hp hr hg with ⟨st, msg, rfl⟩ | ⟨pc', hstk, hnext⟩
  · trivial
  · have hok := hn.frame p (.exit pc') (mem_of_eq_cons hstk)
    have ha := hi.active c p hr
    rw [hstk] at ha
    generalize e.op = op at hnext ⊢
    cases hnext with
    | wakeParent st k hk => exact ⟨rfl, fun q _ hq => absurd hq (Nat.not_lt_zero _)⟩
    | wake st ch r =>
      obtain ⟨hch, hwoken⟩ := hok
      by_cases hpr : p = r
      · -- `wakeup` skips the own process, which is running
        rw [if_pos hpr]
        refine ⟨hch, fun q hq hj hss => ?_⟩
        rcases Nat.lt_or_eq_of_le (Nat.le_of_lt_succ hj) with hlt | heq
        · exact hwoken q hq hlt hss
        · obtain rfl : q = p := (Fin.ext heq).trans hpr.symm
          rw [Active.of_plain rfl] at ha
          exact nomatch ha.symm.trans hss.1
      · rw [if_neg hpr]
        refine ⟨by rw [Op.apply_proc_other _ _ rfl hpr]; exact hch, fun q hq hj hss => ?_⟩
        obtain ⟨hss, hnot⟩ := hss.of_wakeup
        rcases Nat.lt_or_eq_of_le (Nat.le_of_lt_succ hj) with hlt | heq
        · exact hwoken q hq hlt hss
        · exact hnot ⟨Fin.ext heq, by rw [hq]; rfl⟩
    | lock st ch j hj =>
      intro q hq hss
      have := q.isLt
      exact hok.2 q (hok.1.trans hq) (by omega) hss
    | zombie st => exact hok
    | entry | close | next | iput | closed | cwd | reparent | child | other | wakeInit | resume
    | swtch | dead => trivial

/-- The frames of `sleep` that `wait` calls. -/
theorem NoLost.sleep_new {lk : Option Lock} {pc : SleepPc} (hr : s.running c = .proc p)
    (hg : .sleep (.proc q) lk pc ∈ e.frames) :
    FrameOk (e.op.apply s.mem) p (.sleep (.proc q) lk pc) := by
  cases hp with
  | user r fs hr' hc hfs =>
    have := (userEntry_spec r hfs).1 _ hg
    cases this
  | kernel fs hne hlock hfs =>
    have := (kernelEntry_spec (s.running c) hfs).1 _ hg
    cases this
  | exec f rest e hc he =>
    have hstk : s.stack (.proc p) = f :: rest := by rw [← hr]; exact hc
    have hok := hn.frame p f (mem_of_eq_cons hstk)
    rcases (effect_frameSpec (hi.ready hc) he).sleep q lk pc hg with hfn | ⟨a, a2, rfl, hop⟩
    · -- a step inside `sleep`; only the first leaves `wait_lock` held
      cases f with
      | sleep ch lk' pc' =>
        cases hfn
        obtain ⟨r, hme, he⟩ := Option.bind_eq_some_iff.mp he
        cases he
        cases pc' with
        | acquire =>
          obtain rfl : pc = .locked := by simpa [sleepStep] using hg
          exact hok
        | locked =>
          obtain rfl : pc = .swtch := by simpa [sleepStep] using hg
          trivial
        | swtch =>
          simp only [sleepStep, sched] at hg
          split at hg
          · simp at hg
          · obtain rfl : pc = .wake := by simpa using hg
            trivial
        | wake => simp [sleepStep] at hg
      | _ => cases hfn
    · rw [hop]
      cases pc with
      | acquire => exact hok
      | locked => exact hok
      | _ => trivial

theorem NoLost.frame_next (hb : s.blocked e = false) (p : Slot) (g : Frame)
    (hg : g ∈ (s.commit c rest e).stack (.proc p)) : FrameOk (e.op.apply s.mem) p g := by
  by_cases hfr : g = .forkret
  · rw [hfr]
    trivial
  rcases hp.mem_stack hfr hg with ⟨hold, hrest⟩ | ⟨hr, hnew⟩
  · exact hn.frame_old hi hp hb hold hrest
  · cases g with
    | wait a a2 pc => exact hn.wait_new hi hp hr hnew
    | exit pc => exact hn.exit_new hi hp hr hnew
    | sleep ch lk pc =>
      cases ch with
      | proc q => exact hn.sleep_new hi hp hr hnew
      | ticks => trivial
      | other a => trivial
    | _ => trivial

end

/-! ## The pending wakeup -/

section

variable {s : State n} {h : Lineage} {c : Fin n} {i : Input} {rest : List Frame} {e : Effect}
variable (hi : Inv s) (hp : Planned s c i rest e)
include hi hp

/-- A frame that holds a lock is not interrupted: the next step of its hart is its own. -/
theorem Inv.exec_of_held {f : Frame} {r : List Frame} (hr : s.running c = .proc p)
    (hstk : s.stack (.proc p) = f :: r) (hheld : f.held (.proc p : Thread n) ≠ []) :
    r = rest ∧ f.effect s.mem (some p) i = some e := by
  have hcur : s.cur c = f :: r := by rw [State.cur, hr, hstk]
  cases hp with
  | user q fs hr' hc hfs => cases hc.symm.trans hcur
  | kernel fs hne hlock hfs =>
    rw [hcur, hr] at hlock
    exact absurd hlock hheld
  | exec f' rest e hc he =>
    obtain ⟨rfl, rfl⟩ := List.cons.inj (hc.symm.trans hcur)
    rw [hi.thread c p hr] at he
    exact ⟨rfl, he⟩

/-- Where the hart stands after a step without a switch. -/
theorem Inv.stack_of_stay (hr : s.running c = .proc p) (hsw : e.switch = .stay) :
    (s.commit c rest e).running c = .proc p ∧
      (s.commit c rest e).stack (.proc p) = e.frames ++ rest := by
  constructor
  · rw [State.commit_running_self, hsw]
    exact hr
  · rw [← hr, hi.commit_stack_running hp c, if_pos rfl]

/-- The wakeup of the first process either is still to come or has woken it. -/
theorem WakePending.step (hf : Family s h) (hw : WakePending s q) (hq : q = s.mem.initproc)
    (hnew : SelfSleep (e.op.apply s.mem) q) : WakePending (s.commit c rest e) q := by
  obtain ⟨d, p, st, k, j, r, hr, hstk, hj⟩ := hw
  by_cases hd : d = c
  case neg =>
    refine ⟨d, p, st, k, j, r, ?_, ?_, hj⟩
    · rw [State.commit_running_of_ne hd]
      exact hr
    · rw [← hr, hi.commit_stack_running hp d, if_neg hd, hr, hstk]
  subst hd
  obtain ⟨rfl, he⟩ := hi.exec_of_held hp hr hstk (by simp [Frame.held, ExitPc.held])
  have hlt : j < NPROC := Nat.lt_of_le_of_lt hj q.isLt
  obtain rfl : e = wakeupRound (some p) (some (.proc s.mem.initproc)) ⟨j, hlt⟩
      [.exit (.reparentWake st k (j + 1))] := by
    have he : some (exitStep s.mem p (.reparentWake st k j)) = some e := he
    simp only [exitStep, forSlot, dif_pos hlt] at he
    exact (Option.some.inj he).symm
  have hmem : Frame.exit (.reparentWake st k j) ∈ s.stack (.proc p) := mem_of_eq_cons hstk
  have hne : p ≠ s.mem.initproc := hf.ne_init hmem (by simp)
  obtain ⟨hr', hstk'⟩ := hi.stack_of_stay hp hr (by unfold wakeupRound; split <;> rfl)
  rw [wakeupRound_frames] at hstk'
  refine ⟨d, p, st, k, j + 1, r, hr', hstk', ?_⟩
  rcases Nat.lt_or_eq_of_le hj with hlt' | heq
  · exact hlt'
  · -- this round wakes `q`
    have hqj : q = ⟨j, hlt⟩ := Fin.ext heq.symm
    rw [wakeupRound_op, if_neg (fun h => hne (h.trans (hqj.symm.trans hq)))] at hnew
    exact absurd ⟨hqj, by rw [hq]⟩ hnew.of_wakeup.2

theorem NoLost.waker_next (hn : NoLost s) (hf : Family s h) (q z : Slot)
    (hq : SelfSleep (e.op.apply s.mem) q) (hz : ZombieChild (e.op.apply s.mem) q z) :
    q = s.mem.initproc ∧ WakePending (s.commit c rest e) q := by
  rcases hi.selfSleep_step hp hq with hsleep | ⟨hop, hr, hstk⟩
  · rcases hi.zombieChild_step hp hz with hzc | ⟨st, -, -, hstk, hpar⟩ |
      ⟨p, st, hop, hinit, hr, hstk, hold⟩
    · obtain ⟨hinit, hw⟩ := hn.waker q z hsleep hzc
      exact ⟨hinit, hw.step hi hp hf hinit hq⟩
    · -- `exit` has woken the parent before it stores `ZOMBIE`
      have hok := hn.frame z (.exit (.zombie st)) (mem_of_eq_cons hstk)
      exact absurd hsleep (hok q hpar)
    · -- `reparent` hands `z` over and starts to wake the first process
      obtain ⟨-, he⟩ := hi.exec_of_held hp hr hstk (by simp [Frame.held, ExitPc.held])
      obtain rfl : e = { op := .reparent p z, frames := [.exit (.reparentWake st z 0)] } := by
        have he : some (exitStep s.mem p (.reparent st z)) = some e := he
        simp only [exitStep, forSlot, dif_pos z.isLt, if_pos hold] at he
        exact (Option.some.inj he).symm
      obtain ⟨hr', hstk'⟩ := hi.stack_of_stay hp hr rfl
      exact ⟨hinit, c, p, st, z, 0, rest, hr', hstk', Nat.zero_le _⟩
  · -- `wait` goes to sleep only after it has seen that no child is `ZOMBIE`
    have hok := hn.frame q (.sleep (.proc q) (some .wait) .locked)
      (mem_of_eq_cons hstk)
    rw [hop] at hz
    by_cases hzq : z = q
    · rw [hzq, ZombieChild, Op.apply_proc_target _ _ rfl] at hz
      cases hz.2
    · rw [ZombieChild, Op.apply_proc_other _ _ rfl hzq] at hz
      exact absurd hz (hok z)

end

theorem noLost_boot (b : Boot) : NoLost (State.boot n b) := by
  constructor
  · intro p g hg
    by_cases hp : p = 0 <;> simp_all [State.boot, FrameOk]
  · intro q z hq hz
    exact absurd hz.1 (by rw [boot_parent]; simp)

theorem NoLost.step {s s' : State n} {h : Lineage} {x : Fin n × Input} (hi : Inv s)
    (hf : Family s h) (hn : NoLost s) (hs : s.step x = some s') : NoLost s' := by
  obtain ⟨rest, e, hp, hb, -, rfl⟩ := hi.step_commit hs
  exact { frame := hn.frame_next hi hp hb, waker := hn.waker_next hi hp hf }

theorem noLost_reachable {x : State n × Lineage} (hr : (lineage n).Reachable x) :
    NoLost x.1 := by
  refine TransitionSystem.ReachableBy.induct (P := fun x => NoLost x.1) ?_ ?_ hr
  · rintro ⟨s, h⟩ ⟨⟨b, rfl⟩, -⟩
    exact noLost_boot b
  · intro x i y hx hn _ hs
    obtain ⟨hs, -⟩ := TransitionSystem.observe_step.mp hs
    exact hn.step (inv_reachable (TransitionSystem.reachable_of_observe hx))
      (family_reachable hx) hs

/-- While `wait_lock` is free, no process sleeps in `wait` with a `ZOMBIE` child. -/
theorem NoLost.no_sleeper {s : State n} (hi : Inv s) (hn : NoLost s) (hl : s.lock .wait = none)
    (hq : SelfSleep s.mem q) : ¬ ZombieChild s.mem q z := by
  intro hz
  obtain ⟨-, d, p, st, k, j, r, hr, hstk, -⟩ := hn.waker q z hq hz
  have := hi.wait_lock_self hr hstk (by simp [Frame.held, ExitPc.held])
  exact nomatch hl.symm.trans this

end Xv6
