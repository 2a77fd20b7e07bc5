import Xv6.Kernel.Step

/-!
# What a step can do

Inversion of `State.step`, and the steps of a frame branch by branch of the source. Every
invariant of the following files is derived from these lemmas; none of them unfolds a step
function again.

* `planned_of_plan`, `step_cases`: a step is either a trap entry or the effect of the
  innermost frame, and it commits unless a lock operation panics.
* `effect_acts`: the effect of a frame is one of `Acts`.
* `effect_lockSpec`: the frame after a step holds exactly the locks the step leaves it.
-/

namespace Xv6

variable {n : Nat}

/-! ## Frames and threads -/

/-- Frames that occur on the boot stack of a hart. -/
def Frame.onSched : Frame → Prop
  | main | scheduler _ _ | kerneltrap _ | clockintr _ | updateTicks _ _ | wakeup _ _ | panic => True
  | usertrap _ | yield _ | sleep _ _ _ | fork _ | exit _ | wait _ _ _ | kill _ _ | sysSleep _ _
  | setPsPriority _ | setCfsPriority _ | setPolicy _ | forkret | fs | other => False

/-- Frames that occur on the kernel stack of process `p`; a call of `sleep` pairs its channel
    with the lock that protects it. -/
def Frame.onProc (p : Slot) : Frame → Prop
  | main | scheduler _ _ => False
  | sleep ch lk _ =>
    (ch = .proc p ∧ lk = some .wait) ∨ (ch = .ticks ∧ lk = some .ticks) ∨
      (lk = none ∧ ∃ a, ch = .other a)
  | kerneltrap _ | usertrap _ | clockintr _ | updateTicks _ _ | wakeup _ _ | yield _ | fork _
  | exit _ | wait _ _ _ | kill _ _ | sysSleep _ _ | setPsPriority _ | setCfsPriority _
  | setPolicy _ | forkret | fs | other | panic => True

/-- A frame belongs on the stack of thread `t`. -/
def Frame.wf : Thread n → Frame → Prop
  | .sched _, f => f.onSched
  | .proc p, f => f.onProc p

/-- Frame `f` is innermost on thread `t` and `myproc()` returns `me`. -/
def Runs (t : Thread n) (me : Option Slot) (f : Frame) : Prop :=
  f.wf t ∧
    match t with
    | .proc p => me = some p
    | .sched _ => me = none ∨ ∃ l pc, f = .scheduler l pc

/-- The frame at which `sched` has stopped, with `p->lock` held. -/
def Frame.atSwtch : Frame → Bool
  | .yield .swtch | .sleep _ _ .swtch | .exit .swtch => true
  | _ => false

/-! ## Inversion of a step -/

/-- What hart `c` may do next: push the frames of a trap handler, or let its innermost frame
    act. -/
inductive Planned (s : State n) (c : Fin n) (i : Input) : List Frame → Effect → Prop
  | user (p : Slot) (fs : List Frame) (hr : s.running c = .proc p) (hc : s.cur c = [])
      (hfs : State.userEntry c i = some fs) : Planned s c i (s.cur c) { frames := fs }
  | kernel (fs : List Frame) (hne : s.cur c ≠ [])
      (hlock : topHeld (s.running c) (s.cur c) = [])
      (hfs : State.kernelEntry c i = some fs) (hoff : ∀ g ∈ s.cur c, g.intrOff = false) :
      Planned s c i (s.cur c) { frames := fs }
  | exec (f : Frame) (rest : List Frame) (e : Effect) (hc : s.cur c = f :: rest)
      (he : f.effect s.mem (s.proc c) i = some e) (hk : State.kernelEntry c i = none) :
      Planned s c i rest e

theorem planned_of_plan {s : State n} {c : Fin n} {i : Input} {rest : List Frame} {e : Effect}
    (h : s.plan c i = some (rest, e)) : Planned s c i rest e := by
  unfold State.plan at h
  split at h
  · rename_i p hr hc
    simp only [Option.map_eq_some_iff, Prod.mk.injEq] at h
    obtain ⟨fs, hfs, hrest, he⟩ := h
    subst hrest he
    have := Planned.user p fs hr hc hfs
    rwa [hc] at this
  · cases h
  · rename_i f rest' hc
    split at h
    · rename_i fs hfs
      split at h
      · rename_i hon
        simp only [Option.some.injEq, Prod.mk.injEq] at h
        obtain ⟨hrest, he⟩ := h
        subst hrest he
        simp only [State.intrOn, Bool.and_eq_true, List.isEmpty_iff, List.all_eq_true,
          Bool.not_eq_true'] at hon
        have := Planned.kernel fs (by rw [hc]; simp) hon.1 hfs hon.2
        rwa [hc] at this
      · cases h
    · rename_i hk
      simp only [Option.map_eq_some_iff, Prod.mk.injEq] at h
      obtain ⟨e', he', hrest, heq⟩ := h
      subst hrest heq
      exact .exec f rest' e' hc he' hk

/-- A step commits its effect, unless a lock operation panics. -/
theorem step_cases {s s' : State n} {x : Fin n × Input} (h : s.step x = some s') :
    ∃ rest e, Planned s x.1 x.2 rest e ∧
      ((s.panics x.1 e = true ∧ s.op x = .skip ∧
          s' = { s with stack := s.setCur x.1 (.panic :: rest) }) ∨
        (s.panics x.1 e = false ∧ s.blocked e = false ∧ s.op x = e.op ∧
          s' = s.commit x.1 rest e)) := by
  unfold State.step at h
  split at h
  · cases h
  · rename_i rest e hp
    refine ⟨rest, e, planned_of_plan hp, ?_⟩
    split at h
    · rename_i hpan
      left
      refine ⟨hpan, ?_, (Option.some.inj h).symm⟩
      simp [State.op, hp, hpan]
    · rename_i hpan
      split at h
      · cases h
      · rename_i hbl
        right
        simp only [Bool.not_eq_true] at hpan hbl
        refine ⟨hpan, hbl, ?_, (Option.some.inj h).symm⟩
        simp [State.op, hp, hpan]

/-- A step changes the shared memory by its operation. -/
theorem State.step_mem {s s' : State n} {x : Fin n × Input} (h : s.step x = some s') :
    s'.mem = (s.op x).apply s.mem := by
  obtain ⟨rest, e, -, ⟨-, hop, rfl⟩ | ⟨-, -, hop, rfl⟩⟩ := step_cases h
  · rw [hop]
    rfl
  · rw [hop]
    rfl

theorem forSlot_ind {α : Type} {P : α → Prop} {i : Nat} {body : Slot → α} {done : α}
    (hb : ∀ q : Slot, q.val = i → P (body q)) (hd : NPROC ≤ i → P done) :
    P (forSlot i body done) := by
  unfold forSlot
  split
  · exact hb _ rfl
  · exact hd (by omega)

/-! ## What the innermost frame does -/

/-- The frame that `swtch` returns to when the process is dispatched again. -/
inductive Resumes : Frame → Frame → Prop
  | yield : Resumes (.yield .swtch) (.yield .release)
  | sleep (ch : Chan) (lk : Option Lock) : Resumes (.sleep ch lk .swtch) (.sleep ch lk .wake)
  | exit : Resumes (.exit .swtch) (.exit .dead)

/-- The loops that wake the sleepers on `ch`, at slot `q`. -/
inductive WakeLoop (m : Mem) (me : Option Slot) : Option Chan → Slot → Frame → Frame → Prop
  | wakeup (ch q) : WakeLoop m me ch q (.wakeup ch q) (.wakeup ch (q + 1))
  | clock (q) : WakeLoop m me (some .ticks) q (.clockintr (.wakeup q)) (.clockintr (.wakeup (q + 1)))
  | init (p st i q) (hme : me = some p) :
      WakeLoop m me (some (.proc m.initproc)) q (.exit (.reparentWake st i q))
        (.exit (.reparentWake st i (q + 1)))
  | parent (p st ch q) (hme : me = some p) :
      WakeLoop m me (ch.map .proc) q (.exit (.wakeParent st ch q)) (.exit (.wakeParent st ch (q + 1)))

/-- The steps of a frame of process `p`, branch by branch of the source, with the tests that lead there. -/
inductive ProcActs (m : Mem) (p : Slot) : Frame → Effect → Prop
  | sched {f g : Frame} (hr : Resumes f g) (hs : (m.proc p).state ≠ .running) :
      ProcActs m p f { holding := some (.proc p), frames := [g], switch := .sched }
  | schedRunning {f g : Frame} (hr : Resumes f g) (hs : (m.proc p).state = .running) :
      ProcActs m p f { frames := [.panic] }
  | yield : ProcActs m p (.yield .acquire)
        { acquire := some (.proc p), op := .yield p, frames := [.yield .swtch] }
  | yielded : ProcActs m p (.yield .release) { release := some (.proc p), frames := [] }
  | sleepLock (ch lk) : ProcActs m p (.sleep ch lk .acquire)
        { acquire := some (.proc p), frames := [.sleep ch lk .locked] }
  | sleep (ch lk) : ProcActs m p (.sleep ch lk .locked)
        { release := lk, op := .sleep p ch, frames := [.sleep ch lk .swtch] }
  | awake (ch lk) : ProcActs m p (.sleep ch lk .wake)
        { release := some (.proc p), op := .awake p, frames := [] }
  | forkFound (q) (hq : (m.proc q).state = .unused) :
      ProcActs m p (.fork (.alloc q)) { acquire := some (.proc q), frames := [.fork (.found q)] }
  | forkUsed (q) (hq : (m.proc q).state ≠ .unused) : ProcActs m p (.fork (.alloc q))
        { visit := some (.proc q), frames := [.fork (.alloc (q + 1))] }
  | forkNone (i) (hi : NPROC ≤ i) : ProcActs m p (.fork (.alloc i)) { frames := [] }
  | forkAlloc (np) :
      ProcActs m p (.fork (.found np)) { op := .alloc np, frames := [.fork (.trapframe np)] }
  | forkFree (np) {pc : ForkPc} (hpc : pc = .trapframe np ∨ pc = .pagetable np ∨ pc = .copy np) :
      ProcActs m p (.fork pc) { release := some (.proc np), op := .free np, frames := [] }
  | forkTrapframe (np a) (ha : a ≠ 0) : ProcActs m p (.fork (.trapframe np))
        { op := .setTrapframe np a, frames := [.fork (.pagetable np)] }
  | forkPagetable (np a) (ha : a ≠ 0) : ProcActs m p (.fork (.pagetable np))
        { op := .setPagetable np a, frames := [.fork (.copy np)] }
  | forkCopy (np) : ProcActs m p (.fork (.copy np))
        { release := some (.proc np)
          op := .copy p np
          frames := [.fork (.setParent np (m.proc np).pid)] }
  | forkParent (np pid) : ProcActs m p (.fork (.setParent np pid))
        { visit := some .wait, op := .setParent p np, frames := [.fork (.relock np pid)] }
  | forkRelock (np pid) : ProcActs m p (.fork (.relock np pid))
        { acquire := some (.proc np), frames := [.fork (.runnable np pid)] }
  | forkRunnable (np parent pid) (hpar : (m.proc np).parent = some parent) :
      ProcActs m p (.fork (.runnable np pid))
        { visit := some (.proc parent)
          release := some (.proc np)
          op := .setRunnable parent np
          frames := [] }
  | exitInit (st msg) (hp : p = m.initproc) :
      ProcActs m p (.exit (.entry st msg)) { op := .exitMsg p st msg, frames := [.panic] }
  | exitEntry (st msg) (hp : p ≠ m.initproc) : ProcActs m p (.exit (.entry st msg))
        { op := .exitMsg p st msg, frames := [.exit (.close st 0)] }
  | exitClose (st fd) (hfd : (m.proc p).ofile fd ≠ 0) :
      ProcActs m p (.exit (.close st fd)) { frames := [.fs, .exit (.closed st fd)] }
  | exitNext (st fd) (hfd : (m.proc p).ofile fd = 0) :
      ProcActs m p (.exit (.close st fd)) { frames := [.exit (.close st (fd + 1))] }
  | exitFiles (st fd) (hfd : NOFILE ≤ fd) :
      ProcActs m p (.exit (.close st fd)) { frames := [.fs, .exit (.iput st)] }
  | exitClosed (st fd) : ProcActs m p (.exit (.closed st fd))
        { op := .closeFd p fd, frames := [.exit (.close st (fd + 1))] }
  | exitCwd (st) :
      ProcActs m p (.exit (.iput st)) { op := .clearCwd p, frames := [.exit (.acquire st)] }
  | exitAcquire (st) : ProcActs m p (.exit (.acquire st))
        { acquire := some .wait, frames := [.exit (.reparent st 0)] }
  | exitChild (st pp) (hpar : (m.proc pp).parent = some p) : ProcActs m p (.exit (.reparent st pp))
        { op := .reparent p pp, frames := [.exit (.reparentWake st pp 0)] }
  | exitOther (st pp) (hpar : (m.proc pp).parent ≠ some p) :
      ProcActs m p (.exit (.reparent st pp)) { frames := [.exit (.reparent st (pp + 1))] }
  | exitReparented (st i) (hi : NPROC ≤ i) : ProcActs m p (.exit (.reparent st i))
        { frames := [.exit (.wakeParent st (m.proc p).parent 0)] }
  | exitWoken (st i j) (hj : NPROC ≤ j) :
      ProcActs m p (.exit (.reparentWake st i j)) { frames := [.exit (.reparent st (i + 1))] }
  | exitParent (st ch j) (hj : NPROC ≤ j) :
      ProcActs m p (.exit (.wakeParent st ch j)) { frames := [.exit (.lock st)] }
  | exitLock (st) : ProcActs m p (.exit (.lock st))
        { acquire := some (.proc p), frames := [.exit (.zombie st)] }
  | exitZombie (st) : ProcActs m p (.exit (.zombie st))
        { release := some .wait, op := .zombie p st, frames := [.exit .swtch] }
  | exitDead : ProcActs m p (.exit .dead) { frames := [.panic] }
  | waitAcquire (a a2) : ProcActs m p (.wait a a2 .acquire)
        { acquire := some .wait, frames := [.wait a a2 (.scan 0 false)] }
  | waitFail (pp a a2 b) (hpar : (m.proc pp).parent = some p) (ha : a2 ≠ 0) :
      ProcActs m p (.wait a a2 (.scan pp b))
        { visit := some (.proc pp), release := some .wait, frames := [] }
  | waitFailStatus (pp a a2 b) (hpar : (m.proc pp).parent = some p)
      (hz : (m.proc pp).state = .zombie) (ha : a ≠ 0) :
      ProcActs m p (.wait a a2 (.scan pp b))
        { visit := some (.proc pp), release := some .wait, op := .copyMsg p pp a2, frames := [] }
  | waitReap (pp a a2 b) (hpar : (m.proc pp).parent = some p) (hz : (m.proc pp).state = .zombie) :
      ProcActs m p (.wait a a2 (.scan pp b))
        { visit := some (.proc pp), release := some .wait, op := .reap p pp a a2, frames := [] }
  | waitChild (pp a a2 b) (hpar : (m.proc pp).parent = some p) (hz : (m.proc pp).state ≠ .zombie) :
      ProcActs m p (.wait a a2 (.scan pp b))
        { visit := some (.proc pp)
          op := .copyMsg p pp a2
          frames := [.wait a a2 (.scan (pp + 1) true)] }
  | waitOther (pp a a2 b) (hpar : (m.proc pp).parent ≠ some p) :
      ProcActs m p (.wait a a2 (.scan pp b)) { frames := [.wait a a2 (.scan (pp + 1) b)] }
  | waitScanned (a a2 i b) (hi : NPROC ≤ i) :
      ProcActs m p (.wait a a2 (.scan i b)) { frames := [.wait a a2 (.check b)] }
  | waitKilled (a a2) (hk : (m.proc p).killed = true) : ProcActs m p (.wait a a2 (.check true))
        { visit := some (.proc p), release := some .wait, frames := [] }
  | waitSleep (a a2) (hk : (m.proc p).killed = false) : ProcActs m p (.wait a a2 (.check true))
        { visit := some (.proc p)
          frames := [.sleep (.proc p) (some .wait) .acquire, .wait a a2 .acquire] }
  | waitNone (a a2) :
      ProcActs m p (.wait a a2 (.check false)) { release := some .wait, frames := [] }
  | kill (q pid) (hpid : (m.proc q).pid = pid) :
      ProcActs m p (.kill pid q) { visit := some (.proc q), op := .kill q pid, frames := [] }
  | killNext (q pid) (hpid : (m.proc q).pid ≠ pid) :
      ProcActs m p (.kill pid q) { visit := some (.proc q), frames := [.kill pid (q + 1)] }
  | killNone (pid i) (hi : NPROC ≤ i) : ProcActs m p (.kill pid i) { frames := [] }
  | sleepAcquire (k) : ProcActs m p (.sysSleep k .acquire)
        { acquire := some .ticks, frames := [.sysSleep k (.test m.ticks)] }
  | sleepTest (k) (t0 : Nat) (ht : ((m.ticks : Int) - t0) % 2 ^ 32 < k % 2 ^ 32) :
      ProcActs m p (.sysSleep k (.test t0)) { frames := [.sysSleep k (.killed t0)] }
  | sleepDone (k) (t0 : Nat) (ht : ¬ ((m.ticks : Int) - t0) % 2 ^ 32 < k % 2 ^ 32) :
      ProcActs m p (.sysSleep k (.test t0)) { release := some .ticks, frames := [] }
  | sleepKilled (k t0) (hk : (m.proc p).killed = true) : ProcActs m p (.sysSleep k (.killed t0))
        { visit := some (.proc p), release := some .ticks, frames := [] }
  | sleepCall (k t0) (hk : (m.proc p).killed = false) : ProcActs m p (.sysSleep k (.killed t0))
        { visit := some (.proc p)
          frames := [.sleep .ticks (some .ticks) .acquire, .sysSleep k (.reacquire t0)] }
  | sleepReacquire (k t0) : ProcActs m p (.sysSleep k (.reacquire t0))
        { acquire := some .ticks, frames := [.sysSleep k (.test t0)] }
  | trapExit {pc : UsertrapPc} (hpc : (∃ sc, pc = .syscall sc) ∨ ∃ t, pc = .killed t)
      (hk : (m.proc p).killed = true) :
      ProcActs m p (.usertrap pc)
        { visit := some (.proc p), frames := [exitKilled, .usertrap pc] }
  | trapCall (sc) (hk : (m.proc p).killed = false) : ProcActs m p (.usertrap (.syscall sc))
        { visit := some (.proc p), frames := [sc.frame, .usertrap (.killed .syscall)] }
  | trapFault : ProcActs m p (.usertrap .setkilled)
        { visit := some (.proc p), op := .setkilled p, frames := [.usertrap (.killed .fault)] }
  | trapTimer (hk : (m.proc p).killed = false) : ProcActs m p (.usertrap (.killed .timer))
        { visit := some (.proc p), frames := [.usertrap .update] }
  | trapLeave (t) (ht : t ≠ .timer) (hk : (m.proc p).killed = false) :
      ProcActs m p (.usertrap (.killed t))
        { visit := some (.proc p), frames := [.usertrap .ret] }
  | trapUpdate : ProcActs m p (.usertrap .update)
        { frames := [.updateTicks 0 false, .usertrap .accumulate] }
  | trapYield : ProcActs m p (.usertrap .accumulate)
        { visit := some (.proc p)
          op := .accumulate p
          frames := [.yield .acquire, .usertrap .ret] }
  | trapRet : ProcActs m p (.usertrap .ret) { frames := [] }
  | setPs (k) : ProcActs m p (.setPsPriority k)
        { visit := some (.proc p), op := .setPsPriority p k, frames := [] }
  | setCfs (k) (hk : validArg k = true) :
      ProcActs m p (.setCfsPriority k) { op := .setCfsPriority p k, frames := [] }
  | setPolicy (k) (hk : validArg k = true) :
      ProcActs m p (.setPolicy k) { op := .setPolicy k, frames := [] }
  | badArg (k) {f : Frame} (hf : f = .setCfsPriority k ∨ f = .setPolicy k)
      (hk : validArg k = false) : ProcActs m p f { frames := [] }
  | forkret : ProcActs m p .forkret { release := some (.proc p), frames := [.fs] }
  | fsSleep (a) {f : Frame} (hf : f = .fs ∨ f = .other) :
      ProcActs m p f { frames := [.sleep (.other a) none .acquire, f] }
  | fsWakeup (a) {f : Frame} (hf : f = .fs ∨ f = .other) :
      ProcActs m p f { frames := [.wakeup (some (.other a)) 0, f] }
  | fsReturn {f : Frame} (hf : f = .fs ∨ f = .other) : ProcActs m p f { frames := [] }
  | ownFields {op : Op} (hop : (∃ fd v, op = .setFd p fd v) ∨ (∃ v, op = .setCwd p v) ∨
      ∃ sz pt, op = .setMem p sz pt) : ProcActs m p .other { op := op, frames := [.other] }

/-- The steps of the innermost frame of a hart, where `me` is `myproc()`. -/
inductive Acts (m : Mem) (me : Option Slot) : Frame → Effect → Prop
  | main (l) (hl : scheduler m.policy = some l) :
      Acts m me .main { frames := [.scheduler l l.entry] }
  | enter (l mn) (q : Slot) : Acts m me (.scheduler l (.enter q mn))
        { visit := some (.proc q)
          frames := [.scheduler l (.enter (q + 1) (l.minimum (m.proc q) mn))] }
  | entered (l i mn) (hi : NPROC ≤ i) :
      Acts m me (.scheduler l (.enter i mn)) { frames := [.scheduler l (.start mn)] }
  | start (l mn) :
      Acts m me (.scheduler l (.start mn)) { frames := [.scheduler l (.visit 0 mn)], switch := .clear }
  | dispatch (l p mn) (hsel : l.selects (m.proc p) mn = true) :
      Acts m me (.scheduler l (.visit p mn))
        { acquire := some (.proc p)
          op := .dispatch p
          frames := [.scheduler l (.back p)]
          switch := .dispatch p }
  | pass (l p mn) (hsel : l.selects (m.proc p) mn = false) : Acts m me (.scheduler l (.visit p mn))
        { visit := some (.proc p), frames := [.scheduler l (l.afterRound p)] }
  | back (l p) : Acts m me (.scheduler l (.back p))
        { release := some (.proc p), frames := [.scheduler l (l.afterRound p)], switch := .clear }
  | rescan (l p mn) (q : Slot) : Acts m me (.scheduler l (.rescan p q mn))
        { visit := some (.proc q)
          frames := [.scheduler l (.rescan p (q + 1) (l.minimum (m.proc q) mn))] }
  | rescanned (l p i mn) (hi : NPROC ≤ i) :
      Acts m me (.scheduler l (.rescan p i mn)) { frames := [.scheduler l (.test p mn)] }
  | callLoop (l l' p mn) (hl : l.callee m.policy = some l') : Acts m me (.scheduler l (.test p mn))
        { frames := [.scheduler l' l'.entry, .scheduler l (.visit (p + 1) mn)] }
  | nextRound (l p mn) (hl : l.callee m.policy = none) :
      Acts m me (.scheduler l (.test p mn)) { frames := [.scheduler l (.visit (p + 1) mn)] }
  | skipSelf {q ch f g} (hl : WakeLoop m me ch q f g) (hme : me = some q) :
      Acts m me f { frames := [g] }
  | wake {q ch f g} (hl : WakeLoop m me ch q f g) (hq : me ≠ some q) :
      Acts m me f { visit := some (.proc q), op := .wakeup ch q, frames := [g] }
  | woken (ch i) (hi : NPROC ≤ i) : Acts m me (.wakeup ch i) { frames := [] }
  | tick : Acts m me (.clockintr .acquire)
        { acquire := some .ticks, op := .tick, frames := [.clockintr (.wakeup 0)] }
  | ticked (i) (hi : NPROC ≤ i) :
      Acts m me (.clockintr (.wakeup i)) { release := some .ticks, frames := [] }
  | chargeSleep (q : Slot) :
      Acts m me (.updateTicks q false) { op := .chargeSleep q, frames := [.updateTicks q true] }
  | charge (q : Slot) : Acts m me (.updateTicks q true)
        { visit := some (.proc q), op := .charge q, frames := [.updateTicks (q + 1) false] }
  | charged (i locked) (hi : NPROC ≤ i) : Acts m me (.updateTicks i locked) { frames := [] }
  | kernelUpdate :
      Acts m me (.kerneltrap .update) { frames := [.updateTicks 0 false, .kerneltrap .yield] }
  | kernelYield (p) (hme : me = some p) (hs : (m.proc p).state = .running) :
      Acts m me (.kerneltrap .yield)
        { op := .accumulate p, frames := [.yield .acquire, .kerneltrap .ret] }
  | kernelStay : Acts m me (.kerneltrap .yield) { frames := [.kerneltrap .ret] }
  | kernelRet : Acts m me (.kerneltrap .ret) { frames := [] }
  | proc {f e} (p) (hme : me = some p) (h : ProcActs m p f e) : Acts m me f e

theorem wakeLoop_acts {m : Mem} {me : Option Slot} {ch : Option Chan} {q : Slot} {f g : Frame}
    (h : WakeLoop m me ch q f g) : Acts m me f (wakeupRound me ch q [g]) := by
  unfold wakeupRound
  split
  · exact .skipSelf h ‹_›
  · exact .wake h ‹_›

theorem sched_acts {m : Mem} {p : Slot} {f g : Frame} (h : Resumes f g) :
    ProcActs m p f (sched m p g) := by
  unfold sched
  split
  · exact .schedRunning h ‹_›
  · exact .sched h ‹_›

section

variable {m : Mem} {p : Slot} {i : Input}

theorem forkStep_acts {pc : ForkPc} {e : Effect} (he : forkStep m p i pc = some e) :
    ProcActs m p (.fork pc) e := by
  cases pc with
  | alloc j =>
    revert he
    simp only [forkStep]
    refine forSlot_ind (P := fun x => x = some e → _) (fun q hq => ?_) (fun hj he => ?_)
    · subst hq
      split
      · rintro ⟨⟩
        exact .forkFound q ‹_›
      · rintro ⟨⟩
        exact .forkUsed q ‹_›
    · cases he
      exact .forkNone j hj
  | found np => cases he; exact .forkAlloc np
  | trapframe np =>
    simp only [forkStep] at he
    split at he
    · split at he
      · cases he; exact .forkFree np (.inl rfl)
      · cases he; exact .forkTrapframe np _ ‹_›
    · cases he
  | pagetable np =>
    simp only [forkStep] at he
    split at he
    · split at he
      · cases he; exact .forkFree np (.inr (.inl rfl))
      · cases he; exact .forkPagetable np _ ‹_›
    · cases he
  | copy np =>
    simp only [forkStep] at he
    split at he
    · cases he; exact .forkFree np (.inr (.inr rfl))
    · cases he; exact .forkCopy np
  | setParent np pid => cases he; exact .forkParent np pid
  | relock np pid => cases he; exact .forkRelock np pid
  | runnable np pid =>
    simp only [forkStep] at he
    split at he
    · cases he; exact .forkRunnable np _ pid ‹_›
    · cases he

theorem exitStep_acts (pc : ExitPc) : Acts m (some p) (.exit pc) (exitStep m p pc) := by
  cases pc with
  | entry st msg =>
    simp only [exitStep]
    split
    · exact .proc p rfl (.exitInit st msg ‹_›)
    · exact .proc p rfl (.exitEntry st msg ‹_›)
  | close st fd =>
    simp only [exitStep]
    split
    · rename_i hfd
      split
      · exact .proc p rfl (.exitClose st ⟨fd, hfd⟩ ‹_›)
      · exact .proc p rfl (.exitNext st ⟨fd, hfd⟩ (not_not.mp ‹_›))
    · exact .proc p rfl (.exitFiles st fd (by omega))
  | closed st fd => exact .proc p rfl (.exitClosed st fd)
  | iput st => exact .proc p rfl (.exitCwd st)
  | acquire st => exact .proc p rfl (.exitAcquire st)
  | reparent st i =>
    simp only [exitStep]
    refine forSlot_ind (fun q hq => ?_) (fun hi => .proc p rfl (.exitReparented st i hi))
    subst hq
    split
    · exact .proc p rfl (.exitChild st q ‹_›)
    · exact .proc p rfl (.exitOther st q ‹_›)
  | reparentWake st i j =>
    simp only [exitStep]
    refine forSlot_ind (fun q hq => ?_) (fun hj => .proc p rfl (.exitWoken st i j hj))
    subst hq
    exact wakeLoop_acts (.init p st i q rfl)
  | wakeParent st ch j =>
    simp only [exitStep]
    refine forSlot_ind (fun q hq => ?_) (fun hj => .proc p rfl (.exitParent st ch j hj))
    subst hq
    exact wakeLoop_acts (.parent p st ch q rfl)
  | lock st => exact .proc p rfl (.exitLock st)
  | zombie st => exact .proc p rfl (.exitZombie st)
  | swtch => exact .proc p rfl (sched_acts .exit)
  | dead => exact .proc p rfl .exitDead

theorem waitVisit_acts {a a2 : Nat} {pp : Slot} {b : Bool} (hpar : (m.proc pp).parent = some p) :
    ProcActs m p (.wait a a2 (.scan pp b)) (waitStep.waitVisit m p a a2 i pp pp) := by
  unfold waitStep.waitVisit
  split
  · rename_i hz
    split
    · split
      · exact .waitFailStatus pp a a2 b hpar hz ‹_›
      · exact .waitReap pp a a2 b hpar hz
    · exact .waitReap pp a a2 b hpar hz
  · exact .waitChild pp a a2 b hpar ‹_›

theorem waitStep_acts (a a2 : Nat) (pc : WaitPc) :
    ProcActs m p (.wait a a2 pc) (waitStep m p a a2 i pc) := by
  cases pc with
  | acquire => exact .waitAcquire a a2
  | scan j b =>
    simp only [waitStep]
    refine forSlot_ind (fun q hq => ?_) (fun hj => .waitScanned a a2 j b hj)
    subst hq
    split
    · rename_i hpar
      split
      · split
        · exact .waitFail q a a2 b hpar ‹_›
        · exact waitVisit_acts hpar
      · exact waitVisit_acts hpar
    · exact .waitOther q a a2 b ‹_›
  | check b =>
    cases b with
    | false => exact .waitNone a a2
    | true =>
      simp only [waitStep, if_true]
      split
      · exact .waitKilled a a2 ‹_›
      · exact .waitSleep a a2 (eq_false_of_ne_true ‹_›)

theorem sysSleepStep_acts (k : Int) (pc : SysSleepPc) :
    ProcActs m p (.sysSleep k pc) (sysSleepStep m p k pc) := by
  cases pc with
  | acquire => exact .sleepAcquire k
  | test t0 =>
    simp only [sysSleepStep]
    split
    · exact .sleepTest k t0 ‹_›
    · exact .sleepDone k t0 ‹_›
  | killed t0 =>
    simp only [sysSleepStep]
    split
    · exact .sleepKilled k t0 ‹_›
    · exact .sleepCall k t0 (eq_false_of_ne_true ‹_›)
  | reacquire t0 => exact .sleepReacquire k t0

theorem usertrapStep_acts (pc : UsertrapPc) :
    ProcActs m p (.usertrap pc) (usertrapStep m p pc) := by
  cases pc with
  | syscall sc =>
    simp only [usertrapStep]
    split
    · exact .trapExit (.inl ⟨sc, rfl⟩) ‹_›
    · exact .trapCall sc (eq_false_of_ne_true ‹_›)
  | setkilled => exact .trapFault
  | killed t =>
    simp only [usertrapStep]
    split
    · exact .trapExit (.inr ⟨t, rfl⟩) ‹_›
    · have hk := eq_false_of_ne_true ‹_›
      split
      · exact .trapTimer hk
      · exact .trapLeave t ‹_› hk
  | update => exact .trapUpdate
  | accumulate => exact .trapYield
  | ret => exact .trapRet

theorem fsStep_acts {f : Frame} (hf : f = .fs ∨ f = .other) : ProcActs m p f (fsStep i f) := by
  unfold fsStep
  split
  · exact .fsSleep _ hf
  · exact .fsWakeup _ hf
  · exact .fsReturn hf

theorem otherStep_acts : ProcActs m p .other (otherStep p i) := by
  unfold otherStep
  split
  · exact .ownFields (.inl ⟨_, _, rfl⟩)
  · exact .ownFields (.inr (.inl ⟨_, rfl⟩))
  · exact .ownFields (.inr (.inr ⟨_, _, rfl⟩))
  · exact fsStep_acts (.inr rfl)

/-- The frames that run on behalf of a process, apart from `exit`, which wakes others. -/
theorem procStep_acts {f : Frame} {e : Effect} (he : procStep m p f i = some e) :
    Acts m (some p) f e := by
  cases f with
  | usertrap pc => cases he; exact .proc p rfl (usertrapStep_acts pc)
  | yield pc =>
    cases he
    cases pc with
    | acquire => exact .proc p rfl .yield
    | swtch => exact .proc p rfl (sched_acts .yield)
    | release => exact .proc p rfl .yielded
  | sleep ch lk pc =>
    cases he
    cases pc with
    | acquire => exact .proc p rfl (.sleepLock ch lk)
    | locked => exact .proc p rfl (.sleep ch lk)
    | swtch => exact .proc p rfl (sched_acts (.sleep ch lk))
    | wake => exact .proc p rfl (.awake ch lk)
  | fork pc => exact .proc p rfl (forkStep_acts he)
  | exit pc => cases he; exact exitStep_acts pc
  | wait a a2 pc => cases he; exact .proc p rfl (waitStep_acts a a2 pc)
  | kill pid j =>
    cases he
    refine forSlot_ind (fun q hq => ?_) (fun hj => .proc p rfl (.killNone pid j hj))
    subst hq
    split
    · exact .proc p rfl (.kill q pid ‹_›)
    · exact .proc p rfl (.killNext q pid ‹_›)
  | sysSleep k pc => cases he; exact .proc p rfl (sysSleepStep_acts k pc)
  | setPsPriority k => cases he; exact .proc p rfl (.setPs k)
  | setCfsPriority k =>
    cases he
    by_cases hk : validArg k = true
    · rw [if_pos hk]
      exact .proc p rfl (.setCfs k hk)
    · rw [if_neg hk]
      exact .proc p rfl (.badArg k (.inl rfl) (eq_false_of_ne_true hk))
  | setPolicy k =>
    cases he
    by_cases hk : validArg k = true
    · rw [if_pos hk]
      exact .proc p rfl (.setPolicy k hk)
    · rw [if_neg hk]
      exact .proc p rfl (.badArg k (.inr rfl) (eq_false_of_ne_true hk))
  | forkret => cases he; exact .proc p rfl .forkret
  | fs => cases he; exact .proc p rfl (fsStep_acts (.inl rfl))
  | other => cases he; exact .proc p rfl otherStep_acts
  | main | scheduler _ _ | kerneltrap _ | clockintr _ | updateTicks _ _ | wakeup _ _ | panic =>
    cases he

end

/-- Every step of the innermost frame is one of these. -/
theorem effect_acts {m : Mem} {me : Option Slot} {f : Frame} {i : Input} {e : Effect}
    (he : f.effect m me i = some e) : Acts m me f e := by
  have hproc : (me.bind fun p => procStep m p f i) = some e → Acts m me f e := by
    intro h
    obtain ⟨p, rfl, h⟩ := Option.bind_eq_some_iff.mp h
    exact procStep_acts h
  cases f with
  | main =>
    simp only [Frame.effect, Option.map_eq_some_iff] at he
    obtain ⟨l, hl, rfl⟩ := he
    exact .main l hl
  | scheduler l pc =>
    cases he
    cases pc with
    | enter i mn =>
      simp only [schedulerStep]
      refine forSlot_ind (fun q hq => ?_) (fun hi => .entered l i mn hi)
      subst hq
      exact .enter l mn q
    | start mn => exact .start l mn
    | visit p mn =>
      simp only [schedulerStep]
      split
      · exact .dispatch l p mn ‹_›
      · exact .pass l p mn (eq_false_of_ne_true ‹_›)
    | back p => exact .back l p
    | rescan p i mn =>
      simp only [schedulerStep]
      refine forSlot_ind (fun q hq => ?_) (fun hi => .rescanned l p i mn hi)
      subst hq
      exact .rescan l p mn q
    | test p mn =>
      simp only [schedulerStep]
      split
      · exact .callLoop l _ p mn ‹_›
      · exact .nextRound l p mn ‹_›
  | kerneltrap pc =>
    cases he
    cases pc with
    | update => exact .kernelUpdate
    | yield =>
      simp only [kerneltrapStep, kerneltrapYield]
      split
      · split
        · exact .kernelYield _ rfl ‹_›
        · exact .kernelStay
      · exact .kernelStay
    | ret => exact .kernelRet
  | clockintr pc =>
    cases he
    cases pc with
    | acquire => exact .tick
    | wakeup i =>
      simp only [clockStep]
      refine forSlot_ind (fun q hq => ?_) (fun hi => .ticked i hi)
      subst hq
      exact wakeLoop_acts (.clock q)
  | updateTicks j locked =>
    cases he
    refine forSlot_ind (fun q hq => ?_) (fun hj => .charged j locked hj)
    subst hq
    cases locked with
    | false => exact .chargeSleep q
    | true => exact .charge q
  | wakeup ch j =>
    cases he
    refine forSlot_ind (fun q hq => ?_) (fun hj => .woken ch j hj)
    subst hq
    exact wakeLoop_acts (.wakeup ch q)
  | usertrap _ | yield _ | sleep _ _ _ | fork _ | exit _ | wait _ _ _ | kill _ _ | sysSleep _ _
  | setPsPriority _ | setCfsPriority _ | setPolicy _ | forkret | fs | other | panic =>
    exact hproc he

/-! ## Locks -/

/-- The lock discipline of one step of frame `f`: it takes no lock it holds, gives back only
    what it holds, and the frame it leaves on its thread holds what remains. -/
structure LockSpec (t : Thread n) (f : Frame) (e : Effect) : Prop where
  enter : ∀ L, L ∈ e.visit.toList ∨ L ∈ e.acquire.toList → L ∉ f.held t
  leave : ∀ L, L ∈ e.release.toList ∨ L ∈ e.holding.toList → L ∈ f.held t
  top : ∀ L, L ∈ topHeld t e.frames ↔
    (L ∈ f.held t ∧ L ∉ e.release.toList) ∨ L ∈ e.acquire.toList
  tail : ∀ g ∈ e.frames.tail, g.held t = []
  wf : ∀ g ∈ e.frames, g.wf t

attribute [local simp] topHeld Frame.held Thread.ownLock LoopPc.held ClockPc.held YieldPc.held
  SleepPc.held ForkPc.held ExitPc.held WaitPc.held SysSleepPc.held Frame.wf Frame.onSched
  Frame.onProc

/-- What `effect_lockSpec` asks of the memory: a process about to switch away has left the
    state `RUNNING`, a new process is not its own parent, and a dead one does not run. -/
structure Ready (m : Mem) (me : Option Slot) (f : Frame) : Prop where
  swtch : ∀ p, me = some p → f.atSwtch = true → (m.proc p).state ≠ .running
  parent : ∀ np pid, f = .fork (.runnable np pid) → (m.proc np).parent ≠ some np
  dead : f ≠ .exit .dead

theorem procActs_lockSpec {m : Mem} {p : Slot} {f : Frame} {e : Effect} (hf : f.onProc p)
    (hm : Ready m (some p) f) (h : ProcActs m p f e) : LockSpec (.proc p : Thread n) f e := by
  cases h with
  | sched hr hs => cases hr <;> constructor <;> simp_all
  | schedRunning hr hs => exact absurd hs (hm.swtch p rfl (by cases hr <;> rfl))
  | exitDead => exact absurd rfl hm.dead
  | sleepLock ch lk | sleep ch lk =>
    -- the lock that `sleep` releases is never the own `p->lock`
    have hlk : Lock.proc p ∉ lk.toList := by
      rcases hf with ⟨-, h⟩ | ⟨-, h⟩ | ⟨h, -⟩ <;> simp [h]
    refine ⟨?_, ?_, ?_, ?_, List.forall_mem_singleton.mpr hf⟩ <;>
      grind [topHeld, Frame.held, SleepPc.held, Thread.ownLock]
  | forkFree np hpc => rcases hpc with rfl | rfl | rfl <;> constructor <;> simp
  | forkRunnable np parent pid hpar =>
    have hne : parent ≠ np := fun h => hm.parent np pid rfl (h ▸ hpar)
    constructor <;> simp [hne]
  | exitZombie st =>
    constructor <;> simp
    intro L
    cases L <;> simp
  | trapExit hpc hk => rcases hpc with ⟨sc, rfl⟩ | ⟨t, rfl⟩ <;> constructor <;> simp [exitKilled]
  | trapCall sc hk => cases sc <;> constructor <;> simp [Syscall.frame]
  | badArg k hf hk | fsSleep a hf | fsWakeup a hf | fsReturn hf =>
    rcases hf with rfl | rfl <;> constructor <;> simp
  | _ => constructor <;> simp

/-- The frames of `procStep` run on the stack of a process. -/
theorem ProcActs.not_onSched {m : Mem} {p : Slot} {f : Frame} {e : Effect} (h : ProcActs m p f e) :
    ¬ f.onSched := by
  cases h with
  | sched hr | schedRunning hr => cases hr <;> exact id
  | badArg k hf | fsSleep a hf | fsWakeup a hf | fsReturn hf => rcases hf with rfl | rfl <;> exact id
  | _ => exact id

/-- Every step obeys the lock discipline. -/
theorem effect_lockSpec {t : Thread n} {m : Mem} {me : Option Slot} {f : Frame} {i : Input}
    {e : Effect} (hr : Runs t me f) (hm : Ready m me f) (he : f.effect m me i = some e) :
    LockSpec t f e := by
  cases effect_acts he with
  | proc p hme h =>
    subst hme
    cases t with
    | sched c => exact absurd hr.1 h.not_onSched
    | proc q =>
      obtain rfl : p = q := Option.some.inj hr.2
      exact procActs_lockSpec hr.1 hm h
  | skipSelf hl | wake hl =>
    cases hl with
    | wakeup | clock => cases t <;> constructor <;> simp
    | init | parent =>
      cases t with
      | sched c => exact hr.1.elim
      | proc q => constructor <;> simp
  | main l | pass l | back l | callLoop _ l =>
    cases t with
    | proc p => exact hr.1.elim
    | sched c => cases l <;> constructor <;> simp [Loop.entry, Loop.afterRound]
  | enter | entered | start | dispatch | rescan | rescanned | nextRound =>
    cases t with
    | proc p => exact hr.1.elim
    | sched c => constructor <;> simp
  | kernelYield p hme hs =>
    cases t with
    | sched c => simp [Runs, hme] at hr
    | proc q => constructor <;> simp
  | _ => cases t <;> constructor <;> simp

end Xv6
