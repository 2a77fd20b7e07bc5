import Xv6.Spec.OpSpec

/-!
# Which frames a step leaves

`effect_frameSpec` says for every source function how its next step rearranges the call
stack of its thread: where `c->proc` changes, which frames precede a `swtch`, how system
call frames are nested, and where `fork` gets the slot it works on.
-/

namespace Xv6

variable {n : Nat}

/-! ## Switching -/

/-- The slot whose process a scheduler loop has switched to and not yet taken back. -/
def backSlot : List Frame → Option Slot
  | .scheduler _ (.back p) :: _ => some p
  | _ => none

/-- A frame at which its process is `RUNNING`: it neither waits in `sched` nor has exited. -/
def Frame.plain : Frame → Bool
  | .yield .swtch | .sleep _ _ .swtch | .exit .swtch | .exit .dead => false
  | _ => true

/-- The operations by which a process leaves the state `RUNNING`. -/
def Op.parks : Op → Bool
  | .yield _ | .sleep _ _ | .zombie _ _ => true
  | _ => false

/-- A process leaves the state `RUNNING` just before it calls `sched`. -/
inductive Parks : Op → List Frame → Prop
  | yield (p : Slot) : Parks (.yield p) [.yield .swtch]
  | sleep (p : Slot) (ch : Chan) (lk : Option Lock) : Parks (.sleep p ch) [.sleep ch lk .swtch]
  | zombie (p : Slot) (st : Int) : Parks (.zombie p st) [.exit .swtch]

/-- How a step of frame `f` may switch. -/
def SwitchSpec (me : Option Slot) (f : Frame) (e : Effect) : Switch → Prop
  | .stay =>
    f.plain = true ∧ backSlot [f] = none ∧ backSlot e.frames = none ∧
      (Parks e.op e.frames ∨ e.op.parks = false ∧ ∀ g ∈ e.frames, g.plain = true)
  | .clear =>
    (∃ l pc, f = .scheduler l pc) ∧ e.op = .skip ∧ e.acquire = none ∧
      backSlot e.frames = none
  | .dispatch p =>
    (∃ l m, f = .scheduler l (.visit p m)) ∧ e.op = .dispatch p ∧ e.acquire = some (.proc p) ∧
      ∃ l, e.frames = [.scheduler l (.back p)]
  | .sched =>
    (∃ p, me = some p ∧ e.holding = some (.proc p)) ∧ e.op = .skip ∧ e.acquire = none ∧
      e.release = none ∧ ∃ g, e.frames = [g] ∧ Resumes f g

/-! ## Nesting -/

/-- The frames called by `syscall` or by `usertrap` itself. -/
def Frame.isCall : Frame → Bool
  | .fork _ | .exit _ | .wait _ _ _ | .kill _ _ | .sysSleep _ _ | .setPsPriority _
  | .setCfsPriority _ | .setPolicy _ | .other => true
  | _ => false

/-- `usertrap` is entered from user mode only, and a system call runs directly above it. -/
def Frame.nests : Frame → List Frame → Prop
  | .usertrap _, rest => rest = []
  | f, rest => f.isCall = true → ∃ pc, rest = [.usertrap pc]

/-- Every frame of a stack is nested as the source calls it. -/
def Nested : List Frame → Prop
  | [] => True
  | f :: rest => f.nests rest ∧ Nested rest

/-! ## Calls -/

/-- An activation: the function of a frame and its arguments. -/
inductive Fn where
  | main
  | scheduler
  | kerneltrap
  | usertrap
  | clockintr
  | updateTicks
  | wakeup (ch : Option Chan)
  | yield
  | sleep (ch : Chan) (lk : Option Lock)
  | fork
  | exit
  | wait (addr addr2 : Nat)
  | kill (pid : Int)
  | sysSleep (n : Int)
  | setPsPriority
  | setCfsPriority
  | setPolicy
  | forkret
  | fs
  | other
  | panic

/-- The activation a frame belongs to. -/
def Frame.fn : Frame → Fn
  | .main => .main
  | .scheduler _ _ => .scheduler
  | .kerneltrap _ => .kerneltrap
  | .usertrap _ => .usertrap
  | .clockintr _ => .clockintr
  | .updateTicks _ _ => .updateTicks
  | .wakeup ch _ => .wakeup ch
  | .yield _ => .yield
  | .sleep ch lk _ => .sleep ch lk
  | .fork _ => .fork
  | .exit _ => .exit
  | .wait addr addr2 _ => .wait addr addr2
  | .kill pid _ => .kill pid
  | .sysSleep n _ => .sysSleep n
  | .setPsPriority _ => .setPsPriority
  | .setCfsPriority _ => .setCfsPriority
  | .setPolicy _ => .setPolicy
  | .forkret => .forkret
  | .fs => .fs
  | .other => .other
  | .panic => .panic

/-- The frame stands at the entry of its function. -/
def Frame.isStart : Frame → Bool
  | .scheduler _ pc => (pc matches .start _ | .enter 0 _)
  | .updateTicks i locked => i == 0 && !locked
  | .wakeup _ i | .kill _ i => i == 0
  | .yield pc => (pc matches .acquire)
  | .sleep _ _ pc => (pc matches .acquire)
  | .fork pc => (pc matches .alloc 0)
  | .exit pc => (pc matches .entry _ _)
  | .wait _ _ pc => (pc matches .acquire)
  | .sysSleep _ pc => (pc matches .acquire)
  | .setPsPriority _ | .setCfsPriority _ | .setPolicy _ | .fs | .other | .panic => true
  | .main | .kerneltrap _ | .usertrap _ | .clockintr _ | .forkret => false

/-! ## fork -/

/-- The slot an activation of `fork` works on. -/
def ForkPc.forking : ForkPc → Option Slot
  | .alloc _ => none
  | .found np | .trapframe np | .pagetable np | .copy np | .setParent np _ | .relock np _
  | .runnable np _ => some np

/-- The steps inside `fork`, each with the operation it performs. -/
inductive ForkNext (m : Mem) (me : Option Slot) : Effect → ForkPc → ForkPc → Prop
  | alloc {e : Effect} (i : Nat) (hop : e.op = .skip) : ForkNext m me e (.alloc i) (.alloc (i + 1))
  | found {e : Effect} (np : Slot) (hop : e.op = .skip) (hstate : (m.proc np).state = .unused)
      (hacq : e.acquire = some (.proc np)) : ForkNext m me e (.alloc np) (.found np)
  | trapframe {e : Effect} (np : Slot) (hop : e.op = .alloc np) :
      ForkNext m me e (.found np) (.trapframe np)
  | pagetable {e : Effect} (np : Slot) (a : Nat) (hop : e.op = .setTrapframe np a) :
      ForkNext m me e (.trapframe np) (.pagetable np)
  | copy {e : Effect} (np : Slot) (a : Nat) (hop : e.op = .setPagetable np a) :
      ForkNext m me e (.pagetable np) (.copy np)
  | setParent {e : Effect} (p np : Slot) (hme : me = some p) (hop : e.op = .copy p np) :
      ForkNext m me e (.copy np) (.setParent np (m.proc np).pid)
  | relock {e : Effect} (p np : Slot) (pid : Int) (hme : me = some p)
      (hop : e.op = .setParent p np) : ForkNext m me e (.setParent np pid) (.relock np pid)
  | runnable {e : Effect} (np : Slot) (pid : Int) (hop : e.op = .skip) :
      ForkNext m me e (.relock np pid) (.runnable np pid)

/-- How a step rearranges the stack of its thread. -/
structure FrameSpec (m : Mem) (me : Option Slot) (f : Frame) (e : Effect) : Prop where
  switch : SwitchSpec me f e e.switch
  nested : ∀ rest, Nested (f :: rest) → Nested (e.frames ++ rest)
  call : ∀ g ∈ e.frames, g.isStart = true ∨ g.fn = f.fn
  syscall : ∀ g ∈ e.frames, g.isCall = true → g.fn = f.fn ∨ ∃ pc, f = .usertrap pc
  sleep : ∀ q lk pc, .sleep (.proc q) lk pc ∈ e.frames →
    Fn.sleep (.proc q) lk = f.fn ∨ ∃ a a2, f = .wait a a2 (.check true) ∧ e.op = .skip
  fork : ∀ pc', .fork pc' ∈ e.frames →
    pc' = .alloc 0 ∨ ∃ pc, f = .fork pc ∧ ForkNext m me e pc pc'

section

attribute [local simp] SwitchSpec backSlot Frame.plain Op.parks Frame.isCall Frame.nests Nested
  Frame.isStart Frame.fn

variable {e : Effect} {m : Mem} {me : Option Slot}

/-- A step from one point of `fork` to the next. -/
theorem forkNext_frameSpec {pc pc' : ForkPc} (hframes : e.frames = [.fork pc'])
    (hswitch : e.switch = .stay) (hop : e.op.parks = false) (h : ForkNext m me e pc pc') :
    FrameSpec m me (.fork pc) e := by
  refine ⟨?_, ?_, ?_, ?_, ?_, ?_⟩
  · rw [hswitch]
    exact ⟨rfl, rfl, by rw [hframes]; rfl, .inr ⟨hop, by simp [hframes]⟩⟩
  · rw [hframes]
    simp
  · rw [hframes]
    exact List.forall_mem_singleton.mpr (.inr rfl)
  · rw [hframes]
    exact List.forall_mem_singleton.mpr fun _ => .inl rfl
  · rw [hframes]
    simp
  · intro pc₁ hpc
    obtain rfl : pc₁ = pc' := by simpa [hframes] using hpc
    exact .inr ⟨pc, rfl, h⟩

theorem procActs_frameSpec {p : Slot} {f : Frame} (hm : Ready m (some p) f) (h : ProcActs m p f e) :
    FrameSpec m (some p) f e := by
  cases h with
  | sched hr hs =>
    refine ⟨⟨⟨p, rfl, rfl⟩, rfl, rfl, rfl, _, rfl, hr⟩, ?_, ?_, ?_, ?_, ?_⟩ <;> cases hr <;>
      simp +contextual
  | schedRunning hr hs => exact absurd hs (hm.swtch p rfl (by cases hr <;> rfl))
  | exitDead => exact absurd rfl hm.dead
  | yield => refine ⟨⟨rfl, rfl, rfl, .inl (.yield p)⟩, ?_, ?_, ?_, ?_, ?_⟩ <;> simp
  | sleepLock ch lk => constructor <;> simp +contextual
  | sleep ch lk =>
    refine ⟨⟨rfl, rfl, rfl, .inl (.sleep p ch lk)⟩, ?_, ?_, ?_, ?_, ?_⟩ <;> simp +contextual
  | exitZombie st => refine ⟨⟨rfl, rfl, rfl, .inl (.zombie p st)⟩, ?_, ?_, ?_, ?_, ?_⟩ <;> simp
  | forkFound q hq => exact forkNext_frameSpec rfl rfl rfl (.found q rfl hq rfl)
  | forkUsed q hq => exact forkNext_frameSpec rfl rfl rfl (.alloc q.val rfl)
  | forkAlloc np => exact forkNext_frameSpec rfl rfl rfl (.trapframe np rfl)
  | forkTrapframe np a ha => exact forkNext_frameSpec rfl rfl rfl (.pagetable np a rfl)
  | forkPagetable np a ha => exact forkNext_frameSpec rfl rfl rfl (.copy np a rfl)
  | forkCopy np => exact forkNext_frameSpec rfl rfl rfl (.setParent p np rfl rfl)
  | forkParent np pid => exact forkNext_frameSpec rfl rfl rfl (.relock p np pid rfl rfl)
  | forkRelock np pid => exact forkNext_frameSpec rfl rfl rfl (.runnable np pid rfl)
  | trapExit hpc hk => constructor <;> simp [exitKilled]
  | trapCall sc hk => cases sc <;> constructor <;> simp [Syscall.frame]
  | badArg k hf hk | fsSleep a hf | fsWakeup a hf | fsReturn hf =>
    rcases hf with rfl | rfl <;> constructor <;> simp
  | ownFields hop =>
    rcases hop with ⟨_, _, rfl⟩ | ⟨_, rfl⟩ | ⟨_, _, rfl⟩ <;> constructor <;> simp
  | _ => constructor <;> simp

/-- Every step rearranges its stack as the source calls and returns. -/
theorem effect_frameSpec {f : Frame} {i : Input} (hm : Ready m me f) (he : f.effect m me i = some e) :
    FrameSpec m me f e := by
  cases effect_acts he with
  | proc p hme h => subst hme; exact procActs_frameSpec hm h
  | skipSelf hl | wake hl => cases hl <;> constructor <;> simp
  | main l | pass l | back l | callLoop _ l =>
    cases l <;> constructor <;> simp [Loop.entry, Loop.afterRound]
  | _ => constructor <;> simp

end

end Xv6
