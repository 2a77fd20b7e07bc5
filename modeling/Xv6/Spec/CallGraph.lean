import Xv6.Spec.FrameSpec

/-!
# The call graph

`Fn.calls` lists which function of the source calls which. `effect_calls` says that a frame
that a step pushes belongs to the activation that makes the step, or to a function that it
calls.
-/

namespace Xv6

/-- The calls of the source, between functions that have frames of their own. -/
def Fn.calls : Fn → Fn → Bool
  | .main, .scheduler => true
  | .kerneltrap, .updateTicks | .kerneltrap, .yield => true
  | .usertrap, .updateTicks | .usertrap, .yield | .usertrap, .fork | .usertrap, .exit
  | .usertrap, .wait _ _ | .usertrap, .kill _ | .usertrap, .sysSleep _
  | .usertrap, .setPsPriority | .usertrap, .setCfsPriority | .usertrap, .setPolicy
  | .usertrap, .other => true
  | .exit, .fs | .forkret, .fs => true
  | .wait _ _, .sleep _ _ | .sysSleep _, .sleep _ _ => true
  | .fs, .sleep _ _ | .fs, .wakeup _ | .other, .sleep _ _ | .other, .wakeup _ => true
  | .yield, .panic | .sleep _ _, .panic | .exit, .panic => true
  | _, _ => false

/-- Every new frame belongs to the activation of `f` or to a function that it calls. -/
def CallSpec (f : Frame) (e : Effect) : Prop :=
  ∀ g ∈ e.frames, g.fn = f.fn ∨ f.fn.calls g.fn = true

section

attribute [local simp] CallSpec Frame.fn Fn.calls

variable {e : Effect} {f : Frame} {m : Mem}

theorem procActs_calls {p : Slot} (h : ProcActs m p f e) :
    CallSpec f e := by
  cases h with
  | sched hr hs | schedRunning hr hs => cases hr <;> simp
  | trapExit => simp [exitKilled]
  | trapCall sc => cases sc <;> simp [Syscall.frame]
  | fsSleep a hf | fsWakeup a hf => rcases hf with rfl | rfl <;> simp
  | _ => simp

/-- A step pushes frames of its own activation and of functions that it calls. -/
theorem effect_calls {me : Option Slot} {i : Input}
    (he : f.effect m me i = some e) : CallSpec f e := by
  cases effect_acts he with
  | proc p hme h => exact procActs_calls h
  | skipSelf hl | wake hl => cases hl <;> simp
  | _ => simp

end

end Xv6
