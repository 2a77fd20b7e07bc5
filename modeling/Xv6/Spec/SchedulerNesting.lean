import Mathlib.Algebra.Group.Action.Defs
import Mathlib.Algebra.Order.BigOperators.Group.List
import Mathlib.Algebra.Order.Ring.Nat
import Mathlib.Data.Fintype.Card
import Xv6.Spec.Reaping
import Xv6.Spec.CallGraph

/-!
# Nesting of the scheduler loops

None of the three scheduler loops returns. A loop that finds a policy other than its own calls
the loop of that policy, so the activations on a hart's boot stack record the policies that the
hart has seen, the latest one innermost. As long as no policy comes back that was given up
before, every loop is active at most once; when one does, the stack grows without need.
-/

namespace Xv6

open TransitionSystem

variable {n : Nat}

instance : Fintype Loop := ⟨{.old, .priority, .cfs}, fun l => by cases l <;> decide⟩

/-! ## The activations of the loops -/

def Frame.loop : Frame → Option Loop
  | .scheduler l _ => some l
  | _ => none

/-- The active scheduler loops on a stack, innermost first. -/
def loops (stk : List Frame) : List Loop := stk.filterMap Frame.loop

/-- The bytes that an activation takes on the stack (`kernel/kernel.asm`). -/
def Loop.frameBytes : Loop → Nat
  | .old => 80
  | .priority | .cfs => 96

/-- The size of a boot stack (`kernel/start.c`). -/
def bootStack : Nat := 4096

theorem loops_append (fs rest : List Frame) : loops (fs ++ rest) = loops fs ++ loops rest :=
  List.filterMap_append

theorem loops_of_fn {fs : List Frame} (h : ∀ g ∈ fs, g.fn ≠ .scheduler) : loops fs = [] := by
  refine List.filterMap_eq_nil_iff.mpr fun g hg => ?_
  cases g with
  | scheduler l pc => exact absurd rfl (h _ hg)
  | _ => rfl

theorem loops_of_handler {fs : List Frame} (h : ∀ g ∈ fs, g.handler = true) : loops fs = [] := by
  refine loops_of_fn fun g hg hfn => ?_
  have hg := h g hg
  cases g with
  | scheduler l pc => cases hg
  | _ => cases hfn

variable {policy : Int} {l l' : Loop}

/-- A loop calls the loop of the policy, and only if that is another one. -/
theorem callee_eq_some (h : l.callee policy = some l') :
    scheduler policy = some l' ∧ l' ≠ l := by
  unfold scheduler
  cases l <;> simp only [Loop.callee] at h <;> split_ifs at h ⊢ <;> cases h <;> simp_all

theorem callee_eq_none (h : l.callee policy = none) (hl : scheduler policy = some l') : l' = l := by
  unfold scheduler at hl
  cases l <;> simp only [Loop.callee] at h <;> split_ifs at h hl <;> simp_all

theorem scheduler_inj {a b : Int} (ha : scheduler a = some l) (hb : scheduler b = some l) : a = b := by
  unfold scheduler at ha hb
  split_ifs at ha hb <;> cases ha <;> cases hb <;> simp_all

/-- A step of a loop keeps its activation and may call the loop of the policy. -/
theorem schedulerStep_loops (m : Mem) (l : Loop) (pc : LoopPc) :
    loops (schedulerStep m l pc).frames = [l] ∨
      ∃ l', scheduler m.policy = some l' ∧ l' ≠ l ∧
        loops (schedulerStep m l pc).frames = [l', l] := by
  cases pc with
  | enter i mn | rescan p i mn =>
    exact .inl (forSlot_ind (P := fun e : Effect => loops e.frames = [l]) (fun _ _ => rfl)
      fun _ => rfl)
  | start mn => exact .inl rfl
  | visit p mn =>
    simp only [schedulerStep]
    split <;> exact .inl rfl
  | back p => exact .inl rfl
  | test p mn =>
    simp only [schedulerStep]
    split
    · rename_i l' hcall
      obtain ⟨hl, hne⟩ := callee_eq_some hcall
      exact .inr ⟨l', hl, hne, rfl⟩
    · exact .inl rfl

/-- What a step does to the active loops. -/
inductive LoopStep (m : Mem) (f : Frame) (e : Effect) : Prop
  | keep (h : loops e.frames = loops [f])
  | main (l : Loop) (hf : f = .main) (hl : scheduler m.policy = some l) (h : loops e.frames = [l])
  | call (l l' : Loop) (hf : loops [f] = [l]) (hl : scheduler m.policy = some l') (hne : l' ≠ l)
      (h : loops e.frames = [l', l])

variable {m : Mem} {me : Option Slot}
variable {e : Effect} {f : Frame} {i : Input}

theorem effect_loops (he : f.effect m me i = some e) : LoopStep m f e := by
  cases f with
  | main =>
    simp only [Frame.effect, Option.map_eq_some_iff] at he
    obtain ⟨l, hl, rfl⟩ := he
    exact .main l rfl hl rfl
  | scheduler l pc =>
    cases he
    rcases schedulerStep_loops m l pc with h | ⟨l', hl, hne, h⟩
    · exact .keep h
    · exact .call l l' rfl hl hne h
  | _ =>
    refine .keep (loops_of_fn fun g hg hfn => ?_)
    rcases effect_calls he g hg with h | h
    · cases hfn.symm.trans h
    · rw [hfn] at h
      cases h

theorem effect_ne_main (he : f.effect m me i = some e) : .main ∉ e.frames := by
  intro hm
  rcases effect_calls he _ hm with h | h
  · cases f with
    | main =>
      simp only [Frame.effect, Option.map_eq_some_iff] at he
      obtain ⟨l, hl, rfl⟩ := he
      simp at hm
    | _ => cases h
  · cases f <;> cases h

/-! ## History -/

/-- The policies that were given up, the latest first. -/
def recordPolicy (m : Mem) (past : List Int) : Op → List Int
  | .setPolicy k => if k = m.policy then past else m.policy :: past
  | _ => past

/-- The kernel together with the policies that were given up. -/
def policyLog (n : Nat) : TransitionSystem (State n × List Int) (Fin n × Input) :=
  (kernel n).observe [] fun s x past => recordPolicy s.mem past (s.op x)

/-- The value that a step stores in `policy`. -/
def Op.policyArg : Op → Option Int
  | .setPolicy k => some k
  | _ => none

/-- `set_policy` never returns to a policy that was given up. -/
def NoReturn (x : State n × List Int) (i : Fin n × Input) : Prop :=
  ∀ k ∈ (x.1.op i).policyArg, k = x.1.mem.policy ∨ k ∉ x.2

instance (x : State n × List Int) (i : Fin n × Input) : Decidable (NoReturn x i) :=
  inferInstanceAs (Decidable (∀ k ∈ (x.1.op i).policyArg, _ ∨ _))

/-- The loops of all policies that were ever in force, the latest first. -/
def policyLoops (m : Mem) (past : List Int) : List Loop :=
  (m.policy :: past).filterMap scheduler

/-- The active loops of a stack are a selection of these. -/
structure Nesting (s : State n) (past : List Int) : Prop where
  nodup : (s.mem.policy :: past).Nodup
  main : ∀ t, .main ∈ s.stack t → s.stack t = [.main]
  sublist : ∀ t, (loops (s.stack t)).Sublist (policyLoops s.mem past)

theorem nodup_policyLoops {past : List Int} (h : (m.policy :: past).Nodup) :
    (policyLoops m past).Nodup :=
  h.filterMap fun _ _ _ ha hb => scheduler_inj ha hb

theorem policyLoops_cons {past : List Int} (h : scheduler m.policy = some l) :
    policyLoops m past = l :: past.filterMap scheduler := by
  simp [policyLoops, h]

section

variable {s : State n} {c : Fin n} {i : Input} {rest : List Frame} {e : Effect}
variable {past : List Int}

/-- What `set_policy` does to the policies that were ever in force. -/
theorem policyLoops_record (m : Mem) (past : List Int) (op : Op) :
    (policyLoops m past).Sublist (policyLoops (op.apply m) (recordPolicy m past op)) := by
  cases op with
  | setPolicy k =>
    simp only [recordPolicy]
    split
    · rename_i hk
      rw [policyLoops, policyLoops, Op.apply_policy, Op.policy, hk]
    · exact (List.sublist_cons_self _ _).filterMap _
  | _ => exact List.Sublist.refl _

theorem nodup_record {op : Op} (h : (m.policy :: past).Nodup)
    (hk : ∀ k ∈ op.policyArg, k = m.policy ∨ k ∉ past) :
    ((op.apply m).policy :: recordPolicy m past op).Nodup := by
  cases op with
  | setPolicy k =>
    simp only [recordPolicy, Op.apply_policy, Op.policy]
    split
    · rename_i heq
      rwa [heq]
    · rename_i hne
      have hpast := (hk k rfl).resolve_left hne
      refine List.nodup_cons.mpr ⟨fun hmem => ?_, h⟩
      rcases List.mem_cons.mp hmem with hmem | hmem
      · exact hne hmem
      · exact hpast hmem
  | _ => exact h

/-- The stack of the hart that makes the step. -/
theorem Nesting.next (hh : Nesting s past) (hp : Planned s c i rest e) :
    (.main ∈ e.frames ++ rest → e.frames ++ rest = [.main]) ∧
      (loops (e.frames ++ rest)).Sublist (policyLoops s.mem past) := by
  have hsub := hh.sublist (s.running c)
  have htrap (fs : List Frame) (hfs : ∀ g ∈ fs, g.handler = true)
      (hmain : .main ∉ s.cur c) :
      (.main ∈ fs ++ s.cur c → fs ++ s.cur c = [.main]) ∧
        (loops (fs ++ s.cur c)).Sublist (policyLoops s.mem past) := by
    refine ⟨fun hm => ?_, by rw [loops_append, loops_of_handler hfs]; exact hsub⟩
    rcases List.mem_append.mp hm with hm | hm
    · exact nomatch hfs _ hm
    · exact absurd hm hmain
  cases hp with
  | user p fs hr hc hfs =>
    exact htrap fs (userEntry_spec p hfs).1 (by rw [hc]; simp)
  | kernel fs hne hlock hfs hoff =>
    exact htrap fs (kernelEntry_spec (s.running c) hfs).1 fun hm => nomatch hoff _ hm
  | exec f rest e hc he hk =>
    have hstk := hh.main (s.running c)
    rw [← State.cur, hc] at hsub hstk
    refine ⟨fun hm => ?_, ?_⟩
    · exfalso
      rcases List.mem_append.mp hm with hm | hm
      · exact effect_ne_main he hm
      · have := hstk (List.mem_cons_of_mem _ hm)
        simp_all
    rw [← List.singleton_append, loops_append] at hsub
    rw [loops_append]
    cases effect_loops he with
    | keep h =>
      rw [h]
      exact hsub
    | main l hf hl h =>
      subst hf
      cases hstk List.mem_cons_self
      rw [h, policyLoops_cons hl]
      exact (List.nil_sublist _).cons_cons l
    | call l l' hf hl hne h =>
      -- the innermost loop is not the one of the policy, so it stands further back
      rw [hf, policyLoops_cons hl] at hsub
      rw [h, policyLoops_cons hl]
      exact (hsub.of_cons_of_ne hne.symm).cons_cons l'

theorem Nesting.commit (hh : Nesting s past) (hp : Planned s c i rest e)
    (hk : ∀ k ∈ e.op.policyArg, k = s.mem.policy ∨ k ∉ past) :
    Nesting (s.commit c rest e) (recordPolicy s.mem past e.op) := by
  obtain ⟨hmain, hsub⟩ := hh.next hp
  refine ⟨nodup_record hh.nodup hk, ?_, fun t => ?_⟩
  · exact State.commit_stack_ind (P := fun _ stk => .main ∈ stk → stk = [.main])
      (fun np hm => by simp at hm) hmain hh.main
  · refine List.Sublist.trans ?_ (policyLoops_record s.mem past e.op)
    exact State.commit_stack_ind (P := fun _ stk => (loops stk).Sublist (policyLoops s.mem past))
      (fun np => List.nil_sublist _) hsub hh.sublist t

end

/-! ## Runs -/

theorem nesting_boot (b : Boot) : Nesting (State.boot n b) [] := by
  refine ⟨List.nodup_singleton _, fun t hm => ?_, fun t => ?_⟩
  · cases t with
    | sched c => rfl
    | proc p => exact nomatch mem_boot_stack hm
  · have hnil : loops ((State.boot n b).stack t) = [] := by
      refine loops_of_fn fun g hg hfn => ?_
      cases t with
      | sched c =>
        rw [List.mem_singleton.mp hg] at hfn
        cases hfn
      | proc p =>
        rw [mem_boot_stack hg] at hfn
        cases hfn
    rw [hnil]
    exact List.nil_sublist _

theorem nesting_reachable {x : State n × List Int} (hr : (policyLog n).ReachableBy NoReturn x) :
    Nesting x.1 x.2 := by
  refine ReachableBy.induct (P := fun x => Nesting x.1 x.2) ?_ ?_ hr
  · rintro ⟨s, h⟩ ⟨⟨b, rfl⟩, rfl⟩
    exact nesting_boot b
  · intro x i y hx hh hk hs
    obtain ⟨hs, hy⟩ := observe_step.mp hs
    obtain ⟨rest, e, hp, -, hop, hs'⟩ := (inv_reachable (reachable_of_observe hx)).step_commit hs
    rw [NoReturn, hop] at hk
    rw [hy, hs', hop]
    exact hh.commit hp hk

/-- In every run in which `set_policy` never returns to a policy that was given up, every loop is
    active at most once on a hart's scheduler stack, so at most three loops are active and they
    fit on the boot stack. -/
theorem loops_active_once {x : State n × List Int} (hr : (policyLog n).ReachableBy NoReturn x)
    (c : Fin n) :
    (loops (x.1.stack (.sched c))).Nodup ∧ (loops (x.1.stack (.sched c))).length ≤ 3 ∧
      ((loops (x.1.stack (.sched c))).map Loop.frameBytes).sum ≤ bootStack := by
  have hh := nesting_reachable hr
  have hnodup := (nodup_policyLoops hh.nodup).sublist (hh.sublist (.sched c))
  have hlen : (loops (x.1.stack (.sched c))).length ≤ 3 := hnodup.length_le_card
  refine ⟨hnodup, hlen, ?_⟩
  have hbytes : ∀ b ∈ (loops (x.1.stack (.sched c))).map Loop.frameBytes, b ≤ 96 := by
    intro b hb
    obtain ⟨l, -, rfl⟩ := List.mem_map.mp hb
    cases l <;> decide
  have hsum := List.sum_le_card_nsmul _ 96 hbytes
  rw [List.length_map, smul_eq_mul] at hsum
  have : bootStack = 4096 := rfl
  omega

/-- The first process calls `set_policy(k)` from user mode. -/
def setPolicyRun (k : Int) : List (Fin 2 × Input) :=
  (0, .syscall (.setPolicy k)) :: List.replicate 4 (0, .run)

/-- Hart 0 dispatches the first process, which sets the policy to 1; hart 1 starts in `scheduler_old`
    and calls `schedulerPriority`. -/
def nestRun : List (Fin 2 × Input) :=
  List.replicate 5 (0, .run) ++ List.replicate 3 (1, .run) ++ setPolicyRun 1 ++ [(1, .run)]

theorem loops_active_once_one_switch : ∃ x : State 2 × List Int,
    (policyLog 2).runBy NoReturn (State.boot 2 ⟨1, 2, 3, 0⟩, []) nestRun = some x ∧
      loops (x.1.stack (.sched 1)) = [.priority, .old] ∧
      (loops (x.1.stack (.sched 1))).Nodup := by
  have hrun : ((policyLog 2).runBy NoReturn (State.boot 2 ⟨1, 2, 3, 0⟩, []) nestRun).map
      (fun x => loops (x.1.stack (.sched 1))) = some [.priority, .old] := by decide +kernel
  obtain ⟨x, hx, h⟩ := Option.map_eq_some_iff.mp hrun
  have hr : (policyLog 2).ReachableBy NoReturn x := reachableBy_runBy (.init ⟨⟨_, rfl⟩, rfl⟩) hx
  exact ⟨x, hx, h, (loops_active_once hr 1).1⟩

/-- … back to 0 and to 1 again. -/
def nestAgainRun : List (Fin 2 × Input) :=
  nestRun ++ setPolicyRun 0 ++ List.replicate 133 (1, .run) ++ setPolicyRun 1 ++
    List.replicate 3 (1, .run)

/-- The policies 0, 1, 0, 1 leave four loops active on hart 1, two of them twice. -/
theorem loops_nest_again :
    ((kernel 2).run (State.boot 2 ⟨1, 2, 3, 0⟩) nestAgainRun).map
      (fun s => loops (s.stack (.sched 1))) = some [.priority, .old, .priority, .old] := by
  decide +kernel

end Xv6
