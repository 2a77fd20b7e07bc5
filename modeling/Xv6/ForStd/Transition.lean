import Mathlib.Algebra.GroupWithZero.Nat
import Mathlib.Logic.Function.Basic

/-!
# Transition systems with a partial step function

A `TransitionSystem` has a set of initial states and an executable partial step function
`step s i`: `none` means that input `i` is not enabled in state `s`. The
nondeterminism of the modelled program is carried entirely by the input type.

* `ReachableBy C` are the states reached by steps that all meet the condition `C`,
  `Reachable` is the unconditional case.
* `ReachableBy.induct` is the invariant rule; it hands the step case the
  reachability of the pre-state, so that invariants can be proved in layers.
* `observe` adds a history variable that reads the run and never influences it.
-/

/-- A transition system whose nondeterminism is carried by the inputs `ι`. -/
structure TransitionSystem (σ ι : Type*) where
  init : σ → Prop
  step : σ → ι → Option σ

namespace TransitionSystem

/-- Runs on fixed inputs name one or two agents by numerals. -/
instance neZero_one : NeZero 1 := ⟨by decide⟩

@[inherit_doc neZero_one] instance neZero_two : NeZero 2 := ⟨by decide⟩

variable {σ ι η : Type*} {S : TransitionSystem σ ι} {C : σ → ι → Prop}

/-- States reached from an initial state by steps that all meet `C`. -/
inductive ReachableBy (S : TransitionSystem σ ι) (C : σ → ι → Prop) : σ → Prop
  | init {s : σ} : S.init s → ReachableBy S C s
  | step {s s' : σ} {i : ι} :
      ReachableBy S C s → C s i → S.step s i = some s' → ReachableBy S C s'

/-- States reached from an initial state by any steps. -/
def Reachable (S : TransitionSystem σ ι) : σ → Prop :=
  S.ReachableBy fun _ _ => True

/-- The invariant rule. The step case may use that the pre-state is reachable. -/
theorem ReachableBy.induct {P : σ → Prop} (hinit : ∀ s, S.init s → P s)
    (hstep : ∀ s i s', S.ReachableBy C s → P s → C s i → S.step s i = some s' → P s')
    {s : σ} (h : S.ReachableBy C s) : P s := by
  induction h with
  | init h0 => exact hinit _ h0
  | step hr hc hs ih => exact hstep _ _ _ hr ih hc hs

variable {s s' : σ}

theorem Reachable.next {i : ι} (h : S.Reachable s) (hs : S.step s i = some s') :
    S.Reachable s' :=
  ReachableBy.step h trivial hs

/-! ## Executing a list of inputs -/

/-- Run the inputs in order; `none` as soon as one of them is not enabled. -/
def run (S : TransitionSystem σ ι) (s : σ) : List ι → Option σ
  | [] => some s
  | i :: is => (S.step s i).bind fun s' => S.run s' is

variable {is : List ι}

/-- A run whose inputs all meet `C`, whatever the state. -/
theorem reachableBy_run (h : S.ReachableBy C s)
    (hC : ∀ i ∈ is, ∀ s, C s i) (hr : S.run s is = some s') : S.ReachableBy C s' := by
  induction is generalizing s with
  | nil =>
    simp only [run, Option.some.injEq] at hr
    exact hr ▸ h
  | cons i is ih =>
    simp only [run] at hr
    cases hs : S.step s i with
    | none => simp [hs] at hr
    | some t =>
      rw [hs, Option.bind_some] at hr
      exact ih (h.step (hC i List.mem_cons_self s) hs) (fun j hj => hC j (List.mem_cons_of_mem i hj)) hr

theorem reachable_run (h : S.Reachable s) (hr : S.run s is = some s') : S.Reachable s' :=
  reachableBy_run h (fun _ _ _ => trivial) hr

/-- Run the inputs in order; `none` as soon as a step is not enabled or does not meet `C`. -/
def runBy (S : TransitionSystem σ ι) (C : σ → ι → Prop) [∀ s i, Decidable (C s i)] (s : σ) :
    List ι → Option σ
  | [] => some s
  | i :: is => if C s i then (S.step s i).bind fun s' => S.runBy C s' is else none

/-- The condition of a run may say more than the one that is tested. -/
theorem reachableBy_runBy_of {C' : σ → ι → Prop} [∀ s i, Decidable (C s i)]
    (h : S.ReachableBy C' s) (hC : ∀ i ∈ is, ∀ s, C s i → C' s i) (hr : S.runBy C s is = some s') :
    S.ReachableBy C' s' := by
  induction is generalizing s with
  | nil =>
    simp only [runBy, Option.some.injEq] at hr
    exact hr ▸ h
  | cons i is ih =>
    simp only [runBy] at hr
    split at hr
    · rename_i hc
      cases hs : S.step s i with
      | none => simp [hs] at hr
      | some t =>
        rw [hs, Option.bind_some] at hr
        exact ih (h.step (hC i List.mem_cons_self s hc) hs)
          (fun j hj => hC j (List.mem_cons_of_mem i hj)) hr
    · cases hr

theorem reachableBy_runBy [∀ s i, Decidable (C s i)]
    (h : S.ReachableBy C s) (hr : S.runBy C s is = some s') : S.ReachableBy C s' :=
  reachableBy_runBy_of h (fun _ _ _ hc => hc) hr

/-- A fact about the last state of a run on fixed inputs. -/
theorem exists_reachable_of_run {β : Type*} {f : σ → β} {b : β}
    (hr : (S.run s is).map f = some b) (h : S.init s) : ∃ s', S.Reachable s' ∧ f s' = b := by
  obtain ⟨s', hs, hb⟩ := Option.map_eq_some_iff.mp hr
  exact ⟨s', reachable_run (.init h) hs, hb⟩

@[inherit_doc exists_reachable_of_run]
theorem exists_reachableBy_of_runBy {β : Type*} [∀ s i, Decidable (C s i)] {f : σ → β} {b : β}
    (hr : (S.runBy C s is).map f = some b) (h : S.init s) :
    ∃ s', S.ReachableBy C s' ∧ f s' = b := by
  obtain ⟨s', hs, hb⟩ := Option.map_eq_some_iff.mp hr
  exact ⟨s', reachableBy_runBy (.init h) hs, hb⟩

/-! ## History variables -/

/-- `S` together with a history variable: `obs` reads the state and the input of every
    step and updates the history, which the steps of `S` never see. -/
def observe (S : TransitionSystem σ ι) (h₀ : η) (obs : σ → ι → η → η) : TransitionSystem (σ × η) ι where
  init x := S.init x.1 ∧ x.2 = h₀
  step x i := (S.step x.1 i).map fun s' => (s', obs x.1 i x.2)

variable {h₀ : η} {obs : σ → ι → η → η}

@[simp] theorem observe_init (x : σ × η) :
    (S.observe h₀ obs).init x ↔ S.init x.1 ∧ x.2 = h₀ := Iff.rfl

/-- A step of the observed system is a step of `S` with the history updated. -/
theorem observe_step {x y : σ × η} {i : ι} :
    (S.observe h₀ obs).step x i = some y ↔
      S.step x.1 i = some y.1 ∧ y.2 = obs x.1 i x.2 := by
  simp only [observe, Option.map_eq_some_iff]
  constructor
  · rintro ⟨s', hs, rfl⟩
    exact ⟨hs, rfl⟩
  · rintro ⟨hs, hy⟩
    exact ⟨y.1, hs, by rw [← hy]⟩

/-- Forgetting the history of an observed run gives a run of `S`, under what its condition says
    about the state alone. -/
theorem reachableBy_of_observe {C : σ × η → ι → Prop} {C' : σ → ι → Prop}
    (hC : ∀ x i, C x i → C' x.1 i) {x : σ × η} (h : (S.observe h₀ obs).ReachableBy C x) :
    S.ReachableBy C' x.1 := by
  induction h with
  | init h0 => exact .init h0.1
  | step _ hc hs ih => exact ih.step (hC _ _ hc) (observe_step.mp hs).1

/-- Forgetting the history of an observed run gives a run of `S`. -/
theorem reachable_of_observe {C : σ × η → ι → Prop} {x : σ × η}
    (h : (S.observe h₀ obs).ReachableBy C x) : S.Reachable x.1 :=
  reachableBy_of_observe (fun _ _ _ => trivial) h

/-- Every run of `S` is the projection of an observed run. -/
theorem exists_observe (h : S.Reachable s) :
    ∃ x, (S.observe h₀ obs).Reachable (s, x) := by
  induction h with
  | init h0 => exact ⟨h₀, .init ⟨h0, rfl⟩⟩
  | step _ _ hs ih =>
    obtain ⟨x, hx⟩ := ih
    exact ⟨obs _ _ x, hx.next (observe_step.mpr ⟨hs, rfl⟩)⟩

end TransitionSystem
