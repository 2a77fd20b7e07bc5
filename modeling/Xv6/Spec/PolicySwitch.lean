import Xv6.Spec.SchedulerNesting

/-!
# A change of policy takes effect promptly

A scheduler loop tests `policy` at the end of every round, so between two dispatches of a hart
there is a test, and the test calls the loop of the policy in force. After `set_policy` the
innermost loop of a hart may still be before its dispatch (`LoopPc.tests` is false): this is the
one dispatch that another loop can make.
-/

namespace Xv6

open TransitionSystem

variable {n : Nat}

/-! ## The innermost loop -/

def Frame.loopAt : Frame → Option (Loop × LoopPc)
  | .scheduler l pc => some (l, pc)
  | _ => none

/-- The innermost active loop of a stack. -/
def innermost (stk : List Frame) : Option (Loop × LoopPc) := stk.findSome? Frame.loopAt

/-- The loop tests `policy` before its next dispatch. -/
def LoopPc.tests : LoopPc → Bool
  | back _ | rescan _ _ _ | test _ _ => true
  | enter _ _ | start _ | visit _ _ => false

/-- The innermost loop is the one of the policy, or tests it before it dispatches. -/
def Prompt (m : Mem) (stk : List Frame) : Prop :=
  ∃ l pc, innermost stk = some (l, pc) ∧ (scheduler m.policy = some l ∨ pc.tests = true)

theorem Prompt.congr {m m' : Mem} {stk : List Frame} (hm : m'.policy = m.policy) (h : Prompt m stk) :
    Prompt m' stk := by
  unfold Prompt at h ⊢
  rwa [hm]

theorem innermost_append_of_loops {fs : List Frame} (h : loops fs = []) (rest : List Frame) :
    innermost (fs ++ rest) = innermost rest := by
  have hnil : fs.findSome? Frame.loopAt = none := by
    refine List.findSome?_eq_none_iff.mpr fun g hg => ?_
    have hloop := List.filterMap_eq_nil_iff.mp h g hg
    cases g with
    | scheduler l pc => cases hloop
    | _ => rfl
  simp [innermost, List.findSome?_append, hnil]

/-- A loop that is the one of the policy, or tests it next, stays so or calls the one that
    is. -/
theorem schedulerStep_prompt {m : Mem} {l l' : Loop} {pc : LoopPc} (hv : scheduler m.policy = some l')
    (h : scheduler m.policy = some l ∨ pc.tests = true) (rest : List Frame) :
    Prompt m ((schedulerStep m l pc).frames ++ rest) := by
  have keep (pc' : LoopPc) (hpc : pc.tests = true → pc'.tests = true) :
      Prompt m (.scheduler l pc' :: rest) := ⟨l, pc', rfl, h.imp_right hpc⟩
  cases pc with
  | enter i mn =>
    exact forSlot_ind (P := fun e : Effect => Prompt m (e.frames ++ rest))
      (fun q _ => keep _ (fun h => by cases h)) (fun _ => keep _ (fun h => by cases h))
  | start mn => exact keep _ (fun h => by cases h)
  | visit p mn =>
    simp only [schedulerStep]
    split <;> exact keep _ (fun h => by cases h)
  | back p => cases l <;> exact keep _ (fun _ => rfl)
  | rescan p i mn =>
    exact forSlot_ind (P := fun e : Effect => Prompt m (e.frames ++ rest))
      (fun q _ => keep _ (fun _ => rfl)) (fun _ => keep _ (fun _ => rfl))
  | test p mn =>
    simp only [schedulerStep]
    split
    · rename_i l'' hcall
      exact ⟨l'', _, rfl, .inl (callee_eq_some hcall).1⟩
    · rename_i hcall
      obtain rfl := callee_eq_none hcall hv
      exact ⟨l', _, rfl, .inl hv⟩

/-- A dispatch is made by the innermost frame, a loop that then tests `policy`. -/
theorem effect_dispatch {m : Mem} {me : Option Slot} {f : Frame} {i : Input} {e : Effect} {p : Slot}
    (hr : Ready m me f) (he : f.effect m me i = some e) (hop : e.op = .dispatch p) :
    ∃ l mn, f = .scheduler l (.visit p mn) ∧ e.frames = [.scheduler l (.back p)] := by
  have hspec := effect_opSpec he
  rw [hop] at hspec
  have hsw := (effect_frameSpec hr he).switch
  rw [hspec.2.2] at hsw
  obtain ⟨⟨l, mn, rfl⟩, -, -, -⟩ := hsw
  cases he
  simp only [schedulerStep] at hop ⊢
  split at hop
  · rename_i hsel
    exact ⟨l, mn, rfl, by simp [hsel]⟩
  · cases hop

/-! ## History -/

/-- The loops that dispatched a process on each hart since `policy` was last stored, in order. -/
def recordDispatch (c : Fin n) (stk : List Frame) (h : Fin n → List Loop) : Op → Fin n → List Loop
  | .setPolicy _ => fun _ => []
  | .dispatch _ => upd h c (h c ++ (loops stk).take 1)
  | _ => h

/-- The kernel together with the dispatches of every hart. -/
def dispatchLog (n : Nat) : TransitionSystem (State n × (Fin n → List Loop)) (Fin n × Input) :=
  (kernel n).observe (fun _ => []) fun s x h => recordDispatch x.1 (s.cur x.1) h (s.op x)

/-- All dispatches since the change of policy but the first are made by the loop of the policy,
    and after the first one the hart tests `policy` before the next. -/
structure Switched (s : State n) (h : Fin n → List Loop) : Prop where
  valid : ∀ t, loops (s.stack t) ≠ [] → ∃ l, scheduler s.mem.policy = some l
  tail : ∀ c, ∀ l ∈ (h c).tail, scheduler s.mem.policy = some l
  prompt : ∀ c, h c ≠ [] → Prompt s.mem (s.stack (.sched c))

section

variable {s : State n} {c : Fin n} {i : Input} {rest : List Frame} {e : Effect}
variable {h : Fin n → List Loop}

/-- The loops on the stack of the hart that makes the step: as before, or the loop of the policy
    is among them. -/
theorem Planned.loops_next (hp : Planned s c i rest e) :
    loops (e.frames ++ rest) = loops (s.cur c) ∨ ∃ l, scheduler s.mem.policy = some l := by
  have htrap (fs : List Frame) (hfs : ∀ g ∈ fs, g.handler = true) :
      loops (fs ++ s.cur c) = loops (s.cur c) := by
    rw [loops_append, loops_of_handler hfs]
    rfl
  cases hp with
  | user p fs hr hc hfs => exact .inl (htrap fs (userEntry_spec p hfs).1)
  | kernel fs hne hlock hfs hoff => exact .inl (htrap fs (kernelEntry_spec (s.running c) hfs).1)
  | exec f rest e hc he hk =>
    cases effect_loops he with
    | keep h =>
      rw [hc, loops_append, h, ← loops_append]
      exact .inl rfl
    | main l hf hl h => exact .inr ⟨l, hl⟩
    | call l l' hf hl hne h => exact .inr ⟨l', hl⟩

/-- The stack of the hart that makes the step stays prompt. -/
theorem Planned.prompt_next (hp : Planned s c i rest e) {l : Loop}
    (hv : scheduler s.mem.policy = some l) (hcur : Prompt s.mem (s.cur c)) :
    Prompt s.mem (e.frames ++ rest) := by
  have keep (fs : List Frame) (hfs : loops fs = []) (hrest : Prompt s.mem rest) :
      Prompt s.mem (fs ++ rest) := by
    obtain ⟨l, pc, hin, h⟩ := hrest
    exact ⟨l, pc, by rw [innermost_append_of_loops hfs, hin], h⟩
  cases hp with
  | user p fs hr hc hfs => exact keep fs (loops_of_handler (userEntry_spec p hfs).1) hcur
  | kernel fs hne hlock hfs hoff =>
    exact keep fs (loops_of_handler (kernelEntry_spec (s.running c) hfs).1) hcur
  | exec f rest e hc he hk =>
    rw [hc] at hcur
    cases f with
    | scheduler l pc =>
      cases he
      obtain ⟨l, pc, hin, h⟩ := hcur
      cases hin
      exact schedulerStep_prompt hv h rest
    | main =>
      simp only [Frame.effect, Option.map_eq_some_iff] at he
      obtain ⟨l, hl, rfl⟩ := he
      exact ⟨l, _, rfl, .inl hl⟩
    | _ =>
      cases effect_loops he with
      | keep hfs => exact keep _ hfs hcur
      | main l hf hl h => cases hf
      | call l l' hf hl hne h => cases hf

/-- The hart of a prompt stack runs a loop, so there is a loop for the policy. -/
theorem Switched.valid_of_prompt (hh : Switched s h) {t : Thread n} (ht : Prompt s.mem (s.stack t)) :
    ∃ l, scheduler s.mem.policy = some l := by
  refine hh.valid t fun hnil => ?_
  obtain ⟨l, pc, hin, -⟩ := ht
  have := innermost_append_of_loops hnil []
  rw [List.append_nil, hin] at this
  cases this

/-- Hart `c` dispatches a process. -/
theorem Switched.dispatch (hi : Inv s) (hh : Switched s h) (hp : Planned s c i rest e) {p : Slot}
    (hop : e.op = .dispatch p) :
    (∀ l ∈ (h c ++ (loops (s.cur c)).take 1).tail, scheduler s.mem.policy = some l) ∧
      Prompt s.mem ((s.commit c rest e).stack (.sched c)) := by
  obtain ⟨f, hc, he⟩ := hp.exec_of_op (by simp [hop])
  obtain ⟨l, mn, rfl, hfs⟩ := effect_dispatch (hi.ready hc) he hop
  have hr : s.running c = .sched c := by
    have hwf := (hi.runs hc).1
    cases hr : s.running c with
    | proc q =>
      rw [hr] at hwf
      exact hwf.elim
    | sched d => rw [hi.own c d hr]
  have hstk := hi.commit_stack_running hp c
  rw [if_pos rfl, hr, hfs] at hstk
  refine ⟨fun l' hl' => ?_, by rw [hstk]; exact ⟨l, _, rfl, .inr rfl⟩⟩
  have htake : (loops (s.cur c)).take 1 = [l] := by rw [hc]; rfl
  rw [htake] at hl'
  cases hds : h c with
  | nil =>
    rw [hds] at hl'
    cases hl'
  | cons d ds =>
    rw [hds, List.cons_append, List.tail_cons] at hl'
    rcases List.mem_append.mp hl' with hl' | hl'
    · exact hh.tail c l' (by rw [hds]; exact hl')
    · -- not the first dispatch, and the loop has not tested `policy` since it entered the round
      obtain ⟨l₀, pc, hin, hor⟩ := hh.prompt c (by rw [hds]; simp)
      rw [← hr, ← State.cur, hc] at hin
      cases hin
      rw [List.mem_singleton.mp hl']
      exact hor.resolve_right (by simp [LoopPc.tests])

theorem recordDispatch_of_ne {stk : List Frame} {op : Op} {d : Fin n}
    (hset : ∀ k, op ≠ .setPolicy k) (hdis : d = c → ∀ p, op ≠ .dispatch p) :
    recordDispatch c stk h op d = h d := by
  cases op with
  | setPolicy k => exact absurd rfl (hset k)
  | dispatch p =>
    by_cases hd : d = c
    · exact absurd rfl (hdis hd p)
    · exact upd_of_ne hd _
  | _ => rfl

theorem Switched.commit (hi : Inv s) (hh : Switched s h) (hp : Planned s c i rest e) :
    Switched (s.commit c rest e) (recordDispatch c (s.cur c) h e.op) := by
  by_cases hset : ∃ k, e.op = .setPolicy k
  · obtain ⟨k, hop⟩ := hset
    obtain ⟨f, hc, -, hspec⟩ := hp.opSpec hop (by simp)
    have hk : ∃ l, scheduler k = some l := by
      have hv := hspec.2
      simp only [validArg, decide_eq_true_eq] at hv
      rcases hv with rfl | rfl | rfl <;> exact ⟨_, rfl⟩
    rw [hop]
    refine ⟨fun t _ => ?_, fun d l hl => (nomatch hl), fun d hd => absurd rfl hd⟩
    simp only [State.commit, hop, Op.apply_policy, Op.policy]
    exact hk
  · have hset : ∀ k, e.op ≠ .setPolicy k := fun k h => hset ⟨k, h⟩
    have hpol : (s.commit c rest e).mem.policy = s.mem.policy := by
      simp only [State.commit, Op.apply_policy]
      cases hop : e.op with
      | setPolicy k => exact absurd hop (hset k)
      | _ => rfl
    have hkeep (d : Fin n) (hdis : d = c → ∀ p, e.op ≠ .dispatch p) (hd : h d ≠ []) :
        Prompt s.mem ((s.commit c rest e).stack (.sched d)) := by
      have hprompt := hh.prompt d hd
      by_cases hr : s.running c = .sched d
      · obtain rfl := hi.own c d hr
        obtain ⟨l, hv⟩ := hh.valid_of_prompt hprompt
        have hstk := hi.commit_stack_running hp d
        rw [if_pos rfl, hr] at hstk
        rw [hstk]
        rw [← hr] at hprompt
        exact hp.prompt_next hv hprompt
      · rw [State.commit_stack_sched hr]
        exact hprompt
    refine ⟨?_, fun d => ?_, fun d hd => Prompt.congr hpol ?_⟩
    · rw [hpol]
      refine State.commit_stack_ind
        (P := fun _ stk => loops stk ≠ [] → ∃ l, scheduler s.mem.policy = some l)
        (fun np hnil => absurd rfl hnil) (fun hne => ?_) hh.valid
      rcases hp.loops_next with heq | hv
      · exact hh.valid (s.running c) (heq ▸ hne)
      · exact hv
    · rw [hpol]
      by_cases hdis : d = c ∧ ∃ p, e.op = .dispatch p
      · obtain ⟨rfl, p, hop⟩ := hdis
        rw [hop]
        simp only [recordDispatch, upd_self]
        exact (hh.dispatch hi hp hop).1
      · rw [recordDispatch_of_ne hset fun hd p hop => hdis ⟨hd, p, hop⟩]
        exact hh.tail d
    · by_cases hdis : d = c ∧ ∃ p, e.op = .dispatch p
      · obtain ⟨rfl, p, hop⟩ := hdis
        exact (hh.dispatch hi hp hop).2
      · have hne : d = c → ∀ p, e.op ≠ .dispatch p := fun hd p hop => hdis ⟨hd, p, hop⟩
        rw [recordDispatch_of_ne hset hne] at hd
        exact hkeep d hne hd

end

/-! ## Runs -/

theorem switched_boot (b : Boot) : Switched (State.boot n b) fun _ => [] := by
  refine ⟨fun t hne => ?_, fun c l hl => (nomatch hl), fun c hc => absurd rfl hc⟩
  refine absurd (loops_of_fn fun g hg hfn => ?_) hne
  cases t with
  | sched c =>
    rw [List.mem_singleton.mp hg] at hfn
    cases hfn
  | proc p =>
    rw [mem_boot_stack hg] at hfn
    cases hfn

theorem switched_reachable {x : State n × (Fin n → List Loop)} (hr : (dispatchLog n).Reachable x) :
    Switched x.1 x.2 := by
  refine ReachableBy.induct (P := fun x => Switched x.1 x.2) ?_ ?_ hr
  · rintro ⟨s, h⟩ ⟨⟨b, rfl⟩, rfl⟩
    exact switched_boot b
  · intro x i y hx hh _ hs
    obtain ⟨hs, hy⟩ := observe_step.mp hs
    have hi := inv_reachable (reachable_of_observe hx)
    obtain ⟨rest, e, hp, -, hop, hs'⟩ := hi.step_commit hs
    rw [hy, hs', hop]
    exact hh.commit hi hp

/-- Hart 0 dispatches the first process, which sets the policy to 2 and yields when a timer
    interrupt comes; the hart then enters `schedulerCFS` and dispatches the process again. -/
def switchRun : List (Fin 1 × Input) :=
  List.replicate 5 (0, .run) ++ (0, .syscall (.setPolicy 2)) :: List.replicate 4 (0, .run) ++
    (0, .timer) :: List.replicate 270 (0, .run)

end Xv6
