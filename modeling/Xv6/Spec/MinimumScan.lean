import Xv6.ForStd.ScanMin
import Xv6.Spec.PolicySwitch

/-!
# The minimum that a scheduler loop looks for

`find_minimum` and `minimum_vruntime` start with `minimum = -1` and take -1 to mean that no process
was found yet. Accumulators are arbitrary integers, since `set_ps_priority` accepts every value, and
`check_vruntime` is -1 for some counters whose sum overflows. So a process with the value -1 is
forgotten when a later slot is `RUNNABLE` too (`Hides`).

* `picksMinimum_iff`: on a table that does not change, the loop finds the least value and
  switches to a process that has it exactly if no process is hidden.
* `fresh_sameTable`: as long as the table stays as it is, what a loop has in `minimum` is the minimum of that
  table.
-/

namespace Xv6

variable {n : Nat}

namespace Loop

variable {l : Loop} {T : Slot → Proc}

/-- `find_minimum` and `minimum_vruntime` before slot `i`, on a table that does not change. -/
def scanTo (l : Loop) (T : Slot → Proc) (i : Nat) : Int :=
  ((List.finRange NPROC).take i).foldl (fun m q => l.minimum (T q) m) (-1)

/-- The result of `find_minimum` and `minimum_vruntime` on a table that does not change. -/
def scan (l : Loop) (T : Slot → Proc) : Int := l.scanTo T NPROC

/-- The values of the `RUNNABLE` processes. -/
def values (l : Loop) (T : Slot → Proc) : Set Int :=
  { k | ∃ z, (T z).state = .runnable ∧ l.key (T z) = k }

/-- The loop finds the least value, and the processes that it may switch to have no greater value
    than any `RUNNABLE` process. -/
structure PicksMinimum (l : Loop) (T : Slot → Proc) : Prop where
  least : IsLeast (l.values T) (l.scan T)
  pick : ∀ p, l.selects (T p) (l.scan T) = true →
    ∀ z, (T z).state = .runnable → l.key (T p) ≤ l.key (T z)

/-- The least value is -1, and the last `RUNNABLE` process has another one. -/
def Hides (l : Loop) (T : Slot → Proc) : Prop :=
  IsLeast (l.values T) (-1) ∧
    ∃ z, (T z).state = .runnable ∧ l.key (T z) ≠ -1 ∧ ∀ y, z < y → (T y).state ≠ .runnable

/-! ## The scan as a list of values -/

/-- The `RUNNABLE` slots in the order of the table. -/
def ready (T : Slot → Proc) : List Slot := (List.finRange NPROC).filter fun q => (T q).state = .runnable

theorem mem_ready {z : Slot} : z ∈ ready T ↔ (T z).state = .runnable := by
  simp [ready]

theorem mem_values_iff {k : Int} : k ∈ (ready T).map (fun q => l.key (T q)) ↔ k ∈ l.values T := by
  simp [values, mem_ready]

theorem scan_eq_scanMin : l.scan T = scanMin (-1) ((ready T).map fun q => l.key (T q)) := by
  rw [scan, scanTo, List.take_of_length_le (by simp), scanMin, List.foldl_map, ready, List.foldl_filter]
  congr 1
  funext m q
  simp only [minimum, scanStep, decide_eq_true_eq]
  by_cases hq : (T q).state = .runnable
  · simp [hq]
  · simp [hq]

/-- The last `RUNNABLE` slot. -/
theorem le_getLast_ready (hne : ready T ≠ []) {y : Slot} (hy : y ∈ ready T) :
    y ≤ (ready T).getLast hne := by
  have hsorted : (ready T).Pairwise (· < ·) := (List.pairwise_lt_finRange NPROC).filter _
  rw [← List.dropLast_concat_getLast hne] at hsorted hy
  rcases List.mem_append.mp hy with hy | hy
  · exact ((List.pairwise_append.mp hsorted).2.2 y hy _ (List.mem_singleton.mpr rfl)).le
  · exact (List.mem_singleton.mp hy).le

theorem hides_iff (hne : ready T ≠ []) :
    l.Hides T ↔ IsLeast (l.values T) (-1) ∧ l.key (T ((ready T).getLast hne)) ≠ -1 := by
  refine and_congr_right fun _ => ⟨?_, fun hk => ?_⟩
  · rintro ⟨z, hz, hk, hlast⟩
    have hle := le_getLast_ready hne (mem_ready.mpr hz)
    have hrun := mem_ready.mp ((ready T).getLast_mem hne)
    rcases hle.lt_or_eq with hlt | heq
    · exact absurd hrun (hlast _ hlt)
    · rwa [← heq]
  · refine ⟨(ready T).getLast hne, mem_ready.mp ((ready T).getLast_mem hne), hk, fun y hlt hy => ?_⟩
    exact absurd (le_getLast_ready hne (mem_ready.mpr hy)) (not_le.mpr hlt)

/-- The scan returns the least value exactly if no process is hidden. -/
theorem isLeast_scan_iff (hr : ∃ z, (T z).state = .runnable) :
    IsLeast (l.values T) (l.scan T) ↔ ¬ l.Hides T := by
  obtain ⟨z, hz⟩ := hr
  have hne : ready T ≠ [] := List.ne_nil_of_mem (mem_ready.mpr hz)
  have hmap : (ready T).map (fun q => l.key (T q)) ≠ [] := fun h => hne (List.map_eq_nil_iff.mp h)
  have hset : { b | b ∈ (ready T).map fun q => l.key (T q) } = l.values T :=
    Set.ext fun _ => mem_values_iff
  have h := scanMin_isLeast_iff (x := (-1 : Int)) hmap
  rw [hset, ← scan_eq_scanMin, List.getLast_map] at h
  rw [h, hides_iff hne]

/-- A process that passes the test of the loop has the least value. -/
theorem pick_of_isLeast (hl : l ≠ .old) (h : IsLeast (l.values T) (l.scan T)) (p : Slot)
    (hp : l.selects (T p) (l.scan T) = true) (z : Slot) (hz : (T z).state = .runnable) :
    l.key (T p) ≤ l.key (T z) := by
  simp only [selects, decide_eq_true_eq] at hp
  exact (hp.2.resolve_left hl).trans (h.2 ⟨z, hz, rfl⟩)

theorem picksMinimum_iff (hl : l ≠ .old) (hr : ∃ z, (T z).state = .runnable) :
    l.PicksMinimum T ↔ ¬ l.Hides T := by
  rw [← isLeast_scan_iff hr]
  exact ⟨fun h => h.least, fun h => ⟨h, pick_of_isLeast hl h⟩⟩

theorem scanTo_succ (q : Slot) : l.scanTo T (q + 1) = l.minimum (T q) (l.scanTo T q) := by
  have hlen : q.val < (List.finRange NPROC).length := by simp
  rw [scanTo, scanTo, ← List.take_concat_get' _ _ hlen, List.foldl_append]
  simp

theorem scanTo_of_le {i : Nat} (hi : NPROC ≤ i) : l.scanTo T i = l.scan T := by
  rw [scan, scanTo, scanTo, List.take_of_length_le (by simpa using hi), List.take_of_length_le (by simp)]

end Loop

/-! ## A table that stays as it is -/

/-- What the loop has in `minimum` is what a scan of the table `T` gives. -/
def LoopPc.Fresh (l : Loop) (T : Slot → Proc) (pc : LoopPc) : Prop :=
  l = .old ∨
    match pc with
    | enter i m | rescan _ i m => m = l.scanTo T i
    | start m | visit _ m | test _ m => m = l.scan T
    | back _ => True

/-- The loop is about to call `find_minimum` or `minimum_vruntime`. -/
def LoopPc.scans (pc : LoopPc) : Prop := pc = .enter 0 (-1) ∨ ∃ p, pc = .rescan p 0 (-1)

theorem LoopPc.scans.fresh {pc : LoopPc} (h : pc.scans) (l : Loop) (T : Slot → Proc) : pc.Fresh l T := by
  rcases h with rfl | ⟨p, rfl⟩
  · exact .inr rfl
  · exact .inr rfl

/-- The innermost loop of a stack is fresh. -/
def FreshStack (T : Slot → Proc) (stk : List Frame) : Prop :=
  ∃ l pc, innermost stk = some (l, pc) ∧ pc.Fresh l T

/-- A loop goes on with the minimum of the table that it reads. -/
theorem schedulerStep_fresh {m : Mem} {l : Loop} {pc : LoopPc} (h : pc.Fresh l m.proc)
    (rest : List Frame) : FreshStack m.proc ((schedulerStep m l pc).frames ++ rest) := by
  have round (p : Slot) : FreshStack m.proc (.scheduler l (l.afterRound p) :: rest) := by
    refine ⟨l, _, rfl, ?_⟩
    cases l with
    | old => exact .inl rfl
    | priority | cfs => exact .inr rfl
  -- the loop that the test of `policy` calls starts with a scan
  have call (l' : Loop) (fs : List Frame) : FreshStack m.proc (.scheduler l' l'.entry :: fs) := by
    refine ⟨l', _, rfl, ?_⟩
    cases l' with
    | old => exact .inl rfl
    | priority | cfs => exact .inr rfl
  cases pc with
  | enter i mn | rescan p i mn =>
    refine forSlot_ind (P := fun e : Effect => FreshStack m.proc (e.frames ++ rest))
      (fun q hq => ⟨l, _, rfl, h.imp_right fun hmn => ?_⟩)
      (fun hi => ⟨l, _, rfl, h.imp_right fun hmn => ?_⟩)
    · show l.minimum (m.proc q) mn = l.scanTo m.proc (i + 1)
      rw [← hq, Loop.scanTo_succ, hq, ← show mn = l.scanTo m.proc i from hmn]
    · exact (show mn = l.scanTo m.proc i from hmn).trans (Loop.scanTo_of_le hi)
  | start mn => exact ⟨l, _, rfl, h⟩
  | visit p mn =>
    simp only [schedulerStep]
    split
    · exact ⟨l, _, rfl, .inr trivial⟩
    · exact round p
  | back p => exact round p
  | test p mn =>
    simp only [schedulerStep]
    split
    · exact call _ _
    · exact ⟨l, _, rfl, h⟩

section

variable {s s' : State n} {c : Fin n} {i : Input} {rest : List Frame} {e : Effect}

/-- A step of the hart keeps its innermost loop fresh. -/
theorem Planned.fresh_next (hp : Planned s c i rest e) (hcur : FreshStack s.mem.proc (s.cur c)) :
    FreshStack s.mem.proc (e.frames ++ rest) := by
  have keep (fs : List Frame) (hfs : loops fs = []) (hrest : FreshStack s.mem.proc rest) :
      FreshStack s.mem.proc (fs ++ rest) := by
    obtain ⟨l, pc, hin, h⟩ := hrest
    exact ⟨l, pc, by rw [innermost_append_of_loops hfs, hin], h⟩
  cases hp with
  | user p fs hr hc hfs => exact keep fs (loops_of_handler (userEntry_spec p hfs).1) hcur
  | kernel fs hne hlock hfs hoff =>
    exact keep fs (loops_of_handler (kernelEntry_spec (s.running c) hfs).1) hcur
  | exec f rest e hc he hk =>
    rw [hc] at hcur
    cases f with
    | scheduler l pc =>
      cases he
      obtain ⟨l, pc, hin, h⟩ := hcur
      cases hin
      exact schedulerStep_fresh h rest
    | main =>
      simp only [Frame.effect, Option.map_eq_some_iff] at he
      obtain ⟨l, hl, rfl⟩ := he
      refine ⟨l, _, rfl, ?_⟩
      cases l with
      | old => exact .inl rfl
      | priority | cfs => exact .inr rfl
    | _ =>
      cases effect_loops he with
      | keep hfs => exact keep _ hfs hcur
      | main l hf hl h => cases hf
      | call l l' hf hl hne h => cases hf

/-- A step that leaves the process table as it is. -/
def SameTable (s s' : State n) : Prop :=
  (∃ x, (kernel n).step s x = some s') ∧ s'.mem.proc = s.mem.proc

/-- While the table stays as it is, the innermost loop of a hart stays fresh. -/
theorem fresh_sameTable {s₀ s₁ : State n} (hi : Inv s₀) (c : Fin n)
    (hfresh : FreshStack s₀.mem.proc (s₀.stack (.sched c)))
    (hrun : Relation.ReflTransGen SameTable s₀ s₁) :
    Inv s₁ ∧ s₁.mem.proc = s₀.mem.proc ∧ FreshStack s₀.mem.proc (s₁.stack (.sched c)) := by
  induction hrun with
  | refl => exact ⟨hi, rfl, hfresh⟩
  | @tail s _ _ hq ih =>
    obtain ⟨hi, htab, hfresh⟩ := ih
    obtain ⟨⟨x, hs⟩, hsame⟩ := hq
    refine ⟨hi.step hs, hsame.trans htab, ?_⟩
    obtain ⟨rest, e, hp, -, -, rfl⟩ := hi.step_commit hs
    by_cases hr : s.running x.1 = .sched c
    · obtain rfl := hi.own x.1 c hr
      have hstk := hi.commit_stack_running hp x.1
      rw [if_pos rfl, hr] at hstk
      rw [hstk]
      rw [← hr, ← htab] at hfresh
      rw [← htab]
      exact hp.fresh_next hfresh
    · rw [State.commit_stack_sched hr]
      exact hfresh

/-- A loop that has scanned a table which has not changed since switches to a process only if that
    passes the test with the minimum of the table. -/
theorem selects_of_dispatch {l : Loop} {s₀ s₁ : State n} {p : Slot} {pc : LoopPc} {mn : Int}
    (hr : (kernel n).Reachable s₀) (hscan : innermost (s₀.stack (.sched c)) = some (l, pc))
    (hpc : pc.scans) (hrun : Relation.ReflTransGen SameTable s₀ s₁)
    (hcur : s₁.cur c = .scheduler l (.visit p mn) :: rest) (hop : s₁.op (c, i) = .dispatch p)
    (hl : l ≠ .old) : l.selects (s₀.mem.proc p) (l.scan s₀.mem.proc) = true := by
  obtain ⟨hi, htab, l', pc', hin, hfresh⟩ :=
    fresh_sameTable (inv_reachable hr) c ⟨l, pc, hscan, hpc.fresh l _⟩ hrun
  have hsched : s₁.running c = .sched c := by
    have hwf := (hi.runs hcur).1
    cases hrun : s₁.running c with
    | proc q =>
      rw [hrun] at hwf
      exact hwf.elim
    | sched d => rw [hi.own c d hrun]
  rw [← hsched, ← State.cur, hcur] at hin
  cases hin
  rw [← show mn = l.scan s₀.mem.proc from hfresh.resolve_left hl, ← htab]
  -- the step of the loop is the one at `.visit p mn`
  unfold State.op at hop
  split at hop
  · cases hop
  · rename_i rest' e hplan
    split at hop
    · cases hop
    · obtain ⟨f, hc, he⟩ := (planned_of_plan hplan).exec_of_op (by rw [hop]; rintro ⟨⟩)
      rw [hcur] at hc
      cases hc
      cases he
      simp only [schedulerStep] at hop
      split at hop
      · assumption
      · cases hop

end

/-- In some run a hart has scanned the table `T`, and before anything in the table has changed its
    loop `l` switches to process `p`. -/
def Switches (l : Loop) (T : Slot → Proc) (p : Slot) : Prop :=
  ∃ (n : Nat) (c : Fin n) (s₀ s₁ : State n) (pc : LoopPc) (i : Input) (mn : Int) (rest : List Frame),
    (kernel n).Reachable s₀ ∧ s₀.mem.proc = T ∧
    innermost (s₀.stack (.sched c)) = some (l, pc) ∧ pc.scans ∧ Relation.ReflTransGen SameTable s₀ s₁ ∧
    s₁.cur c = .scheduler l (.visit p mn) :: rest ∧ s₁.op (c, i) = .dispatch p

/-- With no process hidden, the process that a loop switches to has the least value. -/
theorem least_of_switches {l : Loop} {T : Slot → Proc} (hl : l ≠ .old) (hhide : ¬ l.Hides T)
    (p : Slot) (hp : Switches l T p) (z : Slot) (hz : (T z).state = .runnable) :
    l.key (T p) ≤ l.key (T z) := by
  obtain ⟨n, c, s₀, s₁, pc, i, mn, rest, hr, rfl, hscan, hpc, hrun, hcur, hop⟩ := hp
  have hsel := selects_of_dispatch hr hscan hpc hrun hcur hop hl
  exact ((Loop.picksMinimum_iff hl ⟨z, hz⟩).mpr hhide).pick p hsel z hz

/-! ## schedulerPriority -/

/-- `find_minimum` returns the least accumulator and `schedulerPriority` picks a process that has
    it, exactly if no `RUNNABLE` process is hidden by the -1 of its accumulator. -/
theorem schedulerPriority_minimum_iff (T : Slot → Proc) (hr : ∃ z, (T z).state = .runnable) :
    (Loop.priority.PicksMinimum T ↔ ¬ Loop.priority.Hides T) ∧
      (¬ Loop.priority.Hides T → ∀ p, Switches .priority T p →
        ∀ z, (T z).state = .runnable → (T p).accumulator ≤ (T z).accumulator) :=
  ⟨Loop.picksMinimum_iff nofun hr, least_of_switches nofun⟩

/-- Two processes with the accumulators 3 and -2. -/
theorem schedulerPriority_minimum_iff_two :
    let T : Slot → Proc :=
      upd (upd (fun _ => Proc.zero) 0 { Proc.zero with state := .runnable, accumulator := 3 }) 1
        { Proc.zero with state := .runnable, accumulator := -2 }
    Loop.priority.scan T = -2 ∧ Loop.priority.PicksMinimum T := by
  refine ⟨by decide +kernel, ((schedulerPriority_minimum_iff _ ⟨0, rfl⟩).1).mpr ?_⟩
  rintro ⟨⟨-, hleast⟩, -⟩
  have hle : (-1 : Int) ≤ -2 := hleast ⟨1, rfl, rfl⟩
  exact absurd hle (by decide)

/-- The first process sets its priority to -1 and the policy to 1, forks, and a timer interrupt makes its
    accumulator -1. It is dispatched again and sets its priority to 0, so the next timer interrupt
    leaves -1. -/
def minusOneRun : List (Fin 1 × Input) :=
  List.replicate 5 (0, .run) ++ [(0, .syscall (.setPsPriority (-1)))] ++ List.replicate 4 (0, .run) ++
    [(0, .syscall (.setPolicy 1))] ++ List.replicate 4 (0, .run) ++ [(0, .syscall .fork)] ++
    List.replicate 4 (0, .run) ++ [(0, .page 5), (0, .page 5)] ++ List.replicate 6 (0, .run) ++
    [(0, .timer)] ++ List.replicate 271 (0, .run) ++ [(0, .syscall (.setPsPriority 0))] ++
    List.replicate 4 (0, .run) ++ [(0, .timer)] ++ List.replicate 267 (0, .run)

/-- The first process is `RUNNABLE` with accumulator -1 and the child with 0. `find_minimum` returns
    0, and `schedulerPriority` switches to the child. -/
theorem find_minimum_forgets :
    ((kernel 1).run (State.boot 1 ⟨1, 2, 3, 0⟩) minusOneRun).map
      (fun s => ([(s.mem.proc 0).state, (s.mem.proc 1).state],
        [(s.mem.proc 0).accumulator, (s.mem.proc 1).accumulator, Loop.priority.scan s.mem.proc],
        loops (s.cur 0), (s.step (0, .run)).bind fun s' => s'.proc 0)) =
      some ([.runnable, .runnable], [-1, 0, 0], [.priority, .old], some 1) := by
  decide +kernel

/-! ## schedulerCFS -/

/-- The counters are not negative and their sum fits into a `long`. -/
def Proc.Small (x : Proc) : Prop :=
  0 ≤ x.rtime ∧ 0 ≤ x.retime ∧ 0 ≤ x.stime ∧ x.rtime + x.retime + x.stime < 2 ^ 63

/-- As long as the sum of the counters fits, the ratio is 0 or 1, or -1 for the division by zero. -/
theorem divLong_of_small {x : Proc} (h : x.Small) :
    divLong x.rtime (toLong (x.rtime + x.retime + x.stime)) = -1 ∨
      divLong x.rtime (toLong (x.rtime + x.retime + x.stime)) = 0 ∨
      divLong x.rtime (toLong (x.rtime + x.retime + x.stime)) = 1 := by
  obtain ⟨hr, hre, hs, hlt⟩ := h
  have hsum : toLong (x.rtime + x.retime + x.stime) = x.rtime + x.retime + x.stime :=
    Int.bmod_eq_of_le (by omega) (by omega)
  rw [hsum, divLong]
  split
  · exact .inl rfl
  · rename_i hne
    have hle : x.rtime ≤ x.rtime + x.retime + x.stime := by omega
    have hpos : 0 < x.rtime + x.retime + x.stime := by omega
    rw [Int.tdiv_eq_ediv_of_nonneg hr]
    have h0 : 0 ≤ x.rtime / (x.rtime + x.retime + x.stime) := Int.ediv_nonneg hr hpos.le
    have h1 : x.rtime / (x.rtime + x.retime + x.stime) ≤ 1 :=
      Int.ediv_le_of_le_mul hpos (by omega)
    have hcases : x.rtime / (x.rtime + x.retime + x.stime) = 0 ∨
        x.rtime / (x.rtime + x.retime + x.stime) = 1 := by omega
    rcases hcases with hq | hq
    · rw [hq]
      exact .inr (.inl rfl)
    · rw [hq]
      exact .inr (.inr rfl)

theorem checkVruntime_ne_of_small {x : Proc} (h : x.Small) : checkVruntime x ≠ -1 := by
  simp only [checkVruntime]
  rcases divLong_of_small h with hq | hq | hq <;> rw [hq] <;> split
  · decide
  · split <;> decide
  · decide
  · split <;> decide
  · decide
  · split <;> decide

/-- No process is hidden as long as no sum of counters overflows. -/
theorem not_hides_of_small {T : Slot → Proc} (h : ∀ z, (T z).state = .runnable → (T z).Small) :
    ¬ Loop.cfs.Hides T := by
  rintro ⟨⟨⟨z, hz, hkey⟩, -⟩, -⟩
  exact checkVruntime_ne_of_small (h z hz) hkey

/-- `minimum_vruntime` returns the least `check_vruntime` and `schedulerCFS` picks a process that has
    it, exactly if no `RUNNABLE` process is hidden by a value of -1. That takes a sum of counters
    that overflows. -/
theorem schedulerCFS_minimum_iff (T : Slot → Proc) (hr : ∃ z, (T z).state = .runnable) :
    (Loop.cfs.PicksMinimum T ↔ ¬ Loop.cfs.Hides T) ∧
      (¬ Loop.cfs.Hides T → ∀ p, Switches .cfs T p →
        ∀ z, (T z).state = .runnable → checkVruntime (T p) ≤ checkVruntime (T z)) ∧
      ((∀ z, (T z).state = .runnable → (T z).Small) → ¬ Loop.cfs.Hides T) :=
  ⟨Loop.picksMinimum_iff nofun hr, least_of_switches nofun, not_hides_of_small⟩

/-- Two processes with the values 100 and, for the division by zero, -125. -/
theorem schedulerCFS_minimum_iff_two :
    let T : Slot → Proc :=
      upd (upd (fun _ => Proc.zero) 0 { Proc.zero with state := .runnable, cfsPriority := 1, rtime := 7 })
        1 { Proc.zero with state := .runnable, cfsPriority := 2 }
    Loop.cfs.scan T = -125 ∧ Loop.cfs.PicksMinimum T := by
  refine ⟨by decide +kernel, ((schedulerCFS_minimum_iff _ ⟨0, rfl⟩).1).mpr ?_⟩
  rintro ⟨⟨-, hleast⟩, -⟩
  have hle : (-1 : Int) ≤ -125 := hleast ⟨1, rfl, by decide⟩
  exact absurd hle (by decide)

/-- Slot 0 has counters that are not negative and fit into a `long`, but whose sum is -1. -/
def overflown : Slot → Proc :=
  upd
    (upd (fun _ => Proc.zero) 0
      { Proc.zero with
        state := .runnable
        rtime := 3443392227092449635
        retime := 9223372036854775807
        stime := 5779979809762326173 })
    1 { Proc.zero with state := .runnable, retime := 1 }

/-- The process in slot 0 has the value -1 and the one in slot 1 the value 0: `minimum_vruntime`
    returns 0, and the process in slot 1 passes the test of the loop. -/
theorem minimum_vruntime_forgets :
    (∀ z, 0 ≤ (overflown z).rtime ∧ 0 ≤ (overflown z).retime ∧ 0 ≤ (overflown z).stime) ∧
    (∀ z, (overflown z).rtime < 2 ^ 63 ∧ (overflown z).retime < 2 ^ 63 ∧ (overflown z).stime < 2 ^ 63) ∧
    checkVruntime (overflown 0) = -1 ∧ checkVruntime (overflown 1) = 0 ∧
    Loop.cfs.scan overflown = 0 ∧ Loop.cfs.selects (overflown 1) 0 = true ∧
    ¬ Loop.cfs.PicksMinimum overflown := by
  have h0 : checkVruntime (overflown 0) = -1 := by decide +kernel
  have h1 : checkVruntime (overflown 1) = 0 := by decide +kernel
  have hscan : Loop.cfs.scan overflown = 0 := by decide +kernel
  have hsel : Loop.cfs.selects (overflown 1) 0 = true := by decide +kernel
  refine ⟨by decide +kernel, by decide +kernel, h0, h1, hscan, hsel, fun hpick => ?_⟩
  have hle : checkVruntime (overflown 1) ≤ checkVruntime (overflown 0) :=
    hpick.pick 1 (by rw [hscan]; exact hsel) 0 rfl
  rw [h0, h1] at hle
  exact absurd hle (by decide)

end Xv6
