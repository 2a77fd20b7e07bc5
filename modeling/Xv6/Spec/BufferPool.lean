import Mathlib.Algebra.BigOperators.Group.Finset.Piecewise
import Xv6.Spec.CacheTransparent

/-!
# When the buffer pool runs out

`bget` panics when every buffer is in use. A buffer is in use because processes have got it or because
`log_write` has pinned it. The pins are bounded by `log.lh.n`, but nothing bounds the processes:
`begin_op` admits operations by the room in the log, and readers outside of operations are not
counted at all. So the pool runs out as soon as enough processes are in `bread` at once.

## Key results

- `readers_exhaust_pool`: `NBUF + 1` readers that hold one buffer each reach the panic
- `pool_suffices`: runs in which `bread` is called only while a buffer is left do not
-/

namespace Xv6.CachedLog

open Bcache (BufPtr NBUF ROOTDEV)
open Log (Area Block MAXOPBLOCKS)
open TransitionSystem

variable {g : Area} {N : Nat}

/-! ## What operations and readers do -/

/-- The distinct blocks that the operation of each process has passed to `log_write`. -/
abbrev OpBlocks (N : Nat) := Fin N → List Nat

def OpBlocks.record (s : State N) (i : Input N) (ops : OpBlocks N) : OpBlocks N :=
  match i with
  | .beginOp p => upd ops p []
  | .logWrite p b => upd ops p ((ops p).insert (s.io.buf b).blockno)
  | _ => ops

/-- The log with the record of its run and of the blocks of each operation. -/
def countedLog (g : Area) (N : Nat) (disk : Nat → Block) :
    TransitionSystem ((State N × Ghost N) × OpBlocks N) (Input N) :=
  (recordedLog g N disk).observe (fun _ => []) fun x i ops => ops.record x.1 i

/-- The buffers that process `p` has got and not released yet. -/
def State.holding (s : State N) (p : Fin N) : Nat := ∑ b, s.io.getsOf b p

/-- An operation logs at most `MAXOPBLOCKS` distinct blocks, and nobody holds more than two buffers
    at once. -/
def Modest (x : (State N × Ghost N) × OpBlocks N) (i : Input N) : Prop :=
  Disciplined x.1 i ∧
    match i with
    | .bread p _ => x.1.1.holding p < 2
    | .logWrite p b => ((x.2 p).insert (x.1.1.io.buf b).blockno).length ≤ MAXOPBLOCKS
    | _ => True

instance (x : (State N × Ghost N) × OpBlocks N) : (i : Input N) → Decidable (Modest x i)
  | .beginOp _ | .endOp _ | .bread _ _ | .store _ _ _ | .logWrite _ _ | .bwrite _ _ | .brelse _ _
  | .step _ => inferInstanceAs (Decidable (_ ∧ _))

/-- One reader more than there are buffers, each of them in `bread` of its own block. -/
def readers : List (Input 31) := (List.finRange 31).map fun p => .bread p (100 + p)

theorem readers_exhaust_pool : ∃ x : (State 31 × Ghost 31) × OpBlocks 31,
    (countedLog ⟨2, 30, by decide⟩ 31 fun _ _ => 0).ReachableBy Modest x ∧
    (∀ p, x.1.1.mode p = .outside) ∧ x.1.1.io.panicked = some "bget: no buffers" := by
  have hrun : ((countedLog ⟨2, 30, by decide⟩ 31 fun _ _ => 0).runBy Modest
      ((State.boot 31 ⟨id, id⟩ (fun _ _ => 0) ⟨0, fun _ => 0⟩, .start 31 fun _ _ => 0), fun _ => [])
      readers).map (fun x => (decide (∀ p, x.1.1.mode p = .outside), x.1.1.io.panicked)) =
      some (true, some "bget: no buffers") := by
    decide +kernel
  obtain ⟨x, hreach, heq⟩ := exists_reachableBy_of_runBy hrun ⟨⟨⟨_, _, rfl⟩, rfl⟩, rfl⟩
  refine ⟨x, hreach, ?_, congrArg Prod.snd heq⟩
  exact of_decide_eq_true (congrArg Prod.fst heq)

/-! ## How many buffers are in use -/

/-- The blocks of the transaction, and the buffers that processes have got. -/
def State.demand (s : State N) : Nat := s.lh.n + ∑ b, s.io.gets b

variable {gh : Ghost N} {s : State N}

/-- A buffer has one pin at most. -/
theorem Stored.pins_le (hst : Stored g s gh) (b : BufPtr) :
    gh.hist.pins b ≤ if gh.hist.pins b ≠ 0 then 1 else 0 := by
  obtain ⟨order, hi⟩ := hst.ring
  split
  · rename_i hb
    obtain ⟨k, hk, hpe⟩ := hst.pins b hb
    obtain ⟨a, ha, -, hpa⟩ := hst.pinned k hpe
    rw [hi.eq_of_has hk ha, hpa]
  · omega

/-- There are as many pins as blocks in the log, or fewer. -/
theorem Stored.sum_pins_le (hst : Stored g s gh) :
    ∑ b, gh.hist.pins b ≤ s.lh.n := by
  obtain ⟨order, hi⟩ := hst.ring
  have hle : ∑ b, gh.hist.pins b ≤ (Finset.univ.filter fun b => gh.hist.pins b ≠ 0).card := by
    rw [Finset.card_filter]
    exact Finset.sum_le_sum fun b _ => hst.pins_le b
  refine hle.trans ?_
  -- different pinned buffers have different blocks of the log
  have hcard : (Finset.univ.filter fun b => gh.hist.pins b ≠ 0).card ≤
      ((Finset.range s.lh.n).image s.lh.block).card := by
    refine Finset.card_le_card_of_injOn (fun b => (s.io.buf b).blockno) (fun b hb => ?_) ?_
    · obtain ⟨k, hk, j, -, hj, hjk⟩ := hst.pins b (Finset.mem_filter.mp hb).2
      simp only [Finset.coe_image, Set.mem_image, Finset.mem_coe, Finset.mem_range]
      exact ⟨j, hj, by rw [hjk, hk.2]⟩
    · intro a ha b hb heq
      obtain ⟨k, hk, -⟩ := hst.pins a (Finset.mem_filter.mp ha).2
      obtain ⟨k', hk', -⟩ := hst.pins b (Finset.mem_filter.mp hb).2
      exact hi.eq_of_has hk ⟨hk'.1, heq.symm.trans hk.2⟩
  calc _ ≤ ((Finset.range s.lh.n).image s.lh.block).card := hcard
    _ ≤ (Finset.range s.lh.n).card := Finset.card_image_le
    _ = s.lh.n := Finset.card_range _

/-- When all buffers are in use, the demand is at least `NBUF`. -/
theorem Stored.le_demand (hst : Stored g s gh) (hu : s.io.cache.findUnused = some none) :
    NBUF ≤ s.demand := by
  obtain ⟨order, hi⟩ := hst.ring
  rw [hi.findUnused, Option.some.injEq, List.find?_eq_none] at hu
  have hpos : ∀ b, 1 ≤ (s.io.buf b).refcnt := by
    intro b
    have hb := hu b (List.mem_reverse.mpr (hi.all b))
    simp only [Bcache.Cache.unused, beq_iff_eq] at hb
    exact Nat.one_le_iff_ne_zero.mpr hb
  have hsum : ∑ b, (s.io.buf b).refcnt = ∑ b, s.io.gets b + ∑ b, gh.hist.pins b := by
    rw [← Finset.sum_add_distrib]
    exact Finset.sum_congr rfl fun b _ => hi.refs b
  calc NBUF = ∑ _b : BufPtr, 1 := by simp [BufPtr]
    _ ≤ ∑ b, (s.io.buf b).refcnt := Finset.sum_le_sum fun b _ => hpos b
    _ = ∑ b, s.io.gets b + ∑ b, gh.hist.pins b := hsum
    _ ≤ s.demand := by
      have hpins := hst.sum_pins_le
      rw [State.demand]
      omega

/-! ## Runs that do not panic -/

/-- The points of a commit at which `write_log`, `install_trans` and `write_head` call `bread` for a
    block of the log area. -/
def Mode.breads : Mode → Bool
  | .commit (.readLog _ _) | .commit (.headRead _) => true
  | _ => false

/-- The calls of `bread` by processes and by a commit. -/
def State.breads (s : State N) : Input N → Bool
  | .bread _ _ => true
  | .step p => (s.mode p).breads
  | _ => false

/-- A buffer is left when `bread` is called. -/
def Roomy (s : State N) (i : Input N) : Prop := s.breads i = true → s.demand < NBUF

instance (s : State N) (i : Input N) : Decidable (Roomy s i) := inferInstanceAs (Decidable (_ → _))

/-- Where the panic comes from. -/
theorem full_of_panic {s s' : Bcache.State N} {h h' : Bcache.History} {j : Bcache.Input N}
    (hs : Bcache.Step s h j s' h') (hok : s.panicked = none)
    (hp : s'.panicked = some "bget: no buffers") :
    ∃ p dev k, j = .bread p dev k ∧ s.cache.findCached dev k = some none ∧
      s.cache.findUnused = some none := by
  cases hs with
  | full p dev k hc hu => exact ⟨p, dev, k, rfl, hc, hu⟩
  | bwriteOther p b hl | brelseOther p b hl => exact absurd (Option.some.inj hp) (by decide)
  | _ => exact absurd (hok.symm.trans hp) nofun

/-- The calls of `bread` in `commit`. -/
theorem bread_of_commitPlan {s t : State N} {c : CommitPc} {p q : Fin N} {dev k : Nat}
    (h : s.commitPlan g q c = some (some (.bread p dev k), t)) :
    q = p ∧ ((∃ ph tail, c = .readLog ph tail) ∨ (∃ ph, c = .headRead ph) ∨
      ∃ ph tail, c = .readHome ph tail ∧ dev = ROOTDEV ∧ k = s.lh.block tail) := by
  cases c with
  | readLog ph tail =>
    simp only [State.commitPlan, State.calls] at h
    split at h
    · simp only [Option.some.injEq, Prod.mk.injEq, Bcache.Input.bread.injEq] at h
      exact ⟨h.1.1, .inl ⟨ph, tail, rfl⟩⟩
    · simp at h
  | headRead ph =>
    simp only [State.commitPlan, State.calls, Option.some.injEq, Prod.mk.injEq,
      Bcache.Input.bread.injEq] at h
    exact ⟨h.1.1, .inr (.inl ⟨ph, rfl⟩)⟩
  | readHome ph tail =>
    obtain ⟨x, -, h⟩ := Option.map_eq_some_iff.mp h
    simp only [State.calls, Prod.mk.injEq, Option.some.injEq, Bcache.Input.bread.injEq] at h
    exact ⟨h.1.1, .inr (.inr ⟨ph, tail, rfl, h.1.2.1.symm, h.1.2.2.symm⟩)⟩
  | _ => simp [State.commitPlan, State.calls] at h

/-- The calls of `bread`. -/
theorem bread_of_plan {s t : State N} {i : Input N} {p : Fin N} {dev k : Nat}
    (h : s.plan g i = some (some (.bread p dev k), t)) :
    i = .bread p k ∨
      i = .step p ∧ ∃ c, s.mode p = .commit c ∧
        ((∃ ph tail, c = .readLog ph tail) ∨ (∃ ph, c = .headRead ph) ∨
          ∃ ph tail, c = .readHome ph tail ∧ dev = ROOTDEV ∧ k = s.lh.block tail) := by
  cases i with
  | step q =>
    simp only [State.plan] at h
    split at h
    · split at h
      · rename_i c hq
        obtain ⟨rfl, hc⟩ := bread_of_commitPlan h
        exact .inr ⟨rfl, c, hq, hc⟩
      · cases h
    · cases congrArg Prod.fst (Option.some.inj h)
  | bread q k' =>
    have hc := (plan_client h (by rintro _ ⟨⟩)).2.2
    simp only [State.client, Option.some.injEq, Prod.mk.injEq, Bcache.Input.bread.injEq] at hc
    obtain ⟨⟨rfl, -, rfl⟩, -⟩ := hc
    exact .inl rfl
  | logWrite q b =>
    have hc := (plan_client h (by rintro _ ⟨⟩)).2.2
    rw [State.client, Option.some.injEq] at hc
    obtain (hbig | hout) | ⟨-, -, ⟨hold, -⟩ | ⟨hnew, -⟩⟩ := logWrite_cases g s q b
    · cases congrArg Prod.fst (hbig.symm.trans hc)
    · cases congrArg Prod.fst (hout.symm.trans hc)
    · cases congrArg Prod.fst (hold.symm.trans hc)
    · cases congrArg Prod.fst (hnew.symm.trans hc)
  | _ =>
    have hc := (plan_client h (by rintro _ ⟨⟩)).2.2
    simp [State.client] at hc

/-- While a buffer is left, `bget` finds one. -/
theorem Inv.no_panic {x y : State N × Ghost N} {disk : Nat → Block} {i : Input N}
    (hi : Inv g x.1 x.2) (hroom : Roomy x.1 i) (hs : (recordedLog g N disk).step x i = some y) :
    y.1.io.panicked ≠ some "bget: no buffers" := by
  obtain ⟨hok, j, t, hplan, -, hcase⟩ := step_cases hs
  cases hcase with
  | inl hn =>
    rw [hn.2]
    -- the log itself panics for other reasons
    cases plan_io hplan with
    | inl hio => rw [hio, hok]; exact nofun
    | inr hio =>
      obtain ⟨msg, hmsg, hio⟩ := hio
      rw [hio]
      intro heq
      obtain rfl : msg = "bget: no buffers" := Option.some.inj heq
      exact absurd hmsg (by decide)
  | inr hn =>
    obtain ⟨j', io, rfl, hio, hy⟩ := hn
    intro hpan
    rw [hy] at hpan
    obtain ⟨p, dev, k, rfl, hc, hu⟩ := full_of_panic (ioStep (h := x.2.hist) hio) hok hpan
    have hfull := hi.stored.le_demand hu
    cases bread_of_plan hplan with
    | inl hb =>
      subst hb
      exact absurd (hroom rfl) (Nat.not_lt.mpr hfull)
    | inr hb =>
      obtain ⟨rfl, c, hp, hreads⟩ := hb
      obtain ⟨ph, tail, rfl⟩ | ⟨ph, rfl⟩ | ⟨ph, tail, rfl, rfl, rfl⟩ := hreads
      · have hlt := hroom (by rw [State.breads, hp]; rfl)
        omega
      · have hlt := hroom (by rw [State.breads, hp]; rfl)
        omega
      · -- the home block is pinned, so it is in the cache
        obtain ⟨hr, -, -⟩ : At g x.1 x.2 p (.readHome ph tail) := hi.regs p _ hp
        have hle : x.2.installed ≤ tail := by
          rw [hr.unpinned]
          cases ph with
          | log => exact Nat.zero_le _
          | install => exact Nat.le_refl _
        obtain ⟨order, ho⟩ := hi.stored.ring
        obtain ⟨b, hb, -⟩ := hi.stored.pinned _ ⟨tail, hle, hr.lt, rfl⟩
        rw [ho.findCached, Option.some.injEq, List.find?_eq_none] at hc
        refine hc b (ho.all b) ?_
        simp only [Bcache.Cache.holds, Bool.and_eq_true, beq_iff_eq]
        exact hb

/-- The pool does not run out in a run in which `bread` is called only while a buffer is left. -/
theorem pool_suffices {disk : Nat → Block} {x : (State N × Ghost N) × OpBlocks N}
    (hx : (countedLog g N disk).ReachableBy (fun x i => Modest x i ∧ Roomy x.1.1 i) x) :
    x.1.1.io.panicked ≠ some "bget: no buffers" := by
  refine hx.induct (P := fun x => x.1.1.io.panicked ≠ some "bget: no buffers") ?_ ?_
  · rintro x ⟨⟨⟨links, lh, hx1⟩, -⟩, -⟩
    rw [hx1]
    exact nofun
  · intro x i y hr _ hc hs
    have hs' := (observe_step.mp hs).1
    have hrun : (recordedLog g N disk).ReachableBy Disciplined x.1 :=
      reachableBy_of_observe (fun z j hz => hz.1.1) hr
    exact (inv_reachable hrun (step_cases hs').1).no_panic hc.2 hs'

theorem pool_suffices_install : ∃ x : (State 1 × Ghost 1) × OpBlocks 1,
    x.1.1.mode 0 = .commit (.unpin 0 ⟨1, by decide⟩ ⟨0, by decide⟩) ∧
    x.1.1.io.panicked ≠ some "bget: no buffers" := by
  have hrun : ((countedLog ⟨2, 30, by decide⟩ 1 fun _ _ => 0).runBy
      (fun x i => Modest x i ∧ Roomy x.1.1 i)
      ((State.boot 1 ⟨id, id⟩ (fun _ _ => 0) ⟨0, fun _ => 0⟩, .start 1 fun _ _ => 0), fun _ => [])
      installRun).map (fun x => x.1.1.mode 0) =
      some (.commit (.unpin 0 ⟨1, by decide⟩ ⟨0, by decide⟩)) := by
    decide +kernel
  obtain ⟨x, hreach, heq⟩ := exists_reachableBy_of_runBy hrun ⟨⟨⟨_, _, rfl⟩, rfl⟩, rfl⟩
  exact ⟨x, heq, pool_suffices hreach⟩

end Xv6.CachedLog
