import Mathlib.Algebra.BigOperators.Ring.Finset
import Xv6.Spec.GroupCommit

/-!
# Admission control

`begin_op` reserves `MAXOPBLOCKS` blocks for an operation out of `LOGSIZE`, but `mkfs` makes the log
`LOGSIZE` blocks long including its header, and `log_write` tests whether the log is full before
it looks for the block in the header. So `log_write` panics as soon as the operations of a group
have passed `LOGSIZE - 1` distinct blocks, with a block that is new or not. Operations that pass
one block less than they reserve never get there.
-/

namespace Xv6.Log

open TransitionSystem

variable {g : Area} {N : Nat} {s s' : State N} {h h' : OpLog N} {p : Fin N}

/-! ## The header stays within the log area -/

/-- The header has an entry for each of some distinct blocks and a log block for each entry. -/
structure Fits (g : Area) (lh : Header) : Prop where
  le : lh.n ≤ g.size - 1
  inj : ∀ i < lh.n, ∀ j < lh.n, lh.block i = lh.block j → i = j

theorem fits_clear (g : Area) (lh : Header) : Fits g { lh with n := 0 } :=
  ⟨Nat.zero_le _, fun i hi => by simp only at hi; omega⟩

theorem Fits.absorb {lh : Header} (hf : Fits g lh) (b : Nat) (hn : lh.n < g.size - 1) :
    Fits g (lh.absorb b) := by
  rcases find_cases lh b with ⟨hlt, hb⟩ | ⟨heq, hb⟩
  · rw [absorb_of_lt hlt hb]
    exact hf
  · have hnew : ∀ i < lh.n, lh.block i ≠ b := fun i hi hbi => hb ⟨i, hi, hbi⟩
    simp only [Header.absorb, heq, if_true]
    refine ⟨hn, fun i hi j hj hij => ?_⟩
    simp only [upd_apply] at hi hj hij
    split at hij <;> split at hij
    · omega
    · exact absurd hij.symm (hnew j (by omega))
    · exact absurd hij (hnew i (by omega))
    · exact hf.inj i (by omega) j (by omega) hij

/-- The header fits, and stays so through the rest of a commit. -/
structure FitsInv (g : Area) (s : State N) : Prop where
  lh : Fits g s.store.lh
  rest : ∀ p rest, s.pc p = .commit rest →
    rest.wp (fun x => Fits g x.lh) (fun _ => False) (fun _ _ => True) s.store

theorem commit_fits {x : Store} (hf : Fits g x.lh) :
    (commit g).wp (fun x => Fits g x.lh) (fun _ => False) (fun _ _ => True) x := by
  refine Prog.wp_imp (fun y hy => ?_) (fun _ _ _ _ => trivial) (commit_clears x)
  rcases hy with hy | hy <;> rw [hy]
  · exact hf
  · exact fits_clear g x.lh

/-- A step that leaves the header alone and starts no commit. -/
theorem FitsInv.frame (hf : FitsInv g s) (hstore : s'.store = s.store)
    (hpc : ∀ q rest, s'.pc q = .commit rest → s.pc q = .commit rest) : FitsInv g s' :=
  ⟨hstore ▸ hf.lh, fun q rest hq => hstore ▸ hf.rest q rest (hpc q rest hq)⟩

variable {pc : Fin N → Pc} {c : Pc}

theorem commit_of_upd (hc : ∀ rest, c ≠ .commit rest) (q : Fin N)
    (rest : Prog Store Unit) (hq : upd pc p c q = .commit rest) : pc q = .commit rest := by
  by_cases hqp : q = p
  · rw [hqp, upd_self] at hq
    exact absurd hq (hc rest)
  · rwa [upd_of_ne hqp] at hq

variable {i : Input N}

theorem FitsInv.step (hf : FitsInv g s) (hi : Inv g s h) (hs : Step g s h i s' h') : FitsInv g s' := by
  cases hs with
  | moves i p c hm =>
    refine hf.frame rfl (commit_of_upd fun rest hc => ?_)
    subst hc
    cases hm
  | acquire p c hc hl =>
    refine hf.frame rfl (commit_of_upd fun rest heq => ?_)
    subst heq
    generalize s.pc p = c₀ at hc
    cases hc
  | write p b data hp hfit ho =>
    have hn : s.store.lh.n < g.size - 1 := by
      simp only [State.tooBig, not_or, not_le, ge_iff_le] at hfit
      omega
    refine ⟨hf.lh.absorb b hn, fun q rest hq => ?_⟩
    -- A process is inside an operation, so nobody commits.
    have hcommit := hi.commit q (by rw [commit_of_upd (c := .inOp) nofun q rest hq]; rfl)
    have hins := hi.not_inside hcommit p
    rw [hp] at hins
    cases hins
  | endLast p hp hc ho =>
    refine ⟨hf.lh, fun q rest hq => ?_⟩
    simp only at hq
    by_cases hqp : q = p
    · rw [hqp, upd_self, Pc.commit.injEq] at hq
      exact hq ▸ commit_fits hf.lh
    · rw [upd_of_ne hqp] at hq
      exact hf.rest q rest hq
  | commitAct p rest rest' x hp hx =>
    have hwp := Prog.wp_step (hf.rest p rest hp) hx
    have hx' := Prog.wp_inv (I := fun x : Store => Fits g x.lh) hwp
    refine ⟨hx', fun q r hq => ?_⟩
    simp only at hq
    by_cases hqp : q = p
    · rw [hqp, upd_self, Pc.commit.injEq] at hq
      exact hq ▸ hwp
    · rw [upd_of_ne hqp] at hq
      exact absurd (hi.unique q p (by rw [hq]; rfl) (by rw [hp]; rfl)) hqp
  | tooBig p b data hp hbig | outside p b data hp hfit ho | endPanic p hp hc | kill q =>
    exact hf.frame rfl fun _ _ hq => hq
  | _ => exact hf.frame rfl (commit_of_upd nofun)

theorem fits_reachable {C : State N × OpLog N → Input N → Prop} {x : State N × OpLog N}
    (hx : (recordedOps g N).ReachableBy C x) : FitsInv g x.1 := by
  refine hx.induct (P := fun x => FitsInv g x.1) (fun x h0 => ?_) fun x i y hr hf _ hs => ?_
  · obtain ⟨⟨hn, -, -, -, -, -, hpc, -⟩, -⟩ : (recordedOps g N).init x := h0
    exact ⟨⟨by omega, fun i hi => by omega⟩, fun p rest hp => by simp [hpc] at hp⟩
  · exact hf.step (inv_reachable hr) (step_cases hs).2

/-- A `write_log` from a header that fits writes inside the log area only. -/
theorem writeLog_region {x : Store} (hf : Fits g x.lh) :
    (writeLog g).wp
      (fun y => ∀ b ∈ y.written, b ∈ x.written ∨ g.start < b ∧ b < g.start + g.size)
      (fun _ => False) (fun _ _ => True) x := by
  have hle := hf.le
  simp only [writeLog, getHead, Prog.wp_bind, Prog.wp_gets]
  refine ⟨fun b => .inl, fun b => .inl, Prog.wp_mono (fun _ _ _ _ => trivial) (Prog.wp_for
    (J := fun _ y => ∀ b ∈ y.written, b ∈ x.written ∨ g.start < b ∧ b < g.start + g.size)
    (fun _ _ hy => hy) (fun i y hi hy => ?_) fun b => .inl)⟩
  have hnext : ∀ b ∈ (y.write (g.start + i + 1) (y.cache (x.lh.block i))).written,
      b ∈ x.written ∨ g.start < b ∧ b < g.start + g.size := by
    intro b hb
    rcases List.mem_cons.mp hb with rfl | hb
    · exact .inr ⟨by omega, by omega⟩
    · exact hy b hb
  simp only [bread, bwrite, Prog.wp_bind, Prog.wp_gets, Prog.wp_modify]
  exact ⟨hy, hy, hy, hnext, hnext⟩

/-! ## The number of blocks -/

/-- The blocks that the operations of the current group have passed to `log_write`. -/
def groupBlocks (s : State N) (h : OpLog N) : Finset Nat :=
  h.ended.flatten.toFinset ∪
    (Finset.univ.filter fun p => (s.pc p).inside = true).biUnion fun p => (h.cur p).toFinset

theorem mem_groupBlocks {b : Nat} : b ∈ groupBlocks s h ↔ passed s.pc h b := by
  simp [groupBlocks, passed]

/-- The header counts the distinct blocks of the group. -/
theorem Inv.n_eq (hi : Inv g s h) (hf : Fits g s.store.lh) (hc : s.committing = false) :
    s.store.lh.n = (groupBlocks s h).card := by
  have himage : groupBlocks s h = (Finset.range s.store.lh.n).image s.store.lh.block := by
    ext b
    rw [mem_groupBlocks, ← hi.names hc b]
    simp [Header.names]
  rw [himage, Finset.card_image_of_injOn, Finset.card_range]
  intro i hi' j hj hij
  simp only [Finset.coe_range, Set.mem_Iio] at hi' hj
  exact hf.inj i hi' j hj hij

/-! ## Operations that leave one block of their reservation -/

/-- The number of distinct blocks that the operation of a process has passed. -/
def OpLog.distinct (h : OpLog N) (p : Fin N) : Nat := (h.cur p).toFinset.card

/-- A call of `log_write` gives its operation at most `k` distinct blocks. -/
def passesAtMost (k : Nat) (x : State N × OpLog N) : Input N → Bool
  | .step p =>
    match x.1.pc p with
    | .writeBody b _ => decide ((b :: x.2.cur p).toFinset.card ≤ k)
    | _ => true
  | _ => true

/-- What the operations in progress may still add when each of them passes at most 9 blocks. -/
def slack (pc : Fin N → Pc) (h : OpLog N) (p : Fin N) : Int :=
  if (pc p).inside then 9 - (h.distinct p : Int) else 0

/-- With what may still come, the group has at most 28 blocks. -/
structure Reserved (s : State N) (h : OpLog N) : Prop where
  small : ∀ p, (s.pc p).inside = true → h.distinct p ≤ 9
  room : s.committing = false → (s.store.lh.n : Int) + ∑ p, slack s.pc h p ≤ 28

theorem Reserved.slack_nonneg (hr : Reserved s h) (p : Fin N) : 0 ≤ slack s.pc h p := by
  unfold slack
  split
  · have hsmall := hr.small p ‹_›
    omega
  · decide

theorem slack_sum_le (pc : Fin N → Pc) (h : OpLog N) : ∑ p, slack pc h p ≤ 9 * insideCount pc := by
  rw [insideCount, Finset.mul_sum]
  refine Finset.sum_le_sum fun p _ => ?_
  unfold slack
  split <;> omega

/-- The sum of the slacks changes with that of one process. -/
theorem slack_sum_upd (pc pc' : Fin N → Pc) (h h' : OpLog N) (p : Fin N)
    (hpc : ∀ q, q ≠ p → (pc' q).inside = (pc q).inside) (hcur : ∀ q, q ≠ p → h'.cur q = h.cur q) :
    ∑ q, slack pc' h' q = ∑ q, slack pc h q - slack pc h p + slack pc' h' p := by
  refine Finset.sum_eq_of_eq_off _ _ p fun q hq => ?_
  rw [slack, slack, OpLog.distinct, OpLog.distinct, hpc q hq, hcur q hq]

theorem Reserved.frame (hr : Reserved s h) (hn : s'.store = s.store) (hc : s'.committing = s.committing)
    (hcur : h'.cur = h.cur) (hpc : ∀ q, (s'.pc q).inside = (s.pc q).inside) : Reserved s' h' := by
  refine ⟨fun q hq => ?_, fun hf => ?_⟩
  · rw [OpLog.distinct, hcur]
    exact hr.small q (hpc q ▸ hq)
  · have hsum : ∑ q, slack s'.pc h' q = ∑ q, slack s.pc h q :=
      Finset.sum_congr rfl fun q _ => by rw [slack, slack, OpLog.distinct, OpLog.distinct, hpc q, hcur]
    rw [hsum, hn]
    exact hr.room (hc ▸ hf)

theorem inside_upd (hc : c.inside = (pc p).inside) (q : Fin N) :
    (upd pc p c q).inside = (pc q).inside := by
  by_cases hqp : q = p
  · rw [hqp, upd_self, hc]
  · rw [upd_of_ne hqp]

theorem Reserved.enter (hr : Reserved s h) (hi : Inv g s h) (hp : s.pc p = .beginTest) (ha : s.admits) :
    Reserved { s with outstanding := s.outstanding + 1, pc := upd s.pc p .inOp, lock := none }
      { h with cur := upd h.cur p [] } := by
  have hins : (s.pc p).inside = false := by rw [hp]; rfl
  refine ⟨fun q hq => ?_, fun hc => ?_⟩
  · simp only [OpLog.distinct] at hq ⊢
    by_cases hqp : q = p
    · simp [hqp]
    · rw [upd_of_ne hqp] at hq ⊢
      exact hr.small q hq
  · have hsum := slack_sum_upd s.pc (upd s.pc p .inOp) h { h with cur := upd h.cur p [] } p
      (fun q hq => by rw [upd_of_ne hq]) (fun q hq => upd_of_ne hq _)
    have hold : slack s.pc h p = 0 := by simp [slack, hins]
    have hnew : slack (upd s.pc p .inOp) { h with cur := upd h.cur p [] } p = 9 := by
      simp [slack, Pc.inside, OpLog.distinct]
    have hle := slack_sum_le s.pc h
    have hcount := hi.count
    have hnonneg := insideCount_nonneg s.pc
    have hroom := ha.2
    have hmax : (MAXOPBLOCKS : Int) = 10 := rfl
    have hlog : (LOGSIZE : Int) = 30 := rfl
    rw [hmax, hlog] at hroom
    simp only
    by_cases ho : s.outstanding = 0
    · have hn := hi.empty ha.1 ho
      omega
    · omega

theorem Reserved.write (hr : Reserved s h) (hi : Inv g s h) {b : Nat} {data : Block}
    (hp : s.pc p = .writeBody b data) (hsmall : (b :: h.cur p).toFinset.card ≤ 9) :
    Reserved
      { s with
        store := { s.store with cache := upd s.store.cache b data, lh := s.store.lh.absorb b }
        pc := upd s.pc p .inOp
        lock := none }
      { h with cur := upd h.cur p (b :: h.cur p) } := by
  have hins : (s.pc p).inside = true := by rw [hp]; rfl
  refine ⟨fun q hq => ?_, fun hc => ?_⟩
  · simp only [OpLog.distinct] at hq ⊢
    by_cases hqp : q = p
    · rwa [hqp, upd_self]
    · rw [upd_of_ne hqp] at hq ⊢
      exact hr.small q hq
  · have hsum := slack_sum_upd s.pc (upd s.pc p .inOp) h
      { h with cur := upd h.cur p (b :: h.cur p) } p (fun q hq => by rw [upd_of_ne hq])
      (fun q hq => upd_of_ne hq _)
    have hold : slack s.pc h p = 9 - (h.distinct p : Int) := by simp [slack, hins]
    have hnew : slack (upd s.pc p .inOp) { h with cur := upd h.cur p (b :: h.cur p) } p =
        9 - ((b :: h.cur p).toFinset.card : Int) := by
      simp [slack, Pc.inside, OpLog.distinct]
    have hroom := hr.room hc
    -- The header grows only by a block that is new to the operation as well.
    have hgrow : (s.store.lh.absorb b).n + h.distinct p ≤
        s.store.lh.n + (b :: h.cur p).toFinset.card := by
      rw [List.toFinset_cons]
      rcases find_cases s.store.lh b with ⟨hlt, hb⟩ | ⟨heq, hb⟩
      · rw [absorb_of_lt hlt hb]
        have hsub := Finset.card_le_card (Finset.subset_insert b (h.cur p).toFinset)
        exact Nat.add_le_add_left hsub _
      · have hnot : b ∉ (h.cur p).toFinset := by
          intro hm
          exact hb ((hi.names hc b).mpr (.inr ⟨p, hins, List.mem_toFinset.mp hm⟩))
        rw [Finset.card_insert_of_notMem hnot]
        simp only [Header.absorb, heq, if_true, OpLog.distinct]
        omega
    simp only
    omega

theorem Reserved.endOther (hr : Reserved s h) (hc : s.committing = false) :
    Reserved { s with outstanding := s.outstanding - 1, pc := upd s.pc p (.wakeup 0) }
      { h with ended := h.cur p :: h.ended } := by
  refine ⟨fun q hq => ?_, fun _ => ?_⟩
  · simp only at hq
    by_cases hqp : q = p
    · rw [hqp, upd_self] at hq
      cases hq
    · rw [upd_of_ne hqp] at hq
      exact hr.small q hq
  · have hsum := slack_sum_upd s.pc (upd s.pc p (.wakeup 0)) h { h with ended := h.cur p :: h.ended } p
      (fun q hq => by rw [upd_of_ne hq]) (fun q _ => rfl)
    have hnew : slack (upd s.pc p (.wakeup 0)) { h with ended := h.cur p :: h.ended } p = 0 := by
      simp [slack, Pc.inside]
    have hpos := hr.slack_nonneg p
    have hroom := hr.room hc
    simp only
    omega

theorem Reserved.clear (hi : Inv g s h) (hp : s.pc p = .clearBody) :
    Reserved { s with committing := false, pc := upd s.pc p (.wakeup 0) } { h with ended := [] } := by
  have hc := hi.commit p (by rw [hp]; rfl)
  have hnone : ∀ q, (upd s.pc p (.wakeup 0) q).inside = false := by
    intro q
    rw [inside_upd (by rw [hp]; rfl)]
    exact hi.not_inside hc q
  refine ⟨fun q hq => ?_, fun _ => ?_⟩
  · simp only [hnone q] at hq
    cases hq
  · have hn := hi.cleared p (.inr hp)
    simp [slack, hnone, hn]

theorem Reserved.step (hr : Reserved s h) (hi : Inv g s h)
    (hC : passesAtMost 9 (s, h) i = true) (hs : Step g s h i s' h') : Reserved s' h' := by
  cases hs with
  | moves i p c hm =>
    refine hr.frame rfl rfl rfl (inside_upd ?_)
    cases hm <;> simp_all [Pc.inside]
  | acquire p c hc hl =>
    refine hr.frame rfl rfl rfl (inside_upd ?_)
    generalize s.pc p = c₀ at hc
    cases hc <;> rfl
  | enter p hp ha => exact hr.enter hi hp ha
  | wait p hp ha | lockOwn p hp | unlock p hp | sleep p hp | wakeSelf p hp | wake p q hp hq
  | wakeDone p i hp hle | commitDone p hp =>
    exact hr.frame rfl rfl rfl (inside_upd (by rw [hp]; rfl))
  | write p b data hp hfit ho => exact hr.write hi hp (by simpa [passesAtMost, hp] using hC)
  | tooBig p b data hp hbig | endPanic p hp hc | kill q => exact hr.frame rfl rfl rfl fun _ => rfl
  | outside p b data hp hfit ho =>
    have hpos := insideCount_pos (show (s.pc p).inside = true by rw [hp]; rfl)
    have hcount := hi.count
    omega
  | endLast p hp hc ho =>
    refine ⟨fun q hq => ?_, nofun⟩
    simp only at hq
    by_cases hqp : q = p
    · rw [hqp, upd_self] at hq
      cases hq
    · rw [upd_of_ne hqp] at hq
      exact hr.small q hq
  | endOther p hp hc ho => exact hr.endOther hc
  | commitAct p rest rest' x hp hx =>
    have hc := hi.commit p (by rw [hp]; rfl)
    refine ⟨fun q hq => hr.small q ?_, fun hf => ?_⟩
    · simp only [inside_upd (show (Pc.commit rest').inside = (s.pc p).inside by rw [hp]; rfl)] at hq
      exact hq
    · simp only [hc] at hf
      cases hf
  | clear p hp => exact Reserved.clear hi hp

/-! ## When log_write panics -/

/-- A step panics when it is that of a `log_write` that finds the log full. -/
theorem tooBig_iff (hi : Inv g s h) (hnone : s.panicked = none) (hs : Step g s h i s' h') :
    s'.panicked = some "too big a transaction" ↔
      (∃ p b data, i = .step p ∧ s.pc p = .writeBody b data) ∧ s.tooBig g := by
  cases hs with
  | tooBig p b data hp hbig => exact ⟨fun _ => ⟨⟨p, b, data, rfl, hp⟩, hbig⟩, fun _ => rfl⟩
  | write p b data hp hfit ho =>
    simp only [hnone, reduceCtorEq, false_iff, not_and]
    exact fun _ => hfit
  | outside p b data hp hfit ho =>
    have hpos := insideCount_pos (show (s.pc p).inside = true by rw [hp]; rfl)
    have hcount := hi.count
    omega
  | endPanic p hp hc =>
    have hins := hi.not_inside hc p
    rw [hp] at hins
    cases hins
  | moves i p c hm => cases hm <;> simp_all [State.goto]
  | acquire p c hc hl =>
    simp only [hnone, reduceCtorEq, false_iff, not_and, forall_exists_index, and_imp,
      Input.step.injEq]
    rintro q b data rfl hq
    rw [hq] at hc
    cases hc
  | _ => simp_all [State.goto]

/-- The header is full when the group has passed all but one of `LOGSIZE` blocks. -/
theorem tooBig_mkfs : s.tooBig mkfsArea ↔ LOGSIZE - 1 ≤ s.store.lh.n := by
  have hsize : (mkfsArea.size : Int) = 30 := rfl
  have hlog : LOGSIZE = 30 := rfl
  rw [State.tooBig, hsize, hlog]
  omega

/-- With one block left by each operation, the header never gets full. -/
theorem reserved_reachable {x : State N × OpLog N}
    (hx : (recordedOps mkfsArea N).ReachableBy (fun x i => passesAtMost 9 x i = true) x) :
    Reserved x.1 x.2 ∧ x.1.panicked = none := by
  refine hx.induct (P := fun x => Reserved x.1 x.2 ∧ x.1.panicked = none) (fun x h0 => ?_)
    fun x i y hr ih hC hs => ?_
  · obtain ⟨⟨hn, -, -, -, -, -, hpc, hp⟩, -⟩ : (recordedOps mkfsArea N).init x := h0
    refine ⟨⟨fun p hin => ?_, fun _ => ?_⟩, hp⟩
    · simp [hpc, Pc.inside] at hin
    · simp [slack, hpc, hn, Pc.inside]
  · have hi := inv_reachable hr
    obtain ⟨hnone, hstep⟩ := step_cases hs
    refine ⟨ih.1.step hi hC hstep, ?_⟩
    rcases panicked_reachable (ReachableBy.step hr hC hs) with hp | hp
    · exact hp
    · obtain ⟨⟨p, b, data, -, hpc⟩, hbig⟩ := (tooBig_iff hi hnone hstep).mp hp
      have hins : (x.1.pc p).inside = true := by rw [hpc]; rfl
      have hnc : x.1.committing = false := by
        cases hc : x.1.committing with
        | false => rfl
        | true => exact absurd hins (by simp [hi.not_inside hc p])
      have hroom := ih.1.room hnc
      have hsum : 0 ≤ ∑ q, slack x.1.pc x.2 q := Finset.sum_nonneg fun q _ => ih.1.slack_nonneg q
      have hfull : 30 - 1 ≤ x.1.store.lh.n := tooBig_mkfs.mp hbig
      omega

/-- On the layout of `mkfs`, `log_write` panics exactly when the operations of the group have passed
    `LOGSIZE - 1` distinct blocks before it; `write_log` stays inside the log area; and nothing
    panics when every operation passes at most `MAXOPBLOCKS - 1` distinct blocks. -/
theorem log_write_panics_iff (N : Nat) :
    (∀ x, (recordedOps mkfsArea N).Reachable x →
      (∀ i y, (recordedOps mkfsArea N).step x i = some y →
        (y.1.panicked = some "too big a transaction" ↔
          (∃ p b data, i = .step p ∧ x.1.pc p = .writeBody b data) ∧
            LOGSIZE - 1 ≤ (groupBlocks x.1 x.2).card)) ∧
      ∀ k, ∀ b ∈ ((writeLog mkfsArea).after k x.1.store).written,
        b ∈ x.1.store.written ∨ mkfsArea.start < b ∧ b < mkfsArea.start + mkfsArea.size) ∧
    ∀ x, (recordedOps mkfsArea N).ReachableBy
        (fun x i => passesAtMost (MAXOPBLOCKS - 1) x i = true) x →
      x.1.panicked = none := by
  refine ⟨fun x hx => ⟨fun i y hy => ?_, fun k => ?_⟩, fun x hx => (reserved_reachable hx).2⟩
  · have hi := inv_reachable hx
    obtain ⟨hnone, hstep⟩ := step_cases hy
    rw [tooBig_iff hi hnone hstep]
    refine and_congr_right fun ⟨p, b, data, _, hp⟩ => ?_
    have hnc : x.1.committing = false := by
      cases hc : x.1.committing with
      | false => rfl
      | true =>
        have hins := hi.not_inside hc p
        rw [hp] at hins
        cases hins
    rw [tooBig_mkfs, hi.n_eq (fits_reachable hx).lh hnc]
  · exact Prog.wp_after k (writeLog_region (fits_reachable hx).lh)

/-- Three processes begin operations and pass ten blocks each. -/
def fullRun : List (Input 3) :=
  [0, 1, 2].flatMap (fun p => [.beginOp p, .step p, .step p]) ++
    [0, 1, 2].flatMap fun p =>
      (List.range 10).flatMap fun j =>
        [.logWrite p (100 + 10 * p + j) fun _ => 0, .step p, .step p]

/-- With `MAXOPBLOCKS` blocks in each operation, the last `log_write` panics. -/
theorem full_log_panics :
    ∃ x, (recordedOps mkfsArea 3).ReachableBy (fun x i => passesAtMost MAXOPBLOCKS x i = true) x ∧
      x.1.panicked = some "too big a transaction" := by
  have hrun : ((recordedOps mkfsArea 3).runBy (fun x i => passesAtMost MAXOPBLOCKS x i = true)
      (restState 3, ⟨fun _ => [], []⟩) fullRun).map (fun x => x.1.panicked) =
        some (some "too big a transaction") := by decide +kernel
  obtain ⟨x, hreach, heq⟩ := exists_reachableBy_of_runBy hrun (recordedOps_init _ _)
  exact ⟨x, hreach, heq⟩

/-- One process passes a block twice. -/
def absorbRun : List (Input 1) :=
  [.beginOp 0, .step 0, .step 0, .logWrite 0 50 fun _ => 1, .step 0, .step 0,
    .logWrite 0 50 fun _ => 2, .step 0, .step 0]

theorem log_write_panics_iff_absorbed :
    ∃ x, (recordedOps mkfsArea 1).ReachableBy
        (fun x i => passesAtMost (MAXOPBLOCKS - 1) x i = true) x ∧
      x.2.cur 0 = [50, 50] ∧ x.1.store.lh.n = 1 ∧ x.1.panicked = none := by
  have hrun : ((recordedOps mkfsArea 1).runBy
      (fun x i => passesAtMost (MAXOPBLOCKS - 1) x i = true)
      (restState 1, ⟨fun _ => [], []⟩) absorbRun).map (fun x => (x.2.cur 0, x.1.store.lh.n)) =
        some ([50, 50], 1) := by decide +kernel
  obtain ⟨x, hreach, heq⟩ := exists_reachableBy_of_runBy hrun (recordedOps_init _ _)
  simp only [Prod.mk.injEq] at heq
  exact ⟨x, hreach, heq.1, heq.2, (log_write_panics_iff 1).2 x hreach⟩

end Xv6.Log
