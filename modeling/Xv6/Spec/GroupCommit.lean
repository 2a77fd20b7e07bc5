import Mathlib.Algebra.Order.BigOperators.Group.Finset
import Xv6.ForStd.FinSum
import Xv6.Spec.LogCrash
import Xv6.Kernel.LogOps

/-!
# Group commit isolation

What holds in every interleaving of `begin_op`, `log_write` and `end_op`. `log.outstanding` counts the
processes inside an operation, and `log.committing` is set exactly while one process is in the
commit branch of `end_op`; the two exclude each other, so a commit sees the blocks of complete
operations only.
-/

namespace Xv6.Log

open TransitionSystem

variable {g : Area} {N : Nat}

/-! ## Steps -/

/-- The blocks that operations passed to `log_write`: those of the operation of each process, and
    those of the operations of the current group that have ended. -/
structure OpLog (N : Nat) where
  cur : Fin N → List Nat
  ended : List (List Nat)

/-- Record the step of process `p` in state `s`. -/
def OpLog.record (g : Area) (s : State N) (h : OpLog N) (p : Fin N) : OpLog N :=
  match s.pc p with
  | .beginTest => if s.admits then { h with cur := upd h.cur p [] } else h
  | .writeBody b _ => if s.tooBig g then h else { h with cur := upd h.cur p (b :: h.cur p) }
  | .endBody => { h with ended := h.cur p :: h.ended }
  | .clearBody => { h with ended := [] }
  | _ => h

/-- The log with the record of its operations. -/
def recordedOps (g : Area) (N : Nat) : TransitionSystem (State N × OpLog N) (Input N) :=
  (logOps g N).observe ⟨fun _ => [], []⟩ fun s i h =>
    match i with
    | .step p => h.record g s p
    | _ => h

/-- The process is inside an operation. -/
def Pc.inside : Pc → Bool
  | inOp | writeAcquire _ _ | writeBody _ _ | endAcquire | endBody => true
  | _ => false

/-- The process is in the commit branch of `end_op`. -/
def Pc.commits : Pc → Bool
  | commit _ | clearAcquire | clearBody => true
  | _ => false

/-- The process is about to sleep. -/
def Pc.dozes : Pc → Bool
  | sleepLock | sleepUnlock | sleepSet => true
  | _ => false

attribute [local simp] Pc.holds Pc.inside Pc.commits Pc.dozes

/-- A step that only moves a process, without a lock. -/
inductive Moves (s : State N) (p : Fin N) : Input N → Pc → Prop
  | beginOp (h : s.pc p = .idle) : Moves s p (.beginOp p) .beginAcquire
  | logWrite (b : Nat) (data : Block) (h : s.pc p = .inOp) :
      Moves s p (.logWrite p b data) (.writeAcquire b data)
  | endOp (h : s.pc p = .inOp) : Moves s p (.endOp p) .endAcquire
  | woken (h : s.pc p = .asleep) (hs : s.sleeping p = false) : Moves s p (.step p) .beginAcquire

/-- The pairs of points around `acquire(&log.lock)`. -/
inductive Acquires : Pc → Pc → Prop
  | beginOp : Acquires .beginAcquire .beginTest
  | logWrite (b : Nat) (data : Block) : Acquires (.writeAcquire b data) (.writeBody b data)
  | endOp : Acquires .endAcquire .endBody
  | clear : Acquires .clearAcquire .clearBody

/-- One step with its record, by what it does. -/
inductive Step (g : Area) (s : State N) (h : OpLog N) : Input N → State N → OpLog N → Prop
  | moves (i : Input N) (p : Fin N) (c : Pc) (hm : Moves s p i c) : Step g s h i (s.goto p c) h
  | acquire (p : Fin N) (c : Pc) (hc : Acquires (s.pc p) c) (hl : s.lock = none) :
      Step g s h (.step p) { s with lock := some p, pc := upd s.pc p c } h
  | enter (p : Fin N) (hp : s.pc p = .beginTest) (ha : s.admits) :
      Step g s h (.step p)
        { s with outstanding := s.outstanding + 1, pc := upd s.pc p .inOp, lock := none }
        { h with cur := upd h.cur p [] }
  | wait (p : Fin N) (hp : s.pc p = .beginTest) (ha : ¬ s.admits) :
      Step g s h (.step p) (s.goto p .sleepLock) h
  | lockOwn (p : Fin N) (hp : s.pc p = .sleepLock) : Step g s h (.step p) (s.goto p .sleepUnlock) h
  | unlock (p : Fin N) (hp : s.pc p = .sleepUnlock) :
      Step g s h (.step p) { s with pc := upd s.pc p .sleepSet, lock := none } h
  | sleep (p : Fin N) (hp : s.pc p = .sleepSet) :
      Step g s h (.step p) { s with pc := upd s.pc p .asleep, sleeping := upd s.sleeping p true } h
  | write (p : Fin N) (b : Nat) (data : Block) (hp : s.pc p = .writeBody b data)
      (hfit : ¬ s.tooBig g) (ho : ¬ s.outstanding < 1) :
      Step g s h (.step p)
        { s with
          store := { s.store with cache := upd s.store.cache b data, lh := s.store.lh.absorb b }
          pc := upd s.pc p .inOp
          lock := none }
        { h with cur := upd h.cur p (b :: h.cur p) }
  | tooBig (p : Fin N) (b : Nat) (data : Block) (hp : s.pc p = .writeBody b data)
      (hbig : s.tooBig g) :
      Step g s h (.step p) { s with panicked := some "too big a transaction" } h
  | outside (p : Fin N) (b : Nat) (data : Block) (hp : s.pc p = .writeBody b data)
      (hfit : ¬ s.tooBig g) (ho : s.outstanding < 1) :
      Step g s h (.step p) { s with panicked := some "log_write outside of trans" }
        { h with cur := upd h.cur p (b :: h.cur p) }
  | endPanic (p : Fin N) (hp : s.pc p = .endBody) (hc : s.committing = true) :
      Step g s h (.step p)
        { s with outstanding := s.outstanding - 1, panicked := some "log.committing" }
        { h with ended := h.cur p :: h.ended }
  | endLast (p : Fin N) (hp : s.pc p = .endBody) (hc : s.committing = false)
      (ho : s.outstanding - 1 = 0) :
      Step g s h (.step p)
        { s with
          outstanding := s.outstanding - 1
          committing := true
          pc := upd s.pc p (.commit (Log.commit g))
          lock := none }
        { h with ended := h.cur p :: h.ended }
  | endOther (p : Fin N) (hp : s.pc p = .endBody) (hc : s.committing = false)
      (ho : s.outstanding - 1 ≠ 0) :
      Step g s h (.step p)
        { s with outstanding := s.outstanding - 1, pc := upd s.pc p (.wakeup 0) }
        { h with ended := h.cur p :: h.ended }
  | wakeSelf (p : Fin N) (hp : s.pc p = .wakeup p) :
      Step g s h (.step p) (s.goto p (.wakeup (p + 1))) h
  | wake (p q : Fin N) (hp : s.pc p = .wakeup q) (hq : (s.pc q).holdsOwn = false) :
      Step g s h (.step p)
        { s with sleeping := upd s.sleeping q false, pc := upd s.pc p (.wakeup (q + 1)) } h
  | wakeDone (p : Fin N) (i : Nat) (hp : s.pc p = .wakeup i) (hi : N ≤ i) :
      Step g s h (.step p) { s with pc := upd s.pc p .idle, lock := none } h
  | commitAct (p : Fin N) (rest rest' : Prog Store Unit) (x : Store) (hp : s.pc p = .commit rest)
      (hx : rest.step s.store = some (rest', x)) :
      Step g s h (.step p) { s with store := x, pc := upd s.pc p (.commit rest') } h
  | commitDone (p : Fin N) (hp : s.pc p = .commit (.ret ())) :
      Step g s h (.step p) (s.goto p .clearAcquire) h
  | clear (p : Fin N) (hp : s.pc p = .clearBody) :
      Step g s h (.step p) { s with committing := false, pc := upd s.pc p (.wakeup 0) }
        { h with ended := [] }
  | kill (q : Fin N) : Step g s h (.kill q) { s with sleeping := upd s.sleeping q false } h

variable {c : Pc} {x : State N × OpLog N} {i : Input N} {pc : Fin N → Pc} {lock : Option (Fin N)}
  {sleeping : Fin N → Bool}

variable {s s' : State N} {p : Fin N}

theorem acquire_eq_some (h : s.acquire p c = some s') :
    s.lock = none ∧ s' = { s with lock := some p, pc := upd s.pc p c } := by
  unfold State.acquire at h
  split at h
  · exact ⟨‹_›, (Option.some.inj h).symm⟩
  · cases h

theorem step_of_acquire {h : OpLog N} {c' : Pc} (hc : s.pc p = c)
    (ha : Acquires c c') (hr : h.record g s p = h) (hs : s.acquire p c' = some s') :
    Step g s h (.step p) s' (h.record g s p) := by
  obtain ⟨hl, rfl⟩ := acquire_eq_some hs
  rw [hr]
  exact .acquire p c' (hc ▸ ha) hl

/-- Every step of a process. -/
theorem step_of_exec {h : OpLog N} (hs : s.exec g p = some s') :
    Step g s h (.step p) s' (h.record g s p) := by
  unfold State.exec at hs
  cases hp : s.pc p with
  | idle => simp [hp] at hs
  | inOp => simp [hp] at hs
  | beginAcquire =>
    rw [hp] at hs
    exact step_of_acquire hp .beginOp (by simp [OpLog.record, hp]) hs
  | writeAcquire b data =>
    rw [hp] at hs
    exact step_of_acquire hp (.logWrite b data) (by simp [OpLog.record, hp]) hs
  | endAcquire =>
    rw [hp] at hs
    exact step_of_acquire hp .endOp (by simp [OpLog.record, hp]) hs
  | clearAcquire =>
    rw [hp] at hs
    exact step_of_acquire hp .clear (by simp [OpLog.record, hp]) hs
  | beginTest =>
    simp only [hp, OpLog.record] at hs ⊢
    split at hs <;> rename_i ha <;> cases hs
    · rw [if_pos ha]
      exact .enter p hp ha
    · rw [if_neg ha]
      exact .wait p hp ha
  | sleepLock =>
    simp only [hp, OpLog.record] at hs ⊢
    cases hs
    exact .lockOwn p hp
  | sleepUnlock =>
    simp only [hp, OpLog.record] at hs ⊢
    cases hs
    exact .unlock p hp
  | sleepSet =>
    simp only [hp, OpLog.record] at hs ⊢
    cases hs
    exact .sleep p hp
  | asleep =>
    simp only [hp, OpLog.record] at hs ⊢
    split at hs
    · cases hs
    · rename_i hsl
      cases hs
      exact .moves _ p _ (.woken hp (by simpa using hsl))
  | writeBody b data =>
    simp only [hp, OpLog.record, State.logWrite] at hs ⊢
    split at hs
    · cases hs
      rw [if_pos ‹_›]
      exact .tooBig p b data hp ‹_›
    · rw [if_neg ‹_›]
      split at hs <;> cases hs
      · exact .outside p b data hp ‹_› ‹_›
      · exact .write p b data hp ‹_› ‹_›
  | endBody =>
    simp only [hp, OpLog.record, State.endOp] at hs ⊢
    split at hs
    · cases hs
      exact .endPanic p hp ‹_›
    · rename_i hc
      split at hs <;> cases hs
      · exact .endLast p hp (by simpa using hc) ‹_›
      · exact .endOther p hp (by simpa using hc) ‹_›
  | wakeup i =>
    simp only [hp, OpLog.record, State.wakeupStep] at hs ⊢
    split at hs
    · rename_i hi
      split at hs
      · rename_i heq
        cases hs
        subst heq
        exact .wakeSelf _ hp
      · split at hs
        · cases hs
        · rename_i hq
          cases hs
          exact .wake p ⟨i, hi⟩ hp (by simpa using hq)
    · cases hs
      exact .wakeDone p i hp (by omega)
  | commit rest =>
    simp only [hp, OpLog.record, State.commitStep] at hs ⊢
    cases rest with
    | ret r =>
      cases hs
      exact .commitDone p hp
    | act f k =>
      obtain ⟨⟨rest', x⟩, hx, rfl⟩ := Option.map_eq_some_iff.mp hs
      exact .commitAct p _ rest' x hp hx
  | clearBody =>
    simp only [hp, OpLog.record] at hs ⊢
    cases hs
    exact .clear p hp

theorem call_eq_some {ready : Pc → Bool} (h : s.call p ready c = some s') :
    ready (s.pc p) = true ∧ s' = s.goto p c := by
  unfold State.call at h
  split at h
  · exact ⟨‹_›, (Option.some.inj h).symm⟩
  · cases h

/-- Every step of the recorded system. -/
theorem step_cases {y : State N × OpLog N} (hs : (recordedOps g N).step x i = some y) :
    x.1.panicked = none ∧ Step g x.1 x.2 i y.1 y.2 := by
  obtain ⟨hrun, hh⟩ := observe_step.mp hs
  clear hs
  obtain ⟨s', h'⟩ := y
  have hs : State.step g x.1 i = some s' := hrun
  simp only [State.step] at hs
  simp only at hh
  split at hs
  · cases hs
  · rename_i hp
    refine ⟨by simpa using hp, ?_⟩
    subst hh
    cases i with
    | step p => exact step_of_exec hs
    | kill q =>
      simp only at hs
      split at hs
      · cases hs
      · cases hs
        exact .kill q
    | beginOp p =>
      obtain ⟨hr, rfl⟩ := call_eq_some hs
      refine .moves _ p _ (.beginOp ?_)
      cases hpc : x.1.pc p <;> simp_all
    | logWrite p b data =>
      obtain ⟨hr, rfl⟩ := call_eq_some hs
      refine .moves _ p _ (.logWrite b data ?_)
      cases hpc : x.1.pc p <;> simp_all
    | endOp p =>
      obtain ⟨hr, rfl⟩ := call_eq_some hs
      refine .moves _ p _ (.endOp ?_)
      cases hpc : x.1.pc p <;> simp_all

/-! ## The header in memory -/

theorem find_cases (lh : Header) (b : Nat) :
    lh.find b < lh.n ∧ lh.block (lh.find b) = b ∨ lh.find b = lh.n ∧ ¬ lh.names b := by
  unfold Header.find
  cases hf : (List.range lh.n).find? fun i => lh.block i = b with
  | some i =>
    have hm := List.mem_of_find?_eq_some hf
    have hp := List.find?_some hf
    exact .inl ⟨List.mem_range.mp hm, by simpa using hp⟩
  | none =>
    refine .inr ⟨rfl, ?_⟩
    rintro ⟨i, hi, hb⟩
    have hnone := List.find?_eq_none.mp hf i (List.mem_range.mpr hi)
    exact hnone (by simpa using hb)

/-- A block that is in the header is absorbed. -/
theorem absorb_of_lt {lh : Header} {b : Nat} (hlt : lh.find b < lh.n) (hb : lh.block (lh.find b) = b) :
    lh.absorb b = lh := by
  unfold Header.absorb
  rw [if_neg (by omega)]
  congr
  funext i
  by_cases hi : i = lh.find b
  · rw [hi, upd_self, hb]
  · rw [upd_of_ne hi]

/-- `log_write` adds its block to those of the header. -/
theorem absorb_names {lh : Header} {b x : Nat} :
    (lh.absorb b).names x ↔ x = b ∨ lh.names x := by
  rcases find_cases lh b with ⟨hlt, hb⟩ | ⟨heq, hb⟩
  · rw [absorb_of_lt hlt hb]
    constructor
    · exact .inr
    · rintro (rfl | h)
      · exact ⟨_, hlt, hb⟩
      · exact h
  · simp only [Header.names, Header.absorb, heq, if_true]
    constructor
    · rintro ⟨i, hi, hx⟩
      by_cases hn : i = lh.n
      · rw [hn, upd_self] at hx
        exact .inl hx.symm
      · rw [upd_of_ne hn] at hx
        exact .inr ⟨i, by omega, hx⟩
    · rintro (rfl | ⟨i, hi, hx⟩)
      · exact ⟨lh.n, by omega, upd_self ..⟩
      · exact ⟨i, by omega, by rw [upd_of_ne (by omega)]; exact hx⟩

/-- `commit` leaves an empty header, and on the way it changes nothing in it but `n`. -/
theorem commit_clears (s : Store) :
    (commit g).wp (fun x => x.lh = s.lh ∨ x.lh = { s.lh with n := 0 }) (fun _ => False)
      (fun _ x => x.lh.n = 0) s := by
  have hloop (n : Nat) (body : Nat → Prog Store Unit) (x : Store) (hx : x.lh = s.lh)
      (hbody : ∀ i x, x.lh = s.lh →
        (body i).wp (fun x => x.lh = s.lh ∨ x.lh = { s.lh with n := 0 }) (fun _ => False)
          (fun _ x => x.lh = s.lh) x) :
      (Prog.forUp body 0 n).wp (fun x => x.lh = s.lh ∨ x.lh = { s.lh with n := 0 }) (fun _ => False)
        (fun _ x => x.lh = s.lh) x :=
    Prog.wp_for (J := fun _ x => x.lh = s.lh) (fun _ _ => .inl) (fun i x _ => hbody i x) hx
  have hwrite (x : Store) (hx : x.lh = s.lh) :
      (writeLog g).wp (fun x => x.lh = s.lh ∨ x.lh = { s.lh with n := 0 }) (fun _ => False)
        (fun _ x => x.lh = s.lh) x := by
    simp only [writeLog, getHead, Prog.wp_bind, Prog.wp_gets]
    refine ⟨.inl hx, .inl hx, hloop _ _ _ hx fun i y hy => ?_⟩
    simp [bread, bwrite, Store.write, hy]
  have hinstall (x : Store) (hx : x.lh = s.lh) :
      (installTrans g).wp (fun x => x.lh = s.lh ∨ x.lh = { s.lh with n := 0 }) (fun _ => False)
        (fun _ x => x.lh = s.lh) x := by
    simp only [installTrans, getHead, Prog.wp_bind, Prog.wp_gets]
    refine ⟨.inl hx, .inl hx, hloop _ _ _ hx fun i y hy => ?_⟩
    simp [bread, bwrite, Store.write, hy]
  simp only [commit, getHead, Prog.wp_bind, Prog.wp_gets]
  refine ⟨.inl trivial, .inl trivial, ?_⟩
  split
  · rw [Prog.wp_bind]
    refine Prog.wp_mono (fun _ x _ hx => ?_) (hwrite s rfl)
    rw [Prog.wp_bind]
    refine Prog.wp_mono (fun _ y _ hy => ?_) (writeHead_wp (.inl hx) (.inl hx))
    have hy' : y.lh = s.lh := by rw [hy]; exact hx
    rw [Prog.wp_bind]
    refine Prog.wp_mono (fun _ z _ hz => ?_) (hinstall y hy')
    have hz' : z.clear.lh = { s.lh with n := 0 } := by rw [← hz]; rfl
    rw [Prog.wp_bind, clearHead, Prog.wp_modify]
    refine ⟨.inl hz, .inr hz', Prog.wp_mono (fun _ w _ hw => ?_) (writeHead_wp (.inr hz') (.inr hz'))⟩
    rw [hw]
    rfl
  · rename_i hn
    exact ⟨.inl rfl, by omega⟩

/-! ## The invariant -/

/-- The number of processes inside an operation. -/
def insideCount (pc : Fin N → Pc) : Int := ∑ p, if (pc p).inside then 1 else 0

/-- Process `p` sleeps or is about to. -/
def waiting (s : State N) (p : Fin N) : Prop := (s.pc p).dozes = true ∨ s.sleeping p = true

/-- Somebody will wake process `p`: the current operations or the commit still have to end, or a
    `wakeup` has not reached it yet. -/
def Owed (s : State N) (p : Fin N) : Prop :=
  s.committing = true ∨ 0 < s.outstanding ∨ ∃ q i, s.pc q = .wakeup i ∧ i ≤ p.val

/-- The block was passed to `log_write` by an operation of the current group. -/
def passed (pc : Fin N → Pc) (h : OpLog N) (b : Nat) : Prop :=
  (∃ op ∈ h.ended, b ∈ op) ∨ ∃ p, (pc p).inside = true ∧ b ∈ h.cur p

structure Inv (g : Area) (s : State N) (h : OpLog N) : Prop where
  lock : ∀ p, s.lock = some p ↔ (s.pc p).holds = true
  count : s.outstanding = insideCount s.pc
  commit : ∀ p, (s.pc p).commits = true → s.committing = true
  unique : ∀ p q, (s.pc p).commits = true → (s.pc q).commits = true → p = q
  excl : s.committing = true → s.outstanding = 0
  fresh : s.committing = false → s.outstanding = 0 → h.ended = []
  cleared : ∀ p, s.pc p = .clearAcquire ∨ s.pc p = .clearBody → s.store.lh.n = 0
  sleeping : ∀ p, s.sleeping p = true → s.pc p = .asleep
  owed : ∀ p, waiting s p → Owed s p
  names : s.committing = false → ∀ b, s.store.lh.names b ↔ passed s.pc h b
  group : ∀ p rest, s.pc p = .commit rest →
    ∃ s₀ : Store, (∀ b, s₀.lh.names b ↔ ∃ op ∈ h.ended, b ∈ op) ∧
      Prog.Steps (Log.commit g) s₀ rest s.store

variable {s s' : State N} {h h' : OpLog N} {p : Fin N}

/-! ### The count of operations -/

theorem insideCount_upd (pc : Fin N → Pc) (p : Fin N) (c : Pc) :
    insideCount (upd pc p c) =
      insideCount pc - (if (pc p).inside then 1 else 0) + (if c.inside then 1 else 0) := by
  have hsum := Finset.sum_eq_of_eq_off (fun q => if (pc q).inside then (1 : Int) else 0)
    (fun q => if (upd pc p c q).inside then (1 : Int) else 0) p
    (fun q hq => by rw [upd_of_ne hq])
  simp only [upd_self] at hsum
  exact hsum

theorem insideCount_nonneg (pc : Fin N → Pc) : 0 ≤ insideCount pc := by
  refine Finset.sum_nonneg fun q _ => ?_
  split <;> decide

theorem insideCount_pos (hp : (pc p).inside = true) :
    0 < insideCount pc := by
  have hle : (if (pc p).inside then 1 else 0 : Int) ≤ insideCount pc :=
    Finset.single_le_sum (f := fun q => if (pc q).inside then (1 : Int) else 0)
      (fun q _ => by split <;> decide) (Finset.mem_univ p)
  rw [hp] at hle
  exact hle

section

variable (hi : Inv g s h)
include hi

/-- While a commit runs, nobody is inside an operation. -/
theorem Inv.not_inside (hc : s.committing = true) (q : Fin N) :
    (s.pc q).inside = false := by
  have hzero := hi.excl hc
  rw [hi.count] at hzero
  cases hq : (s.pc q).inside with
  | false => rfl
  | true =>
    have hpos := insideCount_pos hq
    omega

/-- Nobody is outside of the commit branch but holds a commit. -/
theorem Inv.not_commits (hc : s.committing = false) (q : Fin N) :
    (s.pc q).commits = false := by
  cases hq : (s.pc q).commits with
  | false => rfl
  | true =>
    have hcommit := hi.commit q hq
    rw [hc] at hcommit
    cases hcommit

/-- Between two groups the header is empty. -/
theorem Inv.empty (hc : s.committing = false) (ho : s.outstanding = 0) :
    s.store.lh.n = 0 := by
  have hended := hi.fresh hc ho
  rcases Nat.eq_zero_or_pos s.store.lh.n with hn | hn
  · exact hn
  · rcases (hi.names hc (s.store.lh.block 0)).mp ⟨0, hn, rfl⟩ with ⟨op, hop, -⟩ | ⟨q, hq, -⟩
    · rw [hended] at hop
      cases hop
    · have hpos := insideCount_pos hq
      have hcount := hi.count
      omega

/-! ### Steps that only move processes and locks -/

/-- A step that changes neither the log nor its counters. -/
theorem Inv.frame (p : Fin N) (hinside : c.inside = (s.pc p).inside)
    (hcommits : c.commits = true → (s.pc p).commits = true)
    (hclear : c = .clearAcquire ∨ c = .clearBody → s.store.lh.n = 0)
    (hrest : ∀ rest, c = .commit rest → s.pc p = .commit rest)
    (hlock : ∀ q, lock = some q ↔ (upd s.pc p c q).holds = true)
    (hsleep : ∀ q, sleeping q = true → upd s.pc p c q = .asleep)
    (howed : ∀ q, waiting { s with lock := lock, sleeping := sleeping, pc := upd s.pc p c } q →
      Owed { s with lock := lock, sleeping := sleeping, pc := upd s.pc p c } q) :
    Inv g { s with lock := lock, sleeping := sleeping, pc := upd s.pc p c } h := by
  have hcom : ∀ q, (upd s.pc p c q).commits = true → (s.pc q).commits = true :=
    forall_upd (P := fun q c => Pc.commits c = true → (s.pc q).commits = true) hcommits fun _ _ => id
  refine ⟨hlock, ?_, ?_, ?_, hi.excl, hi.fresh, ?_, hsleep, howed, ?_, ?_⟩
  · show s.outstanding = insideCount (upd s.pc p c)
    rw [insideCount_upd, hinside, hi.count]
    omega
  · exact fun q hq => hi.commit q (hcom q hq)
  · exact fun q r hq hr => hi.unique q r (hcom q hq) (hcom r hr)
  · exact forall_upd (P := fun _ (c : Pc) => c = .clearAcquire ∨ c = .clearBody → s.store.lh.n = 0) hclear
      fun q _ => hi.cleared q
  · intro hc b
    rw [hi.names hc b]
    simp only [passed, apply_upd (F := Pc.inside) hinside]
  · intro q rest hq
    simp only at hq
    by_cases hqp : q = p
    · rw [hqp, upd_self] at hq
      exact hi.group p rest (hrest rest hq)
    · rw [upd_of_ne hqp] at hq
      exact hi.group q rest hq

/-! ### The lock -/

/-- The process keeps what it has of the lock. -/
theorem Inv.lock_keep (hc : c.holds = (s.pc p).holds) (q : Fin N) :
    s.lock = some q ↔ (upd s.pc p c q).holds = true := by
  rw [hi.lock q, apply_upd (F := Pc.holds) hc]

theorem Inv.lock_acquire (hl : s.lock = none) (hc : c.holds = true) (q : Fin N) :
    some p = some q ↔ (upd s.pc p c q).holds = true := by
  by_cases hqp : q = p
  · rw [hqp, upd_self, hc]
    simp
  · rw [upd_of_ne hqp, ← hi.lock q, hl]
    simp [Ne.symm hqp]

theorem Inv.lock_release (hp : (s.pc p).holds = true) (hc : c.holds = false) (q : Fin N) :
    none = some q ↔ (upd s.pc p c q).holds = true := by
  have hlp := (hi.lock p).mpr hp
  by_cases hqp : q = p
  · rw [hqp, upd_self, hc]
    simp
  · have hq : ¬ (s.pc q).holds = true := by
      rw [← hi.lock q, hlp]
      simp [Ne.symm hqp]
    simp only [upd_of_ne hqp, hq, reduceCtorEq]

/-! ### Waiting processes -/

/-- Whoever waits afterwards waited before, and no `wakeup` goes on. -/
theorem Inv.owed_keep (hp : ∀ i, s.pc p ≠ .wakeup i)
    (hw : ∀ q, waiting { s with lock := lock, sleeping := sleeping, pc := upd s.pc p c } q →
      waiting s q) (q : Fin N)
    (hq : waiting { s with lock := lock, sleeping := sleeping, pc := upd s.pc p c } q) :
    Owed { s with lock := lock, sleeping := sleeping, pc := upd s.pc p c } q := by
  rcases hi.owed q (hw q hq) with hc | ho | ⟨r, i, hr, hle⟩
  · exact .inl hc
  · exact .inr (.inl ho)
  · have hrp : r ≠ p := fun heq => hp i (heq ▸ hr)
    exact .inr (.inr ⟨r, i, (upd_of_ne hrp _).trans hr, hle⟩)

end

/-- The process does not start to wait. -/
theorem waiting_of_upd (hc : c.dozes = true → waiting s p) (q : Fin N)
    (hq : waiting { s with lock := lock, pc := upd s.pc p c } q) : waiting s q := by
  rcases hq with hd | hs
  · simp only at hd
    by_cases hqp : q = p
    · rw [hqp, upd_self] at hd
      exact hqp ▸ hc hd
    · rw [upd_of_ne hqp] at hd
      exact .inl hd
  · exact .inr hs

section

variable (hi : Inv g s h)
include hi

/-- A process that leaves a point other than `asleep` was not asleep. -/
theorem Inv.sleeping_upd (hp : s.pc p = .asleep → c = .asleep ∨ s.sleeping p = false) (q : Fin N)
    (hq : s.sleeping q = true) : upd s.pc p c q = .asleep := by
  have hasleep := hi.sleeping q hq
  by_cases hqp : q = p
  · subst hqp
    rw [upd_self]
    rcases hp hasleep with hc | hf
    · exact hc
    · rw [hq] at hf
      cases hf
  · rw [upd_of_ne hqp, hasleep]

/-- The next round of a `wakeup` that has passed process `k`. -/
theorem Inv.owed_round {k : Fin N} (hp : s.pc p = .wakeup k)
   
    (hw : ∀ q, waiting { s with sleeping := sleeping, pc := upd s.pc p (.wakeup (k + 1)) } q →
      waiting s q ∧ q ≠ k) (q : Fin N)
    (hq : waiting { s with sleeping := sleeping, pc := upd s.pc p (.wakeup (k + 1)) } q) :
    Owed { s with sleeping := sleeping, pc := upd s.pc p (.wakeup (k + 1)) } q := by
  obtain ⟨hold, hne⟩ := hw q hq
  rcases hi.owed q hold with hc | ho | ⟨r, i, hr, hle⟩
  · exact .inl hc
  · exact .inr (.inl ho)
  · refine .inr (.inr ?_)
    by_cases hrp : r = p
    · subst hrp
      have hik : i = k.val := by
        rw [hp] at hr
        exact (Pc.wakeup.inj hr).symm
      have hlt : k.val + 1 ≤ q.val := by
        have hneq : q.val ≠ k.val := fun heq => hne (Fin.ext heq)
        omega
      exact ⟨r, k + 1, upd_self .., hlt⟩
    · exact ⟨r, i, (upd_of_ne hrp _).trans hr, hle⟩

/-- A process that does not get in waits for somebody. -/
theorem Inv.owed_of_not_admits (ha : ¬ s.admits) (q : Fin N) : Owed s q := by
  have hnonneg := insideCount_nonneg s.pc
  have hcount := hi.count
  cases hc : s.committing with
  | true => exact .inl hc
  | false =>
    by_cases ho : s.outstanding = 0
    · have hn := hi.empty hc ho
      refine absurd ⟨hc, ?_⟩ ha
      rw [hn, ho]
      decide
    · exact .inr (.inl (by omega))

/-! ### Preservation -/

/-- A step that changes nothing but the point where the process stands. -/
theorem Inv.goto (hinside : c.inside = (s.pc p).inside)
    (hcommits : c.commits = true → (s.pc p).commits = true)
    (hclear : c = .clearAcquire ∨ c = .clearBody → s.store.lh.n = 0)
    (hrest : ∀ rest, c = .commit rest → s.pc p = .commit rest) (hholds : c.holds = (s.pc p).holds)
    (hasleep : s.pc p = .asleep → c = .asleep ∨ s.sleeping p = false)
    (hwakeup : ∀ i, s.pc p ≠ .wakeup i) (hdozes : c.dozes = true → waiting s p) :
    Inv g (s.goto p c) h :=
  hi.frame p hinside hcommits hclear hrest (hi.lock_keep hholds) (hi.sleeping_upd hasleep)
    (hi.owed_keep hwakeup (waiting_of_upd hdozes))

theorem Inv.moves (hm : Moves s p i c) : Inv g (s.goto p c) h := by
  cases hm with
  | beginOp hp | logWrite b data hp | endOp hp => apply hi.goto <;> simp [hp]
  | woken hp hs => apply hi.goto <;> simp [hp, hs]

theorem Inv.acquire (hc : Acquires (s.pc p) c) (hl : s.lock = none) :
    Inv g { s with lock := some p, pc := upd s.pc p c } h := by
  generalize hp : s.pc p = c₀ at hc
  cases hc with
  | clear =>
    have hn := hi.cleared p (.inl hp)
    refine hi.frame p ?_ ?_ (fun _ => hn) ?_ (hi.lock_acquire hl ?_) (hi.sleeping_upd ?_)
      (hi.owed_keep ?_ (waiting_of_upd ?_)) <;> simp [hp]
  | beginOp | logWrite b data | endOp =>
    refine hi.frame p ?_ ?_ ?_ ?_ (hi.lock_acquire hl ?_) (hi.sleeping_upd ?_)
      (hi.owed_keep ?_ (waiting_of_upd ?_)) <;> simp [hp]

theorem Inv.wait (hp : s.pc p = .beginTest) (ha : ¬ s.admits) :
    Inv g (s.goto p .sleepLock) h := by
  refine hi.frame p ?_ ?_ ?_ ?_ (hi.lock_keep ?_) (hi.sleeping_upd ?_) (fun q _ => ?_)
  case refine_7 =>
    rcases hi.owed_of_not_admits ha q with hc | ho | ⟨r, i, hr, hle⟩
    · exact .inl hc
    · exact .inr (.inl ho)
    · have hrp : r ≠ p := by
        rintro rfl
        rw [hp] at hr
        cases hr
      exact .inr (.inr ⟨r, i, (upd_of_ne hrp _).trans hr, hle⟩)
  all_goals simp [hp]

theorem Inv.lockOwn (hp : s.pc p = .sleepLock) :
    Inv g (s.goto p .sleepUnlock) h := by
  apply hi.goto <;> simp [hp, waiting]

theorem Inv.unlock (hp : s.pc p = .sleepUnlock) :
    Inv g { s with pc := upd s.pc p .sleepSet, lock := none } h := by
  refine hi.frame p ?_ ?_ ?_ ?_ (hi.lock_release ?_ ?_) (hi.sleeping_upd ?_)
    (hi.owed_keep ?_ (waiting_of_upd ?_)) <;>
    simp [hp, waiting]

theorem Inv.sleep (hp : s.pc p = .sleepSet) :
    Inv g { s with pc := upd s.pc p .asleep, sleeping := upd s.sleeping p true } h := by
  refine hi.frame p ?_ ?_ ?_ ?_ (hi.lock_keep ?_) (fun q hq => ?_)
    (hi.owed_keep ?_ fun q hq => ?_)
  case refine_6 =>
    by_cases hqp : q = p
    · rw [hqp, upd_self]
    · rw [upd_of_ne hqp] at hq ⊢
      exact hi.sleeping q hq
  case refine_8 =>
    by_cases hqp : q = p
    · exact .inl (by rw [hqp, hp]; rfl)
    · rcases hq with hd | hs
      · exact .inl (by simpa only [upd_of_ne hqp] using hd)
      · exact .inr (by simpa only [upd_of_ne hqp] using hs)
  all_goals simp [hp]

/-- Only one process is in a `wakeup`, and none is about to sleep on `log.lock` meanwhile. -/
theorem Inv.holder_unique {q : Fin N} (hp : (s.pc p).holds = true) (hq : (s.pc q).holds = true) : q = p := by
  have h1 := (hi.lock p).mpr hp
  have h2 := (hi.lock q).mpr hq
  exact Option.some.inj (h2.symm.trans h1)

theorem Inv.wakeSelf (hp : s.pc p = .wakeup p) :
    Inv g (s.goto p (.wakeup (p + 1))) h := by
  refine hi.frame p ?_ ?_ ?_ ?_ (hi.lock_keep ?_) (hi.sleeping_upd ?_)
    (hi.owed_round hp fun q hq => ?_)
  case refine_7 =>
    have hold : waiting s q := waiting_of_upd (by simp) q hq
    refine ⟨hold, ?_⟩
    rintro rfl
    rcases hold with hd | hs
    · rw [hp] at hd
      cases hd
    · have hasleep := hi.sleeping _ hs
      rw [hp] at hasleep
      cases hasleep
  all_goals simp [hp]

theorem Inv.wake {q : Fin N} (hp : s.pc p = .wakeup q) (hq : (s.pc q).holdsOwn = false) :
    Inv g { s with sleeping := upd s.sleeping q false, pc := upd s.pc p (.wakeup (q + 1)) } h := by
  have hsleep : ∀ r, upd s.sleeping q false r = true → s.sleeping r = true ∧ r ≠ q := by
    intro r hr
    by_cases hrq : r = q
    · rw [hrq, upd_self] at hr
      cases hr
    · rw [upd_of_ne hrq] at hr
      exact ⟨hr, hrq⟩
  refine hi.frame p ?_ ?_ ?_ ?_ (hi.lock_keep ?_)
    (fun r hr => hi.sleeping_upd (by simp [hp]) r (hsleep r hr).1) (hi.owed_round hp fun r hr => ?_)
  case refine_6 =>
    rcases hr with hd | hs
    · simp only at hd
      have hrp : r ≠ p := by
        rintro rfl
        rw [upd_self] at hd
        cases hd
      rw [upd_of_ne hrp] at hd
      refine ⟨.inl hd, ?_⟩
      -- A process that is about to sleep and not yet holds its own lock holds `log.lock`.
      rintro rfl
      have hlock : s.pc r = .sleepLock := by
        cases hpc : s.pc r <;> simp_all [Pc.dozes, Pc.holdsOwn]
      exact hrp (hi.holder_unique (by simp [hp]) (by simp [hlock]))
    · exact ⟨.inr (hsleep r hs).1, (hsleep r hs).2⟩
  all_goals simp [hp]

theorem Inv.wakeDone {i : Nat} (hp : s.pc p = .wakeup i) (hle : N ≤ i) :
    Inv g { s with pc := upd s.pc p .idle, lock := none } h := by
  refine hi.frame p ?_ ?_ ?_ ?_ (hi.lock_release ?_ ?_) (hi.sleeping_upd ?_) (fun q hq => ?_)
  case refine_8 =>
    rcases hi.owed q (waiting_of_upd (by simp) q hq) with hc | ho | ⟨r, j, hr, hj⟩
    · exact .inl hc
    · exact .inr (.inl ho)
    · have hrp : r ≠ p := by
        rintro rfl
        rw [hp] at hr
        obtain rfl := Pc.wakeup.inj hr
        omega
      exact .inr (.inr ⟨r, j, (upd_of_ne hrp _).trans hr, hj⟩)
  all_goals simp [hp]

theorem Inv.commitDone (hp : s.pc p = .commit (.ret ())) :
    Inv g (s.goto p .clearAcquire) h := by
  obtain ⟨s₀, -, hsteps⟩ := hi.group p _ hp
  have hn : s.store.lh.n = 0 := (Prog.wp_steps (commit_clears s₀) hsteps).2
  apply hi.goto <;> simp [hp, hn]

theorem Inv.kill (q : Fin N) :
    Inv g { s with sleeping := upd s.sleeping q false } h := by
  have hsleep : ∀ r, upd s.sleeping q false r = true → s.sleeping r = true := by
    intro r hr
    by_cases hrq : r = q
    · rw [hrq, upd_self] at hr
      cases hr
    · rwa [upd_of_ne hrq] at hr
  exact
    { hi with
      sleeping := fun r hr => hi.sleeping r (hsleep r hr)
      owed := fun r hr => hi.owed r (hr.imp id (hsleep r)) }

end

/-! ### Steps that change the log -/

theorem Pc.commits_of_clear (h : c = .clearAcquire ∨ c = .clearBody) : c.commits = true := by
  rcases h with rfl | rfl <;> rfl

/-- Nobody is in the commit branch, so what is said about it holds. -/
theorem inv_of_not_committing (hc : s.committing = false) (hnone : ∀ q, (s.pc q).commits = false)
    (hlock : ∀ p, s.lock = some p ↔ (s.pc p).holds = true) (hcount : s.outstanding = insideCount s.pc)
    (hfresh : s.outstanding = 0 → h.ended = []) (hsleep : ∀ p, s.sleeping p = true → s.pc p = .asleep)
    (howed : ∀ p, Owed s p) (hnames : ∀ b, s.store.lh.names b ↔ passed s.pc h b) : Inv g s h := by
  have hno {P : Prop} {q : Fin N} (hq : (s.pc q).commits = true) : P := by
    rw [hnone q] at hq
    cases hq
  refine ⟨hlock, hcount, fun _ hq => hno hq, fun _ _ hq => hno hq, fun hct => ?_, fun _ => hfresh,
    fun _ hq => hno (Pc.commits_of_clear hq), hsleep, fun p _ => howed p, fun _ => hnames,
    fun _ _ hq => hno (by rw [hq]; rfl)⟩
  rw [hc] at hct
  cases hct

/-- Process `p` alone is in `commit`. -/
theorem inv_of_committing {rest : Prog Store Unit} (hc : s.committing = true)
    (hp : s.pc p = .commit rest) (honly : ∀ q, (s.pc q).commits = true → q = p)
    (hlock : ∀ p, s.lock = some p ↔ (s.pc p).holds = true) (hcount : s.outstanding = insideCount s.pc)
    (hzero : s.outstanding = 0) (hsleep : ∀ p, s.sleeping p = true → s.pc p = .asleep)
    (hgroup : ∃ s₀ : Store, (∀ b, s₀.lh.names b ↔ ∃ op ∈ h.ended, b ∈ op) ∧
      Prog.Steps (Log.commit g) s₀ rest s.store) : Inv g s h := by
  refine ⟨hlock, hcount, fun _ _ => hc, fun q r hq hr => (honly q hq).trans (honly r hr).symm,
    fun _ => hzero, ?_, fun q hq => ?_, hsleep, fun _ _ => .inl hc, ?_, fun q r hq => ?_⟩
  · simp [hc]
  · rw [honly q (Pc.commits_of_clear hq), hp] at hq
    simp at hq
  · simp [hc]
  · rw [honly q (by rw [hq]; rfl), hp] at hq
    cases hq
    exact hgroup

theorem Inv.commits_upd (hi : Inv g s h) (hc : s.committing = false) (hcc : c.commits = false) :
    ∀ q, (upd s.pc p c q).commits = false :=
  forall_upd (P := fun _ c => Pc.commits c = false) hcc fun q _ => hi.not_commits hc q

/-- A new operation has not passed any block. -/
theorem passed_enter (hp : (pc p).inside = false) (b : Nat) :
    passed (upd pc p .inOp) { h with cur := upd h.cur p [] } b ↔ passed pc h b := by
  refine or_congr Iff.rfl (exists_congr fun q => ?_)
  simp only
  by_cases hqp : q = p
  · rw [hqp, upd_self, upd_self, hp]
    simp
  · rw [upd_of_ne hqp, upd_of_ne hqp]

theorem Inv.enter (hi : Inv g s h) (hp : s.pc p = .beginTest) (ha : s.admits) :
    Inv g { s with outstanding := s.outstanding + 1, pc := upd s.pc p .inOp, lock := none }
      { h with cur := upd h.cur p [] } := by
  have hcount := hi.count
  have hnonneg := insideCount_nonneg s.pc
  refine inv_of_not_committing ha.1 (hi.commits_upd ha.1 rfl) (hi.lock_release (by simp [hp]) rfl) ?_
    (fun ho => ?_) (hi.sleeping_upd (by simp [hp])) (fun q => .inr (.inl ?_)) fun b => ?_
  · simp only [insideCount_upd, hp, Pc.inside]
    simpa using hcount
  · simp only at ho
    omega
  · simp only
    omega
  · rw [hi.names ha.1 b, passed_enter (by rw [hp]; rfl)]

/-- `log_write` passes one more block. -/
theorem passed_write (hp : (pc p).inside = true) (b x : Nat) :
    passed (upd pc p .inOp) { h with cur := upd h.cur p (b :: h.cur p) } x ↔
      x = b ∨ passed pc h x := by
  constructor
  · rintro (hended | ⟨q, hq, hx⟩)
    · exact .inr (.inl hended)
    · simp only at hx
      by_cases hqp : q = p
      · subst hqp
        rw [upd_self] at hx
        rcases List.mem_cons.mp hx with rfl | hx
        · exact .inl rfl
        · exact .inr (.inr ⟨q, hp, hx⟩)
      · rw [upd_of_ne hqp] at hq hx
        exact .inr (.inr ⟨q, hq, hx⟩)
  · rintro (rfl | hended | ⟨q, hq, hx⟩)
    · exact .inr ⟨p, by simp, by simp⟩
    · exact .inl hended
    · by_cases hqp : q = p
      · subst hqp
        exact .inr ⟨q, by simp, by simp [hx]⟩
      · exact .inr ⟨q, by simpa [upd_of_ne hqp] using hq, by simpa [upd_of_ne hqp] using hx⟩

theorem Inv.write (hi : Inv g s h) {b : Nat} {data : Block} (hp : s.pc p = .writeBody b data) :
    Inv g
      { s with
        store := { s.store with cache := upd s.store.cache b data, lh := s.store.lh.absorb b }
        pc := upd s.pc p .inOp
        lock := none }
      { h with cur := upd h.cur p (b :: h.cur p) } := by
  have hcount := hi.count
  have hins : (s.pc p).inside = true := by rw [hp]; rfl
  have hpos := insideCount_pos hins
  have hnc : s.committing = false := by
    cases hc : s.committing with
    | false => rfl
    | true =>
      have hzero := hi.excl hc
      omega
  refine inv_of_not_committing hnc (hi.commits_upd hnc rfl) (hi.lock_release (by simp [hp]) rfl) ?_
    (fun ho => ?_) (hi.sleeping_upd (by simp [hp])) (fun q => .inr (.inl ?_)) fun x => ?_
  · simp only [insideCount_upd, hp, Pc.inside]
    simpa using hcount
  · simp only at ho
    omega
  · simp only
    omega
  · rw [absorb_names, hi.names hnc x, passed_write hins]

/-- The blocks that were passed do not change when an operation ends. -/
theorem passed_end (hp : (pc p).inside = true) (hc : c.inside = false) (b : Nat) :
    passed (upd pc p c) { h with ended := h.cur p :: h.ended } b ↔ passed pc h b := by
  constructor
  · rintro (⟨op, hop, hb⟩ | ⟨q, hq, hb⟩)
    · rcases List.mem_cons.mp hop with rfl | hop
      · exact .inr ⟨p, hp, hb⟩
      · exact .inl ⟨op, hop, hb⟩
    · have hqp : q ≠ p := by
        rintro rfl
        rw [upd_self, hc] at hq
        cases hq
      rw [upd_of_ne hqp] at hq
      exact .inr ⟨q, hq, hb⟩
  · rintro (⟨op, hop, hb⟩ | ⟨q, hq, hb⟩)
    · exact .inl ⟨op, List.mem_cons_of_mem _ hop, hb⟩
    · by_cases hqp : q = p
      · subst hqp
        exact .inl ⟨_, List.mem_cons_self .., hb⟩
      · exact .inr ⟨q, by rwa [upd_of_ne hqp], hb⟩

section

variable (hi : Inv g s h)
include hi

theorem Inv.endOther (hp : s.pc p = .endBody) (hc : s.committing = false) (ho : s.outstanding - 1 ≠ 0) :
    Inv g { s with outstanding := s.outstanding - 1, pc := upd s.pc p (.wakeup 0) }
      { h with ended := h.cur p :: h.ended } := by
  have hcount := hi.count
  have hins : (s.pc p).inside = true := by rw [hp]; rfl
  have hpos := insideCount_pos hins
  refine inv_of_not_committing hc (hi.commits_upd hc rfl) (hi.lock_keep (by rw [hp]; rfl)) ?_
    (fun hz => absurd hz ho) (hi.sleeping_upd (by simp [hp])) (fun q => .inr (.inl ?_)) fun b => ?_
  · simp only [insideCount_upd, hp, Pc.inside]
    simp [hcount]
  · simp only
    omega
  · rw [hi.names hc b, passed_end hins rfl]

theorem Inv.endLast (hp : s.pc p = .endBody) (hc : s.committing = false) (ho : s.outstanding - 1 = 0) :
    Inv g
      { s with
        outstanding := s.outstanding - 1
        committing := true
        pc := upd s.pc p (.commit (Log.commit g))
        lock := none }
      { h with ended := h.cur p :: h.ended } := by
  have hcount := hi.count
  have hins : (s.pc p).inside = true := by rw [hp]; rfl
  have hcount' : insideCount (upd s.pc p (.commit (Log.commit g))) = 0 := by
    rw [insideCount_upd, hins]
    simp
    omega
  refine inv_of_committing rfl (upd_self ..) ?_ (hi.lock_release (by rw [hp]; rfl) rfl) ?_ ho
    (hi.sleeping_upd (by simp [hp])) ⟨s.store, fun b => ?_, .refl _ _⟩
  · exact forall_upd (P := fun q c => Pc.commits c = true → q = p) (fun _ => rfl) fun q _ hq => by
      rw [hi.not_commits hc q] at hq
      cases hq
  · simp only [hcount']
    exact ho
  · rw [hi.names hc b, ← passed_end hins (c := .commit (Log.commit g)) rfl]
    constructor
    · rintro (hended | ⟨r, hr, -⟩)
      · exact hended
      · have hpos := insideCount_pos hr
        omega
    · exact .inl

theorem Inv.commitAct {rest rest' : Prog Store Unit} {x : Store}
    (hp : s.pc p = .commit rest) (hx : rest.step s.store = some (rest', x)) :
    Inv g { s with store := x, pc := upd s.pc p (.commit rest') } h := by
  have hcp : (s.pc p).commits = true := by rw [hp]; rfl
  have hc := hi.commit p hcp
  obtain ⟨s₀, hnames, hsteps⟩ := hi.group p rest hp
  refine inv_of_committing hc (upd_self ..) ?_ (hi.lock_keep (by rw [hp]; rfl)) ?_ (hi.excl hc)
    (hi.sleeping_upd (by simp [hp])) ⟨s₀, hnames, hsteps.tail hx⟩
  · exact forall_upd (P := fun q c => Pc.commits c = true → q = p) (fun _ => rfl)
      fun q _ hq => hi.unique q p hq hcp
  · simp only [insideCount_upd, hp, Pc.inside]
    simpa using hi.count

theorem Inv.clear (hp : s.pc p = .clearBody) :
    Inv g { s with committing := false, pc := upd s.pc p (.wakeup 0) } { h with ended := [] } := by
  have hcp : (s.pc p).commits = true := by rw [hp]; rfl
  have hc := hi.commit p hcp
  have hn := hi.cleared p (.inr hp)
  refine inv_of_not_committing rfl ?_ (hi.lock_keep (by rw [hp]; rfl)) ?_ (fun _ => rfl)
    (hi.sleeping_upd (by simp [hp])) (fun q => .inr (.inr ⟨p, 0, upd_self .., Nat.zero_le _⟩)) ?_
  · refine forall_upd (P := fun _ c => Pc.commits c = false) rfl fun q hqp => ?_
    cases hq : (s.pc q).commits with
    | false => rfl
    | true => exact absurd (hi.unique q p hq hcp) hqp
  · simp only [insideCount_upd, hp, Pc.inside]
    simpa using hi.count
  · intro b
    constructor
    · rintro ⟨i, hlt, -⟩
      simp only [hn] at hlt
      omega
    · rintro (⟨op, hop, -⟩ | ⟨q, hq, -⟩)
      · cases hop
      · simp only [apply_upd (F := Pc.inside) (show Pc.inside (.wakeup 0) = (s.pc p).inside by rw [hp]; rfl),
          hi.not_inside hc q] at hq
        cases hq

/-- Every step preserves the invariant. -/
theorem Inv.step (hs : Step g s h i s' h') : Inv g s' h' := by
  cases hs with
  | moves i p c hm => exact hi.moves hm
  | acquire p c hc hl => exact hi.acquire hc hl
  | enter p hp ha => exact hi.enter hp ha
  | wait p hp ha => exact hi.wait hp ha
  | lockOwn p hp => exact hi.lockOwn hp
  | unlock p hp => exact hi.unlock hp
  | sleep p hp => exact hi.sleep hp
  | write p b data hp hfit ho => exact hi.write hp
  | tooBig p b data hp hbig => exact { hi with }
  | outside p b data hp hfit ho =>
    have hpos := insideCount_pos (show (s.pc p).inside = true by rw [hp]; rfl)
    have hcount := hi.count
    omega
  | endPanic p hp hc =>
    have hins := hi.not_inside hc p
    rw [hp] at hins
    cases hins
  | endLast p hp hc ho => exact hi.endLast hp hc ho
  | endOther p hp hc ho => exact hi.endOther hp hc ho
  | wakeSelf p hp => exact hi.wakeSelf hp
  | wake p q hp hq => exact hi.wake hp hq
  | wakeDone p i hp hle => exact hi.wakeDone hp hle
  | commitAct p rest rest' x hp hx => exact hi.commitAct hp hx
  | commitDone p hp => exact hi.commitDone hp
  | clear p hp => exact hi.clear hp
  | kill q => exact hi.kill q

end

theorem inv_init (hx : (recordedOps g N).init x) : Inv g x.1 x.2 := by
  obtain ⟨⟨hn, hd, ho, hc, hl, hs, hpc, -⟩, hh⟩ := hx
  have hinside : ∀ q, (x.1.pc q).inside = false := fun q => by rw [hpc q]; rfl
  have hnames : ∀ b, ¬ x.1.store.lh.names b := by
    rintro b ⟨i, hi, -⟩
    omega
  have hcount : insideCount x.1.pc = 0 := by simp only [insideCount, hinside, Bool.false_eq_true, if_false,
    Finset.sum_const_zero]
  refine ⟨fun p => by simp [hl, hpc], by rw [ho, hcount], fun p hp => ?_, fun p q hp => ?_,
    fun _ => ho, fun _ _ => by rw [hh], fun p hp => by simp [hpc] at hp,
    fun p hp => by simp [hs] at hp, fun p hp => ?_, fun _ b => ?_, fun p rest hp => by simp [hpc] at hp⟩
  · simp [hpc] at hp
  · simp [hpc] at hp
  · simp [waiting, hpc, hs] at hp
  · simp [hnames, passed, hpc, hh]

variable {C : State N × OpLog N → Input N → Prop}

/-- The invariant holds in every reachable state. -/
theorem inv_reachable (hx : (recordedOps g N).ReachableBy C x) : Inv g x.1 x.2 :=
  hx.induct (P := fun x => Inv g x.1 x.2) (fun _ h0 => inv_init h0)
    fun _ _ _ _ hi _ hs => hi.step (step_cases hs).2

/-! ## The isolation of commits -/

/-- No step changes the number of operations while a commit runs. -/
theorem Inv.outstanding_step (hi : Inv g s h) (hc : s.committing = true) (hs : Step g s h i s' h') :
    s'.outstanding = s.outstanding := by
  have hnot : ∀ p, s.pc p ≠ .endBody := by
    intro p hp
    have hins := hi.not_inside hc p
    rw [hp] at hins
    cases hins
  cases hs with
  | enter p hp ha =>
    have hf := ha.1
    rw [hc] at hf
    cases hf
  | endPanic p hp _ | endLast p hp _ _ | endOther p hp _ _ => exact absurd hp (hnot p)
  | _ => rfl

/-- The only panic is that of a transaction that does not fit. -/
theorem panicked_reachable (hx : (recordedOps g N).ReachableBy C x) :
    x.1.panicked = none ∨ x.1.panicked = some "too big a transaction" := by
  refine hx.induct (P := fun x => x.1.panicked = none ∨ x.1.panicked = some "too big a transaction")
    (fun x h0 => ?_) fun x i y hr _ _ hs => ?_
  · obtain ⟨⟨-, -, -, -, -, -, -, hnone⟩, -⟩ : (recordedOps g N).init x := h0
    exact .inl hnone
  have hi := inv_reachable hr
  obtain ⟨hnone, hstep⟩ := step_cases hs
  generalize y.1 = s', y.2 = h' at hstep
  cases hstep with
  | tooBig p b data hp hbig => exact .inr rfl
  | outside p b data hp hfit ho =>
    have hpos := insideCount_pos (show (x.1.pc p).inside = true by rw [hp]; rfl)
    have hcount := hi.count
    omega
  | endPanic p hp hc =>
    have hins := hi.not_inside hc p
    rw [hp] at hins
    cases hins
  | _ => exact .inl hnone

/-- In every interleaving: while `log.committing` is set no operation is outstanding and none begins
    or writes; `commit` works on the union of the blocks of complete operations; the panic of
    `end_op` is not reached; and when `log.lock` is free, a process that sleeps in `begin_op`
    waits for an operation or a commit. -/
theorem group_commit_isolated (g : Area) (N : Nat) (s : State N) (h : OpLog N)
    (hx : (recordedOps g N).Reachable (s, h)) :
    (s.committing = true → s.outstanding = 0 ∧ (∀ p, (s.pc p).inside = false) ∧
      ∀ i y, (recordedOps g N).step (s, h) i = some y → ∀ p, (y.1.pc p).inside = false) ∧
    (∀ p rest, s.pc p = .commit rest → s.committing = true ∧
      ∃ s₀ : Store, (∀ b, s₀.lh.names b ↔ ∃ op ∈ h.ended, b ∈ op) ∧
        Prog.Steps (Log.commit g) s₀ rest s.store) ∧
    s.panicked ≠ some "log.committing" ∧
    (s.lock = none → ∀ p, s.sleeping p = true → s.committing = true ∨ 0 < s.outstanding) := by
  have hi := inv_reachable hx
  refine ⟨fun hc => ⟨hi.excl hc, hi.not_inside hc, fun i y hy p => ?_⟩, fun p rest hp => ?_, ?_, ?_⟩
  · have hi' := inv_reachable (ReachableBy.step hx trivial hy)
    have hout := hi.outstanding_step hc (step_cases hy).2
    rw [hi.excl hc, hi'.count] at hout
    cases hp : (y.1.pc p).inside with
    | false => rfl
    | true =>
      have hpos := insideCount_pos hp
      omega
  · exact ⟨hi.commit p (by rw [hp]; rfl), hi.group p rest hp⟩
  · rcases panicked_reachable hx with hp | hp <;> simp only at hp <;> rw [hp] <;> decide
  · intro hl p hp
    rcases hi.owed p (.inr hp) with hc | ho | ⟨q, i, hq, -⟩
    · exact .inl hc
    · exact .inr ho
    · have hlock := (hi.lock q).mpr (by simp only; rw [hq]; rfl)
      simp only [hl] at hlock
      cases hlock

/-- A machine at rest, with an empty log. -/
def restState (N : Nat) : State N where
  store := .boot fun _ _ => 0
  outstanding := 0
  committing := false
  lock := none
  sleeping _ := false
  pc _ := .idle
  panicked := none

theorem recordedOps_init (g : Area) (N : Nat) :
    (recordedOps g N).init (restState N, ⟨fun _ => [], []⟩) :=
  ⟨⟨rfl, rfl, rfl, rfl, rfl, fun _ => rfl, fun _ => rfl, rfl⟩, rfl⟩

/-- The first process commits block 50 while the second one wants to begin. -/
def commitRun : List (Input 2) :=
  [.beginOp 0, .step 0, .step 0, .logWrite 0 50 fun _ => 1, .step 0, .step 0, .endOp 0, .step 0, .step 0,
    .beginOp 1, .step 1, .step 1, .step 1, .step 1, .step 1]

theorem group_commit_isolated_sleeper :
    ∃ x : State 2 × OpLog 2, (recordedOps mkfsArea 2).Reachable x ∧ x.1.lock = none ∧
      x.1.sleeping 1 = true ∧ x.2.ended = [[50]] ∧ (x.1.committing = true ∨ 0 < x.1.outstanding) := by
  have hrun : ((recordedOps mkfsArea 2).run (restState 2, ⟨fun _ => [], []⟩) commitRun).map
      (fun x => (x.1.lock, x.1.sleeping 1, x.2.ended)) = some (none, true, [[50]]) := by
    decide +kernel
  obtain ⟨x, hreach, heq⟩ := exists_reachable_of_run hrun (recordedOps_init _ _)
  simp only [Prod.mk.injEq] at heq
  exact ⟨x, hreach, heq.1, heq.2.1, heq.2.2,
    (group_commit_isolated _ _ x.1 x.2 hreach).2.2.2 heq.1 1 heq.2.1⟩

end Xv6.Log
