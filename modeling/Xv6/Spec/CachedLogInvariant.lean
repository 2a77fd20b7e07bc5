import Xv6.Kernel.CachedLog
import Xv6.Spec.BcacheData
import Xv6.Spec.GroupCommit

/-!
# The invariant of the log on top of the cache

What was stored in each block is recorded along a run. The invariant ties the buffers, the disk and the
pins to this record and to `log.lh`, says where a process in `commit` stands, and that there is at most
one such process.

## Key results

- `Stored.call`: calls of `kernel/bio.c` that neither pin nor unpin keep the invariant
- `Stored.logNew`, `Stored.unpin`, `Stored.clear`: what changes the log
- `Stored.at_other`, `Stored.at_self`: what a process in `commit` knows is kept
-/

namespace Xv6.CachedLog

open Bcache (BufPtr History Contents Structure Faithful)
open Log (Area Block)
open TransitionSystem

variable {g : Area} {N : Nat}

/-! ## The record of a run -/

/-- What was stored, pinned and released, how many blocks `install_trans` has unpinned, and whether
    a process has meddled with the log: stored into the log area or logged a block of it, or, outside
    of an operation, stored into a block that is logged. -/
structure Ghost (N : Nat) where
  hist : History
  cont : Contents N
  installed : Nat
  meddled : Bool

/-- Block `k` is one of the blocks in `log.lh`. -/
def State.logged (s : State N) (k : Nat) : Bool := (List.range s.lh.n).any fun j => s.lh.block j = k

namespace Ghost

/-- Record a call of `kernel/bio.c`. -/
def recordIo (s : State N) (gh : Ghost N) : Option (Bcache.Input N) → Ghost N
  | none => gh
  | some j => { gh with hist := gh.hist.record s.io j, cont := gh.cont.record s.io j }

/-- Record the step of a commit. -/
def recordCommit (gh : Ghost N) : Mode → Ghost N
  | .commit (.unpin _ _ _) => { gh with installed := gh.installed + 1 }
  | .commit .clear => { gh with installed := 0 }
  | _ => gh

/-- Record what the step means for the log. -/
def recordLog (g : Area) (s : State N) (gh : Ghost N) : Input N → Ghost N
  | .logWrite _ b =>
    { gh with
      cont := { gh.cont with dirty := upd gh.cont.dirty b false }
      meddled := gh.meddled || g.contains (s.io.buf b).blockno }
  | .store p b _ =>
    { gh with
      meddled := gh.meddled || g.contains (s.io.buf b).blockno ||
        (s.mode p ≠ .inOp && s.logged (s.io.buf b).blockno) }
  | .step p =>
    if (s.io.pc p).ready then gh.recordCommit (s.mode p) else gh
  | _ => gh

/-- Record the step on input `i` in state `s`. -/
def record (g : Area) (s : State N) (i : Input N) (gh : Ghost N) : Ghost N :=
  match s.plan g i with
  | some (j, _) => (gh.recordIo s j).recordLog g s i
  | none => gh

/-- Nothing was stored yet, so every block has what is on the disk. -/
def start (N : Nat) (disk : Nat → Block) : Ghost N :=
  ⟨⟨fun _ => 0, fun _ => 0, 0⟩, ⟨disk, fun _ => false, fun _ => 0⟩, 0, false⟩

end Ghost

/-- The log with the record of its run. -/
def recordedLog (g : Area) (N : Nat) (disk : Nat → Block) :
    TransitionSystem (State N × Ghost N) (Input N) :=
  (cachedLog g N disk).observe (.start N disk) fun s i gh => gh.record g s i

/-- A process changes only what it holds, calls `log_write` inside an operation, and releases a buffer
    only when its changes were passed to `log_write` or `bwrite`. -/
def Disciplined (x : State N × Ghost N) : Input N → Prop
  | .store p b _ => x.1.io.lock b = some p
  | .bwrite p b => x.1.io.lock b = some p
  | .logWrite p b => x.1.io.lock b = some p ∧ x.1.mode p = .inOp
  | .brelse p b => x.1.io.lock b = some p ∧ x.2.cont.dirty b = false
  | _ => True

instance (x : State N × Ghost N) (i : Input N) : Decidable (Disciplined x i) := by
  cases i <;> simp only [Disciplined] <;> infer_instance

/-! ## The invariant -/

/-- Block `k` is logged and not yet installed. -/
def Pending (s : State N) (gh : Ghost N) (k : Nat) : Prop :=
  ∃ j, gh.installed ≤ j ∧ j < s.lh.n ∧ s.lh.block j = k

/-- Process `p` holds buffer `b` and is not reading it any more. -/
structure Settled (s : State N) (p : Fin N) (b : BufPtr) : Prop where
  lock : s.io.lock b = some p
  read : s.io.pc p ≠ .read b
  validate : s.io.pc p ≠ .validate b

/-- The first `m` log blocks have the bytes of the blocks they are for. -/
def Copied (g : Area) (s : State N) (gh : Ghost N) (m : Nat) : Prop :=
  gh.meddled = false → ∀ j, j < m → j < s.lh.n →
    gh.cont.stored (g.start + j + 1) = gh.cont.stored (s.lh.block j)

/-- The blocks that are unpinned when the loop of phase `ph` has done `tail` rounds. -/
def Phase.unpinned (ph : Phase) (tail : Nat) : Nat :=
  match ph with
  | log => 0
  | install => tail

/-- The log blocks that are written when the loop of phase `ph` has done `tail` of `n` rounds. -/
def Phase.copied (ph : Phase) (tail n : Nat) : Nat :=
  match ph with
  | log => tail
  | install => n

/-- In round `tail` of a loop of `commit`; `u` and `m` say whether its unpinning and its copying
    are done. -/
structure Round (g : Area) (s : State N) (gh : Ghost N) (ph : Phase) (tail u m : Nat) : Prop where
  lt : tail < s.lh.n
  unpinned : gh.installed = ph.unpinned (tail + u)
  copied : Copied g s gh (ph.copied (tail + m) s.lh.n)

/-- The process holds the log block and the home block of round `tail`. -/
structure Both (g : Area) (s : State N) (p : Fin N) (tail : Nat) (x y : BufPtr) : Prop where
  log : Settled s p x
  home : Settled s p y
  logBlock : (s.io.buf x).blockno = g.start + tail + 1
  homeBlock : (s.io.buf y).blockno = s.lh.block tail
  ne : x ≠ y

/-- What the process reads in `bread`, or has just read, has no changes that were not passed on. -/
def Fresh (s : State N) (gh : Ghost N) (p : Fin N) : Prop :=
  ∀ b, (s.io.pc p).held = some b → gh.cont.dirty b = false

/-- In `write_head`. -/
structure Head (g : Area) (s : State N) (gh : Ghost N) (ph : Phase) : Prop where
  unpinned : gh.installed = 0
  copied : Copied g s gh (ph.copied s.lh.n s.lh.n)

/-- What holds where a process stands in `commit`. -/
def At (g : Area) (s : State N) (gh : Ghost N) (p : Fin N) : CommitPc → Prop
  | .readLog ph tail =>
    tail ≤ s.lh.n ∧ gh.installed = ph.unpinned tail ∧ Copied g s gh (ph.copied tail s.lh.n)
  | .readHome ph tail =>
    Round g s gh ph tail 0 0 ∧ gh.cont.want p = g.start + tail + 1 ∧ Fresh s gh p
  | .copy ph tail x =>
    Round g s gh ph tail 0 0 ∧ gh.cont.want p = s.lh.block tail ∧ Fresh s gh p ∧ Settled s p x ∧
      (s.io.buf x).blockno = g.start + tail + 1 ∧ gh.cont.dirty x = false ∧
      (s.io.pc p).held ≠ some x
  | .write ph tail x y =>
    Round g s gh ph tail 0 1 ∧ Both g s p tail x y ∧ gh.cont.dirty (ph.src x y) = false
  | .unpin tail x y =>
    Round g s gh .install tail 0 1 ∧ Both g s p tail x y ∧ gh.cont.dirty x = false ∧
      gh.cont.dirty y = false ∧ s.io.disk (s.lh.block tail) = (s.io.buf y).data
  | .relseSrc ph tail x y =>
    Round g s gh ph tail 1 1 ∧ Both g s p tail x y ∧ gh.cont.dirty x = false ∧
      gh.cont.dirty y = false
  | .relseDst ph tail x y =>
    Round g s gh ph tail 1 1 ∧ Settled s p (ph.dst x y) ∧ gh.cont.dirty (ph.dst x y) = false
  | .headRead ph => Head g s gh ph
  | .headFill ph => Head g s gh ph ∧ gh.cont.want p = g.start ∧ Fresh s gh p
  | .headWrite ph b => Head g s gh ph ∧ Settled s p b
  | .headRelse ph b => Head g s gh ph ∧ Settled s p b ∧ gh.cont.dirty b = false
  | .clear => gh.installed = s.lh.n
  | .done => gh.installed = 0

/-- The processes inside operations. -/
def State.ops (s : State N) : Nat := ∑ p, if s.mode p = .inOp then 1 else 0

/-- Buffers, disk and pins against the record and `log.lh`. -/
structure Stored (g : Area) (s : State N) (gh : Ghost N) : Prop where
  ring : ∃ order, Structure order s.io gh.hist
  bytes : Faithful (Pending s gh) s.io gh.cont
  distinct : ∀ i j, i < s.lh.n → j < s.lh.n → s.lh.block i = s.lh.block j → i = j
  pinned : ∀ k, Pending s gh k →
    ∃ b, s.io.Has b k ∧ (s.io.buf b).valid = true ∧ gh.hist.pins b = 1
  pins : ∀ b, gh.hist.pins b ≠ 0 → ∃ k, s.io.Has b k ∧ Pending s gh k
  fits : s.lh.n < g.size
  home : gh.meddled = false → ∀ j, j < s.lh.n → ¬ g.contains (s.lh.block j)

/-- `log.outstanding` and `log.committing` against the processes. -/
structure Admitted (s : State N) (gh : Ghost N) : Prop where
  ops : s.outstanding = s.ops
  committing : ∀ p, (s.mode p).commits = true → s.committing = true
  single : ∀ p q, (s.mode p).commits = true → (s.mode q).commits = true → p = q
  exclusive : s.committing = true → s.outstanding = 0
  installed : s.committing = false → gh.installed = 0

structure Inv (g : Area) (s : State N) (gh : Ghost N) : Prop where
  stored : Stored g s gh
  admitted : Admitted s gh
  regs : ∀ p c, s.mode p = .commit c → At g s gh p c

/-! ## Steps -/

/-- A step makes at most one call of `kernel/bio.c`. -/
theorem step_cases {x y : State N × Ghost N} {i : Input N} {disk : Nat → Block}
    (hs : (recordedLog g N disk).step x i = some y) :
    x.1.io.panicked = none ∧ ∃ j t, x.1.plan g i = some (j, t) ∧
      y.2 = (x.2.recordIo x.1 j).recordLog g x.1 i ∧
      (j = none ∧ y.1 = t ∨
        ∃ j' io, j = some j' ∧ x.1.io.step j' = some io ∧ y.1 = { t with io := io }) := by
  obtain ⟨hs, hy⟩ := observe_step.mp hs
  simp only [cachedLog, State.step] at hs
  split at hs
  · cases hs
  · rename_i hpan
    refine ⟨by simpa using hpan, ?_⟩
    cases hplan : x.1.plan g i with
    | none => simp [hplan] at hs
    | some r =>
      obtain ⟨j, t⟩ := r
      refine ⟨j, t, rfl, ?_, ?_⟩
      · rw [hy, Ghost.record, hplan]
      · cases j with
        | none =>
          simp only [hplan, Option.some.injEq] at hs
          exact .inl ⟨rfl, hs.symm⟩
        | some j =>
          simp only [hplan, Option.map_eq_some_iff] at hs
          obtain ⟨io, hio, hy1⟩ := hs
          exact .inr ⟨j, io, rfl, hio, hy1.symm⟩

variable {j : Bcache.Input N} {s t : State N} {gh gh' : Ghost N} {p : Fin N} {c : CommitPc}
  {b : BufPtr}

/-- A call of `kernel/bio.c` is a step of the recorded cache. -/
theorem ioStep {s : Bcache.State N} {h : History} {io : Bcache.State N} (hs : s.step j = some io) :
    Bcache.Step s h j io (h.record s j) := by
  have hrec : (Bcache.recordedCache N).step (s, h) j = some (io, h.record s j) :=
    observe_step.mpr ⟨hs, rfl⟩
  exact (Bcache.step_cases hrec).2

/-! ## What other steps leave as it is -/

/-- A process in `commit` does not notice steps that leave alone what it holds. -/
theorem At.frame (h : At g s gh p c) (hlh : t.lh = s.lh) (hinst : gh'.installed = gh.installed)
    (hcop : ∀ m, Copied g s gh m → Copied g t gh' m) (hwant : gh'.cont.want p = gh.cont.want p)
    (hkept : ∀ b, Settled s p b → Settled t p b ∧ Bcache.Kept s.io t.io gh.cont gh'.cont p b)
    (hheld : ∀ b, s.io.lock b = some p → (s.io.pc p).held ≠ some b → (t.io.pc p).held ≠ some b)
    (hfresh : Fresh s gh p → Fresh t gh' p) : At g t gh' p c := by
  have hround : ∀ {ph tail u m}, Round g s gh ph tail u m → Round g t gh' ph tail u m := by
    intro ph tail u m hr
    refine ⟨by rw [hlh]; exact hr.lt, by rw [hinst]; exact hr.unpinned, ?_⟩
    rw [hlh]
    exact hcop _ hr.copied
  have hboth : ∀ {tail x y}, Both g s p tail x y → Both g t p tail x y := by
    intro tail x y hb
    obtain ⟨hx, hkx⟩ := hkept x hb.log
    obtain ⟨hy, hky⟩ := hkept y hb.home
    exact ⟨hx, hy, hkx.same.2.2.1.trans hb.logBlock, by rw [hky.same.2.2.1, hlh, hb.homeBlock], hb.ne⟩
  have hhead : ∀ {ph}, Head g s gh ph → Head g t gh' ph := by
    intro ph hh
    refine ⟨hinst.trans hh.unpinned, ?_⟩
    rw [hlh]
    exact hcop _ hh.copied
  have hdirty : ∀ {b}, Settled s p b → gh.cont.dirty b = false → gh'.cont.dirty b = false :=
    fun hb hd => (hkept _ hb).2.dirty.trans hd
  cases c with
  | readLog ph tail =>
    obtain ⟨hle, hi, hc⟩ := h
    refine ⟨by rw [hlh]; exact hle, hinst.trans hi, ?_⟩
    rw [hlh]
    exact hcop _ hc
  | readHome ph tail => exact ⟨hround h.1, hwant.trans h.2.1, hfresh h.2.2⟩
  | copy ph tail x =>
    obtain ⟨hr, hw, hf, hx, hk, hd, hne⟩ := h
    obtain ⟨hx', hkx⟩ := hkept x hx
    exact ⟨hround hr, by rw [hwant, hlh, hw], hfresh hf, hx', hkx.same.2.2.1.trans hk, hdirty hx hd,
      hheld x hx.lock hne⟩
  | write ph tail x y =>
    obtain ⟨hr, hb, hd⟩ := h
    refine ⟨hround hr, hboth hb, ?_⟩
    cases ph with
    | log => exact hdirty hb.home hd
    | install => exact hdirty hb.log hd
  | unpin tail x y =>
    obtain ⟨hr, hb, hdx, hdy, hdisk⟩ := h
    refine ⟨hround hr, hboth hb, hdirty hb.log hdx, hdirty hb.home hdy, ?_⟩
    have hky := (hkept y hb.home).2
    rw [hlh, ← hb.homeBlock, hky.disk, hky.same.2.2.2, hb.homeBlock, hdisk]
  | relseSrc ph tail x y =>
    obtain ⟨hr, hb, hdx, hdy⟩ := h
    exact ⟨hround hr, hboth hb, hdirty hb.log hdx, hdirty hb.home hdy⟩
  | relseDst ph tail x y => exact ⟨hround h.1, (hkept _ h.2.1).1, hdirty h.2.1 h.2.2⟩
  | headRead ph => exact hhead h
  | headFill ph => exact ⟨hhead h.1, hwant.trans h.2.1, hfresh h.2.2⟩
  | headWrite ph b => exact ⟨hhead h.1, (hkept b h.2).1⟩
  | headRelse ph b => exact ⟨hhead h.1, (hkept b h.2.1).1, hdirty h.2.1 h.2.2⟩
  | clear =>
    show gh'.installed = t.lh.n
    rw [hinst, hlh]
    exact h
  | done => exact hinst.trans h

/-! ## Calls of the cache -/

/-- A call that neither pins nor unpins. -/
def Plain : Bcache.Input N → Prop
  | .bpin _ _ | .bunpin _ _ => False
  | _ => True

theorem record_pins {s : Bcache.State N} {h : History} (hj : Plain j) :
    (h.record s j).pins = h.pins := by
  cases j with
  | bpin p b => exact hj.elim
  | bunpin p b => exact hj.elim
  | step p =>
    simp only [History.record]
    split
    · split <;> rfl
    · rfl
  | bread p dev k | bwrite p b | brelse p b | store p b data => rfl

/-- What a call of the cache has to respect. -/
structure Respects (s : State N) (gh : Ghost N) (j : Bcache.Input N) : Prop where
  plain : Plain j
  passes : Bcache.Passes s.io gh.cont j
  released : Bcache.Disciplined (s.io, gh.hist) j

/-- A call of the cache, and what it records, with the log as it is. -/
structure Called (s t : State N) (gh gh' : Ghost N) (j : Bcache.Input N) : Prop where
  step : s.io.step j = some t.io
  ok : t.io.panicked = none
  lh : t.lh = s.lh
  hist : gh'.hist = gh.hist.record s.io j
  cont : gh'.cont = gh.cont.record s.io j
  installed : gh'.installed = gh.installed
  meddled : gh'.meddled = false → gh.meddled = false

theorem Called.pending (hc : Called s t gh gh' j) : Pending t gh' = Pending s gh := by
  funext k
  simp only [Pending, hc.lh, hc.installed]

section

variable (hst : Stored g s gh)
include hst

/-- Pending blocks are pinned. -/
theorem Stored.pins_pos {k : Nat} (hb : s.io.Has b k) (hk : Pending s gh k) :
    0 < gh.hist.pins b := by
  obtain ⟨order, hi⟩ := hst.ring
  obtain ⟨a, ha, -, hpin⟩ := hst.pinned k hk
  rw [hi.eq_of_has hb ha, hpin]
  exact Nat.one_pos

/-- Buffers with a pin are in use. -/
theorem Stored.refcnt_pos (hb : gh.hist.pins b ≠ 0) :
    0 < (s.io.buf b).refcnt := by
  obtain ⟨order, hi⟩ := hst.ring
  rw [hi.refs b]
  omega

theorem Stored.call (hr : Respects s gh j) (hc : Called s t gh gh' j) :
    Stored g t gh' := by
  obtain ⟨order, hi⟩ := hst.ring
  have hstep : Bcache.Step s.io gh.hist j t.io gh'.hist := hc.hist ▸ ioStep hc.step
  have hpins : gh'.hist.pins = gh.hist.pins := by rw [hc.hist, record_pins hr.plain]
  refine ⟨Bcache.structure_step hi hr.released hstep, ?_, ?_, fun k hk => ?_, fun b hb => ?_, ?_,
    fun hm => ?_⟩
  · rw [hc.pending, hc.cont]
    exact Bcache.faithful_step hst.bytes hi (fun b k => hst.pins_pos) hr.passes hstep hc.ok
  · rw [hc.lh]
    exact hst.distinct
  · rw [hc.pending] at hk
    obtain ⟨b, hb, hv, hpin⟩ := hst.pinned k hk
    obtain ⟨hid, hvalid⟩ := Bcache.inUse_step hi hstep (hst.refcnt_pos (b := b) (by omega))
    exact ⟨b, (hid.has k).mpr hb, hvalid hv, by rw [hpins, hpin]⟩
  · rw [hpins] at hb
    obtain ⟨k, hk, hpe⟩ := hst.pins b hb
    obtain ⟨hid, -⟩ := Bcache.inUse_step hi hstep (hst.refcnt_pos hb)
    exact ⟨k, (hid.has k).mpr hk, by rw [hc.pending]; exact hpe⟩
  · rw [hc.lh]
    exact hst.fits
  · rw [hc.lh]
    exact hst.home (hc.meddled hm)

/-- The processes in `commit` other than the one that makes the call. -/
theorem Stored.at_other (hc : Called s t gh gh' j)
    (hcop : ∀ m, Copied g s gh m → Copied g t gh' m) (hp : p ≠ j.process) (h : At g s gh p c) :
    At g t gh' p c := by
  obtain ⟨order, hi⟩ := hst.ring
  have hstep : Bcache.Step s.io gh.hist j t.io gh'.hist := hc.hist ▸ ioStep hc.step
  have ho := Bcache.step_onlyOf hstep
  have hpc : t.io.pc p = s.io.pc p := ho.pc p hp
  have hkept : ∀ b, s.io.lock b = some p → Bcache.Kept s.io t.io gh.cont gh'.cont p b := by
    intro b hb
    rw [hc.cont]
    refine Bcache.kept_step hst.bytes hi hstep hc.ok hb ?_
    cases j with
    | store q a data | bwrite q a | brelse q a | step q => exact fun heq => hp heq.1.symm
    | bread q dev k | bpin q a | bunpin q a => trivial
  refine h.frame hc.lh hc.installed hcop ?_ (fun b hb => ?_) (fun b _ hb => by rw [hpc]; exact hb)
    (fun hf b hb => ?_)
  · rw [hc.cont]
    cases j with
    | bread q dev k => exact upd_of_ne hp _
    | _ => rfl
  · have hk := hkept b hb.lock
    exact ⟨⟨hk.lock, hpc ▸ hb.read, hpc ▸ hb.validate⟩, hk⟩
  · rw [hpc] at hb
    rw [(hkept b ((hst.bytes.own p).holder b hb)).dirty]
    exact hf b hb

/-- The process in `commit` that goes on inside `bread` or `brelse`. -/
theorem Stored.at_self (hc : Called s t gh gh' (.step p))
    (hm : gh'.meddled = gh.meddled) (hp : (s.io.pc p).ready = false) (h : At g s gh p c) :
    At g t gh' p c := by
  obtain ⟨order, hi⟩ := hst.ring
  have hstep : Bcache.Step s.io gh.hist (.step p) t.io gh'.hist := hc.hist ▸ ioStep hc.step
  have hcont : gh'.cont = gh.cont := hc.cont
  have hnot : ∀ b, Settled s p b → (s.io.pc p).held ≠ some b := by
    intro b hb heq
    cases hpc : s.io.pc p with
    | read a => exact hb.read (by rw [hpc] at heq ⊢; simpa [Bcache.Pc.held] using heq)
    | validate a => exact hb.validate (by rw [hpc] at heq ⊢; simpa [Bcache.Pc.held] using heq)
    | ret a => rw [hpc] at hp; cases hp
    | idle | lockWait a | relse a => rw [hpc] at heq; cases heq
  have hnot' : ∀ b, Settled s p b → (t.io.pc p).held ≠ some b := by
    intro b hb heq
    cases Bcache.held_step hstep heq with
    | inl hold => exact hnot b hb hold
    | inr hfree => cases hb.lock.symm.trans hfree
  refine h.frame hc.lh hc.installed (fun m hcm hm' => ?_) (by rw [hcont]) (fun b hb => ?_)
    (fun b hl hne hb => ?_) (fun hf b hb => ?_)
  · rw [hcont, hc.lh]
    exact hcm (hm ▸ hm')
  · have hk : Bcache.Kept s.io t.io gh.cont gh'.cont p b := by
      rw [hc.cont]
      exact Bcache.kept_step hst.bytes hi hstep hc.ok hb.lock fun heq => hnot b hb heq.2
    refine ⟨⟨hk.lock, fun hr => hnot' b hb ?_, fun hv => hnot' b hb ?_⟩, hk⟩
    · rw [hr]; rfl
    · rw [hv]; rfl
  · cases Bcache.held_step hstep hb with
    | inl hold => exact hne hold
    | inr hfree => cases hl.symm.trans hfree
  · rw [hcont]
    cases Bcache.held_step hstep hb with
    | inl hold => exact hf b hold
    | inr hfree =>
      by_contra hd
      obtain ⟨q, hq⟩ := hst.bytes.dirty b (by simpa using hd)
      cases hq.symm.trans hfree

end

/-! ## Changes of the log alone -/

theorem At.congr (h : At g s gh p c) (hio : t.io = s.io) (hlh : t.lh = s.lh) : At g t gh p c := by
  refine h.frame hlh rfl (fun m hm => ?_) rfl (fun b hb => ?_) (fun b _ hne => ?_) fun hf b hb => ?_
  · rw [Copied, hlh]
    exact hm
  · refine ⟨⟨?_, ?_, ?_⟩, ?_, ?_, rfl, ?_⟩
    · rw [hio]; exact hb.lock
    · rw [hio]; exact hb.read
    · rw [hio]; exact hb.validate
    · rw [hio]; exact hb.lock
    · rw [hio]; exact ⟨rfl, rfl, rfl, rfl⟩
    · rw [hio]
  · rw [hio]; exact hne
  · rw [hio] at hb
    exact hf b hb

section

variable (hst : Stored g s gh)
include hst

theorem Stored.congr (hio : t.io = s.io) (hlh : t.lh = s.lh) :
    Stored g t gh := by
  have hpe : Pending t gh = Pending s gh := by
    funext k
    simp only [Pending, hlh]
  refine ⟨hio ▸ hst.ring, ?_, ?_, ?_, ?_, ?_, ?_⟩
  · rw [hpe, hio]; exact hst.bytes
  · rw [hlh]; exact hst.distinct
  · rw [hpe, hio]; exact hst.pinned
  · rw [hpe, hio]; exact hst.pins
  · rw [hlh]; exact hst.fits
  · rw [hlh]; exact hst.home

/-- The block of a new entry of the log: its buffer gets a pin. -/
theorem Stored.logNew (hinst : gh.installed = 0) (hl : s.io.lock b = some p)
    (hp : (s.io.pc p).ready = true) (hnew : ∀ j, j < s.lh.n → s.lh.block j ≠ (s.io.buf b).blockno)
    (hfit : s.lh.n + 1 < g.size) (hio : t.io = { s.io with cache := s.io.cache.bpin b })
    (hlh : t.lh = ⟨s.lh.n + 1, upd s.lh.block s.lh.n (s.io.buf b).blockno⟩)
    (hhist : gh'.hist = { gh.hist with pins := upd gh.hist.pins b (gh.hist.pins b + 1) })
    (hcont : gh'.cont = { gh.cont with dirty := upd gh.cont.dirty b false })
    (hinst' : gh'.installed = gh.installed)
    (hmed : gh'.meddled = false → gh.meddled = false ∧ ¬ g.contains (s.io.buf b).blockno) :
    Stored g t gh' := by
  obtain ⟨order, hi⟩ := hst.ring
  have hb := hst.bytes.has_of_lock hl
  have hv := hst.bytes.valid_of_lock hl hp
  have hblock : ∀ j, j < s.lh.n → t.lh.block j = s.lh.block j := by
    intro j hj
    rw [hlh]
    exact upd_of_ne (by omega) _
  have hlast : t.lh.block s.lh.n = (s.io.buf b).blockno := by
    rw [hlh]
    exact upd_self _ _ _
  have hn : t.lh.n = s.lh.n + 1 := by rw [hlh]
  have hold : ∀ k, Pending s gh k → Pending t gh' k := by
    rintro k ⟨j, hj, hlt, rfl⟩
    exact ⟨j, by omega, by omega, hblock j hlt⟩
  have hpe : Pending t gh' (s.io.buf b).blockno := ⟨s.lh.n, by omega, by omega, hlast⟩
  have hcases : ∀ k, Pending t gh' k → Pending s gh k ∨ k = (s.io.buf b).blockno := by
    rintro k ⟨j, hj, hlt, rfl⟩
    by_cases hjn : j = s.lh.n
    · exact .inr (by rw [hjn, hlast])
    · exact .inl ⟨j, by omega, by omega, (hblock j (by omega)).symm⟩
  -- the buffer has no pin yet
  have hzero : gh.hist.pins b = 0 := by
    by_contra hne
    obtain ⟨k, hk, j, -, hlt, hj⟩ := hst.pins b hne
    exact hnew j hlt (by rw [hj, hk.2])
  have hsame : ∀ a, Bcache.Same s.io t.io a := by
    intro a
    rw [hio]
    simp only [Bcache.Same, Bcache.State.buf, Bcache.buf_bpin, and_self]
  have hpins : gh'.hist.pins = upd gh.hist.pins b (gh.hist.pins b + 1) := by rw [hhist]
  refine ⟨⟨order, ?_⟩, ?_, fun i j hi' hj' heq => ?_, fun k hk => ?_, fun a ha => ?_, ?_,
    fun hm j hj => ?_⟩
  · rw [hio, hhist]
    exact hi.bpin b
  · rw [hcont]
    refine Faithful.leave (p := p) (hst.bytes.logged hold hpe) hsame ?_ ?_ (.inl ?_)
    · rw [hio]
    · rw [hio]
    · rw [hio]
  · rw [hn] at hi' hj'
    by_cases hin : i = s.lh.n
    · by_cases hjn : j = s.lh.n
      · omega
      · rw [hin, hlast, hblock j (by omega)] at heq
        exact absurd heq.symm (hnew j (by omega))
    · by_cases hjn : j = s.lh.n
      · rw [hjn, hlast, hblock i (by omega)] at heq
        exact absurd heq (hnew i (by omega))
      · rw [hblock i (by omega), hblock j (by omega)] at heq
        exact hst.distinct i j (by omega) (by omega) heq
  · rw [hpins]
    cases hcases k hk with
    | inr hkb =>
      refine ⟨b, ((hsame b).id.has k).mpr (hkb ▸ hb), (hsame b).1.trans hv, ?_⟩
      rw [upd_self, hzero]
    | inl hks =>
      obtain ⟨a, ha, hva, hpa⟩ := hst.pinned k hks
      have hab : a ≠ b := by
        rintro rfl
        omega
      exact ⟨a, ((hsame a).id.has k).mpr ha, (hsame a).1.trans hva, (upd_of_ne hab _).trans hpa⟩
  · by_cases hab : a = b
    · exact ⟨_, hab ▸ ((hsame b).id.has _).mpr hb, hpe⟩
    · rw [hpins, upd_of_ne hab] at ha
      obtain ⟨k, hk, hks⟩ := hst.pins a ha
      exact ⟨k, ((hsame a).id.has k).mpr hk, hold k hks⟩
  · omega
  · obtain ⟨hm, hk⟩ := hmed hm
    by_cases hjn : j = s.lh.n
    · rw [hjn, hlast]
      exact hk
    · rw [hblock j (by omega)]
      exact hst.home hm j (by omega)

/-- `log_write` of a block that is already in the log. -/
theorem Stored.logOld (hpe : Pending s gh (s.io.buf b).blockno)
    (hio : t.io = s.io) (hlh : t.lh = s.lh) (hhist : gh'.hist = gh.hist)
    (hcont : gh'.cont = { gh.cont with dirty := upd gh.cont.dirty b false })
    (hinst : gh'.installed = gh.installed) (hmed : gh'.meddled = false → gh.meddled = false) :
    Stored g t gh' := by
  have hpend : Pending t gh' = Pending s gh := by
    funext k
    simp only [Pending, hlh, hinst]
  refine ⟨?_, ?_, ?_, ?_, ?_, ?_, fun hm => ?_⟩
  · rw [hio, hhist]; exact hst.ring
  · rw [hpend, hio, hcont]
    exact hst.bytes.logged (fun _ h => h) hpe
  · rw [hlh]; exact hst.distinct
  · rw [hpend, hio, hhist]; exact hst.pinned
  · rw [hpend, hio, hhist]; exact hst.pins
  · rw [hlh]; exact hst.fits
  · rw [hlh]; exact hst.home (hmed hm)

/-- `bunpin` of the block of round `tail` of `install_trans`, which is on the disk. -/
theorem Stored.unpin {tail : Nat} (hinst : gh.installed = tail)
    (hlt : tail < s.lh.n) (hl : s.io.lock b = some p) (hk : (s.io.buf b).blockno = s.lh.block tail)
    (hdisk : s.io.disk (s.lh.block tail) = gh.cont.stored (s.lh.block tail))
    (hio : t.io = { s.io with cache := s.io.cache.bunpin b }) (hlh : t.lh = s.lh)
    (hhist : gh'.hist = { gh.hist with pins := upd gh.hist.pins b (gh.hist.pins b - 1) })
    (hcont : gh'.cont = gh.cont) (hinst' : gh'.installed = gh.installed + 1)
    (hmed : gh'.meddled = false → gh.meddled = false) : Stored g t gh' := by
  obtain ⟨order, hi⟩ := hst.ring
  have hb := hst.bytes.has_of_lock hl
  rw [hk] at hb
  have hold : ∀ k, Pending t gh' k → Pending s gh k := by
    rintro k ⟨j, hj, hjn, rfl⟩
    exact ⟨j, by omega, by rw [← hlh]; exact hjn, by rw [hlh]⟩
  have hrest : ∀ k, Pending s gh k → k ≠ s.lh.block tail → Pending t gh' k := by
    rintro k ⟨j, hj, hjn, rfl⟩ hne
    have hjt : j ≠ tail := fun heq => hne (by rw [heq])
    exact ⟨j, by omega, by rw [hlh]; exact hjn, by rw [hlh]⟩
  have hgone : ¬ Pending t gh' (s.lh.block tail) := by
    rintro ⟨j, hj, hjn, heq⟩
    rw [hlh] at hjn heq
    have := hst.distinct j tail hjn hlt heq
    omega
  have hone : gh.hist.pins b = 1 := by
    obtain ⟨a, ha, -, hpa⟩ := hst.pinned _ ⟨tail, by omega, hlt, rfl⟩
    rw [hi.eq_of_has hb ha, hpa]
  have hsame : ∀ a, Bcache.Same s.io t.io a := by
    intro a
    rw [hio]
    simp only [Bcache.Same, Bcache.State.buf, Bcache.buf_bunpin, and_self]
  have hpins : gh'.hist.pins = upd gh.hist.pins b (gh.hist.pins b - 1) := by rw [hhist]
  refine ⟨⟨order, ?_⟩, ?_, ?_, fun k hpk => ?_, fun a ha => ?_, ?_, fun hm => ?_⟩
  · rw [hio, hhist]
    exact hi.bunpin (by omega)
  · rw [hcont]
    refine Faithful.leave (p := p) (hst.bytes.installed hrest hdisk) hsame ?_ ?_ (.inl ?_)
    · rw [hio]
    · rw [hio]
    · rw [hio]
  · rw [hlh]; exact hst.distinct
  · obtain ⟨a, ha, hv, hpa⟩ := hst.pinned k (hold k hpk)
    have hab : a ≠ b := by
      rintro rfl
      exact hgone (by rw [← hk, ha.2]; exact hpk)
    refine ⟨a, ((hsame a).id.has k).mpr ha, (hsame a).1.trans hv, ?_⟩
    rw [hpins, upd_of_ne hab, hpa]
  · have hab : a ≠ b := by
      rintro rfl
      rw [hpins, upd_self] at ha
      omega
    rw [hpins, upd_of_ne hab] at ha
    obtain ⟨k, hka, hpk⟩ := hst.pins a ha
    refine ⟨k, ((hsame a).id.has k).mpr hka, hrest k hpk ?_⟩
    rintro rfl
    exact hab (hi.eq_of_has hka hb)
  · rw [hlh]; exact hst.fits
  · rw [hlh]; exact hst.home (hmed hm)

/-- `log.lh.n = 0` when everything is installed. -/
theorem Stored.clear (hinst : gh.installed = s.lh.n) (hio : t.io = s.io)
    (hn : t.lh.n = 0) (hhist : gh'.hist = gh.hist) (hcont : gh'.cont = gh.cont) :
    Stored g t gh' := by
  have hnone : ∀ k, ¬ Pending s gh k := by
    rintro k ⟨j, hj, hjn, -⟩
    omega
  have hnone' : ∀ k, ¬ Pending t gh' k := by
    rintro k ⟨j, -, hjn, -⟩
    omega
  have hpend : Pending t gh' = Pending s gh := by
    funext k
    exact propext ⟨fun h => absurd h (hnone' k), fun h => absurd h (hnone k)⟩
  refine ⟨?_, ?_, fun i j hi' => by omega, fun k hk => absurd hk (hnone' k), fun b hb => ?_, ?_,
    fun _ j hj => by omega⟩
  · rw [hio, hhist]; exact hst.ring
  · rw [hpend, hio, hcont]; exact hst.bytes
  · rw [hhist] at hb
    obtain ⟨k, -, hk⟩ := hst.pins b hb
    exact absurd hk (hnone k)
  · rw [hn]
    exact g.pos

end

/-! ## Admission -/

/-- A process moves on without entering or leaving an operation or the commit branch. -/
theorem Admitted.stay (ha : Admitted s gh) (hout : t.outstanding = s.outstanding)
    (hcom : t.committing = s.committing) (hops : ∀ p, t.mode p = .inOp ↔ s.mode p = .inOp)
    (hmode : ∀ p, (t.mode p).commits = (s.mode p).commits)
    (hinst : s.committing = false → gh'.installed = gh.installed) : Admitted t gh' := by
  refine ⟨?_, fun p hp => ?_, fun p q hp hq => ?_, fun hc => ?_, fun hc => ?_⟩
  · rw [hout, ha.ops]
    simp only [State.ops, hops]
  · rw [hcom]
    exact ha.committing p (hmode p ▸ hp)
  · exact ha.single p q (hmode p ▸ hp) (hmode q ▸ hq)
  · rw [hout]
    exact ha.exclusive (hcom ▸ hc)
  · rw [hcom] at hc
    rw [hinst hc]
    exact ha.installed hc

/-- A process in `commit` goes on in it. -/
theorem Admitted.commit {c' : CommitPc} (ha : Admitted s gh) (hp : s.mode p = .commit c)
    (hout : t.outstanding = s.outstanding) (hcom : t.committing = s.committing)
    (hmode : t.mode = upd s.mode p (.commit c')) : Admitted t gh' := by
  have hc : s.committing = true := ha.committing p (by rw [hp]; rfl)
  refine ha.stay hout hcom (fun q => ?_) (fun q => ?_) fun hf => by rw [hc] at hf; cases hf
  · rw [hmode]
    by_cases hq : q = p
    · simp [hq, hp]
    · rw [upd_of_ne hq]
  · rw [hmode]
    by_cases hq : q = p
    · rw [hq, upd_self, hp]; rfl
    · rw [upd_of_ne hq]

theorem ops_upd {m : Mode} (hmode : t.mode = upd s.mode p m) :
    t.ops + (if s.mode p = .inOp then 1 else 0) = s.ops + if m = .inOp then 1 else 0 := by
  have hsum := Finset.sum_add_of_eq_off (fun q => if s.mode q = .inOp then 1 else 0)
    (fun q => if t.mode q = .inOp then 1 else 0) p fun q hq => by rw [hmode, upd_of_ne hq]
  simp only [hmode, upd_self] at hsum
  simp only [State.ops, hmode]
  exact hsum

end Xv6.CachedLog
