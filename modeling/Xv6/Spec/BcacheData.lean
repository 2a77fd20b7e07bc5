import Xv6.Spec.BcacheList

/-!
# The contents of the buffer cache

The bytes that processes store in blocks, and where the cache keeps them. `Contents.stored k` is what
was last stored in block `k` by anybody. A valid buffer always has these bytes. The disk has them
too, unless the buffer of the block was changed and not yet written: either its holder has still
to pass it on (`dirty`), or the block is in a set `Pend` of blocks whose buffers are pinned.
-/

namespace Xv6.Bcache

open Log (Block)

variable {N : Nat}

/-- `stored k` is what was last stored in block `k`, `dirty b` says that `b->data` was changed after
    the last `bwrite` or `log_write` of `b`, and `want p` is the block of the last `bread` of `p`. -/
structure Contents (N : Nat) where
  stored : Nat → Block
  dirty : BufPtr → Bool
  want : Fin N → Nat

/-- Record a step of the cache. -/
def Contents.record (s : State N) (c : Contents N) : Input N → Contents N
  | .bread p _ k => { c with want := upd c.want p k }
  | .store _ b data =>
    { c with stored := upd c.stored (s.buf b).blockno data, dirty := upd c.dirty b true }
  | .bwrite _ b => { c with dirty := upd c.dirty b false }
  | _ => c

/-- Buffer `b` is for block `k`. -/
def State.Has (s : State N) (b : BufPtr) (k : Nat) : Prop :=
  (s.buf b).dev = ROOTDEV ∧ (s.buf b).blockno = k

/-- The buffer whose lock the process has since it called `bread`. -/
def Pc.held : Pc → Option BufPtr
  | read b | validate b | ret b => some b
  | _ => none

/-- The buffer that `bread` returns or returned. -/
def Pc.target : Pc → Option BufPtr
  | lockWait b | read b | validate b | ret b => some b
  | _ => none

/-- What holds for the buffers that process `p` waits for, reads or holds. -/
structure Own (s : State N) (c : Contents N) (p : Fin N) : Prop where
  filled : ∀ b, s.pc p = .validate b → (s.buf b).data = c.stored (s.buf b).blockno
  holder : ∀ b, (s.pc p).held = some b → s.lock b = some p
  loaded : ∀ b, s.lock b = some p →
    (s.buf b).valid = true ∨ s.pc p = .read b ∨ s.pc p = .validate b
  unread : ∀ b, s.pc p = .read b → (s.buf b).valid = false
  want : ∀ b, (s.pc p).target = some b → s.Has b (c.want p)

/-- Buffers and disk hold what was stored, where the blocks in `Pend` may be missing on the disk. -/
structure Faithful (Pend : Nat → Prop) (s : State N) (c : Contents N) : Prop where
  ids : ∀ b, (s.buf b).dev = ROOTDEV ∨ (s.buf b).dev = 0 ∧ (s.buf b).valid = false
  bytes : ∀ b, (s.buf b).valid = true → (s.buf b).data = c.stored (s.buf b).blockno
  clean : ∀ k, s.disk k = c.stored k ∨
    ∃ b, s.Has b k ∧ (s.buf b).valid = true ∧ (c.dirty b = true ∨ Pend k)
  dirty : ∀ b, c.dirty b = true → ∃ p, s.lock b = some p
  own : ∀ p, Own s c p

/-! ## Buffers in use -/

variable {p : Fin N} {b : BufPtr} {k : Nat} {order : List BufPtr} {h h' : History}

namespace Structure

variable {order : List BufPtr} {s : State N} {h : History}

section

variable (hi : Structure order s h)
include hi

theorem refcnt_pos_of_lock (hl : s.lock b = some p) :
    0 < (s.buf b).refcnt :=
  hi.refcnt_pos (p := p) (by simp [State.getsOf, hl])

theorem refcnt_pos_of_wait (hp : s.pc p = .lockWait b) :
    0 < (s.buf b).refcnt :=
  hi.refcnt_pos (p := p) (by simp [State.getsOf, hp])

/-- A block has one buffer. -/
theorem eq_of_has {a : BufPtr} (ha : s.Has a k) (hb : s.Has b k) :
    a = b := by
  by_contra hab
  refine hi.unique a b hab ?_ ⟨ha.1.trans hb.1.symm, ha.2.trans hb.2.symm⟩
  rw [ha.1]
  decide

/-- The first loop of `bget` finds a buffer of the block. -/
theorem has_of_findCached (hc : s.cache.findCached ROOTDEV k = some (some b)) : s.Has b k := by
  rw [hi.findCached, Option.some.injEq] at hc
  have hb := List.find?_some hc
  simp only [Cache.holds, Bool.and_eq_true, beq_iff_eq] at hb
  exact hb

end

end Structure

/-! ## What a step leaves alone -/

/-- The contents of a buffer agree in two states. -/
def Same (s s' : State N) (b : BufPtr) : Prop :=
  (s'.buf b).valid = (s.buf b).valid ∧ (s'.buf b).dev = (s.buf b).dev ∧
    (s'.buf b).blockno = (s.buf b).blockno ∧ (s'.buf b).data = (s.buf b).data

/-- The buffer is for the same block in two states. -/
def SameId (s s' : State N) (b : BufPtr) : Prop :=
  (s'.buf b).dev = (s.buf b).dev ∧ (s'.buf b).blockno = (s.buf b).blockno

variable {s s' : State N}

theorem Same.id (h : Same s s' b) : SameId s s' b := ⟨h.2.1, h.2.2.1⟩

theorem SameId.has (h : SameId s s' b) (k : Nat) :
    s'.Has b k ↔ s.Has b k := by
  rw [State.Has, State.Has, h.1, h.2]

theorem same_setBuf (s : State N) {a : BufPtr} (hab : a ≠ b) (v : Buf) :
    Same s (s.setBuf b v) a := by
  simp only [Same, buf_setBuf_of_ne s hab, and_self]

theorem sameId_setBuf {v : Buf} (hd : v.dev = (s.buf b).dev)
    (hk : v.blockno = (s.buf b).blockno) (a : BufPtr) : SameId s (s.setBuf b v) a :=
  ⟨buf_setBuf_field Buf.dev hd a, buf_setBuf_field Buf.blockno hk a⟩

/-- A step of process `p` that leaves the buffers alone that process `q` holds. -/
theorem Own.frame {q : Fin N} {c c' : Contents N} (hw : Own s c q) (ho : OnlyOf p s s') (hq : q ≠ p)
    (hsame : ∀ b, s.lock b = some q → Same s s' b) (hid : ∀ b, (s.pc q).target = some b → SameId s s' b)
    (hst : ∀ b, s.lock b = some q → c'.stored (s.buf b).blockno = c.stored (s.buf b).blockno)
    (hwant : c'.want q = c.want q) : Own s' c' q := by
  refine ⟨fun b hp => ?_, fun b hp => ?_, fun b hl => ?_, fun b hp => ?_, fun b hp => ?_⟩
  · rw [ho.pc q hq] at hp
    have hl := hw.holder b (by rw [hp]; rfl)
    obtain ⟨-, -, hk, hdata⟩ := hsame b hl
    rw [hk, hdata, hst b hl]
    exact hw.filled b hp
  · rw [ho.pc q hq] at hp
    rw [ho.lock b q hq]
    exact hw.holder b hp
  · rw [ho.lock b q hq] at hl
    rw [ho.pc q hq, (hsame b hl).1]
    exact hw.loaded b hl
  · rw [ho.pc q hq] at hp
    rw [(hsame b (hw.holder b (by rw [hp]; rfl))).1]
    exact hw.unread b hp
  · rw [ho.pc q hq] at hp
    rw [(hid b hp).has, hwant]
    exact hw.want b hp

namespace Faithful

variable {Pend : Nat → Prop} {order : List BufPtr} {s s' : State N} {h : History}
  {c : Contents N}

section

variable (hf : Faithful Pend s c)
include hf

/-- A process outside the cache has read what it holds. -/
theorem valid_of_lock (hl : s.lock b = some p) (hp : (s.pc p).ready = true) :
    (s.buf b).valid = true := by
  cases (hf.own p).loaded b hl with
  | inl hv => exact hv
  | inr hpc =>
    cases hpc with
    | inl hr | inr hr => rw [hr] at hp; cases hp

/-- A step of process `p` that changes no bytes. -/
theorem frame {w : Fin N → Nat} (ho : OnlyOf p s s') (hsame : ∀ b, Same s s' b)
    (hdisk : s'.disk = s.disk) (hdirty : ∀ b, c.dirty b = true → ∃ q, s'.lock b = some q)
    (hw : ∀ q, q ≠ p → w q = c.want q) (hown : Own s' { c with want := w } p) :
    Faithful Pend s' { c with want := w } := by
  refine ⟨fun b => ?_, fun b => ?_, fun k => ?_, hdirty, fun q => ?_⟩
  · rw [(hsame b).1, (hsame b).2.1]
    exact hf.ids b
  · rw [(hsame b).1, (hsame b).2.2.1, (hsame b).2.2.2]
    exact hf.bytes b
  · simp only [hdisk, (hsame _).id.has, (hsame _).1]
    exact hf.clean k
  · by_cases hq : q = p
    · exact hq ▸ hown
    · exact (hf.own q).frame ho hq (fun b _ => hsame b) (fun b _ => (hsame b).id) (fun _ _ => rfl)
        (hw q hq)

/-- A step that only moves process `p`, out of a function or not at all. -/
theorem leave (hsame : ∀ b, Same s s' b) (hdisk : s'.disk = s.disk) (hlock : s'.lock = s.lock)
    (hpc : s'.pc = s.pc ∨ (∃ b, s.pc p = .relse b) ∧ s'.pc = upd s.pc p .idle) :
    Faithful Pend s' c := by
  have hown := hf.own p
  have ho : OnlyOf p s s' := by
    refine ⟨fun q hq => ?_, fun b q _ => by rw [hlock]⟩
    cases hpc with
    | inl heq => rw [heq]
    | inr hidle => rw [hidle.2, upd_of_ne hq]
  refine hf.frame (w := c.want) ho hsame hdisk (fun b hb => hlock ▸ hf.dirty b hb)
    (fun _ _ => rfl) ?_
  cases hpc with
  | inl heq =>
    refine ⟨fun b hp => ?_, fun b hp => ?_, fun b hl => ?_, fun b hp => ?_, fun b hp => ?_⟩
    · rw [heq] at hp
      rw [(hsame b).2.2.1, (hsame b).2.2.2]
      exact hown.filled b hp
    · rw [heq] at hp
      exact hlock ▸ hown.holder b hp
    · rw [hlock] at hl
      rw [heq, (hsame b).1]
      exact hown.loaded b hl
    · rw [heq] at hp
      rw [(hsame b).1]
      exact hown.unread b hp
    · rw [heq] at hp
      exact ((hsame b).id.has _).mpr (hown.want b hp)
  | inr hidle =>
    obtain ⟨⟨a, ha⟩, hpc⟩ := hidle
    have hp' : s'.pc p = .idle := by rw [hpc, upd_self]
    refine ⟨fun b hp => ?_, fun b hp => ?_, fun b hl => .inl ?_, fun b hp => ?_, fun b hp => ?_⟩
    · rw [hp'] at hp; cases hp
    · rw [hp'] at hp; cases hp
    · -- a process in `brelse` has read what it holds
      rw [hlock] at hl
      have hv := hown.loaded b hl
      simp only [ha, reduceCtorEq, or_false] at hv
      rw [(hsame b).1, hv]
    · rw [hp'] at hp; cases hp
    · rw [hp'] at hp; cases hp

/-! ## Each step keeps the contents -/

/-- `bget` finds the block. -/
theorem hit (hp : (s.pc p).ready = true) (hb : s.Has b k) :
    Faithful Pend { s with cache := s.cache.bpin b, pc := upd s.pc p (.lockWait b) }
      { c with want := upd c.want p k } := by
  have hsame : ∀ a, Same s { s with cache := s.cache.bpin b, pc := upd s.pc p (.lockWait b) } a := by
    intro a
    simp only [Same, State.buf, buf_bpin, and_self]
  refine hf.frame (onlyOf_goto rfl rfl) hsame rfl hf.dirty (fun q hq => upd_of_ne hq _) ?_
  refine ⟨fun a ha => ?_, fun a ha => ?_, fun a hl => .inl ?_, fun a ha => ?_, fun a ha => ?_⟩
  · cases (upd_self s.pc p _).symm.trans ha
  · simp only [upd_self, Pc.held, reduceCtorEq] at ha
  · rw [(hsame a).1]
    exact hf.valid_of_lock hl hp
  · cases (upd_self s.pc p _).symm.trans ha
  · simp only [upd_self, Pc.target, Option.some.injEq] at ha ⊢
    exact ((hsame a).id.has k).mpr (ha ▸ hb)

/-- `bget` gives an unused buffer to a block that has none. What the buffer held before is on the
    disk. -/
theorem recycle (hi : Structure order s h) (hp : (s.pc p).ready = true)
    (hr : (s.buf b).refcnt = 0) (hpend : ∀ k, s.Has b k → ¬ Pend k) :
    Faithful Pend { s with cache := s.cache.recycle b ROOTDEV k, pc := upd s.pc p (.lockWait b) }
      { c with want := upd c.want p k } := by
  have hfree : ∀ q, s.lock b ≠ some q := by
    intro q hl
    have hpos := hi.refcnt_pos_of_lock hl
    omega
  have hsame : ∀ a, a ≠ b → Same s
      { s with cache := s.cache.recycle b ROOTDEV k, pc := upd s.pc p (.lockWait b) } a := by
    intro a hab
    simp only [Same, State.buf, buf_recycle_of_ne _ hab, and_self]
  have hbuf : State.buf
      { s with cache := s.cache.recycle b ROOTDEV k, pc := upd s.pc p (.lockWait b) } b =
      { s.buf b with dev := ROOTDEV, blockno := k, valid := false, refcnt := 1 } := upd_self _ _ _
  refine ⟨fun a => ?_, fun a hv => ?_, fun l => ?_, hf.dirty, fun q => ?_⟩
  · by_cases hab : a = b
    · rw [hab, hbuf]
      exact .inl rfl
    · rw [(hsame a hab).1, (hsame a hab).2.1]
      exact hf.ids a
  · by_cases hab : a = b
    · rw [hab, hbuf] at hv
      cases hv
    · rw [(hsame a hab).1] at hv
      rw [(hsame a hab).2.2.1, (hsame a hab).2.2.2]
      exact hf.bytes a hv
  · cases hf.clean l with
    | inl hd => exact .inl hd
    | inr hex =>
      obtain ⟨a, ha, hv, hdp⟩ := hex
      have hab : a ≠ b := by
        rintro rfl
        cases hdp with
        | inl hd =>
          obtain ⟨q, hq⟩ := hf.dirty a hd
          exact hfree q hq
        | inr hpe => exact hpend l ha hpe
      exact .inr ⟨a, ((hsame a hab).id.has l).mpr ha, (hsame a hab).1.trans hv, hdp⟩
  · by_cases hq : q = p
    · subst hq
      refine ⟨fun a ha => ?_, fun a ha => ?_, fun a hl => .inl ?_, fun a ha => ?_, fun a ha => ?_⟩
      · cases (upd_self s.pc q _).symm.trans ha
      · simp only [upd_self, Pc.held, reduceCtorEq] at ha
      · have hab : a ≠ b := fun heq => hfree q (heq ▸ hl)
        rw [(hsame a hab).1]
        exact hf.valid_of_lock hl hp
      · cases (upd_self s.pc q _).symm.trans ha
      · simp only [upd_self, Pc.target, Option.some.injEq] at ha ⊢
        rw [← ha, State.Has, hbuf]
        exact ⟨rfl, rfl⟩
    · -- nobody waits for `b` or holds it
      refine (hf.own q).frame (onlyOf_goto rfl rfl) hq (fun a ha => hsame a ?_)
        (fun a ha => (hsame a ?_).id) (fun _ _ => rfl) (upd_of_ne hq _)
      · rintro rfl
        exact hfree q ha
      · rintro rfl
        cases hpc : s.pc q with
        | lockWait d =>
          rw [hpc, Pc.target, Option.some.injEq] at ha
          have hpos := hi.refcnt_pos_of_wait hpc
          rw [ha] at hpos
          omega
        | idle | relse d => rw [hpc] at ha; cases ha
        | read d | validate d | ret d =>
          exact hfree q ((hf.own q).holder a (by rw [hpc] at ha ⊢; exact ha))

/-- `brelse` up to `releasesleep`, of a buffer whose changes were passed on. -/
theorem releasesleep (hp : (s.pc p).ready = true) (hl : s.lock b = some p) (hb : c.dirty b = false) :
    Faithful Pend { s with lock := upd s.lock b none, pc := upd s.pc p (.relse b) } c := by
  have ho : OnlyOf p s { s with lock := upd s.lock b none, pc := upd s.pc p (.relse b) } :=
    onlyOf_release hl
  refine hf.frame (w := c.want) ho (fun a => ⟨rfl, rfl, rfl, rfl⟩) rfl (fun a ha => ?_)
    (fun _ _ => rfl) ?_
  · have hab : a ≠ b := fun heq => by rw [heq, hb] at ha; cases ha
    obtain ⟨q, hq⟩ := hf.dirty a ha
    exact ⟨q, (upd_of_ne hab _).trans hq⟩
  · refine ⟨fun a ha => ?_, fun a ha => ?_, fun a ha => .inl ?_, fun a ha => ?_, fun a ha => ?_⟩
    · cases (upd_self s.pc p _).symm.trans ha
    · simp only [upd_self, Pc.held, reduceCtorEq] at ha
    · have hab : a ≠ b := by
        rintro rfl
        cases (upd_self s.lock a none).symm.trans ha
      exact hf.valid_of_lock ((upd_of_ne hab _).symm.trans ha) hp
    · cases (upd_self s.pc p _).symm.trans ha
    · simp only [upd_self, Pc.target, reduceCtorEq] at ha

/-- `acquiresleep`. -/
theorem acquiresleep (hp : s.pc p = .lockWait b) (hl : s.lock b = none) :
    Faithful Pend
      { s with
        lock := upd s.lock b (some p)
        pc := upd s.pc p (if (s.buf b).valid then .ret b else .read b) } c := by
  refine hf.frame (w := c.want) (onlyOf_acquire hl) (fun a => ⟨rfl, rfl, rfl, rfl⟩) rfl
    (fun a ha => ?_) (fun _ _ => rfl) ?_
  · by_cases hab : a = b
    · exact ⟨p, by rw [hab]; exact upd_self _ _ _⟩
    · obtain ⟨q, hq⟩ := hf.dirty a ha
      exact ⟨q, (upd_of_ne hab _).trans hq⟩
  · have hhas := (hf.own p).want b (by rw [hp]; rfl)
    have hother : ∀ a, a ≠ b → s.lock a = some p → (s.buf a).valid = true := by
      intro a _ ha
      have hv := (hf.own p).loaded a ha
      simp only [hp, reduceCtorEq, or_false] at hv
      exact hv
    cases hv : (s.buf b).valid with
    | true =>
      simp only [if_true]
      refine ⟨fun a ha => ?_, fun a ha => ?_, fun a ha => .inl ?_, fun a ha => ?_, fun a ha => ?_⟩
      · cases (upd_self s.pc p _).symm.trans ha
      · simp only [upd_self, Pc.held, Option.some.injEq] at ha ⊢
        rw [← ha, upd_self]
      · by_cases hab : a = b
        · rw [hab]
          exact hv
        · exact hother a hab ((upd_of_ne hab _).symm.trans ha)
      · cases (upd_self s.pc p _).symm.trans ha
      · simp only [upd_self, Pc.target, Option.some.injEq] at ha
        exact ha ▸ hhas
    | false =>
      simp only [Bool.false_eq_true, if_false]
      refine ⟨fun a ha => ?_, fun a ha => ?_, fun a ha => ?_, fun a ha => ?_, fun a ha => ?_⟩
      · cases (upd_self s.pc p _).symm.trans ha
      · simp only [upd_self, Pc.held, Option.some.injEq] at ha ⊢
        rw [← ha, upd_self]
      · by_cases hab : a = b
        · exact .inr (.inl (by rw [hab]; exact upd_self _ _ _))
        · exact .inl (hother a hab ((upd_of_ne hab _).symm.trans ha))
      · simp only [upd_self, Pc.read.injEq] at ha
        exact ha ▸ hv
      · simp only [upd_self, Pc.target, Option.some.injEq] at ha
        exact ha ▸ hhas

/-- `bwrite`. -/
theorem bwrite (hp : (s.pc p).ready = true) (hl : s.lock b = some p) :
    Faithful Pend { s with disk := upd s.disk (s.buf b).blockno (s.buf b).data }
      { c with dirty := upd c.dirty b false } := by
  have hv := hf.valid_of_lock hl hp
  refine ⟨hf.ids, hf.bytes, fun k => ?_, fun a ha => ?_, fun q => ?_⟩
  · by_cases hk : k = (s.buf b).blockno
    · refine .inl ?_
      show upd s.disk (s.buf b).blockno (s.buf b).data k = c.stored k
      rw [hk, upd_self]
      exact hf.bytes b hv
    · refine (hf.clean k).imp (fun hd => (upd_of_ne hk _).trans hd) fun hex => ?_
      obtain ⟨a, ha, hva, hdp⟩ := hex
      have hab : a ≠ b := fun heq => hk (by rw [← heq]; exact ha.2.symm)
      exact ⟨a, ha, hva, hdp.imp_left fun hd => (upd_of_ne hab _).trans hd⟩
  · have hab : a ≠ b := by
      rintro rfl
      exact nomatch (upd_self c.dirty a false).symm.trans ha
    exact hf.dirty a ((upd_of_ne hab _).symm.trans ha)
  · obtain ⟨h1, h2, h3, h4, h5⟩ := hf.own q
    exact ⟨h1, h2, h3, h4, h5⟩

/-- What a process holds is a buffer of the file system. -/
theorem has_of_lock (hl : s.lock b = some p) :
    s.Has b (s.buf b).blockno := by
  refine ⟨?_, rfl⟩
  cases (hf.own p).loaded b hl with
  | inl hv =>
    cases hf.ids b with
    | inl hd => exact hd
    | inr hd => rw [hd.2] at hv; cases hv
  | inr hr =>
    cases hr with
    | inl hpc | inr hpc => exact ((hf.own p).want b (by rw [hpc]; rfl)).1

/-- Another buffer in use is for another block. -/
theorem blockno_ne (hi : Structure order s h) {a : BufPtr} {q : Fin N}
    (hab : a ≠ b) (ha : (s.buf a).valid = true ∨ s.lock a = some q) (hb : s.Has b (s.buf b).blockno) :
    (s.buf a).blockno ≠ (s.buf b).blockno := by
  intro heq
  have hdev : (s.buf a).dev = ROOTDEV := by
    cases ha with
    | inr hl => exact (hf.has_of_lock hl).1
    | inl hv =>
      cases hf.ids a with
      | inl hd => exact hd
      | inr hd => rw [hd.2] at hv; cases hv
  exact hab (hi.eq_of_has ⟨hdev, heq⟩ hb)

/-- A process stores into a buffer that it holds. -/
theorem store (hi : Structure order s h) {data : Block}
    (hp : (s.pc p).ready = true) (hl : s.lock b = some p) :
    Faithful Pend (s.setBuf b { s.buf b with data := data })
      { c with
        stored := upd c.stored (s.buf b).blockno data
        dirty := upd c.dirty b true } := by
  have hb := hf.has_of_lock hl
  have hv := hf.valid_of_lock hl hp
  have hself := buf_setBuf_self s b { s.buf b with data := data }
  have hsame := fun a (hab : a ≠ b) => same_setBuf s hab { s.buf b with data := data }
  have hid : ∀ a, SameId s (s.setBuf b { s.buf b with data := data }) a := sameId_setBuf rfl rfl
  have hvalid : ∀ a, ((s.setBuf b { s.buf b with data := data }).buf a).valid = (s.buf a).valid :=
    buf_setBuf_field Buf.valid rfl
  refine ⟨fun a => ?_, fun a ha => ?_, fun k => ?_, fun a ha => ?_, fun q => ?_⟩
  · rw [(hid a).1, hvalid a]
    exact hf.ids a
  · rw [hvalid a] at ha
    by_cases hab : a = b
    · rw [hab, hself]
      exact (upd_self c.stored _ _).symm
    · rw [(hsame a hab).2.2.1, (hsame a hab).2.2.2]
      exact (hf.bytes a ha).trans (upd_of_ne (hf.blockno_ne (q := p) hi hab (.inl ha) hb) _).symm
  · by_cases hk : k = (s.buf b).blockno
    · refine .inr ⟨b, ?_, ?_, .inl (upd_self _ _ _)⟩
      · rw [(hid b).has, hk]
        exact hb
      · rw [hvalid b, hv]
    · refine (hf.clean k).imp (fun hd => hd.trans (upd_of_ne hk _).symm) fun hex => ?_
      obtain ⟨a, ha, hva, hdp⟩ := hex
      have hab : a ≠ b := fun heq => hk (by rw [← heq]; exact ha.2.symm)
      exact ⟨a, ((hid a).has k).mpr ha, (hvalid a).trans hva,
        hdp.imp_left fun hd => (upd_of_ne hab _).trans hd⟩
  · by_cases hab : a = b
    · exact ⟨p, by rw [hab]; exact hl⟩
    · exact hf.dirty a ((upd_of_ne hab _).symm.trans ha)
  · by_cases hq : q = p
    · subst hq
      refine ⟨fun a ha => ?_, (hf.own q).holder, fun a ha => ?_, fun a ha => ?_, fun a ha => ?_⟩
      · have hpc : s.pc q = .validate a := ha
        rw [hpc] at hp
        cases hp
      · rw [hvalid a]
        exact (hf.own q).loaded a ha
      · rw [hvalid a]
        exact (hf.own q).unread a ha
      · rw [(hid a).has]
        exact (hf.own q).want a ha
    · refine (hf.own q).frame (p := p) ⟨fun _ _ => rfl, fun _ _ _ => Iff.rfl⟩ hq
        (fun a ha => hsame a ?_) (fun a _ => hid a) (fun a ha => ?_) rfl
      · rintro rfl
        exact hq (Option.some.inj (ha.symm.trans hl))
      · refine upd_of_ne (hf.blockno_ne hi ?_ (.inr ha) hb) _
        rintro rfl
        exact hq (Option.some.inj (ha.symm.trans hl))

/-- The disk has the bytes of a block whose buffer is not valid. -/
theorem disk_of_unread (hi : Structure order s h) (hb : s.Has b k) (hv : (s.buf b).valid = false) :
    s.disk k = c.stored k := by
  cases hf.clean k with
  | inl hd => exact hd
  | inr hex =>
    obtain ⟨a, ha, hva, -⟩ := hex
    rw [hi.eq_of_has ha hb, hv] at hva
    cases hva

/-- A step of `bread` by process `p`, which holds `b` and has still to read it. The new value `v` of
    the buffer has the bytes of its block. -/
private theorem fill {v : Buf} {d : Pc}
    (hp : s.pc p = .read b ∨ s.pc p = .validate b) (hd : v.dev = (s.buf b).dev)
    (hk : v.blockno = (s.buf b).blockno) (hdata : v.data = c.stored (s.buf b).blockno)
    (hpc : d = .validate b ∧ v.valid = (s.buf b).valid ∧ v.valid = false ∨ d = .ret b ∧ v.valid = true) :
    Faithful Pend ((s.setBuf b v).goto p d) c := by
  have hl : s.lock b = some p :=
    (hf.own p).holder b (by cases hp with | inl h => rw [h]; rfl | inr h => rw [h]; rfl)
  have hwant : s.Has b (c.want p) :=
    (hf.own p).want b (by cases hp with | inl h => rw [h]; rfl | inr h => rw [h]; rfl)
  have hself : ((s.setBuf b v).goto p d).buf b = v := buf_setBuf_self s b v
  have hsame : ∀ a, a ≠ b → Same s ((s.setBuf b v).goto p d) a := fun a hab => same_setBuf s hab v
  have hid : ∀ a, SameId s ((s.setBuf b v).goto p d) a := sameId_setBuf hd hk
  have hpd : ((s.setBuf b v).goto p d).pc p = d := upd_self _ _ _
  refine ⟨fun a => ?_, fun a ha => ?_, fun k => ?_, hf.dirty, fun q => ?_⟩
  · by_cases hab : a = b
    · rw [hab, (hid b).1]
      exact .inl (hf.has_of_lock hl).1
    · rw [(hid a).1, (hsame a hab).1]
      exact hf.ids a
  · by_cases hab : a = b
    · rw [hab, hself, hk, hdata]
    · rw [(hsame a hab).1] at ha
      rw [(hsame a hab).2.2.1, (hsame a hab).2.2.2]
      exact hf.bytes a ha
  · refine (hf.clean k).imp_right fun hex => ?_
    obtain ⟨a, ha, hva, hdp⟩ := hex
    refine ⟨a, ((hid a).has k).mpr ha, ?_, hdp⟩
    by_cases hab : a = b
    · rw [hab] at hva ⊢
      rw [hself]
      cases hpc with
      | inl hx => rw [hx.2.1, hva]
      | inr hx => exact hx.2
    · rw [(hsame a hab).1, hva]
  · by_cases hq : q = p
    · subst hq
      have hother : ∀ a, a ≠ b → s.lock a = some q → (s.buf a).valid = true := by
        intro a hab ha
        cases (hf.own q).loaded a ha with
        | inl hv => exact hv
        | inr hr =>
          -- the process reads one buffer at a time
          refine absurd ?_ hab
          cases hp with
          | inl h | inr h => rw [h] at hr; simpa [eq_comm] using hr
      refine ⟨fun a ha => ?_, fun a ha => ?_, fun a ha => ?_, fun a ha => ?_, fun a ha => ?_⟩
      · rw [hpd] at ha
        cases hpc with
        | inl hx =>
          obtain rfl : b = a := by simpa using hx.1.symm.trans ha
          rw [hself, hk, hdata]
        | inr hx => exact nomatch hx.1.symm.trans ha
      · rw [hpd] at ha
        have hba : b = a := by
          cases hpc with
          | inl hx | inr hx => rw [hx.1] at ha; simpa [Pc.held] using ha
        exact hba ▸ hl
      · by_cases hab : a = b
        · rw [hab, hself, hpd]
          cases hpc with
          | inl hx => exact .inr (.inr hx.1)
          | inr hx => exact .inl hx.2
        · rw [(hsame a hab).1]
          exact .inl (hother a hab ha)
      · rw [hpd] at ha
        cases hpc with
        | inl hx | inr hx => exact nomatch hx.1.symm.trans ha
      · rw [hpd] at ha
        have hba : b = a := by
          cases hpc with
          | inl hx | inr hx => rw [hx.1] at ha; simpa [Pc.target] using ha
        rw [← hba, (hid b).has]
        exact hwant
    · refine (hf.own q).frame (onlyOf_goto (p := p) (c := d) rfl rfl) hq (fun a ha => hsame a ?_)
        (fun a _ => hid a) (fun _ _ => rfl) rfl
      rintro rfl
      exact hq (Option.some.inj (ha.symm.trans hl))

/-- `virtio_disk_rw(b, 0)` in `bread`. -/
theorem read (hi : Structure order s h) (hp : s.pc p = .read b) :
    Faithful Pend
      ((s.setBuf b { s.buf b with data := s.disk (s.buf b).blockno }).goto p (.validate b)) c := by
  have hv := (hf.own p).unread b hp
  have hb := hf.has_of_lock ((hf.own p).holder b (by rw [hp]; rfl))
  exact hf.fill (.inl hp) rfl rfl (hf.disk_of_unread hi hb hv) (.inl ⟨rfl, rfl, hv⟩)

/-- `b->valid = 1` in `bread`. -/
theorem validate (hp : s.pc p = .validate b) :
    Faithful Pend ((s.setBuf b { s.buf b with valid := true }).goto p (.ret b)) c :=
  hf.fill (.inr hp) rfl rfl ((hf.own p).filled b hp) (.inr ⟨rfl, rfl⟩)

/-- The changes to a buffer are passed on to the log: its block becomes pending. -/
theorem logged {Pend' : Nat → Prop} (hsub : ∀ k, Pend k → Pend' k) (hk : Pend' (s.buf b).blockno) :
    Faithful Pend' s { c with dirty := upd c.dirty b false } := by
  refine ⟨hf.ids, hf.bytes, fun k => ?_, fun a ha => ?_, fun q => ?_⟩
  · refine (hf.clean k).imp_right fun hex => ?_
    obtain ⟨a, ha, hv, hdp⟩ := hex
    by_cases hab : a = b
    · subst hab
      exact ⟨a, ha, hv, .inr (ha.2 ▸ hk)⟩
    · exact ⟨a, ha, hv, hdp.imp (fun hd => (upd_of_ne hab _).trans hd) (hsub k)⟩
  · have hab : a ≠ b := by
      rintro rfl
      exact nomatch (upd_self c.dirty a false).symm.trans ha
    exact hf.dirty a ((upd_of_ne hab _).symm.trans ha)
  · obtain ⟨h1, h2, h3, h4, h5⟩ := hf.own q
    exact ⟨h1, h2, h3, h4, h5⟩

/-- A block that is on the disk need not be pending. -/
theorem installed {Pend' : Nat → Prop} {k₀ : Nat}
    (hsub : ∀ k, Pend k → k ≠ k₀ → Pend' k) (hk : s.disk k₀ = c.stored k₀) :
    Faithful Pend' s c := by
  refine ⟨hf.ids, hf.bytes, fun k => ?_, hf.dirty, hf.own⟩
  by_cases hkk : k = k₀
  · exact .inl (hkk ▸ hk)
  · refine (hf.clean k).imp_right fun hex => ?_
    obtain ⟨a, ha, hv, hdp⟩ := hex
    exact ⟨a, ha, hv, hdp.imp_right fun hpe => hsub k hpe hkk⟩

end

end Faithful

/-- A process reads blocks of the file system's device, and passes on its changes to a buffer before
    it releases it. -/
def Passes (s : State N) (c : Contents N) : Input N → Prop
  | .bread _ dev _ => dev = ROOTDEV
  | .brelse p b => s.lock b = some p ∧ c.dirty b = false
  | _ => True

variable {i : Input N} {Pend : Nat → Prop} {c : Contents N}

/-- Every step of such processes keeps the contents, as long as the blocks in `Pend` are pinned. -/
theorem faithful_step (hf : Faithful Pend s c) (hi : Structure order s h)
    (hpin : ∀ b k, s.Has b k → Pend k → 0 < h.pins b) (hd : Passes s c i) (hs : Step s h i s' h')
    (hpan : s'.panicked = none) : Faithful Pend s' (c.record s i) := by
  cases hs with
  | hit p dev k b hp hc =>
    obtain rfl : dev = ROOTDEV := hd
    exact hf.hit hp (hi.has_of_findCached hc)
  | recycle p dev k b hp hc hu =>
    obtain rfl : dev = ROOTDEV := hd
    have hr : (s.buf b).refcnt = 0 := by
      rw [hi.findUnused, Option.some.injEq] at hu
      have hb := List.find?_some hu
      exact eq_of_beq hb
    refine hf.recycle hi hp hr fun l hl hpe => ?_
    have hpos := hpin b l hl hpe
    have hrefs := hi.refs b
    omega
  | full p dev k hc hu | bwriteOther p b hl | brelseOther p b hl => cases hpan
  | bwrite p b hp hl => exact hf.bwrite hp hl
  | brelse p b hp hl => exact hf.releasesleep hp hl hd.2
  | bpin p b hp =>
    refine hf.leave (p := p) (fun a => ?_) rfl rfl (.inl rfl)
    simp only [Same, State.buf, buf_bpin, and_self]
  | bunpin p b hp =>
    refine hf.leave (p := p) (fun a => ?_) rfl rfl (.inl rfl)
    simp only [Same, State.buf, buf_bunpin, and_self]
  | store p b data hp hl => exact hf.store hi hp hl
  | acquire p b hp hl => exact hf.acquiresleep hp hl
  | read p b hp => exact hf.read hi hp
  | validate p b hp => exact hf.validate hp
  | relseUnused p b hp hr | relseUsed p b hp hr =>
    refine hf.leave (p := p) (fun a => ?_) rfl rfl (.inr ⟨⟨b, hp⟩, rfl⟩)
    simp only [Same, State.buf, buf_brelse, buf_bunpin, and_self]

/-! ## What stays in its buffer -/

/-- A buffer in use keeps its block and stays valid. -/
theorem inUse_step (hi : Structure order s h) (hs : Step s h i s' h') (hb : 0 < (s.buf b).refcnt) :
    SameId s s' b ∧ ((s.buf b).valid = true → (s'.buf b).valid = true) := by
  have hid : SameId s s' b := by
    by_contra hne
    have hzero := (hi.recycled hs hne).1
    omega
  refine ⟨hid, fun hv => ?_⟩
  cases hs with
  | hit p dev k a hp hc | bpin p a hp => simp only [State.buf, buf_bpin] at hv ⊢; exact hv
  | recycle p dev k a hp hc hu =>
    have hba : b ≠ a := by
      rintro rfl
      rw [hi.findUnused, Option.some.injEq] at hu
      have hzero := List.find?_some hu
      have hz : (s.buf b).refcnt = 0 := eq_of_beq hzero
      omega
    simp only [State.buf, buf_recycle_of_ne _ hba] at hv ⊢
    exact hv
  | bunpin p a hp => simp only [State.buf, buf_bunpin] at hv ⊢; exact hv
  | store p a data hp hl =>
    exact (buf_setBuf_field (v := { s.buf a with data := data }) Buf.valid rfl b).trans hv
  | read p a hp =>
    exact (buf_setBuf_field (v := { s.buf a with data := s.disk (s.buf a).blockno }) Buf.valid rfl
      b).trans hv
  | validate p a hp =>
    by_cases hba : b = a
    · subst hba
      exact congrArg Buf.valid (buf_setBuf_self s b { s.buf b with valid := true })
    · exact (same_setBuf s hba { s.buf a with valid := true }).1.trans hv
  | relseUnused p a hp hr | relseUsed p a hp hr =>
    simp only [State.buf, buf_brelse, buf_bunpin] at hv ⊢; exact hv
  | full p dev k hc hu | bwrite p a hp hl | bwriteOther p a hl | brelse p a hp hl
  | brelseOther p a hl | acquire p a hp hl => exact hv

/-! ## What a process keeps -/

/-- A buffer that process `p` holds, with its bytes and those of its block on the disk. -/
structure Kept (s s' : State N) (c c' : Contents N) (p : Fin N) (b : BufPtr) : Prop where
  lock : s'.lock b = some p
  same : Same s s' b
  dirty : c'.dirty b = c.dirty b
  disk : s'.disk (s.buf b).blockno = s.disk (s.buf b).blockno

/-- Input `i` does not touch buffer `b` on behalf of process `p`, which holds it. -/
def Spares (s : State N) (p : Fin N) (b : BufPtr) : Input N → Prop
  | .store q a _ | .bwrite q a | .brelse q a => ¬ (q = p ∧ a = b)
  | .step q => ¬ (q = p ∧ (s.pc p).held = some b)
  | _ => True

/-- Whoever holds a buffer keeps it, until it touches it itself. -/
theorem kept_step (hf : Faithful Pend s c) (hi : Structure order s h) (hs : Step s h i s' h')
    (hpan : s'.panicked = none) (hl : s.lock b = some p) (hsp : Spares s p b i) :
    Kept s s' c (c.record s i) p b := by
  have hother : ∀ {q : Fin N} {a : BufPtr}, s.lock a = some q → ¬ (q = p ∧ a = b) → b ≠ a := by
    rintro q a ha hne rfl
    exact hne ⟨Option.some.inj (ha.symm.trans hl), rfl⟩
  cases hs with
  | hit q dev k a hq hc | bpin q a hq =>
    refine ⟨hl, ?_, rfl, rfl⟩
    simp only [Same, State.buf, buf_bpin, and_self]
  | recycle q dev k a hq hc hu =>
    have hba : b ≠ a := by
      rintro rfl
      rw [hi.findUnused, Option.some.injEq] at hu
      have hzero := List.find?_some hu
      have hpos := hi.refcnt_pos_of_lock hl
      have hz : (s.buf b).refcnt = 0 := eq_of_beq hzero
      omega
    refine ⟨hl, ?_, rfl, rfl⟩
    simp only [Same, State.buf, buf_recycle_of_ne _ hba, and_self]
  | full q dev k hc hu | bwriteOther q a hla | brelseOther q a hla => cases hpan
  | bwrite q a hq hla =>
    have hba := hother hla hsp
    refine ⟨hl, ⟨rfl, rfl, rfl, rfl⟩, upd_of_ne hba _, upd_of_ne ?_ _⟩
    exact hf.blockno_ne hi hba (.inr hl) (hf.has_of_lock hla)
  | brelse q a hq hla =>
    have hba := hother hla hsp
    exact ⟨(upd_of_ne hba _).trans hl, ⟨rfl, rfl, rfl, rfl⟩, rfl, rfl⟩
  | bunpin q a hq =>
    refine ⟨hl, ?_, rfl, rfl⟩
    simp only [Same, State.buf, buf_bunpin, and_self]
  | store q a data hq hla =>
    have hba := hother hla hsp
    exact ⟨hl, same_setBuf s hba _, upd_of_ne hba _, rfl⟩
  | acquire q a hq hla =>
    have hba : b ≠ a := by
      rintro rfl
      cases hla.symm.trans hl
    exact ⟨(upd_of_ne hba _).trans hl, ⟨rfl, rfl, rfl, rfl⟩, rfl, rfl⟩
  | read q a hq | validate q a hq =>
    have hba : b ≠ a := hother ((hf.own q).holder a (by rw [hq]; rfl))
      fun heq => hsp ⟨heq.1, by rw [← heq.1, hq, ← heq.2]; rfl⟩
    exact ⟨hl, same_setBuf s hba _, rfl, rfl⟩
  | relseUnused q a hq hr | relseUsed q a hq hr =>
    refine ⟨hl, ?_, rfl, rfl⟩
    simp only [Same, State.buf, buf_brelse, buf_bunpin, and_self]

/-- Inside `bread` a process gets only the lock of a buffer that was free. -/
theorem held_step (hs : Step s h (.step p) s' h') (hb : (s'.pc p).held = some b) :
    (s.pc p).held = some b ∨ s.lock b = none := by
  cases hs with
  | acquire _ a hp hl =>
    right
    have hba : a = b := by
      simp only [upd_self] at hb
      split at hb
      · simpa [Pc.held] using hb
      · simpa [Pc.held] using hb
    exact hba ▸ hl
  | read _ a hp =>
    left
    rw [hp]
    exact (congrArg Pc.held (upd_self s.pc p (.validate a))).symm.trans hb
  | validate _ a hp =>
    left
    rw [hp]
    exact (congrArg Pc.held (upd_self s.pc p (.ret a))).symm.trans hb
  | relseUnused _ a hp hr | relseUsed _ a hp hr =>
    cases (congrArg Pc.held (upd_self s.pc p .idle)).symm.trans hb

end Xv6.Bcache
