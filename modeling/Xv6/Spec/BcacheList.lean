import Mathlib.Algebra.Order.BigOperators.Group.Finset
import Xv6.ForStd.FinSum
import Xv6.Kernel.Bcache

/-!
# The structure of the buffer cache

What holds between the critical sections of `bget`, `brelse`, `bpin` and `bunpin` in every
interleaving of processes that release what they get and unpin what they pin. The links form one ring
through `bcache.head` with every buffer on it once (`Structure.ring`), a block has at most one
buffer, `refcnt` counts gets and pins, and the ring is ordered by the last release that left a
buffer unused.
-/

namespace Xv6.Bcache

open TransitionSystem

variable {N : Nat}

/-! ## The record of pins and releases -/

/-- `pins b` are the calls of `bpin` for `b` without a call of `bunpin` yet. `stamp b` is the time of
    the last `brelse` of `b` that left it with `refcnt` 0, and 0 if there was none. -/
structure History where
  pins : BufPtr → Nat
  stamp : BufPtr → Nat
  clock : Nat

/-- Record the step on input `i` in state `s`. -/
def History.record (s : State N) (i : Input N) (h : History) : History :=
  match i with
  | .bpin _ b => { h with pins := upd h.pins b (h.pins b + 1) }
  | .bunpin _ b => { h with pins := upd h.pins b (h.pins b - 1) }
  | .step p =>
    match s.pc p with
    | .relse b =>
      if (s.buf b).refcnt = 1 then
        { h with stamp := upd h.stamp b (h.clock + 1), clock := h.clock + 1 }
      else h
    | _ => h
  | _ => h

/-- The cache with the record of pins and releases. -/
def recordedCache (N : Nat) : TransitionSystem (State N × History) (Input N) :=
  (bcacheOps N).observe ⟨fun _ => 0, fun _ => 0, 0⟩ fun s i h => h.record s i

/-- A process releases a buffer that it got and has not released yet, and there is a pin for every
    call of `bunpin`. -/
def Disciplined (x : State N × History) : Input N → Prop
  | .brelse p b => x.1.lock b = some p
  | .bunpin _ b => 0 < x.2.pins b
  | _ => True

instance (x : State N × History) (i : Input N) : Decidable (Disciplined x i) := by
  cases i <;> simp only [Disciplined] <;> infer_instance

/-- The process has got `b` and does not hold its lock: not yet, or not any more. -/
def Pc.uses (b : BufPtr) : Pc → Bool
  | lockWait c | relse c => c = b
  | _ => false

/-- The gets of `b` by process `p` that are not released yet. -/
def State.getsOf (s : State N) (b : BufPtr) (p : Fin N) : Nat :=
  (if (s.pc p).uses b then 1 else 0) + if s.lock b = some p then 1 else 0

/-- The outstanding gets of `b`. -/
def State.gets (s : State N) (b : BufPtr) : Nat := ∑ p, s.getsOf b p

/-! ## Steps -/

/-- One step with its record, by what it does. -/
inductive Step (s : State N) (h : History) : Input N → State N → History → Prop
  | hit (p : Fin N) (dev k : Nat) (b : BufPtr) (hp : (s.pc p).ready = true)
      (hc : s.cache.findCached dev k = some (some b)) :
      Step s h (.bread p dev k)
        { s with cache := s.cache.bpin b, pc := upd s.pc p (.lockWait b) } h
  | recycle (p : Fin N) (dev k : Nat) (b : BufPtr) (hp : (s.pc p).ready = true)
      (hc : s.cache.findCached dev k = some none) (hu : s.cache.findUnused = some (some b)) :
      Step s h (.bread p dev k)
        { s with cache := s.cache.recycle b dev k, pc := upd s.pc p (.lockWait b) } h
  | full (p : Fin N) (dev k : Nat) (hc : s.cache.findCached dev k = some none)
      (hu : s.cache.findUnused = some none) :
      Step s h (.bread p dev k) (s.stop "bget: no buffers") h
  | bwrite (p : Fin N) (b : BufPtr) (hp : (s.pc p).ready = true) (hl : s.lock b = some p) :
      Step s h (.bwrite p b) { s with disk := upd s.disk (s.buf b).blockno (s.buf b).data } h
  | bwriteOther (p : Fin N) (b : BufPtr) (hl : s.lock b ≠ some p) :
      Step s h (.bwrite p b) (s.stop "bwrite") h
  | brelse (p : Fin N) (b : BufPtr) (hp : (s.pc p).ready = true) (hl : s.lock b = some p) :
      Step s h (.brelse p b) { s with lock := upd s.lock b none, pc := upd s.pc p (.relse b) } h
  | brelseOther (p : Fin N) (b : BufPtr) (hl : s.lock b ≠ some p) :
      Step s h (.brelse p b) (s.stop "brelse") h
  | bpin (p : Fin N) (b : BufPtr) (hp : (s.pc p).ready = true) :
      Step s h (.bpin p b) { s with cache := s.cache.bpin b }
        { h with pins := upd h.pins b (h.pins b + 1) }
  | bunpin (p : Fin N) (b : BufPtr) (hp : (s.pc p).ready = true) :
      Step s h (.bunpin p b) { s with cache := s.cache.bunpin b }
        { h with pins := upd h.pins b (h.pins b - 1) }
  | store (p : Fin N) (b : BufPtr) (data : Log.Block) (hp : (s.pc p).ready = true)
      (hl : s.lock b = some p) :
      Step s h (.store p b data) (s.setBuf b { s.buf b with data := data }) h
  | acquire (p : Fin N) (b : BufPtr) (hp : s.pc p = .lockWait b) (hl : s.lock b = none) :
      Step s h (.step p)
        { s with
          lock := upd s.lock b (some p)
          pc := upd s.pc p (if (s.buf b).valid then .ret b else .read b) } h
  | read (p : Fin N) (b : BufPtr) (hp : s.pc p = .read b) :
      Step s h (.step p)
        ((s.setBuf b { s.buf b with data := s.disk (s.buf b).blockno }).goto p (.validate b)) h
  | validate (p : Fin N) (b : BufPtr) (hp : s.pc p = .validate b) :
      Step s h (.step p) ((s.setBuf b { s.buf b with valid := true }).goto p (.ret b)) h
  | relseUnused (p : Fin N) (b : BufPtr) (hp : s.pc p = .relse b) (hr : (s.buf b).refcnt = 1) :
      Step s h (.step p) { s with cache := s.cache.brelse b, pc := upd s.pc p .idle }
        { h with stamp := upd h.stamp b (h.clock + 1), clock := h.clock + 1 }
  | relseUsed (p : Fin N) (b : BufPtr) (hp : s.pc p = .relse b) (hr : (s.buf b).refcnt ≠ 1) :
      Step s h (.step p) { s with cache := s.cache.brelse b, pc := upd s.pc p .idle } h

variable {i : Input N} {p : Fin N} {c : Pc} {b : BufPtr}
variable {s s' : State N}

/-- The calls that a process makes from outside the cache. -/
private theorem step_of_call {h : History} (hp : (s.pc i.process).ready = true)
    (hs : s.call i = some s') : Step s h i s' (h.record s i) := by
  cases i with
  | bread p dev k =>
    simp only [State.call, State.bread, Cache.bget] at hs
    cases hc : s.cache.findCached dev k with
    | none => simp [hc] at hs
    | some r =>
      cases r with
      | some b =>
        simp only [hc, Option.some.injEq] at hs
        exact hs ▸ .hit p dev k b hp hc
      | none =>
        cases hu : s.cache.findUnused with
        | none => simp [hc, hu] at hs
        | some r =>
          cases r with
          | some b =>
            simp only [hc, hu, Option.some.injEq] at hs
            exact hs ▸ .recycle p dev k b hp hc hu
          | none =>
            simp only [hc, hu, Option.some.injEq] at hs
            exact hs ▸ .full p dev k hc hu
  | bwrite p b =>
    simp only [State.call, State.bwrite, Option.some.injEq] at hs
    split at hs
    · exact hs ▸ .bwrite p b hp ‹_›
    · exact hs ▸ .bwriteOther p b ‹_›
  | brelse p b =>
    simp only [State.call, State.brelse, Option.some.injEq] at hs
    split at hs
    · exact hs ▸ .brelse p b hp ‹_›
    · exact hs ▸ .brelseOther p b ‹_›
  | bpin p b =>
    simp only [State.call, Option.some.injEq] at hs
    exact hs ▸ .bpin p b hp
  | bunpin p b =>
    simp only [State.call, Option.some.injEq] at hs
    exact hs ▸ .bunpin p b hp
  | store p b data =>
    simp only [State.call] at hs
    split at hs
    · simp only [Option.some.injEq] at hs
      exact hs ▸ .store p b data hp ‹_›
    · cases hs
  | step p => cases hs

/-- The steps of a process inside a function of the cache. -/
private theorem step_of_exec {h : History} (hs : s.exec p = some s') :
    Step s h (.step p) s' (h.record s (.step p)) := by
  simp only [State.exec] at hs
  simp only [History.record]
  cases hp : s.pc p with
  | idle => simp [hp] at hs
  | ret b => simp [hp] at hs
  | lockWait b =>
    simp only [hp, State.acquiresleep] at hs
    split at hs
    · simp only [Option.some.injEq] at hs
      exact hs ▸ .acquire p b hp ‹_›
    · cases hs
  | read b =>
    simp only [hp, Option.some.injEq] at hs
    exact hs ▸ .read p b hp
  | validate b =>
    simp only [hp, Option.some.injEq] at hs
    exact hs ▸ .validate p b hp
  | relse b =>
    simp only [hp, Option.some.injEq] at hs
    subst hs
    show Step s h _ _ (if (s.buf b).refcnt = 1 then _ else h)
    split
    · exact .relseUnused p b hp ‹_›
    · exact .relseUsed p b hp ‹_›

/-- Every step of the recorded cache is one of the steps above, and nothing had panicked. -/
theorem step_cases {x y : State N × History} (hs : (recordedCache N).step x i = some y) :
    x.1.panicked = none ∧ Step x.1 x.2 i y.1 y.2 := by
  obtain ⟨hs, hy⟩ := observe_step.mp hs
  rw [hy]
  simp only [bcacheOps, State.step] at hs
  split at hs
  · cases hs
  · rename_i hpan
    refine ⟨by simpa using hpan, ?_⟩
    split at hs
    · exact step_of_call ‹_› hs
    · cases i with
      | step p => exact step_of_exec hs
      | _ => cases hs

/-! ## Counting gets -/

/-- Only process `p` moves, and only it takes or leaves locks. -/
structure OnlyOf (p : Fin N) (s s' : State N) : Prop where
  pc : ∀ q, q ≠ p → s'.pc q = s.pc q
  lock : ∀ b q, q ≠ p → (s'.lock b = some q ↔ s.lock b = some q)

theorem OnlyOf.gets (h : OnlyOf p s s') (b : BufPtr) :
    s'.gets b + s.getsOf b p = s.gets b + s'.getsOf b p := by
  refine Finset.sum_add_of_eq_off _ _ p fun q hq => ?_
  simp only [State.getsOf, h.pc q hq, h.lock b q hq]

/-- A process that has moved without touching a lock. -/
theorem onlyOf_goto (hpc : s'.pc = upd s.pc p c) (hl : s'.lock = s.lock) :
    OnlyOf p s s' := by
  refine ⟨fun q hq => ?_, fun b q _ => ?_⟩
  · rw [hpc, upd_of_ne hq]
  · rw [hl]

/-- The process leaves a lock that it holds. -/
theorem onlyOf_release (hl : s.lock b = some p) :
    OnlyOf p s { s with lock := upd s.lock b none, pc := upd s.pc p c } := by
  refine ⟨fun q hq => upd_of_ne hq _, fun a q hq => ?_⟩
  by_cases hab : a = b
  · subst hab
    simp [hl, Ne.symm hq]
  · simp [hab]

/-- The process takes a lock that is free. -/
theorem onlyOf_acquire (hl : s.lock b = none) :
    OnlyOf p s { s with lock := upd s.lock b (some p), pc := upd s.pc p c } := by
  refine ⟨fun q hq => upd_of_ne hq _, fun a q hq => ?_⟩
  by_cases hab : a = b
  · subst hab
    simp [hl, Ne.symm hq]
  · simp [hab]

variable {h h' : History}

/-- A step is a step of one process. -/
theorem step_onlyOf (hs : Step s h i s' h') :
    OnlyOf i.process s s' := by
  cases hs with
  | hit p dev k b hp hc | recycle p dev k b hp hc hu => exact onlyOf_goto rfl rfl
  | brelse p b hp hl => exact onlyOf_release hl
  | acquire p b hp hl => exact onlyOf_acquire hl
  | read p b hp => exact onlyOf_goto (c := .validate b) rfl rfl
  | validate p b hp => exact onlyOf_goto (c := .ret b) rfl rfl
  | relseUnused p b hp hr | relseUsed p b hp hr => exact onlyOf_goto (c := .idle) rfl rfl
  | full p dev k hc hu | bwrite p b hp hl | bwriteOther p b hl | brelseOther p b hl | bpin p b hp
  | bunpin p b hp | store p b data hp hl => exact ⟨fun _ _ => rfl, fun _ _ _ => Iff.rfl⟩

theorem gets_congr (hpc : s'.pc = s.pc) (hl : s'.lock = s.lock) (b : BufPtr) :
    s'.gets b = s.gets b := by
  simp only [State.gets, State.getsOf, hpc, hl]

/-- A move inside `bread`, where the process holds the lock. -/
theorem gets_goto (hpc : s'.pc = upd s.pc p c) (hl : s'.lock = s.lock)
    (hu : c.uses b = (s.pc p).uses b) : s'.gets b = s.gets b := by
  have hgets := (onlyOf_goto hpc hl).gets b
  simp only [State.getsOf, hpc, hl, upd_self, hu] at hgets
  omega

/-! ## The invariant -/

/-- `a` stands before `b`: it was released to zero later, or neither ever was. -/
def Later (stamp : BufPtr → Nat) (a b : BufPtr) : Prop :=
  stamp b < stamp a ∨ stamp a = 0 ∧ stamp b = 0

/-- The cache between two critical sections; `order` are the buffers from `head.next` on. -/
structure Structure (order : List BufPtr) (s : State N) (h : History) : Prop where
  ring : IsRing s.cache.links none (order.map some)
  all : ∀ b, b ∈ order
  unique : ∀ b c, b ≠ c → (s.buf b).dev ≠ 0 →
    ¬ ((s.buf b).dev = (s.buf c).dev ∧ (s.buf b).blockno = (s.buf c).blockno)
  refs : ∀ b, (s.buf b).refcnt = s.gets b + h.pins b
  recent : order.Pairwise (Later h.stamp)
  clock : ∀ b, h.stamp b ≤ h.clock

theorem findSome_map_filter {β : Type*} (p : β → Bool) (l : List β) :
    (l.map some).findSome? (Option.filter p) = l.find? p := by
  induction l with
  | nil => rfl
  | cons a l ih =>
    rw [List.map_cons, List.findSome?_cons, List.find?_cons, ih, Option.filter_some]
    cases p a <;> rfl

namespace Structure

variable {order : List BufPtr} {s s' : State N} {h h' : History}

section

variable (hi : Structure order s h)
include hi

theorem nodup : order.Nodup :=
  List.Nodup.of_map _ (List.nodup_cons.mp hi.ring.nodup).2

theorem length_lt : (order.map some).length < NBUF + 1 := by
  have hle := hi.nodup.length_le_card
  rw [Fintype.card_fin] at hle
  rw [List.length_map]
  omega

/-- The first loop of `bget` goes through the list from the front. -/
theorem findCached (dev k : Nat) :
    s.cache.findCached dev k = some (order.find? (s.cache.holds dev k)) := by
  rw [Cache.findCached, hi.ring.search_next hi.length_lt, findSome_map_filter]

/-- The second loop of `bget` goes through the list from the back. -/
theorem findUnused :
    s.cache.findUnused = some (order.reverse.find? s.cache.unused) := by
  rw [Cache.findUnused, hi.ring.search_prev hi.length_lt, ← List.map_reverse, findSome_map_filter]

/-- Steps that change neither the list nor what the buffers are for. -/
theorem frame (hl : s'.cache.links = s.cache.links)
    (hid : ∀ b, (s'.buf b).dev = (s.buf b).dev ∧ (s'.buf b).blockno = (s.buf b).blockno)
    (hrefs : ∀ b, (s'.buf b).refcnt = s'.gets b + h'.pins b) (hst : h'.stamp = h.stamp)
    (hcl : h'.clock = h.clock) : Structure order s' h' where
  ring := hl ▸ hi.ring
  all := hi.all
  unique b c hne := by
    rw [(hid b).1, (hid b).2, (hid c).1, (hid c).2]
    exact hi.unique b c hne
  refs := hrefs
  recent := hst ▸ hi.recent
  clock := by
    rw [hst, hcl]
    exact hi.clock

/-- A step of process `p` that changes `refcnt` and pins with its own gets. -/
theorem refs_step (ho : OnlyOf p s s') (hstep : ∀ b, (s'.buf b).refcnt + s.getsOf b p + h.pins b =
      (s.buf b).refcnt + s'.getsOf b p + h'.pins b) :
    ∀ b, (s'.buf b).refcnt = s'.gets b + h'.pins b := by
  intro b
  have hb := hstep b
  have hgets := ho.gets b
  have hrefs := hi.refs b
  omega

end

end Structure

/-! ### Fields after an operation on the cache -/

theorem buf_bpin (c : Cache) (b a : BufPtr) :
    (c.bpin b).buf a = { c.buf a with refcnt := (c.buf a).refcnt + if a = b then 1 else 0 } := by
  by_cases hab : a = b
  · simp [Cache.bpin, Cache.set, hab]
  · simp [Cache.bpin, Cache.set, hab]

theorem buf_bunpin (c : Cache) (b a : BufPtr) :
    (c.bunpin b).buf a = { c.buf a with refcnt := (c.buf a).refcnt - if a = b then 1 else 0 } := by
  by_cases hab : a = b
  · simp [Cache.bunpin, Cache.set, hab]
  · simp [Cache.bunpin, Cache.set, hab]

theorem buf_brelse (c : Cache) (b a : BufPtr) : (c.brelse b).buf a = (c.bunpin b).buf a := by
  simp only [Cache.brelse]
  split <;> rfl

theorem buf_recycle_of_ne (c : Cache) {a : BufPtr} (hab : a ≠ b) (dev k : Nat) :
    (c.recycle b dev k).buf a = c.buf a := upd_of_ne hab _

theorem buf_setBuf_of_ne (s : State N) {a : BufPtr} (hab : a ≠ b) (v : Buf) :
    (s.setBuf b v).buf a = s.buf a := upd_of_ne hab _

theorem buf_setBuf_self (s : State N) (b : BufPtr) (v : Buf) : (s.setBuf b v).buf b = v :=
  upd_self _ _ _

/-- A new value for `b` that keeps its fields `valid`, `dev`, `blockno` and `refcnt`, or some of
    them, keeps them for all buffers. -/
theorem buf_setBuf_field {β : Type*} (f : Buf → β) {v : Buf} (hv : f v = f (s.buf b)) (a : BufPtr) :
    f ((s.setBuf b v).buf a) = f (s.buf a) := by
  by_cases hab : a = b
  · rw [hab, buf_setBuf_self, hv]
  · rw [buf_setBuf_of_ne s hab]

@[simp] theorem uses_lockWait (a b : BufPtr) : (Pc.lockWait a).uses b = decide (b = a) := by
  simp only [Pc.uses, eq_comm]

@[simp] theorem uses_relse (a b : BufPtr) : (Pc.relse a).uses b = decide (b = a) := by
  simp only [Pc.uses, eq_comm]

theorem uses_of_ready (hc : c.ready = true) (b : BufPtr) : c.uses b = false := by
  cases c <;> first | rfl | cases hc

/-! ## Each step keeps the structure -/

namespace Structure

variable {order : List BufPtr} {s : State N} {h : History}

section

variable (hi : Structure order s h)
include hi

/-- `bget` finds the block. -/
theorem hit (hp : (s.pc p).ready = true) :
    Structure order { s with cache := s.cache.bpin b, pc := upd s.pc p (.lockWait b) } h := by
  refine hi.frame rfl (fun a => ?_) (hi.refs_step (onlyOf_goto rfl rfl) fun a => ?_) rfl rfl
  · simp only [State.buf, buf_bpin, and_self]
  · -- the process now has one get more, of `b`
    simp only [State.buf, buf_bpin, State.getsOf, upd_self, uses_of_ready hp, uses_lockWait,
      decide_eq_true_eq, Bool.false_eq_true, if_false]
    omega

/-- `bget` takes an unused buffer for a block that no buffer holds. -/
theorem recycle {dev k : Nat} (hp : (s.pc p).ready = true)
    (hc : s.cache.findCached dev k = some none) (hu : s.cache.findUnused = some (some b)) :
    Structure order { s with cache := s.cache.recycle b dev k, pc := upd s.pc p (.lockWait b) } h := by
  have hunused : (s.buf b).refcnt = 0 := by
    rw [hi.findUnused, Option.some.injEq] at hu
    have hb := List.find?_some hu
    exact eq_of_beq hb
  have hnone : ∀ c, ¬ ((s.buf c).dev = dev ∧ (s.buf c).blockno = k) := by
    rw [hi.findCached, Option.some.injEq, List.find?_eq_none] at hc
    intro c hck
    exact hc c (hi.all c) (by simp [Cache.holds, State.buf] at hck ⊢; exact hck)
  refine ⟨hi.ring, hi.all, fun a c hac hdev => ?_,
    hi.refs_step (onlyOf_goto rfl rfl) fun a => ?_, hi.recent, hi.clock⟩
  · -- the new owner of the block is `b` alone
    by_cases hab : a = b
    · subst hab
      simp only [State.buf, Cache.recycle, Cache.set, upd_self, upd_of_ne (Ne.symm hac)]
      exact fun heq => hnone c ⟨heq.1.symm, heq.2.symm⟩
    · by_cases hcb : c = b
      · subst hcb
        simp only [State.buf, Cache.recycle, Cache.set, upd_self, upd_of_ne hac]
        exact hnone a
      · simp only [State.buf, buf_recycle_of_ne _ hab, buf_recycle_of_ne _ hcb] at hdev ⊢
        exact hi.unique a c hac hdev
  · simp only [State.getsOf, upd_self, uses_of_ready hp, uses_lockWait, decide_eq_true_eq,
      Bool.false_eq_true, if_false]
    by_cases hab : a = b
    · subst hab
      rw [hunused, if_pos rfl]
      simp only [State.buf, Cache.recycle, Cache.set, upd_self]
      omega
    · rw [if_neg hab]
      simp only [State.buf, buf_recycle_of_ne _ hab]

/-- `brelse` up to `releasesleep`: the get is not yet given back. -/
theorem releasesleep (hp : (s.pc p).ready = true) (hl : s.lock b = some p) :
    Structure order { s with lock := upd s.lock b none, pc := upd s.pc p (.relse b) } h := by
  refine hi.frame rfl (fun a => ⟨rfl, rfl⟩) (hi.refs_step (onlyOf_release hl) fun a => ?_) rfl rfl
  simp only [State.getsOf, upd_self, uses_of_ready hp, uses_relse, decide_eq_true_eq, State.buf]
  by_cases hab : a = b
  · subst hab
    simp [hl]
  · simp [hab]

/-- `acquiresleep`. -/
theorem acquiresleep (hp : s.pc p = .lockWait b) (hl : s.lock b = none) (hc : ∀ a, c.uses a = false) :
    Structure order { s with lock := upd s.lock b (some p), pc := upd s.pc p c } h := by
  refine hi.frame rfl (fun a => ⟨rfl, rfl⟩) (hi.refs_step (onlyOf_acquire hl) fun a => ?_) rfl rfl
  simp only [State.getsOf, upd_self, hp, hc, uses_lockWait, decide_eq_true_eq, State.buf]
  by_cases hab : a = b
  · subst hab
    simp [hl]
  · simp [hab]

/-- `bpin`. -/
theorem bpin (b : BufPtr) :
    Structure order { s with cache := s.cache.bpin b }
      { h with pins := upd h.pins b (h.pins b + 1) } := by
  refine hi.frame rfl (fun a => ?_) (fun a => ?_) rfl rfl
  · simp only [State.buf, buf_bpin, and_self]
  · have hrefs := hi.refs a
    have hgets : State.gets { s with cache := s.cache.bpin b } a = s.gets a := gets_congr rfl rfl a
    simp only [State.buf, buf_bpin, upd_apply, hgets] at hrefs ⊢
    by_cases hab : a = b
    · subst hab
      rw [if_pos rfl, if_pos rfl]
      omega
    · rw [if_neg hab, if_neg hab]
      omega

/-- `bunpin`, which has a pin to undo. -/
theorem bunpin (hb : 0 < h.pins b) :
    Structure order { s with cache := s.cache.bunpin b }
      { h with pins := upd h.pins b (h.pins b - 1) } := by
  refine hi.frame rfl (fun a => ?_) (fun a => ?_) rfl rfl
  · simp only [State.buf, buf_bunpin, and_self]
  · have hrefs := hi.refs a
    have hgets : State.gets { s with cache := s.cache.bunpin b } a = s.gets a :=
      gets_congr rfl rfl a
    simp only [State.buf, buf_bunpin, upd_apply, hgets] at hrefs ⊢
    by_cases hab : a = b
    · subst hab
      rw [if_pos rfl, if_pos rfl]
      omega
    · rw [if_neg hab, if_neg hab]
      omega

/-- A step that stores into the buffer `b` a process is using. -/
theorem setBuf {v : Buf} (hc : s'.cache = (s.setBuf b v).cache)
    (hg : ∀ a, s'.gets a = s.gets a) (hd : v.dev = (s.buf b).dev) (hk : v.blockno = (s.buf b).blockno)
    (hr : v.refcnt = (s.buf b).refcnt) : Structure order s' h := by
  have hbuf : ∀ a, s'.buf a = (s.setBuf b v).buf a := fun a => by rw [State.buf, hc]; rfl
  refine hi.frame (by rw [hc]; rfl) (fun a => ?_) (fun a => ?_) rfl rfl
  · rw [hbuf]
    exact ⟨buf_setBuf_field Buf.dev hd a, buf_setBuf_field Buf.blockno hk a⟩
  · rw [hbuf, buf_setBuf_field Buf.refcnt hr, hg, hi.refs a]

/-- A step of `bread` that fills the buffer. -/
theorem fill {v : Buf} (hu : ∀ a, c.uses a = (s.pc p).uses a) (hd : v.dev = (s.buf b).dev)
    (hk : v.blockno = (s.buf b).blockno) (hr : v.refcnt = (s.buf b).refcnt) :
    Structure order ((s.setBuf b v).goto p c) h := by
  have hgets : ∀ a, ((s.setBuf b v).goto p c).gets a = s.gets a := by
    intro a
    have hpc : ((s.setBuf b v).goto p c).pc = upd s.pc p c := rfl
    exact gets_goto hpc rfl (hu a)
  exact hi.setBuf rfl hgets hd hk hr

/-- A buffer that a process has got is in use. -/
theorem refcnt_pos (hg : 0 < s.getsOf b p) :
    0 < (s.buf b).refcnt := by
  have hle : s.getsOf b p ≤ s.gets b :=
    Finset.single_le_sum (fun _ _ => Nat.zero_le _) (Finset.mem_univ p)
  rw [hi.refs b]
  omega

/-- The counts after the second half of `brelse`. -/
private theorem refs_relse (hp : s.pc p = .relse b) (a : BufPtr) :
    ((s.cache.brelse b).buf a).refcnt =
      State.gets { s with cache := s.cache.brelse b, pc := upd s.pc p .idle } a + h.pins a := by
  have ho : OnlyOf p s { s with cache := s.cache.brelse b, pc := upd s.pc p .idle } :=
    onlyOf_goto rfl rfl
  have hgets := ho.gets a
  have hrefs := hi.refs a
  simp only [State.getsOf, upd_self, hp, uses_relse, decide_eq_true_eq, State.buf] at hgets hrefs
  rw [buf_brelse, buf_bunpin]
  show (s.cache.buf a).refcnt - (if a = b then 1 else 0) = _
  have hidle : (if Pc.idle.uses a = true then 1 else 0) = 0 := rfl
  omega

/-- The second half of `brelse` when others still use the buffer. -/
theorem relseUsed (hp : s.pc p = .relse b) (hr : (s.buf b).refcnt ≠ 1) :
    Structure order { s with cache := s.cache.brelse b, pc := upd s.pc p .idle } h := by
  have hpos : 0 < (s.buf b).refcnt := hi.refcnt_pos (p := p) (by simp [State.getsOf, hp])
  have hlinks : (s.cache.brelse b).links = s.cache.links := by
    rw [Cache.brelse]
    simp only [buf_bunpin, if_true]
    rw [if_neg (by simp only [State.buf] at hr hpos; omega)]
    rfl
  refine hi.frame hlinks (fun a => ?_) (hi.refs_relse hp) rfl rfl
  simp only [State.buf, buf_brelse, buf_bunpin, and_self]

end

/-- The second half of `brelse` when nobody else uses the buffer, which moves to the front. -/
theorem relseUnused {xs ys : List BufPtr} (hi : Structure (xs ++ b :: ys) s h)
    (hp : s.pc p = .relse b) (hr : (s.buf b).refcnt = 1) :
    Structure (b :: (xs ++ ys)) { s with cache := s.cache.brelse b, pc := upd s.pc p .idle }
      { h with stamp := upd h.stamp b (h.clock + 1), clock := h.clock + 1 } := by
  have hlinks : (s.cache.brelse b).links = (s.cache.links.unlink (some b)).insertFirst none (some b) := by
    rw [Cache.brelse]
    simp only [buf_bunpin, if_true]
    rw [if_pos (by simp only [State.buf] at hr; omega)]
    rfl
  have hnd := hi.nodup
  have hmid : b ∉ xs ++ ys := by
    rw [List.nodup_append, List.nodup_cons] at hnd
    rw [List.mem_append, not_or]
    exact ⟨fun hb => hnd.2.2 b hb b (List.mem_cons_self) rfl, hnd.2.1.1⟩
  have hne : ∀ c ∈ xs ++ ys, c ≠ b := fun c hc heq => hmid (heq ▸ hc)
  refine ⟨?_, fun c => ?_, fun a c hac hdev => ?_, hi.refs_relse hp, ?_, fun c => ?_⟩
  · show IsRing (s.cache.brelse b).links none _
    rw [hlinks, List.map_cons]
    have hring := hi.ring
    rw [List.map_append, List.map_cons] at hring
    have hout := hring.unlink
    rw [← List.map_append] at hout
    exact hout.insertFirst (by simpa using hmid)
  · have hc := hi.all c
    simp only [List.mem_append, List.mem_cons] at hc ⊢
    tauto
  · simp only [State.buf, buf_brelse, buf_bunpin] at hdev ⊢
    exact hi.unique a c hac hdev
  · rw [List.pairwise_cons]
    refine ⟨fun c hc => .inl ?_, ?_⟩
    · show upd h.stamp b (h.clock + 1) c < upd h.stamp b (h.clock + 1) b
      rw [upd_self, upd_of_ne (hne c hc)]
      exact Nat.lt_succ_of_le (hi.clock c)
    · have hsub : (xs ++ ys).Pairwise (Later h.stamp) :=
        hi.recent.sublist ((List.sublist_cons_self b ys).append_left xs)
      refine hsub.imp_of_mem fun {a c} ha hc hac => ?_
      simp only [Later, upd_of_ne (hne a ha), upd_of_ne (hne c hc)]
      exact hac
  · show upd h.stamp b (h.clock + 1) c ≤ h.clock + 1
    have hc := hi.clock c
    rw [upd_apply]
    split <;> omega

end Structure

/-- Every disciplined step keeps the structure. -/
theorem structure_step {order : List BufPtr}
    (hi : Structure order s h) (hd : Disciplined (s, h) i) (hs : Step s h i s' h') :
    ∃ order', Structure order' s' h' := by
  cases hs with
  | hit p dev k b hp hc => exact ⟨order, hi.hit hp⟩
  | recycle p dev k b hp hc hu => exact ⟨order, hi.recycle hp hc hu⟩
  | full p dev k hc hu | bwrite p b hp hl | bwriteOther p b hl =>
    exact ⟨order, hi.frame rfl (fun _ => ⟨rfl, rfl⟩) hi.refs rfl rfl⟩
  | brelse p b hp hl => exact ⟨order, hi.releasesleep hp hl⟩
  | brelseOther p b hl => exact absurd hd hl
  | bpin p b hp => exact ⟨order, hi.bpin b⟩
  | bunpin p b hp => exact ⟨order, hi.bunpin hd⟩
  | store p b data hp hl => exact ⟨order, hi.setBuf rfl (fun _ => rfl) rfl rfl rfl⟩
  | acquire p b hp hl =>
    refine ⟨order, hi.acquiresleep hp hl fun a => ?_⟩
    split <;> rfl
  | read p b hp | validate p b hp => exact ⟨order, hi.fill (fun a => by rw [hp]; rfl) rfl rfl rfl⟩
  | relseUnused p b hp hr =>
    obtain ⟨xs, ys, rfl⟩ := List.append_of_mem (hi.all b)
    exact ⟨_, hi.relseUnused hp hr⟩
  | relseUsed p b hp hr => exact ⟨order, hi.relseUsed hp hr⟩

/-! ## The initial list -/

/-- The loop of `binit`. -/
private theorem isRing_binit {l : Links Node} (bs xs : List BufPtr)
    (hr : IsRing l none (xs.map some)) (hd : (bs.reverse ++ xs).Nodup) :
    IsRing (bs.foldl (fun l b => l.insertFirst none (some b)) l) none
      ((bs.reverse ++ xs).map some) := by
  induction bs generalizing l xs with
  | nil => exact hr
  | cons b bs ih =>
    rw [List.reverse_cons, List.append_assoc] at hd ⊢
    refine ih (b :: xs) (hr.insertFirst ?_) hd
    rw [List.nodup_append] at hd
    simpa using (List.nodup_cons.mp hd.2.1).1

/-- `binit` links all buffers. -/
theorem structure_boot (links : Links Node) (disk : Nat → Log.Block) :
    Structure (List.finRange NBUF).reverse (State.boot N links disk) ⟨fun _ => 0, fun _ => 0, 0⟩ := by
  refine ⟨?_, fun b => ?_, fun b c _ hdev => absurd rfl hdev, fun b => ?_, ?_, fun _ => Nat.le_refl 0⟩
  · have hnil : IsRing (⟨upd links.prev none none, upd links.next none none⟩ : Links Node) none
        (([] : List BufPtr).map some) :=
      .nil (upd_self links.next none none) (upd_self links.prev none none)
    have hring := isRing_binit (List.finRange NBUF) [] hnil
      (by simpa using List.nodup_finRange NBUF)
    rwa [List.append_nil] at hring
  · rw [List.mem_reverse]
    exact List.mem_finRange b
  · -- nobody has got a buffer
    have hgets : State.gets (State.boot N links disk) b = 0 := Finset.sum_eq_zero fun p _ => rfl
    rw [hgets]
    rfl
  · exact List.pairwise_of_forall fun _ _ => .inr ⟨rfl, rfl⟩

/-- The structure holds in every state between critical sections. -/
theorem structure_reachable {x : State N × History} (hx : (recordedCache N).ReachableBy Disciplined x) :
    ∃ order, Structure order x.1 x.2 := by
  refine hx.induct (P := fun x => ∃ order, Structure order x.1 x.2) (fun x h0 => ?_)
    fun x i y _ hi hd hs => ?_
  · obtain ⟨⟨links, disk, hs⟩, hh⟩ := h0
    rw [hs, hh]
    exact ⟨_, structure_boot links disk⟩
  · obtain ⟨order, hi⟩ := hi
    exact structure_step hi hd (step_cases hs).2

/-- The step gives buffer `b` to another block. -/
def Recycled (s s' : State N) (b : BufPtr) : Prop :=
  ¬ ((s'.buf b).dev = (s.buf b).dev ∧ (s'.buf b).blockno = (s.buf b).blockno)

theorem Recycled.not_setBuf {a : BufPtr} {v : Buf} (hr : Recycled s s' a)
    (hc : s'.cache = (s.setBuf b v).cache) (hd : v.dev = (s.buf b).dev)
    (hk : v.blockno = (s.buf b).blockno) : False := by
  have hbuf : s'.buf a = (s.setBuf b v).buf a := by rw [State.buf, hc]; rfl
  rw [Recycled, hbuf] at hr
  exact hr ⟨buf_setBuf_field Buf.dev hd a, buf_setBuf_field Buf.blockno hk a⟩

/-- The buffer that `bget` recycles is unused, and the buffers behind it are in use. -/
theorem Structure.recycled {order : List BufPtr}
    (hi : Structure order s h) (hs : Step s h i s' h') (hb : Recycled s s' b) :
    (s.buf b).refcnt = 0 ∧
      ∃ front back, order = front ++ b :: back ∧ ∀ c ∈ back, 0 < (s.buf c).refcnt := by
  cases hs with
  | recycle p dev k b' hp hc hu =>
    by_cases hbb : b = b'
    · subst hbb
      rw [hi.findUnused, Option.some.injEq] at hu
      obtain ⟨hzero, xs, ys, hrev, hxs⟩ := List.find?_eq_some_iff_append.mp hu
      refine ⟨eq_of_beq hzero, ys.reverse, xs.reverse, ?_, fun c hc => ?_⟩
      · rw [← List.reverse_reverse order, hrev]
        simp
      · have hused := hxs c (List.mem_reverse.mp hc)
        simp only [Cache.unused, Bool.not_eq_eq_eq_not, Bool.not_true, beq_eq_false_iff_ne] at hused
        exact Nat.pos_of_ne_zero hused
    · refine absurd ?_ hb
      simp only [State.buf, buf_recycle_of_ne _ hbb, and_self]
  | hit p dev k b' hp hc | bpin p b' hp =>
    exact absurd (by simp only [State.buf, buf_bpin, and_self]) hb
  | bunpin p b' hp => exact absurd (by simp only [State.buf, buf_bunpin, and_self]) hb
  | store p b' data hp hl | read p b' hp | validate p b' hp =>
    exact (hb.not_setBuf rfl rfl rfl).elim
  | relseUnused p b' hp hr | relseUsed p b' hp hr =>
    exact absurd (by simp only [State.buf, buf_brelse, buf_bunpin, and_self]) hb
  | full p dev k hc hu | bwrite p b' hp hl | bwriteOther p b' hl | brelse p b' hp hl
  | brelseOther p b' hl | acquire p b' hp hl => exact absurd ⟨rfl, rfl⟩ hb

/-- In every interleaving of processes that release what they get and unpin what they pin: the
    links are one ring through `bcache.head` with every buffer on it once, no two buffers of a
    device hold one block, `refcnt` is the number of outstanding gets and pins, the ring is ordered
    by the last `brelse` that left a buffer unused, and the buffer that the next step
    recycles is the unused one that is nearest to the tail. -/
theorem cache_structure {x : State N × History} (hx : (recordedCache N).ReachableBy Disciplined x) :
    ∃ order : List BufPtr,
      IsRing x.1.cache.links none (order.map some) ∧
      (∀ b, order.count b = 1) ∧
      (∀ b c, b ≠ c → (x.1.buf b).dev ≠ 0 →
        ¬ ((x.1.buf b).dev = (x.1.buf c).dev ∧ (x.1.buf b).blockno = (x.1.buf c).blockno)) ∧
      (∀ b, (x.1.buf b).refcnt = x.1.gets b + x.2.pins b) ∧
      order.Pairwise (Later x.2.stamp) ∧
      ∀ i y b, (recordedCache N).step x i = some y → Recycled x.1 y.1 b →
        (x.1.buf b).refcnt = 0 ∧
          ∃ front back, order = front ++ b :: back ∧ ∀ c ∈ back, 0 < (x.1.buf c).refcnt := by
  obtain ⟨order, hi⟩ := structure_reachable hx
  refine ⟨order, hi.ring, fun b => ?_, hi.unique, hi.refs, hi.recent, fun i y b hs hb => ?_⟩
  · exact List.count_eq_one_of_mem hi.nodup (hi.all b)
  · exact hi.recycled (step_cases hs).2 hb

/-- Two processes read block 5; the first one pins its buffer, and both release it. -/
def shareRun : List (Input 2) :=
  let b : BufPtr := ⟨0, NBUF_pos⟩
  [.bread 0 1 5, .step 0, .step 0, .step 0, .bread 1 1 5, .bpin 0 b, .brelse 0 b, .step 0, .step 1,
    .bunpin 0 b, .brelse 1 b, .step 1]

theorem cache_structure_share : ∃ x : State 2 × History,
    (recordedCache 2).ReachableBy Disciplined x ∧
    (x.1.buf ⟨0, by decide⟩).blockno = 5 ∧ x.2.stamp ⟨0, by decide⟩ = 1 ∧
    ∃ order : List BufPtr,
      IsRing x.1.cache.links none (order.map some) ∧ order.Pairwise (Later x.2.stamp) := by
  have hrun : ((recordedCache 2).runBy Disciplined
      (State.boot 2 ⟨id, id⟩ fun _ _ => 0, ⟨fun _ => 0, fun _ => 0, 0⟩) shareRun).map
      (fun x => ((x.1.buf ⟨0, by decide⟩).blockno, x.2.stamp ⟨0, by decide⟩)) = some (5, 1) := by
    decide +kernel
  obtain ⟨x, hr, heq⟩ := exists_reachableBy_of_runBy hrun ⟨⟨_, _, rfl⟩, rfl⟩
  obtain ⟨order, hring, -, -, -, hrecent, -⟩ := cache_structure hr
  exact ⟨x, hr, congrArg Prod.fst heq, congrArg Prod.snd heq, order, hring, hrecent⟩

end Xv6.Bcache
