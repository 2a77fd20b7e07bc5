import Xv6.ForStd.Transition
import Xv6.Kernel.Vm

/-!
# The page allocator

`kernel/kalloc.c`. The free list is threaded through the first words of the free pages. A call is cut
at `kmem.lock`: `kfree` fills the page before it links it, and `kalloc` after it has taken it.
-/

namespace Xv6.Kalloc

/-- `kernel/memlayout.h`. -/
def PHYSTOP : Nat := 0x80000000 + 128 * 1024 * 1024

/-- The memory and `kmem.freelist`. -/
structure Kmem where
  mem : ByteMem
  freelist : Nat

/-- `r->next`. -/
def next (m : ByteMem) (r : Nat) : Nat := (ofBytes (m.read r 8)).toNat

/-- A store into a page. -/
def Kmem.write (k : Kmem) (pa : Nat) (bs : List UInt8) : Kmem := { k with mem := k.mem.write pa bs }

/-- `memset(pa, c, PGSIZE)`. -/
def Kmem.memset (k : Kmem) (pa : Nat) (c : UInt8) : Kmem := k.write pa (List.replicate PGSIZE c)

/-- What `kfree` does under the lock. -/
def Kmem.push (k : Kmem) (pa : Nat) : Kmem :=
  { k.write pa (leBytes 8 k.freelist) with freelist := pa }

/-- What `kalloc` does under the lock. -/
def Kmem.pop (k : Kmem) : Kmem := { k with freelist := next k.mem k.freelist }

/-- The test of `kfree`, where `e` is `end`. -/
def bad (e pa : Nat) : Bool := pa % PGSIZE ≠ 0 ∨ pa < e ∨ PHYSTOP ≤ pa

/-- `kfree`, or nothing where it panics. -/
def kfree (e pa : Nat) (k : Kmem) : Option Kmem :=
  if bad e pa then none else some ((k.memset pa 1).push pa)

/-- The loop of `freerange` from `p` on. -/
def freerange (e : Nat) : (fuel p : Nat) → Kmem → Option Kmem
  | 0, _, k => some k
  | n + 1, p, k =>
    if p + PGSIZE ≤ PHYSTOP then (kfree e p k).bind (freerange e n (p + PGSIZE)) else some k

/-- `kinit`. -/
def kinit (e : Nat) (k : Kmem) : Option Kmem := freerange e (PHYSTOP / PGSIZE + 1) (PGROUNDUP e) k

/-- Who has a page: a `kfree` that has to link it, a `kalloc` that has to fill it, or a caller. -/
inductive Owner
  | kfree
  | kalloc
  | caller
deriving DecidableEq

structure State where
  kmem : Kmem
  taken : List (Nat × Owner)

inductive Input
  | kfree (pa : Nat)
  | link (pa : Nat)
  | kalloc
  | fill (pa : Nat)
  | store (pa : Nat) (bs : List UInt8)

/-- What a call or an owner may do next. `kalloc` of an empty list returns 0 and changes nothing. -/
def State.allows (e : Nat) (s : State) : Input → Bool
  | .kfree pa => (pa, .caller) ∈ s.taken ∧ bad e pa = false
  | .link pa => (pa, .kfree) ∈ s.taken
  | .kalloc => s.kmem.freelist ≠ 0
  | .fill pa => (pa, .kalloc) ∈ s.taken
  | .store pa bs => (pa, .caller) ∈ s.taken ∧ bs.length ≤ PGSIZE

def State.next (s : State) : Input → State
  | .kfree pa => ⟨s.kmem.memset pa 1, (pa, .kfree) :: s.taken.erase (pa, .caller)⟩
  | .link pa => ⟨s.kmem.push pa, s.taken.erase (pa, .kfree)⟩
  | .kalloc => ⟨s.kmem.pop, (s.kmem.freelist, .kalloc) :: s.taken⟩
  | .fill pa => ⟨s.kmem.memset pa 5, (pa, .caller) :: s.taken.erase (pa, .kalloc)⟩
  | .store pa bs => { s with kmem := s.kmem.write pa bs }

/-- The allocator after `kinit`, with any number of calls. -/
def allocator (e : Nat) : TransitionSystem State Input where
  init s := ∃ m, kinit e ⟨m, 0⟩ = some s.kmem ∧ s.taken = []
  step s i := if s.allows e i then some (s.next i) else none

/-! ## The free list -/

/-- The list at `r` consists of the pages of `l`. -/
def Threaded (m : ByteMem) (r : Nat) : List Nat → Prop
  | [] => r = 0
  | p :: l => r = p ∧ r ≠ 0 ∧ Threaded m (next m r) l

theorem Threaded.congr {m m' : ByteMem} {l : List Nat} (h : ∀ p ∈ l, next m' p = next m p) {r : Nat}
    (hl : Threaded m r l) : Threaded m' r l := by
  induction l generalizing r with
  | nil => exact hl
  | cons p l ih =>
    obtain ⟨rfl, h0, hl⟩ := hl
    refine ⟨rfl, h0, ?_⟩
    rw [h r List.mem_cons_self]
    exact ih (fun q hq => h q (List.mem_cons_of_mem r hq)) hl

/-- The pages of the allocator. -/
def pages (e : Nat) : List Nat :=
  List.range' (PGROUNDUP e) ((PHYSTOP - PGROUNDUP e) / PGSIZE) PGSIZE

/-- The pages are those of the free list and those of `t`. -/
def Split (e : Nat) (k : Kmem) (t : List Nat) : Prop :=
  ∃ l, Threaded k.mem k.freelist l ∧ (l ++ t).Perm (pages e)

variable {e pa : Nat} {k : Kmem} {t t' : List Nat} {s s' : State}

theorem mem_pages : pa ∈ pages e ↔ pa % PGSIZE = 0 ∧ e ≤ pa ∧ pa + PGSIZE ≤ PHYSTOP := by
  simp only [pages, List.mem_range', PGROUNDUP, PGSIZE]
  constructor
  · rintro ⟨i, hi, rfl⟩
    omega
  · rintro ⟨hmod, hle, htop⟩
    exact ⟨(pa - (e + 4096 - 1) / 4096 * 4096) / 4096, by omega, by omega⟩

theorem nodup_pages (e : Nat) : (pages e).Nodup := List.nodup_range' PGSIZE (by decide)

theorem not_bad (h : pa ∈ pages e) : bad e pa = false := by
  rw [mem_pages, PGSIZE] at h
  refine decide_eq_false fun hbad => ?_
  rw [PGSIZE] at hbad
  omega

namespace Split

theorem mem (h : Split e k t) (hpa : pa ∈ t) : pa ∈ pages e := by
  obtain ⟨l, -, hp⟩ := h
  exact hp.mem_iff.mp (List.mem_append_right l hpa)

theorem perm (h : Split e k t) (ht : t'.Perm t) : Split e k t' := by
  obtain ⟨l, hl, hp⟩ := h
  exact ⟨l, hl, (ht.append_left l).trans hp⟩

/-- The page is not in the list. -/
theorem write (h : Split e k t) (hpa : pa ∈ t) {bs : List UInt8} (hb : bs.length ≤ PGSIZE) :
    Split e (k.write pa bs) t := by
  obtain ⟨hmod, -, -⟩ := mem_pages.mp (h.mem hpa)
  obtain ⟨l, hl, hp⟩ := h
  refine ⟨l, hl.congr fun q hq => ?_, hp⟩
  have hne : q ≠ pa := by
    rintro rfl
    exact List.disjoint_of_nodup_append (hp.nodup_iff.mpr (nodup_pages e)) hq hpa
  obtain ⟨hmod', -, -⟩ := mem_pages.mp (hp.mem_iff.mp (List.mem_append_left t hq))
  rw [next, Kmem.write, ByteMem.read_write_of_disjoint, next]
  simp only [PGSIZE] at hmod hmod' hb
  omega

/-- The head of the list fits into a word. -/
theorem freelist_lt (h : Split e k t) : k.freelist < 256 ^ 8 := by
  obtain ⟨l, hl, hp⟩ := h
  cases l with
  | nil =>
    rw [show k.freelist = 0 from hl]
    decide
  | cons p l =>
    obtain ⟨-, -, hle⟩ := mem_pages.mp (hp.mem_iff.mp List.mem_cons_self)
    have htop : PHYSTOP < 256 ^ 8 := by decide
    rw [hl.1]
    omega

/-- A page goes into the list. -/
theorem push (he : 0 < e) (h : Split e k (pa :: t)) : Split e (k.push pa) t := by
  have hnext : next (k.push pa).mem pa = k.freelist := by
    have hread := ByteMem.read_write k.mem pa (leBytes 8 k.freelist)
    rw [leBytes_length] at hread
    rw [next, Kmem.push, Kmem.write, hread, ofBytes_leBytes_nat h.freelist_lt, Int.toNat_natCast]
  have hle := (mem_pages.mp (h.mem List.mem_cons_self)).2.1
  have hw : Split e (k.write pa (leBytes 8 k.freelist)) (pa :: t) :=
    h.write List.mem_cons_self (by simp [PGSIZE])
  obtain ⟨l, hl, hp⟩ := hw
  refine ⟨pa :: l, ⟨rfl, (by omega : pa ≠ 0), ?_⟩, List.perm_middle.symm.trans hp⟩
  show Threaded _ (next (k.push pa).mem pa) l
  rw [hnext]
  exact hl

/-- The first page leaves the list. -/
theorem pop (h : Split e k t) (h0 : k.freelist ≠ 0) : Split e k.pop (k.freelist :: t) := by
  obtain ⟨l, hl, hp⟩ := h
  cases l with
  | nil => exact absurd hl h0
  | cons p l =>
    obtain ⟨hr, -, hl⟩ := hl
    refine ⟨l, hl, ?_⟩
    rw [hr]
    exact List.perm_middle.trans hp

end Split

/-- `freerange` has `n` pages left. -/
theorem freerange_split (he : 0 < e) {fuel n p : Nat} (hn : n ≤ fuel)
    (hp : PHYSTOP < p + n * PGSIZE + PGSIZE) (h : Split e k (List.range' p n PGSIZE)) :
    ∃ k', freerange e fuel p k = some k' ∧ Split e k' [] := by
  induction n generalizing fuel p k with
  | zero =>
    refine ⟨k, ?_, h⟩
    cases fuel with
    | zero => rfl
    | succ fuel => rw [freerange, if_neg (by omega)]
  | succ n ih =>
    obtain ⟨fuel, rfl⟩ : ∃ m, fuel = m + 1 := ⟨fuel - 1, by omega⟩
    have hmem : p ∈ List.range' p (n + 1) PGSIZE := List.mem_cons_self
    have hpage := h.mem hmem
    rw [freerange, if_pos (mem_pages.mp hpage).2.2, kfree, not_bad hpage]
    refine ih (by omega) ?_ ((h.write hmem (by simp)).push he)
    rw [Nat.succ_mul] at hp
    omega

/-! ## Runs -/

def State.pages (s : State) : List Nat := s.taken.map Prod.fst

theorem kinit_split (he : 0 < e) (m : ByteMem) : ∃ k, kinit e ⟨m, 0⟩ = some k ∧ Split e k [] :=
  freerange_split he (by simp only [PGSIZE]; omega) (by simp only [PGSIZE]; omega)
    ⟨[], rfl, .refl (pages e)⟩

theorem State.perm_pages {a b : Owner} (h : (pa, a) ∈ s.taken) :
    (((pa, b) :: s.taken.erase (pa, a)).map Prod.fst).Perm s.pages :=
  ((List.perm_cons_erase h).map Prod.fst).symm

theorem Split.next (he : 0 < e) (h : Split e s.kmem s.pages) {i : Input} (hi : s.allows e i = true) :
    Split e (s.next i).kmem (s.next i).pages := by
  cases i with
  | kfree pa =>
    obtain ⟨hpa, -⟩ := of_decide_eq_true hi
    exact (h.write (List.mem_map_of_mem hpa) (by simp)).perm (s.perm_pages hpa)
  | link pa => exact .push he (h.perm (s.perm_pages (b := .kfree) (of_decide_eq_true hi)))
  | kalloc => exact h.pop (of_decide_eq_true hi)
  | fill pa =>
    have hpa := of_decide_eq_true hi
    exact (h.write (List.mem_map_of_mem hpa) (by simp)).perm (s.perm_pages hpa)
  | store pa bs =>
    obtain ⟨hpa, hb⟩ := of_decide_eq_true hi
    exact h.write (List.mem_map_of_mem hpa) hb

/-- `kinit` does not panic. From then on every page is in one place, once: in the free list or taken.
    `kalloc` fails only if all are taken, and `kfree` of a page in use does not panic. -/
theorem page_allocator (he : 0 < e) :
    (∀ m, (kinit e ⟨m, 0⟩).isSome) ∧
    ∀ s, (allocator e).Reachable s → ∃ l, Threaded s.kmem.mem s.kmem.freelist l ∧
      (l ++ s.pages).Nodup ∧
      (∀ pa, pa ∈ l ++ s.pages ↔ pa % PGSIZE = 0 ∧ e ≤ pa ∧ pa + PGSIZE ≤ PHYSTOP) ∧
      (s.kmem.freelist = 0 ↔ l = []) ∧ ∀ pa ∈ s.pages, bad e pa = false := by
  refine ⟨fun m => ?_, fun s hr => ?_⟩
  · obtain ⟨k, hk, -⟩ := kinit_split he m
    simp [hk]
  have hsplit : Split e s.kmem s.pages := by
    refine hr.induct (P := fun s => Split e s.kmem s.pages) (fun s hs => ?_) fun s i s' _ h _ hs => ?_
    · obtain ⟨m, hm, hs⟩ := hs
      obtain ⟨k, hk, h⟩ := kinit_split he m
      obtain rfl := Option.some.inj (hk.symm.trans hm)
      rw [State.pages, hs]
      exact h
    · obtain ⟨hi, hs⟩ := Option.ite_none_right_eq_some.mp hs
      cases hs
      exact h.next he hi
  obtain ⟨l, hl, hp⟩ := id hsplit
  refine ⟨l, hl, hp.nodup_iff.mpr (nodup_pages e), fun pa => hp.mem_iff.trans mem_pages, ?_, ?_⟩
  · cases l with
    | nil => exact ⟨fun _ => rfl, fun _ => hl⟩
    | cons p l => exact ⟨fun h0 => absurd h0 hl.2.1, (absurd · (List.cons_ne_nil p l))⟩
  · exact fun pa hpa => not_bad (hsplit.mem hpa)

/-- Of two pages, one is allocated, written to and freed. -/
theorem page_allocator_reuse : ∃ s l, (allocator 0x87ffe000).Reachable s ∧
    s.taken = [(0x87fff000, .kfree)] ∧ Threaded s.kmem.mem s.kmem.freelist l ∧
      (l ++ s.pages).Nodup := by
  have hrun : ((allocator 0x87ffe000).run
      ⟨(kinit 0x87ffe000 ⟨fun _ => 0, 0⟩).get ((page_allocator (by decide)).1 _), []⟩
      [.kalloc, .fill 0x87fff000, .store 0x87fff000 [7], .kfree 0x87fff000]).map (fun s => s.taken) =
      some [(0x87fff000, .kfree)] := by
    decide +kernel
  obtain ⟨s, hr, heq⟩ := TransitionSystem.exists_reachable_of_run hrun ⟨fun _ => 0, by simp, rfl⟩
  obtain ⟨l, hl, hnodup, -⟩ := (page_allocator (by decide)).2 s hr
  exact ⟨s, l, hr, heq, hl, hnodup⟩

end Xv6.Kalloc
