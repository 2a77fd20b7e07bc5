import Mathlib.Data.Finset.Card
import Xv6.ForStd.ByteMem

/-!
# User memory

`kernel/vm.c` is not part of the repository. `Vm` is what `kernel/exec.c` and `kernel/proc.c` use of it,
with what is assumed of each function: where the pages go that it takes from the free list of `kalloc`,
and which user pages are mapped afterwards. `procPagetable` and `procFreepagetable` are the functions of
`kernel/proc.c` on top of it.
-/

namespace Xv6

/-- `PGSIZE` of `kernel/riscv.h`. -/
def PGSIZE : Nat := 4096

/-- `PGROUNDUP`. -/
def PGROUNDUP (sz : Nat) : Nat := (sz + PGSIZE - 1) / PGSIZE * PGSIZE

/-- `kernel/memlayout.h`. -/
def TRAMPOLINE : Nat := 2 ^ 38 - PGSIZE

@[inherit_doc TRAMPOLINE] def TRAPFRAME : Nat := TRAMPOLINE - PGSIZE

/-- The number of pages between `KERNBASE` and `PHYSTOP`. -/
def NPAGES : Nat := 32768

/-- The functions of `kernel/vm.c`. The free list is an argument and a result. -/
structure Vm where
  /-- page tables with the memory that they map -/
  Table : Type
  /-- the address of the table -/
  root : Table → Nat
  /-- the pages of the table itself and of the user memory -/
  owned : Table → List Nat
  /-- the physical address of a user page, which `walkaddr` finds -/
  user : Table → Nat → Option Nat
  /-- the contents of the user memory -/
  mem : Table → ByteMem
  uvmcreate : List Nat → Option (Table × List Nat)
  /-- `mappages` of one page that belongs to the kernel -/
  mappages : Table → (va : Nat) → List Nat → Bool × Table × List Nat
  /-- `uvmunmap` of one page, without freeing it -/
  uvmunmap : Table → (va : Nat) → Table
  uvmalloc : Table → (oldsz newsz perm : Nat) → List Nat → Nat × Table × List Nat
  uvmclear : Table → (va : Nat) → Table
  uvmcopy : (old new : Table) → (sz : Nat) → List Nat → Bool × Table × List Nat
  uvmfree : Table → (sz : Nat) → List Nat → List Nat
  copyout : Table → (va : Nat) → List UInt8 → Option Table
  /-- a store into a page that `walkaddr` has found -/
  load : Table → (va : Nat) → List UInt8 → Table
  root_ne : ∀ t, root t ≠ 0
  user_le : ∀ t n, (∀ k < n, user t k ≠ none) → n ≤ (owned t).length
  create_pages : ∀ f t f', uvmcreate f = some (t, f') → (owned t ++ f').Perm f
  create_user : ∀ f t f', uvmcreate f = some (t, f') → ∀ n, user t n = none
  map_pages : ∀ t va f, (owned (mappages t va f).2.1 ++ (mappages t va f).2.2).Perm (owned t ++ f)
  map_user : ∀ t va f, user (mappages t va f).2.1 = user t
  unmap_pages : ∀ t va, owned (uvmunmap t va) = owned t
  unmap_user : ∀ t va, user (uvmunmap t va) = user t
  alloc_less : ∀ t oldsz newsz perm f, newsz < oldsz →
    uvmalloc t oldsz newsz perm f = (oldsz, t, f)
  alloc_pages : ∀ t oldsz newsz perm f,
    (owned (uvmalloc t oldsz newsz perm f).2.1 ++ (uvmalloc t oldsz newsz perm f).2.2).Perm
      (owned t ++ f)
  alloc_user : ∀ t oldsz newsz perm f, oldsz ≤ newsz →
    ((uvmalloc t oldsz newsz perm f).1 = newsz ∧
      ∀ n, (user (uvmalloc t oldsz newsz perm f).2.1 n ≠ none ↔
        user t n ≠ none ∨ PGROUNDUP oldsz ≤ n * PGSIZE ∧ n * PGSIZE < newsz)) ∨
    (uvmalloc t oldsz newsz perm f).1 = 0 ∧ user (uvmalloc t oldsz newsz perm f).2.1 = user t
  clear_pages : ∀ t va, owned (uvmclear t va) = owned t
  clear_user : ∀ t va n, user (uvmclear t va) n ≠ none → user t n ≠ none
  copy_pages : ∀ t t' sz f,
    (owned (uvmcopy t t' sz f).2.1 ++ (uvmcopy t t' sz f).2.2).Perm (owned t' ++ f)
  copy_user : ∀ t t' sz f, (uvmcopy t t' sz f).1 = false → user (uvmcopy t t' sz f).2.1 = user t'
  free_pages : ∀ t sz f, (∀ n, user t n ≠ none → n * PGSIZE < sz) →
    (uvmfree t sz f).Perm (owned t ++ f)
  copyout_pages : ∀ t va bs t', copyout t va bs = some t' → owned t' = owned t
  copyout_user : ∀ t va bs t', copyout t va bs = some t' → user t' = user t
  copyout_mem : ∀ t va bs t', copyout t va bs = some t' → mem t' = (mem t).write va bs
  load_pages : ∀ t va bs, owned (load t va bs) = owned t
  load_user : ∀ t va bs, user (load t va bs) = user t

namespace Vm

variable (vm : Vm)

/-- `proc_pagetable`, with the free list that it leaves. -/
def procPagetable (f : List Nat) : Option vm.Table × List Nat :=
  match vm.uvmcreate f with
  | none => (none, f)
  | some (t, f) =>
    let r := vm.mappages t TRAMPOLINE f
    if r.1 = false then (none, vm.uvmfree r.2.1 0 r.2.2)
    else
      let r' := vm.mappages r.2.1 TRAPFRAME r.2.2
      if r'.1 = false then (none, vm.uvmfree (vm.uvmunmap r'.2.1 TRAMPOLINE) 0 r'.2.2)
      else (some r'.2.1, r'.2.2)

/-- `proc_freepagetable`. -/
def procFreepagetable (t : vm.Table) (sz : Nat) (f : List Nat) : List Nat :=
  vm.uvmfree (vm.uvmunmap (vm.uvmunmap t TRAMPOLINE) TRAPFRAME) sz f

variable {vm}

/-- `proc_pagetable` returns an empty table, or gives everything back. -/
theorem procPagetable_spec (f : List Nat) :
    match vm.procPagetable f with
    | (none, f') => f'.Perm f
    | (some t, f') => (vm.owned t ++ f').Perm f ∧ ∀ n, vm.user t n = none := by
  rw [procPagetable]
  cases hcreate : vm.uvmcreate f with
  | none => exact .refl f
  | some r =>
    obtain ⟨t, f₁⟩ := r
    have hpages := vm.create_pages _ _ _ hcreate
    have huser := vm.create_user _ _ _ hcreate
    have hmap := vm.map_pages t TRAMPOLINE f₁
    have huser₁ := vm.map_user t TRAMPOLINE f₁
    -- a table without user pages is freed as a whole
    have hnone : ∀ n, vm.user (vm.mappages t TRAMPOLINE f₁).2.1 n ≠ none → n * PGSIZE < 0 := by
      intro n hn
      rw [huser₁] at hn
      exact absurd (huser n) hn
    dsimp only
    by_cases h₁ : (vm.mappages t TRAMPOLINE f₁).1 = false
    · rw [if_pos h₁]
      exact ((vm.free_pages _ 0 _ hnone).trans hmap).trans hpages
    rw [if_neg h₁]
    generalize vm.mappages t TRAMPOLINE f₁ = r at hmap huser₁ hnone
    have hmap' := vm.map_pages r.2.1 TRAPFRAME r.2.2
    have huser₂ := vm.map_user r.2.1 TRAPFRAME r.2.2
    by_cases h₂ : (vm.mappages r.2.1 TRAPFRAME r.2.2).1 = false
    · rw [if_pos h₂]
      have hfree := vm.free_pages (vm.uvmunmap (vm.mappages r.2.1 TRAPFRAME r.2.2).2.1 TRAMPOLINE) 0
        (vm.mappages r.2.1 TRAPFRAME r.2.2).2.2 (by rw [vm.unmap_user, huser₂]; exact hnone)
      rw [vm.unmap_pages] at hfree
      exact ((hfree.trans hmap').trans hmap).trans hpages
    · rw [if_neg h₂]
      refine ⟨(hmap'.trans hmap).trans hpages, fun n => ?_⟩
      rw [huser₂, huser₁]
      exact huser n

/-- `proc_freepagetable` gives back all pages of a table whose memory ends below `sz`. -/
theorem procFreepagetable_pages {t : vm.Table} {sz : Nat}
    (h : ∀ n, vm.user t n ≠ none → n * PGSIZE < sz) (f : List Nat) :
    (vm.procFreepagetable t sz f).Perm (vm.owned t ++ f) := by
  rw [procFreepagetable]
  refine (vm.free_pages _ sz f ?_).trans ?_
  · rw [vm.unmap_user, vm.unmap_user]
    exact h
  · rw [vm.unmap_pages, vm.unmap_pages]

end Vm

/-! ## A simple implementation -/

/-- A table that needs one page for itself, with the user pages by number. -/
structure Flat where
  root : Nat
  ne : root ≠ 0
  pages : List (Nat × Nat)
  mem : ByteMem

namespace Flat

def owned (t : Flat) : List Nat := t.root :: t.pages.map Prod.snd

/-- Map the user pages `ns`. -/
def grow : List Nat → Flat → List Nat → Option (Flat × List Nat)
  | [], t, f => some (t, f)
  | n :: ns, t, pa :: f => grow ns { t with pages := (n, pa) :: t.pages } f
  | _ :: _, _, [] => none

theorem grow_spec {ns : List Nat} {t t' : Flat} {f f' : List Nat} (h : grow ns t f = some (t', f')) :
    (t'.owned ++ f').Perm (t.owned ++ f) ∧
      ∀ n, t'.pages.lookup n ≠ none ↔ t.pages.lookup n ≠ none ∨ n ∈ ns := by
  induction ns generalizing t f with
  | nil =>
    obtain ⟨rfl, rfl⟩ := Prod.mk.inj (Option.some.inj h)
    exact ⟨.refl _, by simp⟩
  | cons n ns ih =>
    cases f with
    | nil => cases h
    | cons pa f =>
      obtain ⟨hperm, huser⟩ := ih h
      refine ⟨hperm.trans (List.Perm.cons _ ?_), fun m => ?_⟩
      · exact List.perm_middle.symm
      · rw [huser m, List.lookup_cons, List.mem_cons]
        by_cases hm : m = n
        · simp [hm]
        · simp [hm, beq_false_of_ne hm]

/-- The pages of `[PGROUNDUP(oldsz), newsz)`. -/
def range (oldsz newsz : Nat) : List Nat :=
  (List.range newsz).filter fun n => PGROUNDUP oldsz ≤ n * PGSIZE ∧ n * PGSIZE < newsz

theorem mem_range {oldsz newsz n : Nat} :
    n ∈ range oldsz newsz ↔ PGROUNDUP oldsz ≤ n * PGSIZE ∧ n * PGSIZE < newsz := by
  have hpos : 0 < PGSIZE := by decide
  have hle := Nat.le_mul_of_pos_right n hpos
  simp only [range, List.mem_filter, List.mem_range, decide_eq_true_eq]
  omega

theorem length_of_lookup {l : List (Nat × Nat)} {n : Nat} (h : ∀ k < n, l.lookup k ≠ none) :
    n ≤ l.length := by
  have hsub : Finset.range n ⊆ (l.map Prod.fst).toFinset := by
    intro k hk
    have hk' := h k (Finset.mem_range.mp hk)
    rw [List.mem_toFinset]
    by_contra hnot
    refine hk' (List.lookup_eq_none_iff.mpr fun x hx => ?_)
    simpa using fun heq : k = x.1 => hnot (heq ▸ List.mem_map_of_mem hx)
  have hcard := (Finset.card_le_card hsub).trans (List.toFinset_card_le _)
  simpa using hcard

def uvmcreate : List Nat → Option (Flat × List Nat)
  | [] => none
  | pa :: f => if h : pa ≠ 0 then some (⟨pa, h, [], fun _ => 0⟩, f) else none

theorem of_uvmcreate {f f' : List Nat} {t : Flat} (h : uvmcreate f = some (t, f')) :
    f = t.root :: f' ∧ t.pages = [] := by
  cases f with
  | nil => cases h
  | cons pa f =>
    simp only [uvmcreate] at h
    split at h
    · obtain ⟨rfl, rfl⟩ := Prod.mk.inj (Option.some.inj h)
      exact ⟨rfl, rfl⟩
    · cases h

def uvmalloc (t : Flat) (oldsz newsz : Nat) (f : List Nat) : Nat × Flat × List Nat :=
  if newsz < oldsz then (oldsz, t, f)
  else
    match grow (range oldsz newsz) t f with
    | some (t', f') => (newsz, t', f')
    | none => (0, t, f)

def uvmcopy (t : Flat) (sz : Nat) (f : List Nat) : Bool × Flat × List Nat :=
  match grow (range 0 sz) t f with
  | some (t', f') => (true, t', f')
  | none => (false, t, f)

end Flat

def flatVm : Vm where
  Table := Flat
  root := Flat.root
  owned := Flat.owned
  user t n := t.pages.lookup n
  mem := Flat.mem
  uvmcreate := Flat.uvmcreate
  mappages t _ f := (true, t, f)
  uvmunmap t _ := t
  uvmalloc t oldsz newsz _ f := t.uvmalloc oldsz newsz f
  uvmclear t _ := t
  uvmcopy _ t sz f := t.uvmcopy sz f
  uvmfree t _ f := t.owned ++ f
  copyout t va bs := some { t with mem := t.mem.write va bs }
  load t va bs := { t with mem := t.mem.write va bs }
  root_ne := Flat.ne
  user_le t n h := (Flat.length_of_lookup h).trans (by simp [Flat.owned])
  create_pages f t f' h := by
    obtain ⟨rfl, hpages⟩ := Flat.of_uvmcreate h
    rw [Flat.owned, hpages]
    exact .refl _
  create_user f t f' h n := by
    rw [(Flat.of_uvmcreate h).2]
    rfl
  map_pages _ _ _ := .refl _
  map_user _ _ _ := rfl
  unmap_pages _ _ := rfl
  unmap_user _ _ := rfl
  alloc_less t oldsz newsz _ f h := if_pos h
  alloc_pages t oldsz newsz _ f := by
    simp only [Flat.uvmalloc]
    split
    · exact .refl _
    · split
      · rename_i h
        exact (Flat.grow_spec h).1
      · exact .refl _
  alloc_user t oldsz newsz _ f h := by
    simp only [Flat.uvmalloc]
    rw [if_neg (by omega)]
    split
    · rename_i hgrow
      refine .inl ⟨rfl, fun n => ?_⟩
      rw [(Flat.grow_spec hgrow).2 n, Flat.mem_range]
    · exact .inr ⟨rfl, rfl⟩
  clear_pages _ _ := rfl
  clear_user _ _ _ h := h
  copy_pages _ t sz f := by
    simp only [Flat.uvmcopy]
    split
    · rename_i h
      exact (Flat.grow_spec h).1
    · exact .refl _
  copy_user _ t sz f h := by
    simp only [Flat.uvmcopy] at h ⊢
    split at h
    · cases h
    · rfl
  free_pages _ _ _ _ := .refl _
  copyout_pages t va bs t' h := by rw [← Option.some.inj h]; rfl
  copyout_user t va bs t' h := by rw [← Option.some.inj h]
  copyout_mem t va bs t' h := by rw [← Option.some.inj h]
  load_pages _ _ _ := rfl
  load_user _ _ _ := rfl

end Xv6
