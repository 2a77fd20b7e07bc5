import Mathlib.Data.List.TakeWhile
import Xv6.Spec.BlockOwnership
import Xv6.Spec.DirEntries

/-!
# Path names

The elements that `skipelem` takes off a path are its components, the runs of bytes other than `/`
(`elems_eq_components`). `namei` and `nameiparent` follow them from one directory to the next, as `walk`
does on disk, and leave nothing behind but the reference to the inode that they return. They do so
exactly if nothing on the way makes the kernel panic (`Clear`): a name may be looked up in an inode
that has been freed, as `..` of a directory whose parent has been removed; the inode table may be
full; and the walk may come back to a directory without links that it has freed itself.
-/

namespace Xv6.Fs

/-! ## Components -/

/-- The elements that repeated calls of `skipelem` return. -/
def elems (path : List UInt8) : List (List UInt8) :=
  match _h : skipelem path with
  | none => []
  | some (name, rest) => name :: elems rest
termination_by path.length
decreasing_by exact skipelem_length _h

/-- The maximal runs of bytes other than `/`, cut to `DIRSIZ` bytes. -/
def components (path : List UInt8) : List (List UInt8) :=
  ((path.splitOn slash).filter (· ≠ [])).map (List.take DIRSIZ)

variable {path : List UInt8}

theorem elems_of_none (h : skipelem path = none) : elems path = [] := by
  rw [elems]
  split
  · rfl
  · rename_i h'
    rw [h] at h'
    cases h'

theorem elems_of_some {path name rest : List UInt8} (h : skipelem path = some (name, rest)) :
    elems path = name :: elems rest := by
  rw [elems]
  split
  · rename_i h'
    rw [h] at h'
    cases h'
  · rename_i h'
    rw [h] at h'
    cases h'
    rfl

theorem components_slash (path : List UInt8) : components (slash :: path) = components path := by
  simp [components, List.splitOn, List.splitOnP_cons_eq_if_modifyHead]

theorem components_dropWhile (path : List UInt8) :
    components (path.dropWhile (· == slash)) = components path := by
  induction path with
  | nil => rfl
  | cons b bs ih =>
    by_cases hb : b = slash
    · rw [List.dropWhile_cons_of_pos (by simp [hb]), ih, hb, components_slash]
    · rw [List.dropWhile_cons_of_neg (by simp [hb])]

/-- A path that starts with a run of other bytes. -/
theorem components_run (h : path.takeWhile (· != slash) ≠ []) :
    components path =
      (path.takeWhile (· != slash)).take DIRSIZ :: components (path.dropWhile (· != slash)) := by
  have hrun : ∀ b ∈ path.takeWhile (· != slash), (b == slash) = false := fun b hb => by
    simpa using List.mem_takeWhile_imp hb
  have hsplit := List.takeWhile_append_dropWhile (p := (· != slash)) (l := path)
  cases hrest : path.dropWhile (· != slash) with
  | nil =>
    rw [hrest, List.append_nil] at hsplit
    rw [hsplit] at h hrun ⊢
    simp [components, List.splitOn, List.splitOnP_eq_singleton hrun, h]
  | cons b rest =>
    obtain rfl : b = slash := by
      have hhead := List.head_dropWhile_not (· != slash) (l := path) (by simp [hrest])
      simpa [hrest] using hhead
    rw [hrest] at hsplit
    have hfirst := List.splitOnP_append_cons_of_forall_mem hrun slash (by simp) rest
    rw [hsplit] at hfirst
    rw [components_slash, components, List.splitOn, hfirst]
    simp [components, List.splitOn, h]

theorem elems_eq_components (path : List UInt8) : elems path = components path := by
  induction hn : path.length using Nat.strong_induction_on generalizing path with
  | _ n ih =>
    cases hskip : skipelem path with
    | none =>
      rw [elems_of_none hskip, ← components_dropWhile]
      rw [skipelem] at hskip
      split at hskip
      · rename_i hnil
        rw [hnil]
        rfl
      · cases hskip
    | some e =>
      obtain ⟨name, rest⟩ := e
      have hlen := skipelem_length hskip
      rw [elems_of_some hskip, ih rest.length (hn ▸ hlen) rest rfl, ← components_dropWhile path]
      rw [skipelem] at hskip
      split at hskip
      · cases hskip
      · rename_i b bs hcons
        obtain ⟨rfl, rfl⟩ := Prod.mk.inj (Option.some.inj hskip)
        have hb : (b != slash) = true := by
          have hhead := List.head_dropWhile_not (· == slash) (l := path) (by simp [hcons])
          simpa [hcons] using hhead
        rw [hcons, components_dropWhile,
          components_run (show (b :: bs).takeWhile (· != slash) ≠ [] by simpa using hb)]

/-- `skipelem` leaves nothing if there are no more elements. -/
theorem rest_eq_nil_iff {path name rest : List UInt8} (h : skipelem path = some (name, rest)) :
    rest = [] ↔ elems rest = [] := by
  constructor
  · rintro rfl
    rw [elems_of_none rfl]
  · intro hnil
    rw [skipelem] at h
    split at h
    · cases h
    · obtain ⟨-, hrest⟩ := Prod.mk.inj (Option.some.inj h)
      by_contra hne
      -- what is left does not start with a slash
      obtain ⟨b, bs, rfl⟩ := List.exists_cons_of_ne_nil hne
      have hb : ¬ (b == slash) = true := by
        have hhead := List.head_dropWhile_not (· == slash) (l := _) (hrest ▸ hne)
        simpa [hrest] using hhead
      have hsame : (b :: bs).dropWhile (· == slash) = b :: bs := by
        rw [List.dropWhile_cons_of_neg (by exact hb)]
      cases hskip : skipelem (b :: bs) with
      | none =>
        rw [skipelem, hsame] at hskip
        cases hskip
      | some e =>
        rw [elems_of_some hskip] at hnil
        cases hnil

/-! ## The walk on disk -/

/-- The inode that a list of names leads to from inode `i`. -/
def walk (s : State) : Nat → List (List UInt8) → Option Nat
  | i, [] => some i
  | i, n :: ns => if (s.dinode i).type = .dir then (named s i n).bind fun j => walk s j ns else none

/-- The directory that all names but the last lead to, and the last name. -/
def walkParent (s : State) (i : Nat) (ns : List (List UInt8)) : Option (Nat × List UInt8) := do
  let n ← ns.getLast?
  let j ← walk s i ns.dropLast
  if (s.dinode j).type = .dir then some (j, n) else none

/-- Where a path starts. -/
def start (s : State) (cwd : InodePtr) (path : List UInt8) : Nat :=
  if path.head? = some slash then ROOTINO else (s.itable cwd).inum

variable {ns : List (List UInt8)}

theorem walkParent_cons (s : State) (i : Nat) (n : List UInt8) (h : ns ≠ []) : walkParent s i (n :: ns) =
      if (s.dinode i).type = .dir then (named s i n).bind fun j => walkParent s j ns else none := by
  obtain ⟨m, ms, rfl⟩ := List.exists_cons_of_ne_nil h
  simp only [walkParent, List.getLast?_cons_cons, List.dropLast_cons_cons, walk]
  split
  · cases named s i n with
    | none => simp
    | some j => rfl
  · simp

theorem walkParent_of_not_dir {s : State} {i : Nat} (h : (s.dinode i).type ≠ .dir)
    (ns : List (List UInt8)) : walkParent s i ns = none := by
  cases ns with
  | nil => rfl
  | cons n ns =>
    cases ns with
    | nil => simp [walkParent, walk, h]
    | cons m ms => rw [walkParent_cons _ _ _ (List.cons_ne_nil _ _), if_neg h]

/-! ## What may go wrong -/

/-- The inode table has an entry for inode `i` that is in use. -/
def Cached (s : State) (i : Nat) : Prop := ∃ ip, 0 < (s.itable ip).ref ∧ (s.itable ip).inum = i

instance (s : State) (i : Nat) : Decidable (Cached s i) := inferInstanceAs (Decidable (∃ _, _))

/-- The entries of the inode table that are not in use. -/
def freeSlots (s : State) : Finset InodePtr := Finset.univ.filter fun ip => (s.itable ip).ref = 0

theorem card_freeSlots_pos {s : State} :
    0 < (freeSlots s).card ↔ ∃ ip, (s.itable ip).ref = 0 := by
  simp [freeSlots, Finset.card_pos, Finset.Nonempty]

/-- A walk that is at inode `i` finds an entry of the inode table for inode `j`. -/
def Room (s : State) (i j : Nat) : Prop :=
  Cached s j ∨ j = i ∨ (if Cached s i then 0 else 1) < (freeSlots s).card

/-- The inodes that a walk has freed when it goes on from inode `i` to inode `j`. -/
def leave (s : State) (i j : Nat) (dead : Finset Nat) : Finset Nat :=
  if j ≠ i ∧ ¬ Cached s i ∧ (s.dinode i).nlink = 0 then insert i dead else dead

/-- Nothing makes the kernel panic on the way from inode `i` along a list of names, when the walk has
    freed the inodes in `dead` before. -/
def ClearFrom (parent : Bool) (s : State) : Finset Nat → Nat → List (List UInt8) → Prop
  | _, _, [] => True
  | dead, i, n :: ns =>
    i ∉ dead ∧ (s.dinode i).type ≠ .free ∧
      ((s.dinode i).type = .dir → ¬ (parent = true ∧ ns = []) →
        (named s i n).elim ((s.dinode i).size % direntSize = 0) fun j =>
          Room s i j ∧ ClearFrom parent s (leave s i j dead) j ns)

/-- Nothing makes the kernel panic on the way along a path. -/
def Clear (parent : Bool) (s : State) (cwd : InodePtr) (path : List UInt8) : Prop :=
  (path.head? = some slash → Cached s ROOTINO ∨ 0 < (freeSlots s).card) ∧
    ClearFrom parent s ∅ (start s cwd path) (components path)

/-! ## namex -/

/-- What a call that returns `r` leaves behind: a reference to `r`, and no lock. -/
structure Resolved (s : State) (r : Option InodePtr) (s' : State) : Prop where
  refs : ∀ ip, (s'.itable ip).ref = (s.itable ip).ref + if r = some ip then 1 else 0
  inums : ∀ ip, 0 < (s.itable ip).ref → (s'.itable ip).inum = (s.itable ip).inum
  unlocked : Quiet s'

variable {s₀ s s' : State} {L : Finset InodePtr} {held : Multiset InodePtr} {ip : InodePtr}
  {E : Stop → Prop} {dead : Finset Nat} {i j : Nat}

/-- The references when a walk starts in `s`. -/
def State.refs (s : State) (ip : InodePtr) : Nat := (s.itable ip).ref

/-- A walk that started in `s₀` is in `s`, with the references `held`. -/
structure Walking (s₀ : State) (dead : Finset Nat) (held : Multiset InodePtr) (L : Finset InodePtr)
    (s : State) : Prop where
  at_ : At s₀.refs held L s
  frees : Frees dead s₀ s

variable {held' : Multiset InodePtr} {L' : Finset InodePtr}

section

variable (h : Walking s₀ dead held L s)
include h

theorem Walking.next {F : Finset Nat} (hat : At s₀.refs held' L' s') (hf : Frees F s s') :
    Walking s₀ (dead ∪ F) held' L' s' :=
  ⟨hat, h.frees.trans hf fun _ hl => h.at_.ref_pos (.inl hl)⟩

theorem Walking.same (hat : At s₀.refs held' L' s') (hf : Frees ∅ s s') :
    Walking s₀ dead held' L' s' := by
  have hnext := h.next hat hf
  rwa [Finset.union_empty] at hnext

/-- The entry that a walk is at is one of the old ones if the inode had one. -/
theorem Walking.cached_iff (hip : ip ∈ held) :
    Cached s₀ (s.itable ip).inum ↔ 0 < s₀.refs ip := by
  constructor
  · rintro ⟨ip', hl, hinum⟩
    have heq : ip' = ip := h.at_.good.distinct ip' ip (h.at_.ref_pos (.inl hl))
      (h.at_.ref_pos (.inr hip)) ((h.frees.inums ip' hl).trans hinum)
    exact heq ▸ hl
  · intro hl
    exact ⟨ip, hl, (h.frees.inums ip hl).symm⟩

end

/-- `iget` finds an entry if and only if there is room. -/
theorem Walking.room_iff (h : Walking s₀ dead (ip ::ₘ 0) L s) :
    Room s₀ (s.itable ip).inum j ↔
      ¬ ∀ ip', 0 < (s.itable ip').ref ∧ (s.itable ip').inum ≠ j := by
  have hmem : ip ∈ ip ::ₘ (0 : Multiset InodePtr) := Multiset.mem_cons_self ..
  have href : ∀ ip', 0 < (s.itable ip').ref ↔ 0 < s₀.refs ip' ∨ ip' = ip := fun ip' => by
    rw [h.at_.refs, Multiset.count_cons, Multiset.count_zero]
    split
    · simp [*]
    · simp [*]
  have hcard : (if Cached s₀ (s.itable ip).inum then 0 else 1) < (freeSlots s₀).card ↔
      ∃ ip', ip' ≠ ip ∧ s₀.refs ip' = 0 := by
    have hfree : ip ∈ freeSlots s₀ ↔ ¬ Cached s₀ (s.itable ip).inum := by
      rw [h.cached_iff hmem]
      simp [freeSlots, State.refs]
    have herase : ((freeSlots s₀).erase ip).Nonempty ↔ ∃ ip', ip' ≠ ip ∧ s₀.refs ip' = 0 := by
      simp [Finset.Nonempty, freeSlots, State.refs]
    rw [← herase, ← Finset.card_pos, Finset.card_erase_eq_ite]
    simp only [hfree]
    by_cases hc : Cached s₀ (s.itable ip).inum
    · simp only [hc, if_true, not_true_eq_false, if_false]
    · simp only [hc, if_false, not_false_eq_true, if_true]
      omega
  rw [Room, hcard]
  constructor
  · rintro (⟨ip', hl, rfl⟩ | rfl | ⟨ip', hne, hzero⟩) hall
    · exact (hall ip').2 (h.frees.inums ip' hl)
    · exact (hall ip).2 rfl
    · have hl := ((href ip').mp (hall ip').1).resolve_right hne
      omega
  · intro hnot
    by_contra hc
    simp only [not_or] at hc
    refine hnot fun ip' => ?_
    have hl : 0 < s₀.refs ip' ∨ ip' = ip := by
      by_contra hn
      exact hc.2.2 ⟨ip', fun heq => hn (.inr heq), by omega⟩
    refine ⟨(href ip').mpr hl, fun heq => ?_⟩
    rcases hl with hl | rfl
    · exact hc.1 ⟨ip', hl, (h.frees.inums ip' hl).symm.trans heq⟩
    · exact hc.2.1 heq.symm

/-- The inodes that are freed when the walk goes on. -/
theorem Walking.leave_eq {next : InodePtr} (h : Walking s₀ dead (ip ::ₘ next ::ₘ 0) L s)
    (hip : ip ∈ L) (hi : (s.itable ip).inum ∉ dead) :
    dead ∪ (s.itable ip).freed = leave s₀ (s.itable ip).inum (s.itable next).inum dead := by
  have hmem : ip ∈ ip ::ₘ next ::ₘ (0 : Multiset InodePtr) := Multiset.mem_cons_self ..
  have hnext : next ∈ ip ::ₘ next ::ₘ (0 : Multiset InodePtr) := by simp
  have hslot : (s.itable next).inum = (s.itable ip).inum ↔ ip = next :=
    ⟨fun heq => h.at_.good.distinct ip next (h.at_.ref_pos (.inr hmem)) (h.at_.ref_pos (.inr hnext))
      heq.symm, fun heq => by rw [heq]⟩
  have hnlink : (s.itable ip).din.nlink = (s₀.dinode (s.itable ip).inum).nlink := by
    rw [h.at_.din_eq hip, h.frees.dinode _ hi]
  have href := h.at_.refs ip
  simp only [Multiset.count_cons, Multiset.count_zero, if_true] at href
  have hlast : (s.itable ip).ref = 1 ↔
      (s.itable next).inum ≠ (s.itable ip).inum ∧ ¬ Cached s₀ (s.itable ip).inum := by
    rw [h.cached_iff hmem, ne_eq, hslot, href]
    split
    · simp [*]
    · simp [*]
  simp only [Inode.freed, leave, hlast, h.at_.valid ip hip, hnlink, true_and, and_assoc]
  split
  · rw [Finset.union_comm, Finset.insert_eq]
  · rw [Finset.union_empty]

theorem Walking.resolved_some (h : Walking s₀ dead (ip ::ₘ 0) ∅ s) : Resolved s₀ (some ip) s := by
  refine ⟨fun ip' => ?_, h.frees.inums, h.at_.quiet⟩
  rw [h.at_.refs, Multiset.count_cons, Multiset.count_zero, Nat.zero_add]
  simp only [State.refs, Option.some.injEq, eq_comm]

theorem Walking.resolved_none (h : Walking s₀ dead 0 ∅ s) : Resolved s₀ none s :=
  ⟨fun ip' => by simp [h.at_.refs, State.refs], h.frees.inums, h.at_.quiet⟩

/-- `ilock` of the inode that the walk is at succeeds if and only if it is allocated. -/
theorem Walking.ilock_enters (h : Walking s₀ dead (ip ::ₘ 0) ∅ s)
    (hE : (s.itable ip).inum ∈ dead ∨ (s₀.dinode (s.itable ip).inum).type = .free → ∀ why, E why) :
    (ilock ip).Ends E
      (fun _ s' => Walking s₀ dead (ip ::ₘ 0) (insert ip ∅) s' ∧
        (s'.itable ip).inum = (s.itable ip).inum ∧ (s.itable ip).inum ∉ dead ∧
        (s'.itable ip).din = s₀.dinode (s.itable ip).inum ∧
        (s₀.dinode (s.itable ip).inum).type ≠ .free) s := by
  have hpos := h.at_.ref_pos (.inr (Multiset.mem_cons_self ip 0))
  have hlock : ip ∈ insert ip (∅ : Finset InodePtr) := Finset.mem_insert_self ip ∅
  refine (ilock_loads h.at_ hpos (Finset.notMem_empty _) fun hfree => hE ?_ _).mono
    fun _ s' ⟨hat, hf⟩ => ?_
  · by_cases hin : (s.itable ip).inum ∈ dead
    · exact .inl hin
    · exact .inr (by rw [← h.frees.dinode _ hin, hfree])
  · have hw := h.same hat hf
    have htype := hat.type_ne hlock
    have hdin := hat.din_eq hlock
    rw [hf.inums ip hpos] at hdin
    have hdead : (s.itable ip).inum ∉ dead := fun hin =>
      htype (by rw [hdin, hw.frees.free _ hin])
    rw [hw.frees.dinode _ hdead] at hdin
    exact ⟨hw, hf.inums ip hpos, hdead, hdin, hdin ▸ htype⟩

/-- The walk leaves the inode that it is at. -/
theorem Walking.put (h : Walking s₀ dead (ip ::ₘ held) (insert ip ∅) s) :
    (iunlockput ip).Ends E
      (fun _ s' => Walking s₀ (dead ∪ (s.itable ip).freed) held ∅ s' ∧
        Frees (s.itable ip).freed s s') s := by
  refine (iunlockput_frees h.at_ (Finset.mem_insert_self ip ∅)).mono fun _ s' ⟨hat, hf⟩ => ?_
  rw [Finset.erase_insert (Finset.notMem_empty _)] at hat
  exact ⟨h.next hat hf, hf⟩

/-- The result of `namex`, in the two modes. -/
def Reaches (parent : Bool) (s : State) (i : Nat) (ns : List (List UInt8))
    (r : Option (InodePtr × List UInt8)) (s' : State) : Prop :=
  match parent with
  | false => r.map (fun x => (s'.itable x.1).inum) = walk s i ns
  | true => r.map (fun x => ((s'.itable x.1).inum, x.2)) = walkParent s i ns

variable {n : List UInt8} {parent : Bool}

theorem reaches_of_not_dir (h : (s₀.dinode i).type ≠ .dir) : Reaches parent s₀ i (n :: ns) none s := by
  cases parent with
  | false => exact (if_neg h).symm
  | true => exact (walkParent_of_not_dir h _).symm

/-- A step of the walk, unless the last name is left. -/
theorem reaches_cons {r : Option (InodePtr × List UInt8)} (hdir : (s₀.dinode i).type = .dir)
    (hns : ¬ (parent = true ∧ ns = [])) :
    Reaches parent s₀ i (n :: ns) r s ↔
      match named s₀ i n with
      | none => r = none
      | some j => Reaches parent s₀ j ns r s := by
  cases parent with
  | false =>
    simp only [Reaches, walk, if_pos hdir]
    cases named s₀ i n with
    | none => simp
    | some j => rfl
  | true =>
    simp only [Reaches, walkParent_cons s₀ i n (fun h => hns ⟨rfl, h⟩), if_pos hdir]
    cases named s₀ i n with
    | none => simp
    | some j => rfl

theorem namexLoop_walks (parent : Bool) (name : List UInt8) {fuel : Nat}
    (h : Walking s₀ dead (ip ::ₘ 0) ∅ s) (hfuel : path.length < fuel)
    (hE : ¬ ClearFrom parent s₀ dead (s.itable ip).inum (elems path) → ∀ why, E why) :
    (namexLoop parent fuel ip path name).Ends E
      (fun r s' => ClearFrom parent s₀ dead (s.itable ip).inum (elems path) ∧
        Reaches parent s₀ (s.itable ip).inum (elems path) r s' ∧
        Resolved s₀ (r.map Prod.fst) s') s := by
  induction fuel generalizing ip s path name dead with
  | zero => exact absurd hfuel (Nat.not_lt_zero _)
  | succ fuel ih =>
    rw [namexLoop]
    cases hskip : skipelem path with
    | none =>
      rw [elems_of_none hskip]
      cases parent with
      | true =>
        simp only [if_true, Prog.ends_bind, Prog.ends_pure]
        refine (iput_frees h.at_ fun hin => absurd hin (Finset.notMem_empty _)).mono
          fun _ s₁ hs₁ => ⟨trivial, rfl, (h.next hs₁.1 hs₁.2).resolved_none⟩
      | false => exact Prog.ends_pure.mpr ⟨trivial, rfl, h.resolved_some⟩
    | some e =>
      obtain ⟨n, rest⟩ := e
      have hlen := skipelem_length hskip
      rw [elems_of_some hskip] at hE ⊢
      simp only [Prog.ends_bind]
      refine (h.ilock_enters fun hbad => hE fun hclear => ?_).mono ?_
      · exact hbad.elim hclear.1 hclear.2.1
      rintro _ s₁ ⟨hw, hsame, hdead, hdin, htype⟩
      have hlock : ip ∈ insert ip (∅ : Finset InodePtr) := Finset.mem_insert_self ip ∅
      rw [← hsame] at hE hdead hdin htype ⊢
      rw [inode, Prog.ends_gets, hdin]
      split
      · rename_i hnot
        rw [Prog.ends_bind]
        exact hw.put.mono fun _ _ hw₂ => Prog.ends_pure.mpr
          ⟨⟨hdead, htype, fun hd => absurd hd hnot⟩, reaches_of_not_dir hnot, hw₂.1.resolved_none⟩
      · rename_i hdir
        rw [not_not] at hdir
        split
        · rename_i hlast
          obtain ⟨rfl, hrest⟩ := hlast
          rw [rest_eq_nil_iff hskip] at hrest
          rw [Prog.ends_bind]
          refine (iunlock_releases hw.at_ hlock).mono ?_
          rintro _ s₂ ⟨hat₂, hs₂⟩
          rw [Finset.erase_insert (Finset.notMem_empty _)] at hat₂
          refine Prog.ends_pure.mpr ⟨⟨hdead, htype, fun _ hc => absurd ⟨rfl, hrest⟩ hc⟩, ?_, ?_⟩
          · rw [hrest, hs₂]
            simp [Reaches, walkParent, walk, hdir]
          · exact (hw.same hat₂ (hs₂ ▸ frees_setEntry fun _ => rfl)).resolved_some
        · rename_i hlast
          rw [rest_eq_nil_iff hskip] at hlast
          have hdinode := hw.frees.dinode _ hdead
          have hnamed : named s₁ (s₁.itable ip).inum n = named s₀ (s₁.itable ip).inum n :=
            named_congr hdinode hw.frees.data n
          have hclear : ClearFrom parent s₀ dead (s₁.itable ip).inum (n :: elems rest) ↔
              (named s₀ (s₁.itable ip).inum n).elim
                ((s₀.dinode (s₁.itable ip).inum).size % direntSize = 0) fun j =>
                  Room s₀ (s₁.itable ip).inum j ∧
                    ClearFrom parent s₀ (leave s₀ (s₁.itable ip).inum j dead) j (elems rest) :=
            ⟨fun hc => hc.2.2 hdir hlast, fun hc => ⟨hdead, htype, fun _ _ => hc⟩⟩
          rw [hclear] at hE ⊢
          rw [Prog.ends_bind]
          refine (dirlookup_finds hw.at_ hlock n (hdinode ▸ hdir) (fun hnone hodd => ?_)
            fun j hj hall => ?_).mono fun r s₂ hr => ?_
          · rw [hnamed] at hnone
            rw [hdinode] at hodd
            rw [hnone] at hE
            exact hE hodd _
          · rw [hnamed] at hj
            rw [hj] at hE
            exact hE (fun hc => (hw.room_iff.mp hc.1) hall) _
          · simp only [reaches_cons hdir hlast]
            cases r with
            | none =>
              obtain ⟨hs₂, hnone, heven⟩ := hr
              rw [hnamed] at hnone
              rw [hdinode] at heven
              rw [hs₂, hnone, Prog.ends_bind]
              exact hw.put.mono fun _ _ hw₃ => Prog.ends_pure.mpr ⟨heven, rfl, hw₃.1.resolved_none⟩
            | some r =>
              obtain ⟨next, off⟩ := r
              obtain ⟨hfound, hat₂, hf₂⟩ := hr
              rw [hnamed] at hfound
              have hinum := hf₂.inums ip (hw.at_.ref_pos (.inr (Multiset.mem_cons_self ip 0)))
              rw [Multiset.cons_swap] at hat₂
              have hw₂ := hw.same hat₂ hf₂
              rw [hfound] at hE ⊢
              rw [← hinum] at hE hdead ⊢
              have hroom : Room s₀ (s₂.itable ip).inum (s₂.itable next).inum := by
                rw [hinum]
                exact hw.room_iff.mpr fun hall => (hall next).2 (hf₂.inums next (hall next).1).symm
              rw [Prog.ends_bind]
              refine hw₂.put.mono ?_
              rintro _ s₃ ⟨hw₃, hf₃⟩
              rw [hw₂.leave_eq hlock hdead] at hw₃
              rw [← hf₃.inums next (hat₂.ref_pos (.inr (by simp)))] at hE hw₃ hroom ⊢
              refine (ih n hw₃ (by omega) fun hc => hE fun hc' => hc hc'.2).mono fun r s₄ hr => ?_
              exact ⟨⟨hroom, hr.1⟩, hr.2⟩

theorem namex_walks {cwd : InodePtr} (h : Good s) (hq : Quiet s) (hcwd : 0 < (s.itable cwd).ref)
    (path : List UInt8) (parent : Bool) :
    (namex cwd path parent).Ends (fun _ => ¬ Clear parent s cwd path)
      (fun r s' => Clear parent s cwd path ∧
        Reaches parent s (start s cwd path) (components path) r s' ∧
        Resolved s (r.map Prod.fst) s') s := by
  have hat : At s.refs 0 ∅ s := h.start hq fun _ => rfl
  have hw : Walking s ∅ 0 ∅ s := ⟨hat, rfl, fun _ _ => rfl,
    fun _ hi => absurd hi (Finset.notMem_empty _), fun _ _ => rfl⟩
  rw [namex]
  simp only [Clear, start, ← elems_eq_components]
  split
  · rename_i hroot
    rw [Prog.ends_bind]
    refine (iget_finds hat ROOTINO fun hall hc => ?_).mono ?_
    · rcases hc.1 hroot with ⟨ip, -, heq⟩ | hfree
      · exact (hall ip).2 heq
      · obtain ⟨ip, hzero⟩ := card_freeSlots_pos.mp hfree
        exact absurd (hall ip).1 (by omega)
    · rintro ip s₁ ⟨hat₁, hf₁, hinum⟩
      have hok : Cached s ROOTINO ∨ 0 < (freeSlots s).card := by
        by_cases hl : 0 < (s.itable ip).ref
        · exact .inl ⟨ip, hl, (hf₁.inums ip hl).symm.trans hinum⟩
        · exact .inr (card_freeSlots_pos.mpr ⟨ip, by omega⟩)
      have hloop := namexLoop_walks (E := fun _ =>
        ¬ ClearFrom parent s ∅ (s₁.itable ip).inum (elems path)) parent [] (hw.same hat₁ hf₁)
        (Nat.lt_succ_self path.length) fun hc _ => hc
      rw [hinum] at hloop
      simp only [hroot, hok, forall_const, true_and]
      exact hloop
  · rename_i hrel
    simp only [idup, setInode, Prog.ends_bind, Prog.ends_modify, Prog.ends_pure]
    have hw₁ : Walking s ∅ (cwd ::ₘ 0) ∅
        (s.setEntry cwd { s.itable cwd with ref := (s.itable cwd).ref + 1 }) :=
      hw.same (hat.addRef (h.setEntry_same hcwd rfl rfl rfl) rfl rfl fun _ => rfl)
        (frees_setEntry fun _ => rfl)
    have hloop := namexLoop_walks (E := fun _ => ¬ ClearFrom parent s ∅ ((s.setEntry cwd
      { s.itable cwd with ref := (s.itable cwd).ref + 1 }).itable cwd).inum (elems path)) parent [] hw₁
      (Nat.lt_succ_self path.length) fun hc _ => hc
    rw [State.setEntry_self] at hloop
    simp only [hrel, false_implies, true_and]
    exact hloop

/-- `skipelem` splits a path into its components. In a consistent state in which nothing is locked
    `namei` and `nameiparent` return what the walk along them finds on disk, with one more reference
    to it as the only change to the references, exactly if the way is clear. -/
theorem path_resolution_iff {cwd : InodePtr} (h : Good s) (hq : Quiet s)
    (hcwd : 0 < (s.itable cwd).ref) (path : List UInt8) :
    elems path = components path ∧
    ((∃ r s', (namei cwd path).exec s = .ok r s' ∧
        r.map (fun ip => (s'.itable ip).inum) = walk s (start s cwd path) (components path) ∧
        Resolved s r s') ↔ Clear false s cwd path) ∧
    ((∃ r s', (nameiparent cwd path).exec s = .ok r s' ∧
        r.map (fun x => ((s'.itable x.1).inum, x.2)) =
          walkParent s (start s cwd path) (components path) ∧
        Resolved s (r.map Prod.fst) s') ↔ Clear true s cwd path) := by
  refine ⟨elems_eq_components path, Prog.Ends.exists_ok_iff ?_,
    Prog.Ends.exists_ok_iff (namex_walks h hq hcwd path true)⟩
  rw [namei, Prog.ends_bind]
  refine (namex_walks h hq hcwd path false).mono fun r s' hr => ?_
  rw [Prog.ends_pure, Option.map_map]
  exact hr

/-- `..` of the root directory on the image of `mkfs`. -/
theorem path_resolution_iff_dotdot : ∃ r s', (namei ⟨0, by decide⟩ (slash :: dotdot)).exec mkfsImage =
    .ok r s' ∧ r.map (fun ip => (s'.itable ip).inum) = some ROOTINO := by
  have hok : SysOk mkfsBoot := sysOk_boot blocksOk_mkfsImage boot_mkfsBoot
  have hnamed : named mkfsImage ROOTINO dotdot = some ROOTINO := by decide +kernel
  have hclear : Clear false mkfsImage ⟨0, by decide⟩ (slash :: dotdot) := by
    refine ⟨fun _ => .inl ⟨⟨0, by decide⟩, by decide, rfl⟩, ?_⟩
    show ClearFrom false mkfsImage ∅ ROOTINO [dotdot]
    refine ⟨Finset.notMem_empty _, by decide, fun _ _ => ?_⟩
    rw [hnamed]
    exact ⟨.inr (.inl rfl), trivial⟩
  obtain ⟨r, s', hrun, hr, -⟩ := ((path_resolution_iff hok.fs.good hok.fs.quiet
    (show 0 < (mkfsImage.itable ⟨0, by decide⟩).ref by decide) (slash :: dotdot)).2.1).mpr hclear
  exact ⟨r, s', hrun, hr.trans (by decide +kernel)⟩

/-- A current directory whose parent has been removed. -/
def removedParent : List (Slot × Call) :=
  let a : Path := ⟨[47, 97], by simp, by decide⟩
  let b : Path := ⟨[47, 97, 47, 98], by simp, by decide⟩
  [(initproc, .mkdir (some a)), (initproc, .mkdir (some b)), (initproc, .chdir (some b)),
    (initproc, .unlink (some b)), (initproc, .unlink (some a))]

/-- `../x` in a removed directory: there is no such file, but the kernel panics because the inode of
    `..` has been freed. -/
theorem path_resolution_panics : ∃ (s : Sys) (cwd : InodePtr),
    (files BlocksOk).Reachable s ∧ Good s.fs ∧ Quiet s.fs ∧ 0 < (s.fs.itable cwd).ref ∧
    walk s.fs (start s.fs cwd (dotdot ++ [slash, 120])) (components (dotdot ++ [slash, 120])) = none ∧
    (namei cwd (dotdot ++ [slash, 120])).exec s.fs = .stop (.panic "ilock: no type") := by
  have hrun : ((files BlocksOk).run mkfsBoot removedParent).map (fun s =>
      (decide (0 < (s.fs.itable ⟨2, by decide⟩).ref),
        walk s.fs (start s.fs ⟨2, by decide⟩ (dotdot ++ [slash, 120]))
          (components (dotdot ++ [slash, 120])),
        ((namei ⟨2, by decide⟩ (dotdot ++ [slash, 120])).exec s.fs).why)) =
      some (true, none, some (.panic "ilock: no type")) := by decide +kernel
  obtain ⟨s, hreach, hfacts⟩ :=
    TransitionSystem.exists_reachable_of_run hrun ⟨blocksOk_mkfsImage, boot_mkfsBoot⟩
  simp only [Prod.mk.injEq, decide_eq_true_eq] at hfacts
  obtain ⟨href, hwalk, hstop⟩ := hfacts
  have hok := sysOk_reachable (fun _ hi => hi) hreach
  exact ⟨s, _, hreach, hok.fs.good, hok.fs.quiet, href, hwalk, Outcome.eq_stop_of_why hstop⟩

end Xv6.Fs
