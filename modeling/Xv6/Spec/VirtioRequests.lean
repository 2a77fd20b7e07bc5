import Mathlib.Algebra.BigOperators.Group.List.Basic
import Mathlib.Algebra.Group.Action.Defs
import Xv6.Kernel.VirtioDisk

/-!
# Disk requests are matched to completions

Every call of `virtio_disk_rw` between `alloc3_desc` and `free_chain` has a chain of three descriptors
of its own, so there are at most two of them, and neither of the rings can ever be full. A call that
has handed its chain to the device is in one of three places: its head is in the available ring, the
device works on it, or its head is in the used ring. The handler moves it from there to the calls
whose `b->disk` is 0.

* `Disk.alloc3Desc_spec`, `freeChain_formatted`: what the functions on descriptors do.
* `Chains`, `Place`, `Rings`: the invariant.
* `virtio_requests_matched`: what follows for the driver.
-/

namespace Xv6

open TransitionSystem

namespace Virtio

/-! ## Descriptors -/

namespace Disk

/-- The descriptors of `idx` are taken. -/
def taking (d : Disk) (idx : List Nat) : Disk :=
  { d with free := fun i => if i ∈ idx then false else d.free i }

@[simp] theorem taking_nil (d : Disk) : d.taking [] = d := by
  simp [taking]

theorem allocDesc_taking (d : Disk) (idx : List Nat) :
    (∃ i, i < NUM ∧ i ∉ idx ∧ d.free i = true ∧
      (d.taking idx).allocDesc = (some i, d.taking (idx ++ [i]))) ∨
    (d.taking idx).allocDesc = (none, d.taking idx) := by
  rw [allocDesc]
  split
  · rename_i i hi
    obtain ⟨hfree, hmem⟩ := And.intro (List.find?_some hi) (List.mem_of_find?_eq_some hi)
    have hnot : i ∉ idx ∧ d.free i = true := by simpa [taking] using hfree
    refine .inl ⟨i, List.mem_range.mp hmem, hnot.1, hnot.2, ?_⟩
    refine congrArg (Prod.mk (some i)) (congrArg (fun f => { d with free := f }) (funext fun j => ?_))
    by_cases hj : j = i
    · simp [hj]
    · simp [taking, hj]
  · exact .inr rfl

variable {d : Disk} {idx : List Nat}

theorem freeDesc_taking {i : Nat} (hi : i < NUM) (hfree : d.free i = true)
    (hzero : d.desc i = .zero) (hidx : i ∉ idx) :
    (d.taking (i :: idx)).freeDesc i = .ok (d.taking idx) := by
  have hdesc : upd d.desc i .zero = d.desc := upd_of_eq hzero
  rw [freeDesc, if_neg (by omega), if_neg (by simp [taking])]
  refine congrArg Except.ok ?_
  simp only [taking, hdesc, mk.injEq, true_and, and_true]
  funext j
  by_cases hj : j = i
  · simp [hj, hidx, hfree]
  · simp [hj]

/-- `alloc3_desc` gives back what it has taken. -/
theorem foldlM_freeDesc_taking (idx : List Nat) (hnodup : idx.Nodup)
    (hfree : ∀ i ∈ idx, i < NUM ∧ d.free i = true ∧ d.desc i = .zero) :
    idx.foldlM (fun d j => d.freeDesc j) (d.taking idx) = .ok d := by
  induction idx with
  | nil =>
    rw [taking_nil]
    rfl
  | cons i idx ih =>
    obtain ⟨hi, hf, hz⟩ := hfree i List.mem_cons_self
    rw [List.nodup_cons] at hnodup
    rw [List.foldlM_cons, freeDesc_taking hi hf hz hnodup.1]
    exact ih hnodup.2 fun j hj => hfree j (List.mem_cons_of_mem i hj)

theorem allocLoop_spec (hzero : ∀ i < NUM, d.free i = true → d.desc i = .zero) (k : Nat)
    (idx : List Nat) (hnodup : idx.Nodup) (hidx : ∀ i ∈ idx, i < NUM ∧ d.free i = true) :
    (∃ idx', allocLoop k idx (d.taking idx) = .ok (some idx', d.taking idx') ∧
      idx'.length = idx.length + k ∧ idx'.Nodup ∧ ∀ i ∈ idx', i < NUM ∧ d.free i = true) ∨
    allocLoop k idx (d.taking idx) = .ok (none, d) := by
  induction k generalizing idx with
  | zero => exact .inl ⟨idx, rfl, rfl, hnodup, hidx⟩
  | succ k ih =>
    obtain ⟨i, hi, hnot, hfree, halloc⟩ | halloc := allocDesc_taking d idx
    · rw [allocLoop, halloc]
      have hnew : (idx ++ [i]).Nodup := by
        rw [← List.concat_eq_append, List.nodup_concat]
        exact ⟨hnot, hnodup⟩
      have hmem : ∀ j ∈ idx ++ [i], j < NUM ∧ d.free j = true := by
        intro j hj
        obtain hj | hj := List.mem_append.mp hj
        · exact hidx j hj
        · rw [List.mem_singleton.mp hj]
          exact ⟨hi, hfree⟩
      obtain ⟨idx', heq, hlen, hrest⟩ | heq := ih (idx ++ [i]) hnew hmem
      · refine .inl ⟨idx', heq, ?_, hrest⟩
        rw [hlen, List.length_append, List.length_singleton]
        omega
      · exact .inr heq
    · rw [allocLoop, halloc]
      have hback := foldlM_freeDesc_taking (d := d) idx hnodup fun i hi =>
        ⟨(hidx i hi).1, (hidx i hi).2, hzero i (hidx i hi).1 (hidx i hi).2⟩
      refine .inr ?_
      dsimp only
      rw [hback]
      rfl

/-- `alloc3_desc` takes three free descriptors, or it leaves everything as it was. -/
theorem alloc3Desc_spec (hzero : ∀ i < NUM, d.free i = true → d.desc i = .zero) :
    (∃ idx, d.alloc3Desc = .ok (some idx, d.taking idx) ∧ idx.length = 3 ∧ idx.Nodup ∧
      ∀ i ∈ idx, i < NUM ∧ d.free i = true) ∨
    d.alloc3Desc = .ok (none, d) := by
  have hloop := allocLoop_spec hzero 3 [] List.nodup_nil (by simp)
  rw [taking_nil] at hloop
  exact hloop

/-- The descriptors of `idx` are given back. -/
def releasing (d : Disk) (idx : List Nat) : Disk :=
  { d with
    desc := fun i => if i ∈ idx then .zero else d.desc i
    free := fun i => if i ∈ idx then true else d.free i }

theorem freeDesc_releasing {i : Nat} (hi : i < NUM) (hfree : d.free i = false) (hidx : i ∉ idx) :
    (d.releasing idx).freeDesc i = .ok (d.releasing (idx ++ [i])) := by
  rw [freeDesc, if_neg (by omega), if_neg (by simp [releasing, hidx, hfree])]
  refine congrArg Except.ok ?_
  simp only [releasing, mk.injEq, true_and, and_true]
  refine ⟨funext fun j => ?_, funext fun j => ?_⟩
  all_goals
    by_cases hj : j = i
    · simp [hj]
    · simp [hj]

end Disk

/-- What `virtio_disk_rw` has stored for the device and for the handler. -/
structure Formatted (d : Disk) (c : Call) (i0 i1 i2 : Nat) : Prop where
  header : d.desc i0 = ⟨.op i0, 16, VRING_DESC_F_NEXT, i1⟩
  data : d.desc i1 =
    ⟨.data c.b, BSIZE, (if c.write then 0 else VRING_DESC_F_WRITE) ||| VRING_DESC_F_NEXT, i2⟩
  status : d.desc i2 = ⟨.status i0, 1, VRING_DESC_F_WRITE, 0⟩
  op : d.ops i0 = ⟨c.write, c.sector, c.call⟩
  info : d.infoB i0 = some c.b

/-- `free_chain` gives back the three descriptors of a request. -/
theorem freeChain_formatted {d d' : Disk} {c : Call} {i0 i1 i2 : Nat} (h : Formatted d' c i0 i1 i2)
    (hdesc : d.desc = d'.desc) (hnodup : [i0, i1, i2].Nodup)
    (hfree : ∀ i ∈ [i0, i1, i2], i < NUM ∧ d.free i = false) :
    Disk.freeChain (NUM + 1) i0 d = .ok (d.releasing [i0, i1, i2]) := by
  simp only [List.nodup_cons, List.mem_cons, List.not_mem_nil, or_false, not_or, not_false_eq_true,
    List.nodup_nil, and_true] at hnodup
  obtain ⟨⟨h01, h02⟩, h12⟩ := hnodup
  have hflags : ((if c.write then 0 else VRING_DESC_F_WRITE) ||| VRING_DESC_F_NEXT) &&&
      VRING_DESC_F_NEXT ≠ 0 := by
    cases c.write <;> decide
  have free {idx : List Nat} {i : Nat} (hi : i ∈ [i0, i1, i2]) (hidx : i ∉ idx) :
      (d.releasing idx).freeDesc i = .ok (d.releasing (idx ++ [i])) :=
    Disk.freeDesc_releasing (hfree i hi).1 (hfree i hi).2 hidx
  have h0 : d.freeDesc i0 = .ok (d.releasing [i0]) := by
    have hnil : (d.releasing []).freeDesc i0 = .ok (d.releasing [i0]) := free (by simp) (by simp)
    simpa [Disk.releasing] using hnil
  have h1 : (d.releasing [i0]).freeDesc i1 = .ok (d.releasing [i0, i1]) :=
    free (by simp) (by simp [Ne.symm h01])
  have h2 : (d.releasing [i0, i1]).freeDesc i2 = .ok (d.releasing [i0, i1, i2]) :=
    free (by simp) (by simp [Ne.symm h02, Ne.symm h12])
  -- the links are still there when `free_chain` comes to them
  have hd1 : (d.releasing [i0]).desc i1 = d'.desc i1 := by simp [Disk.releasing, Ne.symm h01, hdesc]
  have hd2 : (d.releasing [i0, i1]).desc i2 = d'.desc i2 := by
    simp [Disk.releasing, Ne.symm h02, Ne.symm h12, hdesc]
  simp only [Disk.freeChain, hdesc, h.header, h0, Except.bind, bind, hd1, h.data, h1, hd2, h.status, h2, hflags,
    NUM, ne_eq, not_false_eq_true, if_true]
  rfl

/-! ## Chains -/

def Pc.chain : Pc → List Nat
  | acquire | alloc => []
  | format idx | ring idx | bump idx | wait idx | asleep idx | finish idx => idx

/-- The descriptors of the call of process `p`. -/
def State.chain (s : State) (p : Slot) : List Nat := ((s.pc p).map fun c => c.pc.chain).getD []

/-- The head of the chain of process `p`. -/
def State.head (s : State) (p : Slot) : Nat := (s.chain p).getD 0 0

/-- The descriptors that are not free are those of the calls. -/
structure Chains (d : Disk) (chain : Slot → List Nat) : Prop where
  used : ∀ i < NUM, d.free i = false ↔ ∃ p, i ∈ chain p
  shape : ∀ p, chain p = [] ∨ (chain p).length = 3
  nodup : ∀ p, (chain p).Nodup
  bound : ∀ p, ∀ i ∈ chain p, i < NUM
  disjoint : ∀ p q, p ≠ q → ∀ i ∈ chain p, i ∉ chain q
  zero : ∀ i < NUM, d.free i = true → d.desc i = .zero

namespace Chains

variable {d : Disk} {chain : Slot → List Nat} {p : Slot} {idx : List Nat}

/-- Three descriptors each: there are not many of them. -/
theorem count (h : Chains d chain) {ps : List Slot} (hps : ps.Nodup) (hne : ∀ p ∈ ps, chain p ≠ []) :
    3 * ps.length ≤ NUM := by
  have hnodup : (ps.flatMap chain).Nodup := by
    rw [List.nodup_flatMap]
    refine ⟨fun p _ => h.nodup p, hps.imp fun {p q} hpq => ?_⟩
    exact fun i hi hi' => h.disjoint p q hpq i hi hi'
  have hsub : ps.flatMap chain ⊆ List.range NUM := by
    intro i hi
    obtain ⟨p, -, hp⟩ := List.mem_flatMap.mp hi
    exact List.mem_range.mpr (h.bound p i hp)
  have hlen : (ps.flatMap chain).length = 3 * ps.length := by
    have hthree : ∀ p ∈ ps, (chain p).length = 3 := fun p hp => (h.shape p).resolve_left (hne p hp)
    rw [List.length_flatMap, List.map_congr_left hthree, List.map_const', List.sum_replicate,
      smul_eq_mul, Nat.mul_comm]
  have hle := (hnodup.subperm hsub).length_le
  rwa [hlen, List.length_range] at hle

theorem take (h : Chains d chain) (hp : chain p = []) (hlen : idx.length = 3) (hnodup : idx.Nodup)
    (hidx : ∀ i ∈ idx, i < NUM ∧ d.free i = true) : Chains (d.taking idx) (upd chain p idx) := by
  -- a free descriptor is in no other chain
  have hnew : ∀ i ∈ idx, ∀ q, i ∉ chain q := by
    intro i hi q hq
    obtain ⟨hlt, hfree⟩ := hidx i hi
    have hused := (h.used i hlt).mpr ⟨q, hq⟩
    rw [hfree] at hused
    cases hused
  refine ⟨fun i hi => ?_, ?_, ?_, ?_, fun q r hqr i => ?_, fun i hi hfree => ?_⟩
  · by_cases hmem : i ∈ idx
    · simp only [Disk.taking, hmem, if_true, true_iff]
      exact ⟨p, by rwa [upd_self]⟩
    · simp only [Disk.taking, hmem, if_false, h.used i hi]
      refine exists_congr fun q => ?_
      by_cases hq : q = p
      · simp [hq, hp, hmem]
      · rw [upd_of_ne hq]
  · exact forall_upd (P := fun _ (l : List Nat) => l = [] ∨ l.length = 3) (.inr hlen) fun q _ => h.shape q
  · exact forall_upd (P := fun _ (l : List Nat) => l.Nodup) hnodup fun q _ => h.nodup q
  · exact forall_upd (P := fun _ (l : List Nat) => ∀ i ∈ l, i < NUM) (fun i hi => (hidx i hi).1)
      fun q _ => h.bound q
  · by_cases hq : q = p
    · rw [hq, upd_self, upd_of_ne (fun hr => hqr (hq.trans hr.symm))]
      exact fun hi => hnew i hi r
    · rw [upd_of_ne hq]
      by_cases hr : r = p
      · rw [hr, upd_self]
        exact fun hi hi' => hnew i hi' q hi
      · rw [upd_of_ne hr]
        exact h.disjoint q r hqr i
  · refine h.zero i hi ?_
    simp only [Disk.taking] at hfree
    split at hfree
    · cases hfree
    · exact hfree

theorem release (h : Chains d chain) : Chains (d.releasing (chain p)) (upd chain p []) := by
  refine ⟨fun i hi => ?_, ?_, ?_, ?_, fun q r hqr i => ?_, fun i hi hfree => ?_⟩
  · by_cases hmem : i ∈ chain p
    · simp only [Disk.releasing, hmem, if_true, Bool.true_eq_false, false_iff, not_exists]
      intro q
      by_cases hq : q = p
      · simp [hq]
      · rw [upd_of_ne hq]
        exact h.disjoint p q (Ne.symm hq) i hmem
    · simp only [Disk.releasing, hmem, if_false, h.used i hi]
      refine exists_congr fun q => ?_
      by_cases hq : q = p
      · simp [hq, hmem]
      · rw [upd_of_ne hq]
  · exact forall_upd (P := fun _ (l : List Nat) => l = [] ∨ l.length = 3) (.inl rfl) fun q _ => h.shape q
  · exact forall_upd (P := fun _ (l : List Nat) => l.Nodup) List.nodup_nil fun q _ => h.nodup q
  · exact forall_upd (P := fun _ (l : List Nat) => ∀ i ∈ l, i < NUM) (by simp) fun q _ => h.bound q
  · by_cases hq : q = p
    · rw [hq, upd_self]
      rintro ⟨⟩
    · rw [upd_of_ne hq]
      by_cases hr : r = p
      · rw [hr, upd_self]
        exact fun _ => List.not_mem_nil
      · rw [upd_of_ne hr]
        exact h.disjoint q r hqr i
  · simp only [Disk.releasing] at hfree ⊢
    split
    · rfl
    · rename_i hmem
      rw [if_neg hmem] at hfree
      exact h.zero i hi hfree

/-- Only descriptors of a chain are filled in. -/
theorem congr (h : Chains d chain) {d' : Disk} (hfree : d'.free = d.free)
    (hdesc : ∀ i < NUM, (∀ p, i ∉ chain p) → d'.desc i = d.desc i) : Chains d' chain := by
  refine ⟨by rw [hfree]; exact h.used, h.shape, h.nodup, h.bound, h.disjoint, fun i hi hf => ?_⟩
  rw [hfree] at hf
  have hnone : ∀ p, i ∉ chain p := by
    intro p hp
    rw [(h.used i hi).mpr ⟨p, hp⟩] at hf
    cases hf
  rw [hdesc i hi hnone]
  exact h.zero i hi hf

end Chains

/-! ## The rings -/

/-- The device has completed the request of this call. -/
def Done (s : State) (c : Call) : Prop := (⟨c.write, c.sector, c.call⟩, .data c.b) ∈ s.dev.done

/-- The request of the call is in memory. -/
def Ready (d : Disk) (c : Call) (idx : List Nat) : Prop :=
  ∃ i0 i1 i2, idx = [i0, i1, i2] ∧ Formatted d c i0 i1 i2

/-- Where the request of process `p` is: the processes in `Q` have their heads in the available ring,
    the device works for those in `W`, and those in `R` have their heads in the used ring. -/
def Place (s : State) (Q W R : List Slot) (p : Slot) (c : Call) : Prop :=
  match c.pc with
  | .acquire | .alloc => p ∉ Q ++ W ++ R
  | .format idx => p ∉ Q ++ W ++ R ∧ idx.length = 3
  | .ring idx => p ∉ Q ++ W ++ R ∧ Ready s.disk c idx ∧ s.bdisk c.b = true
  | .bump idx =>
    p ∉ Q ++ W ++ R ∧ Ready s.disk c idx ∧ s.bdisk c.b = true ∧
      s.disk.availRing (s.disk.availIdx.toNat % NUM) = idx.getD 0 0
  | .wait idx | .asleep idx =>
    Ready s.disk c idx ∧
      (p ∈ Q ++ W ∧ s.bdisk c.b = true ∨
        p ∈ R ∧ s.bdisk c.b = true ∧ s.disk.infoStatus (idx.getD 0 0) = 0 ∧ Done s c ∨
        p ∉ Q ++ W ++ R ∧ Done s c)
  | .finish idx => p ∉ Q ++ W ++ R ∧ Ready s.disk c idx ∧ Done s c

structure Rings (s : State) (Q W R : List Slot) : Prop where
  nodup : (Q ++ W ++ R).Nodup
  avail : WrapRing.between s.disk.availRing NUM s.dev.seen s.disk.availIdx = Q.map s.head
  work : s.dev.work = W.map s.head
  used : WrapRing.between s.disk.usedRing NUM s.disk.usedIdx s.disk.usedDevIdx = R.map s.head
  out : ∀ p, s.pc p = none → p ∉ Q ++ W ++ R
  place : ∀ p c, s.pc p = some c → Place s Q W R p c

/-- What a call looks at is the same in both states. -/
structure Agree (s s' : State) (c : Call) : Prop where
  mem : ∀ i ∈ c.pc.chain, s'.disk.desc i = s.disk.desc i ∧ s'.disk.ops i = s.disk.ops i ∧
    s'.disk.infoB i = s.disk.infoB i ∧ s'.disk.infoStatus i = s.disk.infoStatus i
  bdisk : s'.bdisk c.b = s.bdisk c.b
  done : ∀ x ∈ s.dev.done, x ∈ s'.dev.done
  bump : ∀ idx, c.pc = .bump idx →
    s'.disk.availRing (s'.disk.availIdx.toNat % NUM) = s.disk.availRing (s.disk.availIdx.toNat % NUM)

section Frame

variable {s s' : State} {Q W R Q' W' R' : List Slot} {p : Slot} {c : Call} {idx : List Nat}

theorem Ready.frame {d d' : Disk} (h : Ready d c idx)
    (hmem : ∀ i ∈ idx, d'.desc i = d.desc i ∧ d'.ops i = d.ops i ∧ d'.infoB i = d.infoB i ∧
      d'.infoStatus i = d.infoStatus i) : Ready d' c idx := by
  obtain ⟨i0, i1, i2, rfl, hf⟩ := h
  obtain ⟨hd0, hop, hinfo, -⟩ := hmem i0 (by simp)
  obtain ⟨hd1, -⟩ := hmem i1 (by simp)
  obtain ⟨hd2, -⟩ := hmem i2 (by simp)
  exact ⟨i0, i1, i2, rfl, hd0.trans hf.header, hd1.trans hf.data, hd2.trans hf.status, hop.trans hf.op,
    hinfo.trans hf.info⟩

theorem Ready.goto {d : Disk} (h : Ready d c idx) (pc : Pc) : Ready d { c with pc := pc } idx := by
  obtain ⟨i0, i1, i2, rfl, hf⟩ := h
  exact ⟨i0, i1, i2, rfl, hf.header, hf.data, hf.status, hf.op, hf.info⟩

theorem Ready.head_mem {d : Disk} (h : Ready d c idx) : idx.getD 0 0 ∈ idx := by
  obtain ⟨i0, i1, i2, rfl, -⟩ := h
  simp

theorem Place.frame (h : Place s Q W R p c) (ha : Agree s s' c) (hQW : p ∈ Q' ++ W' ↔ p ∈ Q ++ W)
    (hR : p ∈ R' ↔ p ∈ R) : Place s' Q' W' R' p c := by
  have hout : p ∉ Q ++ W ++ R → p ∉ Q' ++ W' ++ R' := by
    rw [List.mem_append (s := Q ++ W), List.mem_append (s := Q' ++ W'), hQW, hR]
    exact id
  obtain ⟨b, write, sector, call, pc⟩ := c
  cases pc with
  | acquire | alloc => exact hout h
  | format idx => exact ⟨hout h.1, h.2⟩
  | ring idx => exact ⟨hout h.1, h.2.1.frame ha.mem, ha.bdisk.trans h.2.2⟩
  | bump idx =>
    exact ⟨hout h.1, h.2.1.frame ha.mem, ha.bdisk.trans h.2.2.1, (ha.bump idx rfl).trans h.2.2.2⟩
  | wait idx | asleep idx =>
    obtain ⟨hready, hplace⟩ := h
    refine ⟨hready.frame ha.mem, ?_⟩
    obtain ⟨hmem, hb⟩ | ⟨hmem, hb, hst, hdone⟩ | ⟨hnot, hdone⟩ := hplace
    · exact .inl ⟨hQW.mpr hmem, ha.bdisk.trans hb⟩
    · refine .inr (.inl ⟨hR.mpr hmem, ha.bdisk.trans hb, ?_, ha.done _ hdone⟩)
      rw [(ha.mem _ hready.head_mem).2.2.2]
      exact hst
    · exact .inr (.inr ⟨hout hnot, ha.done _ hdone⟩)
  | finish idx => exact ⟨hout h.1, h.2.1.frame ha.mem, ha.done _ h.2.2⟩

theorem place_iff_of_waiting (hc : c.pc = .wait idx ∨ c.pc = .asleep idx) :
    Place s Q W R p c ↔ Ready s.disk c idx ∧
      (p ∈ Q ++ W ∧ s.bdisk c.b = true ∨
        p ∈ R ∧ s.bdisk c.b = true ∧ s.disk.infoStatus (idx.getD 0 0) = 0 ∧ Done s c ∨
        p ∉ Q ++ W ++ R ∧ Done s c) := by
  obtain hc | hc := hc <;> rw [Place, hc]

theorem chain_eq {o : Option Call} (hpc : s'.pc = upd s.pc p o) (q : Slot) :
    s'.chain q = upd s.chain p ((o.map fun c => c.pc.chain).getD []) q := by
  rw [State.chain, hpc]
  by_cases hq : q = p
  · rw [hq, upd_self, upd_self]
  · rw [upd_of_ne hq, upd_of_ne hq]
    rfl

/-- Process `p` goes on and the rings stay as they are. -/
theorem Rings.goto {o : Option Call} (h : Rings s Q W R) (hpc : s'.pc = upd s.pc p o)
    (havail : WrapRing.between s'.disk.availRing NUM s'.dev.seen s'.disk.availIdx =
      WrapRing.between s.disk.availRing NUM s.dev.seen s.disk.availIdx)
    (hwork : s'.dev.work = s.dev.work)
    (hused : WrapRing.between s'.disk.usedRing NUM s'.disk.usedIdx s'.disk.usedDevIdx =
      WrapRing.between s.disk.usedRing NUM s.disk.usedIdx s.disk.usedDevIdx)
    (hchain : p ∈ Q ++ W ++ R → s'.chain p = s.chain p)
    (hothers : ∀ q c, q ≠ p → s.pc q = some c → Agree s s' c)
    (hnone : o = none → p ∉ Q ++ W ++ R) (hp : ∀ c, o = some c → Place s' Q W R p c) :
    Rings s' Q W R := by
  have hhead : ∀ q ∈ Q ++ W ++ R, s'.head q = s.head q := by
    intro q hq
    by_cases hqp : q = p
    · subst hqp
      rw [State.head, hchain hq, State.head]
    · rw [State.head, chain_eq hpc, upd_of_ne hqp, State.head]
  refine ⟨h.nodup, ?_, ?_, ?_, ?_, ?_⟩
  · rw [havail, h.avail]
    exact (List.map_congr_left fun q hq => hhead q (by simp [hq])).symm
  · rw [hwork, h.work]
    exact (List.map_congr_left fun q hq => hhead q (by simp [hq])).symm
  · rw [hused, h.used]
    exact (List.map_congr_left fun q hq => hhead q (by simp [hq])).symm
  · rw [hpc]
    exact forall_upd (P := fun q (o : Option Call) => o = none → q ∉ Q ++ W ++ R) hnone fun q _ => h.out q
  · rw [hpc]
    refine forall_upd (P := fun q (o : Option Call) => ∀ c, o = some c → Place s' Q W R q c) hp
      fun q hq c hc => ?_
    exact (h.place q c hc).frame (hothers q c hq hc) Iff.rfl Iff.rfl

end Frame

/-! ## The invariant -/

def Pc.holds : Pc → Bool
  | alloc | format _ | ring _ | bump _ | wait _ | finish _ => true
  | acquire | asleep _ => false

/-- What the calls know without looking at the disk. -/
structure Calls (lk : Option Agent) (pc : Slot → Option Call) (n : Nat) : Prop where
  lock : ∀ p c, pc p = some c → c.pc.holds = true → lk = some (.proc p)
  bufs : ∀ p q c c', p ≠ q → pc p = some c → pc q = some c' → c.b ≠ c'.b
  bound : ∀ p c, pc p = some c → c.call < n
  numbers : ∀ p q c c', p ≠ q → pc p = some c → pc q = some c' → c.call ≠ c'.call

namespace Calls

variable {lk lk' : Option Agent} {pc : Slot → Option Call} {n : Nat} {p : Slot} {c : Call}

/-- A call that replaces the one of `p`, or the end of that one. -/
theorem update (h : Calls lk pc n) {n' : Nat} (hn : n ≤ n') {o : Option Call}
    (hlk : ∀ q, q ≠ p → lk = some (.proc q) → lk' = some (.proc q))
    (hp : ∀ c, o = some c → (c.pc.holds = true → lk' = some (.proc p)) ∧ c.call < n' ∧
      ∀ q c', q ≠ p → pc q = some c' → c.b ≠ c'.b ∧ c.call ≠ c'.call) :
    Calls lk' (upd pc p o) n' := by
  -- two different processes, of which one may be `p`
  have two {P : Call → Call → Prop} (hsymm : ∀ a b, P a b → P b a)
      (hold : ∀ q r a b, q ≠ r → pc q = some a → pc r = some b → P a b)
      (hnew : ∀ a q b, o = some a → q ≠ p → pc q = some b → P a b) :
      ∀ q r a b, q ≠ r → upd pc p o q = some a → upd pc p o r = some b → P a b := by
    intro q r a b hqr
    by_cases hq : q = p
    · have hr : r ≠ p := fun hr => hqr (hq.trans hr.symm)
      rw [hq, upd_self, upd_of_ne hr]
      exact fun ha hb => hnew a r b ha hr hb
    · rw [upd_of_ne hq]
      by_cases hr : r = p
      · rw [hr, upd_self]
        exact fun ha hb => hsymm _ _ (hnew b q a hb hq ha)
      · rw [upd_of_ne hr]
        exact hold q r a b hqr
  refine ⟨?_, ?_, ?_, ?_⟩
  · refine forall_upd
      (P := fun (q : Slot) (o : Option Call) => ∀ c, o = some c → c.pc.holds = true → lk' = some (.proc q))
      (fun c hc => (hp c hc).1) fun q hq c hc hh => hlk q hq (h.lock q c hc hh)
  · exact two (fun _ _ => Ne.symm) h.bufs fun a q b ha hq hb => ((hp a ha).2.2 q b hq hb).1
  · exact forall_upd (P := fun (_ : Slot) (o : Option Call) => ∀ c, o = some c → c.call < n')
      (fun c hc => (hp c hc).2.1) fun q _ c hc => Nat.lt_of_lt_of_le (h.bound q c hc) hn
  · exact two (fun _ _ => Ne.symm) h.numbers fun a q b ha hq hb => ((hp a ha).2.2 q b hq hb).2

/-- A call goes on. -/
theorem goto (h : Calls lk pc n) (hpc : pc p = some c) {pc' : Pc}
    (hlk : ∀ q, q ≠ p → lk = some (.proc q) → lk' = some (.proc q))
    (hp : pc'.holds = true → lk' = some (.proc p)) :
    Calls lk' (upd pc p (some { c with pc := pc' })) n := by
  refine h.update (Nat.le_refl n) hlk ?_
  rintro _ ⟨⟩
  exact ⟨hp, h.bound p c hpc, fun q c' hq hc' =>
    ⟨h.bufs p q c c' (Ne.symm hq) hpc hc', h.numbers p q c c' (Ne.symm hq) hpc hc'⟩⟩

/-- The holder of the lock is alone. -/
theorem alone (h : Calls lk pc n) (hpc : pc p = some c) (hh : c.pc.holds = true) {q : Slot} (hq : q ≠ p) :
    lk ≠ some (.proc q) := by
  rw [h.lock p c hpc hh]
  intro heq
  cases heq
  exact hq rfl

end Calls

/-- The invariant of the driver. -/
structure Inv (s : State) : Prop where
  chains : Chains s.disk s.chain
  calls : Calls s.lk s.pc s.calls
  done : ∀ x ∈ s.dev.done, x.1.call < s.calls
  rings : ∃ Q W R, Rings s Q W R
  fine : s.panicked = none

namespace Rings

variable {s : State} {Q W R : List Slot} {p : Slot}

/-- A request that the device or the rings have is one of a call that waits for it. -/
theorem waiting (h : Rings s Q W R) (hp : p ∈ Q ++ W ++ R) :
    ∃ c idx, s.pc p = some c ∧ (c.pc = .wait idx ∨ c.pc = .asleep idx) ∧ Ready s.disk c idx ∧
      s.bdisk c.b = true ∧ s.chain p = idx ∧
      (p ∈ R → s.disk.infoStatus (idx.getD 0 0) = 0 ∧ Done s c) := by
  cases hpc : s.pc p with
  | none => exact absurd hp (h.out p hpc)
  | some c =>
    have hplace := h.place p c hpc
    have hchain : s.chain p = c.pc.chain := by rw [State.chain, hpc]; rfl
    obtain ⟨b, write, sector, call, pc⟩ := c
    cases pc with
    | acquire | alloc => exact absurd hp hplace
    | format idx | ring idx | bump idx | finish idx => exact absurd hp hplace.1
    | wait idx | asleep idx =>
      obtain ⟨hready, hplace⟩ := hplace
      refine ⟨_, idx, rfl, by simp, hready, ?_⟩
      obtain ⟨hmem, hb⟩ | ⟨hmem, hb, hst, hdone⟩ | ⟨hnot, -⟩ := hplace
      · refine ⟨hb, hchain, fun hR => ?_⟩
        exact absurd hR (List.disjoint_of_nodup_append h.nodup hmem)
      · exact ⟨hb, hchain, fun _ => ⟨hst, hdone⟩⟩
      · exact absurd hp hnot

/-- At most two requests are under way. -/
theorem count (h : Rings s Q W R) (hc : Chains s.disk s.chain) :
    Q.length + W.length + R.length ≤ 2 := by
  have hcount := hc.count h.nodup fun p hp => ?_
  · have hNUM : NUM = 8 := rfl
    rw [List.length_append, List.length_append] at hcount
    omega
  · obtain ⟨c, idx, -, -, ⟨i0, i1, i2, rfl, -⟩, -, hchain, -⟩ := h.waiting hp
    simp [hchain]

/-- The requests are in other places. -/
theorem shift {s' : State} {Q' W' R' : List Slot} (h : Rings s Q W R) (hpc : s'.pc = s.pc)
    (hnodup : (Q' ++ W' ++ R').Nodup) (hsub : ∀ q ∈ Q' ++ W' ++ R', q ∈ Q ++ W ++ R)
    (havail : WrapRing.between s'.disk.availRing NUM s'.dev.seen s'.disk.availIdx = Q'.map s.head)
    (hwork : s'.dev.work = W'.map s.head)
    (hused : WrapRing.between s'.disk.usedRing NUM s'.disk.usedIdx s'.disk.usedDevIdx = R'.map s.head)
    (hplace : ∀ q c, s.pc q = some c → Place s' Q' W' R' q c) : Rings s' Q' W' R' := by
  have hhead : s'.head = s.head := by
    funext q
    rw [State.head, State.head, State.chain, State.chain, hpc]
  refine ⟨hnodup, ?_, ?_, ?_, fun q hq hmem => ?_, fun q c hc => ?_⟩
  · rw [hhead, havail]
  · rw [hhead, hwork]
  · rw [hhead, hused]
  · rw [hpc] at hq
    exact h.out q hq (hsub q hmem)
  · rw [hpc] at hc
    exact hplace q c hc

end Rings

/-! ## Steps of the driver -/

namespace Inv

variable {s s' : State} {p : Slot} {c : Call}

theorem chain_self (hpc : s.pc p = some c) : s.chain p = c.pc.chain := by
  rw [State.chain, hpc]
  rfl

/-- The call goes on with the same chain. -/
theorem chain_stay (hpc : s.pc p = some c) {pc : Pc} (hchain : pc.chain = c.pc.chain)
    (hs' : s'.pc = upd s.pc p (some { c with pc := pc })) : s'.chain = s.chain := by
  funext q
  rw [chain_eq hs']
  refine congrFun (upd_of_eq ?_) q
  rw [chain_self hpc, ← hchain]
  rfl

section

variable (hi : Inv s)
include hi

section

variable (hpc : s.pc p = some c)
include hpc

/-- A call for another buffer does not see what the holder of the lock stores into its own chain. -/
theorem agree (hh : c.pc.holds = true)
    (hmem : ∀ i, i ∉ s.chain p → s'.disk.desc i = s.disk.desc i ∧ s'.disk.ops i = s.disk.ops i ∧
      s'.disk.infoB i = s.disk.infoB i ∧ s'.disk.infoStatus i = s.disk.infoStatus i)
    (hb : ∀ b, b ≠ c.b → s'.bdisk b = s.bdisk b) (hdone : s'.dev = s.dev) (q : Slot) (c' : Call)
    (hq : q ≠ p) (hc' : s.pc q = some c') : Agree s s' c' := by
  refine ⟨fun i hmem' => hmem i ?_, hb _ (hi.calls.bufs q p c' c hq hc' hpc), ?_, fun idx heq => ?_⟩
  · rw [← chain_self hc'] at hmem'
    exact hi.chains.disjoint q p hq i hmem'
  · rw [hdone]
    exact fun _ => id
  · -- no other call is between its two stores
    refine absurd (hi.calls.lock q c' hc' ?_) (hi.calls.alone hpc hh hq)
    rw [heq]
    rfl

/-- The call goes on with the same chain, and the rings stay as they are. -/
theorem stay (pc : Pc) (hchain : pc.chain = c.pc.chain)
    (hs' : s'.pc = upd s.pc p (some { c with pc := pc })) (hchains : Chains s'.disk s.chain)
    (hlk : ∀ q, q ≠ p → s.lk = some (.proc q) → s'.lk = some (.proc q))
    (hlkp : pc.holds = true → s'.lk = some (.proc p))
    (hsame : s'.calls = s.calls ∧ s'.dev = s.dev ∧ s'.panicked = s.panicked)
    (havail : WrapRing.between s'.disk.availRing NUM s.dev.seen s'.disk.availIdx =
      WrapRing.between s.disk.availRing NUM s.dev.seen s.disk.availIdx)
    (hused : WrapRing.between s'.disk.usedRing NUM s'.disk.usedIdx s'.disk.usedDevIdx =
      WrapRing.between s.disk.usedRing NUM s.disk.usedIdx s.disk.usedDevIdx)
    (hothers : ∀ q c', q ≠ p → s.pc q = some c' → Agree s s' c')
    (hplace : ∀ Q W R, Place s Q W R p c → Place s' Q W R p { c with pc := pc }) : Inv s' := by
  obtain ⟨Q, W, R, hr⟩ := hi.rings
  obtain ⟨hcalls, hdev, hpan⟩ := hsame
  have hstay := chain_stay hpc hchain hs'
  refine ⟨?_, ?_, ?_, ⟨Q, W, R, ?_⟩, ?_⟩
  · rw [hstay]
    exact hchains
  · rw [hcalls, hs']
    exact hi.calls.goto hpc hlk hlkp
  · rw [hdev, hcalls]
    exact hi.done
  · refine hr.goto hs' ?_ (by rw [hdev]) hused (fun _ => by rw [hstay]) hothers nofun ?_
    · rw [hdev]
      exact havail
    · rintro _ ⟨⟩
      exact hplace Q W R (hr.place p c hpc)
  · rw [hpan]
    exact hi.fine

/-- `acquire(&disk.vdisk_lock)` at the beginning and in `sleep`. -/
theorem takeLock (hlk : s.lk = none) {pc : Pc}
    (hchain : pc.chain = c.pc.chain) (hplace : ∀ Q W R, Place s Q W R p c →
      Place { s.goto p c pc with lk := some (.proc p) } Q W R p { c with pc := pc }) :
    Inv { s.goto p c pc with lk := some (.proc p) } := by
  refine hi.stay hpc pc hchain rfl hi.chains ?_ (fun _ => rfl) ⟨rfl, rfl, rfl⟩ rfl rfl ?_ hplace
  · intro q _ h
    rw [hlk] at h
    cases h
  · exact fun q c' _ _ => ⟨fun _ _ => ⟨rfl, rfl, rfl, rfl⟩, rfl, fun _ => id, fun _ _ => rfl⟩

/-- The call gives up the lock. -/
theorem giveLock (hh : c.pc.holds = true) {pc : Pc}
    (hchain : pc.chain = c.pc.chain) (hpch : pc.holds = false) (hplace : ∀ Q W R, Place s Q W R p c →
      Place { s.goto p c pc with lk := none } Q W R p { c with pc := pc }) :
    Inv { s.goto p c pc with lk := none } := by
  refine hi.stay hpc pc hchain rfl hi.chains ?_ ?_ ⟨rfl, rfl, rfl⟩ rfl rfl ?_ hplace
  · exact fun q hq h => absurd h (hi.calls.alone hpc hh hq)
  · exact fun h => absurd h (by simp [hpch])
  · exact hi.agree hpc hh (fun _ _ => ⟨rfl, rfl, rfl, rfl⟩) (fun _ _ => rfl) rfl

/-- `alloc3_desc` has succeeded. -/
theorem alloc (hc : c.pc = .alloc) {idx : List Nat}
    (hlen : idx.length = 3) (hnodup : idx.Nodup) (hidx : ∀ i ∈ idx, i < NUM ∧ s.disk.free i = true) :
    Inv { s.goto p c (.format idx) with disk := s.disk.taking idx } := by
  obtain ⟨Q, W, R, hr⟩ := hi.rings
  have hh : c.pc.holds = true := by rw [hc]; rfl
  have hplace : p ∉ Q ++ W ++ R := by
    have := hr.place p c hpc
    rwa [Place, hc] at this
  refine ⟨?_, ?_, hi.done, ⟨Q, W, R, ?_⟩, hi.fine⟩
  · have hnew : (State.chain { s.goto p c (.format idx) with disk := s.disk.taking idx }) =
        upd s.chain p idx :=
      funext fun q => chain_eq (s := s) (o := some { c with pc := .format idx }) rfl q
    rw [hnew]
    refine hi.chains.take ?_ hlen hnodup hidx
    rw [chain_self hpc, hc]
    rfl
  · exact hi.calls.goto hpc (fun _ _ => id) fun _ => hi.calls.lock p c hpc hh
  · refine hr.goto rfl rfl rfl rfl (fun h => absurd h hplace) ?_ nofun ?_
    · exact hi.agree hpc hh (fun _ _ => ⟨rfl, rfl, rfl, rfl⟩) (fun _ _ => rfl) rfl
    · rintro _ ⟨⟩
      exact ⟨hplace, hlen⟩

/-- The request is written down. -/
theorem format {idx : List Nat} (hc : c.pc = .format idx) :
    Inv (s.format p c idx) := by
  have hh : c.pc.holds = true := by rw [hc]; rfl
  have hchain : s.chain p = idx := by rw [chain_self hpc, hc]; rfl
  have hlen : idx.length = 3 := by
    obtain ⟨Q, W, R, hr⟩ := hi.rings
    have := hr.place p c hpc
    rw [Place, hc] at this
    exact this.2
  obtain ⟨i0, i1, i2, rfl⟩ := List.length_eq_three.mp hlen
  have hnodup := hi.chains.nodup p
  rw [hchain] at hnodup
  simp only [List.nodup_cons, List.mem_cons, List.not_mem_nil, or_false, not_or, not_false_eq_true,
    List.nodup_nil, and_true] at hnodup
  obtain ⟨⟨h01, h02⟩, h12⟩ := hnodup
  have hframe : ∀ i, i ∉ s.chain p →
      (s.format p c [i0, i1, i2]).disk.desc i = s.disk.desc i ∧
      (s.format p c [i0, i1, i2]).disk.ops i = s.disk.ops i ∧
      (s.format p c [i0, i1, i2]).disk.infoB i = s.disk.infoB i ∧
      (s.format p c [i0, i1, i2]).disk.infoStatus i = s.disk.infoStatus i := by
    intro i hi
    rw [hchain] at hi
    simp only [List.mem_cons, List.not_mem_nil, or_false, not_or] at hi
    simp [State.format, hi.1, hi.2.1, hi.2.2]
  refine hi.stay hpc (.ring [i0, i1, i2]) (by rw [hc]; rfl) rfl ?_ (fun _ _ => id)
    (fun _ => hi.calls.lock p c hpc hh) ⟨rfl, rfl, rfl⟩ rfl rfl ?_ ?_
  · exact hi.chains.congr rfl fun i _ hnot => (hframe i (hnot p)).1
  · exact hi.agree hpc hh hframe (fun b hb => upd_of_ne hb _) rfl
  · intro Q W R hplace
    rw [Place, hc] at hplace
    refine ⟨hplace.1, ⟨i0, i1, i2, rfl, ?_⟩, upd_self _ _ _⟩
    constructor
    all_goals simp [State.format, h01, h02, h12]

end

end

theorem dvd_range : NUM ∣ 2 ^ 16 := by decide

section

variable (hi : Inv s)
include hi

/-- There is always room in the available ring. -/
theorem avail_lt : (s.disk.availIdx - s.dev.seen).toNat < NUM := by
  obtain ⟨Q, W, R, hr⟩ := hi.rings
  have hcount := hr.count hi.chains
  have hlen := congrArg List.length hr.avail
  rw [WrapRing.length_between, List.length_map] at hlen
  have hNUM : NUM = 8 := rfl
  omega

variable {idx : List Nat}

section

variable (hpc : s.pc p = some c)
include hpc

/-- The head goes into a place of the available ring that the device does not look at. -/
theorem ring (hc : c.pc = .ring idx) :
    Inv
      { s.goto p c (.bump idx) with
        disk :=
          { s.disk with
            availRing := upd s.disk.availRing (s.disk.availIdx.toNat % NUM) (idx.getD 0 0) } } := by
  have hh : c.pc.holds = true := by rw [hc]; rfl
  refine hi.stay hpc (.bump idx) (by rw [hc]; rfl) rfl ?_ (fun _ _ => id)
    (fun _ => hi.calls.lock p c hpc hh) ⟨rfl, rfl, rfl⟩ ?_ rfl ?_ ?_
  · exact hi.chains.congr rfl fun _ _ _ => rfl
  · exact WrapRing.between_upd dvd_range hi.avail_lt
  · exact hi.agree hpc hh (fun _ _ => ⟨rfl, rfl, rfl, rfl⟩) (fun _ _ => rfl) rfl
  · intro Q W R hplace
    rw [Place, hc] at hplace
    obtain ⟨hnot, hready, hb⟩ := hplace
    exact ⟨hnot, (hready.goto _).frame fun _ _ => ⟨rfl, rfl, rfl, rfl⟩, hb, upd_self _ _ _⟩

/-- The request is handed to the device. -/
theorem bump (hc : c.pc = .bump idx) :
    Inv { s.goto p c (.wait idx) with disk := { s.disk with availIdx := s.disk.availIdx + 1#16 } } := by
  obtain ⟨Q, W, R, hr⟩ := hi.rings
  have hh : c.pc.holds = true := by rw [hc]; rfl
  have hplace := hr.place p c hpc
  rw [Place, hc] at hplace
  obtain ⟨hnot, hready, hb, hring⟩ := hplace
  obtain ⟨s', hs'⟩ : ∃ s', s' = { s.goto p c (.wait idx) with
    disk := { s.disk with availIdx := s.disk.availIdx + 1#16 } } := ⟨_, rfl⟩
  rw [← hs']
  have hpc' : s'.pc = upd s.pc p (some { c with pc := .wait idx }) := by rw [hs']; rfl
  have hstay : s'.chain = s.chain := chain_stay hpc (by rw [hc]; rfl) hpc'
  have hhead : s'.head = s.head := by
    funext q
    rw [State.head, State.head, hstay]
  have hothers : ∀ q c', q ≠ p → s.pc q = some c' → Agree s s' c' :=
    hi.agree hpc hh (by rw [hs']; exact fun _ _ => ⟨rfl, rfl, rfl, rfl⟩) (by rw [hs']; exact fun _ _ => rfl)
      (by rw [hs']; rfl)
  refine ⟨?_, ?_, ?_, ⟨Q ++ [p], W, R, ?_⟩, ?_⟩
  · rw [hstay, hs']
    exact hi.chains.congr rfl fun _ _ _ => rfl
  · rw [hpc', hs']
    exact hi.calls.goto hpc (fun _ _ => id) fun _ => hi.calls.lock p c hpc hh
  · rw [hs']
    exact hi.done
  · have hperm : (Q ++ [p] ++ W ++ R).Perm (p :: (Q ++ W ++ R)) := by
      simp only [List.append_assoc, List.singleton_append]
      exact List.perm_middle
    have hmem : ∀ q, q ≠ p → (q ∈ Q ++ [p] ++ W ↔ q ∈ Q ++ W) := by
      intro q hq
      simp [hq]
    refine ⟨hperm.nodup_iff.mpr (List.nodup_cons.mpr ⟨hnot, hr.nodup⟩), ?_, ?_, ?_, ?_, ?_⟩
    · have hlt := hi.avail_lt
      have hNUM : NUM = 8 := rfl
      have hsucc : WrapRing.between s.disk.availRing NUM s.dev.seen (s.disk.availIdx + 1#16) = _ :=
        WrapRing.between_succ dvd_range (by omega)
      rw [hhead, List.map_append, ← hr.avail, hs']
      dsimp only [State.goto]
      rw [hsucc, hring, List.map_singleton, State.head, chain_self hpc, hc]
      rfl
    · rw [hhead, hs']
      exact hr.work
    · rw [hhead, hs']
      exact hr.used
    · rw [hpc']
      refine forall_upd (P := fun q (o : Option Call) => o = none → q ∉ Q ++ [p] ++ W ++ R) nofun
        fun q hq hnone hmem' => hr.out q hnone ?_
      obtain hmem' | hmem' := List.mem_append.mp hmem'
      · exact List.mem_append_left _ ((hmem q hq).mp hmem')
      · exact List.mem_append_right _ hmem'
    · rw [hpc']
      refine forall_upd (P := fun q (o : Option Call) => ∀ c, o = some c → Place s' (Q ++ [p]) W R q c) ?_
        fun q hq c' hc' => (hr.place q c' hc').frame (hothers q c' hq hc') (hmem q hq) Iff.rfl
      rintro _ ⟨⟩
      refine ⟨?_, .inl ⟨by simp, ?_⟩⟩
      · rw [hs']
        exact (hready.goto _).frame fun _ _ => ⟨rfl, rfl, rfl, rfl⟩
      · rw [hs']
        exact hb
  · rw [hs']
    exact hi.fine

/-- `b->disk` is 0: the device has completed the request. -/
theorem finishes (hc : c.pc = .wait idx) (hb : s.bdisk c.b ≠ true) : Inv (s.goto p c (.finish idx)) := by
  have hh : c.pc.holds = true := by rw [hc]; rfl
  refine hi.stay hpc (.finish idx) (by rw [hc]; rfl) rfl hi.chains (fun _ _ => id)
    (fun _ => hi.calls.lock p c hpc hh) ⟨rfl, rfl, rfl⟩ rfl rfl ?_ ?_
  · exact hi.agree hpc hh (fun _ _ => ⟨rfl, rfl, rfl, rfl⟩) (fun _ _ => rfl) rfl
  · intro Q W R hplace
    rw [Place, hc] at hplace
    obtain ⟨hready, ⟨-, htrue⟩ | ⟨-, htrue, -⟩ | ⟨hnot, hdone⟩⟩ := hplace
    · exact absurd htrue hb
    · exact absurd htrue hb
    · exact ⟨hnot, hready.goto _, hdone⟩

/-- The call gives back its descriptors and returns. -/
theorem finish (hc : c.pc = .finish idx) :
    ∃ d, Disk.freeChain (NUM + 1) (idx.getD 0 0)
        { s.disk with infoB := upd s.disk.infoB (idx.getD 0 0) none } = .ok d ∧
      Inv { s with disk := d, pc := upd s.pc p none, lk := none } := by
  obtain ⟨Q, W, R, hr⟩ := hi.rings
  have hh : c.pc.holds = true := by rw [hc]; rfl
  have hchain : s.chain p = idx := by rw [chain_self hpc, hc]; rfl
  have hplace := hr.place p c hpc
  rw [Place, hc] at hplace
  obtain ⟨hnot, ⟨i0, i1, i2, rfl, hf⟩, -⟩ := hplace
  obtain ⟨d, hd⟩ : ∃ d, d = { s.disk with infoB := upd s.disk.infoB i0 none } := ⟨_, rfl⟩
  have hnodup : [i0, i1, i2].Nodup := hchain ▸ hi.chains.nodup p
  have hfree : ∀ i ∈ [i0, i1, i2], i < NUM ∧ d.free i = false := by
    intro i hmem
    rw [← hchain] at hmem
    rw [hd]
    have hlt := hi.chains.bound p i hmem
    exact ⟨hlt, (hi.chains.used i hlt).mpr ⟨p, hmem⟩⟩
  have hchains : Chains d s.chain := by
    rw [hd]
    exact hi.chains.congr rfl fun _ _ _ => rfl
  refine ⟨d.releasing [i0, i1, i2], ?_, ?_⟩
  · show Disk.freeChain (NUM + 1) i0 { s.disk with infoB := upd s.disk.infoB i0 none } = _
    rw [← hd]
    exact freeChain_formatted hf (by rw [hd]) hnodup hfree
  · refine ⟨?_, ?_, hi.done, ⟨Q, W, R, ?_⟩, hi.fine⟩
    · have hnew : State.chain
          { s with disk := d.releasing [i0, i1, i2], pc := upd s.pc p none, lk := none } =
            upd s.chain p [] := funext fun q => chain_eq (s := s) (o := none) rfl q
      rw [hnew, ← hchain]
      exact hchains.release
    · refine hi.calls.update (Nat.le_refl _) (fun q hq h => ?_) nofun
      exact absurd h (hi.calls.alone hpc hh hq)
    · refine hr.goto (o := none) rfl ?_ rfl ?_ (fun h => absurd h hnot) ?_ (fun _ => hnot) nofun
      · rw [hd]
        rfl
      · rw [hd]
        rfl
      · refine hi.agree hpc hh (fun i hi => ?_) (fun _ _ => rfl) rfl
        rw [hchain] at hi
        simp only [List.mem_cons, List.not_mem_nil, or_false, not_or] at hi
        simp [Disk.releasing, hd, hi.1, hi.2.1, hi.2.2]

end

/-! ## Steps of the handler and of the device -/

/-- A state in which no call has moved. -/
theorem still (hpc : s'.pc = s.pc) (hchains : s'.disk.free = s.disk.free ∧
    s'.disk.desc = s.disk.desc) (hlk : ∀ q, s.lk = some (.proc q) → s'.lk = some (.proc q))
    (hcalls : s'.calls = s.calls) (hdone : ∀ x ∈ s'.dev.done, x.1.call < s.calls)
    (hfine : s'.panicked = s.panicked) (hrings : ∃ Q W R, Rings s' Q W R) : Inv s' := by
  have hchain : s'.chain = s.chain := by
    funext q
    rw [State.chain, State.chain, hpc]
  refine ⟨?_, ?_, ?_, hrings, hfine.trans hi.fine⟩
  · rw [hchain]
    exact hi.chains.congr hchains.1 fun i _ _ => by rw [hchains.2]
  · rw [hpc, hcalls]
    exact ⟨fun q c hc hh => hlk q (hi.calls.lock q c hc hh), hi.calls.bufs, hi.calls.bound,
      hi.calls.numbers⟩
  · rw [hcalls]
    exact hdone

theorem setLk {lk : Option Agent} (hlk : ∀ q, s.lk ≠ some (.proc q)) :
    Inv { s with lk := lk } := by
  obtain ⟨Q, W, R, hr⟩ := hi.rings
  refine hi.still rfl ⟨rfl, rfl⟩ (fun q h => absurd h (hlk q)) rfl hi.done rfl ⟨Q, W, R, ?_⟩
  refine hr.shift rfl hr.nodup (fun _ => id) hr.avail hr.work hr.used fun q c hc => ?_
  exact (hr.place q c hc).frame ⟨fun _ _ => ⟨rfl, rfl, rfl, rfl⟩, rfl, fun _ => id, fun _ _ => rfl⟩
    Iff.rfl Iff.rfl

/-- The handler finds the call whose head is in the used ring. -/
theorem handler (hlk : s.lk = some .intr) : Inv s.intrStep := by
  have hnot : ∀ q, s.lk ≠ some (.proc q) := by simp [hlk]
  simp only [State.intrStep]
  split
  swap
  · exact hi.setLk hnot
  rename_i hne
  obtain ⟨Q, W, R, hr⟩ := hi.rings
  -- the used ring is not empty
  cases R with
  | nil => exact absurd (WrapRing.between_eq_nil.mp hr.used).symm hne
  | cons p R =>
    have hpop : WrapRing.between s.disk.usedRing NUM s.disk.usedIdx s.disk.usedDevIdx = _ :=
      WrapRing.between_pop dvd_range (Ne.symm hne)
    rw [hr.used, List.map_cons, List.cons.injEq] at hpop
    obtain ⟨c, idx, hpc, hwait, hready, hb, hchain, hdone⟩ := hr.waiting (p := p) (by simp)
    obtain ⟨hst, hcompleted⟩ := hdone List.mem_cons_self
    have hhead : s.head p = idx.getD 0 0 := by rw [State.head, hchain]
    have hinfo : s.disk.infoB (s.head p) = some c.b := by
      obtain ⟨i0, i1, i2, rfl, hf⟩ := hready
      rw [hhead]
      exact hf.info
    rw [← hpop.1, if_neg (by rw [hhead, hst]; simp), hinfo]
    obtain ⟨hout, hnodup⟩ := List.nodup_cons.mp (List.perm_middle.nodup_iff.mp hr.nodup)
    refine hi.still rfl ⟨rfl, rfl⟩ (fun _ => id) rfl hi.done rfl ⟨Q, W, R, ?_⟩
    refine hr.shift rfl hnodup ?_ hr.avail hr.work hpop.2.symm fun q c' hc' => ?_
    · intro q hq
      exact List.perm_middle.mem_iff.mpr (List.mem_cons_of_mem p hq)
    · by_cases hqp : q = p
      · subst hqp
        rw [hpc] at hc'
        cases hc'
        exact (place_iff_of_waiting hwait).mpr
          ⟨hready.frame fun _ _ => ⟨rfl, rfl, rfl, rfl⟩, .inr (.inr ⟨hout, hcompleted⟩)⟩
      · refine (hr.place q c' hc').frame ⟨fun _ _ => ⟨rfl, rfl, rfl, rfl⟩, ?_, fun _ => id, fun _ _ => rfl⟩
          Iff.rfl ?_
        · exact upd_of_ne (hi.calls.bufs q p c' c hqp hc' hpc) _
        · rw [List.mem_cons, or_iff_right hqp]

/-- The device takes a head from the available ring. -/
theorem fetch (hne : s.dev.seen ≠ s.disk.availIdx) :
    Inv { s with
      dev :=
        { s.dev with
          seen := s.dev.seen + 1#16
          work := s.dev.work ++ [s.disk.availRing (s.dev.seen.toNat % NUM)] } } := by
  obtain ⟨Q, W, R, hr⟩ := hi.rings
  cases Q with
  | nil => exact absurd (WrapRing.between_eq_nil.mp hr.avail).symm hne
  | cons p Q =>
    have hpop : WrapRing.between s.disk.availRing NUM s.dev.seen s.disk.availIdx = _ :=
      WrapRing.between_pop dvd_range (Ne.symm hne)
    rw [hr.avail, List.map_cons, List.cons.injEq] at hpop
    have hperm : (Q ++ (W ++ [p])).Perm (p :: Q ++ W) := by
      rw [← List.append_assoc]
      exact List.perm_append_comm
    have hperm' : (Q ++ (W ++ [p]) ++ R).Perm (p :: Q ++ W ++ R) := hperm.append_right R
    refine hi.still rfl ⟨rfl, rfl⟩ (fun _ => id) rfl hi.done rfl ⟨Q, W ++ [p], R, ?_⟩
    refine hr.shift rfl (hperm'.nodup_iff.mpr hr.nodup) (fun q => hperm'.mem_iff.mp) hpop.2.symm ?_ hr.used
      fun q c hc => ?_
    · rw [List.map_append, ← hr.work, List.map_singleton, hpop.1]
    · exact (hr.place q c hc).frame ⟨fun _ _ => ⟨rfl, rfl, rfl, rfl⟩, rfl, fun _ => id, fun _ _ => rfl⟩
        hperm.mem_iff Iff.rfl

/-- The device completes a chain. -/
theorem complete {k head : Nat} (hk : s.dev.work[k]? = some head) (hs' : s.complete k head = some s') :
    Inv s' := by
  obtain ⟨Q, W, R, hr⟩ := hi.rings
  have hcount := hr.count hi.chains
  rw [hr.work, List.getElem?_map, Option.map_eq_some_iff] at hk
  obtain ⟨p, hk, rfl⟩ := hk
  obtain ⟨hlt, hget⟩ := List.getElem?_eq_some_iff.mp hk
  have hperm : W.Perm (p :: W.eraseIdx k) := by
    rw [← hget]
    exact (List.getElem_cons_eraseIdx_perm hlt).symm
  have hmem : p ∈ Q ++ W ++ R := by simp [hperm.mem_iff]
  obtain ⟨c, idx, hpc, hwait, hready, hb, hchain, -⟩ := hr.waiting hmem
  obtain ⟨i0, i1, i2, rfl, hf⟩ := id hready
  have hhead : s.head p = i0 := by rw [State.head, hchain]; rfl
  -- the device follows the chain of the call
  simp only [State.complete, hhead, hf.header, hf.data, hf.status, State.header, State.setStatus,
    Option.map_some, Option.some.injEq, hf.op] at hs'
  subst hs'
  have hpermAll : (Q ++ W.eraseIdx k ++ (R ++ [p])).Perm (Q ++ W ++ R) := by
    have hend : (W.eraseIdx k ++ (R ++ [p])).Perm (W ++ R) := by
      rw [← List.append_assoc]
      refine List.perm_append_comm.trans ?_
      exact (hperm.append_right R).symm
    simp only [List.append_assoc] at hend ⊢
    exact hend.append_left Q
  have hnodup := hpermAll.nodup_iff.mpr hr.nodup
  have hpush : WrapRing.between (upd s.disk.usedRing (s.disk.usedDevIdx.toNat % NUM) i0) NUM
      s.disk.usedIdx (s.disk.usedDevIdx + 1#16) = (R ++ [p]).map s.head := by
    have hlen := congrArg List.length hr.used
    rw [WrapRing.length_between, List.length_map] at hlen
    have hNUM : NUM = 8 := rfl
    rw [WrapRing.between_push dvd_range (by decide) (by omega), hr.used, List.map_append,
      List.map_singleton, hhead]
  have hwork : (W.map s.head).eraseIdx k = (W.eraseIdx k).map s.head := List.eraseIdx_map _ _ _
  refine hi.still rfl ⟨rfl, rfl⟩ (fun _ => id) rfl ?_ rfl ⟨Q, W.eraseIdx k, R ++ [p], ?_⟩
  · intro x hx
    obtain hx | hx := List.mem_append.mp hx
    · exact hi.done x hx
    · rw [List.mem_singleton.mp hx]
      exact hi.calls.bound p c hpc
  · refine hr.shift rfl hnodup (fun q => hpermAll.mem_iff.mp) hr.avail ?_ hpush fun q c' hc' => ?_
    · rw [← hwork, ← hr.work]
    · by_cases hqp : q = p
      · subst hqp
        rw [hpc] at hc'
        cases hc'
        refine (place_iff_of_waiting hwait).mpr ⟨?_, .inr (.inl ⟨by simp, hb, upd_self _ _ _, ?_⟩)⟩
        · exact ⟨i0, i1, i2, rfl, hf.header, hf.data, hf.status, hf.op, hf.info⟩
        · exact List.mem_append_right _ (List.mem_singleton.mpr rfl)
      · refine (hr.place q c' hc').frame ⟨fun i hmem' => ⟨rfl, rfl, rfl, ?_⟩, rfl, ?_, fun _ _ => rfl⟩ ?_ ?_
        · -- the status of another call
          rw [← chain_self hc'] at hmem'
          have hi0 : i ≠ i0 := by
            rintro rfl
            exact hi.chains.disjoint q p hqp i hmem' (by simp [hchain])
          exact upd_of_ne hi0 _
        · exact fun x hx => List.mem_append_left _ hx
        · rw [List.mem_append, List.mem_append, hperm.mem_iff (a := q), List.mem_cons, or_iff_right hqp]
        · simp [hqp]

/-- A new call. -/
theorem newCall (hpc : s.pc p = none) {b : Nat} (hb : s.unused b) (write : Bool) (sector : Nat) :
    Inv { s with
      pc := upd s.pc p (some ⟨b, write, sector, s.calls, .acquire⟩)
      calls := s.calls + 1 } := by
  obtain ⟨Q, W, R, hr⟩ := hi.rings
  have hchain : s.chain p = [] := by rw [State.chain, hpc]; rfl
  have hnew : State.chain { s with
      pc := upd s.pc p (some ⟨b, write, sector, s.calls, .acquire⟩)
      calls := s.calls + 1 } = s.chain := by
    funext q
    rw [chain_eq (s := s) (o := some ⟨b, write, sector, s.calls, .acquire⟩) rfl]
    exact congrFun (upd_of_eq hchain) q
  refine ⟨?_, ?_, fun x hx => Nat.lt_succ_of_lt (hi.done x hx), ⟨Q, W, R, ?_⟩, hi.fine⟩
  · rw [hnew]
    exact hi.chains
  · refine hi.calls.update (Nat.le_succ _) (fun _ _ => id) ?_
    rintro _ ⟨⟩
    refine ⟨nofun, Nat.lt_succ_self _, fun q c' _ hc' => ⟨?_, ?_⟩⟩
    · have hne := hb q
      rw [hc', Option.all_some, decide_eq_true_eq] at hne
      exact Ne.symm hne
    · exact Nat.ne_of_gt (hi.calls.bound q c' hc')
  · refine hr.goto rfl rfl rfl rfl (fun _ => by rw [hnew]) (fun q c' _ _ => ?_) nofun ?_
    · exact ⟨fun _ _ => ⟨rfl, rfl, rfl, rfl⟩, rfl, fun _ => id, fun _ _ => rfl⟩
    · rintro _ ⟨⟩
      exact hr.out p hpc

theorem exec (hpc : s.pc p = some c) (hs' : s.exec p c c.pc = some s') : Inv s' := by
  have hplace {Q W R : List Slot} {pc : Pc} (hc : c.pc = pc) (h : Place s Q W R p c) :
      Place s Q W R p { c with pc := pc } := by
    rw [← hc]
    exact h
  cases hc : c.pc with
  | acquire =>
    simp only [hc, State.exec, Option.ite_none_right_eq_some, Option.some.injEq] at hs'
    obtain ⟨hlk, rfl⟩ := hs'
    exact hi.takeLock hpc hlk (by rw [hc]; rfl) fun Q W R h => hplace hc h
  | alloc =>
    simp only [hc, State.exec] at hs'
    obtain ⟨idx, heq, hlen, hnodup, hidx⟩ | heq := Disk.alloc3Desc_spec hi.chains.zero
    · rw [heq] at hs'
      cases hs'
      exact hi.alloc hpc hc hlen hnodup hidx
    · rw [heq] at hs'
      cases hs'
      exact hi.giveLock hpc (by rw [hc]; rfl) (by rw [hc]; rfl) rfl fun Q W R h => hplace hc h
  | format idx =>
    simp only [hc, State.exec, Option.some.injEq] at hs'
    subst hs'
    exact hi.format hpc hc
  | ring idx =>
    simp only [hc, State.exec, Option.some.injEq] at hs'
    subst hs'
    exact hi.ring hpc hc
  | bump idx =>
    simp only [hc, State.exec, Option.some.injEq] at hs'
    subst hs'
    exact hi.bump hpc hc
  | wait idx =>
    simp only [hc, State.exec] at hs'
    split at hs'
    · cases hs'
      refine hi.giveLock hpc (by rw [hc]; rfl) (by rw [hc]; rfl) rfl fun Q W R h => ?_
      obtain ⟨hready, hrest⟩ := (place_iff_of_waiting (.inl hc)).mp h
      exact (place_iff_of_waiting (.inr rfl)).mpr ⟨hready.goto _, hrest⟩
    · rename_i hb
      cases hs'
      exact hi.finishes hpc hc hb
  | asleep idx =>
    simp only [hc, State.exec, Option.ite_none_right_eq_some, Option.some.injEq] at hs'
    obtain ⟨hlk, rfl⟩ := hs'
    refine hi.takeLock hpc hlk (by rw [hc]; rfl) fun Q W R h => ?_
    obtain ⟨hready, hrest⟩ := (place_iff_of_waiting (.inr hc)).mp h
    exact (place_iff_of_waiting (.inl rfl)).mpr ⟨hready.goto _, hrest⟩
  | finish idx =>
    simp only [hc, State.exec] at hs'
    obtain ⟨d, heq, hinv⟩ := hi.finish hpc hc
    rw [heq] at hs'
    cases hs'
    exact hinv

theorem step {x : Input} (hs' : s.step x = some s') : Inv s' := by
  simp only [State.step] at hs'
  split at hs'
  · cases hs'
  cases x with
  | rw p b blockno write =>
    simp only [Option.ite_none_right_eq_some, Option.some.injEq] at hs'
    obtain ⟨⟨hpc, hb⟩, rfl⟩ := hs'
    exact hi.newCall hpc hb write _
  | step p =>
    obtain ⟨c, hpc, hs'⟩ := Option.bind_eq_some_iff.mp hs'
    exact hi.exec hpc hs'
  | intr =>
    simp only [Option.ite_none_right_eq_some, Option.some.injEq] at hs'
    obtain ⟨hlk, rfl⟩ := hs'
    exact hi.setLk (by simp [hlk])
  | intrStep =>
    simp only [Option.ite_none_right_eq_some, Option.some.injEq] at hs'
    obtain ⟨hlk, rfl⟩ := hs'
    exact hi.handler hlk
  | fetch =>
    simp only [Option.ite_none_right_eq_some, Option.some.injEq] at hs'
    obtain ⟨hne, rfl⟩ := hs'
    exact hi.fetch hne
  | complete k =>
    obtain ⟨head, hk, hs'⟩ := Option.bind_eq_some_iff.mp hs'
    exact hi.complete hk hs'

end

theorem init (h : virtioDisk.init s) : Inv s := by
  obtain ⟨hdisk, hlk, hpc, hdev, hcalls, hfine⟩ := h
  have hchain : ∀ p, s.chain p = [] := fun p => by rw [State.chain, hpc p]; rfl
  have hnone {P : Prop} {q : Slot} {c : Call} (h : s.pc q = some c) : P := by
    rw [hpc q] at h
    cases h
  refine ⟨⟨?_, fun p => .inl (hchain p), ?_, ?_, ?_, ?_⟩, ?_, ?_, ⟨[], [], [], ?_⟩, hfine⟩
  · intro i _
    simp [hdisk, initial, hchain]
  · simp [hchain]
  · simp [hchain]
  · simp [hchain]
  · intro i _ _
    rw [hdisk]
    rfl
  · exact ⟨fun _ _ h => hnone h, fun _ _ _ _ _ h => hnone h, fun _ _ h => hnone h,
      fun _ _ _ _ _ h => hnone h⟩
  · rw [hdev]
    exact nofun
  · refine ⟨List.nodup_nil, ?_, ?_, ?_, fun _ _ => List.not_mem_nil, fun _ _ h => hnone h⟩
    · rw [hdisk, hdev]
      rfl
    · rw [hdev]
      rfl
    · rw [hdisk]
      rfl

theorem of_reachable (h : virtioDisk.Reachable s) : Inv s :=
  h.induct (fun _ => init) fun _ _ _ _ hi _ hs => hi.step hs

end Inv

/-- In every state: the descriptors that are not free are those of the calls between `alloc3_desc` and
    `free_chain`, three for each and no two of them the same; a call leaves its loop only after the
    device has completed the request with the number of this call, a number that no earlier request
    has; the entry of the available ring that is stored next is none that the device still has to
    take; nothing has panicked; and an `alloc3_desc` that fails changes nothing. -/
theorem virtio_requests_matched (s : State) (h : virtioDisk.Reachable s) :
    ((∀ i < NUM, s.disk.free i = false ↔ ∃ p, i ∈ s.chain p) ∧
      (∀ p c, s.pc p = some c → c.pc ≠ .acquire → c.pc ≠ .alloc →
        (s.chain p).length = 3 ∧ (s.chain p).Nodup ∧ ∀ i ∈ s.chain p, i < NUM) ∧
      ∀ p q, p ≠ q → ∀ i ∈ s.chain p, i ∉ s.chain q) ∧
    ((∀ p c idx, s.pc p = some c → c.pc = .finish idx →
        (⟨c.write, c.sector, c.call⟩, .data c.b) ∈ s.dev.done) ∧
      (∀ p q c c', p ≠ q → s.pc p = some c → s.pc q = some c' → c.call ≠ c'.call) ∧
      ∀ x ∈ s.dev.done, x.1.call < s.calls) ∧
    (∀ j < (s.disk.availIdx - s.dev.seen).toNat,
      (s.dev.seen.toNat + j) % NUM ≠ s.disk.availIdx.toNat % NUM) ∧
    s.panicked = none ∧
    ∀ d, s.disk.alloc3Desc = .ok (none, d) → d.free = s.disk.free ∧ d.desc = s.disk.desc := by
  have hi := Inv.of_reachable h
  obtain ⟨Q, W, R, hr⟩ := hi.rings
  refine ⟨⟨hi.chains.used, fun p c hpc hacq halloc => ?_, hi.chains.disjoint⟩,
    ⟨fun p c idx hpc hc => ?_, hi.calls.numbers, hi.done⟩, fun j hj => ?_, hi.fine, fun d hd => ?_⟩
  · refine ⟨?_, hi.chains.nodup p, hi.chains.bound p⟩
    have hplace := hr.place p c hpc
    rw [Inv.chain_self hpc]
    obtain ⟨b, write, sector, call, pc⟩ := c
    cases pc with
    | acquire => exact absurd rfl hacq
    | alloc => exact absurd rfl halloc
    | format idx => exact hplace.2
    | ring idx | bump idx | finish idx =>
      obtain ⟨i0, i1, i2, rfl, -⟩ := hplace.2.1
      rfl
    | wait idx | asleep idx =>
      obtain ⟨i0, i1, i2, rfl, -⟩ := hplace.1
      rfl
  · have hplace := hr.place p c hpc
    rw [Place, hc] at hplace
    exact hplace.2.2
  · exact WrapRing.place_ne Inv.dvd_range hi.avail_lt hj
  · obtain ⟨idx, heq, -⟩ | heq := Disk.alloc3Desc_spec hi.chains.zero
    · rw [heq] at hd
      cases hd
    · rw [heq] at hd
      cases hd
      exact ⟨rfl, rfl⟩

/-- The driver after `virtio_disk_init`. -/
def booted : State := ⟨initial, fun _ => false, none, fun _ => none, ⟨0, [], []⟩, 0, none⟩

/-- Process 0 writes buffer 3, and the device completes the request. -/
def oneRequest : List Input :=
  .rw 0 3 7 true :: List.replicate 5 (.step 0) ++ [.fetch, .step 0, .complete 0, .intr, .intrStep, .intrStep] ++
    List.replicate 2 (.step 0)

theorem virtio_requests_matched_oneRequest :
    ∃ s, virtioDisk.Reachable s ∧ s.chain 0 = [0, 1, 2] ∧ s.disk.free 2 = false ∧
      s.dev.done = [(⟨true, 14, 0⟩, .data 3)] ∧ s.panicked = none := by
  have hrun : (virtioDisk.run booted oneRequest).map (fun s => (s.chain 0, s.disk.free 2, s.dev.done)) =
      some ([0, 1, 2], false, [(⟨true, 14, 0⟩, .data 3)]) := by
    decide +kernel
  obtain ⟨s, hreach, heq⟩ :=
    exists_reachable_of_run hrun ⟨rfl, rfl, fun _ => rfl, rfl, rfl, rfl⟩
  simp only [Prod.mk.injEq] at heq
  exact ⟨s, hreach, heq.1, heq.2.1, heq.2.2, (virtio_requests_matched s hreach).2.2.2.1⟩

end Virtio

end Xv6
