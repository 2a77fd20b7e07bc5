import Mathlib.Algebra.Order.BigOperators.Group.Finset
import Xv6.ForStd.FinSum
import Xv6.Kernel.InodeOps

/-!
# The inode table is coherent

`iput` gives up `itable.lock` while it frees an inode, with the reference still counted. So `iget` may find
the entry and `ialloc` may take the inode again before `iput` is done. This module shows that the entries
stay coherent with the inodes in the buffer cache all the same: an entry is unlocked only when it is
invalid or has what is on disk, and an inode is free on disk only while its entry is invalid, or locked
by the process that frees it.

## Key results

- `inv_reachable`: the invariant of the table
- `inode_coherence`: entries are unique and coherent, and `iput` does not sleep under `itable.lock`
-/

namespace Xv6.Itable

open Fs (InodePtr Dinode InodeType)
open TransitionSystem

variable {N : Nat}

/-! ## Discipline -/

/-- The entry whose reference the process is dropping in `iput`. -/
def Pc.puts : Pc → Option InodePtr
  | put ip | trunc ip | truncUpdate ip | free ip | freeUpdate ip | invalidate ip | putUnlock ip
  | drop ip => some ip
  | _ => none

/-- The entry that the process has locked in `iput`. -/
def Pc.frees : Pc → Option InodePtr
  | trunc ip | truncUpdate ip | free ip | freeUpdate ip | invalidate ip | putUnlock ip => some ip
  | _ => none

/-- The entry that the process is about to lock in `ilock`, or has locked. -/
def Pc.locks : Pc → Option InodePtr
  | lockWait ip | load ip | validate ip => some ip
  | _ => none

/-- The entry that the process has locked in `ilock`. -/
def Pc.loads : Pc → Option InodePtr
  | load ip | validate ip => some ip
  | _ => none

/-- The references that are being dropped. -/
def State.dropping (s : State N) (ip : InodePtr) : Nat :=
  ∑ p, if (s.pc p).puts = some ip then 1 else 0

/-- Process `p` needs the entry: it is in `ilock`, or it has the lock and is not freeing the inode. -/
def State.usedBy (s : State N) (ip : InodePtr) (p : Fin N) : Prop :=
  (s.pc p).locks = some ip ∨ (s.itable ip).lock = some p ∧ (s.pc p).frees ≠ some ip

instance (s : State N) (ip : InodePtr) (p : Fin N) : Decidable (s.usedBy ip p) :=
  inferInstanceAs (Decidable (_ ∨ _))

/-- The fields that a process has changed since it last called `iupdate`. -/
abbrev Dirty := InodePtr → Bool

def Dirty.record (d : Dirty) : Input N → Dirty
  | .write _ ip _ => upd d ip true
  | .iupdate _ ip => upd d ip false
  | _ => d

/-- The table with the record of unsaved changes. -/
def recordedTable (N : Nat) : TransitionSystem (State N × Dirty) (Input N) :=
  (itableOps N).observe (fun _ => false) fun _ i d => d.record i

/-- `ip->ref` counts the pointers to the entry. A process uses a pointer only while there is a reference
    that nobody is dropping, and does not drop the last one while somebody needs the entry.
    It changes the fields of an inode only while it holds the lock, does not free it by hand, and
    calls `iupdate` before it unlocks. -/
def Disciplined (x : State N × Dirty) : Input N → Prop
  | .idup _ ip | .ilock _ ip => x.1.dropping ip < (x.1.itable ip).ref
  | .iput _ ip =>
    x.1.dropping ip < (x.1.itable ip).ref ∧
      ((∃ p, x.1.usedBy ip p) → x.1.dropping ip + 1 < (x.1.itable ip).ref)
  | .iunlock p ip => (x.1.itable ip).lock = some p ∧ x.2 ip = false
  | .iupdate p ip => (x.1.itable ip).lock = some p
  | .write p ip din => (x.1.itable ip).lock = some p ∧ din.type ≠ .free
  | _ => True

instance (x : State N × Dirty) (i : Input N) : Decidable (Disciplined x i) := by
  cases i <;> simp only [Disciplined] <;> infer_instance

/-! ## Steps -/

/-- The process is in none of the functions that have an entry. -/
def Pc.outside : Pc → Bool
  | idle | scan _ _ _ | found _ _ => true
  | _ => false

/-- One step with its record, by what it does. -/
inductive Step (s : State N) (d : Dirty) : Input N → State N → Dirty → Prop
  | hit (i : Input N) (p : Fin N) (ip : InodePtr) (hp : (s.pc p).outside = true)
      (href : 0 < (s.itable ip).ref) :
      Step s d i ((s.set ip { s.itable ip with ref := (s.itable ip).ref + 1 }).goto p .idle) d
  | new (i : Input N) (p : Fin N) (ip : InodePtr) (dev inum : Nat) (hp : (s.pc p).outside = true)
      (hnew : ∀ a, 0 < (s.itable a).ref → ¬ ((s.itable a).dev = dev ∧ (s.itable a).inum = inum))
      (hz : (s.itable ip).ref = 0) :
      Step s d i ((s.set ip
        { s.itable ip with dev := dev, inum := inum, ref := 1, valid := false }).goto p .idle) d
  | full (i : Input N) (p : Fin N) (hp : (s.pc p).outside = true) :
      Step s d i ((s.stop "iget: no inodes").goto p .idle) d
  | panic (i : Input N) (msg : String) (hmsg : msg ≠ "sched locks") : Step s d i (s.stop msg) d
  | idup (p : Fin N) (ip : InodePtr) : Step s d (.idup p ip) (s.idup ip) d
  | ilock (p : Fin N) (ip : InodePtr) (hp : s.pc p = .idle) (href : 0 < (s.itable ip).ref) :
      Step s d (.ilock p ip) (s.goto p (.lockWait ip)) d
  | iunlock (p : Fin N) (ip : InodePtr) (hp : s.pc p = .idle) (hl : (s.itable ip).lock = some p) :
      Step s d (.iunlock p ip) (s.set ip { s.itable ip with lock := none }) d
  | iput (p : Fin N) (ip : InodePtr) (hp : s.pc p = .idle) :
      Step s d (.iput p ip) (s.goto p (.put ip)) d
  | iupdate (p : Fin N) (ip : InodePtr) (hp : s.pc p = .idle) :
      Step s d (.iupdate p ip) (s.iupdate ip) (upd d ip false)
  | write (p : Fin N) (ip : InodePtr) (din : Dinode) (hp : s.pc p = .idle) :
      Step s d (.write p ip din) (s.set ip { s.itable ip with din := din }) (upd d ip true)
  | elsewhere (i : Input N) (p : Fin N) (c : Pc) (hp : (s.pc p).outside = true)
      (hc : c.outside = true) : Step s d i (s.goto p c) d
  | take (p : Fin N) (dev inum : Nat) (type : InodeType) (hp : s.pc p = .scan dev type inum)
      (hf : (s.dinode dev inum).type = .free) :
      Step s d (.step p)
        ({ s with
          dinode := upd s.dinode dev (upd (s.dinode dev) inum { Dinode.zero with type := type }) }.goto p
            (.found dev inum)) d
  | acquire (p : Fin N) (ip : InodePtr) (hp : s.pc p = .lockWait ip)
      (hl : (s.itable ip).lock = none) :
      Step s d (.step p) ((s.set ip { s.itable ip with lock := some p }).goto p (.load ip)) d
  | loaded (p : Fin N) (ip : InodePtr) (hp : s.pc p = .load ip) (hv : (s.itable ip).valid = true) :
      Step s d (.step p) (s.goto p .idle) d
  | load (p : Fin N) (ip : InodePtr) (hp : s.pc p = .load ip) :
      Step s d (.step p)
        ((s.set ip { s.itable ip with din := s.onDisk ip }).goto p (.validate ip)) d
  | validate (p : Fin N) (ip : InodePtr) (hp : s.pc p = .validate ip)
      (ht : (s.itable ip).din.type ≠ .free) :
      Step s d (.step p) ((s.set ip { s.itable ip with valid := true }).goto p .idle) d
  | noType (p : Fin N) (ip : InodePtr) (hp : s.pc p = .validate ip) :
      Step s d (.step p)
        ((s.set ip { s.itable ip with valid := true }).stop "ilock: no type") d
  | last (p : Fin N) (ip : InodePtr) (hp : s.pc p = .put ip) (hlast : s.last ip)
      (hl : (s.itable ip).lock = none) :
      Step s d (.step p) ((s.set ip { s.itable ip with lock := some p }).goto p (.trunc ip)) d
  | lastHeld (p : Fin N) (ip : InodePtr) (hp : s.pc p = .put ip) (hlast : s.last ip)
      (hl : (s.itable ip).lock ≠ none) : Step s d (.step p) (s.stop "sched locks") d
  | drop (p : Fin N) (ip : InodePtr) (hp : s.pc p = .put ip ∨ s.pc p = .drop ip) :
      Step s d (.step p) (s.dropRef p ip) d
  | trunc (p : Fin N) (ip : InodePtr) (hp : s.pc p = .trunc ip) :
      Step s d (.step p)
        ((s.set ip { s.itable ip with
          din := { (s.itable ip).din with size := 0, addrs := fun _ => 0 } }).goto p (.truncUpdate ip)) d
  | truncUpdate (p : Fin N) (ip : InodePtr) (hp : s.pc p = .truncUpdate ip) :
      Step s d (.step p) ((s.iupdate ip).goto p (.free ip)) d
  | free (p : Fin N) (ip : InodePtr) (hp : s.pc p = .free ip) :
      Step s d (.step p)
        ((s.set ip { s.itable ip with
          din := { (s.itable ip).din with type := .free } }).goto p (.freeUpdate ip)) d
  | freeUpdate (p : Fin N) (ip : InodePtr) (hp : s.pc p = .freeUpdate ip) :
      Step s d (.step p) ((s.iupdate ip).goto p (.invalidate ip)) d
  | invalidate (p : Fin N) (ip : InodePtr) (hp : s.pc p = .invalidate ip) :
      Step s d (.step p) ((s.set ip { s.itable ip with valid := false }).goto p (.putUnlock ip)) d
  | putUnlock (p : Fin N) (ip : InodePtr) (hp : s.pc p = .putUnlock ip) :
      Step s d (.step p) ((s.set ip { s.itable ip with lock := none }).goto p (.drop ip)) d

variable {s : State N} {p : Fin N} {c : Pc}

theorem goto_pc (hp : s.pc p = c) : s.goto p c = s := by
  rw [State.goto, ← hp, upd_eq_self]

variable {i : Input N} {ip : InodePtr}
variable {d : Dirty}

/-- `iget`, called by a process or by `ialloc`. -/
theorem step_of_iget {dev inum : Nat} (hp : (s.pc p).outside = true) :
    Step s d i ((s.iget dev inum).goto p .idle) d := by
  unfold State.iget
  cases hf : s.findEntry dev inum with
  | some ip =>
    have hip := List.find?_some hf
    simp only [Bool.and_eq_true, decide_eq_true_eq] at hip
    exact .hit i p ip hp hip.1.1
  | none =>
    have hnew := List.find?_eq_none.mp hf
    cases he : s.findEmpty with
    | some ip =>
      have hz := List.find?_some he
      refine .new i p ip dev inum hp (fun a href hid => ?_) (by simpa using hz)
      refine hnew a (List.mem_finRange a) ?_
      simp only [Bool.and_eq_true, decide_eq_true_eq, beq_iff_eq]
      exact ⟨⟨href, hid.1⟩, hid.2⟩
    | none => exact .full i p hp

/-- The steps inside the functions. -/
private theorem step_of_exec {s s' : State N} (hs : s.exec p = some s') :
    Step s d (.step p) s' d := by
  unfold State.exec at hs
  cases hp : s.pc p with
  | idle => simp [hp] at hs
  | lockWait ip =>
    simp only [hp, Option.ite_none_right_eq_some, Option.some.injEq] at hs
    exact hs.2 ▸ .acquire p ip hp hs.1
  | load ip =>
    simp only [hp] at hs
    split at hs
    · exact Option.some.inj hs ▸ .loaded p ip hp ‹_›
    · exact Option.some.inj hs ▸ .load p ip hp
  | validate ip =>
    simp only [hp] at hs
    split at hs
    · exact Option.some.inj hs ▸ .noType p ip hp
    · exact Option.some.inj hs ▸ .validate p ip hp ‹_›
  | put ip =>
    simp only [hp, Option.some.injEq, State.put] at hs
    split at hs
    · rename_i hlast
      split at hs
      · exact hs ▸ .last p ip hp hlast ‹_›
      · exact hs ▸ .lastHeld p ip hp hlast ‹_›
    · exact hs ▸ .drop p ip (.inl hp)
  | trunc ip => simp only [hp, Option.some.injEq] at hs; exact hs ▸ .trunc p ip hp
  | truncUpdate ip => simp only [hp, Option.some.injEq] at hs; exact hs ▸ .truncUpdate p ip hp
  | free ip => simp only [hp, Option.some.injEq] at hs; exact hs ▸ .free p ip hp
  | freeUpdate ip => simp only [hp, Option.some.injEq] at hs; exact hs ▸ .freeUpdate p ip hp
  | invalidate ip => simp only [hp, Option.some.injEq] at hs; exact hs ▸ .invalidate p ip hp
  | putUnlock ip => simp only [hp, Option.some.injEq] at hs; exact hs ▸ .putUnlock p ip hp
  | drop ip => simp only [hp, Option.some.injEq] at hs; exact hs ▸ .drop p ip (.inr hp)
  | scan dev type inum =>
    have hout : (s.pc p).outside = true := by rw [hp]; rfl
    simp only [hp] at hs
    split at hs
    · split at hs
      · exact Option.some.inj hs ▸ .take p dev inum type hp ‹_›
      · exact Option.some.inj hs ▸ .elsewhere _ p _ hout rfl
    · exact Option.some.inj hs ▸ .elsewhere _ p _ hout rfl
  | found dev inum =>
    simp only [hp, Option.some.injEq] at hs
    exact hs ▸ step_of_iget (by rw [hp]; rfl)

/-- The calls of a process that is in none of the functions. -/
private theorem step_of_call (hp : s.pc i.process = .idle) (hi : ∀ p, i ≠ .step p) :
    Step s d i (s.call i) (d.record i) := by
  cases i with
  | iget p dev inum =>
    have hgo : (s.iget dev inum).pc p = .idle := by
      unfold State.iget
      split
      · exact hp
      · split <;> exact hp
    have hstep : Step s d (.iget p dev inum) ((s.iget dev inum).goto p .idle) d :=
      step_of_iget (by rw [show s.pc p = .idle from hp]; rfl)
    rw [goto_pc hgo] at hstep
    exact hstep
  | idup p ip => exact .idup p ip
  | ilock p ip =>
    simp only [State.call]
    split
    · exact .panic _ _ (by decide)
    · exact .ilock p ip hp (by omega)
  | iunlock p ip =>
    simp only [State.call, State.iunlock]
    split
    · exact .panic _ _ (by decide)
    · rename_i hl
      exact .iunlock p ip hp (not_not.mp (not_or.mp hl).1)
  | iput p ip => exact .iput p ip hp
  | iupdate p ip => exact .iupdate p ip hp
  | ialloc p dev type => exact .elsewhere _ p _ (by rw [show s.pc p = .idle from hp]; rfl) rfl
  | write p ip din => exact .write p ip din hp
  | step p => exact absurd rfl (hi p)

theorem step_cases {x y : State N × Dirty} (hs : (recordedTable N).step x i = some y) :
    Step x.1 x.2 i y.1 y.2 := by
  obtain ⟨hs, hd⟩ := observe_step.mp hs
  rw [hd]
  change State.step x.1 i = some y.1 at hs
  unfold State.step at hs
  split at hs
  · cases hs
  · cases i with
    | step p => exact step_of_exec hs
    | _ =>
      simp only [Option.ite_none_right_eq_some, Option.some.injEq] at hs
      exact hs.2 ▸ step_of_call hs.1 nofun

/-! ## References -/

theorem Pc.puts_of_frees (h : c.frees = some ip) : c.puts = some ip := by
  cases c with
  | trunc _ | truncUpdate _ | free _ | freeUpdate _ | invalidate _ | putUnlock _ => exact h
  | _ => cases h

/-- References, locks and positions fit together. -/
structure Refs (s : State N) : Prop where
  le : ∀ ip, s.dropping ip ≤ (s.itable ip).ref
  used : ∀ ip p, s.usedBy ip p → s.dropping ip < (s.itable ip).ref
  frees : ∀ p ip, (s.pc p).frees = some ip → (s.itable ip).lock = some p
  loads : ∀ p ip, (s.pc p).loads = some ip → (s.itable ip).lock = some p

theorem dropping_upd {s t : State N} (hpc : t.pc = upd s.pc p c) (ip : InodePtr) :
    t.dropping ip + (if (s.pc p).puts = some ip then 1 else 0) =
      s.dropping ip + if c.puts = some ip then 1 else 0 := by
  have hsum := Finset.sum_add_of_eq_off (fun q => if (s.pc q).puts = some ip then 1 else 0)
    (fun q => if (t.pc q).puts = some ip then 1 else 0) p fun q hq => by rw [hpc, upd_of_ne hq]
  simp only [hpc, upd_self] at hsum
  simp only [State.dropping, hpc]
  exact hsum

theorem dropping_pos (hp : (s.pc p).puts = some ip) :
    0 < s.dropping ip := by
  have hle := Finset.single_le_sum
    (f := fun q => if (s.pc q).puts = some ip then 1 else 0) (fun _ _ => Nat.zero_le _)
    (Finset.mem_univ p)
  simp only [hp, if_true] at hle
  exact hle

theorem dropping_two {p q : Fin N} (hne : p ≠ q) (hp : (s.pc p).puts = some ip)
    (hq : (s.pc q).puts = some ip) : 2 ≤ s.dropping ip := by
  have hle := Finset.add_le_sum
    (f := fun r => if (s.pc r).puts = some ip then 1 else 0) (fun _ _ => Nat.zero_le _)
    (Finset.mem_univ p) (Finset.mem_univ q) hne
  simp only [hp, hq, if_true] at hle
  exact hle

/-- Locked entries are referenced. -/
theorem Refs.ref_pos (hr : Refs s) (hl : (s.itable ip).lock = some p) :
    0 < (s.itable ip).ref := by
  by_cases hf : (s.pc p).frees = some ip
  · exact Nat.lt_of_lt_of_le (dropping_pos (Pc.puts_of_frees hf)) (hr.le ip)
  · exact Nat.lt_of_le_of_lt (Nat.zero_le _) (hr.used ip p (.inr ⟨hl, hf⟩))

/-- The sleep-lock is free when `iput` drops the last reference. -/
theorem Refs.lock_of_put (hr : Refs s) (hp : s.pc p = .put ip) (href : (s.itable ip).ref = 1) :
    (s.itable ip).lock = none := by
  have hputs : (s.pc p).puts = some ip := by rw [hp]; rfl
  have hpos := dropping_pos hputs
  cases hl : (s.itable ip).lock with
  | none => rfl
  | some q =>
    by_cases hf : (s.pc q).frees = some ip
    · -- another process is freeing the inode, and drops a reference of its own
      have hne : p ≠ q := by
        rintro rfl
        rw [hp] at hf
        cases hf
      have htwo := dropping_two hne hputs (Pc.puts_of_frees hf)
      have hle := hr.le ip
      omega
    · have hlt := hr.used ip q (.inr ⟨hl, hf⟩)
      omega

/-! ## Contents -/

/-- What the holder of the lock of an entry is doing with it. -/
inductive Phase where
  /-- nothing of this module: `ilock` has returned -/
  | client
  | load
  | validate
  /-- in `iput`, with the inode still allocated on disk -/
  | trunc
  | freed
  /-- the inode is free on disk, or somebody else's -/
  | reused
  | unlock

def Pc.phase (ip : InodePtr) : Pc → Phase
  | load a => if a = ip then .load else .client
  | validate a => if a = ip then .validate else .client
  | trunc a | truncUpdate a | free a => if a = ip then .trunc else .client
  | freeUpdate a => if a = ip then .freed else .client
  | invalidate a => if a = ip then .reused else .client
  | putUnlock a => if a = ip then .unlock else .client
  | _ => .client

/-- The entry has what is on disk, which is an allocated inode. -/
def Coherent (x : Inode N) (disk : Dinode) : Prop := x.din = disk ∧ x.din.type ≠ .free

/-- An entry while its lock is held. -/
def Held (x : Inode N) (disk : Dinode) (dirty : Bool) : Phase → Prop
  | .client =>
    x.valid = true ∧ x.din.type ≠ .free ∧ disk.type ≠ .free ∧ (dirty = false → x.din = disk)
  | .load => x.valid = true → Coherent x disk
  | .validate => x.din.type ≠ .free → x.din = disk
  | .trunc => x.din.type ≠ .free ∧ disk.type ≠ .free
  | .freed => disk.type ≠ .free
  | .reused => True
  | .unlock => x.valid = false

/-- An entry against its inode on disk. -/
def SlotOk (s : State N) (d : Dirty) (ip : InodePtr) : Prop :=
  match (s.itable ip).lock with
  | none => (s.itable ip).valid = true → Coherent (s.itable ip) (s.onDisk ip)
  | some p => Held (s.itable ip) (s.onDisk ip) (d ip) ((s.pc p).phase ip)

theorem slotOk_of_lock {ph : Phase} (hl : (s.itable ip).lock = some p) (hph : (s.pc p).phase ip = ph) :
    SlotOk s d ip ↔ Held (s.itable ip) (s.onDisk ip) (d ip) ph := by
  rw [SlotOk, hl, ← hph]

theorem slotOk_of_free (hl : (s.itable ip).lock = none) :
    SlotOk s d ip ↔ ((s.itable ip).valid = true → Coherent (s.itable ip) (s.onDisk ip)) := by
  rw [SlotOk, hl]

/-- `ialloc` takes an inode only when no entry relies on it. -/
theorem Held.reuse {x : Inode N} {disk disk' : Dinode} {dirty : Bool} {ph : Phase}
    (h : Held x disk dirty ph) (hf : disk.type = .free) : Held x disk' dirty ph := by
  cases ph with
  | client => exact absurd hf h.2.2.1
  | load =>
    intro hv
    obtain ⟨hd, ht⟩ := h hv
    exact absurd (hd ▸ hf) ht
  | validate =>
    intro ht
    have hd : x.din = disk := h ht
    exact absurd (hd ▸ hf) ht
  | trunc => exact absurd hf h.2
  | freed => exact absurd hf h
  | reused => trivial
  | unlock => exact h

theorem SlotOk.frame {s t : State N} {d d' : Dirty} {b : InodePtr} (h : SlotOk s d b)
    (hlock : (t.itable b).lock = (s.itable b).lock)
    (hvalid : (t.itable b).valid = (s.itable b).valid) (hdin : (t.itable b).din = (s.itable b).din)
    (hdisk : t.onDisk b = s.onDisk b ∨ (s.onDisk b).type = .free) (hd : d' b = d b)
    (hph : ∀ q, (t.pc q).phase b = (s.pc q).phase b) : SlotOk t d' b := by
  have hheld : ∀ disk dirty ph, Held (s.itable b) disk dirty ph → Held (t.itable b) disk dirty ph := by
    intro disk dirty ph hh
    cases ph with
    | client | load | validate | trunc | freed | reused | unlock =>
      simp only [Held, Coherent, hvalid, hdin] at hh ⊢
      try exact hh
  unfold SlotOk at h ⊢
  rw [hlock]
  cases hl : (s.itable b).lock with
  | none =>
    rw [hl] at h
    intro hv
    rw [hvalid] at hv
    obtain ⟨hd, ht⟩ := h hv
    cases hdisk with
    | inl heq => exact ⟨by rw [hdin, heq, hd], by rw [hdin]; exact ht⟩
    | inr hf => exact absurd (hd ▸ hf) ht
  | some q =>
    rw [hl] at h
    show Held (t.itable b) (t.onDisk b) (d' b) ((t.pc q).phase b)
    rw [hd, hph q]
    refine hheld _ _ _ ?_
    cases hdisk with
    | inl heq => rw [heq]; exact h
    | inr hf => exact h.reuse hf

/-! ## The invariant -/

structure Inv (s : State N) (d : Dirty) : Prop where
  refs : Refs s
  unique : ∀ a b, 0 < (s.itable a).ref → 0 < (s.itable b).ref →
    (s.itable a).dev = (s.itable b).dev → (s.itable a).inum = (s.itable b).inum → a = b
  slot : ∀ ip, 0 < (s.itable ip).ref → SlotOk s d ip
  awake : s.panicked ≠ some "sched locks"

/-- What the invariant says about one entry. -/
@[grind cases]
structure Entry (s : State N) (d : Dirty) (ip : InodePtr) : Prop where
  le : s.dropping ip ≤ (s.itable ip).ref
  puts : ∀ q, (s.pc q).puts = some ip → 0 < s.dropping ip
  used : ∀ q, (s.pc q).locks = some ip ∨ (s.itable ip).lock = some q ∧ (s.pc q).frees ≠ some ip →
    s.dropping ip < (s.itable ip).ref
  frees : ∀ q, (s.pc q).frees = some ip → (s.itable ip).lock = some q
  loads : ∀ q, (s.pc q).loads = some ip → (s.itable ip).lock = some q
  pos : (s.itable ip).lock ≠ none → 0 < (s.itable ip).ref
  unique : ∀ b, b ≠ ip → 0 < (s.itable ip).ref → 0 < (s.itable b).ref →
    ¬ ((s.itable b).dev = (s.itable ip).dev ∧ (s.itable b).inum = (s.itable ip).inum)
  idle : (s.itable ip).lock = none → 0 < (s.itable ip).ref → (s.itable ip).valid = true →
    Coherent (s.itable ip) (s.onDisk ip)
  held : ∀ q, (s.itable ip).lock = some q →
    Held (s.itable ip) (s.onDisk ip) (d ip) ((s.pc q).phase ip)

theorem Inv.entry (hi : Inv s d) (ip : InodePtr) : Entry s d ip where
  le := hi.refs.le ip
  puts _ := dropping_pos
  used := hi.refs.used ip
  frees q := hi.refs.frees q ip
  loads q := hi.refs.loads q ip
  pos hl := by
    obtain ⟨q, hq⟩ := Option.ne_none_iff_exists'.mp hl
    exact hi.refs.ref_pos hq
  unique b hb href hrb hid := hb (hi.unique b ip hrb href hid.1 hid.2)
  idle hl href := (slotOk_of_free hl).mp (hi.slot ip href)
  held q hl := (slotOk_of_lock hl rfl).mp (hi.slot ip (hi.refs.ref_pos hl))

/-! ## One entry at a time

A step moves one process and changes at most one entry of the table. -/

/-- The references that are being dropped once process `p` is at `c`. -/
def State.droppingAt (s : State N) (p : Fin N) (c : Pc) (ip : InodePtr) : Nat :=
  s.dropping ip + (if c.puts = some ip then 1 else 0) - if (s.pc p).puts = some ip then 1 else 0

/-- To the holder of its lock, the entry is as it was. -/
@[grind]
structure Same (s : State N) (d d' : Dirty) (p : Fin N) (c : Pc) (ip : InodePtr) (x : Inode N)
    (disk : Dinode) : Prop where
  ref : 0 < x.ref → 0 < (s.itable ip).ref
  lock : x.lock = (s.itable ip).lock
  valid : x.valid = (s.itable ip).valid
  din : x.din = (s.itable ip).din
  disk : disk = s.onDisk ip
  dirty : d' ip = d ip
  phase : c.phase ip = (s.pc p).phase ip

/-- What is to be checked when process `p` goes to `c` and entry `ip` becomes `x`, with `disk` on disk: nothing
    changes about other entries, references and locks fit together, and the entry is fit for its holder. -/
structure Own (s : State N) (d d' : Dirty) (p : Fin N) (c : Pc) (ip : InodePtr) (x : Inode N)
    (disk : Dinode) : Prop where
  off : ∀ b, b ≠ ip → ((c.puts = some b ↔ (s.pc p).puts = some b) ∧
      (c.frees = some b ↔ (s.pc p).frees = some b) ∧ (c.locks = some b ↔ (s.pc p).locks = some b) ∧
      (c.loads = some b ↔ (s.pc p).loads = some b) ∧ c.phase b = (s.pc p).phase b) ∧ d' b = d b ∧
    (0 < x.ref → 0 < (s.itable b).ref → ¬ ((s.itable b).dev = x.dev ∧ (s.itable b).inum = x.inum))
  refs : s.droppingAt p c ip ≤ x.ref ∧
    (c.locks = some ip ∨ x.lock = some p ∧ c.frees ≠ some ip → s.droppingAt p c ip < x.ref) ∧
    (c.frees = some ip ∨ c.loads = some ip → x.lock = some p) ∧
    ∀ q, q ≠ p → ((s.pc q).locks = some ip ∨ x.lock = some q ∧ (s.pc q).frees ≠ some ip →
      s.droppingAt p c ip < x.ref) ∧
      ((s.pc q).frees = some ip ∨ (s.pc q).loads = some ip → x.lock = some q)
  slot : Same s d d' p c ip x disk ∨
    (x.lock = none ∧ (0 < x.ref → x.valid = true → Coherent x disk)) ∨
    x.lock = some p ∧ Held x disk (d' ip) (c.phase ip)

namespace Inv

variable {s t : State N} {d d' : Dirty} {p : Fin N}

section

variable (hi : Inv s d)
include hi

/-- A step that changes one entry, or its inode on disk. -/
theorem own (c : Pc) (ip : InodePtr) {x : Inode N} (hpc : t.pc = upd s.pc p c)
    (hit : t.itable = upd s.itable ip x)
    (hdisk : ∀ b, b ≠ ip → 0 < (s.itable b).ref → t.onDisk b = s.onDisk b)
    (hok : t.panicked ≠ some "sched locks") (h : Own s d d' p c ip x (t.onDisk ip)) : Inv t d' := by
  have hip : t.itable ip = x := by rw [hit, upd_self]
  have hb : ∀ b, b ≠ ip → t.itable b = s.itable b := fun b hb => by rw [hit, upd_of_ne hb]
  have hp : t.pc p = c := by rw [hpc, upd_self]
  have hq : ∀ q, q ≠ p → t.pc q = s.pc q := fun q hq => by rw [hpc, upd_of_ne hq]
  have hsum := dropping_upd hpc
  have hdropping : t.dropping ip = s.droppingAt p c ip := by
    rw [State.droppingAt, ← hsum ip, Nat.add_sub_cancel]
  have hdrop : ∀ b, b ≠ ip → t.dropping b = s.dropping b := by
    intro b hbi
    have hsum := hsum b
    simp only [(h.off b hbi).1.1] at hsum
    omega
  -- about other entries, the positions say what they said
  have hpos : ∀ q b, b ≠ ip → ((t.pc q).frees = some b ↔ (s.pc q).frees = some b) ∧
      ((t.pc q).locks = some b ↔ (s.pc q).locks = some b) ∧
      ((t.pc q).loads = some b ↔ (s.pc q).loads = some b) ∧
      (t.pc q).phase b = (s.pc q).phase b := by
    intro q b hbi
    by_cases hqp : q = p
    · rw [hqp, hp]
      exact (h.off b hbi).1.2
    · rw [hq q hqp]
      exact ⟨.rfl, .rfl, .rfl, rfl⟩
  obtain ⟨hoff, ⟨hle, hmine, hlock, hothers⟩, hslot⟩ := h
  refine ⟨⟨fun b => ?_, fun b q hu => ?_, fun q b hf => ?_, fun q b hl => ?_⟩,
    fun a b ha hb hdev hinum => ?_, fun b hrb => ?_, hok⟩
  · grind [hi.refs.le b]
  · unfold State.usedBy at hu
    by_cases hbi : b = ip
    · grind
    · rw [hb b hbi, ne_eq, (hpos q b hbi).1, (hpos q b hbi).2.1] at hu
      rw [hb b hbi, hdrop b hbi]
      exact hi.refs.used b q hu
  · grind [hi.refs.frees q b]
  · grind [hi.refs.loads q b]
  · grind [hi.unique a b]
  · by_cases hbi : b = ip
    · rw [hbi, hip] at hrb
      rw [hbi]
      rcases hslot with hsame | ⟨hl, hco⟩ | ⟨hl, hh⟩
      · refine (hi.slot ip (hsame.ref hrb)).frame ?_ ?_ ?_ (.inl hsame.disk) hsame.dirty fun q => ?_
        · rw [hip, hsame.lock]
        · rw [hip, hsame.valid]
        · rw [hip, hsame.din]
        · by_cases hqp : q = p
          · rw [hqp, hp, hsame.phase]
          · rw [hq q hqp]
      · rw [slotOk_of_free (by rw [hip, hl]), hip]
        exact hco hrb
      · rw [slotOk_of_lock (by rw [hip, hl]) rfl, hip, hp]
        exact hh
    · rw [hb b hbi] at hrb
      refine (hi.slot b hrb).frame ?_ ?_ ?_ (.inl (hdisk b hbi hrb)) (hoff b hbi).2.1
        fun q => (hpos q b hbi).2.2.2
      · rw [hb b hbi]
      · rw [hb b hbi]
      · rw [hb b hbi]

/-- A store into the entry. -/
theorem store (c : Pc) (ip : InodePtr) {x : Inode N} (hpc : t.pc = upd s.pc p c)
    (hit : t.itable = upd s.itable ip x) (hdin : t.dinode = s.dinode)
    (hok : t.panicked ≠ some "sched locks")
    (h : Entry s d ip → Own s d d' p c ip x (s.dinode x.dev x.inum)) : Inv t d' := by
  refine hi.own c ip hpc hit (fun b hb _ => ?_) hok ?_
  · rw [State.onDisk, State.onDisk, hit, upd_of_ne hb, hdin]
  · rw [State.onDisk, hit, upd_self, hdin]
    exact h (hi.entry ip)

/-- The process goes on, and the table stays as it is. -/
theorem move (c : Pc) (ip : InodePtr) (hpc : t.pc = upd s.pc p c)
    (hit : t.itable = s.itable) (hdin : t.dinode = s.dinode) (hok : t.panicked ≠ some "sched locks")
    (h : Entry s d ip → Own s d d' p c ip (s.itable ip) (s.onDisk ip)) : Inv t d' :=
  hi.store c ip hpc (hit.trans (upd_eq_self _ _).symm) hdin hok h

/-- Other entries do not notice `iupdate`. -/
theorem onDisk_iupdate {b : InodePtr} (href : 0 < (s.itable ip).ref) (hb : b ≠ ip)
    (hrb : 0 < (s.itable b).ref) : (s.iupdate ip).onDisk b = s.onDisk b := by
  simp only [State.onDisk, State.iupdate]
  by_cases hdev : (s.itable b).dev = (s.itable ip).dev
  · have hinum : (s.itable b).inum ≠ (s.itable ip).inum := fun hinum =>
      hb (hi.unique b ip hrb href hdev hinum)
    rw [hdev, upd_self, upd_of_ne hinum]
  · rw [upd_of_ne hdev]

/-- The holder of the lock saves the entry with `iupdate`. -/
theorem save (c : Pc) (ip : InodePtr) (hl : (s.itable ip).lock = some p)
    (hpc : t.pc = upd s.pc p c) (hit : t.itable = s.itable)
    (hdin : t.dinode = (s.iupdate ip).dinode) (hok : t.panicked ≠ some "sched locks")
    (h : Entry s d ip → Own s d d' p c ip (s.itable ip) (s.itable ip).din) : Inv t d' := by
  have hdisk : ∀ b, t.onDisk b = (s.iupdate ip).onDisk b := by
    intro b
    rw [State.onDisk, State.onDisk, hit, hdin]
    rfl
  refine hi.own c ip hpc (hit.trans (upd_eq_self _ _).symm) (fun b hb hrb => ?_) hok ?_
  · rw [hdisk]
    exact hi.onDisk_iupdate (hi.refs.ref_pos hl) hb hrb
  · have hself : (s.iupdate ip).onDisk ip = (s.itable ip).din := by
      simp [State.onDisk, State.iupdate]
    rw [hdisk, hself]
    exact h (hi.entry ip)

/-- `ialloc` writes to an inode that was free. -/
theorem reuse {dev inum : Nat} {din : Dinode} (hf : (s.dinode dev inum).type = .free) :
    Inv { s with dinode := upd s.dinode dev (upd (s.dinode dev) inum din) } d := by
  refine ⟨⟨hi.refs.le, hi.refs.used, hi.refs.frees, hi.refs.loads⟩, hi.unique, fun b hb => ?_, hi.awake⟩
  refine (hi.slot b hb).frame rfl rfl rfl ?_ rfl fun _ => rfl
  simp only [State.onDisk]
  by_cases hdev : (s.itable b).dev = dev
  · by_cases hinum : (s.itable b).inum = inum
    · exact .inr (by rw [hdev, hinum, hf])
    · exact .inl (by rw [hdev, upd_self, upd_of_ne hinum])
  · exact .inl (by rw [upd_of_ne hdev])

end

end Inv

/-! ## Steps keep the invariant -/

theorem Pc.of_outside (h : c.outside = true) :
    c.puts = none ∧ c.frees = none ∧ c.locks = none ∧ c.loads = none ∧ ∀ ip, c.phase ip = .client := by
  cases c with
  | idle | scan _ _ _ | found _ _ => exact ⟨rfl, rfl, rfl, rfl, fun _ => rfl⟩
  | _ => cases h

attribute [local grind] Pc.puts Pc.frees Pc.locks Pc.loads Pc.phase Held Coherent State.onDisk
  State.droppingAt
attribute [local grind =] upd_apply
attribute [local grind →] Pc.of_outside

/-- Every step of disciplined processes keeps the invariant. -/
theorem inv_step {s s' : State N} {d d' : Dirty} (hi : Inv s d) (hd : Disciplined (s, d) i)
    (hs : Step s d i s' d') : Inv s' d' := by
  cases hs with
  | hit i p ip hp href | new i p ip dev inum hp hnew hz | validate p ip hp ht | drop p ip hp =>
    refine hi.store .idle ip rfl rfl rfl hi.awake fun he => ?_
    constructor <;> grind -linarith -ring
  | full i p hp =>
    refine hi.move .idle ⟨0, by decide⟩ rfl rfl rfl (by simp [State.stop, State.goto]) fun he => ?_
    constructor <;> grind -linarith -ring
  | panic i msg hmsg =>
    refine hi.move (s.pc i.process) ⟨0, by decide⟩ (upd_eq_self _ _).symm rfl rfl
      (by simpa [State.stop] using hmsg) fun he => ?_
    constructor <;> grind -linarith -ring
  | idup p ip =>
    refine hi.store (s.pc p) ip (upd_eq_self _ _).symm rfl rfl hi.awake fun he => ?_
    have hlt : s.dropping ip < (s.itable ip).ref := hd
    constructor <;> grind -linarith -ring
  | ilock p ip hp href =>
    refine hi.move (.lockWait ip) ip rfl rfl rfl hi.awake fun he => ?_
    have hlt : s.dropping ip < (s.itable ip).ref := hd
    constructor <;> grind -linarith -ring
  | iunlock p ip hp hl =>
    refine hi.store (s.pc p) ip (upd_eq_self _ _).symm rfl rfl hi.awake fun he => ?_
    have hsaved : d ip = false := hd.2
    constructor <;> grind -linarith -ring
  | iput p ip hp =>
    refine hi.move (.put ip) ip rfl rfl rfl hi.awake fun he => ?_
    have hlt : s.dropping ip < (s.itable ip).ref := hd.1
    have hmore := fun q hq => hd.2 ⟨q, hq⟩
    unfold State.usedBy at hmore
    constructor <;> grind -linarith -ring
  | iupdate p ip hp =>
    refine hi.save (s.pc p) ip hd (upd_eq_self _ _).symm rfl rfl hi.awake fun he => ?_
    have hl : (s.itable ip).lock = some p := hd
    constructor <;> grind -linarith -ring
  | write p ip din hp =>
    refine hi.store (s.pc p) ip (upd_eq_self _ _).symm rfl rfl hi.awake fun he => ?_
    obtain ⟨hl, ht⟩ : (s.itable ip).lock = some p ∧ din.type ≠ .free := hd
    constructor <;> grind -linarith -ring
  | elsewhere i p c hp hc =>
    refine hi.move c ⟨0, by decide⟩ rfl rfl rfl hi.awake fun he => ?_
    constructor <;> grind -linarith -ring
  | take p dev inum type hp hf =>
    refine (hi.reuse hf).move (.found dev inum) ⟨0, by decide⟩ rfl rfl rfl hi.awake fun he => ?_
    constructor <;> grind -linarith -ring
  | acquire p ip hp hl =>
    refine hi.store (.load ip) ip rfl rfl rfl hi.awake fun he => ?_
    constructor <;> grind -linarith -ring
  | loaded p ip hp hv =>
    refine hi.move .idle ip rfl rfl rfl hi.awake fun he => ?_
    constructor <;> grind -linarith -ring
  | load p ip hp =>
    refine hi.store (.validate ip) ip rfl rfl rfl hi.awake fun he => ?_
    constructor <;> grind -linarith -ring
  | noType p ip hp =>
    refine hi.store (s.pc p) ip (upd_eq_self _ _).symm rfl rfl (by simp [State.stop]) fun he => ?_
    constructor <;> grind -linarith -ring
  | last p ip hp hlast hl =>
    refine hi.store (.trunc ip) ip rfl rfl rfl hi.awake fun he => ?_
    obtain ⟨href, hv, -⟩ := hlast
    constructor <;> grind -linarith -ring
  | lastHeld p ip hp hlast hl => exact absurd (hi.refs.lock_of_put hp hlast.1) hl
  | trunc p ip hp =>
    refine hi.store (.truncUpdate ip) ip rfl rfl rfl hi.awake fun he => ?_
    constructor <;> grind -linarith -ring
  | truncUpdate p ip hp =>
    refine hi.save (.free ip) ip (hi.refs.frees p ip (by rw [hp]; rfl)) rfl rfl rfl hi.awake fun he => ?_
    constructor <;> grind -linarith -ring
  | free p ip hp =>
    refine hi.store (.freeUpdate ip) ip rfl rfl rfl hi.awake fun he => ?_
    constructor <;> grind -linarith -ring
  | freeUpdate p ip hp =>
    refine hi.save (.invalidate ip) ip (hi.refs.frees p ip (by rw [hp]; rfl)) rfl rfl rfl hi.awake fun he => ?_
    constructor <;> grind -linarith -ring
  | invalidate p ip hp =>
    refine hi.store (.putUnlock ip) ip rfl rfl rfl hi.awake fun he => ?_
    constructor <;> grind -linarith -ring
  | putUnlock p ip hp =>
    refine hi.store (.drop ip) ip rfl rfl rfl hi.awake fun he => ?_
    constructor <;> grind -linarith -ring

/-! ## Whole runs -/

theorem inv_boot (dinode : Nat → Nat → Dinode) : Inv (State.boot N dinode) fun _ => false := by
  have hzero : ∀ ip, (State.boot N dinode).dropping ip = 0 := fun ip =>
    Finset.sum_eq_zero fun p _ => rfl
  refine ⟨⟨fun ip => ?_, fun ip p hp => ?_, nofun, nofun⟩, fun a b ha => ?_, fun ip hip => ?_, nofun⟩
  · rw [hzero]
    exact Nat.zero_le _
  · cases hp with
    | inl h => cases h
    | inr h => exact nomatch h.1
  · exact absurd ha (Nat.lt_irrefl 0)
  · exact absurd hip (Nat.lt_irrefl 0)

theorem inv_reachable {x : State N × Dirty} (hx : (recordedTable N).ReachableBy Disciplined x) :
    Inv x.1 x.2 := by
  refine hx.induct (P := fun x => Inv x.1 x.2) ?_ ?_
  · rintro x ⟨⟨dinode, hx1⟩, hx2⟩
    rw [hx1, hx2]
    exact inv_boot dinode
  · intro x i y _ ih hd hs
    exact inv_step ih hd (step_cases hs)

/-- The entries in use are those of different inodes; an entry that is valid and not locked has what is on
    disk; and `iput` finds the lock free when it drops the last reference, so that it never sleeps with
    `itable.lock`. -/
theorem inode_coherence {x : State N × Dirty} (hx : (recordedTable N).ReachableBy Disciplined x) :
    (∀ a b, a ≠ b → 0 < (x.1.itable a).ref → 0 < (x.1.itable b).ref →
      ¬ ((x.1.itable a).dev = (x.1.itable b).dev ∧ (x.1.itable a).inum = (x.1.itable b).inum)) ∧
    (∀ ip, 0 < (x.1.itable ip).ref → (x.1.itable ip).valid = true → (x.1.itable ip).lock = none →
      (x.1.itable ip).din = x.1.dinode (x.1.itable ip).dev (x.1.itable ip).inum) ∧
    (∀ p ip, x.1.pc p = .put ip → (x.1.itable ip).ref = 1 → (x.1.itable ip).din.nlink = 0 →
      (x.1.itable ip).lock = none) ∧
    x.1.panicked ≠ some "sched locks" := by
  have hi := inv_reachable hx
  refine ⟨fun a b hne ha hb hid => hne (hi.unique a b ha hb hid.1 hid.2), fun ip href hv hl => ?_,
    fun p ip hp href _ => hi.refs.lock_of_put hp href, hi.awake⟩
  exact ((slotOk_of_free hl).mp (hi.slot ip href) hv).1

/-- Process 0 frees inode 1, whose number process 1 takes again before process 0 has dropped its
    reference; then process 1 locks and unlocks the new inode. -/
def reuseRun : List (Input 2) :=
  let ip : InodePtr := ⟨0, Fs.NINODE_pos⟩
  [.iget 0 1 1, .ilock 0 ip, .step 0, .step 0, .step 0, .iunlock 0 ip, .iput 0 ip,
    .step 0, .step 0, .step 0, .step 0, .step 0, .ialloc 1 1 .file, .step 1, .step 1, .step 0, .step 0,
    .ilock 1 ip, .step 1, .step 1, .step 1, .iunlock 1 ip]

theorem inode_coherence_reuse : ∃ x : State 2 × Dirty,
    (recordedTable 2).ReachableBy Disciplined x ∧
    x.1.pc 0 = .drop ⟨0, by decide⟩ ∧ (x.1.itable ⟨0, by decide⟩).ref = 2 ∧
    (x.1.itable ⟨0, by decide⟩).din = x.1.dinode (x.1.itable ⟨0, by decide⟩).dev
      (x.1.itable ⟨0, by decide⟩).inum := by
  have hrun : ((recordedTable 2).runBy Disciplined
      (State.boot 2 (fun _ _ => { Dinode.zero with type := .dir }), fun _ => false) reuseRun).map
      (fun x => (x.1.pc 0, (x.1.itable ⟨0, by decide⟩).ref, (x.1.itable ⟨0, by decide⟩).valid,
        (x.1.itable ⟨0, by decide⟩).lock)) = some (.drop ⟨0, by decide⟩, 2, true, none) := by
    decide +kernel
  obtain ⟨x, hr, heq⟩ := exists_reachableBy_of_runBy hrun ⟨⟨_, rfl⟩, rfl⟩
  simp only [Prod.mk.injEq] at heq
  obtain ⟨hpc, href, hv, hl⟩ := heq
  refine ⟨x, hr, hpc, href, (inode_coherence hr).2.1 _ ?_ hv hl⟩
  rw [href]
  decide

end Xv6.Itable
