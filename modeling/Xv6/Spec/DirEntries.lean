import Xv6.Spec.InodeTable
import Xv6.Spec.Names

/-!
# The entries of a directory

A directory on disk read as a list of entries (`entries`), of which `named` finds the first one in use
with a name. Names are compared up to their first NUL and `DIRSIZ` bytes (`namecmp_eq_zero_iff`).
`dirlookup_finds` says that `dirlookup` of a locked directory computes `named`, and for what reasons
it stops instead.
-/

namespace Xv6.Fs

/-! ## Names -/

/-- A name up to its first NUL and `DIRSIZ` bytes. -/
def cut (name : List UInt8) : List UInt8 := (name.takeWhile (· != 0)).take DIRSIZ

theorem strncmp_eq_zero_iff_take (s t : List UInt8) (n : Nat) :
    strncmp s t n = 0 ↔ (s.takeWhile (· != 0)).take n = (t.takeWhile (· != 0)).take n := by
  induction n generalizing s t with
  | zero => simp [strncmp]
  | succ n ih =>
    have hsub : ∀ a b : UInt8, ((a.toNat : Int) - b.toNat = 0) ↔ a = b := by
      intro a b
      rw [← UInt8.toNat_inj]
      omega
    -- an empty string is one that starts with a NUL
    have hnil : ∀ t : List UInt8,
        ((t.takeWhile (· != 0)).take (n + 1) = [] ↔ t.headD 0 = 0) := by
      intro t
      cases t with
      | nil => simp
      | cons b t => by_cases hb : b = 0 <;> simp [hb]
    cases s with
    | nil =>
      simp only [strncmp, List.headD_nil, ne_eq, not_true_eq_false, false_and, if_false, hsub,
        List.takeWhile_nil, List.take_nil]
      rw [eq_comm, ← hnil, eq_comm]
    | cons a s =>
      by_cases ha : a = 0
      · simp only [strncmp, List.headD_cons, ha, ne_eq, not_true_eq_false, false_and, if_false, hsub]
        rw [List.takeWhile_cons_of_neg (by simp), List.take_nil, eq_comm, ← hnil, eq_comm]
      · cases t with
        | nil => simpa [strncmp, ha] using mt UInt8.toNat_inj.mp ha
        | cons b t =>
          by_cases hb : b = 0
          · simpa [strncmp, ha, hb] using mt UInt8.toNat_inj.mp ha
          · by_cases hab : a = b
            · simp [strncmp, hb, hab, ih]
            · simp [strncmp, ha, hb, hab, hsub]

theorem namecmp_eq_zero_iff (name name' : List UInt8) :
    namecmp name name' = 0 ↔ cut name = cut name' :=
  strncmp_eq_zero_iff_take name name' DIRSIZ

/-! ## Entries on disk -/

/-- Entry `k` of directory `i`. -/
def dirent (s : State) (i k : Nat) : Dirent :=
  Dirent.decode (fileBytes s i (direntSize * k) direntSize)

/-- The entries of directory `i`. -/
def entries (s : State) (i : Nat) : List Dirent :=
  (List.range ((s.dinode i).size / direntSize)).map (dirent s i)

/-- An entry in use with the given name. -/
def Dirent.is (name : List UInt8) (de : Dirent) : Bool := de.inum != 0 && cut name == cut de.name

/-- The inode that a name stands for in directory `i`. -/
def named (s : State) (i : Nat) (name : List UInt8) : Option Nat :=
  ((entries s i).find? (Dirent.is name)).map Dirent.inum

theorem Dirent.is_iff {name : List UInt8} {de : Dirent} :
    de.is name = true ↔ de.inum ≠ 0 ∧ namecmp name de.name = 0 := by
  simp [Dirent.is, namecmp_eq_zero_iff]

variable {s s' : State} {base : InodePtr → Nat} {held : Multiset InodePtr} {L : Finset InodePtr}
  {dp : InodePtr} {E : Stop → Prop} {i : Nat} {name : List UInt8}

theorem fileBytes_congr (hdin : s'.dinode i = s.dinode i) (hdata : s'.data = s.data) (off n : Nat) :
    fileBytes s' i off n = fileBytes s i off n := by
  refine List.map_congr_left fun k _ => ?_
  rw [fileByte, fileByte, hdata]
  simp only [filePlace]
  split <;> simp only [place, hdin]

theorem named_congr (hdin : s'.dinode i = s.dinode i) (hdata : s'.data = s.data) (name : List UInt8) :
    named s' i name = named s i name := by
  have hentry : dirent s' i = dirent s i := by
    funext k
    rw [dirent, dirent, fileBytes_congr hdin hdata]
  rw [named, named, entries, entries, hdin, hentry]

/-- The first entry with the name has index `k`. -/
theorem named_of_first {k : Nat} (hk : k < (s.dinode i).size / direntSize)
    (hfound : (dirent s i k).is name = true) (hfirst : ∀ m < k, (dirent s i m).is name = false) :
    named s i name = some (dirent s i k).inum := by
  have hfind : (entries s i).find? (Dirent.is name) = some (dirent s i k) := by
    rw [List.find?_eq_some_iff_getElem]
    refine ⟨hfound, k, by simpa [entries] using hk, by simp [entries], fun m hm => ?_⟩
    simp [entries, hfirst m hm]
  rw [named, hfind]
  rfl

theorem named_of_none (hnone : ∀ m < (s.dinode i).size / direntSize, (dirent s i m).is name = false) :
    named s i name = none := by
  rw [named, Option.map_eq_none_iff, List.find?_eq_none]
  intro de hde
  obtain ⟨m, hm, rfl⟩ := List.mem_map.mp hde
  simp [hnone m (List.mem_range.mp hm)]

/-! ## Reading entries -/

theorem rounds_eq (size : Nat) :
    rounds size = size / direntSize ∨ rounds size = size / direntSize + 1 ∧ size % direntSize ≠ 0 := by
  simp only [rounds, direntSize, DIRSIZ]
  omega

/-- The bytes of a locked inode are the ones on disk. -/
theorem At.bytesAt_eq (h : At base held L s) (hdp : dp ∈ L) (off n : Nat) :
    bytesAt s dp off n = fileBytes s (s.itable dp).inum off n := by
  refine List.map_congr_left fun k _ => ?_
  rw [fileByte, byteAt, blockAt, placeAt, h.logical_eq hdp]

/-- `readDirent` returns an entry on disk, and stops if there is only a part of one. -/
theorem readDirent_reads (h : At base held L s) (hdp : dp ∈ L) {msg : String} {k : Nat}
    (hk : k < rounds (s.dinode (s.itable dp).inum).size)
    (hE : (s.dinode (s.itable dp).inum).size / direntSize ≤ k → E (.panic msg)) :
    (readDirent dp (direntSize * k) msg).Ends E
      (fun de s' => s' = s ∧ k < (s.dinode (s.itable dp).inum).size / direntSize ∧
        de = dirent s (s.itable dp).inum k) s := by
  have hf := h.filled hdp
  have hsmall := hf.small
  have hmax : MAXFILE * BSIZE + 2 * direntSize < 2 ^ 32 := by decide
  have hrounds := rounds_eq (s.dinode (s.itable dp).inum).size
  rw [h.din_eq hdp] at hsmall
  have hdiv := Nat.div_mul_le_self (s.dinode (s.itable dp).inum).size direntSize
  have hle : k ≤ (s.dinode (s.itable dp).inum).size / direntSize := by omega
  have hoff : direntSize * k ≤ (s.dinode (s.itable dp).inum).size := by
    rw [Nat.mul_comm]
    exact Nat.le_trans (Nat.mul_le_mul_right direntSize hle) hdiv
  rw [readDirent, Prog.ends_bind]
  refine (readi_ends_of_blocks hf.maps hf.small fun x _ _ hx => hf.full x hx).mono
    fun bs t ⟨ht, hbs⟩ => ?_
  rw [ht, hbs (by omega), h.din_eq hdp, h.bytesAt_eq hdp]
  by_cases hlt : k < (s.dinode (s.itable dp).inum).size / direntSize
  · have hmin : min direntSize ((s.dinode (s.itable dp).inum).size - direntSize * k) = direntSize := by
      have := Nat.mul_le_mul_right direntSize (show k + 1 ≤ _ from hlt)
      rw [Nat.add_mul, Nat.one_mul, Nat.mul_comm k] at this
      omega
    rw [hmin, if_neg (by simp [fileBytes]), Prog.ends_pure]
    exact ⟨rfl, hlt, rfl⟩
  · have hlt : (s.dinode (s.itable dp).inum).size / direntSize ≤ k := Nat.le_of_not_lt hlt
    have hless : (s.dinode (s.itable dp).inum).size - direntSize * k < direntSize := by
      simp only [direntSize, DIRSIZ] at hlt ⊢
      omega
    rw [if_pos (by simp only [fileBytes, List.length_map, List.length_range]; omega),
      Prog.ends_panic]
    exact hE hlt

/-- `dirlookup` of a locked directory: it returns the inode of a name, referenced once more, and stops
    if the inode table is full or if there is only a part of the last entry. -/
theorem dirlookup_finds (h : At base held L s) (hdp : dp ∈ L) (name : List UInt8)
    (hdir : (s.dinode (s.itable dp).inum).type = .dir)
    (hshort : named s (s.itable dp).inum name = none →
      (s.dinode (s.itable dp).inum).size % direntSize ≠ 0 → E (.panic "dirlookup read"))
    (hfull : ∀ j, named s (s.itable dp).inum name = some j →
      (∀ ip, 0 < (s.itable ip).ref ∧ (s.itable ip).inum ≠ j) → E (.panic "iget: no inodes")) :
    (dirlookup dp name).Ends E
      (fun r s' => match r with
        | none => s' = s ∧ named s (s.itable dp).inum name = none ∧
          (s.dinode (s.itable dp).inum).size % direntSize = 0
        | some (ip, _) => named s (s.itable dp).inum name = some (s'.itable ip).inum ∧
          At base (ip ::ₘ held) L s' ∧ Frees ∅ s s') s := by
  rw [dirlookup, inode, Prog.ends_bind, Prog.ends_gets, h.din_eq hdp, if_neg fun hd => hd hdir]
  have hrounds := rounds_eq (s.dinode (s.itable dp).inum).size
  -- none of the entries read so far has the name
  refine (Prog.ends_findUp
    (J := fun k t => t = s ∧ k ≤ rounds (s.dinode (s.itable dp).inum).size ∧
      (∀ m < k, (dirent s (s.itable dp).inum m).is name = false) ∧
      k ≤ (s.dinode (s.itable dp).inum).size / direntSize)
    (Q := fun r s' => named s (s.itable dp).inum name = some (s'.itable r.1).inum ∧
      At base (r.1 ::ₘ held) L s' ∧ Frees ∅ s s')
    (fun k t _ hk hJ => ?_) ⟨rfl, Nat.zero_le _, fun m hm => absurd hm (Nat.not_lt_zero m),
      Nat.zero_le _⟩).mono fun r s' hr => ?_
  · obtain ⟨ht, -, hbefore, hle⟩ := hJ
    rw [ht, Prog.ends_bind]
    refine (readDirent_reads h hdp (by omega) fun hge => ?_).mono ?_
    · have hk' : k = (s.dinode (s.itable dp).inum).size / direntSize := Nat.le_antisymm hle hge
      exact hshort (named_of_none fun m hm => hbefore m (hk' ▸ hm)) (by omega)
    · rintro de t₁ ⟨ht₁, hlt, hde⟩
      rw [ht₁]
      split
      · rename_i hc
        have hfound := named_of_first hlt (hde ▸ Dirent.is_iff.mpr hc) hbefore
        rw [← hde] at hfound
        rw [Prog.ends_bind]
        refine (iget_finds h de.inum (hfull _ hfound)).mono ?_
        rintro ip s' ⟨hat, hfrees, hinum⟩
        rw [Prog.ends_pure]
        exact ⟨by rw [hfound, hinum], hat, hfrees⟩
      · rename_i hc
        rw [Prog.ends_pure]
        refine ⟨rfl, by omega, fun m hm => ?_, hlt⟩
        rcases Nat.lt_succ_iff_lt_or_eq.mp hm with hm | rfl
        · exact hbefore m hm
        · exact Bool.eq_false_iff.mpr fun his => hc (Dirent.is_iff.mp (hde ▸ his))
  · cases r with
    | none =>
      obtain ⟨hs', -, hbefore, hle⟩ := hr
      refine ⟨hs', named_of_none fun m hm => hbefore m (by omega), ?_⟩
      rcases hrounds with heq | ⟨heq, -⟩
      · simp only [rounds, direntSize, DIRSIZ] at heq ⊢
        omega
      · omega
    | some r => exact hr

end Xv6.Fs
