import Mathlib.Data.List.GetD
import Mathlib.Data.List.Nodup
import Xv6.Kernel.Log

/-!
# Crash atomicity of the log

`view g disk` is the disk as a recovery would leave it: a block named by the header on disk has
the contents of its log block, every other block its own. Every single write of `commit` and
of `recover_from_log` leaves the view of the home blocks as it is, with one exception: the first
`write_head` of a commit applies the whole transaction to it.
-/

namespace Xv6.Log

open TransitionSystem
open Prog (wp_after wp_bind wp_for wp_gets wp_modify wp_mono)

variable {g : Area} {d d' : Nat → Block}

/-! ## The disk as a recovery leaves it -/

/-- The position of block `b` in the header on disk. -/
def logIndex (g : Area) (d : Nat → Block) (b : Nat) : Option Nat :=
  (List.range (d g.start 0)).find? fun i => d g.start (i + 1) = b

/-- The contents of block `b` after a recovery. -/
def view (g : Area) (d : Nat → Block) (b : Nat) : Block :=
  match logIndex g d b with
  | some i => d (g.start + i + 1)
  | none => d b

/-- The header on disk names distinct home blocks, and there is a log block for each. -/
structure HeadOk (g : Area) (d : Nat → Block) : Prop where
  fits : d g.start 0 ≤ g.size - 1
  home : ∀ i < d g.start 0, ¬ g.contains (d g.start (i + 1))
  inj : ∀ i < d g.start 0, ∀ j < d g.start 0, d g.start (i + 1) = d g.start (j + 1) → i = j

variable {b : Nat}

theorem logIndex_eq_some {i : Nat} (h : logIndex g d b = some i) :
    i < d g.start 0 ∧ d g.start (i + 1) = b := by
  have hm := List.mem_of_find?_eq_some h
  have hp := List.find?_some h
  exact ⟨List.mem_range.mp hm, by simpa using hp⟩

theorem logIndex_eq_none :
    logIndex g d b = none ↔ ∀ i < d g.start 0, d g.start (i + 1) ≠ b := by
  simp [logIndex, List.find?_eq_none]

theorem view_of_clear (h : d g.start 0 = 0) (b : Nat) : view g d b = d b := by
  have hnone : logIndex g d b = none := logIndex_eq_none.mpr fun i hi => by omega
  rw [view, hnone]

theorem headOk_of_clear (h : d g.start 0 = 0) : HeadOk g d where
  fits := by omega
  home i hi := by omega
  inj i hi := by omega

theorem start_contains (g : Area) : g.contains g.start := ⟨Nat.le_refl _, by have := g.pos; omega⟩

theorem logBlock_contains {i : Nat} (h : i < g.size - 1) : g.contains (g.start + i + 1) := by
  constructor <;> omega

/-- The header and the log blocks it uses determine the position of a block. -/
theorem logIndex_congr (h : d' g.start = d g.start) (b : Nat) : logIndex g d' b = logIndex g d b := by
  rw [logIndex, logIndex, h]

theorem HeadOk.congr (hok : HeadOk g d) (h : d' g.start = d g.start) : HeadOk g d' where
  fits := h ▸ hok.fits
  home := h ▸ hok.home
  inj := h ▸ hok.inj

/-! ## Single writes -/

/-- Storing the log block of a logged block at its home changes nothing for a recovery. -/
theorem view_install (hok : HeadOk g d) {i : Nat} (hi : i < d g.start 0)
    (hd' : d' = upd d (d g.start (i + 1)) (d (g.start + i + 1))) :
    d' g.start = d g.start ∧ (∀ k < g.size - 1, d' (g.start + k + 1) = d (g.start + k + 1)) ∧
      ∀ b, view g d' b = view g d b := by
  have hlog : ∀ k, g.contains k → d' k = d k := by
    intro k hk
    have hne : k ≠ d g.start (i + 1) := fun heq => hok.home i hi (heq ▸ hk)
    rw [hd', upd_of_ne hne]
  have hhead := hlog g.start (start_contains g)
  have hblocks : ∀ k < g.size - 1, d' (g.start + k + 1) = d (g.start + k + 1) :=
    fun k hk => hlog _ (logBlock_contains hk)
  refine ⟨hhead, hblocks, fun b => ?_⟩
  have hfits := hok.fits
  rw [view, view, logIndex_congr hhead]
  cases hb : logIndex g d b with
  | some j =>
    obtain ⟨hj, -⟩ := logIndex_eq_some hb
    exact hblocks j (by omega)
  | none =>
    have hne : b ≠ d g.start (i + 1) := (logIndex_eq_none.mp hb i hi).symm
    show d' b = d b
    rw [hd', upd_of_ne hne]

/-- Clearing the header when everything is installed changes nothing for a recovery. -/
theorem view_clear (hinst : ∀ i < d g.start 0, d (d g.start (i + 1)) = d (g.start + i + 1))
    (hd' : d' g.start 0 = 0) (hsame : ∀ b, ¬ g.contains b → d' b = d b) (hb : ¬ g.contains b) :
    view g d' b = view g d b := by
  rw [view_of_clear hd', hsame b hb, view]
  cases hi : logIndex g d b with
  | none => rfl
  | some i =>
    obtain ⟨hlt, rfl⟩ := logIndex_eq_some hi
    exact hinst i hlt

/-- Home blocks have the contents `V` after a recovery. -/
def Recovers (g : Area) (V d : Nat → Block) : Prop :=
  HeadOk g d ∧ ∀ b, ¬ g.contains b → view g d b = V b

/-! ## Installing a committed transaction -/

variable {V : Nat → Block} {s x : Store} {I : Store → Prop} {E : Stop → Prop}

/-- `log.lh` is the header on disk, and the log blocks in the cache are those on disk. -/
structure Ready (g : Area) (V : Nat → Block) (s : Store) : Prop where
  recovers : Recovers g V s.disk
  n : s.lh.n = s.disk g.start 0
  block : ∀ i < s.lh.n, s.lh.block i = s.disk g.start (i + 1)
  cached : ∀ i < s.lh.n, s.cache (g.start + i + 1) = s.disk (g.start + i + 1)

/-- The first `tail` blocks are installed. -/
structure Installed (g : Area) (V : Nat → Block) (s : Store) (tail : Nat) (x : Store) : Prop where
  ready : Ready g V x
  lh : x.lh = s.lh
  written : s.written <:+ x.written
  done : ∀ i < tail, x.disk (x.lh.block i) = x.disk (g.start + i + 1)

/-- The home locations are written and the log is empty. -/
structure Clear (g : Area) (V : Nat → Block) (x : Store) : Prop where
  head : x.disk g.start 0 = 0
  home : ∀ b, ¬ g.contains b → x.disk b = V b
  lh : x.lh.n = 0

/-- One round of `install_trans`. -/
theorem Installed.write {tail : Nat} (h : Installed g V s tail x) (htail : tail < x.lh.n) :
    Installed g V s (tail + 1) (x.write (x.lh.block tail) (x.cache (g.start + tail + 1))) := by
  obtain ⟨⟨hok, hview⟩, hn, hblock, hcached⟩ := h.ready
  have hfits := hok.fits
  have hi : tail < x.disk g.start 0 := hn ▸ htail
  rw [hblock tail htail, hcached tail htail]
  obtain ⟨hhead, hlog, hview'⟩ := view_install hok hi rfl
  have hne : ∀ k < x.lh.n, g.start + k + 1 ≠ x.disk g.start (tail + 1) := by
    intro k hk heq
    exact hok.home tail hi (heq ▸ logBlock_contains (by omega))
  refine ⟨⟨⟨hok.congr hhead, fun b hb => (hview' b).trans (hview b hb)⟩, ?_, ?_, ?_⟩, h.lh, ?_, ?_⟩
  · exact hn.trans (congrFun hhead 0).symm
  · exact fun i hlt => (hblock i hlt).trans (congrFun hhead (i + 1)).symm
  · intro i hlt
    simp only [Store.write] at hlt ⊢
    rw [upd_of_ne (hne i hlt), upd_of_ne (hne i hlt)]
    exact hcached i hlt
  · exact h.written.trans (List.suffix_cons ..)
  · intro i hlt
    simp only [Store.write]
    rw [hlog i (by omega)]
    rcases Nat.lt_succ_iff_lt_or_eq.mp hlt with hlt | rfl
    · by_cases heq : x.lh.block i = x.disk g.start (tail + 1)
      · have hij := hok.inj i (by omega) tail hi ((hblock i (by omega)).symm.trans heq)
        omega
      · rw [upd_of_ne heq]
        exact h.done i hlt
    · rw [hblock i htail, upd_self]

/-- `install_trans` installs every block of the header, and a crash on the way loses nothing. -/
theorem installTrans_wp (hI : ∀ x, Recovers g V x.disk → s.written <:+ x.written → I x)
    (h : Ready g V s) : (installTrans g).wp I E (fun _ x => Installed g V s s.lh.n x) s := by
  have hinv : ∀ i x, Installed g V s i x → I x := fun i x hx => hI x hx.ready.recovers hx.written
  have hstart : Installed g V s 0 s := ⟨h, rfl, List.suffix_refl _, fun i hi => by omega⟩
  have hs := hinv 0 s hstart
  simp only [installTrans, getHead, wp_bind, wp_gets]
  refine ⟨hs, hs, ?_⟩
  refine wp_for hinv (fun i x hlt hx => ?_) hstart
  have hnext := hx.write (by rw [hx.lh]; omega)
  have hblock : x.lh.block i = s.lh.block i := by rw [hx.lh]
  rw [hblock] at hnext
  have hx' := hinv i x hx
  simp only [bread, bwrite, wp_bind, wp_gets, wp_modify]
  exact ⟨hx', hx', hx', hinv _ _ hnext, hnext⟩

/-- Clearing the header when everything is installed. -/
theorem Installed.clear (h : Installed g V s s.lh.n x) :
    Clear g V (x.clear.write g.start (x.clear.lh.encode (x.cache g.start))) := by
  obtain ⟨⟨hok, hview⟩, hn, hblock, hcached⟩ := h.ready
  have hinst : ∀ i < x.disk g.start 0,
      x.disk (x.disk g.start (i + 1)) = x.disk (g.start + i + 1) := by
    intro i hi
    rw [← hblock i (by omega)]
    exact h.done i (by rw [← h.lh]; omega)
  have hsame : ∀ b, ¬ g.contains b →
      (x.clear.write g.start (x.clear.lh.encode (x.cache g.start))).disk b = x.disk b := by
    intro b hb
    have hne : b ≠ g.start := fun heq => hb (heq ▸ start_contains g)
    exact upd_of_ne hne _
  have hzero : (x.clear.write g.start (x.clear.lh.encode (x.cache g.start))).disk g.start 0 = 0 := by
    simp [Store.write, Store.clear, Header.encode]
  refine ⟨hzero, fun b hb => ?_, rfl⟩
  rw [← hview b hb, ← view_clear hinst hzero hsame hb, view_of_clear hzero]

theorem Clear.recovers (h : Clear g V x) : Recovers g V x.disk :=
  ⟨headOk_of_clear h.head, fun b hb => (view_of_clear h.head b).trans (h.home b hb)⟩

theorem writeHead_wp (h : I s) (h' : I (s.write g.start (s.lh.encode (s.cache g.start)))) :
    (writeHead g).wp I E (fun _ x => x = s.write g.start (s.lh.encode (s.cache g.start))) s := by
  simp only [writeHead, getHead, bread, bwrite, wp_bind, wp_gets, wp_modify]
  exact ⟨h, h, h, h, h, h', trivial⟩

/-- `install_trans` and the `write_head` that clears the log. -/
theorem installClear_wp {Q : Unit → Store → Prop}
    (hI : ∀ x, Recovers g V x.disk → s.written <:+ x.written → I x)
    (hQ : ∀ x, Clear g V x → s.written <:+ x.written → Q () x) (h : Ready g V s) :
    (do installTrans g; clearHead; writeHead g : Prog Store Unit).wp I E Q s := by
  rw [wp_bind]
  refine wp_mono (fun _ x hx hdone => ?_) (installTrans_wp hI h)
  have hclear := hdone.clear
  have hsuf : s.written <:+ g.start :: x.written := hdone.written.trans (List.suffix_cons ..)
  have hx' : I x.clear := hI _ hdone.ready.recovers hdone.written
  rw [wp_bind, clearHead, wp_modify]
  refine ⟨hx, hx', wp_mono (fun _ y _ hy => ?_) (writeHead_wp hx' (hI _ hclear.recovers hsuf))⟩
  rw [hy]
  exact hQ _ hclear hsuf

/-! ## Recovery -/

/-- `recover_from_log` on a disk that recovers to `V`; a crash leaves such a disk again. -/
theorem recoverFromLog_wp (h : Recovers g V d) :
    (recoverFromLog g).wp (fun x => Recovers g V x.disk) E (fun _ x => Clear g V x) (.boot d) := by
  have hread : (readHead g).wp (fun x => Recovers g V x.disk) E (fun _ x => Ready g V x) (.boot d) := by
    simp only [readHead, bread, wp_bind, wp_gets, wp_modify]
    exact ⟨h, h, h, h, h, rfl, fun i hi => if_pos hi, fun i _ => rfl⟩
  rw [recoverFromLog, wp_bind]
  exact wp_mono
    (fun _ x _ hx => installClear_wp (fun _ hy _ => hy) (fun _ hy _ => hy) hx) hread

/-- Recoveries that are cut short any number of times. -/
theorem recovers_recrash (ks : List Nat) (h : Recovers g V d) : Recovers g V (Run.recrash g d ks) := by
  induction ks generalizing d with
  | nil => exact h
  | cons k ks ih => exact ih (wp_after (E := fun _ => False) k (recoverFromLog_wp h))

/-! ## Writing the log -/

/-- The blocks of `log.lh` are distinct home blocks, and there is a log block for each. -/
structure HeaderOk (g : Area) (lh : Header) : Prop where
  fits : lh.n ≤ g.size - 1
  home : ∀ i < lh.n, ¬ g.contains (lh.block i)
  inj : ∀ i < lh.n, ∀ j < lh.n, lh.block i = lh.block j → i = j

/-- The first `tail` log blocks are written; nothing else has changed. -/
structure Logged (g : Area) (s : Store) (tail : Nat) (x : Store) : Prop where
  lh : x.lh = s.lh
  head : x.disk g.start = s.disk g.start
  disk : ∀ b, ¬ g.contains b → x.disk b = s.disk b
  cache : ∀ b, ¬ g.contains b → x.cache b = s.cache b
  written : g.start ∉ x.written
  log : ∀ i < tail, x.disk (g.start + i + 1) = s.cache (s.lh.block i) ∧
    x.cache (g.start + i + 1) = s.cache (s.lh.block i)

/-- One round of `write_log`. -/
theorem Logged.write (hok : HeaderOk g s.lh) {tail : Nat} (h : Logged g s tail x)
    (htail : tail < s.lh.n) :
    Logged g s (tail + 1) (x.write (g.start + tail + 1) (x.cache (s.lh.block tail))) := by
  have hfits := hok.fits
  have hin : g.contains (g.start + tail + 1) := logBlock_contains (by omega)
  have hne : ∀ b, ¬ g.contains b → b ≠ g.start + tail + 1 := fun b hb heq => hb (heq ▸ hin)
  have hstart : g.start ≠ g.start + tail + 1 := by omega
  refine ⟨h.lh, ?_, fun b hb => ?_, fun b hb => ?_, ?_, fun i hi => ?_⟩
  · exact (upd_of_ne hstart _).trans h.head
  · exact (upd_of_ne (hne b hb) _).trans (h.disk b hb)
  · exact (upd_of_ne (hne b hb) _).trans (h.cache b hb)
  · simp only [Store.write, List.mem_cons, not_or]
    exact ⟨hstart, h.written⟩
  · simp only [Store.write]
    rw [h.cache _ (hok.home tail htail)]
    by_cases heq : i = tail
    · rw [heq, upd_self, upd_self]
      exact ⟨rfl, rfl⟩
    · have hi' : g.start + i + 1 ≠ g.start + tail + 1 := by omega
      rw [upd_of_ne hi', upd_of_ne hi']
      exact h.log i (by omega)

theorem writeLog_wp (hok : HeaderOk g s.lh) (hw : g.start ∉ s.written)
    (hI : ∀ i x, Logged g s i x → I x) :
    (writeLog g).wp I E (fun _ x => Logged g s s.lh.n x) s := by
  have hstart : Logged g s 0 s :=
    ⟨rfl, rfl, fun _ _ => rfl, fun _ _ => rfl, hw, fun i hi => by omega⟩
  have hs := hI 0 s hstart
  simp only [writeLog, getHead, wp_bind, wp_gets]
  refine ⟨hs, hs, ?_⟩
  refine wp_for hI (fun i x hlt hx => ?_) hstart
  have hnext := hx.write hok (by omega)
  have hx' := hI i x hx
  simp only [bread, bwrite, wp_bind, wp_gets, wp_modify]
  exact ⟨hx', hx', hx', hI _ _ hnext, hnext⟩

/-! ## Commit -/

/-- The block is in `log.lh`. -/
def Header.names (lh : Header) (b : Nat) : Prop := ∃ i < lh.n, lh.block i = b

instance (lh : Header) (b : Nat) : Decidable (lh.names b) :=
  inferInstanceAs (Decidable (∃ i < lh.n, lh.block i = b))

/-- The disk with the blocks of `log.lh` as they are in the cache. -/
def Store.commitView (s : Store) (b : Nat) : Block := if s.lh.names b then s.cache b else s.disk b

/-- What a crash during a commit has to find. -/
def CrashOk (g : Area) (s x : Store) : Prop :=
  Recovers g (if g.start ∈ x.written then s.commitView else s.disk) x.disk

/-- The disk just after the `write_head` that commits. -/
theorem Logged.ready (hok : HeaderOk g s.lh) (h : Logged g s s.lh.n x) :
    Ready g s.commitView (x.write g.start (x.lh.encode (x.cache g.start))) := by
  have hfits := hok.fits
  have hn : (x.write g.start (x.lh.encode (x.cache g.start))).disk g.start 0 = s.lh.n := by
    simp [Store.write, Header.encode, h.lh]
  have hblock : ∀ i < s.lh.n,
      (x.write g.start (x.lh.encode (x.cache g.start))).disk g.start (i + 1) = s.lh.block i := by
    intro i hi
    have hle : i + 1 ≤ s.lh.n := hi
    simp [Store.write, Header.encode, h.lh, hle]
  have hlog : ∀ i, (x.write g.start (x.lh.encode (x.cache g.start))).disk (g.start + i + 1) =
      x.disk (g.start + i + 1) := fun i => upd_of_ne (by omega) _
  refine ⟨⟨⟨hn ▸ hfits, ?_, ?_⟩, fun b hb => ?_⟩, ?_, ?_, ?_⟩
  · intro i hi
    rw [hn] at hi
    rw [hblock i hi]
    exact hok.home i hi
  · intro i hi j hj heq
    rw [hn] at hi hj
    rw [hblock i hi, hblock j hj] at heq
    exact hok.inj i hi j hj heq
  · rw [view]
    cases hidx : logIndex g _ b with
    | some i =>
      obtain ⟨hi, hb'⟩ := logIndex_eq_some hidx
      rw [hn] at hi
      rw [hblock i hi] at hb'
      rw [Store.commitView, if_pos ⟨i, hi, hb'⟩, ← hb']
      exact (hlog i).trans (h.log i hi).1
    | none =>
      have hnot : ¬ s.lh.names b := by
        rintro ⟨i, hi, hb'⟩
        exact logIndex_eq_none.mp hidx i (hn ▸ hi) ((hblock i hi).trans hb')
      have hne : b ≠ g.start := fun heq => hb (heq ▸ start_contains g)
      rw [Store.commitView, if_neg hnot]
      exact (upd_of_ne hne _).trans (h.disk b hb)
  · rw [hn]
    exact congrArg Header.n h.lh
  · intro i hi
    simp only [Store.write, h.lh] at hi
    rw [hblock i hi]
    exact congrFun (congrArg Header.block h.lh) i
  · intro i hi
    simp only [Store.write, h.lh] at hi
    rw [hlog i]
    exact (upd_of_ne (by omega) _).trans ((h.log i hi).2.trans (h.log i hi).1.symm)

/-- Before `write_head` a crash finds the disk as it was before the commit. -/
theorem Logged.crashOk {tail : Nat} (hclear : s.disk g.start 0 = 0) (h : Logged g s tail x) :
    CrashOk g s x := by
  have hzero : x.disk g.start 0 = 0 := by rw [h.head, hclear]
  rw [CrashOk, if_neg h.written]
  exact ⟨headOk_of_clear hzero, fun b hb => (view_of_clear hzero b).trans (h.disk b hb)⟩

/-- A crash at any point of a commit recovers to the disk before it, or to the disk after it
    if the header has been written. -/
theorem commit_wp (hok : HeaderOk g s.lh) (hclear : s.disk g.start 0 = 0) (hw : g.start ∉ s.written) :
    (commit g).wp (CrashOk g s) E
      (fun _ x => Clear g (if g.start ∈ x.written then s.commitView else s.disk) x) s := by
  have hI : ∀ i x, Logged g s i x → CrashOk g s x := fun i x hx => hx.crashOk hclear
  have hs : CrashOk g s s :=
    hI 0 s ⟨rfl, rfl, fun _ _ => rfl, fun _ _ => rfl, hw, fun i hi => by omega⟩
  simp only [commit, getHead, wp_bind, wp_gets]
  refine ⟨hs, hs, ?_⟩
  split
  · rw [wp_bind]
    refine wp_mono (fun _ x hx hlog => ?_) (writeLog_wp hok hw hI)
    have hready := hlog.ready hok
    -- From here on the header has been written.
    have hafter : ∀ y, Recovers g s.commitView y.disk → g.start :: x.written <:+ y.written →
        CrashOk g s y := by
      intro y hy hsuf
      rw [CrashOk, if_pos (hsuf.subset (List.mem_cons_self ..))]
      exact hy
    have hx1 := hafter _ hready.recovers (List.suffix_refl _)
    rw [wp_bind]
    refine wp_mono (fun _ y _ hy => ?_) (writeHead_wp hx hx1)
    subst hy
    refine installClear_wp hafter (fun z hz hsuf => ?_) hready
    rwa [if_pos (hsuf.subset (List.mem_cons_self ..))]
  · rename_i hn
    rw [Prog.wp_pure, if_neg hw]
    exact ⟨hs, hclear, fun b _ => rfl, by omega⟩

/-! ## Runs -/

variable {t : Transaction g}

/-- The header that a transaction leaves to `commit`. -/
theorem headerOk_load (t : Transaction g) (s : Store) : HeaderOk g (t.load s).lh := by
  have hblock : ∀ i (hi : i < (t.updates.map Prod.fst).length),
      (t.load s).lh.block i = (t.updates.map Prod.fst)[i] := by
    intro i hi
    simp only [Transaction.load]
    rw [List.getD_eq_getElem _ _ hi]
  have hlen : (t.updates.map Prod.fst).length = (t.load s).lh.n := by simp [Transaction.load]
  refine ⟨t.fits, fun i hi => ?_, fun i hi j hj heq => ?_⟩
  · rw [hblock i (hlen ▸ hi)]
    exact t.home _ (List.getElem_mem _)
  · rw [hblock i (hlen ▸ hi), hblock j (hlen ▸ hj)] at heq
    exact (List.Nodup.getElem_inj_iff t.nodup).mp heq

theorem load_names : (t.load s).lh.names b ↔ b ∈ t.updates.map Prod.fst := by
  simp only [Header.names, Transaction.load]
  rw [List.mem_iff_getElem]
  constructor
  · rintro ⟨i, hi, rfl⟩
    have hi' : i < (t.updates.map Prod.fst).length := by simpa using hi
    exact ⟨i, hi', (List.getD_eq_getElem _ _ hi').symm⟩
  · rintro ⟨i, hi, rfl⟩
    exact ⟨i, by simpa using hi, List.getD_eq_getElem _ _ hi⟩

theorem lookup_isSome {l : List (Nat × Block)} :
    (l.lookup b).isSome = true ↔ b ∈ l.map Prod.fst := by
  induction l with
  | nil => simp
  | cons p l ih =>
    rw [List.lookup_cons, List.map_cons, List.mem_cons]
    by_cases hb : b = p.1
    · simp [hb]
    · have hbeq : (b == p.1) = false := by simpa using hb
      simp only [hbeq, hb, false_or]
      exact ih

/-- Committing a loaded transaction applies it. -/
theorem commitView_load (t : Transaction g) (s : Store) :
    (t.load s).commitView = t.apply s.disk := by
  funext b
  simp only [Store.commitView, load_names, ← lookup_isSome]
  cases hl : t.updates.lookup b with
  | none | some v => simp [Transaction.load, Transaction.apply, hl]

/-- The contents of the disk after some transactions. -/
def applyAll (d : Nat → Block) (ts : List (Transaction g)) : Nat → Block :=
  ts.foldl (fun d t => t.apply d) d

theorem apply_congr (t : Transaction g) (h : d b = d' b) : t.apply d b = t.apply d' b := by
  rw [Transaction.apply, Transaction.apply, h]

theorem Recovers.congr {V' : Nat → Block} (h : Recovers g V d) (hV : ∀ b, ¬ g.contains b → V b = V' b) :
    Recovers g V' d :=
  ⟨h.1, fun b hb => (h.2 b hb).trans (hV b hb)⟩

theorem Clear.congr {V' : Nat → Block} (h : Clear g V x) (hV : ∀ b, ¬ g.contains b → V b = V' b) :
    Clear g V' x :=
  ⟨h.head, fun b hb => (h.home b hb).trans (hV b hb), h.lh⟩

/-- The contents of a home block when the commit of `t` was left in state `x`. -/
theorem reached_home {s : Run.State g} (h : Clear g (applyAll d s.done) s.store) (t : Transaction g)
    (x : Store) (hb : ¬ g.contains b) :
    (if g.start ∈ x.written then (t.load s.store).commitView else (t.load s.store).disk) b =
      applyAll d (s.reached t x) b := by
  rw [commitView_load, Run.State.reached]
  split
  · rw [applyAll, List.foldl_append]
    exact apply_congr t (h.home b hb)
  · exact h.home b hb

/-- Every event is possible and leaves the log empty again. -/
theorem clear_step {s : Run.State g} (h : Clear g (applyAll d s.done) s.store) (e : Run.Event g) :
    ∃ s', s.step e = some s' ∧ Clear g (applyAll d s'.done) s'.store := by
  have hwp (t : Transaction g) := commit_wp (E := fun _ => False) (headerOk_load t s.store)
    (s := t.load s.store) h.head (List.not_mem_nil)
  cases e with
  | commit t =>
    have hexec := Prog.exec_of_wp (hwp t)
    rw [Run.State.step]
    cases hx : (commit g).exec (t.load s.store) with
    | stop why =>
      rw [hx] at hexec
      exact hexec.elim
    | ok r x =>
      rw [hx] at hexec
      exact ⟨_, rfl, hexec.2.congr fun b hb => reached_home h t x hb⟩
  | crash t k ks =>
    have hcrash : Recovers g (applyAll d (s.reached t _)) _ :=
      (wp_after k (hwp t)).congr fun b hb => reached_home h t _ hb
    have hexec := Prog.exec_of_wp (recoverFromLog_wp (E := fun _ => False) (recovers_recrash ks hcrash))
    rw [Run.State.step]
    cases hx : (recoverFromLog g).exec
        (.boot (Run.recrash g ((commit g).after k (t.load s.store)).disk ks)) with
    | stop why =>
      rw [hx] at hexec
      exact hexec.elim
    | ok r y =>
      rw [hx] at hexec
      exact ⟨_, rfl, hexec.2⟩

theorem clear_reachable {s : Run.State g} (h : (logRun g d).Reachable s) :
    Clear g (applyAll d s.done) s.store := by
  refine h.induct (P := fun s => Clear g (applyAll d s.done) s.store) ?_ ?_
  · rintro s ⟨hzero, rfl⟩
    exact ⟨hzero, fun _ _ => rfl, rfl⟩
  · intro s e s' _ hs _ hstep
    obtain ⟨t, ht, hclear⟩ := clear_step hs e
    obtain rfl : t = s' := Option.some.inj (ht.symm.trans hstep)
    exact hclear

/-- In every run of commits, crashes and recoveries that are themselves cut short, every home
    block has the contents after exactly the transactions whose header reached the disk; and every
    commit and every recovery runs to its end. -/
theorem crash_atomic (g : Area) (d : Nat → Block) (s : Run.State g) (h : (logRun g d).Reachable s) :
    (∀ b, ¬ g.contains b → s.store.disk b = applyAll d s.done b) ∧
      ∀ e, ∃ s', (logRun g d).step s e = some s' := by
  have hclear := clear_reachable h
  refine ⟨hclear.home, fun e => ?_⟩
  obtain ⟨s', hs', -⟩ := clear_step hclear e
  exact ⟨s', hs'⟩

/-- A log of three blocks behind the header. -/
def smallLog : Area := ⟨2, 4, by decide⟩

/-- Two home blocks get new contents. -/
def twoBlocks : Transaction smallLog where
  updates := [(10, fun _ => 7), (11, fun _ => 8)]
  nodup := by decide
  home := by decide
  fits := by decide

/-- The machine crashes just before the header is written, then just after it and in the middle of
    the recovery. -/
def crashRun : List (Run.Event smallLog) := [.crash twoBlocks 8 [], .crash twoBlocks 9 [4]]

theorem crash_atomic_recovered :
    ∃ s, (logRun smallLog fun _ _ => 0).Reachable s ∧ s.done.length = 1 ∧
      s.store.disk 10 0 = 7 ∧ s.store.disk 11 0 = 8 ∧
      s.store.disk 10 = applyAll (fun _ _ => 0) s.done 10 := by
  have hrun : ((logRun smallLog fun _ _ => 0).run ⟨.boot fun _ _ => 0, []⟩ crashRun).map
      (fun s => (s.done.length, s.store.disk 10 0, s.store.disk 11 0)) = some (1, 7, 8) := by
    decide +kernel
  obtain ⟨s, hreach, heq⟩ := exists_reachable_of_run hrun ⟨rfl, rfl⟩
  simp only [Prod.mk.injEq] at heq
  exact ⟨s, hreach, heq.1, heq.2.1, heq.2.2, (crash_atomic _ _ s hreach).1 10 (by decide)⟩

end Xv6.Log
