import Xv6.Spec.Reaping

/-!
# Free slots

`allocproc` takes a slot as `freeproc` (or boot) left it. `Clean` says what a free slot
should look like. `kill` compares only pids, and a free slot has pid 0: `kill(0)` marks the
first free slot as killed. In every run in which no round of `kill` hits a free slot, free
slots are clean, and then a new process is killed only if `kill` was called with its pid
after it was created.
-/

namespace Xv6

open TransitionSystem

variable {n : Nat}

/-- No open file and no directory. -/
def Proc.noFiles (x : Proc) : Prop := (∀ fd, x.ofile fd = 0) ∧ x.cwd = 0

/-- A slot as `freeproc` should leave it. -/
structure Proc.Clean (x : Proc) : Prop where
  pid : x.pid = 0
  parent : x.parent = none
  chan : x.chan = none
  killed : x.killed = false
  xstate : x.xstate = 0
  sz : x.sz = 0
  pagetable : x.pagetable = 0
  trapframe : x.trapframe = 0
  noFiles : x.noFiles

theorem freeproc_clean {x : Proc} (h : x.noFiles) : (freeproc x).Clean where
  pid := rfl
  parent := rfl
  chan := rfl
  killed := rfl
  xstate := rfl
  sz := rfl
  pagetable := rfl
  trapframe := rfl
  noFiles := h

/-! ## History -/

/-- The argument of a call of `kill` that this step begins. -/
def State.killCall (s : State n) (x : Fin n × Input) : Option Int :=
  match s.running x.1, s.cur x.1 with
  | .proc p, .usertrap (.syscall (.kill pid)) :: _ =>
    if (s.mem.proc p).killed then none else some (toInt pid)
  | _, _ => none

/-- The arguments of the calls of `kill` since the process in a slot was created. -/
def recordKill (s : State n) (x : Fin n × Input) (h : Slot → List Int) : Slot → List Int :=
  match s.killCall x, s.op x with
  | some pid, _ => fun z => pid :: h z
  | none, .alloc np => upd h np []
  | none, _ => h

/-- The kernel together with the calls of `kill`. -/
def killLog (n : Nat) : TransitionSystem (State n × (Slot → List Int)) (Fin n × Input) :=
  (kernel n).observe (fun _ => []) recordKill

/-- The slot and the pid that a round of `kill` compares in this step. -/
def State.killRound (s : State n) (x : Fin n × Input) : Option (Slot × Int) :=
  match s.cur x.1, State.kernelEntry x.1 x.2 with
  | .kill pid i :: _, none => forSlot i (fun q => some (q, pid)) none
  | _, _ => none

/-- The step is no round of `kill` that finds its argument in a free slot. -/
def KillSparesFree (s : State n) (x : Fin n × Input) : Prop :=
  ∀ r ∈ s.killRound x, (s.mem.proc r.1).state = .unused → (s.mem.proc r.1).pid ≠ r.2

/-- The argument of a call of `kill`. -/
def Frame.killArg : Frame → Option Int
  | .kill pid _ => some pid
  | _ => none

/-- `allocproc` is about to take a pid. -/
def Frame.allocates : Frame → Bool
  | .fork (.found _) => true
  | _ => false

/-- The step does not hand out a pid that a call of `kill` in progress is looking for. -/
def AllocSparesKill (s : State n) (x : Fin n × Input) : Prop :=
  (s.cur x.1).head?.any Frame.allocates = true →
    ∀ p, ∀ f ∈ s.stack (.proc p), f.killArg ≠ some s.mem.nextpid

instance (s : State n) (x : Fin n × Input) : Decidable (KillSparesFree s x) :=
  inferInstanceAs (Decidable (∀ r ∈ s.killRound x, _))

instance (s : State n) (x : Fin n × Input) : Decidable (AllocSparesKill s x) :=
  inferInstanceAs (Decidable (_ → ∀ p, ∀ f ∈ s.stack (.proc p), _))

/-! ## The invariant -/

/-- How many files `exit` of a process has closed. -/
def FilesOk (x : Proc) : ExitPc → Prop
  | .entry _ _ => True
  | .close _ fd => ∀ j : Fin NOFILE, j.val < fd → x.ofile j = 0
  | .closed _ fd => ∀ j : Fin NOFILE, j.val < fd.val → x.ofile j = 0
  | .iput _ => ∀ j, x.ofile j = 0
  | .swtch | .dead => True
  | _ => x.noFiles

/-- `fork` has not copied the files yet. -/
def ForkPc.early : ForkPc → Option Slot
  | .found np | .trapframe np | .pagetable np | .copy np => some np
  | _ => none

theorem ForkPc.forking_of_early {pc : ForkPc} {np : Slot} (h : pc.early = some np) :
    pc.forking = some np := by
  cases pc <;> first | exact h | cases h

/-- Free slots are clean, and slots are without files when `freeproc` is called. -/
structure Hygiene (s : State n) : Prop where
  clean : ∀ z, (s.mem.proc z).state = .unused → (s.mem.proc z).Clean
  early : ∀ p pc np, .fork pc ∈ s.stack (.proc p) → pc.early = some np →
    (s.mem.proc np).noFiles
  exiting : ∀ p pc, .exit pc ∈ s.stack (.proc p) → FilesOk (s.mem.proc p) pc
  zombie : ∀ z, (s.mem.proc z).state = .zombie → (s.mem.proc z).noFiles

/-! ## What an operation does to the files of a slot -/

/-- The ways in which a step may change `q->ofile` or `q->cwd`. -/
inductive FileTouch (m : Mem) (me : Option Slot) (f : Frame) (e : Effect) (q : Slot) : Prop
  | keep (hofile : ((e.op.apply m).proc q).ofile = (m.proc q).ofile)
      (hcwd : ((e.op.apply m).proc q).cwd = (m.proc q).cwd)
  | copy (hf : f = .fork (.copy q))
  | own (hme : me = some q) (hf : ¬ f.onSched) (hcall : f.isCall = true)
      (hplain : f.plain = true)

variable {e : Effect} {m : Mem}

theorem OpSpec.fileTouch {me : Option Slot} {f : Frame} (h : OpSpec m me f e e.op) (q : Slot) :
    FileTouch m me f e q := by
  by_cases ht : e.op.target = some q
  case neg => exact .keep (by rw [e.op.apply_proc_of_ne m ht]) (by rw [e.op.apply_proc_of_ne m ht])
  have hw := e.op.apply_proc_target m ht
  cases hop : e.op with
  | copy p np =>
    rw [hop] at h ht
    cases ht
    exact .copy h.2
  | closeFd p fd | clearCwd p =>
    rw [hop] at h ht
    cases ht
    obtain ⟨hme, st, rfl⟩ := h
    exact .own hme (by simp [Frame.onSched]) rfl rfl
  | setFd p fd v | setCwd p v =>
    rw [hop] at h ht
    cases ht
    obtain ⟨hme, rfl⟩ := h
    exact .own hme (by simp [Frame.onSched]) rfl rfl
  | _ => exact .keep (by rw [hw, hop]; rfl) (by rw [hw, hop]; rfl)

variable {s : State n} {rest : List Frame} {c : Fin n} {i : Input}

theorem Planned.fileTouch (hp : Planned s c i rest e) (q : Slot) :
    (((e.op.apply s.mem).proc q).ofile = (s.mem.proc q).ofile ∧
        ((e.op.apply s.mem).proc q).cwd = (s.mem.proc q).cwd) ∨
      ∃ f, s.cur c = f :: rest ∧ FileTouch s.mem (s.proc c) f e q := by
  by_cases hop : e.op = .skip
  · rw [hop]
    exact .inl ⟨rfl, rfl⟩
  · obtain ⟨f, hc, he⟩ := hp.exec_of_op hop
    exact .inr ⟨f, hc, (effect_opSpec he).fileTouch q⟩

/-- An operation on other fields of a slot. -/
theorem Op.files_keep {op : Op} (q : Slot)
    (h : ∀ x : Proc, (op.write m x).ofile = x.ofile ∧ (op.write m x).cwd = x.cwd) :
    ((op.apply m).proc q).ofile = (m.proc q).ofile ∧
      ((op.apply m).proc q).cwd = (m.proc q).cwd := by
  by_cases ht : op.target = some q
  · rw [op.apply_proc_target m ht]
    exact h (m.proc q)
  · rw [op.apply_proc_of_ne m ht]
    exact ⟨rfl, rfl⟩

theorem Proc.noFiles.congr {x y : Proc} (h : x.noFiles) (hk : y.ofile = x.ofile ∧ y.cwd = x.cwd) :
    y.noFiles :=
  ⟨fun fd => (congrFun hk.1 fd).trans (h.1 fd), hk.2.trans h.2⟩

theorem FilesOk.congr {x y : Proc} {pc : ExitPc} (h : FilesOk x pc)
    (hk : y.ofile = x.ofile ∧ y.cwd = x.cwd) : FilesOk y pc := by
  cases pc with
  | entry st msg | swtch | dead => trivial
  | close st fd | closed st fd => exact fun j hj => (congrFun hk.1 j).trans (h j hj)
  | iput st => exact fun j => (congrFun hk.1 j).trans (h j)
  | acquire st | reparent st i | reparentWake st i j | wakeParent st ch j | lock st | zombie st =>
    exact Proc.noFiles.congr h hk

/-- `exit` closes one file after the other and then gives up the directory. -/
theorem ExitNext.filesOk {p : Slot} {op : Op} {pc pc' : ExitPc}
    (h : ExitNext m p op pc pc') (hok : FilesOk (m.proc p) pc) :
    FilesOk ((op.apply m).proc p) pc' := by
  cases h with
  | entry st msg hinit => exact fun j hj => nomatch hj
  | close st fd => exact hok
  | next st fd hfd =>
    intro j hj
    rcases Nat.lt_succ_iff_lt_or_eq.mp hj with hj | hj
    · exact hok j hj
    · rw [Fin.ext hj]
      exact hfd
  | iput st fd hfd => exact fun j => hok j (Nat.lt_of_lt_of_le j.isLt hfd)
  | closed st fd =>
    intro j hj
    rw [Op.apply_proc_target _ _ rfl]
    show upd (m.proc p).ofile fd 0 j = 0
    rw [upd_apply]
    split
    · rfl
    · rename_i hne
      exact hok j (by have := Fin.val_ne_of_ne hne; omega)
  | cwd st =>
    rw [Op.apply_proc_target _ _ rfl]
    exact ⟨hok, rfl⟩
  | child st pp hpar => exact Proc.noFiles.congr hok (Op.files_keep p fun _ => ⟨rfl, rfl⟩)
  | wakeInit st i q | wake st ch q =>
    refine Proc.noFiles.congr hok ?_
    split
    · exact ⟨rfl, rfl⟩
    · exact Op.files_keep p fun _ => ⟨rfl, rfl⟩
  | swtch st | dead => trivial
  | reparent st | other st pp hpar | resume st i j hj | wakeParent st i hi | lock st ch j hj
  | zombie st => exact hok

/-! ## Preservation -/

section

variable {s : State n} {c : Fin n} {i : Input} {rest : List Frame} {e : Effect}
variable (hi : Inv s) (hp : Planned s c i rest e)
include hi hp

/-- The files of a slot change only while its process runs or while `fork` copies them. -/
theorem Inv.files_keep {q : Slot} (hq : (s.mem.proc q).state ≠ .used)
    (hrun : (s.mem.proc q).state ≠ .running) :
    ((e.op.apply s.mem).proc q).ofile = (s.mem.proc q).ofile ∧
      ((e.op.apply s.mem).proc q).cwd = (s.mem.proc q).cwd := by
  rcases hp.fileTouch q with hk | ⟨f, hc, ht⟩
  · exact hk
  · cases ht with
    | keep hofile hcwd => exact ⟨hofile, hcwd⟩
    | copy hf =>
      rw [hf] at hc
      obtain ⟨p, -, -, hstk⟩ := hi.exec_fork hc
      exact absurd (hi.fork p (.copy q) (mem_of_eq_cons hstk)).1 hq
    | own hme hf hcall hplain =>
      obtain ⟨hr, hstk⟩ := hi.running_of_proc hc hf hme
      have ha := hi.active c q hr
      rw [hstk, Active.of_plain hplain] at ha
      exact absurd ha hrun

variable (hh : Hygiene s)
include hh

/-- Slots that `fork` has not copied the files to. -/
theorem Hygiene.early_next (p : Slot) (pc : ForkPc) (np : Slot)
    (hm : .fork pc ∈ (s.commit c rest e).stack (.proc p)) (hpc : pc.early = some np) :
    ((e.op.apply s.mem).proc np).noFiles := by
  rcases hp.mem_stack (by simp) hm with ⟨hf, hne⟩ | ⟨hr, hf⟩
  · have hfork : pc.forking = some np := ForkPc.forking_of_early hpc
    have hnr := hi.not_running_of_forking hf hfork c
    have hold := hh.early p pc np hf hpc
    rcases hp.fileTouch np with hk | ⟨f, hc, ht⟩
    · exact hold.congr hk
    · cases ht with
      | keep hofile hcwd => exact hold.congr ⟨hofile, hcwd⟩
      | copy hf' => exact absurd hfork (hi.forking_ne hf hne (hf' ▸ hc) rfl)
      | own hme hf' hcall hplain => exact absurd (hi.running_of_proc hc hf' hme).1 hnr
  · rcases hi.fork_new hp hr hf with rfl | ⟨pc', hstk, hnext⟩
    · cases hpc
    have hmem : .fork pc' ∈ s.stack (.proc p) := mem_of_eq_cons hstk
    cases hnext with
    | alloc j hop | setParent | relock | runnable => cases hpc
    | found q hop hs hacq =>
      cases hpc
      rw [hop]
      exact (hh.clean np hs).noFiles
    | trapframe q hop | pagetable q a hop | copy q a hop =>
      cases hpc
      refine (hh.early p _ np hmem rfl).congr (Op.files_keep np fun x => ?_)
      rw [hop]
      exact ⟨rfl, rfl⟩

/-- `exit` has closed the files it has passed. -/
theorem Hygiene.exiting_next (p : Slot) (pc : ExitPc)
    (hm : .exit pc ∈ (s.commit c rest e).stack (.proc p)) :
    FilesOk ((e.op.apply s.mem).proc p) pc := by
  rcases hp.mem_stack (by simp) hm with ⟨hf, hne⟩ | ⟨hr, hf⟩
  · have hold := hh.exiting p pc hf
    rcases hp.fileTouch p with hk | ⟨f, hc, ht⟩
    · exact hold.congr hk
    · cases ht with
      | keep hofile hcwd => exact hold.congr ⟨hofile, hcwd⟩
      | copy hf' =>
        -- the stack of a slot under construction is the one `allocproc` prepared
        rw [hf'] at hc
        obtain ⟨q, -, -, hstk⟩ := hi.exec_fork hc
        have hok := hi.fork q (.copy p) (mem_of_eq_cons hstk)
        rw [hok.2, List.mem_singleton] at hf
        cases hf
      | own hme hf' hcall hplain =>
        obtain ⟨hr, hstk⟩ := hi.running_of_proc hc hf' hme
        have hnest := hi.nested (.proc p)
        rw [hstk] at hnest
        exact absurd (hne hr) (hnest.not_mem_rest hcall rfl)
  · rcases hi.exit_new hp hr hf with ⟨st, msg, rfl⟩ | ⟨pc', hstk, hnext⟩
    · trivial
    · exact hnext.filesOk (hh.exiting p pc' (mem_of_eq_cons hstk))

theorem Hygiene.zombie_next (z : Slot) (hz : ((e.op.apply s.mem).proc z).state = .zombie) :
    ((e.op.apply s.mem).proc z).noFiles := by
  rcases hi.zombie_step hp hz with hold | h
  · exact (hh.zombie z hold).congr (hi.files_keep hp (by simp [hold]) (by simp [hold]))
  · obtain ⟨st, hop, hr, hstk⟩ := h
    have hok : (s.mem.proc z).noFiles :=
      hh.exiting z (.zombie st) (mem_of_eq_cons hstk)
    refine hok.congr (Op.files_keep z fun x => ?_)
    rw [hop]
    exact ⟨rfl, rfl⟩

/-- `freeproc` is called on slots without files. -/
theorem Hygiene.free_noFiles {np : Slot} (hop : e.op = .free np) :
    (s.mem.proc np).noFiles := by
  obtain ⟨f, hc, -, hspec⟩ := hp.opSpec hop (by simp)
  have hearly : ∃ pc : ForkPc, f = .fork pc ∧ pc.early = some np := by
    rcases hspec with hf | hf | hf
    · exact ⟨_, hf, rfl⟩
    · exact ⟨_, hf, rfl⟩
    · exact ⟨_, hf, rfl⟩
  obtain ⟨pc, hf, hpc⟩ := hearly
  rw [hf] at hc
  obtain ⟨p, -, -, hstk⟩ := hi.exec_fork hc
  exact hh.early p pc np (mem_of_eq_cons hstk) hpc

/-- The operations on a slot that was free and stays free. -/
theorem Hygiene.write_free (hk : ∀ q pid, e.op = .kill q pid → (s.mem.proc q).state ≠ .unused)
    {z : Slot} (ht : e.op.target = some z) (hz : (s.mem.proc z).state = .unused)
    (hz' : (e.op.write s.mem (s.mem.proc z)).state = .unused) :
    (∃ ch, e.op = .wakeup ch z) ∨ e.op = .chargeSleep z ∨ e.op = .charge z := by
  obtain ⟨f, hc, he⟩ := hp.exec_of_op (by intro hop; rw [hop] at ht; cases ht)
  have hspec := effect_opSpec he
  -- no process runs in a free slot
  have hown : s.proc c = some z → (∀ l pc, f ≠ .scheduler l pc) → False := fun hme hf =>
    (hi.active c z (hi.running_of_not_scheduler hc hf hme)).created.1 hz
  have hused : ∀ pc : ForkPc, f = .fork pc → pc.forking = some z → pc ≠ .found z → False := by
    rintro pc rfl hpc hne
    obtain ⟨p, -, -, hstk⟩ := hi.exec_fork hc
    have hok := hi.fork p pc (mem_of_eq_cons hstk)
    exact nomatch (hok.used hpc hne).symm.trans hz
  cases hop : e.op with
  | skip | copyMsg | tick | setPolicy => rw [hop] at ht; cases ht
  | wakeup ch q => rw [hop] at ht; cases ht; exact .inl ⟨ch, rfl⟩
  | chargeSleep q => rw [hop] at ht; cases ht; exact .inr (.inl rfl)
  | charge q => rw [hop] at ht; cases ht; exact .inr (.inr rfl)
  | alloc | setRunnable | dispatch | yield | sleep | zombie => rw [hop] at hz'; cases hz'
  | kill q pid => rw [hop] at ht; cases ht; exact absurd hz (hk z pid hop)
  | reap p pp a a2 =>
    rw [hop] at ht hspec
    cases ht
    exact nomatch hspec.2.2.1.symm.trans hz
  | reparent p pp =>
    rw [hop] at ht hspec
    cases ht
    exact nomatch (hh.clean z hz).parent.symm.trans hspec.2.1
  | free np =>
    rw [hop] at ht hspec
    cases ht
    rcases hspec with hf | hf | hf
    · exact (hused _ hf rfl (by simp)).elim
    · exact (hused _ hf rfl (by simp)).elim
    · exact (hused _ hf rfl (by simp)).elim
  | setTrapframe np a | setPagetable np a =>
    rw [hop] at ht hspec
    cases ht
    exact (hused _ hspec.1 rfl (by simp)).elim
  | copy p np =>
    rw [hop] at ht hspec
    cases ht
    exact (hused _ hspec.2 rfl (by simp)).elim
  | setParent p np =>
    rw [hop] at ht hspec
    cases ht
    obtain ⟨-, -, pid, hf⟩ := hspec
    exact (hused _ hf rfl (by simp)).elim
  | awake p =>
    rw [hop] at ht hspec
    cases ht
    obtain ⟨hme, ch, lk, rfl⟩ := hspec
    exact (hown hme (by simp)).elim
  | closeFd p fd | clearCwd p =>
    rw [hop] at ht hspec
    cases ht
    obtain ⟨hme, st, rfl⟩ := hspec
    exact (hown hme (by simp)).elim
  | accumulate p =>
    rw [hop] at ht hspec
    cases ht
    obtain ⟨hme, rfl | rfl⟩ := hspec
    · exact (hown hme (by simp)).elim
    · exact (hown hme (by simp)).elim
  | setkilled p | exitMsg p st msg | setPsPriority p k | setCfsPriority p k | setFd p fd v
  | setCwd p v | setMem p sz pt =>
    rw [hop] at ht hspec
    cases ht
    obtain ⟨hme, rfl⟩ := hspec
    exact (hown hme (by simp)).elim

/-- Free slots stay clean. -/
theorem Hygiene.clean_next (hk : ∀ q pid, e.op = .kill q pid → (s.mem.proc q).state ≠ .unused)
    (z : Slot) (hz : ((e.op.apply s.mem).proc z).state = .unused) :
    ((e.op.apply s.mem).proc z).Clean := by
  by_cases ht : e.op.target = some z
  case neg =>
    rw [e.op.apply_proc_of_ne s.mem ht] at hz ⊢
    exact hh.clean z hz
  rw [e.op.apply_proc_target s.mem ht] at hz ⊢
  rcases Op.write_unused hz with ⟨np, hop⟩ | ⟨p, pp, a, a2, hop⟩ | hold
  · rw [hop] at ht ⊢
    cases ht
    exact freeproc_clean (hh.free_noFiles hi hp hop)
  · rw [hop] at ht ⊢
    cases ht
    exact freeproc_clean (hh.zombie z (hp.reap_spec hop).2.2)
  · obtain ⟨h₁, h₂, h₃, h₄, h₅, h₆, h₇, h₈, h₉⟩ := hh.clean z hold
    rcases hh.write_free hi hp hk ht hold hz with ⟨ch, hop⟩ | hop | hop <;> rw [hop] <;>
      exact ⟨h₁, h₂, h₃, h₄, h₅, h₆, h₇, h₈, h₉⟩

end

/-! ## Calls of kill -/

/-- A call of `kill` in progress and a new process that is killed are in the log. -/
structure Logged (s : State n) (h : Slot → List Int) : Prop where
  calls : ∀ z p pid j, (s.mem.proc z).state ≠ .unused → .kill pid j ∈ s.stack (.proc p) →
    (s.mem.proc z).pid = pid → pid ∈ h z
  killed : ∀ p pc np, .fork pc ∈ s.stack (.proc p) → pc.forking = some np → pc ≠ .found np →
    (s.mem.proc np).killed = true → (s.mem.proc np).pid ∈ h np

variable {x : Fin n × Input} {pid : Int} {s' : State n}
variable {h : Slot → List Int}

/-- The log of a slot is cleared by `allocproc` only. -/
theorem mem_recordKill {z : Slot} (hop : s.op x ≠ .alloc z) (hm : pid ∈ h z) : pid ∈ recordKill s x h z := by
  unfold recordKill
  cases s.killCall x with
  | some k => exact List.mem_cons_of_mem _ hm
  | none =>
    cases hx : s.op x with
    | alloc np =>
      have hne : z ≠ np := fun heq => hop (heq ▸ hx)
      show pid ∈ upd h np [] z
      rwa [upd_of_ne hne]
    | _ => exact hm

theorem mem_recordKill_call (hk : s.killCall x = some pid) (z : Slot) : pid ∈ recordKill s x h z := by
  unfold recordKill
  rw [hk]
  exact List.mem_cons_self

/-- `kill` marks the process it finds, and a process marks itself in `usertrap`. -/
theorem Op.write_killed {x : Proc} {op : Op} (h : (op.write m x).killed = true) :
    x.killed = true ∨ (∃ q pid, op = .kill q pid) ∨ ∃ p, op = .setkilled p := by
  cases op with
  | kill q pid => exact .inr (.inl ⟨q, pid, rfl⟩)
  | setkilled p => exact .inr (.inr ⟨p, rfl⟩)
  | free np => cases h
  | reap p pp a a2 => cases h
  | _ => exact .inl h

section

variable {s : State n} {c : Fin n} {i : Input} {rest : List Frame} {e : Effect}
variable (hi : Inv s) (hp : Planned s c i rest e)
include hi hp

/-- A new frame of `kill` continues a call or is a call that the log records. -/
theorem Inv.kill_new {p : Slot} {j : Nat} (hr : s.running c = .proc p) (hm : .kill pid j ∈ e.frames) :
    (∃ k, s.stack (.proc p) = .kill pid k :: rest) ∨ s.killCall (c, i) = some pid := by
  cases hp with
  | user q fs hr' hc hfs =>
    have := (userEntry_spec q hfs).1 _ hm
    cases this
  | kernel fs hne hlock hfs =>
    have := (kernelEntry_spec (s.running c) hfs).1 _ hm
    cases this
  | exec f rest e hc he =>
    rcases (effect_frameSpec (hi.ready hc) he).syscall _ hm rfl with hfn | ⟨pc, rfl⟩
    · cases f with
      | kill pid' k =>
        cases hfn
        exact .inl ⟨k, by rw [← hr, ← State.cur, hc]⟩
      | _ => cases hfn
    · right
      have hme := hi.thread c p hr
      rw [hme] at he
      cases he
      cases pc with
      | syscall sc =>
        simp only [usertrapStep] at hm
        split at hm
        · simp [exitKilled] at hm
        · rename_i hkilled
          cases sc <;> simp [Syscall.frame] at hm
          simp [State.killCall, hr, hc, hkilled, hm]
      | setkilled | update | accumulate | ret => simp [usertrapStep] at hm
      | killed t =>
        simp only [usertrapStep] at hm
        split at hm
        · simp [exitKilled] at hm
        · split at hm <;> simp at hm

variable {h : Slot → List Int} (hop : s.op (c, i) = e.op) (hl : Logged s h)
include hop hl

theorem Logged.calls_next (ha : AllocSparesKill s (c, i)) (z p : Slot) (pid : Int) (j : Nat)
    (hz : ((e.op.apply s.mem).proc z).state ≠ .unused)
    (hm : .kill pid j ∈ (s.commit c rest e).stack (.proc p))
    (hpid : ((e.op.apply s.mem).proc z).pid = pid) : pid ∈ recordKill s (c, i) h z := by
  have hcase : (∃ k, .kill pid k ∈ s.stack (.proc p)) ∨ s.killCall (c, i) = some pid := by
    rcases hp.mem_stack (by simp) hm with ⟨hf, -⟩ | ⟨hr, hf⟩
    · exact .inl ⟨j, hf⟩
    · rcases hi.kill_new hp hr hf with ⟨k, hstk⟩ | hk
      · exact .inl ⟨k, mem_of_eq_cons hstk⟩
      · exact .inr hk
  rcases hcase with ⟨k, hold⟩ | hk
  case inr => exact mem_recordKill_call hk z
  rcases hi.used_step hp hz with hused | halloc
  · have hne : s.op (c, i) ≠ .alloc z := fun h => hused (hi.alloc_unused hp (hop ▸ h))
    refine mem_recordKill hne (hl.calls z p pid k hused hold ?_)
    rw [← hi.pid_step hp hused hz, hpid]
  · -- the pid would be the one that `allocproc` has just handed out
    obtain ⟨f, hc, -, hspec⟩ := hp.opSpec halloc (by simp)
    rw [halloc, Op.apply_proc_target _ _ rfl] at hpid
    refine absurd ?_ (ha ?_ p _ hold)
    · rw [← hpid]
      rfl
    · rw [hc, hspec]
      rfl

theorem Logged.killed_next (hh : Hygiene s) (p : Slot) (pc : ForkPc) (np : Slot)
    (hm : .fork pc ∈ (s.commit c rest e).stack (.proc p)) (hpc : pc.forking = some np)
    (hne : pc ≠ .found np) (hk : ((e.op.apply s.mem).proc np).killed = true) :
    ((e.op.apply s.mem).proc np).pid ∈ recordKill s (c, i) h np := by
  rcases hp.mem_stack (by simp) hm with ⟨hf, hin⟩ | ⟨hr, hf⟩
  · have hused := (hi.fork p pc hf).used hpc hne
    have hused' : ((e.op.apply s.mem).proc np).state = .used :=
      (hi.forkOk_keep hp hf hin).used hpc hne
    have halloc : s.op (c, i) ≠ .alloc np := fun h =>
      nomatch hused.symm.trans (hi.alloc_unused hp (hop ▸ h))
    rw [hi.pid_step hp (by simp [hused]) (by simp [hused'])]
    refine mem_recordKill halloc ?_
    by_cases ht : e.op.target = some np
    case neg =>
      rw [e.op.apply_proc_of_ne s.mem ht] at hk
      exact hl.killed p pc np hf hpc hne hk
    rw [e.op.apply_proc_target s.mem ht] at hk
    rcases Op.write_killed hk with hk | ⟨q, pid, hop'⟩ | ⟨q, hop'⟩
    · exact hl.killed p pc np hf hpc hne hk
    · -- a call of `kill` that finds the process was made after it was created
      rw [hop'] at ht
      cases ht
      obtain ⟨f, hc, he, hspec⟩ := hp.opSpec hop' (by simp)
      obtain ⟨hpid, rfl, -⟩ := hspec
      obtain ⟨r, -, -, hstk⟩ := hi.running_of_not_onSched hc (by simp [Frame.onSched])
      rw [hpid]
      exact hl.calls np r pid np (by simp [hused]) (mem_of_eq_cons hstk) hpid
    · rw [hop'] at ht
      cases ht
      obtain ⟨f, hc, -, hspec⟩ := hp.opSpec hop' (by simp)
      obtain ⟨hme, rfl⟩ := hspec
      exact absurd (hi.running_of_proc hc (by simp [Frame.onSched]) hme).1
        (hi.not_running_of_forking hf hpc c)
  · rcases hi.fork_new hp hr hf with rfl | ⟨pc', hstk, hnext⟩
    · cases hpc
    have hmem : .fork pc' ∈ s.stack (.proc p) := mem_of_eq_cons hstk
    -- after `allocproc` has taken the slot, `fork` stores neither `killed` nor `pid`
    have hkeep : pc'.forking = some np → pc' ≠ .found np → e.op ≠ .alloc np →
        (((e.op.apply s.mem).proc np).killed = (s.mem.proc np).killed) →
        (((e.op.apply s.mem).proc np).pid = (s.mem.proc np).pid) →
        ((e.op.apply s.mem).proc np).pid ∈ recordKill s (c, i) h np := by
      intro hpc' hne' halloc hkill hpid
      rw [hpid]
      refine mem_recordKill (hop ▸ halloc) (hl.killed p pc' np hmem hpc' hne' ?_)
      rw [← hkill, hk]
    cases hnext with
    | alloc j hop' => cases hpc
    | found q hop' hs hacq => cases hpc; exact absurd rfl hne
    | trapframe q hop' =>
      cases hpc
      rw [hop', Op.apply_proc_target _ _ rfl] at hk
      have hclean := hh.clean np (hi.fork p (.found np) hmem)
      exact nomatch hclean.killed.symm.trans hk
    | pagetable q a hop' | copy q a hop' | setParent q r hme hop' | relock q r pid hme hop' =>
      cases hpc
      refine hkeep rfl (by simp) (by simp [hop']) ?_ ?_ <;>
        rw [hop', Op.apply_proc_target _ _ rfl] <;> rfl
    | runnable q pid hop' =>
      cases hpc
      refine hkeep rfl (by simp) (by simp [hop']) ?_ ?_ <;> rw [hop'] <;> rfl

end

/-! ## Runs -/

/-- A round of `kill` writes to the slot whose pid it finds. -/
theorem Planned.kill_op_iff (hp : Planned s c i rest e) {q : Slot} :
    e.op = .kill q pid ↔ s.killRound (c, i) = some (q, pid) ∧ (s.mem.proc q).pid = pid := by
  constructor
  · intro hop
    cases hp with
    | user p fs hr hc hfs | kernel fs hne hlock hfs => cases hop
    | exec f rest e hc he hk =>
      have hspec := effect_opSpec he
      rw [hop] at hspec
      obtain ⟨hpid, rfl, -⟩ := hspec
      exact ⟨by simp [State.killRound, hc, hk, forSlot], hpid⟩
  · rintro ⟨hround, hpid⟩
    unfold State.killRound at hround
    split at hround
    · rename_i pid' j r hc hk
      unfold forSlot at hround
      split at hround
      · rename_i hj
        cases hround
        cases hp with
        | user p fs hr hc' hfs => cases hc'.symm.trans hc
        | kernel fs hne hlock hfs => cases hfs.symm.trans hk
        | exec f rest e hc' he _ =>
          cases hc'.symm.trans hc
          obtain ⟨p, hme, he⟩ := Option.bind_eq_some_iff.mp he
          cases he
          simp [killStep, forSlot, hj, hpid]
      · cases hround
    · cases hround

theorem hygiene_boot (b : Boot) : Hygiene (State.boot n b) := by
  constructor
  · intro z hz
    by_cases h0 : z = 0
    · rw [h0, boot_state_init] at hz
      cases hz
    · rw [boot_proc_of_ne b h0]
      exact ⟨rfl, rfl, rfl, rfl, rfl, rfl, rfl, rfl, fun _ => rfl, rfl⟩
  · intro p pc np hm
    exact nomatch mem_boot_stack hm
  · intro p pc hm
    exact nomatch mem_boot_stack hm
  · intro z hz
    by_cases h0 : z = 0
    · rw [h0, boot_state_init] at hz
      cases hz
    · rw [boot_proc_of_ne b h0] at hz
      cases hz

theorem logged_boot (b : Boot) : Logged (State.boot n b) fun _ => [] := by
  constructor
  · intro z p pid j _ hm
    exact nomatch mem_boot_stack hm
  · intro p pc np hm
    exact nomatch mem_boot_stack hm

/-- A round of `kill` that spares free slots writes to no free slot. -/
theorem KillSparesFree.not_unused (hk : KillSparesFree s (c, i)) (hp : Planned s c i rest e) (q : Slot)
    (pid : Int) (hop : e.op = .kill q pid) : (s.mem.proc q).state ≠ .unused := by
  obtain ⟨hround, hpid⟩ := hp.kill_op_iff.mp hop
  exact fun hs => hk (q, pid) hround hs hpid

/-- One step keeps free slots clean. -/
theorem Hygiene.step (hi : Inv s) (hh : Hygiene s) (hk : KillSparesFree s x) (hs : s.step x = some s') :
    Hygiene s' := by
  obtain ⟨rest, e, hp, -, -, rfl⟩ := hi.step_commit hs
  exact
    { clean := hh.clean_next hi hp (hk.not_unused hp)
      early := hh.early_next hi hp
      exiting := hh.exiting_next hi hp
      zombie := hh.zombie_next hi hp }

theorem Logged.step (hi : Inv s) (hh : Hygiene s)
    (hl : Logged s h) (ha : AllocSparesKill s x) (hs : s.step x = some s') :
    Logged s' (recordKill s x h) := by
  obtain ⟨rest, e, hp, -, hop, rfl⟩ := hi.step_commit hs
  exact
    { calls := hl.calls_next hi hp hop ha
      killed := hl.killed_next hi hp hop hh }

/-- The runs in which `kill` finds no free slot and no pid is handed out that a call of `kill`
    in progress is looking for. -/
def SparingKill (x : State n × (Slot → List Int)) (i : Fin n × Input) : Prop :=
  KillSparesFree x.1 i ∧ AllocSparesKill x.1 i

instance (x : State n × (Slot → List Int)) (i : Fin n × Input) : Decidable (SparingKill x i) :=
  inferInstanceAs (Decidable (_ ∧ _))

theorem hygiene_reachable {x : State n × (Slot → List Int)}
    (hr : (killLog n).ReachableBy SparingKill x) : Hygiene x.1 ∧ Logged x.1 x.2 := by
  refine ReachableBy.induct (P := fun x => Hygiene x.1 ∧ Logged x.1 x.2) ?_ ?_ hr
  · rintro ⟨s, h⟩ ⟨⟨b, rfl⟩, rfl⟩
    exact ⟨hygiene_boot b, logged_boot b⟩
  · rintro x i y hx ⟨hh, hl⟩ ⟨hk, ha⟩ hs
    obtain ⟨hs, hy⟩ := observe_step.mp hs
    have hi := inv_reachable (reachable_of_observe hx)
    rw [hy]
    exact ⟨hh.step hi hk hs, hl.step hi hh ha hs⟩

/-- A step from a state with clean free slots keeps them clean exactly if it is no round of
    `kill` that finds a free slot. -/
theorem Hygiene.clean_iff (hi : Inv s) (hh : Hygiene s) (hs : s.step x = some s') :
    (∀ z, (s'.mem.proc z).state = .unused → (s'.mem.proc z).Clean) ↔ KillSparesFree s x := by
  refine ⟨fun hclean => ?_, fun hk => (hh.step hi hk hs).clean⟩
  rintro ⟨q, pid⟩ hround hfree hpid
  obtain ⟨rest, e, hp, -, -, rfl⟩ := hi.step_commit hs
  have hop := hp.kill_op_iff.mpr ⟨hround, hpid⟩
  have hproc : (s.commit x.1 rest e).mem.proc q = (Op.kill q pid).write s.mem (s.mem.proc q) := by
    show (e.op.apply s.mem).proc q = _
    rw [hop, Op.apply_proc_target _ _ rfl]
  have hq := hclean q (by rw [hproc]; simp [Op.write, hfree])
  rw [hproc] at hq
  cases hq.killed

/-- In every run in which no round of `kill` finds a free slot and no pid is handed out that a
    call of `kill` in progress is looking for: free slots are clean, and a process is killed
    when `fork` makes it `RUNNABLE` only if `kill` was called with its pid after it was
    created. From a state of such a run, a step leaves the free slots clean exactly if it is
    no round of `kill` that finds a free slot. -/
theorem free_slots_clean {x : State n × (Slot → List Int)}
    (hr : (killLog n).ReachableBy SparingKill x) :
    (∀ z, (x.1.mem.proc z).state = .unused → (x.1.mem.proc z).Clean) ∧
    (∀ i y parent np, (killLog n).step x i = some y → x.1.op i = .setRunnable parent np →
      (y.1.mem.proc np).killed = true → (y.1.mem.proc np).pid ∈ y.2 np) ∧
    (∀ i s', (kernel n).step x.1 i = some s' →
      ((∀ z, (s'.mem.proc z).state = .unused → (s'.mem.proc z).Clean) ↔
        KillSparesFree x.1 i)) := by
  obtain ⟨hh, hl⟩ := hygiene_reachable hr
  have hi := inv_reachable (reachable_of_observe hr)
  refine ⟨hh.clean, ?_, fun i s' hs => hh.clean_iff hi hs⟩
  intro i y parent np hs hop hk
  obtain ⟨hs, hy⟩ := observe_step.mp hs
  obtain ⟨rest, e, hp, -, hope, hs'⟩ := hi.step_commit hs
  have hop' : e.op = .setRunnable parent np := hope.symm.trans hop
  have hproc : y.1.mem.proc np =
      (Op.setRunnable parent np).write x.1.mem (x.1.mem.proc np) := by
    rw [hs']
    show (e.op.apply x.1.mem).proc np = _
    rw [hop', Op.apply_proc_target _ _ rfl]
  obtain ⟨f, hc, -, hspec⟩ := hp.opSpec hop' (by simp)
  obtain ⟨-, pid, rfl⟩ := hspec
  obtain ⟨p, -, -, hstk⟩ := hi.exec_fork hc
  rw [hproc] at hk
  rw [hproc, hy]
  refine mem_recordKill (by rw [hop]; simp) ?_
  exact hl.killed p (.runnable np pid) np (mem_of_eq_cons hstk) rfl (by simp) hk

/-- Free slots are clean after `forkRun`, which meets the condition. -/
theorem free_slots_clean_fork : ∃ x : State 2 × (Slot → List Int),
    (killLog 2).runBy SparingKill (State.boot 2 ⟨1, 2, 3, 0⟩, fun _ => []) forkRun = some x ∧
      (x.1.mem.proc 1).state = .runnable ∧
      ∀ z, (x.1.mem.proc z).state = .unused → (x.1.mem.proc z).Clean := by
  have hrun : ((killLog 2).runBy SparingKill (State.boot 2 ⟨1, 2, 3, 0⟩, fun _ => []) forkRun).map
      (fun x => (x.1.mem.proc 1).state) = some .runnable := by decide +kernel
  obtain ⟨x, hx, hstate⟩ := Option.map_eq_some_iff.mp hrun
  have hr : (killLog 2).ReachableBy SparingKill x :=
    reachableBy_runBy (.init ⟨⟨_, rfl⟩, rfl⟩) hx
  exact ⟨x, hx, hstate, (free_slots_clean hr).1⟩

/-- The first process calls `kill(0)`, which finds the free slot 1. -/
def killZeroRun : List (Fin 2 × Input) :=
  List.replicate 5 (0, .run) ++ [(0, .syscall (.kill 0))] ++ List.replicate 3 (0, .run)

/-- After `kill(0)` the free slot 1 is killed, and the child with pid 2 that is then forked
    into it starts out killed although the only call of `kill` had the argument 0. -/
theorem kill_zero_marks_free_slot :
    ((killLog 2).run (State.boot 2 ⟨1, 2, 3, 0⟩, fun _ => []) killZeroRun).map
      (fun x => ((x.1.mem.proc 1).state, (x.1.mem.proc 1).killed)) = some (.unused, true) ∧
    ((killLog 2).run (State.boot 2 ⟨1, 2, 3, 0⟩, fun _ => []) (killZeroRun ++ forkAgainRun)).map
      (fun x => ((x.1.mem.proc 1).state, (x.1.mem.proc 1).killed, (x.1.mem.proc 1).pid,
        x.2 1)) = some (.runnable, true, 2, []) := by
  decide +kernel

end Xv6
