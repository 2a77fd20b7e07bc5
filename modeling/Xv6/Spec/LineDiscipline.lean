import Xv6.Kernel.Console

/-!
# The line discipline of the console

`Editor` is a line editor with three lists in mind instead of a ring: what was committed, what is
still being edited, and how much of the committed input the readers have taken. `Edits` says that the
ring of `cons` holds just that, also after its indices have wrapped.

A call of `consoleread` returns a line, a part of one, or nothing for a `^D`. A call that has copied
the part of a line with which the buffer was full sleeps with it, though; if another call takes the
rest of the line, the first one goes on with the next line.

* `Orderly`: nobody takes input while another call sleeps with a part of a line.
* `consoleread_lines`: under this condition the calls return the committed input, line by line.
* `consoleread_mixes_lines`: without it, a call returns bytes of two lines.
-/

namespace Xv6

open TransitionSystem

namespace Console

/-! ## The reference editor -/

/-- A line editor. -/
structure Editor where
  /-- everything that was committed, with its `^D`s -/
  committed : List UInt8
  /-- the line that is being edited -/
  pending : List UInt8
  /-- how much of `committed` was taken -/
  consumed : Nat

namespace Editor

/-- What was committed and not taken yet. -/
def unread (ed : Editor) : List UInt8 := ed.committed.drop ed.consumed

/-- What the buffer has to hold. -/
def size (ed : Editor) : Nat := ed.unread.length + ed.pending.length

/-- A character at the end of the line, and the end of the line if it is one. -/
def append (ed : Editor) (ch : UInt8) : Editor :=
  if ch = newline ∨ ch = ctrl 'D' ∨ ed.size + 1 = INPUT_BUF_SIZE then
    { ed with committed := ed.committed ++ (ed.pending ++ [ch]), pending := [] }
  else { ed with pending := ed.pending ++ [ch] }

/-- A character is typed. -/
def type (ed : Editor) (ch : UInt8) : Editor :=
  if ch = ctrl 'P' then ed
  else if ch = ctrl 'U' then { ed with pending := [] }
  else if ch = ctrl 'H' ∨ ch = 127 then { ed with pending := ed.pending.dropLast }
  else if ch ≠ 0 ∧ ed.size < INPUT_BUF_SIZE then ed.append (if ch = 13 then newline else ch)
  else ed

/-- `k` committed characters are taken. -/
def consume (ed : Editor) (k : Nat) : Editor := { ed with consumed := ed.consumed + k }

end Editor

/-- The ring holds the text of the editor. -/
structure Edits (c : Cons) (ed : Editor) : Prop where
  whole : WrapRing.between c.buf INPUT_BUF_SIZE c.r c.e = ed.unread ++ ed.pending
  write : (c.w - c.r).toNat = ed.unread.length
  room : (c.e - c.r).toNat ≤ INPUT_BUF_SIZE
  line : newline ∉ ed.pending
  consumed : ed.consumed ≤ ed.committed.length

theorem dvd_range : INPUT_BUF_SIZE ∣ 2 ^ 32 := by decide

namespace Edits

variable {c : Cons} {ed : Editor}

section

variable (h : Edits c ed)
include h

theorem dist : (c.e - c.r).toNat = ed.size := by
  have hlen := congrArg List.length h.whole
  rwa [WrapRing.length_between, List.length_append] at hlen

theorem unread_eq_nil : c.r = c.w ↔ ed.unread = [] := by
  rw [eq_comm, ← List.length_eq_zero_iff, ← h.write, ← sub_eq_zero, ← BitVec.toNat_inj]
  rfl

theorem pending_length : (c.e - c.w).toNat = ed.pending.length := by
  have hdist : (c.e - c.r).toNat = ed.unread.length + ed.pending.length := h.dist
  have hle : c.w - c.r ≤ c.e - c.r := by
    rw [BitVec.le_def, hdist, h.write]
    exact Nat.le_add_right _ _
  rw [← sub_sub_sub_cancel_right c.e c.w c.r, BitVec.toNat_sub_of_le hle, hdist, h.write,
    Nat.add_sub_cancel_left]

theorem pending_eq_nil : c.e = c.w ↔ ed.pending = [] := by
  rw [← List.length_eq_zero_iff, ← h.pending_length, ← sub_eq_zero, ← BitVec.toNat_inj]
  rfl

/-- `cons.e--`: the last character of the line goes, and it is no newline. -/
theorem drop (hne : c.e ≠ c.w) :
    c.buf ((c.e - 1#32).toNat % INPUT_BUF_SIZE) ≠ newline ∧
      Edits { c with e := c.e - 1#32 } { ed with pending := ed.pending.dropLast } := by
  have hpending : ed.pending ≠ [] := fun h0 => hne (h.pending_eq_nil.mpr h0)
  have hpos := List.length_pos_iff.mpr hpending
  have hdist : (c.e - c.r).toNat = ed.unread.length + ed.pending.length := h.dist
  have her : c.e ≠ c.r := by
    intro heq
    rw [heq, sub_self] at hdist
    have : (0#32).toNat = 0 := rfl
    simp only [BitVec.ofNat_eq_ofNat] at hdist
    omega
  have hlast : WrapRing.between c.buf INPUT_BUF_SIZE c.r c.e = _ := WrapRing.between_last dvd_range her
  have hsplit := List.dropLast_concat_getLast hpending
  rw [h.whole, ← hsplit, ← List.append_assoc] at hlast
  obtain ⟨hinit, hch⟩ := List.append_inj' hlast rfl
  rw [List.cons.injEq] at hch
  refine ⟨?_, ⟨hinit.symm, h.write, ?_, ?_, h.consumed⟩⟩
  · rw [← hch.1]
    exact fun heq => h.line (heq ▸ List.getLast_mem hpending)
  · have hroom := h.room
    have hdrop := WrapRing.dist_drop her
    show (c.e - 1#32 - c.r).toNat ≤ INPUT_BUF_SIZE
    omega
  · exact fun hmem => h.line (List.mem_of_mem_dropLast hmem)

end

/-- `^U` takes back the whole line. -/
theorem killLine (k : Nat) (h : Edits c ed) (hk : ed.pending.length = k) :
    Edits (c.killLine k) { ed with pending := [] } := by
  induction k generalizing c ed with
  | zero =>
    rw [List.length_eq_zero_iff] at hk
    rw [← hk]
    exact h
  | succ k ih =>
    have hne : c.e ≠ c.w := by
      intro heq
      rw [h.pending_eq_nil.mp heq] at hk
      cases hk
    obtain ⟨hch, hdrop⟩ := h.drop hne
    have hrest := ih hdrop (by simp [hk])
    rw [Cons.killLine, if_pos ⟨hne, hch⟩]
    exact hrest

/-- A character is stored, and committed if the editor commits it. -/
theorem store (h : Edits c ed) (hroom : ed.size < INPUT_BUF_SIZE) (ch : UInt8) :
    Edits (if (c.store ch).commits ch then { c.store ch with w := (c.store ch).e } else c.store ch)
      (ed.append ch) := by
  have hdist := h.dist
  have hlt : (c.e - c.r).toNat < INPUT_BUF_SIZE := by omega
  have hsize : INPUT_BUF_SIZE = 128 := rfl
  have hpush : WrapRing.between (c.store ch).buf INPUT_BUF_SIZE c.r (c.e + 1#32) =
      ed.unread ++ (ed.pending ++ [ch]) := by
    rw [← List.append_assoc, ← h.whole]
    exact WrapRing.between_push dvd_range (by decide) hlt
  have hnew : (c.e + 1#32 - c.r).toNat = ed.size + 1 := by
    rw [WrapRing.dist_push (by omega), hdist]
  -- both see the same end of the line
  have hiff : (c.store ch).commits ch ↔
      ch = newline ∨ ch = ctrl 'D' ∨ ed.size + 1 = INPUT_BUF_SIZE := by
    have hfull : c.e + 1#32 - c.r = BitVec.ofNat 32 INPUT_BUF_SIZE ↔ ed.size + 1 = INPUT_BUF_SIZE := by
      rw [← hnew, ← BitVec.toNat_inj]
      rfl
    exact or_congr Iff.rfl (or_congr Iff.rfl hfull)
  by_cases hc : (c.store ch).commits ch
  · rw [if_pos hc, Editor.append, if_pos (hiff.mp hc)]
    have hunread : (ed.committed ++ (ed.pending ++ [ch])).drop ed.consumed =
        ed.unread ++ (ed.pending ++ [ch]) :=
      List.drop_append_of_le_length h.consumed
    refine ⟨?_, ?_, ?_, List.not_mem_nil, ?_⟩
    · show WrapRing.between (c.store ch).buf INPUT_BUF_SIZE c.r (c.e + 1#32) =
        (ed.committed ++ (ed.pending ++ [ch])).drop ed.consumed ++ []
      rw [hpush, hunread, List.append_nil]
    · show (c.e + 1#32 - c.r).toNat = ((ed.committed ++ (ed.pending ++ [ch])).drop ed.consumed).length
      rw [hunread, hnew, Editor.size]
      simp [Nat.add_assoc]
    · show (c.e + 1#32 - c.r).toNat ≤ INPUT_BUF_SIZE
      omega
    · have hcons := h.consumed
      show ed.consumed ≤ (ed.committed ++ (ed.pending ++ [ch])).length
      rw [List.length_append]
      omega
  · rw [if_neg hc, Editor.append, if_neg (fun h => hc (hiff.mpr h))]
    refine ⟨hpush, h.write, ?_, ?_, h.consumed⟩
    · show (c.e + 1#32 - c.r).toNat ≤ INPUT_BUF_SIZE
      omega
    · intro hmem
      obtain hmem | hmem := List.mem_append.mp hmem
      · exact h.line hmem
      · exact hc (.inl (List.mem_singleton.mp hmem).symm)

/-- `consoleintr` is the editor. -/
theorem intr (h : Edits c ed) (ch : UInt8) : Edits (c.intr ch).1 (ed.type ch) := by
  have hdist := h.dist
  simp only [Cons.intr, Editor.type]
  split
  · exact h
  split
  · exact h.killLine _ h.pending_length.symm
  split
  · dsimp only
    split
    · rename_i hne
      exact (h.drop hne).2
    · rename_i heq
      rw [not_ne_iff] at heq
      have hnil := h.pending_eq_nil.mp heq
      rw [hnil, List.dropLast_nil, ← hnil]
      exact h
  rw [hdist]
  split
  · rename_i hroom
    generalize (if ch = 13 then newline else ch) = ch'
    have hstore := h.store hroom.2 ch'
    split <;> rename_i hc
    · rwa [if_pos hc] at hstore
    · rwa [if_neg hc] at hstore
  · exact h

/-- `cons.r++`: the next committed character is taken. -/
theorem pop (h : Edits c ed) (hne : c.r ≠ c.w) :
    ed.unread = c.buf (c.r.toNat % INPUT_BUF_SIZE) :: (ed.consume 1).unread ∧
      Edits { c with r := c.r + 1#32 } (ed.consume 1) := by
  have hunread : ed.unread ≠ [] := fun h0 => hne (h.unread_eq_nil.mpr h0)
  have htail : (ed.consume 1).unread = ed.unread.tail := by
    rw [← List.drop_one, Editor.unread, Editor.unread, List.drop_drop]
    rfl
  have hpos := List.length_pos_iff.mpr hunread
  have hdist : (c.e - c.r).toNat = ed.unread.length + ed.pending.length := h.dist
  have her : c.e ≠ c.r := by
    intro heq
    rw [heq, sub_self] at hdist
    simp only [BitVec.ofNat_eq_ofNat, BitVec.toNat_ofNat] at hdist
    omega
  have hfirst : WrapRing.between c.buf INPUT_BUF_SIZE c.r c.e = _ := WrapRing.between_pop dvd_range her
  have hsplit := List.cons_head_tail hunread
  rw [h.whole, ← hsplit, List.cons_append, List.cons.injEq] at hfirst
  refine ⟨by rw [← hfirst.1, htail, hsplit], ⟨?_, ?_, ?_, h.line, ?_⟩⟩
  · rw [htail]
    exact hfirst.2.symm
  · have hpop := WrapRing.dist_pop (Ne.symm hne)
    have hw := h.write
    rw [htail, List.length_tail]
    show (c.w - (c.r + 1#32)).toNat = _
    omega
  · have hpop := WrapRing.dist_pop her
    have hroom := h.room
    show (c.e - (c.r + 1#32)).toNat ≤ _
    omega
  · have hlen : ed.unread.length = ed.committed.length - ed.consumed := List.length_drop
    have hcons := h.consumed
    show ed.consumed + 1 ≤ ed.committed.length
    omega

end Edits

/-! ## A call of `consoleread` -/

/-- No character that ends a line. -/
def Inline (cs : List UInt8) : Prop := ∀ x ∈ cs, x ≠ newline ∧ x ≠ ctrl 'D'

/-- At most one line, and no `^D`. -/
def OneLine (cs : List UInt8) : Prop := newline ∉ cs.dropLast ∧ ctrl 'D' ∉ cs

variable {cs : List UInt8} {ch : UInt8}

theorem Inline.oneLine_concat (h : Inline cs) (hch : ch ≠ ctrl 'D') :
    OneLine (cs ++ [ch]) := by
  refine ⟨?_, ?_⟩
  · rw [List.dropLast_concat]
    exact fun hmem => (h _ hmem).1 rfl
  · rw [List.mem_append, List.mem_singleton]
    rintro (hmem | heq)
    · exact (h _ hmem).2 rfl
    · exact hch heq.symm

theorem Inline.oneLine (h : Inline cs) : OneLine cs :=
  ⟨fun hmem => (h _ (List.mem_of_mem_dropLast hmem)).1 rfl, fun hmem => (h _ hmem).2 rfl⟩

/-- A call that has not returned: it has room left and has not seen the end of a line. -/
structure Read.Ok (rd : Read) : Prop where
  dst : ∀ i, rd.dst i = true
  count : rd.target = rd.n + rd.got.length
  target : 0 < rd.target
  line : Inline rd.got

/-- What the loop makes of a call: it has taken `sent`, and it sleeps with the part of a line, returns
    a line or a part of one, or returns nothing for a `^D`. -/
structure Took (rd : Read) (c : Cons) (ed : Editor) (sent : List UInt8) (out : Stop × Read × Cons) :
    Prop where
  edits : Edits out.2.2 (ed.consume sent.length)
  unread : ed.unread = sent ++ (ed.consume sent.length).unread
  moved : out.2.2.r = c.r + BitVec.ofNat 32 sent.length
  count : out.2.1.target = out.2.1.n + out.2.1.got.length
  ends : out.1 = .wait ∧ out.2.1.Ok ∧ 0 < out.2.1.n ∧ out.2.1.got = rd.got ++ sent ∨
    out.1 = .done ∧ out.2.1.got ≠ [] ∧ OneLine out.2.1.got ∧ out.2.1.got = rd.got ++ sent ∨
    out.1 = .done ∧ rd.got = [] ∧ out.2.1.got = [] ∧ sent = [ctrl 'D']

variable {c : Cons} {sent : List UInt8} {out : Stop × Read × Cons}
variable {rd : Read} {ed : Editor}

theorem Took.length_moved (h : Took rd c ed sent out) (hc : Edits c ed) :
    (out.2.2.r - c.r).toNat = sent.length := by
  have hle : sent.length ≤ ed.unread.length := by
    rw [h.unread, List.length_append]
    omega
  have hdist : (c.e - c.r).toNat = ed.unread.length + ed.pending.length := hc.dist
  have hroom := hc.room
  have hsize : INPUT_BUF_SIZE = 128 := rfl
  exact (WrapRing.eq_add_iff (by omega)).mp h.moved

theorem Took.take (h : Took rd c ed sent out) :
    ed.committed.take (ed.consumed + sent.length) = ed.committed.take ed.consumed ++ sent := by
  have hdrop : ed.committed.drop ed.consumed = _ := h.unread
  rw [List.take_add, hdrop, List.take_left]

theorem Took.cons (hunread : ed.unread = ch :: (ed.consume 1).unread)
    (h : Took { rd with n := rd.n - 1, got := rd.got ++ [ch] } { c with r := c.r + 1#32 } (ed.consume 1)
      sent out) : Took rd c ed (ch :: sent) out := by
  have hconsume : (ed.consume 1).consume sent.length = ed.consume (ch :: sent).length := by
    simp only [Editor.consume, List.length_cons, Nat.add_assoc, Nat.add_comm 1]
  have happend : rd.got ++ [ch] ++ sent = rd.got ++ ch :: sent := by simp
  refine ⟨hconsume ▸ h.edits, ?_, ?_, h.count, ?_⟩
  · rw [hunread, h.unread, hconsume]
    rfl
  · have hr : out.2.2.r = c.r + 1#32 + BitVec.ofNat 32 sent.length := h.moved
    rw [hr, List.length_cons, add_assoc, Nat.add_comm, BitVec.ofNat_add]
  · rw [← happend]
    obtain hends | hends | ⟨-, hgot, -⟩ := h.ends
    · exact .inl hends
    · exact .inr (.inl hends)
    · simp at hgot

theorem loop_took (k : Nat) (h : Edits c ed) (hrd : rd.Ok) (hk : rd.n = k) :
    ∃ sent, Took rd c ed sent (rd.loop k c) := by
  induction k generalizing rd c ed with
  | zero =>
    -- `target` bytes were copied
    have hcount := hrd.count
    have hpos := hrd.target
    have hgot : rd.got ≠ [] := by
      intro h0
      rw [h0, hk] at hcount
      simp at hcount
      omega
    refine ⟨[], h, rfl, (add_zero c.r).symm, hcount, .inr (.inl ⟨rfl, hgot, hrd.line.oneLine, ?_⟩)⟩
    exact (List.append_nil _).symm
  | succ k ih =>
    by_cases hempty : c.r = c.w
    · rw [Read.loop, if_pos hempty]
      refine ⟨[], h, rfl, (add_zero c.r).symm, hrd.count, .inl ⟨rfl, hrd, ?_, ?_⟩⟩
      · show 0 < rd.n
        omega
      · exact (List.append_nil _).symm
    · obtain ⟨hunread, hpop⟩ := h.pop hempty
      have hcount := hrd.count
      rw [Read.loop, if_neg hempty]
      dsimp only
      generalize c.buf (c.r.toNat % INPUT_BUF_SIZE) = ch at hunread ⊢
      split
      · rename_i hch
        subst hch
        split
        · -- the `^D` is put back for the next call
          rename_i hlt
          have hgot : rd.got ≠ [] := by
            intro h0
            simp only [h0, List.length_nil, Nat.cast_zero] at hcount
            omega
          have hback : c.r + 1#32 - 1#32 = c.r := add_sub_cancel_right _ _
          rw [hback]
          exact ⟨[], h, rfl, (add_zero c.r).symm, hcount,
            .inr (.inl ⟨rfl, hgot, hrd.line.oneLine, (List.append_nil _).symm⟩)⟩
        · rename_i hlt
          have hgot : rd.got = [] := by
            rw [← List.length_eq_zero_iff]
            omega
          exact ⟨[ctrl 'D'], hpop, hunread, rfl, hcount, .inr (.inr ⟨rfl, hgot, hgot, rfl⟩)⟩
      · rename_i hch
        rw [if_neg (by simp [hrd.dst])]
        have hcount' : rd.target = rd.n - 1 + (rd.got ++ [ch]).length := by
          rw [List.length_append, List.length_singleton]
          omega
        split
        · rename_i hnl
          exact ⟨[ch], hpop, hunread, rfl, hcount',
            .inr (.inl ⟨rfl, by simp, hrd.line.oneLine_concat hch, rfl⟩)⟩
        · rename_i hnl
          have hok : Read.Ok { rd with n := rd.n - 1, got := rd.got ++ [ch] } := by
            refine ⟨hrd.dst, hcount', hrd.target, fun x hx => ?_⟩
            obtain hx | hx := List.mem_append.mp hx
            · exact hrd.line x hx
            · rw [List.mem_singleton.mp hx]
              exact ⟨hnl, hch⟩
          obtain ⟨sent, htook⟩ := ih hpop hok (show rd.n - 1 = k by omega)
          exact ⟨ch :: sent, htook.cons hunread⟩

/-! ## All readers -/

/-- The bytes that the call of process `p` has copied. -/
def State.got (s : State) (p : Slot) : List UInt8 := ((s.pc p).map Read.got).getD []

/-- What a call that has returned took from the input. -/
def shown (x : Int × List UInt8) : List UInt8 := if x.1 = 0 then [ctrl 'D'] else x.2

/-- The editor that watches the console: it sees the characters and how many the readers take. -/
def follow (s : State) (x : Input) (ed : Editor) : Editor :=
  match x with
  | .intr ch => ed.type ch
  | .step _ _ => ((s.step x).map fun s' => ed.consume (s'.cons.r - s.cons.r).toNat).getD ed
  | .read _ _ _ | .kill _ => ed

/-- The console with the editor at its side. -/
def watched : TransitionSystem (State × Editor) Input := console.observe ⟨[], [], 0⟩ follow

/-- Calls have valid arguments. -/
def ValidCall : Input → Prop
  | .read _ dst n => 0 < n ∧ ∀ i, dst i = true
  | .step _ _ | .intr _ | .kill _ => True

/-- Nobody takes input while another call has a part of a line, and a call that has one is not
    killed. -/
def Undisturbed (s : State) : Input → Prop
  | .step p killed =>
    (s.cons.r = s.cons.w ∨ ∀ q, q ≠ p → s.got q = []) ∧
      (killed = true → s.cons.r = s.cons.w ∧ s.got p = [])
  | .read _ _ _ | .intr _ | .kill _ => True

instance (s : State) : (i : Input) → Decidable (Undisturbed s i)
  | .step _ _ => inferInstanceAs (Decidable ((_ ∨ _) ∧ (_ → _)))
  | .intr _ | .kill _ | .read _ _ _ => .isTrue trivial

def Orderly (x : State × Editor) (i : Input) : Prop := ValidCall i ∧ Undisturbed x.1 i

/-- The calls have returned the input line by line. -/
structure Lines (s : State) (ed : Editor) : Prop where
  edits : Edits s.cons ed
  calls : ∀ p rd, s.pc p = some rd → rd.Ok ∧ 0 < rd.n
  taken : ∃ p, ed.committed.take ed.consumed = s.reads.flatMap shown ++ s.got p ∧
    ∀ q, q ≠ p → s.got q = []
  returned : ∀ x ∈ s.reads, OneLine x.2 ∧ (x.1 = x.2.length ∨ x = (-1, []))

theorem Editor.type_committed (ed : Editor) (ch : UInt8) :
    (ed.type ch).consumed = ed.consumed ∧ ed.committed <+: (ed.type ch).committed := by
  simp only [Editor.type, Editor.append]
  split_ifs <;> first | exact ⟨rfl, List.prefix_rfl⟩ | exact ⟨rfl, List.prefix_append _ _⟩

theorem lines_init {s : State} (h : console.init s) : Lines s ⟨[], [], 0⟩ := by
  obtain ⟨hcons, hpc, hreads⟩ := h
  have hgot : ∀ p, s.got p = [] := fun p => by rw [State.got, hpc p]; rfl
  refine ⟨?_, fun p rd hrd => ?_, ⟨0, ?_, fun q _ => hgot q⟩, ?_⟩
  · rw [hcons]
    exact ⟨rfl, rfl, Nat.zero_le _, List.not_mem_nil, Nat.le_refl _⟩
  · rw [hpc p] at hrd
    cases hrd
  · rw [hreads, hgot 0]
    rfl
  · rw [hreads]
    exact nofun

theorem got_eq {s s' : State} {p : Slot} {o : Option Read} (hpc : s'.pc = upd s.pc p o) (q : Slot) :
    s'.got q = if q = p then (o.map Read.got).getD [] else s.got q := by
  rw [State.got, hpc, upd_apply]
  split <;> rfl

theorem loop_wait (hn : 0 < rd.n) (h : c.r = c.w) :
    rd.loop rd.n.toNat c = (.wait, rd, c) := by
  obtain ⟨k, hk⟩ : ∃ k, rd.n.toNat = k + 1 := ⟨rd.n.toNat - 1, by omega⟩
  rw [hk, Read.loop, if_pos h]

namespace Lines

variable {s s' : State} {ed : Editor} {p : Slot} {rd : Read}

section

variable (h : Lines s ed)
include h

/-- Steps that neither take input nor return. -/
theorem of_got (hcons : s'.cons = s.cons) (hreads : s'.reads = s.reads)
    (hgot : ∀ q, s'.got q = s.got q) (hcalls : ∀ p rd, s'.pc p = some rd → rd.Ok ∧ 0 < rd.n) :
    Lines s' ed := by
  obtain ⟨p, htaken, hothers⟩ := h.taken
  refine ⟨hcons ▸ h.edits, hcalls, ⟨p, ?_, fun q hq => ?_⟩, hreads ▸ h.returned⟩
  · rw [hreads, hgot p, htaken]
  · rw [hgot q]
    exact hothers q hq

theorem consoleintr (ch : UInt8) : Lines (s.consoleintr ch) (ed.type ch) := by
  obtain ⟨hconsumed, hprefix⟩ := ed.type_committed ch
  have htake : (ed.type ch).committed.take (ed.type ch).consumed = ed.committed.take ed.consumed := by
    obtain ⟨more, hmore⟩ := hprefix
    rw [hconsumed, ← hmore, List.take_append_of_le_length h.edits.consumed]
  have hlines : Lines { s with cons := (s.cons.intr ch).1 } (ed.type ch) := by
    obtain ⟨p, htaken, hothers⟩ := h.taken
    exact ⟨h.edits.intr ch, h.calls, ⟨p, by rw [htake, htaken]; rfl, hothers⟩, h.returned⟩
  simp only [State.consoleintr]
  split
  · refine hlines.of_got rfl rfl (fun q => ?_) fun q rd hrd => ?_
    · simp only [State.got, State.wakeup, Option.map_map]
      rfl
    · obtain ⟨rd', hrd', rfl⟩ := Option.map_eq_some_iff.mp hrd
      obtain ⟨hok, hn⟩ := h.calls q rd' hrd'
      exact ⟨⟨hok.dst, hok.count, hok.target, hok.line⟩, hn⟩
  · exact hlines

/-- A call changes its place and keeps what it has. -/
theorem setPc {o : Option Read} (hgot : (o.map Read.got).getD [] = s.got p)
    (ho : ∀ rd, o = some rd → rd.Ok ∧ 0 < rd.n) : Lines { s with pc := upd s.pc p o } ed := by
  refine h.of_got rfl rfl (fun q => ?_) ?_
  · rw [got_eq rfl]
    split
    · rename_i hq
      rw [hq, hgot]
    · rfl
  · exact forall_upd (P := fun (_ : Slot) (o : Option Read) => ∀ rd, o = some rd → rd.Ok ∧ 0 < rd.n) ho
      fun q _ => h.calls q

/-- A call returns. -/
theorem ret (hgot : s.got p = []) {x : Int × List UInt8} (hx : shown x = [])
    (hline : OneLine x.2 ∧ (x.1 = x.2.length ∨ x = (-1, []))) :
    Lines { s with pc := upd s.pc p none, reads := s.reads ++ [x] } ed := by
  have hset := h.setPc (p := p) (o := none) hgot.symm nofun
  obtain ⟨q, htaken, hothers⟩ := hset.taken
  refine ⟨hset.edits, hset.calls, ⟨q, ?_, hothers⟩, fun y hy => ?_⟩
  · rw [htaken, List.flatMap_append, List.flatMap_singleton, hx, List.append_nil]
    rfl
  · obtain hy | hy := List.mem_append.mp hy
    · exact h.returned y hy
    · rw [List.mem_singleton.mp hy]
      exact hline

/-- A call goes on from where it took the lock. -/
theorem consoleread (hpc : s.pc p = some rd) {killed : Bool}
    (halone : s.cons.r = s.cons.w ∨ ∀ q, q ≠ p → s.got q = [])
    (hkilled : killed = true → s.cons.r = s.cons.w ∧ s.got p = []) :
    Lines (s.consoleread p rd killed)
      (ed.consume ((s.consoleread p rd killed).cons.r - s.cons.r).toNat) := by
  obtain ⟨hok, hn⟩ := h.calls p rd hpc
  have hgot : s.got p = rd.got := by rw [State.got, hpc]; rfl
  by_cases hempty : s.cons.r = s.cons.w
  · -- there is nothing to take: the call sleeps on, or it is killed
    simp only [State.consoleread, loop_wait hn hempty]
    split
    · rename_i hk
      have hnil := (hkilled hk).2
      have hret := h.ret hnil (x := (-1, rd.got)) (by rw [← hgot, hnil]; rfl)
        (by rw [← hgot, hnil]; exact ⟨by simp [OneLine], .inr rfl⟩)
      simpa [Editor.consume] using hret
    · have hset := h.setPc (p := p) (o := some { rd with asleep := true }) hgot.symm
        (by rintro _ ⟨⟩; exact ⟨⟨hok.dst, hok.count, hok.target, hok.line⟩, hn⟩)
      simpa [Editor.consume] using hset
  · have hothers := halone.resolve_left hempty
    have hk : killed = false := by
      cases killed with
      | false => rfl
      | true => exact absurd (hkilled rfl).1 hempty
    -- all bytes that were copied and not returned are those of this call
    have htaken : ed.committed.take ed.consumed = s.reads.flatMap shown ++ rd.got := by
      obtain ⟨p', htaken, hothers'⟩ := h.taken
      by_cases hp : p' = p
      · rw [htaken, hp, hgot]
      · rw [htaken, hothers p' hp, ← hgot, hothers' p (Ne.symm hp)]
    obtain ⟨sent, htook⟩ := loop_took rd.n.toNat h.edits hok (by omega)
    have hsent := htook.length_moved h.edits
    have htake : (ed.consume sent.length).committed.take (ed.consume sent.length).consumed =
        s.reads.flatMap shown ++ (rd.got ++ sent) := by
      rw [← List.append_assoc, ← htaken]
      exact htook.take
    -- nobody has anything else
    have hnone {o : Option Read} : ∀ q, q ≠ p → ∀ s' : State, s'.pc = upd s.pc p o → s'.got q = [] := by
      intro q hq s' hs'
      rw [got_eq hs', if_neg hq]
      exact hothers q hq
    simp only [State.consoleread, hk]
    generalize rd.loop rd.n.toNat s.cons = out at htook hsent ⊢
    obtain ⟨stop, rd', c'⟩ := out
    have hcount : rd'.target = rd'.n + rd'.got.length := htook.count
    have hedits : Edits c' (ed.consume sent.length) := htook.edits
    -- a call that returns leaves nothing behind
    have hret (x : Int × List UInt8) (hx : shown x = rd.got ++ sent)
        (hline : OneLine x.2 ∧ (x.1 = x.2.length ∨ x = (-1, []))) :
        Lines { s with cons := c', pc := upd s.pc p none, reads := s.reads ++ [x] }
          (ed.consume sent.length) := by
      refine ⟨hedits, ?_, ⟨p, ?_, fun q hq => hnone q hq _ rfl⟩, fun y hy => ?_⟩
      · exact forall_upd (P := fun (_ : Slot) (o : Option Read) => ∀ rd, o = some rd → rd.Ok ∧ 0 < rd.n)
          (by rintro _ ⟨⟩) fun q _ => h.calls q
      · rw [htake, got_eq (s := s) rfl, if_pos rfl, List.flatMap_append, List.flatMap_singleton, hx]
        exact (List.append_nil _).symm
      · obtain hy | hy := List.mem_append.mp hy
        · exact h.returned y hy
        · rw [List.mem_singleton.mp hy]
          exact hline
    obtain ⟨hstop, hok', hn', hgot'⟩ | ⟨hstop, hne, hline, hgot'⟩ | ⟨hstop, hgot0, hgot', hD⟩ := htook.ends
    all_goals
      dsimp only at hstop hgot' hsent
      subst hstop
      simp only [hsent, Bool.false_eq_true, if_false]
    · -- the call sleeps with a part of a line
      refine ⟨hedits, ?_, ⟨p, ?_, fun q hq => hnone q hq _ rfl⟩, h.returned⟩
      · refine forall_upd
          (P := fun (_ : Slot) (o : Option Read) => ∀ rd, o = some rd → rd.Ok ∧ 0 < rd.n) ?_
          fun q _ => h.calls q
        rintro _ ⟨⟩
        exact ⟨⟨hok'.dst, hok'.count, hok'.target, hok'.line⟩, hn'⟩
      · rw [htake, got_eq (s := s) rfl, if_pos rfl, ← hgot']
        rfl
    · have hpos : 0 < rd'.got.length := List.length_pos_iff.mpr hne
      refine hret _ ?_ ⟨hline, .inl ?_⟩
      · rw [shown, if_neg (by dsimp only; omega), hgot']
      · dsimp only
        omega
    · refine hret _ ?_ ⟨?_, .inl ?_⟩
      · rw [shown, if_pos (by rw [hgot'] at hcount; simp at hcount; dsimp only; omega), hgot0, hD]
        rfl
      · rw [hgot']
        simp [OneLine]
      · dsimp only
        omega

end

theorem step {x y : State × Editor} {i : Input} (h : Lines x.1 x.2) (hx : Orderly x i)
    (hs : watched.step x i = some y) : Lines y.1 y.2 := by
  obtain ⟨s, ed⟩ := x
  obtain ⟨hs, hy⟩ := observe_step.mp hs
  have hs' : s.step i = some y.1 := hs
  rw [hy]
  cases i with
  | intr ch =>
    have heq : s.consoleintr ch = y.1 := Option.some.inj hs'
    rw [← heq]
    exact h.consoleintr ch
  | read p dst n =>
    simp only [State.step] at hs'
    split at hs'
    · rename_i hpc
      rw [Option.some.injEq] at hs'
      rw [← hs']
      refine h.setPc ?_ ?_
      · rw [State.got, hpc]
        rfl
      · rintro _ ⟨⟩
        exact ⟨⟨hx.1.2, by simp, hx.1.1, (by rintro _ ⟨⟩)⟩, hx.1.1⟩
    · cases hs'
  | step p killed =>
    have hfollow : follow s (.step p killed) ed = ed.consume (y.1.cons.r - s.cons.r).toNat := by
      rw [follow, hs']
      rfl
    rw [hfollow]
    simp only [State.step] at hs'
    split at hs'
    · rename_i rd hpc
      split at hs'
      · cases hs'
      · rw [Option.some.injEq] at hs'
        rw [← hs']
        exact h.consoleread hpc hx.2.1 hx.2.2
    · cases hs'
  | kill p =>
    rw [← Option.some.inj hs']
    refine h.setPc ?_ fun rd hrd => ?_
    · rw [State.got, Option.map_map]
      rfl
    · obtain ⟨rd', hrd', rfl⟩ := Option.map_eq_some_iff.mp hrd
      obtain ⟨hok, hn⟩ := h.calls p rd' hrd'
      exact ⟨⟨hok.dst, hok.count, hok.target, hok.line⟩, hn⟩

theorem of_reachable {x : State × Editor} (h : watched.ReachableBy Orderly x) : Lines x.1 x.2 := by
  refine h.induct (P := fun x => Lines x.1 x.2) (fun x h0 => ?_) fun _ _ _ _ hl hx hs => hl.step hx hs
  obtain ⟨h0, hed⟩ := observe_init x |>.mp h0
  rw [hed]
  exact lines_init h0

theorem shown_of_ret (h : Lines s ed) {x : Int × List UInt8} (hx : x ∈ s.reads) :
    x.1 = 0 ∧ shown x = [ctrl 'D'] ∧ x.2 = [] ∨ x.1 ≠ 0 ∧ shown x = x.2 ∧ ctrl 'D' ∉ x.2 := by
  obtain ⟨hline, hret⟩ := h.returned x hx
  by_cases h0 : x.1 = 0
  · refine .inl ⟨h0, if_pos h0, ?_⟩
    obtain hlen | rfl := hret
    · rw [← List.length_eq_zero_iff]
      omega
    · rfl
  · exact .inr ⟨h0, if_neg h0, hline.2⟩

theorem filter_shown (h : Lines s ed) :
    (s.reads.flatMap shown).filter (· ≠ ctrl 'D') = s.reads.flatMap Prod.snd := by
  rw [List.filter_flatMap]
  refine List.flatMap_congr fun x hx => ?_
  obtain ⟨-, hshown, hnil⟩ | ⟨-, hshown, hnot⟩ := h.shown_of_ret hx
  · rw [hshown, hnil]
    rfl
  · rw [hshown, List.filter_eq_self]
    exact fun a ha => decide_eq_true fun heq => hnot (heq ▸ ha)

theorem count_shown (h : Lines s ed) :
    (s.reads.flatMap shown).count (ctrl 'D') = s.reads.countP (·.1 = 0) := by
  have hone : ∀ x ∈ s.reads, (shown x).count (ctrl 'D') = if x.1 = 0 then 1 else 0 := by
    intro x hx
    obtain ⟨h0, hshown, -⟩ | ⟨h0, hshown, hnot⟩ := h.shown_of_ret hx
    · rw [hshown, if_pos h0]
      rfl
    · rw [hshown, if_neg h0, List.count_eq_zero_of_not_mem hnot]
  -- one call at a time
  generalize s.reads = l at hone
  induction l with
  | nil => rfl
  | cons x l ih =>
    rw [List.flatMap_cons, List.count_append, hone x List.mem_cons_self,
      ih fun y hy => hone y (List.mem_cons_of_mem x hy), List.countP_cons, Nat.add_comm]
    simp

end Lines

/-- As long as nobody takes input while another call has a part of a line, the indices stay in order
    and at most `INPUT_BUF_SIZE` apart, and the calls that have returned took the committed input one
    after the other: each took the bytes that it has returned, which are at most one line, or one
    `^D` if it has returned 0. What else was taken are the bytes of a call that has not returned. -/
theorem consoleread_lines (x : State × Editor) (h : watched.ReachableBy Orderly x) :
    ((x.1.cons.w - x.1.cons.r).toNat ≤ (x.1.cons.e - x.1.cons.r).toNat ∧
      (x.1.cons.e - x.1.cons.r).toNat ≤ INPUT_BUF_SIZE) ∧
    (∃ p, x.2.committed.take x.2.consumed = x.1.reads.flatMap shown ++ x.1.got p) ∧
    x.1.reads.flatMap Prod.snd <+: x.2.committed.filter (· ≠ ctrl 'D') ∧
    (∀ y ∈ x.1.reads, newline ∉ y.2.dropLast ∧ ctrl 'D' ∉ y.2) ∧
    (x.2.committed.take x.2.consumed).count (ctrl 'D') = x.1.reads.countP (·.1 = 0) := by
  have hl := Lines.of_reachable h
  obtain ⟨p, htaken, -⟩ := hl.taken
  have hgot : ctrl 'D' ∉ x.1.got p := by
    intro hmem
    cases hpc : x.1.pc p with
    | none => simp [State.got, hpc] at hmem
    | some rd =>
      simp only [State.got, hpc, Option.map_some, Option.getD_some] at hmem
      exact ((hl.calls p rd hpc).1.line _ hmem).2 rfl
  refine ⟨⟨?_, hl.edits.room⟩, ⟨p, htaken⟩, ?_, fun y hy => (hl.returned y hy).1, ?_⟩
  · rw [hl.edits.write, hl.edits.dist]
    exact Nat.le_add_right _ _
  · have hprefix := (List.take_prefix x.2.consumed x.2.committed).filter (· ≠ ctrl 'D')
    rw [htaken, List.filter_append, hl.filter_shown] at hprefix
    exact (List.prefix_append _ _).trans hprefix
  · rw [htaken, List.count_append, hl.count_shown, List.count_eq_zero_of_not_mem hgot, Nat.add_zero]

/-- A console after boot. -/
def idle : State × Editor := (⟨⟨fun _ => 0, 0, 0, 0⟩, fun _ => none, []⟩, ⟨[], [], 0⟩)

theorem init_idle : watched.init idle := ⟨⟨rfl, fun _ => rfl, rfl⟩, rfl⟩

/-- `a`, `b`, backspace, `c`, return and `^D` are typed; process 0 reads twice. -/
def typed : List Input :=
  [97, 98, 8, 99, 13, 4].map .intr ++
    [.read 0 (fun _ => true) 10, .step 0 false, .read 0 (fun _ => true) 10, .step 0 false]

theorem consoleread_lines_typed :
    ∃ x, watched.ReachableBy Orderly x ∧ x.1.reads = [(3, [97, 99, 10]), (0, [])] ∧
      x.2.committed = [97, 99, 10, 4] ∧ x.1.reads.flatMap Prod.snd <+: x.2.committed.filter (· ≠ ctrl 'D') := by
  have hrun : (watched.runBy (fun x => Undisturbed x.1) idle typed).map (fun x => (x.1.reads, x.2.committed)) =
      some ([(3, [97, 99, 10]), (0, [])], [97, 99, 10, 4]) := by
    decide +kernel
  obtain ⟨x, hx, heq⟩ := Option.map_eq_some_iff.mp hrun
  have hreach : watched.ReachableBy Orderly x := by
    refine reachableBy_runBy_of (.init init_idle) (fun i hi s hs => ⟨?_, hs⟩) hx
    cases i with
    | read p dst n =>
      simp only [typed, List.mem_append, List.mem_map, List.mem_cons, reduceCtorEq, and_false,
        exists_false, false_or, Input.read.injEq, List.not_mem_nil, or_false, or_self] at hi
      rw [hi.2.1, hi.2.2]
      exact ⟨by decide, fun _ => rfl⟩
    | _ => exact trivial
  rw [Prod.mk.injEq] at heq
  exact ⟨x, hreach, heq.1, heq.2, (consoleread_lines x hreach).2.2.1⟩

/-- 128 times `a` are typed for process 0, which wants more. Then a line is typed that process 1
    takes, and another one. -/
def twoReaders : List Input :=
  List.replicate 128 (.intr 97) ++ [.read 0 (fun _ => true) 200, .step 0 false, .intr 120, .intr 10,
    .read 1 (fun _ => true) 200, .step 1 false, .intr 121, .intr 10, .step 0 false]

/-- The first call returns bytes from both sides of a newline, and the bytes that were returned are
    not the committed ones. -/
theorem consoleread_mixes_lines :
    ∃ x, watched.Reachable x ∧
      x.2.committed = List.replicate 128 97 ++ [120, 10, 121, 10] ∧
      x.1.reads = [(2, [120, 10]), (130, List.replicate 128 97 ++ [121, 10])] ∧
      ¬ x.1.reads.flatMap Prod.snd <+: x.2.committed.filter (· ≠ ctrl 'D') := by
  have hrun : (watched.run idle twoReaders).map (fun x => (x.2.committed, x.1.reads)) =
      some (List.replicate 128 97 ++ [120, 10, 121, 10],
        [(2, [120, 10]), (130, List.replicate 128 97 ++ [121, 10])]) := by
    decide +kernel
  obtain ⟨x, hreach, heq⟩ := exists_reachable_of_run hrun init_idle
  rw [Prod.mk.injEq] at heq
  refine ⟨x, hreach, heq.1, heq.2, ?_⟩
  rw [heq.1, heq.2]
  decide +kernel

end Console

end Xv6
