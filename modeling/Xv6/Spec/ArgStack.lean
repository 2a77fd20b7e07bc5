import Xv6.Kernel.Exec

/-!
# The argument stack

`exec` pushes the argument strings and the array `argv` below the end of the new stack page. `Args` says
what the program finds there.
-/

namespace Xv6.Exec

variable {vm : Vm}

/-- `n` rounded up to a multiple of 16. -/
def up16 (n : Nat) : Nat := (n + 15) / 16 * 16

theorem sub64_of_le {a b : Nat} (h : b ≤ a) (ha : a < 2 ^ 64) : sub64 a b = a - b := by
  rw [sub64]
  omega

/-- No subtraction of the list is below 0. -/
def NoUnderflow (subs : List (Nat × Nat)) : Prop := ∀ p ∈ subs, p.2 ≤ p.1

/-- The stack pointer between two pushes. -/
structure Stack.Ok (x : Stack vm) (base : Nat) : Prop where
  aligned : x.sp % 16 = 0
  above : base ≤ x.sp
  room : PGSIZE ≤ base
  lt : x.sp < 2 ^ 64
  subs : NoUnderflow x.subs

/-- `copyout` to the stack page fails. -/
def CopyFails (vm : Vm) (base top : Nat) : Prop :=
  ∃ t va bs, base ≤ va ∧ va + bs.length ≤ top ∧ vm.copyout t va bs = none

theorem le_up16 (n : Nat) : n ≤ up16 n := by
  rw [up16]
  omega

/-- The copy of `bs` to the next place, or the reason that there is none. -/
theorem Stack.Ok.push {x : Stack vm} {base : Nat} (n : Nat) (bs : List UInt8) (h : x.Ok base)
    (hn : n ≤ PGSIZE) (hbs : bs.length = n) :
    match x.push base n bs with
    | .ok x' => x'.Ok base ∧ x'.sp + up16 n = x.sp ∧ x'.ustack = x.ustack ∧
        vm.copyout x.table x'.sp bs = some x'.table
    | .error x' => NoUnderflow x'.subs ∧ x'.table = x.table ∧ x'.ustack = x.ustack ∧
        (x.sp < base + up16 n ∨ CopyFails vm base x.sp) := by
  obtain ⟨haligned, habove, hroom, hlt, hsubs⟩ := h
  have hle : n ≤ x.sp := by omega
  have h₁ : sub64 x.sp n = x.sp - n := sub64_of_le hle hlt
  have h₂ : sub64 (x.sp - n) ((x.sp - n) % 16) = x.sp - n - (x.sp - n) % 16 :=
    sub64_of_le (Nat.mod_le _ _) (by omega)
  have hno : NoUnderflow ((x.sp - n, (x.sp - n) % 16) :: (x.sp, n) :: x.subs) :=
    List.forall_mem_cons.mpr ⟨Nat.mod_le _ _, List.forall_mem_cons.mpr ⟨hle, hsubs⟩⟩
  simp only [Stack.push, Stack.minus, h₁, h₂]
  by_cases hfit : x.sp - n - (x.sp - n) % 16 < base
  · rw [if_pos hfit]
    refine ⟨hno, rfl, rfl, .inl ?_⟩
    rw [up16]
    omega
  have hsp : x.sp - n - (x.sp - n) % 16 + up16 n = x.sp := by
    rw [up16]
    omega
  have hup := le_up16 n
  rw [if_neg hfit]
  cases hcopy : vm.copyout x.table (x.sp - n - (x.sp - n) % 16) bs with
  | none => exact ⟨hno, rfl, rfl, .inr ⟨_, _, bs, by omega, by omega, hcopy⟩⟩
  | some t =>
    refine ⟨⟨?_, by simpa using hfit, hroom, ?_, hno⟩, hsp, rfl, hcopy⟩
    · show (x.sp - n - (x.sp - n) % 16) % 16 = 0
      omega
    · show x.sp - n - (x.sp - n) % 16 < 2 ^ 64
      omega

/-! ## The strings -/

/-- The strings `done` that have been pushed, at the addresses in `ustack`. -/
structure Pushed (t : vm.Table) (base top : Nat) (done : List Arg) (x : Stack vm) : Prop where
  ok : x.Ok base
  owned : vm.owned x.table = vm.owned t
  user : vm.user x.table = vm.user t
  length : x.ustack.length = done.length
  le : x.sp ≤ top
  strings : ∀ (i : Nat) s a, done[i]? = some s → x.ustack[i]? = some a →
    a % 16 = 0 ∧ x.sp ≤ a ∧ a + s.bytes.length + 1 ≤ top ∧ (vm.mem x.table).IsString a s.bytes
  disjoint : ∀ (i j : Nat) s' a a', i < j → x.ustack[i]? = some a → done[j]? = some s' →
    x.ustack[j]? = some a' → a' + s'.bytes.length + 1 ≤ a

/-- The stack at `goto bad`, with `need` bytes missing or a failed `copyout`. -/
structure Stuck (t : vm.Table) (base top need : Nat) (x : Stack vm) : Prop where
  subs : NoUnderflow x.subs
  owned : vm.owned x.table = vm.owned t
  user : vm.user x.table = vm.user t
  length : x.ustack.length ≤ MAXARG
  reason : top < base + need ∨ CopyFails vm base top

/-- A store below the strings. -/
theorem isString_write {m : ByteMem} {a b : Nat} {s bs : List UInt8} (h : m.IsString a s)
    (hb : b + bs.length ≤ a) : (m.write b bs).IsString a s := by
  rw [ByteMem.isString_iff] at h ⊢
  intro j hj
  rw [h j hj, ByteMem.write_of_ge (by omega)]

/-- The bytes that the argument strings need. -/
def argBytes (argv : List Arg) : Nat := (argv.map fun s => up16 (s.bytes.length + 1)).sum

theorem argBytes_append (argv argv' : List Arg) :
    argBytes (argv ++ argv') = argBytes argv + argBytes argv' := by
  simp [argBytes]

theorem CopyFails.mono {base top top' : Nat} (h : CopyFails vm base top) (hle : top ≤ top') :
    CopyFails vm base top' := by
  obtain ⟨t, va, bs, hva, htop, hcopy⟩ := h
  exact ⟨t, va, bs, hva, htop.trans hle, hcopy⟩

variable {t : vm.Table} {base top : Nat} {done argv : List Arg} {x : Stack vm}

/-- One more string. -/
theorem Pushed.next (s : Arg) (h : Pushed t base top done x) (hsp : x.sp + argBytes done = top)
    (hmax : done.length < MAXARG) :
    match pushArg base x s with
    | .ok x' => Pushed t base top (done ++ [s]) x' ∧ x'.sp + argBytes (done ++ [s]) = top
    | .error x' => Stuck t base top (argBytes (done ++ [s])) x' := by
  have hup := le_up16 (s.bytes.length + 1)
  have hpush := h.ok.push (s.bytes.length + 1) (s.bytes ++ [0]) s.short (by simp)
  have hlen := h.length
  have hle := h.le
  have hbytes : argBytes (done ++ [s]) = argBytes done + up16 (s.bytes.length + 1) := by
    rw [argBytes_append]
    rfl
  rw [pushArg, if_neg (by omega)]
  cases hx : x.push base (s.bytes.length + 1) (s.bytes ++ [0]) with
  | error x' =>
    rw [hx] at hpush
    obtain ⟨hsubs, htable, hustack, hwhy⟩ := hpush
    refine ⟨hsubs, by rw [htable, h.owned], by rw [htable, h.user], by rw [hustack]; omega, ?_⟩
    exact hwhy.imp (fun hfit => by omega) fun hcopy => hcopy.mono hle
  | ok x' =>
    rw [hx] at hpush
    obtain ⟨hok, hsp', hustack, hcopy⟩ := hpush
    have hmem := vm.copyout_mem _ _ _ _ hcopy
    refine ⟨⟨⟨hok.1, hok.2, hok.3, hok.4, hok.5⟩, (vm.copyout_pages _ _ _ _ hcopy).trans h.owned,
      (vm.copyout_user _ _ _ _ hcopy).trans h.user, ?_, ?_, fun i s₁ a hi ha => ?_,
      fun i j s₁ a a' hij ha hj ha' => ?_⟩, ?_⟩
    · simp [hustack, hlen]
    · show x'.sp ≤ top
      omega
    · show a % 16 = 0 ∧ x'.sp ≤ a ∧ _ ∧ (vm.mem x'.table).IsString a s₁.bytes
      rw [hmem]
      simp only [hustack, List.getElem?_append, List.getElem?_singleton] at hi ha
      by_cases hlt : i < done.length
      · rw [if_pos hlt] at hi
        rw [if_pos (by omega)] at ha
        obtain ⟨h16, hlow, htop, hstr⟩ := h.strings i s₁ a hi ha
        exact ⟨h16, by omega, htop, isString_write hstr
          (by rw [List.length_append, List.length_singleton]; omega)⟩
      · rw [if_neg hlt] at hi
        rw [if_neg (by omega)] at ha
        split at hi
        · rw [if_pos (by omega)] at ha
          cases hi
          cases ha
          refine ⟨hok.aligned, le_rfl, by omega, ?_⟩
          have hread := ByteMem.read_write (vm.mem x.table) x'.sp (s.bytes ++ [0])
          rwa [List.length_append, List.length_singleton] at hread
        · cases hi
    · simp only [hustack, List.getElem?_append, List.getElem?_singleton] at ha hj ha'
      by_cases hlt : j < done.length
      · rw [if_pos hlt] at hj
        rw [if_pos (by omega)] at ha ha'
        exact h.disjoint i j s₁ a a' hij ha hj ha'
      · rw [if_neg hlt] at hj
        rw [if_neg (by omega)] at ha'
        split at hj
        · rw [if_pos (by omega)] at ha'
          rw [if_pos (by omega)] at ha
          cases hj
          cases ha'
          have hlow := (h.strings i _ a (List.getElem?_eq_getElem (by omega)) ha).2.1
          omega
        · cases hj
    · show x'.sp + _ = top
      omega

/-- The loop over the strings. -/
theorem Pushed.all (argv : List Arg) (h : Pushed t base top done x) (hsp : x.sp + argBytes done = top)
    (hmax : done.length + argv.length < MAXARG) :
    match argv.foldlM (pushArg base) x with
    | .ok x' => Pushed t base top (done ++ argv) x' ∧ x'.sp + argBytes (done ++ argv) = top
    | .error x' => Stuck t base top (argBytes (done ++ argv)) x' := by
  induction argv generalizing done x with
  | nil =>
    rw [List.append_nil]
    exact ⟨h, hsp⟩
  | cons s argv ih =>
    rw [List.length_cons] at hmax
    have hnext := h.next s hsp (by omega)
    rw [List.foldlM_cons]
    cases hx : pushArg base x s with
    | error x' =>
      rw [hx] at hnext
      refine ⟨hnext.subs, hnext.owned, hnext.user, hnext.length, hnext.reason.imp_left fun hlt => ?_⟩
      rw [← List.singleton_append, ← List.append_assoc, argBytes_append]
      omega
    | ok x' =>
      rw [hx] at hnext
      have hall := ih hnext.1 hnext.2 (by rw [List.length_append, List.length_singleton]; omega)
      rw [List.append_assoc, List.singleton_append] at hall
      exact hall

/-! ## The array -/

/-- The pointer number `i` of the array at `a`. -/
def ptr (m : ByteMem) (a i : Nat) : Nat := (ofBytes (m.read (a + 8 * i) 8)).toNat

/-- What `main(argc, argv)` finds between `base` and `top`: the array at `sp` ends with a null pointer,
    and the strings stand above it, each below the one before. -/
structure Args (m : ByteMem) (base top sp : Nat) (argv : List Arg) : Prop where
  aligned : sp % 16 = 0
  above : base ≤ sp
  null : ptr m sp argv.length = 0
  below : sp + 8 * (argv.length + 1) ≤ top
  strings : ∀ (i : Nat) s, argv[i]? = some s → ptr m sp i % 16 = 0 ∧
    sp + 8 * (argv.length + 1) ≤ ptr m sp i ∧ ptr m sp i + s.bytes.length + 1 ≤ top ∧
    m.IsString (ptr m sp i) s.bytes
  disjoint : ∀ (i j : Nat) s s', i < j → argv[i]? = some s → argv[j]? = some s' →
    ptr m sp j + s'.bytes.length + 1 ≤ ptr m sp i

/-- The pointers are the ones in `ustack`. -/
theorem ptr_write (m : ByteMem) (a : Nat) {ws : List Nat} {i v : Nat} (hv : ws[i]? = some v)
    (hlt : v < 2 ^ 64) : ptr (m.write a (ws.flatMap fun w : Nat => leBytes 8 w)) a i = v := by
  obtain ⟨hi, rfl⟩ := List.getElem?_eq_some_iff.mp hv
  have hread := m.read_write_words a [] 8 ws hi
  rw [List.nil_append, List.length_nil, Nat.add_zero] at hread
  rw [ptr, hread, ofBytes_leBytes_nat (by simpa using hlt), Int.toNat_natCast]

/-- The bytes that the arguments need. -/
def need (argv : List Arg) : Nat := argBytes argv + up16 ((argv.length + 1) * 8)

/-- What a call of `pushArgv` leaves. -/
def Result (t : vm.Table) (base top : Nat) (argv : List Arg) :
    Except (Stack vm) (Stack vm) → Prop
  | .ok x => Args (vm.mem x.table) base top x.sp argv ∧ x.ustack.length ≤ MAXARG ∧ NoUnderflow x.subs ∧
      vm.owned x.table = vm.owned t ∧ vm.user x.table = vm.user t
  | .error x => Stuck t base top (need argv) x

/-- The last push. -/
theorem Pushed.array (h : Pushed t base top argv x) (hsp : x.sp + argBytes argv = top)
    (hmax : argv.length < MAXARG) (htop : top < 2 ^ 64) :
    Result t base top argv (Stack.push { x with ustack := x.ustack ++ [0] } base
      ((x.ustack ++ [0]).length * 8) ((x.ustack ++ [0]).flatMap fun a : Nat => leBytes 8 a)) := by
  have hpg : PGSIZE = 4096 := rfl
  have hmax' : MAXARG = 32 := rfl
  have hlen : (x.ustack ++ [0]).length = argv.length + 1 := by simp [h.length]
  have hok : Stack.Ok { x with ustack := x.ustack ++ [0] } base :=
    ⟨h.ok.1, h.ok.2, h.ok.3, h.ok.4, h.ok.5⟩
  have hpush := hok.push ((x.ustack ++ [0]).length * 8)
    ((x.ustack ++ [0]).flatMap fun a : Nat => leBytes 8 a) (by omega)
    (by rw [length_flatMap_leBytes, Nat.mul_comm])
  cases hx : Stack.push { x with ustack := x.ustack ++ [0] } base ((x.ustack ++ [0]).length * 8)
      ((x.ustack ++ [0]).flatMap fun a : Nat => leBytes 8 a) with
  | error x' =>
    rw [hx, hlen] at hpush
    obtain ⟨hsubs, htable, hustack, hwhy⟩ := hpush
    refine ⟨hsubs, by rw [htable, h.owned], by rw [htable, h.user],
      by rw [hustack]; show (x.ustack ++ [0]).length ≤ _; omega, ?_⟩
    refine hwhy.imp (fun hfit => ?_) fun hcopy => hcopy.mono h.le
    replace hfit : x.sp < base + up16 ((argv.length + 1) * 8) := hfit
    rw [need]
    omega
  | ok x' =>
    rw [hx, hlen] at hpush
    obtain ⟨hok', hsp', hustack, hcopy⟩ := hpush
    replace hsp' : x'.sp + up16 ((argv.length + 1) * 8) = x.sp := hsp'
    have hup := le_up16 ((argv.length + 1) * 8)
    have hle := h.le
    have hmem := vm.copyout_mem _ _ _ _ hcopy
    have hnth : ∀ (i : Nat) s, argv[i]? = some s → ∃ a, x.ustack[i]? = some a ∧
        ptr (vm.mem x'.table) x'.sp i = a := by
      intro i s hi
      have hlt : i < x.ustack.length := by
        rw [h.length]
        exact (List.getElem?_eq_some_iff.mp hi).1
      have ha := List.getElem?_eq_getElem hlt
      have hend := (h.strings i s _ hi ha).2.2.1
      refine ⟨_, ha, ?_⟩
      rw [hmem]
      exact ptr_write _ _ ((List.getElem?_append_left hlt).trans ha) (by omega)
    refine ⟨⟨hok'.aligned, hok'.above, ?_, by omega, fun i s hi => ?_, fun i j s s' hij hi hj => ?_⟩,
      ?_, hok'.subs, ?_, ?_⟩
    · rw [hmem]
      exact ptr_write _ _ (by rw [← h.length]; exact List.getElem?_concat_length) (by decide)
    · obtain ⟨a, ha, hptr⟩ := hnth i s hi
      obtain ⟨h16, hlow, hend, hstr⟩ := h.strings i s a hi ha
      rw [hptr, hmem]
      refine ⟨h16, by omega, hend, isString_write hstr ?_⟩
      rw [length_flatMap_leBytes, hlen]
      omega
    · obtain ⟨a, ha, hptr⟩ := hnth i s hi
      obtain ⟨a', ha', hptr'⟩ := hnth j s' hj
      rw [hptr, hptr']
      exact h.disjoint i j s' a a' hij ha hj ha'
    · rw [hustack]
      show (x.ustack ++ [0]).length ≤ _
      omega
    · exact (vm.copyout_pages _ _ _ _ hcopy).trans h.owned
    · exact (vm.copyout_user _ _ _ _ hcopy).trans h.user

/-- The arguments on the stack page, or the reason that they are not there. -/
theorem pushArgv_spec (t : vm.Table) (sz : Nat) (h16 : sz % 16 = 0) (htwo : 2 * PGSIZE ≤ sz)
    (hlt : sz < 2 ^ 64) (hmax : argv.length < MAXARG) :
    Result t (sz - PGSIZE) sz argv (pushArgv t sz argv) := by
  rw [pushArgv, sub64_of_le (by omega) hlt]
  -- the base stays a variable, so that `sz - PGSIZE` is never evaluated
  obtain ⟨base, hbase⟩ : ∃ base, sz - PGSIZE = base := ⟨_, rfl⟩
  have hstart : Pushed t base sz [] ⟨t, sz, [], [(sz, PGSIZE)]⟩ :=
    ⟨⟨h16, by show base ≤ sz; omega, by omega, hlt,
      List.forall_mem_singleton.mpr (by show PGSIZE ≤ sz; omega)⟩, rfl, rfl, rfl, le_rfl,
      fun _ _ _ hi => (nomatch hi), fun _ _ _ _ _ _ hi => (nomatch hi)⟩
  have hall := hstart.all argv rfl (by rw [List.length_nil]; omega)
  rw [List.nil_append] at hall
  rw [hbase]
  cases hx : argv.foldlM (pushArg base) ⟨t, sz, [], [(sz, PGSIZE)]⟩ with
  | error x =>
    rw [hx] at hall
    refine ⟨hall.subs, hall.owned, hall.user, hall.length, hall.reason.imp_left fun hfit => ?_⟩
    rw [need]
    omega
  | ok x =>
    rw [hx] at hall
    exact hall.1.array hall.2 hmax hlt

end Xv6.Exec
