import Mathlib.Algebra.Group.Nat.Defs
import Mathlib.Data.List.TakeWhile

/-!
# printf

`user/printf.c`, and the shell, which passes the exit message of a child to `printf` as the format.
`ap` are the words that `va_arg` takes one after another, whether they were passed or not, and `str a`
is the C string at address `a`.

* `printf_verbatim_iff` says which messages the shell prints as they are.
-/

namespace Xv6.User

/-! ## user/printf.c -/

/-- The code of a character. -/
def ascii (c : Char) : UInt8 := UInt8.ofNat c.toNat

/-- `digits[d]`. -/
def digits (d : Nat) : UInt8 := ("0123456789ABCDEF".toList.map ascii).getD d 0

/-- The `do` loop of `printint`: `buf`, which holds at most 16 digits, the last one first. -/
def intDigits (base : Nat) : (fuel x : Nat) → List UInt8
  | 0, _ => []
  | fuel + 1, x =>
    digits (x % base) :: if x / base = 0 then [] else intDigits base fuel (x / base)

/-- `printint`. -/
def printint (xx : BitVec 32) (base : Nat) (sgn : Bool) : List UInt8 :=
  let neg := sgn && xx.msb
  let x := if neg then -xx else xx
  (intDigits base 16 x.toNat ++ if neg then [ascii '-'] else []).reverse

/-- `printptr`. -/
def printptr (x : BitVec 64) : List UInt8 :=
  ascii '0' :: ascii 'x' :: (List.range 16).map fun i => digits (x.toNat / 16 ^ (15 - i) % 16)

/-- What is written, and how many arguments were taken. -/
structure Printed where
  out : List UInt8
  args : Nat
deriving DecidableEq

section

variable (ap : Nat → BitVec 64) (str : BitVec 64 → List UInt8)

/-- The text that `%s` writes for the pointer `s`. -/
def argString (s : BitVec 64) : List UInt8 := if s = 0 then "(null)".toList.map ascii else str s

/-- The branch of `vprintf` for character `c` after a `%`, with the next argument `ap n`. -/
def conversion (n : Nat) (c : UInt8) : Printed :=
  if c = ascii 'd' then ⟨printint ((ap n).setWidth 32) 10 true, n + 1⟩
  else if c = ascii 'l' then ⟨printint ((ap n).setWidth 32) 10 false, n + 1⟩
  else if c = ascii 'x' then ⟨printint ((ap n).setWidth 32) 16 false, n + 1⟩
  else if c = ascii 'p' then ⟨printptr (ap n), n + 1⟩
  else if c = ascii 's' then ⟨argString str (ap n), n + 1⟩
  else if c = ascii 'c' then ⟨[UInt8.ofNat (ap n).toNat], n + 1⟩
  else if c = ascii '%' then ⟨[c], n⟩
  else ⟨[ascii '%', c], n⟩

/-- The loop of `vprintf`; `state` says that the last character was a `%`. -/
def vprintf : (state : Bool) → (n : Nat) → List UInt8 → Printed
  | _, n, [] => ⟨[], n⟩
  | false, n, c :: fmt =>
    if c = ascii '%' then vprintf true n fmt
    else
      let rest := vprintf false n fmt
      ⟨c :: rest.out, rest.args⟩
  | true, n, c :: fmt =>
    let first := conversion ap str n c
    let rest := vprintf false first.args fmt
    ⟨first.out ++ rest.out, rest.args⟩

/-- `printf(fmt)` for the bytes at `fmt`. -/
def printf (fmt : List UInt8) : Printed := vprintf ap str false 0 (fmt.takeWhile (· ≠ 0))

end

/-! ## Messages that are printed as they are -/

/-- The characters that mean something after a `%`. -/
def conversions : List UInt8 :=
  [ascii 'd', ascii 'l', ascii 'x', ascii 'p', ascii 's', ascii 'c', ascii '%']

/-- Every `%` is followed by a character that means nothing after it. -/
def verbatim : (state : Bool) → List UInt8 → Bool
  | state, [] => !state
  | false, c :: m => verbatim (c = ascii '%') m
  | true, c :: m => c ∉ conversions ∧ verbatim false m

variable (ap : Nat → BitVec 64) (str : BitVec 64 → List UInt8)

theorem conversion_cases (n : Nat) (c : UInt8) :
    (c ∈ conversions ∧ (conversion ap str n c).args = n + 1) ∨
    (c = ascii '%' ∧ conversion ap str n c = ⟨[c], n⟩) ∨
    (c ∉ conversions ∧ conversion ap str n c = ⟨[ascii '%', c], n⟩) := by
  rw [conversion]
  split_ifs with hd hl hx hp hs hc h0
  case pos => exact .inl ⟨by simp [conversions, hd], rfl⟩
  case pos => exact .inl ⟨by simp [conversions, hl], rfl⟩
  case pos => exact .inl ⟨by simp [conversions, hx], rfl⟩
  case pos => exact .inl ⟨by simp [conversions, hp], rfl⟩
  case pos => exact .inl ⟨by simp [conversions, hs], rfl⟩
  case pos => exact .inl ⟨by simp [conversions, hc], rfl⟩
  case pos => exact .inr (.inl ⟨h0, rfl⟩)
  case neg => exact .inr (.inr ⟨by simp [conversions, *], rfl⟩)

theorem le_args (state : Bool) (n : Nat) (m : List UInt8) : n ≤ (vprintf ap str state n m).args := by
  induction m generalizing state n with
  | nil => cases state <;> exact Nat.le_refl n
  | cons c m ih =>
    cases state with
    | false =>
      rw [vprintf]
      split
      · exact ih true n
      · exact ih false n
    | true =>
      rw [vprintf]
      have hrest := ih false (conversion ap str n c).args
      rcases conversion_cases ap str n c with ⟨-, h⟩ | ⟨-, h⟩ | ⟨-, h⟩
      · exact Nat.le_trans (by omega) hrest
      all_goals
        rw [h] at hrest ⊢
        exact hrest

/-- As long as no argument is taken the output is not longer than the format. -/
theorem length_out_le (state : Bool) (n : Nat) (m : List UInt8)
    (h : (vprintf ap str state n m).args = n) :
    (vprintf ap str state n m).out.length ≤ m.length + state.toNat := by
  induction m generalizing state n with
  | nil => cases state <;> exact Nat.zero_le _
  | cons c m ih =>
    cases state with
    | false =>
      rw [vprintf] at h ⊢
      split
      · rename_i hc
        rw [if_pos hc] at h
        exact ih true n h
      · rename_i hc
        rw [if_neg hc] at h
        exact Nat.succ_le_succ (ih false n h)
    | true =>
      rw [vprintf] at h ⊢
      rcases conversion_cases ap str n c with ⟨-, hc⟩ | ⟨-, hc⟩ | ⟨-, hc⟩
      · have hle := le_args ap str false (conversion ap str n c).args m
        simp only at h
        omega
      all_goals
        rw [hc] at h ⊢
        have hrest := ih false n h
        simp only [List.length_append, List.length_cons, List.length_nil, Bool.toNat_true,
          Bool.toNat_false] at hrest ⊢
        omega

/-- The `%` that `vprintf` has read but not written. -/
def pending (state : Bool) : List UInt8 := if state then [ascii '%'] else []

theorem vprintf_eq_iff (state : Bool) (n : Nat) (m : List UInt8) :
    vprintf ap str state n m = ⟨pending state ++ m, n⟩ ↔ verbatim state m = true := by
  induction m generalizing state n with
  | nil => cases state <;> simp [vprintf, pending, verbatim]
  | cons c m ih =>
    cases state with
    | false =>
      rw [vprintf, verbatim, ← ih _ n]
      by_cases hc : c = ascii '%'
      · simp [hc, pending]
      · have hrest : ∀ r : Printed, (⟨c :: r.out, r.args⟩ : Printed) = ⟨c :: m, n⟩ ↔ r = ⟨m, n⟩ := by
          rintro ⟨out, args⟩
          simp
        simpa [hc, pending] using hrest _
    | true =>
      rw [vprintf, verbatim, decide_eq_true_iff, ← ih false n]
      rcases conversion_cases ap str n c with ⟨hmem, hc⟩ | ⟨rfl, hc⟩ | ⟨hmem, hc⟩
      · -- an argument is taken
        refine iff_of_false (fun heq => ?_) fun h => h.1 hmem
        have hle := le_args ap str false (conversion ap str n c).args m
        have hargs := congrArg Printed.args heq
        simp only at hargs
        omega
      · -- `%%` is written as one character
        refine iff_of_false (fun heq => ?_) fun h => h.1 (by decide)
        have hargs := congrArg Printed.args heq
        have hout := congrArg (fun r => r.out.length) heq
        rw [hc] at hargs hout
        have hle := length_out_le ap str false n m hargs
        simp only [pending, if_true, List.length_append, List.length_cons, List.length_nil,
          Bool.toNat_false] at hout hle
        omega
      · rw [hc]
        have hrest : ∀ r : Printed, (⟨[ascii '%', c] ++ r.out, r.args⟩ : Printed) =
            ⟨ascii '%' :: c :: m, n⟩ ↔ r = ⟨m, n⟩ := by
          rintro ⟨out, args⟩
          simp
        simpa [pending, hmem] using hrest _

/-- The shell prints the message `m` that `wait` has stored in `msg`, and takes no argument that it
    has not passed, iff every `%` in it is followed by a character that means nothing after it. -/
theorem printf_verbatim_iff (m rest : List UInt8) (hnul : 0 ∉ m) :
    printf ap str (m ++ 0 :: rest) = ⟨m, 0⟩ ↔ verbatim false m = true := by
  have htake : (m ++ 0 :: rest).takeWhile (· ≠ 0) = m := by
    rw [List.takeWhile_append_of_pos fun c hc => by
      simpa using fun h0 : c = 0 => hnul (h0 ▸ hc)]
    simp
  rw [printf, htake]
  exact vprintf_eq_iff ap str false 0 m

/-- The message `50%!`. -/
theorem printf_verbatim_iff_fifty :
    printf (fun _ => 7) (fun _ => []) (("50%!".toList.map ascii) ++ 0 :: List.replicate 27 0) =
      ⟨"50%!".toList.map ascii, 0⟩ :=
  (printf_verbatim_iff _ _ _ _ (by decide)).mpr (by decide)

/-- For the message `%d` the shell prints a word that it has not passed. -/
theorem printf_takes_argument :
    printf (fun _ => 7) (fun _ => []) ("%d".toList.map ascii ++ 0 :: List.replicate 29 0) =
      ⟨[ascii '7'], 1⟩ := by
  decide

end Xv6.User
