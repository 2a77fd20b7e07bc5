import Mathlib.Algebra.Group.Basic
import Mathlib.Algebra.Group.Int.Defs
import Mathlib.Algebra.GroupWithZero.Nat
import Mathlib.Data.Int.Basic

/-!
# Byte-addressed memory

A memory is a function from addresses to bytes. `write` stores a list of bytes, `read`
loads one, and `IsString` says which NUL-terminated string stands at an address.
`leBytes` and `ofBytes` are the little-endian encodings of integers.
-/

/-- A byte-addressed memory. -/
abbrev ByteMem := Nat → UInt8

namespace ByteMem

/-- Store the bytes `bs` from address `a` on. -/
def write (m : ByteMem) (a : Nat) (bs : List UInt8) : ByteMem := fun x =>
  if a ≤ x then bs.getD (x - a) (m x) else m x

/-- Load `k` bytes from address `a` on. -/
def read (m : ByteMem) (a k : Nat) : List UInt8 := (List.range k).map fun j => m (a + j)

@[simp] theorem read_length (m : ByteMem) (a k : Nat) : (m.read a k).length = k := by
  simp [read]

theorem read_succ (m : ByteMem) (a k : Nat) : m.read a (k + 1) = m a :: m.read (a + 1) k := by
  simp only [read, List.range_succ_eq_map, List.map_cons, List.map_map, Nat.add_zero]
  congr 1
  refine List.map_congr_left fun j _ => ?_
  rw [Function.comp_apply, Nat.succ_eq_add_one, Nat.add_assoc, Nat.add_comm 1 j]

variable {m : ByteMem}

theorem getElem?_read {a k j : Nat} (hj : j < k) :
    (m.read a k)[j]? = some (m (a + j)) := by
  simp [read, hj]

variable {bs : List UInt8}

theorem write_add {a j : Nat} (hj : j < bs.length) :
    bs[j]? = some (m.write a bs (a + j)) := by
  simp [write, hj]

theorem write_of_lt {a x : Nat} (h : x < a) :
    m.write a bs x = m x := by
  have hle : ¬ a ≤ x := by omega
  simp [write, hle]

theorem write_of_ge {a x : Nat} (h : a + bs.length ≤ x) :
    m.write a bs x = m x := by
  have hle : a ≤ x := by omega
  have hlen : bs.length ≤ x - a := by omega
  simp [write, hle, hlen]

/-- What was stored is loaded again. -/
theorem read_write (m : ByteMem) (a : Nat) (bs : List UInt8) :
    (m.write a bs).read a bs.length = bs := by
  refine List.ext_getElem? fun j => ?_
  by_cases hj : j < bs.length
  · rw [getElem?_read hj, write_add hj]
  · simp [hj]

/-- Part of what was stored. -/
theorem read_write_add (m : ByteMem) (a : Nat) (xs ys zs : List UInt8) :
    (m.write a (xs ++ ys ++ zs)).read (a + xs.length) ys.length = ys := by
  refine List.ext_getElem? fun j => ?_
  by_cases hj : j < ys.length
  · have hlt : xs.length + j < (xs ++ ys ++ zs).length := by
      simp only [List.length_append]
      omega
    rw [getElem?_read hj, Nat.add_assoc, ← write_add hlt, List.append_assoc,
      List.getElem?_append_right (by omega), Nat.add_sub_cancel_left, List.getElem?_append_left hj]
  · simp [hj]

theorem read_concat (m : ByteMem) (a k : Nat) : m.read a (k + 1) = m.read a k ++ [m (a + k)] := by
  simp [read, List.range_succ]

theorem read_write_of_disjoint {a b k : Nat} (h : b + k ≤ a ∨ a + bs.length ≤ b) :
    (m.write a bs).read b k = m.read b k := by
  refine List.map_congr_left fun j hj => ?_
  have hj := List.mem_range.mp hj
  rcases h with h | h
  · exact write_of_lt (by omega)
  · exact write_of_ge (by omega)

/-- Two stores, one behind the other. -/
theorem write_append (m : ByteMem) (a : Nat) (xs ys : List UInt8) :
    (m.write a xs).write (a + xs.length) ys = m.write a (xs ++ ys) := by
  funext x
  simp only [write, List.getD_eq_getElem?_getD]
  grind

/-- The same stores in the other order. -/
theorem write_append_back (m : ByteMem) (a : Nat) (xs ys : List UInt8) :
    (m.write (a + xs.length) ys).write a xs = m.write a (xs ++ ys) := by
  funext x
  simp only [write, List.getD_eq_getElem?_getD]
  grind

/-- A store that changes nothing. -/
theorem write_eq_self_iff {a : Nat} :
    m.write a bs = m ↔ m.read a bs.length = bs := by
  constructor
  · intro h
    have hread := read_write m a bs
    rwa [h] at hread
  · intro h
    funext x
    by_cases hx : a ≤ x ∧ x < a + bs.length
    · obtain ⟨j, rfl⟩ := Nat.exists_eq_add_of_le hx.1
      have hj : j < bs.length := by omega
      have hsome := write_add (m := m) (a := a) hj
      rw [← h, getElem?_read hj, Option.some.injEq, h] at hsome
      exact hsome.symm
    · rcases Nat.lt_or_ge x a with hlt | hge
      · exact write_of_lt hlt
      · exact write_of_ge (by omega)

/-- The NUL-terminated string at address `a` is `s`. -/
def IsString (m : ByteMem) (a : Nat) (s : List UInt8) : Prop :=
  m.read a (s.length + 1) = s ++ [0]

theorem isString_iff {a : Nat} {s : List UInt8} :
    m.IsString a s ↔ ∀ j ≤ s.length, (s ++ [0])[j]? = some (m (a + j)) := by
  constructor
  · intro h j hj
    rw [← h, getElem?_read (by omega)]
  · intro h
    refine List.ext_getElem? fun j => ?_
    by_cases hj : j ≤ s.length
    · rw [getElem?_read (by omega), h j hj]
    · have hlen : (s ++ [0]).length ≤ j := by simp; omega
      rw [List.getElem?_eq_none hlen, List.getElem?_eq_none (by simp; omega)]

end ByteMem

/-! ## Little-endian integers -/

/-- The `k` little-endian bytes of `v`. -/
def leBytes : Nat → Int → List UInt8
  | 0, _ => []
  | k + 1, v => UInt8.ofNat (v % 256).toNat :: leBytes k (v / 256)

/-- The natural number with the given little-endian bytes. -/
def ofBytes : List UInt8 → Int
  | [] => 0
  | b :: bs => b.toNat + 256 * ofBytes bs

@[simp] theorem leBytes_length (k : Nat) (v : Int) : (leBytes k v).length = k := by
  induction k generalizing v with
  | zero => rfl
  | succ k ih => simp [leBytes, ih]

theorem toNat_lowByte (v : Int) : ((UInt8.ofNat (v % 256).toNat).toNat : Int) = v % 256 := by
  have hlt : (v % 256).toNat < 256 := by omega
  rw [UInt8.toNat_ofNat', Nat.mod_eq_of_lt hlt]
  omega

/-- The remainder modulo `256 * b`, digit by digit. -/
theorem emod_256_mul (v : Int) {b : Int} (hb : 0 < b) :
    v % (256 * b) = v % 256 + 256 * (v / 256 % b) := by
  have hdigit : 0 ≤ v / 256 % b := Int.emod_nonneg _ (by omega)
  have hlt : v / 256 % b < b := Int.emod_lt_of_pos _ hb
  have hv : v = v % 256 + 256 * (v / 256 % b) + 256 * b * (v / 256 / b) := by
    have hq : v / 256 = v / 256 % b + b * (v / 256 / b) := (Int.emod_add_mul_ediv ..).symm
    have hr : v = v % 256 + 256 * (v / 256) := (Int.emod_add_mul_ediv ..).symm
    rw [Int.mul_assoc, Int.add_assoc, ← Int.mul_add, ← hq]
    exact hr
  conv => lhs; rw [hv]
  rw [Int.add_mul_emod_self_left]
  exact Int.emod_eq_of_lt (by omega) (by omega)

/-- The bytes of `v` determine it modulo `256 ^ k`. -/
theorem ofBytes_leBytes (k : Nat) (v : Int) : ofBytes (leBytes k v) = v % 256 ^ k := by
  induction k generalizing v with
  | zero => simp [leBytes, ofBytes, Int.emod_one]
  | succ k ih =>
    have hpos : (0 : Int) < 256 ^ k := Int.pow_pos (by decide)
    rw [leBytes, ofBytes, ih, toNat_lowByte, Int.pow_succ', emod_256_mul v hpos]

theorem ofBytes_leBytes_nat {k v : Nat} (hv : v < 256 ^ k) : ofBytes (leBytes k v) = v := by
  rw [ofBytes_leBytes]
  have hlt := Int.ofNat_lt.mpr hv
  rw [Int.natCast_pow] at hlt
  exact Int.emod_eq_of_lt (by omega) hlt

/-! ## Words -/

theorem length_flatMap_leBytes (w : Nat) (ws : List Nat) :
    (ws.flatMap fun v : Nat => leBytes w v).length = w * ws.length := by
  induction ws with
  | nil => rfl
  | cons v ws ih => rw [List.flatMap_cons, List.length_append, leBytes_length, ih, List.length_cons,
      Nat.mul_succ, Nat.add_comm]

/-- One of the words behind some other bytes. -/
theorem ByteMem.read_write_words (m : ByteMem) (a : Nat) (xs : List UInt8) (w : Nat) (ws : List Nat)
    {k : Nat} (hk : k < ws.length) :
    (m.write a (xs ++ ws.flatMap fun v : Nat => leBytes w v)).read (a + xs.length + w * k) w =
      leBytes w (ws[k] : Nat) := by
  have hlist : ws = ws.take k ++ [ws[k]] ++ ws.drop (k + 1) := by
    rw [List.append_assoc, List.singleton_append, List.getElem_cons_drop, List.take_append_drop]
  have hsplit : (ws.flatMap fun v : Nat => leBytes w v) =
      ((ws.take k).flatMap fun v : Nat => leBytes w v) ++ leBytes w (ws[k] : Nat) ++
        (ws.drop (k + 1)).flatMap fun v : Nat => leBytes w v := by
    refine (congrArg (List.flatMap fun v : Nat => leBytes w v) hlist).trans ?_
    simp only [List.flatMap_append, List.flatMap_cons, List.flatMap_nil, List.append_nil]
  have hread := m.read_write_add a (xs ++ (ws.take k).flatMap fun v : Nat => leBytes w v)
    (leBytes w (ws[k] : Nat)) ((ws.drop (k + 1)).flatMap fun v : Nat => leBytes w v)
  rw [List.length_append, length_flatMap_leBytes, List.length_take, Nat.min_eq_left (by omega),
    leBytes_length, ← Nat.add_assoc, List.append_assoc, List.append_assoc] at hread
  rw [hsplit, List.append_assoc]
  exact hread
