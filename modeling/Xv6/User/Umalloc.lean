import Xv6.ForStd.ByteMem

/-!
# The sizes of malloc

`user/umalloc.c` down to `growproc` of `kernel/proc.c`. A size is a `uint`, then a 64-bit product with
`sizeof(Header)`, and at last the `int` that `sbrk` takes.

* `malloc_sizes_iff` says for which requests the block that `morecore` records is the memory that it got.
-/

namespace Xv6.User

/-- What `growproc` uses of `kernel/vm.c`, which is not part of the repository. -/
structure UserVm where
  uvmalloc : (oldsz newsz : Nat) → Nat
  uvmdealloc : (oldsz newsz : Nat) → Nat
  alloc_eq : ∀ oldsz newsz, oldsz ≤ newsz → uvmalloc oldsz newsz = newsz ∨ uvmalloc oldsz newsz = 0

/-- `growproc`: `p->sz` afterwards, or nothing where it returns -1. -/
def growproc (vm : UserVm) (sz : Nat) (n : Int) : Option Nat :=
  if 0 < n then
    if vm.uvmalloc sz (sz + n.toNat) = 0 then none else some (vm.uvmalloc sz (sz + n.toNat))
  else if n < 0 then some (vm.uvmdealloc sz (((sz : Int) + n) % 2 ^ 64).toNat)
  else some sz

/-- `sys_sbrk`: the address that it returns and `p->sz` afterwards. `argint` takes the low 32 bits of `a0`. -/
def sysSbrk (vm : UserVm) (sz : Nat) (a0 : BitVec 64) : Option (Nat × Nat) :=
  (growproc vm sz (a0.setWidth 32).toInt).map fun sz' => (sz, sz')

/-- `sbrk` of `user/usys.pl` with an `int` in `a0`. -/
def sbrk (vm : UserVm) (sz : Nat) (n : BitVec 32) : Option (Nat × Nat) :=
  sysSbrk vm sz (n.signExtend 64)

/-- `sizeof(Header)`. -/
def sizeofHeader : BitVec 64 := 16#64

/-- `nunits` of `malloc`. -/
def nunits (nbytes : BitVec 32) : BitVec 32 :=
  ((nbytes.setWidth 64 + sizeofHeader - 1#64) / sizeofHeader + 1#64).setWidth 32

/-- The least number of units that `morecore` asks for. -/
def coreUnits (nu : BitVec 32) : BitVec 32 := if nu < 4096#32 then 4096#32 else nu

/-- The argument of `sbrk` in `morecore`. -/
def coreBytes (nu : BitVec 32) : BitVec 32 := (nu.setWidth 64 * sizeofHeader).setWidth 32

/-- A block of `morecore`: its address, the size in its header, and `p->sz` when it has been recorded. -/
structure Core where
  addr : Nat
  size : BitVec 32
  sz : Nat

/-- `morecore`, up to the call of `free`. -/
def morecore (vm : UserVm) (sz : Nat) (nu : BitVec 32) : Option Core :=
  (sbrk vm sz (coreBytes (coreUnits nu))).map fun r => ⟨r.1, coreUnits nu, r.2⟩

theorem nunits_eq (nbytes : BitVec 32) : (nunits nbytes).toNat = (nbytes.toNat + 16 + 15) / 16 := by
  have hlt := nbytes.isLt
  simp only [nunits, sizeofHeader, BitVec.toNat_setWidth, BitVec.toNat_add, BitVec.toNat_sub,
    BitVec.toNat_udiv, BitVec.toNat_ofNat, Nat.reducePow, Nat.reduceMod]
  omega

theorem coreUnits_eq (nu : BitVec 32) : (coreUnits nu).toNat = max 4096 nu.toNat := by
  simp only [coreUnits, BitVec.lt_def, BitVec.toNat_ofNat]
  split
  · rw [BitVec.toNat_ofNat]
    omega
  · omega

theorem coreBytes_eq (nu : BitVec 32) : (coreBytes nu).toNat = nu.toNat * 16 % 2 ^ 32 := by
  have hlt := nu.isLt
  simp only [coreBytes, sizeofHeader, BitVec.toNat_setWidth, BitVec.toNat_mul, BitVec.toNat_ofNat]
  omega

/-- `sbrk` gets the bytes of the block where they are an `int`, and fewer otherwise. -/
theorem coreBytes_le (nbytes : BitVec 32) :
    let nu := coreUnits (nunits nbytes)
    (coreBytes nu).toInt ≤ nu.toNat * 16 ∧
      ((coreBytes nu).toInt = nu.toNat * 16 ↔ nbytes.toNat ≤ 2147483616) := by
  have hlt := nbytes.isLt
  dsimp only
  rw [BitVec.toInt_eq_toNat_cond, coreBytes_eq, coreUnits_eq, nunits_eq]
  split <;> omega

theorem sbrk_eq (vm : UserVm) (sz : Nat) (n : BitVec 32) :
    sbrk vm sz n = (growproc vm sz n.toInt).map fun sz' => (sz, sz') := by
  have hlow : (n.signExtend 64).setWidth 32 = n := by
    ext i hi
    have hi' : i < 64 := by omega
    rw [BitVec.getElem_setWidth, BitVec.getLsbD_signExtend]
    simp [hi, hi']
  rw [sbrk, sysSbrk, hlow]

/-- A positive argument of `sbrk` is what the process grows by. -/
theorem morecore_grows {vm : UserVm} {sz : Nat} {nu : BitVec 32} {k : Core}
    (hpos : 0 < (coreBytes (coreUnits nu)).toInt) (h : morecore vm sz nu = some k) :
    k.addr = sz ∧ k.size = coreUnits nu ∧ k.sz = sz + (coreBytes (coreUnits nu)).toInt.toNat := by
  rw [morecore, sbrk_eq, growproc, if_pos hpos] at h
  have halloc := vm.alloc_eq sz (sz + (coreBytes (coreUnits nu)).toInt.toNat) (by omega)
  split at h
  · cases h
  · cases h
    exact ⟨rfl, rfl, halloc.resolve_right ‹_›⟩

/-- A kernel with memory for every request. -/
def roomy : UserVm := ⟨fun _ newsz => newsz, min, fun _ _ _ => .inl rfl⟩

theorem morecore_roomy (nu : BitVec 32) :
    morecore roomy 0 nu = some ⟨0, coreUnits nu, (coreBytes (coreUnits nu)).toInt.toNat⟩ := by
  rw [morecore, sbrk_eq]
  generalize (coreBytes (coreUnits nu)).toInt = n
  have hgrow : growproc roomy 0 n = some n.toNat := by
    rw [growproc]
    split
    · rw [if_neg (by simp only [roomy]; omega)]
      simp [roomy]
    · split
      · simp only [roomy, Option.some.injEq]
        omega
      · simp only [Option.some.injEq]
        omega
  rw [hgrow]
  rfl

/-- `nunits` is exact for every request. The argument of `sbrk` is the positive size of the block, and
    `morecore` records no more than the process got, exactly for requests that are an `int` with a header. -/
theorem malloc_sizes_iff (nbytes : BitVec 32) :
    (nunits nbytes).toNat = (nbytes.toNat + 16 + 15) / 16 ∧
    ((0 < (coreBytes (coreUnits (nunits nbytes))).toInt ∧
      (coreBytes (coreUnits (nunits nbytes))).toInt = (coreUnits (nunits nbytes)).toNat * 16) ↔
      nbytes.toNat ≤ 2147483616) ∧
    ((∀ vm sz k, morecore vm sz (nunits nbytes) = some k → k.addr + k.size.toNat * 16 ≤ k.sz) ↔
      nbytes.toNat ≤ 2147483616) := by
  obtain ⟨hle, hiff⟩ := coreBytes_le nbytes
  have hpos := coreUnits_eq (nunits nbytes)
  refine ⟨nunits_eq nbytes, ⟨fun h => hiff.mp h.2, fun h => ⟨?_, hiff.mpr h⟩⟩, fun hall => ?_,
    fun h vm sz k hk => ?_⟩
  · rw [hiff.mpr h]
    omega
  · have hroomy := hall roomy 0 _ (morecore_roomy _)
    dsimp only at hroomy
    exact hiff.mp (by omega)
  · have hbytes := hiff.mpr h
    obtain ⟨haddr, hsize, hsz⟩ := morecore_grows (by omega) hk
    rw [haddr, hsize, hsz]
    omega

/-- The largest request: `sbrk(16)`, and a header that says 2^28 + 1 units. -/
theorem malloc_sizes_truncated :
    (coreBytes (coreUnits (nunits 4294967295#32))).toInt = 16 ∧
    (coreUnits (nunits 4294967295#32)).toNat = 268435457 ∧
    (morecore roomy 0 (nunits 4294967295#32)).map (fun k => (k.size.toNat, k.sz)) = some (268435457, 16) := by
  decide +kernel

end Xv6.User
