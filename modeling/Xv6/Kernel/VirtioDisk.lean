import Xv6.ForStd.WrapRing
import Xv6.ForStd.Transition
import Xv6.Kernel.Proc

/-!
# The virtio disk driver

`kernel/virtio_disk.c` with any number of processes in `virtio_disk_rw`, the interrupt handler, and the
device. The driver runs under `vdisk_lock`, but the device does not: it looks at the rings and at the
descriptors at any time. A step of the driver therefore ends before each store that hands something to
the device and before each test of something that the device stores.

The device takes heads from the available ring in order and completes the chains that it has taken in
any order: it follows the descriptors, stores 0 where the last one points to, and puts the head into
the used ring. `done` is the history of what it has completed. A process that sleeps may wake up at any
time (`kill` wakes it) and tests its condition again.
-/

namespace Xv6

namespace Virtio

def NUM : Nat := 8

def BSIZE : Nat := 1024

def VRING_DESC_F_NEXT : Nat := 1

def VRING_DESC_F_WRITE : Nat := 2

/-- What the addresses in descriptors point to. -/
inductive Addr where
  | null
  /-- `&disk.ops[i]` -/
  | op (i : Nat)
  /-- `b->data` -/
  | data (b : Nat)
  /-- `&disk.info[i].status` -/
  | status (i : Nat)
deriving DecidableEq

/-- `struct virtq_desc`. -/
structure Desc where
  addr : Addr
  len : Nat
  flags : Nat
  next : Nat
deriving DecidableEq

def Desc.zero : Desc := ⟨.null, 0, 0, 0⟩

/-- `struct virtio_blk_req`; `call` is the number of the call that has filled it in. -/
structure BlkReq where
  write : Bool
  sector : Nat
  call : Nat
deriving DecidableEq

/-- `struct disk` and the memory that it points to. -/
structure Disk where
  desc : Nat → Desc
  /-- `avail->ring` -/
  availRing : Nat → Nat
  /-- `avail->idx` -/
  availIdx : BitVec 16
  /-- `used->ring[].id` -/
  usedRing : Nat → Nat
  /-- `used->idx` -/
  usedDevIdx : BitVec 16
  free : Nat → Bool
  /-- `used_idx` -/
  usedIdx : BitVec 16
  /-- `info[].b` -/
  infoB : Nat → Option Nat
  /-- `info[].status` -/
  infoStatus : Nat → Nat
  ops : Nat → BlkReq

namespace Disk

variable (d : Disk)

def allocDesc : Option Nat × Disk :=
  match (List.range NUM).find? fun i => d.free i with
  | some i => (some i, { d with free := upd d.free i false })
  | none => (none, d)

def freeDesc (i : Nat) : Except String Disk :=
  if NUM ≤ i then .error "free_desc 1"
  else if d.free i then .error "free_desc 2"
  else .ok { d with desc := upd d.desc i .zero, free := upd d.free i true }

/-- The loop of `free_chain`. It runs at most `NUM` times, as `free_desc` panics when a descriptor is
    free already. -/
def freeChain : Nat → Nat → Disk → Except String Disk
  | 0, _, d => .ok d
  | k + 1, i, d => do
    let flag := (d.desc i).flags
    let nxt := (d.desc i).next
    let d ← d.freeDesc i
    if flag &&& VRING_DESC_F_NEXT ≠ 0 then freeChain k nxt d else .ok d

/-- The loop of `alloc3_desc` for `k` more descriptors: those that it has got, or `none` for -1. -/
def allocLoop : (k : Nat) → List Nat → Disk → Except String (Option (List Nat) × Disk)
  | 0, idx, d => .ok (some idx, d)
  | k + 1, idx, d =>
    match d.allocDesc with
    | (some i, d) => allocLoop k (idx ++ [i]) d
    | (none, d) => do
      let d ← idx.foldlM (fun d j => d.freeDesc j) d
      .ok (none, d)

def alloc3Desc : Except String (Option (List Nat) × Disk) := allocLoop 3 [] d

end Disk

/-! ## Calls and the device -/

/-- Where `virtio_disk_rw` stands; `idx` are its descriptors. -/
inductive Pc where
  /-- before `acquire(&disk.vdisk_lock)`, also the one at the end of `sleep(&disk.free[0], …)` -/
  | acquire
  /-- at `while(1)` -/
  | alloc
  /-- `alloc3_desc` has returned 0 -/
  | format (idx : List Nat)
  /-- before `disk.avail->ring[disk.avail->idx % NUM] = idx[0]` -/
  | ring (idx : List Nat)
  /-- before `disk.avail->idx += 1` -/
  | bump (idx : List Nat)
  /-- at `while(b->disk == 1)` -/
  | wait (idx : List Nat)
  /-- in `sleep(b, &disk.vdisk_lock)` -/
  | asleep (idx : List Nat)
  /-- `b->disk` is 0: before `disk.info[idx[0]].b = 0; free_chain(idx[0])` -/
  | finish (idx : List Nat)
deriving DecidableEq

/-- A call of `virtio_disk_rw(b, write)`. -/
structure Call where
  b : Nat
  write : Bool
  sector : Nat
  /-- the number of this call -/
  call : Nat
  pc : Pc

structure Device where
  /-- how far it has taken heads from the available ring -/
  seen : BitVec 16
  /-- the heads that it has taken and not completed -/
  work : List Nat
  /-- the requests that it has completed, each with the buffer that it has read or written -/
  done : List (BlkReq × Addr)

inductive Agent where
  | proc (p : Slot)
  | intr
deriving DecidableEq

structure State where
  disk : Disk
  /-- `b->disk` -/
  bdisk : Nat → Bool
  /-- the holder of `vdisk_lock` -/
  lk : Option Agent
  pc : Slot → Option Call
  dev : Device
  /-- how many calls were made -/
  calls : Nat
  panicked : Option String

inductive Input where
  /-- a process that holds the lock of buffer `b` calls `virtio_disk_rw(b, write)` -/
  | rw (p : Slot) (b blockno : Nat) (write : Bool)
  | step (p : Slot)
  /-- `virtio_disk_intr` takes the lock -/
  | intr
  /-- one round of its loop, or its end -/
  | intrStep
  /-- the device takes a head from the available ring -/
  | fetch
  /-- the device completes the chain that is number `k` of those that it has taken -/
  | complete (k : Nat)

namespace State

variable (s : State) (p : Slot) (c : Call)

def goto (pc : Pc) : State := { s with pc := upd s.pc p (some { c with pc := pc }) }

/-- `virtio_disk_rw` from the first store to `disk.ops` up to the store to the ring. -/
def format (idx : List Nat) : State :=
  let i0 := idx.getD 0 0
  let i1 := idx.getD 1 0
  let i2 := idx.getD 2 0
  let d0 : Desc := ⟨.op i0, 16, VRING_DESC_F_NEXT, i1⟩
  let d1 : Desc :=
    ⟨.data c.b, BSIZE, (if c.write then 0 else VRING_DESC_F_WRITE) ||| VRING_DESC_F_NEXT, i2⟩
  let d2 : Desc := ⟨.status i0, 1, VRING_DESC_F_WRITE, 0⟩
  { s.goto p c (.ring idx) with
    disk :=
      { s.disk with
        ops := upd s.disk.ops i0 ⟨c.write, c.sector, c.call⟩
        desc := upd (upd (upd s.disk.desc i0 d0) i1 d1) i2 d2
        infoStatus := upd s.disk.infoStatus i0 0xff
        infoB := upd s.disk.infoB i0 (some c.b) }
    bdisk := upd s.bdisk c.b true }

/-- The next step of `virtio_disk_rw`. -/
def exec : Pc → Option State
  | .acquire => if s.lk = none then some { s.goto p c .alloc with lk := some (.proc p) } else none
  | .alloc =>
    match s.disk.alloc3Desc with
    | .error msg => some { s with panicked := some msg }
    | .ok (some idx, d) => some { s.goto p c (.format idx) with disk := d }
    | .ok (none, d) => some { s.goto p c .acquire with disk := d, lk := none }
  | .format idx => some (s.format p c idx)
  | .ring idx =>
    some
      { s.goto p c (.bump idx) with
        disk :=
          { s.disk with
            availRing := upd s.disk.availRing (s.disk.availIdx.toNat % NUM) (idx.getD 0 0) } }
  | .bump idx =>
    some { s.goto p c (.wait idx) with disk := { s.disk with availIdx := s.disk.availIdx + 1#16 } }
  | .wait idx =>
    if s.bdisk c.b = true then some { s.goto p c (.asleep idx) with lk := none }
    else some (s.goto p c (.finish idx))
  | .asleep idx =>
    if s.lk = none then some { s.goto p c (.wait idx) with lk := some (.proc p) } else none
  | .finish idx =>
    match Disk.freeChain (NUM + 1) (idx.getD 0 0)
        { s.disk with infoB := upd s.disk.infoB (idx.getD 0 0) none } with
    | .error msg => some { s with panicked := some msg }
    | .ok d => some { s with disk := d, pc := upd s.pc p none, lk := none }

/-- One round of `while(disk.used_idx != disk.used->idx)`, or `release`. A store through the null
    pointer is a page fault. -/
def intrStep : State :=
  if s.disk.usedIdx ≠ s.disk.usedDevIdx then
    let id := s.disk.usedRing (s.disk.usedIdx.toNat % NUM)
    if s.disk.infoStatus id ≠ 0 then { s with panicked := some "virtio_disk_intr status" }
    else
      match s.disk.infoB id with
      | none => { s with panicked := some "kerneltrap" }
      | some b =>
        { s with
          bdisk := upd s.bdisk b false
          disk := { s.disk with usedIdx := s.disk.usedIdx + 1#16 } }
  else { s with lk := none }

/-- The device stores a status. -/
def setStatus (d : Disk) : Addr → Disk
  | .status i => { d with infoStatus := upd d.infoStatus i 0 }
  | .null | .op _ | .data _ => d

/-- The request header that an address points to. -/
def header (d : Disk) : Addr → Option BlkReq
  | .op i => some (d.ops i)
  | .null | .data _ | .status _ => none

/-- The device completes the chain with this head. -/
def complete (k head : Nat) : Option State :=
  let d0 := s.disk.desc head
  let d1 := s.disk.desc d0.next
  let d2 := s.disk.desc d1.next
  (header s.disk d0.addr).map fun req =>
    { s with
      disk :=
        { setStatus s.disk d2.addr with
          usedRing := upd s.disk.usedRing (s.disk.usedDevIdx.toNat % NUM) head
          usedDevIdx := s.disk.usedDevIdx + 1#16 }
      dev := { s.dev with work := s.dev.work.eraseIdx k, done := s.dev.done ++ [(req, d1.addr)] } }

/-- No process is in a call for buffer `b`. -/
def unused (b : Nat) : Prop := ∀ q, (s.pc q).all fun c => c.b ≠ b

instance (b : Nat) : Decidable (s.unused b) := inferInstanceAs (Decidable (∀ _, _))

def step (x : Input) : Option State :=
  if s.panicked.isSome then none
  else
    match x with
    | .rw p b blockno write =>
      if s.pc p = none ∧ s.unused b then
        some
          { s with
            pc := upd s.pc p (some ⟨b, write, blockno * (BSIZE / 512) % 2 ^ 32, s.calls, .acquire⟩)
            calls := s.calls + 1 }
      else none
    | .step p => (s.pc p).bind fun c => s.exec p c c.pc
    | .intr => if s.lk = none then some { s with lk := some .intr } else none
    | .intrStep => if s.lk = some .intr then some s.intrStep else none
    | .fetch =>
      if s.dev.seen ≠ s.disk.availIdx then
        some
          { s with
            dev :=
              { s.dev with
                seen := s.dev.seen + 1#16
                work := s.dev.work ++ [s.disk.availRing (s.dev.seen.toNat % NUM)] } }
      else none
    | .complete k => (s.dev.work[k]?).bind fun head => s.complete k head

end State

/-- The driver as `virtio_disk_init` leaves it. -/
def initial : Disk where
  desc _ := .zero
  availRing _ := 0
  availIdx := 0
  usedRing _ := 0
  usedDevIdx := 0
  free _ := true
  usedIdx := 0
  infoB _ := none
  infoStatus _ := 0
  ops _ := ⟨false, 0, 0⟩

end Virtio

/-- The disk driver and its device. -/
def virtioDisk : TransitionSystem Virtio.State Virtio.Input where
  init s := s.disk = Virtio.initial ∧ s.lk = none ∧ (∀ p, s.pc p = none) ∧
    s.dev = ⟨0, [], []⟩ ∧ s.calls = 0 ∧ s.panicked = none
  step s := s.step

end Xv6
