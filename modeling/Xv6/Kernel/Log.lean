import Xv6.ForStd.Prog
import Xv6.ForStd.Transition
import Xv6.ForStd.Update

/-!
# The disk log

The part of `kernel/log.c` that reads and writes the disk: `write_log`, `write_head`,
`install_trans`, `read_head`, `recover_from_log` and `commit`, as programs over the disk, the
buffer cache and the in-memory header `log.lh`. A block is the array of its 32-bit words.

`cache b` is what `bread` returns for block `b`: the contents of its buffer, or those of the disk
when no buffer holds it. A block that was modified and passed to `log_write` is pinned, so
its buffer stays until it is written. `bunpin` and `brelse` change no contents and are left
out, and so is the `bread` of a buffer that is overwritten as a whole.
-/

namespace Xv6.Log

/-- A disk block as its words. -/
abbrev Block := Nat → Nat

/-- `struct logheader`; `block` has entries below `n`. -/
structure Header where
  n : Nat
  block : Nat → Nat

/-- `log.start` and `log.size`: the header block and the log blocks behind it. -/
structure Area where
  start : Nat
  size : Nat
  pos : 0 < size

/-- Block `b` belongs to the log area. -/
def Area.contains (g : Area) (b : Nat) : Prop := g.start ≤ b ∧ b < g.start + g.size

instance (g : Area) (b : Nat) : Decidable (g.contains b) := inferInstanceAs (Decidable (_ ∧ _))

/-- The disk, the buffer cache and `log.lh`. `written` records the blocks that the disk was told
    to write, the last one first; no program reads it. -/
structure Store where
  disk : Nat → Block
  cache : Nat → Block
  lh : Header
  written : List Nat

/-- After a power cycle only the disk is left. -/
def Store.boot (disk : Nat → Block) : Store := ⟨disk, disk, ⟨0, fun _ => 0⟩, []⟩

/-- Block `b` gets the contents `v`, in its buffer and on the disk. -/
def Store.write (s : Store) (b : Nat) (v : Block) : Store :=
  { s with disk := upd s.disk b v, cache := upd s.cache b v, written := b :: s.written }

/-- `log.lh.n = 0`. -/
def Store.clear (s : Store) : Store := { s with lh := { s.lh with n := 0 } }

/-- `bread`: the contents of a block. -/
def bread (b : Nat) : Prog Store Block := .gets fun s => s.cache b

/-- Storing `v` in the buffer of block `b`, and `bwrite`. -/
def bwrite (b : Nat) (v : Block) : Prog Store Unit := .modify fun s => s.write b v

/-- `log.lh`. -/
def getHead : Prog Store Header := .gets fun s => s.lh

def clearHead : Prog Store Unit := .modify Store.clear

/-- The header block `hb` with the fields of `lh` stored in it. -/
def Header.encode (lh : Header) (hb : Block) : Block := fun w =>
  if w = 0 then lh.n else if w ≤ lh.n then lh.block (w - 1) else hb w

/-- The header in block `hb`; entries behind the last one stay as they are in `lh`. -/
def Header.decode (lh : Header) (hb : Block) : Header where
  n := hb 0
  block i := if i < hb 0 then hb (i + 1) else lh.block i

/-- `write_log`. -/
def writeLog (g : Area) : Prog Store Unit := do
  let lh ← getHead
  .forUp
    (fun tail => do
      let data ← bread (lh.block tail)
      bwrite (g.start + tail + 1) data)
    0 lh.n

/-- `write_head`. -/
def writeHead (g : Area) : Prog Store Unit := do
  let lh ← getHead
  let hb ← bread g.start
  bwrite g.start (lh.encode hb)

/-- `install_trans`; its argument only decides about `bunpin`. -/
def installTrans (g : Area) : Prog Store Unit := do
  let lh ← getHead
  .forUp
    (fun tail => do
      let data ← bread (g.start + tail + 1)
      bwrite (lh.block tail) data)
    0 lh.n

/-- `read_head`. -/
def readHead (g : Area) : Prog Store Unit := do
  let hb ← bread g.start
  .modify fun s => { s with lh := s.lh.decode hb }

/-- `recover_from_log`. -/
def recoverFromLog (g : Area) : Prog Store Unit := do
  readHead g
  installTrans g
  clearHead
  writeHead g

/-- `commit`. -/
def commit (g : Area) : Prog Store Unit := do
  let lh ← getHead
  if 0 < lh.n then
    writeLog g
    writeHead g
    installTrans g
    clearHead
    writeHead g

/-! ## Transactions and crashes -/

/-- New contents for distinct blocks outside the log area, at most `log.size - 1` of them. -/
structure Transaction (g : Area) where
  updates : List (Nat × Block)
  nodup : (updates.map Prod.fst).Nodup
  home : ∀ b ∈ updates.map Prod.fst, ¬ g.contains b
  fits : updates.length ≤ g.size - 1

namespace Transaction

variable {g : Area}

/-- Block `b` with the update of the transaction for it, if there is one. -/
def apply (t : Transaction g) (disk : Nat → Block) : Nat → Block := fun b =>
  (t.updates.lookup b).getD (disk b)

/-- What the operations of the transaction leave to `commit`: the new contents are in the cache and
    `log.lh` names the blocks. -/
def load (t : Transaction g) (s : Store) : Store :=
  { s with
    cache := t.apply s.cache
    lh := ⟨t.updates.length, fun i => (t.updates.map Prod.fst).getD i 0⟩
    written := [] }

end Transaction

namespace Run

/-- The machine between two commits, with the transactions whose header reached the disk. -/
structure State (g : Area) where
  store : Store
  done : List (Transaction g)

inductive Event (g : Area) where
  /-- a transaction is committed -/
  | commit (t : Transaction g)
  /-- the machine crashes after `k` actions of the commit; the recovery at the next boot is cut
      short by further crashes, after each of the numbers of actions in `ks`, and then completes -/
  | crash (t : Transaction g) (k : Nat) (ks : List Nat)

/-- The disk after recoveries that were cut short. -/
def recrash (g : Area) (disk : Nat → Block) : List Nat → (Nat → Block)
  | [] => disk
  | k :: ks => recrash g ((recoverFromLog g).after k (.boot disk)).disk ks

variable {g : Area}

/-- The transactions whose first `write_head` reached the disk when `t` ran up to state `x`. -/
def State.reached (s : State g) (t : Transaction g) (x : Store) : List (Transaction g) :=
  if g.start ∈ x.written then s.done ++ [t] else s.done

def State.step (s : State g) : Event g → Option (State g)
  | .commit t =>
    match (Log.commit g).exec (t.load s.store) with
    | .ok _ x => some ⟨x, s.reached t x⟩
    | .stop _ => none
  | .crash t k ks =>
    let x := (Log.commit g).after k (t.load s.store)
    match (recoverFromLog g).exec (.boot (recrash g x.disk ks)) with
    | .ok _ y => some ⟨y, s.reached t x⟩
    | .stop _ => none

end Run

/-- Transactions and crashes, from a disk whose log header has `n = 0`. -/
def logRun (g : Area) (disk : Nat → Block) : TransitionSystem (Run.State g) (Run.Event g) where
  init s := disk g.start 0 = 0 ∧ s = ⟨.boot disk, []⟩
  step := Run.State.step

end Xv6.Log
