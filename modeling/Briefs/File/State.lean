import Briefs.Alloc.Pool
import Briefs.Btree.Build
import Briefs.Dir.State
import Briefs.File.Extents
import Mathlib.Data.Nat.Bitwise

/-!
# The state of the file operations

What the operations of `file_ops.go` and `extent_ops.go` work on: the data allocator, the
blocks of the device, the inode table as `ReadInode` shows it, the frees that wait for the
next sync and the unwritten-block counts. A block holds data or a node of an extent index;
the walked-tree cache, the locks and the journal records are left out. `allocated` is the
list of the running operation, kept in the state so that a failed call leaves it to the
rollback of its caller, and `touched` records the blocks that data was read from or
written to.
-/

namespace Briefs.File

open Lib Alloc Btree
open Bridge (BlockRun RunAccum)
open Dir (inodeFlagIndexed)

def blockSize : ℕ := 4096

abbrev Block := ℕ → UInt8

def zeroBlock : Block := fun _ => 0

/-- `copy(buf[start:], data)`. -/
def copyInto (buf : Block) (start : ℕ) (data : Bytes) : Block := fun i =>
  if start ≤ i ∧ i < start + data.length then data.getD (i - start) 0 else buf i

/-- Zero the bytes from `first` up to, not including, `last`. -/
def clearRange (buf : Block) (first last : ℕ) : Block := fun i =>
  if first ≤ i ∧ i < last then 0 else buf i

inductive Cell
  | data (bytes : Block)
  | node (n : Node)

def Cell.bytes : Cell → Block
  | .data bytes => bytes
  | .node _ => zeroBlock

def loader (dev : ℕ → Cell) : Loader := fun b =>
  match dev b with
  | .node n => .ok n
  | .data _ => .error .badMagic

structure FS where
  dataAlloc : Allocator
  dev : ℕ → Cell
  inodes : ℕ → Inode
  pendingFrees : RunAccum
  /-- The blocks of the attribute chain of each inode. -/
  xattrBlocks : ℕ → List ℕ
  unwrittenRes : ℕ → ℕ
  allocated : RunAccum
  touched : List ℕ
  shutdown : Bool
  readOnly : Bool

/-- A block of the data region that the allocator may hand out. -/
def FreeAt (dataRegionStart : ℕ) (s : FS) (b : ℕ) : Prop :=
  ∃ rel, rel ≠ 0 ∧ b = dataRegionStart + rel ∧ s.dataAlloc.isFree rel = true

/-- A block that is freed at the next sync. -/
def PendingAt (dataRegionStart : ℕ) (s : FS) (b : ℕ) : Prop :=
  ∃ rel ∈ s.pendingFrees.blocks, b = dataRegionStart + rel

/-- What the removal of an attribute of `i` may change: it writes to free blocks only, gives
up blocks of the old chain, and may sync. -/
structure Clears (dataRegionStart : ℕ) (i : Inode) (s : FS) (i' : Inode) (t : FS) : Prop where
  inode : i' = { i with xattrOffset := i'.xattrOffset, ctime := i'.ctime }
  inodes : t.inodes = s.inodes ∨ t.inodes = Function.update s.inodes i.inodeNumber i'
  dev : ∀ b, ¬FreeAt dataRegionStart s b → t.dev b = s.dev b
  free : ∀ b, FreeAt dataRegionStart t b →
    FreeAt dataRegionStart s b ∨ PendingAt dataRegionStart s b ∨ b ∈ s.xattrBlocks i.inodeNumber
  pending : ∀ b, PendingAt dataRegionStart t b →
    PendingAt dataRegionStart s b ∧ (FreeAt dataRegionStart t b → FreeAt dataRegionStart s b)
  others : ∀ ino, ino ≠ i.inodeNumber → t.xattrBlocks ino = s.xattrBlocks ino
  chain : ∀ b ∈ t.xattrBlocks i.inodeNumber,
    b ∈ s.xattrBlocks i.inodeNumber ∧ (FreeAt dataRegionStart t b → FreeAt dataRegionStart s b) ∨
      FreeAt dataRegionStart s b ∧ ¬FreeAt dataRegionStart t b
  reserved : t.unwrittenRes = s.unwrittenRes
  shield : t.dataAlloc.metaShield = s.dataAlloc.metaShield

structure Env where
  dataRegionStart : ℕ
  totalBlocks : ℕ
  now : Time
  userFlags : ℕ → ℕ
  hasFSetID : Bool
  inGroup : ℕ → Bool
  /-- `setXattrLocked` where it removes `security.capability`; nothing to remove is no error. -/
  clearCapability : Inode → Call FS Inode
  /-- Positions on the device are 63-bit numbers. -/
  small : totalBlocks < 2 ^ 51
  clears : ∀ i s i' t, clearCapability i s = (.ok i', t) → Clears dataRegionStart i s i' t
  keeps : ∀ i s e t, clearCapability i s = (.error e, t) → t.inodes = s.inodes

abbrev Free (env : Env) : FS → ℕ → Prop := FreeAt env.dataRegionStart

abbrev Pending (env : Env) : FS → ℕ → Prop := PendingAt env.dataRegionStart

/-- `x &^ y`. -/
def bitClear (x y : ℕ) : ℕ := x ^^^ (x &&& y)

/-! ### The inline region -/

def marshalExtent (e : Extent) : Bytes :=
  putUint64 (UInt64.ofNat e.offset) ++ putUint64 (UInt64.ofNat e.phys) ++
    putUint64 (UInt64.ofNat e.len) ++ putUint32 (UInt32.ofNat e.flags) ++ putUint32 0

def unmarshalExtent (b : Bytes) : Extent where
  offset := (getUint64 b).toNat
  phys := (getUint64 (b.drop 8)).toNat
  len := (getUint64 (b.drop 16)).toNat
  flags := (getUint32 (b.drop 24)).toNat

/-- The 256 bytes of the region; `SetInlineExtents` has written the bytes of its extents. -/
def inlineData (i : Inode) : Block :=
  match i.region with
  | .data bytes => fun j => bytes.getD j 0
  | .extents exts => fun j => (exts.flatMap marshalExtent).getD j 0

def setInlineData (i : Inode) (region : Block) : Inode :=
  { i with region := .data ((List.range inlineDataMax).map region) }

/-- The eight extents of the region, parsed if bytes were written to it. -/
def inlineExtents (i : Inode) : List Extent :=
  match i.region with
  | .extents exts => (exts ++ List.replicate 8 (⟨0, 0, 0, 0⟩ : Extent)).take 8
  | .data bytes => (List.range 8).map fun k => unmarshalExtent (bytes.drop (32 * k))

def setInlineExtents (i : Inode) (exts : List Extent) : Inode := { i with region := .extents exts }

def isInlineData (i : Inode) : Prop := i.flags &&& inodeFlagInlineData ≠ 0

def isIndexed (i : Inode) : Prop := i.flags &&& inodeFlagIndexed ≠ 0

instance (i : Inode) : Decidable (isInlineData i) := inferInstanceAs (Decidable (_ ≠ _))

instance (i : Inode) : Decidable (isIndexed i) := inferInstanceAs (Decidable (_ ≠ _))

theorem and_two_pow_ne_zero (x k : ℕ) : x &&& 2 ^ k ≠ 0 ↔ x.testBit k = true := by
  rw [Nat.and_two_pow]
  cases x.testBit k <;> simp

theorem isInlineData_iff {i : Inode} : isInlineData i ↔ i.flags.testBit 3 = true :=
  and_two_pow_ne_zero i.flags 3

theorem isIndexed_iff {i : Inode} : isIndexed i ↔ i.flags.testBit 2 = true :=
  and_two_pow_ne_zero i.flags 2

theorem testBit_bitClear (x y k : ℕ) :
    (bitClear x y).testBit k = (x.testBit k && !y.testBit k) := by
  rw [bitClear, Nat.testBit_xor, Nat.testBit_and]
  cases x.testBit k <;> cases y.testBit k <;> rfl

/-! ### Device and allocator -/

section Calls

variable (env : Env)

def readBlock (abs : ℕ) : Call FS Block := fun s =>
  (.ok (s.dev abs).bytes, { s with touched := abs :: s.touched })

def writeCell (abs : ℕ) (c : Cell) : Call FS Unit := fun s =>
  (.ok (), { s with dev := Function.update s.dev abs c, touched := abs :: s.touched })

def writeBlock (abs : ℕ) (buf : Block) : Call FS Unit := writeCell abs (.data buf)

/-- `AllocBlock`, for metadata `AllocBlockMeta`: the block is added to the list of the
operation and returned with its number on the device. -/
def allocBlock (forMeta : Bool) : Call FS ℕ := fun s =>
  match s.dataAlloc.tryAllocBlock forMeta with
  | (rel, a) =>
    if rel = 0 then (.error (.errno .enospc), { s with dataAlloc := a })
    else (.ok (env.dataRegionStart + rel),
      { s with dataAlloc := a, allocated := s.allocated.addBlock rel })

/-- `rollbackAlloc`. -/
def rollbackAlloc : Call FS Unit :=
  Call.update fun s =>
    { s with dataAlloc := s.allocated.runs.foldl (fun a r => a.freeRun r.first r.n) s.dataAlloc }

/-- `var allocated runAccum`. -/
def resetAllocated : Call FS Unit := Call.update fun s => { s with allocated := {} }

/-- Roll back what the operation allocated if the call fails. -/
def orRollback {α : Type} (x : Call FS α) : Call FS α := fun s =>
  match x s with
  | (.ok a, t) => (.ok a, t)
  | (.error e, t) => (.error e, (rollbackAlloc t).2)

/-- `deferBlockFreeRun`. -/
def deferBlockFreeRun (s : FS) (run : BlockRun) : FS :=
  { s with pendingFrees :=
      s.pendingFrees.addRun ((run.first + 2 ^ 64 - env.dataRegionStart) % 2 ^ 64) run.n }

/-- `setUnwrittenRes`, with the adjustment of the shield. -/
def setUnwrittenRes (ino n : ℕ) : Call FS Unit :=
  Call.update fun s =>
    if n = s.unwrittenRes ino then s
    else
      { s with
        unwrittenRes := Function.update s.unwrittenRes ino n
        dataAlloc := s.dataAlloc.adjustShield
          ((Dir.metaReserveSize n : ℤ) - Dir.metaReserveSize (s.unwrittenRes ino)) }

def updateUnwrittenRes (ino : ℕ) (exts : List Extent) : Call FS Unit :=
  setUnwrittenRes ino (countUnwrittenBlocks exts)

/-- `writeInodeOwned`. -/
def writeInodeOwned (inode : Inode) : Call FS Unit :=
  Call.update fun s => { s with inodes := Function.update s.inodes inode.inodeNumber inode }

/-- `commitInodeMetadata`; a record that cannot be written freezes the file system. -/
def commitInodeMetadata (inode : Inode) : Call FS Unit := writeInodeOwned inode

/-- `commitExtentChange`, with the data blocks and the index nodes it frees. -/
def commitExtentChange (inode : Inode) (freed oldNodes : List BlockRun) : Call FS Unit := do
  Call.update fun s => (freed ++ oldNodes).foldl (deferBlockFreeRun env) s
  writeInodeOwned inode

end Calls

def plainEnv : Env where
  dataRegionStart := 10
  totalBlocks := 100
  now := ⟨1, 0⟩
  userFlags := fun _ => 0
  hasFSetID := true
  inGroup := fun _ => true
  clearCapability := pure
  small := by norm_num
  clears := by
    intro i s i' t h
    obtain ⟨rfl, rfl⟩ := Call.pure_eq_ok h
    exact ⟨rfl, .inl rfl, fun _ _ => rfl, fun _ h => .inl h, fun _ h => ⟨h, id⟩, fun _ _ => rfl,
      fun b hb => .inl ⟨hb, id⟩, rfl, rfl⟩
  keeps := by
    intro i s e t h
    exact absurd (Prod.mk.inj h).1 (by simp)

/-- A volume with 63 free data blocks and nothing but empty files. -/
def freshVolume : FS where
  dataAlloc := .ofPool { l0 := [1], l1 := [1], l2 := [~~~1], blockCount := 64, freeCount := 63 }
  dev := fun _ => .data zeroBlock
  inodes := fun ino => Inode.newInode ino modeFile ⟨0, 0⟩
  pendingFrees := {}
  xattrBlocks := fun _ => []
  unwrittenRes := fun _ => 0
  allocated := {}
  touched := []
  shutdown := false
  readOnly := false

end Briefs.File
