import Briefs.Dir.Ops

/-!
# Applying journal records

The record handlers of `journal_replay.go`. The first pass over the log reserves
blocks and inodes and collects the trie pages; the second applies the records. Both
run inside one cache that is written to the device when the second has ended.
-/

namespace Briefs.Replay

open Lib Lib.Call Journal Trie Dir

def magicXattr : UInt32 := 0x58415454
def xattrMaxUsed : ℕ := 4044
def xattrMaxChain : ℕ := 1024
def extentChainChecksumOffset : ℕ := 4080

/-- The file system during a replay, with the maps that live as long as it. -/
structure Session where
  fs : BrieFS
  xattrFinal : List (ℕ × ℕ)
  xattrNext : ℕ → ℕ
  xattrLive : ℕ → Bool
  trieSeeded : ℕ → Bool
  replayParents : ℕ → Option Inode
  replayParentsPristine : ℕ → Option Inode

variable (env : Env)

def runTrie {α : Type} (p : Trie.Prog α) : Call Session α := fun r =>
  match (trie p).run (BrieFS.exec env) r.fs with
  | (res, fs) => (res, { r with fs := fs })

def updateFs (f : BrieFS → BrieFS) : Call Session Unit := update fun r => { r with fs := f r.fs }

def updateInodeAlloc (f : Alloc.Allocator → Alloc.Allocator) : Call Session Unit :=
  updateFs fun b => { b with inodeAlloc := f b.inodeAlloc }

def updateDataAlloc (f : Alloc.Allocator → Alloc.Allocator) : Call Session Unit :=
  updateFs fun b => { b with store := { b.store with dataAlloc := f b.store.dataAlloc } }

/-- The slot of an inode as the replay sees it; its block is in the cache afterwards. -/
def loadSlot (ino : ℕ) : Call Session Inode := fun r =>
  match r.fs.readInodeCached env ino with
  | (res, fs) => (res, { r with fs := fs })

def storeSlot (ino : ℕ) (inode : Inode) : Call Session Unit := fun r =>
  match r.fs.saveSlot env ino inode with
  | (res, fs) => (res, { r with fs := fs })

/-- `xattrRecNextBlock`. -/
def xattrRecNextBlock (data : Bytes) : ℕ :=
  if data.length < 16 ∨ getUint32 data ≠ magicXattr then 0
  else if getUint32 (data.drop 4) = 2 ∧ 32 ≤ data.length then (getUint64 (data.drop 16)).toNat
  else 0

/-- The directory a `dirUpdate` record changes: the copy earlier records worked on, or
the slot as it was before any snapshot of this log. -/
def replayParent (ino : ℕ) : Call Session (Option Inode) := do
  let r ← read
  match r.replayParents ino with
  | some di => return some di
  | none => do
    let slot ←
      match r.replayParentsPristine ino with
      | some slot => pure slot
      | none => loadSlot env ino
    if slot.magic ≠ magicInode then return none
    else do
      update fun r => { r with replayParents := Function.update r.replayParents ino (some slot) }
      return some slot

/-- A call whose error `e` counts as having changed nothing. -/
def tolerating {α : Type} (e : Errno) (default : α) (x : Call Session α) : Call Session α := do
  match ← attempt x with
  | .ok a => return a
  | .error e' => if e' = .errno e then return default else fail e'

/-- `replayDirUpdate`. -/
def replayDirUpdate (rec : DirUpdate) : Call Session Unit := do
  match ← replayParent env rec.parentIno with
  | none => pure ()
  | some di => do
    let r ← read
    when (r.trieSeeded rec.parentIno = false) do
      update fun r => { r with trieSeeded := Function.update r.trieSeeded rec.parentIno true }
      runTrie env (trieSeedPool di.dirTrieRoot)
    let root ←
      if rec.op = 0 then
        tolerating .eexist di.dirTrieRoot
          (runTrie env (trieInsert env.geometry di.dirTrieRoot rec.name rec.childIno rec.ftype))
      else tolerating .enoent di.dirTrieRoot (runTrie env (trieRemove di.dirTrieRoot rec.name))
    let di := { di with dirTrieRoot := root }
    update fun r => { r with replayParents := Function.update r.replayParents rec.parentIno (some di) }
    storeSlot env rec.parentIno di

/-- Keep the slot as it was before the first snapshot, for a directory not yet changed. -/
def keepPristine (ino : ℕ) (slot : Inode) (r : Session) : Session :=
  if (r.replayParents ino).isNone ∧ (r.replayParentsPristine ino).isNone then
    { r with replayParentsPristine := Function.update r.replayParentsPristine ino (some slot) }
  else r

/-- `replayInodeFull`: a snapshot of another generation, or of a free slot, is skipped. -/
def replayInodeFull (ino : ℕ) (snapshot : Inode) : Call Session Unit := do
  let slot ← loadSlot env ino
  update (keepPristine ino slot)
  when (slot.magic = magicInode ∧ snapshot.generation = slot.generation)
    (storeSlot env ino snapshot)

/-- The inode an `inodeUpdate` record leaves in a slot. -/
def updatedInode (rec : InodeUpdate) (slot : Inode) : Inode :=
  { slot with
    inodeNumber := rec.ino
    magic := magicInode
    filemode := rec.mode
    nlinks := rec.nlink
    uid := rec.uid
    gid := rec.gid
    fileSize := rec.fileSize
    atime := rec.atime
    mtime := rec.mtime
    ctime := rec.ctime
    flags := rec.flags }

/-- `replayInodeUpdate`. -/
def replayInodeUpdate (rec : InodeUpdate) : Call Session Unit := do
  let slot ← loadSlot env rec.ino
  when (slot.magic = magicInode ∧ rec.generation.getD slot.generation = slot.generation)
    (storeSlot env rec.ino (updatedInode rec slot))

/-- Whether a slot is the symlink that keeps its target in `phys`. -/
def ownsTarget (slot : Inode) (phys : ℕ) : Bool :=
  slot.magic == magicInode && slot.isSymlink && slot.numExtentsTotal != 0 &&
    slot.numExtentsInline != 0 &&
    match slot.firstExtent with
    | some ext => ext.len != 0 && ext.phys == phys
    | none => false

/-- Replace the content of a data block that can be read. -/
def restoreBlock (block : ℕ) (bytes : Bytes) : Call Session Unit :=
  runTrie env do
    match ← (loadBlock block).attempt with
    | .error _ => pure ()
    | .ok _ => saveBlock block (.raw bytes)

/-- `replaySymlinkData`. -/
def replaySymlinkData (ino phys : ℕ) (target : Bytes) : Call Session Unit :=
  when (target.length ≠ 0 ∧ target.length ≤ journalBlockSize) do
    match ← attempt (loadSlot env ino) with
    | .error _ => pure ()
    | .ok slot => when (ownsTarget slot phys) (restoreBlock env phys (blockOf journalBlockSize target))

/-- The content of an xattr block with its checksum. -/
def xattrBlock (data : Bytes) : Bytes :=
  let body := blockOf journalBlockSize data
  copyAt body extentChainChecksumOffset
    (putUint64 (crc32c 0 (body.take extentChainChecksumOffset)).toUInt64)

/-- `replayXattrData`. -/
def replayXattrData (physBlk : ℕ) (data : Bytes) : Call Session Unit := do
  let r ← read
  when (data.length ≠ 0 ∧ data.length ≤ xattrMaxUsed ∧ r.xattrLive physBlk)
    (restoreBlock env physBlk (xattrBlock data))

/-- `replayTrieAlloc`. -/
def replayTrieAlloc (block op : ℕ) (collect : Bool) : Call Session Unit :=
  let rel := env.geometry.rel block
  if op = 0 then do
    updateDataAlloc (·.reserveBlock rel)
    when collect (updateFs fun b => { b with store := { b.store with
      replayTrieBlocks := b.store.replayTrieBlocks ++ [rel] } })
  else updateDataAlloc (·.freeBlock rel)

/-- `applyRecord`. -/
def applyRecord (reserveOnly : Bool) : Record → Call Session Unit
  | .dirUpdate rec => if reserveOnly then pure () else replayDirUpdate env rec
  | .inodeAlloc ino .. => when (0 < ino) (updateInodeAlloc (·.reserveBlock (ino - 1)))
  | .inodeFree ino => when (0 < ino) (updateInodeAlloc (·.freeBlock (ino - 1)))
  | .inodeUpdate rec => if reserveOnly then pure () else replayInodeUpdate env rec
  | .extentAlloc _ _ length physStart =>
    updateDataAlloc fun a =>
      (List.range length).foldl (fun a i => a.reserveBlock (env.geometry.rel (physStart + i))) a
  | .extentFree _ physStart length => updateDataAlloc (·.freeRun (env.geometry.rel physStart) length)
  | .trieAlloc block op => replayTrieAlloc env block op reserveOnly
  | .inodeFull ino snapshot =>
    if reserveOnly then
      update fun r => { r with
        xattrFinal := (ino, snapshot.xattrOffset) :: r.xattrFinal.filter (·.1 ≠ ino) }
    else replayInodeFull env ino snapshot
  | .symlinkData ino phys target =>
    if reserveOnly then pure () else replaySymlinkData env ino phys target
  | .xattrData _ physBlk data =>
    if reserveOnly then
      when (physBlk ≠ 0) do
        updateDataAlloc (·.reserveBlock (env.geometry.rel physBlk))
        update fun r => { r with
          xattrNext := Function.update r.xattrNext physBlk (xattrRecNextBlock data) }
    else replayXattrData env physBlk data
  | .triePage => fail (.text "JRN_TRIE_PAGE record: no replay handler")
  | .checkpoint => pure ()

/-- A chain of xattr blocks from its head. -/
def xattrChain (next : ℕ → ℕ) : ℕ → ℕ → List ℕ
  | 0, _ => []
  | fuel + 1, block => if block = 0 then [] else block :: xattrChain next fuel (next block)

/-- `buildXattrLiveSet`. -/
def buildXattrLiveSet (r : Session) : Session :=
  let live := r.xattrFinal.flatMap fun head => xattrChain r.xattrNext (xattrMaxChain + 1) head.2
  { r with xattrLive := fun block => decide (block ∈ live) }

end Briefs.Replay
