import Briefs.Journal.Format
import Briefs.Lib.Call

/-!
# The journal write path

Appending records, syncing and checkpointing (`journal_write.go`). The bridge
behind the journal is a parameter: `Hooks` holds the device write and the
syncer, drainer and flusher interfaces, any of which may fail. Every write that
reached the device is kept, in order, in `State.writes`.
-/

namespace Briefs

open Lib Lib.Call
open Journal (SuperblockLayout)

structure Journal where
  sb : SuperblockLayout
  curBlock : Bytes
  blockSeq : UInt32
  writeOffset : ℕ
  writePos : ℕ
  syncedPos : ℕ
  journalStart : ℕ
  journalEnd : ℕ
  checkpointBlk : ℕ
  checkpointSeq : ℕ
  recordsSinceCheckpoint : ℕ
  blocksSinceCheckpoint : ℕ
  dirty : Bool
  inCheckpoint : Bool
  inReplay : Bool

namespace Journal

/-- Where in the code a superblock write happens. -/
inductive SuperSite
  | commit | checkpoint | allocators
  deriving DecidableEq, Repr

/-- A write that reached the device. -/
inductive DevWrite
  | recordBlock (block : ℕ) (data : Bytes)
  | checkpointBlock (block : ℕ) (data : Bytes)
  | superblock (site : SuperSite) (sb : SuperblockLayout)

/-- The bridge as the journal sees it. -/
structure Hooks (σ : Type) where
  write : DevWrite → Call σ Unit
  drainPendingData : Call σ Unit
  syncMeta : Call σ Unit
  hasAllocSyncer : Bool
  syncAllocators : Call σ Unit
  freeCounts : σ → ℕ × ℕ
  flushWB : Call σ Unit
  kickWB : Call σ Unit

structure State (σ : Type) where
  journal : Journal
  writes : List DevWrite
  bridge : σ

/-- Reset `curBlock` to an empty block with the given sequence number. -/
def initCurBlock (j : Journal) (seq : UInt32) : Journal :=
  { j with
    curBlock := marshalJournalBlockHeader (List.replicate journalBlockSize 0)
      { magic := magicJournal, blockSeq := seq, recordCount := 0 }
    blockSeq := seq
    writeOffset := journalBlockHdrSize }

def nextBlock (j : Journal) (cur : ℕ) : ℕ :=
  nextRingBlock cur j.journalStart (j.journalEnd - j.journalStart)

/-- One move of the write position, counted in `blocksSinceCheckpoint`. -/
def bump (j : Journal) : Journal :=
  { j with
    writePos := j.nextBlock j.writePos
    blocksSinceCheckpoint := (j.blocksSinceCheckpoint + 1) % 2 ^ 32 }

/-- What follows every record-block write: move on, over the checkpoint block if
the move lands there, and start an empty block. -/
def advance (j : Journal) : Journal :=
  let j := j.bump
  let j := if j.writePos = j.checkpointBlk then j.bump else j
  { j.initCurBlock (j.blockSeq + 1) with dirty := false }

/-- On-disk size of a record, computed in 32 bits. -/
def recordSize (data : Bytes) : ℕ :=
  (journalRecordHdrSize + data.length) % 2 ^ 32

/-- Append header and payload at `writeOffset` and count the record. -/
def appendRecord (j : Journal) (typ : UInt32) (data : Bytes) : Journal :=
  let rh : RecordHeader :=
    { type := typ
      flags := 0
      dataLen := UInt32.ofNat data.length
      checksum := computeJournalRecordChecksum typ 0 data }
  let buf := copyAt j.curBlock j.writeOffset rh.marshalBinary
  let buf := copyAt buf (j.writeOffset + journalRecordHdrSize) data
  let bh := parseJournalBlockHeader buf
  { j with
    curBlock := marshalJournalBlockHeader buf { bh with recordCount := bh.recordCount + 1 }
    writeOffset := j.writeOffset + recordSize data
    dirty := true
    recordsSinceCheckpoint := (j.recordsSinceCheckpoint + 1) % 2 ^ 32 }

def commitLogEnd (j : Journal) : Journal :=
  { j with sb := { j.sb with journalLogEnd := j.writePos } }

/-- The checkpoint record for the state about to be retired. -/
def checkpointRecord (j : Journal) : Checkpoint where
  seq := j.checkpointSeq + 1
  recordCount := (parseJournalBlockHeader j.curBlock).recordCount
  logSequenceEnd := j.writePos
  trieRootNode := j.sb.trieRootBlock
  freeDataCount := j.sb.freeDataBlks
  freeInodeCount := j.sb.freeInodes

/-- Retire the live region: both log boundaries move to the write position. -/
def retire (j : Journal) : Journal :=
  { j with
    checkpointSeq := j.checkpointSeq + 1
    sb := { j.sb with
      checkpointSeq := j.checkpointSeq + 1
      journalLogStart := j.writePos
      journalLogEnd := j.writePos }
    recordsSinceCheckpoint := 0
    blocksSinceCheckpoint := 0 }

def validate (j : Journal) : Except Err Unit :=
  let n := j.journalEnd - j.journalStart
  if j.journalEnd ≤ j.journalStart then
    .error (.text s!"briefs: invalid journal geometry [start={j.journalStart} end={j.journalEnd})")
  else if n < journalMinBlocks then
    .error (.text s!"briefs: journal too small ({n} blocks, min {journalMinBlocks})")
  else if journalMaxBlocks < n then
    .error (.text s!"briefs: journal too large ({n} blocks, max {journalMaxBlocks})")
  else .ok ()

/-- The fields `newJournal` reads off the superblock. -/
def ofSuperblock (sb : SuperblockLayout) : Journal where
  sb := sb
  curBlock := []
  blockSeq := 0
  writeOffset := 0
  writePos := sb.journalLogStart
  syncedPos := sb.journalLogStart
  journalStart := sb.journalOffset
  journalEnd := sb.journalOffset + sb.journalBlocks
  checkpointBlk := sb.journalOffset + sb.journalBlocks - 1
  checkpointSeq := sb.checkpointSeq
  recordsSinceCheckpoint := 0
  blocksSinceCheckpoint := 0
  dirty := false
  inCheckpoint := false
  inReplay := false

def newJournal (sb : SuperblockLayout) : Except Err Journal := do
  (ofSuperblock sb).validate
  return (ofSuperblock sb).initCurBlock 0

variable {σ : Type} (H : Hooks σ)

def readJournal : Call (State σ) Journal := do
  let s ← read
  return s.journal

def updateJournal (f : Journal → Journal) : Call (State σ) Unit :=
  update fun s => { s with journal := f s.journal }

def hook (x : Call σ Unit) : Call (State σ) Unit := fun s =>
  let r := x s.bridge
  (r.1, { s with bridge := r.2 })

/-- A device write that is waited for; it is logged once it has happened. -/
def writeThrough (w : DevWrite) : Call (State σ) Unit := do
  hook (H.write w)
  update fun s => { s with writes := s.writes ++ [w] }

def writeBlock (block : ℕ) (w : DevWrite) : Call (State σ) Unit := do
  let j ← readJournal
  if block < j.journalStart ∨ j.journalEnd ≤ block then
    fail (.text
      s!"briefs: journal write out of range (block={block}, [{j.journalStart},{j.journalEnd}))")
  else
    context s!"briefs: write journal block {block}" (writeThrough H w)

def refreshFreeCounts : Call (State σ) Unit :=
  when H.hasAllocSyncer <| update fun s =>
    let c := H.freeCounts s.bridge
    { s with journal := { s.journal with
      sb := { s.journal.sb with freeDataBlks := c.1, freeInodes := c.2 } } }

def syncSuperblock (site : SuperSite) : Call (State σ) Unit := do
  refreshFreeCounts H
  let j ← readJournal
  context "briefs: write superblock" (writeThrough H (.superblock site j.sb))

def syncAllocators : Call (State σ) Unit :=
  when H.hasAllocSyncer <| context "briefs: sync allocators" do
    hook H.syncAllocators
    syncSuperblock H .allocators

def flushCurBlock : Call (State σ) Unit := do
  let j ← readJournal
  writeBlock H j.writePos (.recordBlock j.writePos j.curBlock)
  updateJournal advance

/-- Flush the allocator pools, write the checkpoint block and retire the live region. -/
def retireLive : Call (State σ) Unit := do
  context "briefs: checkpoint writeback kick" (hook H.kickWB)
  syncAllocators H
  when H.hasAllocSyncer (context "briefs: checkpoint allocator flush" (hook H.flushWB))
  refreshFreeCounts H
  let j ← readJournal
  let cpBuf := writeCheckpointBlock (List.replicate journalBlockSize 0) j.blockSeq
    j.checkpointRecord
  context "briefs: write checkpoint block"
    (writeBlock H j.checkpointBlk (.checkpointBlock j.checkpointBlk cpBuf))
  updateJournal retire
  syncSuperblock H .checkpoint

/-- `checkpointLocked`, with the inner `syncLocked(true)` call as a parameter. -/
def checkpointWith (sync : Call (State σ) Unit) (flushPending : Bool) : Call (State σ) Unit := do
  let j ← readJournal
  when (flushPending ∧ j.dirty) sync
  retireLive H

/-- Run `x` with `inCheckpoint` set; the flag is cleared also when `x` fails. -/
def inCheckpointDo (x : Call (State σ) Unit) : Call (State σ) Unit := do
  updateJournal fun j => { j with inCheckpoint := true }
  ensuring x fun s => { s with journal := { s.journal with inCheckpoint := false } }

/-- The entry back-pressure: a full ring is retired before the pending block is
written. -/
def syncEntry (sync : Call (State σ) Unit) : Call (State σ) Unit := do
  let j ← readJournal
  when (!j.inCheckpoint ∧ j.writePos = j.sb.journalLogStart ∧ 0 < j.blocksSinceCheckpoint)
    (inCheckpointDo (checkpointWith H sync false))

/-- Write the pending block, commit `log_end`, then drain and flush the metadata. -/
def syncCommit : Call (State σ) Unit := do
  flushCurBlock H
  context "briefs: drain pending data" (hook H.drainPendingData)
  updateJournal commitLogEnd
  context "briefs: persist journal tail" (syncSuperblock H .commit)
  context "briefs: sync deferred metadata" (hook H.syncMeta)
  syncAllocators H
  context "briefs: metadata flush" (hook H.flushWB)
  updateJournal fun j => { j with syncedPos := j.writePos }

/-- The periodic checkpoint and the back-pressure after the advance. -/
def syncTail (sync : Call (State σ) Unit) (checkpoint : Bool) : Call (State σ) Unit := do
  let j ← readJournal
  when (checkpoint ∧ jrnCheckpointInterval ≤ j.recordsSinceCheckpoint)
    (context "briefs: periodic checkpoint" (checkpointWith H sync true))
  let j ← readJournal
  when (!j.inCheckpoint ∧ j.nextBlock j.writePos = j.sb.journalLogStart)
    (context "briefs: back-pressure checkpoint" (inCheckpointDo (checkpointWith H sync true)))

/-- The body of `syncLocked`, with the `syncLocked(true)` call of an inner
checkpoint as a parameter. -/
def syncWith (sync : Call (State σ) Unit) (checkpoint : Bool) : Call (State σ) Unit := do
  let j ← readJournal
  when j.dirty do
    syncEntry H sync
    let j ← readJournal
    when j.dirty do
      syncCommit H
      syncTail H sync checkpoint

/-- An inner checkpoint never syncs again: the block was written before it, so
the parameter is never run (`syncWith_syncLocked`). -/
def syncLocked (checkpoint : Bool) : Call (State σ) Unit :=
  syncWith H (fail .crash) checkpoint

def checkpointLocked (flushPending : Bool) : Call (State σ) Unit :=
  checkpointWith H (syncLocked H true) flushPending

/-- The flush of a block the record does not fit in, with the back-pressure of a
ring that is then full. -/
def makeRoom : Call (State σ) Unit := do
  flushCurBlock H
  let j ← readJournal
  when (j.writePos = j.sb.journalLogStart) do
    context "briefs: back-pressure checkpoint" (checkpointLocked H true)
    let j ← readJournal
    when (j.nextBlock j.writePos = j.sb.journalLogStart)
      (fail (.text
        s!"briefs: journal ring exhausted (size={j.journalEnd - j.journalStart} blocks)"))

def overflows (j : Journal) (data : Bytes) : Bool :=
  journalBlockSize < j.writeOffset + recordSize data

def writeRecordLocked (typ : UInt32) (data : Bytes) : Call (State σ) Unit := do
  if typ ≤ jrnNone ∨ jrnEnd ≤ typ then
    fail (.text s!"briefs: invalid journal record type {typ}")
  else if data.length = 0 then
    fail (.text "briefs: empty journal record data")
  else
    let j ← readJournal
    when (j.overflows data) (makeRoom H)
    let j ← readJournal
    -- the payload slice starts past the block only when the size wrapped around
    if journalBlockSize < j.writeOffset + journalRecordHdrSize then fail .crash
    else updateJournal fun j => j.appendRecord typ data

def writeRecord (typ : UInt32) (data : Bytes) : Call (State σ) Unit := do
  let j ← readJournal
  when (!j.inReplay) (writeRecordLocked H typ data)

def sync (checkpoint : Bool) : Call (State σ) Unit := syncLocked H checkpoint

def checkpoint : Call (State σ) Unit := checkpointLocked H true

end Journal

end Briefs
