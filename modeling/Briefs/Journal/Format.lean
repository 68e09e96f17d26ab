import Briefs.Lib.Bytes

/-!
# On-disk framing of the journal

Block and record headers, the record checksum and the checkpoint payload, as
`journal_replay.go`, `crc32c.go` and `journal.go` lay them out.
-/

namespace Briefs.Journal

open Lib

def journalBlockSize : ℕ := 4096
def journalMinBlocks : ℕ := 4
def journalMaxBlocks : ℕ := 65536
def jrnCheckpointInterval : ℕ := 4096
def journalRecordHdrSize : ℕ := 16
def journalBlockHdrSize : ℕ := 16

def magicJournal : UInt32 := 0x4A4E4C5A
def magicCheckpoint : UInt32 := 0x43485053

def jrnNone : UInt32 := 0
def jrnExtentAlloc : UInt32 := 1
def jrnExtentFree : UInt32 := 2
def jrnInodeUpdate : UInt32 := 3
def jrnInodeAlloc : UInt32 := 4
def jrnInodeFree : UInt32 := 5
def jrnTrieAlloc : UInt32 := 6
def jrnDirUpdate : UInt32 := 7
def jrnCheckpoint : UInt32 := 8
def jrnInodeFull : UInt32 := 9
def jrnSymlinkData : UInt32 := 10
def jrnXattrData : UInt32 := 11
def jrnEnd : UInt32 := 13

/-- The fields of the superblock that the journal reads or writes. -/
structure SuperblockLayout where
  journalOffset : ℕ
  journalBlocks : ℕ
  checkpointSeq : ℕ
  journalLogStart : ℕ
  journalLogEnd : ℕ
  trieRootBlock : ℕ
  freeDataBlks : ℕ
  freeInodes : ℕ
  deriving DecidableEq, Repr

structure JournalBlockHeader where
  magic : UInt32
  blockSeq : UInt32
  recordCount : UInt32
  reserved : UInt32 := 0

structure RecordHeader where
  type : UInt32
  flags : UInt32
  dataLen : UInt32
  checksum : UInt32

def JournalBlockHeader.marshalBinary (h : JournalBlockHeader) : Bytes :=
  putUint32 h.magic ++ putUint32 h.blockSeq ++ putUint32 h.recordCount ++ putUint32 h.reserved

def parseJournalBlockHeader (buf : Bytes) : JournalBlockHeader where
  magic := getUint32 buf
  blockSeq := getUint32 (buf.drop 4)
  recordCount := getUint32 (buf.drop 8)
  reserved := getUint32 (buf.drop 12)

/-- Write a block header over the first sixteen bytes of `buf`. -/
def marshalJournalBlockHeader (buf : Bytes) (h : JournalBlockHeader) : Bytes :=
  copyAt buf 0 h.marshalBinary

def RecordHeader.marshalBinary (h : RecordHeader) : Bytes :=
  putUint32 h.type ++ putUint32 h.flags ++ putUint32 h.dataLen ++ putUint32 h.checksum

def crc32cPolynomial : UInt32 := 0x1EDC6F41

/-- One entry of the lookup table: eight shift steps of the index. -/
def crc32cTable (i : UInt32) : UInt32 :=
  (fun crc : UInt32 => if crc &&& 1 != 0 then (crc >>> 1) ^^^ crc32cPolynomial else crc >>> 1)^[8] i

def crc32c (crc : UInt32) (data : Bytes) : UInt32 :=
  if data.isEmpty then crc
  else
    ~~~ data.foldl (fun crc b => (crc >>> 8) ^^^ crc32cTable ((crc ^^^ b.toUInt32) &&& 0xFF)) (~~~ crc)

/-- The checksum chains one CRC over type, flags, length and payload. -/
def computeJournalRecordChecksum (recordType flags : UInt32) (data : Bytes) : UInt32 :=
  let c := crc32c 0 (putUint32 recordType)
  let c := crc32c c (putUint32 flags)
  let c := crc32c c (putUint32 (UInt32.ofNat data.length))
  crc32c c data

structure Checkpoint where
  seq : ℕ
  recordCount : UInt32
  logSequenceEnd : ℕ
  trieRootNode : ℕ
  freeDataCount : ℕ
  freeInodeCount : ℕ

def Checkpoint.marshalBinary (cp : Checkpoint) : Bytes :=
  putUint64 (UInt64.ofNat cp.seq) ++ putUint32 cp.recordCount ++ putUint32 0 ++
    putUint64 (UInt64.ofNat cp.logSequenceEnd) ++ putUint64 (UInt64.ofNat cp.trieRootNode) ++
    putUint64 (UInt64.ofNat cp.freeDataCount) ++ putUint64 (UInt64.ofNat cp.freeInodeCount) ++
    putUint64 0

/-- A checkpoint block: block header, one record header, the checkpoint payload. -/
def writeCheckpointBlock (buf : Bytes) (blockSeq : UInt32) (cp : Checkpoint) : Bytes :=
  let buf := marshalJournalBlockHeader buf
    { magic := magicCheckpoint, blockSeq := blockSeq, recordCount := 1 }
  let cpBytes := cp.marshalBinary
  let rh : RecordHeader :=
    { type := jrnCheckpoint
      flags := 0
      dataLen := UInt32.ofNat cpBytes.length
      checksum := computeJournalRecordChecksum jrnCheckpoint 0 cpBytes }
  let buf := copyAt buf journalBlockHdrSize rh.marshalBinary
  copyAt buf (journalBlockHdrSize + journalRecordHdrSize) cpBytes

/-- Advance a journal block number, wrapping at `journalStart + journalBlocks`. -/
def nextRingBlock (cur journalStart journalBlocks : ℕ) : ℕ :=
  if journalStart + journalBlocks ≤ cur + 1 then journalStart else cur + 1

end Briefs.Journal
