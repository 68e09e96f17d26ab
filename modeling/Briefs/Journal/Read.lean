import Briefs.Journal.Write
import Briefs.Lib.Codec

/-!
# Reading the journal

The walk over the live blocks of the ring and over the records of a block
(`journal_replay.go` of both packages). A visitor carries a value along; a walk returns
the value with the error that ended it.
-/

namespace Briefs.Journal

open Lib

inductive WalkError
  | read (block : ℕ) (e : Err)
  | badMagic (block : ℕ) (magic : UInt32)
  | recordOverflow (idx : ℕ) (dataLen : UInt32)
  | visit (msg : String)

def parseRecordHeader (buf : Bytes) : RecordHeader where
  type := getUint32 buf
  flags := getUint32 (buf.drop 4)
  dataLen := getUint32 (buf.drop 8)
  checksum := getUint32 (buf.drop 12)

/-- A checksum field of 0 is an older record without one. -/
def verifyJournalRecordChecksum (typ flags : UInt32) (data : Bytes) (stored : UInt32) : Bool :=
  if stored = 0 then true else computeJournalRecordChecksum typ flags data = stored

section Walks

variable {τ : Type}

/-- `IterateJournalBlockRecords` from record `idx` at `off` on, with the number of
records that the block header leaves. -/
def iterateRecords (buf : Bytes) (visit : ℕ → RecordHeader → Bytes → τ → τ × Option WalkError) :
    ℕ → ℕ → ℕ → τ → τ × Option WalkError
  | 0, _, _, a => (a, none)
  | left + 1, idx, off, a =>
    if journalBlockSize < off + journalRecordHdrSize then (a, none)
    else
      let hdr := parseRecordHeader (buf.drop off)
      let dlen := hdr.dataLen.toNat
      if journalBlockSize < off + journalRecordHdrSize + dlen then
        (a, some (.recordOverflow idx hdr.dataLen))
      else
        match visit idx hdr ((buf.drop (off + journalRecordHdrSize)).take dlen) a with
        | (a, some e) => (a, some e)
        | (a, none) => iterateRecords buf visit left (idx + 1) (off + journalRecordHdrSize + dlen) a

def iterateJournalBlockRecords (buf : Bytes) (recordCount : UInt32)
    (visit : ℕ → RecordHeader → Bytes → τ → τ × Option WalkError) (a : τ) : τ × Option WalkError :=
  iterateRecords buf visit recordCount.toNat 0 journalBlockHdrSize a

/-- `WalkJournalRing` from `cur` on, for at most the given number of blocks. -/
def walkRing (readBlock : ℕ → Except Err Bytes) (journalOffset journalBlocks start stop : ℕ)
    (visit : ℕ → Bytes → τ → τ × Option WalkError) : ℕ → ℕ → τ → τ × Option WalkError
  | 0, _, a => (a, none)
  | iter + 1, cur, a =>
    match readBlock cur with
    | .error e => (a, some (.read cur e))
    | .ok buf =>
      let bh := parseJournalBlockHeader buf
      if bh.magic ≠ magicJournal ∧ bh.magic ≠ magicCheckpoint then
        (a, some (.badMagic cur bh.magic))
      else
        match visit cur buf a with
        | (a, some e) => (a, some e)
        | (a, none) =>
          if start = stop then (a, none)
          else
            let next := nextRingBlock cur journalOffset journalBlocks
            if next = stop then (a, none)
            else walkRing readBlock journalOffset journalBlocks start stop visit iter next a

/-- `ReadJournalBlock` over the blocks of a device. -/
def readJournalBlock (j : Journal) (dev : ℕ → Bytes) (block : ℕ) : Except Err Bytes :=
  if block < j.journalStart ∨ j.journalEnd ≤ block then
    .error (.text
      s!"briefs: journal read out of range (block={block}, [{j.journalStart},{j.journalEnd}))")
  else .ok (dev block)

/-- A block that is no journal block ends the log without an error. -/
def endAtForeign : τ × Option WalkError → τ × Option WalkError
  | (a, some (.badMagic _ _)) => (a, none)
  | res => res

/-- `walkJournal`: the records of the live blocks in order. The checkpoint block and an
empty log hold none. -/
def walkJournal (j : Journal) (dev : ℕ → Bytes)
    (visit : ℕ → ℕ → RecordHeader → Bytes → τ → τ × Option WalkError) (a : τ) :
    τ × Option WalkError :=
  let start := j.sb.journalLogStart
  let stop := j.sb.journalLogEnd
  endAtForeign <| walkRing (readJournalBlock j dev) j.journalStart (j.journalEnd - j.journalStart)
    start stop
    (fun cur buf a =>
      if cur = j.checkpointBlk ∨ start = stop then (a, none)
      else
        iterateJournalBlockRecords buf (parseJournalBlockHeader buf).recordCount (visit cur) a)
    (j.journalEnd - j.journalStart) start a

/-- A record as the walk hands it over: its type, its payload and whether the stored
checksum is the one of the record. -/
structure Yield where
  type : UInt32
  payload : Bytes
  valid : Bool
  deriving DecidableEq

/-- The visitor that collects what it is handed. -/
def collect (_ _ : ℕ) (hdr : RecordHeader) (payload : Bytes) (a : List Yield) :
    List Yield × Option WalkError :=
  (a ++ [⟨hdr.type, payload,
    verifyJournalRecordChecksum hdr.type hdr.flags payload hdr.checksum⟩], none)

end Walks

/-- A record as it is appended: type and payload. -/
abbrev Entry := UInt32 × Bytes

def entryHeader (e : Entry) : RecordHeader where
  type := e.1
  flags := 0
  dataLen := UInt32.ofNat e.2.length
  checksum := computeJournalRecordChecksum e.1 0 e.2

def encodeEntry (e : Entry) : Bytes := (entryHeader e).marshalBinary ++ e.2

def encodeEntries (es : List Entry) : Bytes := es.flatMap encodeEntry

def blockHeader (seq : UInt32) (es : List Entry) : JournalBlockHeader where
  magic := magicJournal
  blockSeq := seq
  recordCount := UInt32.ofNat es.length

def encodeBlock (seq : UInt32) (es : List Entry) : Bytes :=
  (blockHeader seq es).marshalBinary ++ encodeEntries es ++
    List.replicate (journalBlockSize - journalBlockHdrSize - (encodeEntries es).length) 0

/-- The records fit one block. -/
def FitsBlock (es : List Entry) : Prop :=
  journalBlockHdrSize + (encodeEntries es).length ≤ journalBlockSize

end Briefs.Journal
