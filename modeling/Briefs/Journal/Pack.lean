import Briefs.Journal.Read

/-!
# Record blocks read back

The block the journal is filling is the encoding of the records appended to it, and the
walk over the records of such a block hands over exactly those.
-/

namespace Briefs.Journal

open Lib

section Headers

theorem drop_put (v : UInt32) (rest : Bytes) : (putUint32 v ++ rest).drop 4 = rest := rfl

theorem length_blockHeader (h : JournalBlockHeader) : h.marshalBinary.length = 16 := rfl

theorem length_recordHeader (h : RecordHeader) : h.marshalBinary.length = 16 := rfl

theorem parseJournalBlockHeader_append (h : JournalBlockHeader) (rest : Bytes) :
    parseJournalBlockHeader (h.marshalBinary ++ rest) = h := by
  unfold parseJournalBlockHeader JournalBlockHeader.marshalBinary
  simp only [List.append_assoc]
  rw [getUint32_put_append, drop_put, getUint32_put_append, show (8 : ℕ) = 4 + 4 from rfl,
    ← List.drop_drop, drop_put, drop_put, getUint32_put_append, show (12 : ℕ) = 4 + (4 + 4) from rfl,
    ← List.drop_drop, ← List.drop_drop, drop_put, drop_put, drop_put, getUint32_put_append]

theorem parseRecordHeader_append (h : RecordHeader) (rest : Bytes) :
    parseRecordHeader (h.marshalBinary ++ rest) = h := by
  unfold parseRecordHeader RecordHeader.marshalBinary
  simp only [List.append_assoc]
  rw [getUint32_put_append, drop_put, getUint32_put_append, show (8 : ℕ) = 4 + 4 from rfl,
    ← List.drop_drop, drop_put, drop_put, getUint32_put_append, show (12 : ℕ) = 4 + (4 + 4) from rfl,
    ← List.drop_drop, ← List.drop_drop, drop_put, drop_put, drop_put, getUint32_put_append]

theorem marshalJournalBlockHeader_append (h h' : JournalBlockHeader) (rest : Bytes) :
    marshalJournalBlockHeader (h.marshalBinary ++ rest) h' = h'.marshalBinary ++ rest := by
  unfold marshalJournalBlockHeader
  have hcopy := copyAt_append (a := []) (b := h.marshalBinary ++ rest) (c := h'.marshalBinary)
    (by rw [List.length_append, length_blockHeader, length_blockHeader]; omega)
  rw [List.nil_append, List.length_nil, List.nil_append, length_blockHeader] at hcopy
  rw [hcopy]
  rfl

end Headers

section Encoding

variable {e : Entry} {es : List Entry}

theorem length_encodeEntry (e : Entry) : (encodeEntry e).length = 16 + e.2.length := by
  unfold encodeEntry
  rw [List.length_append, length_recordHeader]

theorem encodeEntries_cons (e : Entry) (es : List Entry) :
    encodeEntries (e :: es) = encodeEntry e ++ encodeEntries es := rfl

theorem encodeEntries_append (es fs : List Entry) :
    encodeEntries (es ++ fs) = encodeEntries es ++ encodeEntries fs := List.flatMap_append

theorem encodeEntries_singleton (e : Entry) : encodeEntries [e] = encodeEntry e := by
  simp [encodeEntries]

theorem fitsBlock_nil : FitsBlock [] := by
  change 16 + 0 ≤ 4096
  omega

theorem fitsBlock_snoc : FitsBlock (es ++ [e]) ↔
    journalBlockHdrSize + (encodeEntries es).length + (journalRecordHdrSize + e.2.length) ≤
      journalBlockSize := by
  unfold FitsBlock
  rw [encodeEntries_append, encodeEntries_singleton, List.length_append, length_encodeEntry]
  unfold journalRecordHdrSize
  omega

theorem FitsBlock.count (h : FitsBlock es) : es.length < 2 ^ 32 := by
  have hlen : ∀ es : List Entry, es.length ≤ (encodeEntries es).length := by
    intro es
    induction es with
    | nil => exact le_rfl
    | cons e es ih =>
      rw [encodeEntries_cons, List.length_append, length_encodeEntry, List.length_cons]
      omega
  have := hlen es
  unfold FitsBlock journalBlockSize at h
  omega

end Encoding

/-- What the walk makes of a record that was appended. -/
def Yield.ofEntry (e : Entry) : Yield := ⟨e.1, e.2, true⟩

theorem verify_computed (typ flags : UInt32) (data : Bytes) :
    verifyJournalRecordChecksum typ flags data (computeJournalRecordChecksum typ flags data) =
      true := by
  unfold verifyJournalRecordChecksum
  split_ifs <;> simp

/-- The records from the end of `front` on, whatever follows them. -/
theorem iterateRecords_encoded (block : ℕ) (es : List Entry) (front rest : Bytes) (idx : ℕ)
    (a : List Yield) (hfit : front.length + (encodeEntries es).length ≤ journalBlockSize) :
    iterateRecords (front ++ encodeEntries es ++ rest) (collect block) es.length idx front.length a =
      (a ++ es.map Yield.ofEntry, none) := by
  induction es generalizing front idx a with
  | nil => simp [iterateRecords]
  | cons e es ih =>
    have hlong := hfit
    rw [encodeEntries_cons, List.length_append, length_encodeEntry] at hlong
    have hlen : (entryHeader e).dataLen.toNat = e.2.length := by
      unfold journalBlockSize at hlong
      exact UInt32.toNat_ofNat_of_lt' (by unfold UInt32.size; omega)
    have hbytes : front ++ encodeEntries (e :: es) ++ rest =
        front ++ ((entryHeader e).marshalBinary ++ (e.2 ++ (encodeEntries es ++ rest))) := by
      simp only [encodeEntries_cons, encodeEntry, List.append_assoc]
    have hhdr : parseRecordHeader ((front ++ encodeEntries (e :: es) ++ rest).drop front.length) =
        entryHeader e := by
      rw [hbytes, List.drop_left, parseRecordHeader_append]
    have hpayload : ((front ++ encodeEntries (e :: es) ++ rest).drop
        (front.length + journalRecordHdrSize)).take e.2.length = e.2 := by
      rw [hbytes, ← List.drop_drop, List.drop_left]
      exact List.take_left
    have hnext : front ++ encodeEntries (e :: es) ++ rest =
        (front ++ encodeEntry e) ++ encodeEntries es ++ rest := by
      simp only [encodeEntries_cons, List.append_assoc]
    have hoff : (front ++ encodeEntry e).length =
        front.length + journalRecordHdrSize + e.2.length := by
      rw [List.length_append, length_encodeEntry]
      unfold journalRecordHdrSize
      omega
    have hrest := ih (front ++ encodeEntry e) (idx + 1) (a ++ [Yield.ofEntry e])
      (by rw [List.length_append, length_encodeEntry]; omega)
    rw [← hnext, hoff] at hrest
    rw [List.length_cons, iterateRecords]
    dsimp only
    rw [hhdr, hlen, hpayload, if_neg (by unfold journalRecordHdrSize; omega),
      if_neg (by unfold journalRecordHdrSize; omega)]
    have hcollect : collect block idx (entryHeader e) e.2 a = (a ++ [Yield.ofEntry e], none) := by
      unfold collect entryHeader
      rw [verify_computed]
      rfl
    rw [hcollect]
    dsimp only
    rw [hrest]
    simp

/-- A record block is read back as the records it was made of. -/
theorem iterate_encodeBlock (block : ℕ) (seq : UInt32) {es : List Entry} (h : FitsBlock es)
    (a : List Yield) :
    iterateJournalBlockRecords (encodeBlock seq es)
      (parseJournalBlockHeader (encodeBlock seq es)).recordCount (collect block) a =
      (a ++ es.map Yield.ofEntry, none) := by
  have hcount : (parseJournalBlockHeader (encodeBlock seq es)).recordCount.toNat = es.length := by
    unfold encodeBlock
    rw [List.append_assoc, parseJournalBlockHeader_append]
    exact UInt32.toNat_ofNat_of_lt' h.count
  unfold iterateJournalBlockRecords
  rw [hcount]
  exact iterateRecords_encoded block es (blockHeader seq es).marshalBinary _ 0 a h

theorem magic_encodeBlock (seq : UInt32) (es : List Entry) :
    (parseJournalBlockHeader (encodeBlock seq es)).magic = magicJournal := by
  unfold encodeBlock
  rw [List.append_assoc, parseJournalBlockHeader_append]
  rfl

section Writing

theorem initCurBlock_curBlock (j : Journal) (seq : UInt32) :
    (j.initCurBlock seq).curBlock = encodeBlock seq [] := by
  have hcopy := copyAt_append (a := []) (b := List.replicate journalBlockSize (0 : UInt8))
    (c := (blockHeader seq []).marshalBinary)
    (by rw [List.length_replicate, length_blockHeader]; decide)
  rw [List.nil_append, List.length_nil, List.nil_append, length_blockHeader,
    List.drop_replicate] at hcopy
  refine hcopy.trans ?_
  unfold encodeBlock
  rw [show encodeEntries [] = [] from rfl, List.append_nil]
  rfl

/-- The records in the block that is being filled. -/
structure Packs (j : Journal) (es : List Entry) : Prop where
  curBlock : j.curBlock = encodeBlock j.blockSeq es
  writeOffset : j.writeOffset = journalBlockHdrSize + (encodeEntries es).length
  fits : FitsBlock es
  dirty : j.dirty = true ↔ es ≠ []

variable {j : Journal} {es : List Entry}

/-- A copy over the zeros at the end of a buffer. -/
theorem copyAt_zeros {front src : Bytes} {k : ℕ} (h : src.length ≤ k) :
    copyAt (front ++ List.replicate k 0) front.length src =
      front ++ src ++ List.replicate (k - src.length) 0 := by
  rw [copyAt_append (by rw [List.length_replicate]; exact h), List.drop_replicate]

/-- Header and payload of a record go in front of the zeros, and the block header
counts it. -/
theorem encodeBlock_snoc (seq : UInt32) (es : List Entry) (e : Entry)
    (hfit : FitsBlock (es ++ [e])) :
    let buf := copyAt (encodeBlock seq es) (journalBlockHdrSize + (encodeEntries es).length)
      (entryHeader e).marshalBinary
    let buf := copyAt buf (journalBlockHdrSize + (encodeEntries es).length + journalRecordHdrSize) e.2
    let bh := parseJournalBlockHeader buf
    marshalJournalBlockHeader buf { bh with recordCount := bh.recordCount + 1 } =
      encodeBlock seq (es ++ [e]) := by
  have hroom := fitsBlock_snoc.mp hfit
  have hfront : ((blockHeader seq es).marshalBinary ++ encodeEntries es).length =
      journalBlockHdrSize + (encodeEntries es).length := by
    rw [List.length_append, length_blockHeader]
    rfl
  have hhead : copyAt (encodeBlock seq es) (journalBlockHdrSize + (encodeEntries es).length)
      (entryHeader e).marshalBinary =
      (blockHeader seq es).marshalBinary ++ encodeEntries es ++ (entryHeader e).marshalBinary ++
        List.replicate (journalBlockSize - journalBlockHdrSize - (encodeEntries es).length - 16)
          0 := by
    unfold encodeBlock
    rw [← hfront, copyAt_zeros, length_recordHeader]
    rw [length_recordHeader]
    unfold journalRecordHdrSize at hroom
    omega
  have hfront' : ((blockHeader seq es).marshalBinary ++ encodeEntries es ++
      (entryHeader e).marshalBinary).length =
      journalBlockHdrSize + (encodeEntries es).length + journalRecordHdrSize := by
    rw [List.length_append, hfront, length_recordHeader]
    rfl
  have hdata : copyAt ((blockHeader seq es).marshalBinary ++ encodeEntries es ++
      (entryHeader e).marshalBinary ++ List.replicate
        (journalBlockSize - journalBlockHdrSize - (encodeEntries es).length - 16) 0)
      (journalBlockHdrSize + (encodeEntries es).length + journalRecordHdrSize) e.2 =
      (blockHeader seq es).marshalBinary ++ (encodeEntries (es ++ [e]) ++ List.replicate
        (journalBlockSize - journalBlockHdrSize - (encodeEntries (es ++ [e])).length) 0) := by
    rw [← hfront', copyAt_zeros]
    · have hzeros : journalBlockSize - journalBlockHdrSize - (encodeEntries es).length - 16 -
          e.2.length = journalBlockSize - journalBlockHdrSize -
            (encodeEntries (es ++ [e])).length := by
        rw [encodeEntries_append, encodeEntries_singleton, List.length_append, length_encodeEntry]
        omega
      rw [hzeros, encodeEntries_append, encodeEntries_singleton]
      simp only [encodeEntry, List.append_assoc]
    · unfold journalRecordHdrSize at hroom
      omega
  intro buf buf' bh
  have hbuf : buf' = (blockHeader seq es).marshalBinary ++ (encodeEntries (es ++ [e]) ++
      List.replicate
        (journalBlockSize - journalBlockHdrSize - (encodeEntries (es ++ [e])).length) 0) := by
    rw [← hdata, ← hhead]
  have hbh : bh = blockHeader seq es := by
    change parseJournalBlockHeader buf' = _
    rw [hbuf, parseJournalBlockHeader_append]
  rw [hbh, hbuf, marshalJournalBlockHeader_append]
  unfold encodeBlock
  rw [List.append_assoc]
  congr 2
  unfold blockHeader
  rw [List.length_append]
  congr 1
  exact (UInt32.ofNat_add es.length 1).symm

theorem Packs.appendRecord (h : Packs j es) {typ : UInt32} {data : Bytes}
    (hfit : FitsBlock (es ++ [(typ, data)])) : Packs (j.appendRecord typ data) (es ++ [(typ, data)]) := by
  have hroom := fitsBlock_snoc.mp hfit
  dsimp only at hroom
  have hsize : recordSize data = journalRecordHdrSize + data.length := by
    unfold recordSize
    unfold journalBlockHdrSize journalRecordHdrSize journalBlockSize at *
    exact Nat.mod_eq_of_lt (by omega)
  refine ⟨?_, ?_, hfit, ?_⟩
  · change (let buf := copyAt j.curBlock j.writeOffset (entryHeader (typ, data)).marshalBinary
      let buf := copyAt buf (j.writeOffset + journalRecordHdrSize) data
      let bh := parseJournalBlockHeader buf
      marshalJournalBlockHeader buf { bh with recordCount := bh.recordCount + 1 }) = _
    rw [h.curBlock, h.writeOffset]
    exact encodeBlock_snoc j.blockSeq es (typ, data) hfit
  · change j.writeOffset + recordSize data = _
    rw [h.writeOffset, hsize, encodeEntries_append, encodeEntries_singleton, List.length_append,
      length_encodeEntry, Nat.add_assoc]
    rfl
  · change true = true ↔ _
    simp

end Writing

end Briefs.Journal
