import Briefs.Alloc.Exact
import Briefs.Mkfs.Layout
import Briefs.Lib.Packed

/-!
# The pool on the device

`allocator.go` and `Sync` of `fs.go`: a header block and the words of the three levels, 512 to a
block. A pool that is written in full is read back, and a `Sync` over a pool on the device
leaves the pool that `syncPool` says.
-/

namespace Briefs.Alloc

open Lib

/-- Words are little-endian on the device. -/
def wordCodec : Fixed Word where
  size := 8
  put w := putUint64 ⟨w⟩
  get b := (getUint64 b).toBitVec
  length_put _ := rfl
  get_put w rest := by rw [getUint64_put_append]

def wordsPerBlock : ℕ := 512

/-- `PackAllocWords`. -/
def packAllocWords (words : List Word) : List Bytes := wordCodec.pack wordsPerBlock words

def allocMagic : UInt32 := 0x4249544D

structure AllocHeader where
  magic : UInt32
  version : UInt32
  l0Words : UInt64
  l1Words : UInt64
  l2Words : UInt64
  blockCount : UInt64
  freeCount : UInt64
  deriving DecidableEq

namespace AllocHeader

def marshalBinary (h : AllocHeader) : Bytes :=
  putUint32 h.magic ++ putUint32 h.version ++ putUint64 h.l0Words ++ putUint64 h.l1Words ++
    putUint64 h.l2Words ++ putUint64 h.blockCount ++ putUint64 h.freeCount

def unmarshalBinary (data : Bytes) : Except String AllocHeader :=
  if data.length < 48 then
    .error ("AllocHeader data too short: " ++ toString data.length ++ " < 48")
  else
    .ok
      { magic := getUint32 data
        version := getUint32 (data.drop 4)
        l0Words := getUint64 (data.drop 8)
        l1Words := getUint64 (data.drop 16)
        l2Words := getUint64 (data.drop 24)
        blockCount := getUint64 (data.drop 32)
        freeCount := getUint64 (data.drop 40) }

def ofPool (p : Pyramid) : AllocHeader where
  magic := allocMagic
  version := 1
  l0Words := UInt64.ofNat p.l0.length
  l1Words := UInt64.ofNat p.l1.length
  l2Words := UInt64.ofNat p.l2.length
  blockCount := UInt64.ofNat p.blockCount
  freeCount := UInt64.ofNat p.freeCount

def block (h : AllocHeader) : Bytes := h.marshalBinary ++ List.replicate (4096 - 48) 0

theorem unmarshalBinary_block (h : AllocHeader) : unmarshalBinary h.block = .ok h := by
  have hlen : ¬h.block.length < 48 := by
    rw [block, List.length_append, List.length_replicate]
    omega
  unfold unmarshalBinary
  rw [if_neg hlen]
  obtain ⟨magic, version, l0Words, l1Words, l2Words, blockCount, freeCount⟩ := h
  unfold block marshalBinary
  simp only [List.append_assoc, Except.ok.injEq, AllocHeader.mk.injEq]
  exact ⟨getUint32_put_append _ _, getUint32_put_append _ _, getUint64_put_append _ _,
    getUint64_put_append _ _, getUint64_put_append _ _, getUint64_put_append _ _,
    getUint64_put_append _ _⟩

end AllocHeader

/-- `%08X`. -/
def upperHex (v : UInt32) : String :=
  String.ofList ((List.range 8).map fun i =>
    "0123456789ABCDEF".toList.getD (v.toNat / 16 ^ (7 - i) % 16) '0')

/-- `ReadAllocatorHeader`. -/
def readAllocatorHeader (dev : ℕ → Bytes) (poolBlock : ℕ) : Except String AllocHeader := do
  let h ← AllocHeader.unmarshalBinary (dev poolBlock)
  if h.magic ≠ allocMagic then
    .error ("bad allocator magic at block " ++ toString poolBlock ++ ": 0x" ++ upperHex h.magic ++
      " (expected 0x" ++ upperHex allocMagic ++ ")")
  else .ok h

/-- The words of a pool as they are read, with its header. -/
structure ReadPool where
  l0 : List Word
  l1 : List Word
  l2 : List Word
  hdr : AllocHeader
  deriving DecidableEq

/-- `ReadAllocatorBitmap`, on a device that can be read. -/
def readAllocatorBitmap (dev : ℕ → Bytes) (poolBlock : ℕ) : Except String ReadPool := do
  let hdr ← readAllocatorHeader dev poolBlock
  let l1Start := poolBlock + 1 + Fixed.blocks wordsPerBlock hdr.l0Words.toNat
  let l2Start := l1Start + Fixed.blocks wordsPerBlock hdr.l1Words.toNat
  .ok
    { l0 := wordCodec.unpack wordsPerBlock dev (poolBlock + 1) hdr.l0Words.toNat
      l1 := wordCodec.unpack wordsPerBlock dev l1Start hdr.l1Words.toNat
      l2 := wordCodec.unpack wordsPerBlock dev l2Start hdr.l2Words.toNat
      hdr }

namespace Pyramid

/-- The blocks of a level, one at least. -/
def packWords (words : List Word) : List Bytes :=
  packAllocWords words ++
    List.replicate (allocWordBlocks words.length - (packAllocWords words).length) []

/-- `WriteBlocks`: the pool in full. -/
def writeBlocks (p : Pyramid) : List Bytes :=
  (AllocHeader.ofPool p).block :: (packWords p.l0 ++ packWords p.l1 ++ packWords p.l2)

/-- Where the levels stand on the device. -/
def l1Start (p : Pyramid) (poolStart : ℕ) : ℕ :=
  poolStart + 1 + Fixed.blocks wordsPerBlock p.l0.length

def l2Start (p : Pyramid) (poolStart : ℕ) : ℕ :=
  p.l1Start poolStart + Fixed.blocks wordsPerBlock p.l1.length

end Pyramid

namespace Allocator

/-- One block of the last level, if there is such a block. -/
def writeL2Block (a : Allocator) (pos : ℕ) (dev : ℕ → Bytes) (blk : ℕ) : ℕ → Bytes :=
  if a.bitmap.l2.length ≤ blk * wordsPerBlock then dev
  else Function.update dev (pos + blk)
    ((packAllocWords (Fixed.chunk wordsPerBlock blk a.bitmap.l2)).headD [])

/-- The last level: the changed blocks, or all of it if none is marked. -/
def syncL2 (a : Allocator) (pos : ℕ) (dev : ℕ → Bytes) : ℕ → Bytes :=
  if a.l2Dirty = [] then writeFrom dev pos (packAllocWords a.bitmap.l2)
  else a.l2Dirty.foldl (a.writeL2Block pos) dev

/-- `Sync`, on a device that can be written. -/
def sync (a : Allocator) (poolStart : ℕ) (dev : ℕ → Bytes) : ℕ → Bytes :=
  if a.dirty = false then dev
  else
    let dev := writeFrom dev (poolStart + 1) (packAllocWords a.bitmap.l0)
    let dev := writeFrom dev (a.bitmap.l1Start poolStart) (packAllocWords a.bitmap.l1)
    let dev := a.syncL2 (a.bitmap.l2Start poolStart) dev
    Function.update dev poolStart (AllocHeader.ofPool a.bitmap).block

end Allocator

/-! ### A pool that stands on the device -/

/-- The pool stands on the device from `poolStart` on. -/
structure Holds (dev : ℕ → Bytes) (poolStart : ℕ) (p : Pyramid) : Prop where
  header : dev poolStart = (AllocHeader.ofPool p).block
  l0 : wordCodec.Stored wordsPerBlock dev (poolStart + 1) p.l0
  l1 : wordCodec.Stored wordsPerBlock dev (p.l1Start poolStart) p.l1
  l2 : wordCodec.Stored wordsPerBlock dev (p.l2Start poolStart) p.l2

/-- The numbers of a pool fit into its header. -/
structure Fits (p : Pyramid) : Prop where
  l0 : p.l0.length < 2 ^ 64
  l1 : p.l1.length < 2 ^ 64
  l2 : p.l2.length < 2 ^ 64
  blockCount : p.blockCount < 2 ^ 64
  freeCount : p.freeCount < 2 ^ 64

variable {dev : ℕ → Bytes} {poolStart : ℕ} {p : Pyramid}

theorem Holds.readAllocatorBitmap (h : Holds dev poolStart p) (hp : Fits p) :
    Alloc.readAllocatorBitmap dev poolStart =
      .ok ⟨p.l0, p.l1, p.l2, AllocHeader.ofPool p⟩ := by
  have hheader : readAllocatorHeader dev poolStart = .ok (AllocHeader.ofPool p) := by
    unfold readAllocatorHeader
    rw [h.header, AllocHeader.unmarshalBinary_block]
    rfl
  have hl0 : (AllocHeader.ofPool p).l0Words.toNat = p.l0.length := UInt64.toNat_ofNat_of_lt' hp.l0
  have hl1 : (AllocHeader.ofPool p).l1Words.toNat = p.l1.length := UInt64.toNat_ofNat_of_lt' hp.l1
  have hl2 : (AllocHeader.ofPool p).l2Words.toNat = p.l2.length := UInt64.toNat_ofNat_of_lt' hp.l2
  unfold Alloc.readAllocatorBitmap
  rw [hheader]
  change Except.ok _ = _
  rw [hl0, hl1, hl2]
  change Except.ok (ReadPool.mk _ (wordCodec.unpack _ dev (p.l1Start poolStart) _)
    (wordCodec.unpack _ dev (p.l2Start poolStart) _) _) = _
  rw [h.l0.unpack (by decide), h.l1.unpack (by decide), h.l2.unpack (by decide)]

section Sync

variable {a : Allocator} {pos : ℕ} {disk : Pyramid}

theorem foldl_writeL2Block_of_lt (blks : List ℕ) {b : ℕ} (h : b < pos) :
    blks.foldl (a.writeL2Block pos) dev b = dev b := by
  induction blks generalizing dev with
  | nil => rfl
  | cons blk blks ih =>
    rw [List.foldl_cons, ih]
    unfold Allocator.writeL2Block
    split_ifs
    · rfl
    · rw [Function.update_of_ne (by omega)]

theorem foldl_writeL2Block (blks : List ℕ) {i : ℕ} (h : i * wordsPerBlock < a.bitmap.l2.length) :
    blks.foldl (a.writeL2Block pos) dev (pos + i) =
      if i ∈ blks then
        wordCodec.packBlock wordsPerBlock (Fixed.chunk wordsPerBlock i a.bitmap.l2)
      else dev (pos + i) := by
  induction blks generalizing dev with
  | nil => rfl
  | cons blk blks ih =>
    rw [List.foldl_cons, ih]
    by_cases hrest : i ∈ blks
    · rw [if_pos hrest, if_pos (List.mem_cons_of_mem blk hrest)]
    rw [if_neg hrest]
    unfold Allocator.writeL2Block
    by_cases hblk : i = blk
    · subst hblk
      have hlen := @Fixed.length_chunk _ wordsPerBlock i a.bitmap.l2
      rw [if_neg (Nat.not_le.mpr h), Function.update_self, if_pos List.mem_cons_self,
        packAllocWords, Fixed.pack_of_length_le]
      · rfl
      · rw [hlen]
        exact lt_min (by decide) (by omega)
      · rw [hlen]
        exact min_le_left _ _
    · have hnot : i ∉ blk :: blks := fun hin => (List.mem_cons.mp hin).elim hblk hrest
      rw [if_neg hnot]
      split_ifs
      · rfl
      · rw [Function.update_of_ne (by omega)]

theorem syncL2_of_lt {b : ℕ} (h : b < pos) : a.syncL2 pos dev b = dev b := by
  unfold Allocator.syncL2
  split_ifs
  · exact writeFrom_of_lt _ h
  · exact foldl_writeL2Block_of_lt _ h

theorem length_syncPool (a : Allocator) (h : a.dirty = true) :
    (a.syncPool disk).l2.length = a.bitmap.l2.length := by
  unfold Allocator.syncPool
  rw [if_pos h]
  split_ifs
  · rfl
  · exact List.length_mapIdx

theorem stored_syncL2 (hdirty : a.dirty = true)
    (hlen : disk.l2.length = a.bitmap.l2.length)
    (h : wordCodec.Stored wordsPerBlock dev pos disk.l2) :
    wordCodec.Stored wordsPerBlock (a.syncL2 pos dev) pos (a.syncPool disk).l2 := by
  unfold Allocator.syncL2 Allocator.syncPool
  rw [if_pos hdirty]
  split_ifs with hall
  · exact Fixed.stored_writeFrom (by decide) dev pos a.bitmap.l2
  · exact h.merge hlen fun i hi => foldl_writeL2Block a.l2Dirty hi

/-- `Sync` over a pool on the device leaves the pool with the changed blocks merged in. -/
theorem Holds.sync (h : Holds dev poolStart disk)
    (hsize : Pyramid.Alike disk a.bitmap) :
    Holds (a.sync poolStart dev) poolStart (a.syncPool disk) := by
  by_cases hclean : a.dirty = false
  · unfold Allocator.sync Allocator.syncPool
    rw [if_pos hclean, hclean]
    exact h
  have hdirty := Bool.of_not_eq_false hclean
  have hl2 : (a.syncPool disk).l2.length = _ := length_syncPool a hdirty
  have hwords : a.syncPool disk = { a.bitmap with l2 := (a.syncPool disk).l2 } := by
    unfold Allocator.syncPool
    rw [if_pos hdirty]
  have hheader : AllocHeader.ofPool (a.syncPool disk) = AllocHeader.ofPool a.bitmap := by
    rw [hwords]
    unfold AllocHeader.ofPool
    rw [hl2]
  have hstart : disk.l2Start poolStart = a.bitmap.l2Start poolStart := by
    unfold Pyramid.l2Start Pyramid.l1Start
    rw [hsize.l0, hsize.l1]
  have hstart1 : (a.syncPool disk).l1Start poolStart = a.bitmap.l1Start poolStart := by rw [hwords]; rfl
  have hstart2 : (a.syncPool disk).l2Start poolStart = a.bitmap.l2Start poolStart := by rw [hwords]; rfl
  have hends : poolStart + 1 + Fixed.blocks wordsPerBlock a.bitmap.l0.length =
        a.bitmap.l1Start poolStart ∧
      a.bitmap.l1Start poolStart + Fixed.blocks wordsPerBlock a.bitmap.l1.length =
        a.bitmap.l2Start poolStart := ⟨rfl, rfl⟩
  have hlen0 : (packAllocWords a.bitmap.l0).length = _ := Fixed.length_pack a.bitmap.l0
  have hlen1 : (packAllocWords a.bitmap.l1).length = _ := Fixed.length_pack a.bitmap.l1
  unfold Allocator.sync
  rw [if_neg hclean]
  refine ⟨?_, ?_, ?_, ?_⟩
  · rw [Function.update_self, hheader]
  · rw [show (a.syncPool disk).l0 = a.bitmap.l0 by rw [hwords]]
    refine (Fixed.stored_writeFrom (by decide) dev _ _).congr (by decide) fun b hlow hhigh => ?_
    rw [Function.update_of_ne (by omega), syncL2_of_lt (by omega), writeFrom_of_lt _ (by omega)]
    rfl
  · rw [hstart1, show (a.syncPool disk).l1 = a.bitmap.l1 by rw [hwords]]
    refine (Fixed.stored_writeFrom (by decide)
      (writeFrom dev (poolStart + 1) (packAllocWords a.bitmap.l0)) _ _).congr (by decide)
      fun b hlow hhigh => ?_
    rw [Function.update_of_ne (by omega), syncL2_of_lt (by omega)]
    rfl
  · rw [hstart2]
    have hold : wordCodec.Stored wordsPerBlock
        (writeFrom (writeFrom dev (poolStart + 1) (packAllocWords a.bitmap.l0))
          (a.bitmap.l1Start poolStart) (packAllocWords a.bitmap.l1))
        (a.bitmap.l2Start poolStart) disk.l2 := by
      rw [← hstart]
      refine h.l2.congr (by decide) fun b hlow _ => ?_
      rw [hstart] at hlow
      rw [writeFrom_of_le _ (by omega), writeFrom_of_le _ (by omega)]
    refine (stored_syncL2 hdirty hsize.l2.symm hold).congr (by decide) fun b hlow _ => ?_
    rw [Function.update_of_ne (by omega)]

end Sync

theorem packWords_eq {words : List Word} (hpos : 0 < words.length) (hlt : words.length < 2 ^ 60) :
    Pyramid.packWords words = packAllocWords words := by
  have hlen : (packAllocWords words).length = Fixed.blocks wordsPerBlock words.length :=
    Fixed.length_pack words
  have hblocks : allocWordBlocks words.length = Fixed.blocks wordsPerBlock words.length := by
    unfold allocWordBlocks Fixed.blocks wordsPerBlock
    rw [Nat.mod_eq_of_lt (by omega)]
    omega
  rw [Pyramid.packWords, hlen, hblocks, Nat.sub_self, List.replicate_zero, List.append_nil]

/-- A pool that is written in full stands on the device. -/
theorem holds_writeBlocks (p : Pyramid) (dev : ℕ → Bytes) (poolStart : ℕ)
    (hl0 : 0 < p.l0.length ∧ p.l0.length < 2 ^ 60) (hl1 : 0 < p.l1.length ∧ p.l1.length < 2 ^ 60)
    (hl2 : 0 < p.l2.length ∧ p.l2.length < 2 ^ 60) :
    Holds (writeFrom dev poolStart p.writeBlocks) poolStart p := by
  have hlen0 : (packAllocWords p.l0).length = _ := Fixed.length_pack p.l0
  have hlen1 : (packAllocWords p.l1).length = _ := Fixed.length_pack p.l1
  have hends : poolStart + 1 + Fixed.blocks wordsPerBlock p.l0.length = p.l1Start poolStart ∧
      p.l1Start poolStart + Fixed.blocks wordsPerBlock p.l1.length = p.l2Start poolStart :=
    ⟨rfl, rfl⟩
  unfold Pyramid.writeBlocks
  rw [packWords_eq hl0.1 hl0.2, packWords_eq hl1.1 hl1.2, packWords_eq hl2.1 hl2.2, writeFrom,
    writeFrom_append, writeFrom_append, List.length_append, hlen0, hlen1, ← Nat.add_assoc,
    hends.1, hends.2]
  refine ⟨?_, ?_, ?_, ?_⟩
  · rw [writeFrom_of_lt _ (by omega), writeFrom_of_lt _ (by omega), writeFrom_of_lt _ (by omega),
      Function.update_self]
  · refine (Fixed.stored_writeFrom (by decide)
      (Function.update dev poolStart (AllocHeader.ofPool p).block) _ _).congr (by decide)
      fun b hlow hhigh => ?_
    rw [writeFrom_of_lt _ (by omega), writeFrom_of_lt _ (by omega)]
    rfl
  · refine (Fixed.stored_writeFrom (by decide) (writeFrom (Function.update dev poolStart
      (AllocHeader.ofPool p).block) (poolStart + 1) (packAllocWords p.l0)) _ _).congr (by decide)
      fun b hlow hhigh => ?_
    rw [writeFrom_of_lt _ (by omega)]
    rfl
  · exact Fixed.stored_writeFrom (by decide) _ _ _

end Briefs.Alloc
