import Briefs.Alloc.Pool
import Briefs.Lib.Interval

/-!
# Making a file system

`cmd/mkfs/mkfs.go`: the sizes of the regions are computed from the options in one pass,
in 64 bits, and the two bitmaps are written with the root inode and the page of the root
directory taken.
-/

namespace Briefs

namespace Alloc

/-- `allocWordBlocks`. -/
def allocWordBlocks (words : ℕ) : ℕ := max ((words * 8 + 4095) % 2 ^ 64 / 4096) 1

/-- `AllocPoolBlocks`. -/
def allocPoolBlocks (blockCount : ℕ) : ℕ :=
  let words := allocLevelWords blockCount
  1 + allocWordBlocks words.1 + allocWordBlocks words.2.1 + allocWordBlocks words.2.2

/-- `NbBlocks`. -/
def Pyramid.nbBlocks (p : Pyramid) : ℕ :=
  1 + allocWordBlocks p.l0.length + allocWordBlocks p.l1.length + allocWordBlocks p.l2.length

end Alloc

namespace Mkfs

open Alloc Lib

def minInodes : ℕ := 100

def inodeAlign : ℕ := 32

def defaultJournalMinBlocks : ℕ := 64

def defaultJournalMaxBlocks : ℕ := 4096

abbrev Flag := { n : ℤ // -2 ^ 63 ≤ n ∧ n < 2 ^ 63 }

/-- The options that decide the layout, and what probing the device returns. -/
structure Options where
  size : Flag
  blockSize : Flag
  inodeSize : Flag
  journalSize : Flag
  inodeRatio : Flag
  probed : Except String ℕ

inductive Failure
  | refused (msg : String)
  | panic
  deriving DecidableEq

/-- What is recorded in the superblock, and the bitmaps and the root page as written. -/
structure Image where
  totalBlocks : ℕ
  inodeSize : ℕ
  inodeBMOffset : ℕ
  inodeBMBlocks : ℕ
  inodeTableOffset : ℕ
  /-- Blocks of the inode table; it ends where the EAT begins. -/
  inodeTableBlocks : ℕ
  eatOffset : ℕ
  eatBlocks : ℕ
  trieRootBlock : ℕ
  trieBlocksUsed : ℕ
  trieNodePoolStart : ℕ
  trieNodePoolSize : ℕ
  dataBlocks : ℕ
  journalOffset : ℕ
  journalBlocks : ℕ
  journalLogStart : ℕ
  journalLogEnd : ℕ
  freeDataBlks : ℕ
  freeInodes : ℕ
  checkpointSeq : ℕ
  rootTrieBlock : ℕ
  inodePool : Pyramid
  dataPool : Pyramid

def sub64 (a b : ℕ) : ℕ := (a + 2 ^ 64 - b) % 2 ^ 64

def roundUp (value alignment : ℕ) : ℕ :=
  sub64 ((value + alignment) % 2 ^ 64) 1 / alignment * alignment

def isPowerOfTwo (n : ℕ) : Bool := n ≠ 0 && (n &&& (n - 1)) = 0

/-- `DefaultJournalBlocks`. -/
def defaultJournalBlocks (totalBlocks : ℕ) : ℕ :=
  min (max (totalBlocks / 4096) defaultJournalMinBlocks) defaultJournalMaxBlocks

def estInodes (totalBlocks inodeRatio : ℕ) : ℕ :=
  roundUp (max (totalBlocks / inodeRatio) minInodes) inodeAlign

def place (totalBlocks inodeSize journalBlocks inodes table dataBlocks : ℕ) :
    Except Failure Image :=
  let inodePool := Pyramid.newAllocBuilder inodes
  let dataPool := ((Pyramid.newDataAllocBuilder dataBlocks).markAllocated 1).1
  let inodeTableOffset := (1 + inodePool.nbBlocks) % 2 ^ 64
  let eatOffset := (inodeTableOffset + table) % 2 ^ 64
  let poolStart := (eatOffset + 1) % 2 ^ 64
  let dataStart := (poolStart + 1 + sub64 dataPool.nbBlocks 1) % 2 ^ 64
  let journalOffset := sub64 totalBlocks journalBlocks
  if journalOffset < dataStart then
    .error (.refused ("filesystem too small: metadata needs " ++ toString dataStart ++
      " blocks up to block " ++ toString (sub64 journalOffset 1) ++ ", journal at " ++
      toString journalOffset))
  else
    .ok
      { totalBlocks := totalBlocks
        inodeSize := inodeSize
        inodeBMOffset := 1
        inodeBMBlocks := inodePool.nbBlocks
        inodeTableOffset := inodeTableOffset
        inodeTableBlocks := table
        eatOffset := eatOffset
        eatBlocks := 1
        trieRootBlock := poolStart
        trieBlocksUsed := dataPool.nbBlocks
        trieNodePoolStart := poolStart
        trieNodePoolSize := dataPool.nbBlocks
        dataBlocks := dataBlocks
        journalOffset := journalOffset
        journalBlocks := journalBlocks
        journalLogStart := journalOffset
        journalLogEnd := journalOffset
        freeDataBlks := sub64 dataBlocks 2
        freeInodes := sub64 inodes 1
        checkpointSeq := 1
        rootTrieBlock := (dataStart + 1) % 2 ^ 64
        inodePool := (inodePool.markAllocated 0).1
        dataPool := dataPool }

/-- The layout of a volume, once the options are checked. -/
def layOut (totalBlocks inodeSize journalBlocks inodeRatio : ℕ) : Except Failure Image :=
  let inodes := estInodes totalBlocks inodeRatio
  let inodesPerBlock := 4096 / inodeSize
  -- the division by the inodes of a block
  if inodesPerBlock = 0 then .error .panic
  else
    let table := roundUp inodes inodesPerBlock / inodesPerBlock
    let bitmap := (Pyramid.newAllocBuilder inodes).nbBlocks
    if totalBlocks < (1 + bitmap + table + 1 + 1 + journalBlocks + 1) % 2 ^ 64 then
      .error (.refused "filesystem too small")
    else
      let estimate := [1, bitmap, table, 1, journalBlocks].foldl sub64 totalBlocks
      let pool := allocPoolBlocks estimate
      let dataBlocks := [1, bitmap, table, 1, pool, journalBlocks].foldl sub64 totalBlocks
      if dataBlocks < 1 then .error (.refused "filesystem too small")
      else place totalBlocks inodeSize journalBlocks inodes table dataBlocks

namespace Options

variable (o : Options)

def journalBlocks : ℕ :=
  if o.journalSize.val = 0 then defaultJournalBlocks o.size.val.toNat else o.journalSize.val.toNat

def totalBlocks : Except String ℕ :=
  if o.size.val = 0 then o.probed else .ok o.size.val.toNat

end Options

/-- `main`, up to the writes. -/
def mkfs (o : Options) : Except Failure Image :=
  if o.size.val < 0 then
    .error (.refused ("size must be non-negative, got " ++ toString o.size.val))
  else if o.blockSize.val < 0 then
    .error (.refused ("block-size must be non-negative, got " ++ toString o.blockSize.val))
  else if o.inodeSize.val < 0 then
    .error (.refused ("inode-size must be non-negative, got " ++ toString o.inodeSize.val))
  else if o.journalSize.val < 0 then
    .error (.refused ("journal-size must be non-negative, got " ++ toString o.journalSize.val))
  else if o.blockSize.val ≠ 4096 then
    .error (.refused ("block-size must be 4096 bytes (kernel requirement), got " ++
      toString o.blockSize.val))
  else if o.inodeSize.val < 512 then
    .error (.refused ("inode-size must be at least 512 bytes, got " ++ toString o.inodeSize.val))
  else if ¬isPowerOfTwo o.blockSize.val.toNat then
    .error (.refused ("block-size must be a power of two, which " ++ toString o.blockSize.val ++
      " isn't"))
  else if ¬isPowerOfTwo o.inodeSize.val.toNat then
    .error (.refused ("inode-size must be a power of two, which " ++ toString o.inodeSize.val ++
      " isn't"))
  else if o.journalBlocks < 4 then
    .error (.refused ("journal-size must be at least 4 blocks, got " ++ toString o.journalBlocks))
  else if o.inodeRatio.val < 1 then
    .error (.refused ("inode-ratio must be at least 1, which " ++ toString o.inodeRatio.val ++
      " isn't"))
  else
    match o.totalBlocks with
    | .error msg => .error (.refused msg)
    | .ok total => layOut total o.inodeSize.val.toNat o.journalBlocks o.inodeRatio.val.toNat

section Regions

/-- Where readers of the superblock take the data region to begin. -/
def Image.dataRegionStart (i : Image) : ℕ := i.trieNodePoolStart + i.trieNodePoolSize

/-- Superblock, inode bitmap, inode table, EAT, allocator pool, data and journal. -/
def Image.regions (i : Image) : List (ℕ × ℕ) :=
  [(0, 1), (i.inodeBMOffset, i.inodeBMBlocks), (i.inodeTableOffset, i.inodeTableBlocks),
    (i.eatOffset, i.eatBlocks), (i.trieNodePoolStart, i.trieNodePoolSize),
    (i.dataRegionStart, i.dataBlocks), (i.journalOffset, i.journalBlocks)]

/-- The regions cut the volume into pieces in their order, the pools fit theirs, the root
page is a taken block of the data region, and the free counts are those of the bitmaps. -/
structure Image.Laid (i : Image) : Prop where
  tiles : Tiles 0 i.totalBlocks i.regions
  inodePool : i.inodePool.nbBlocks = i.inodeBMBlocks
  dataPool : i.dataPool.nbBlocks = i.trieNodePoolSize
  root : Within i.rootTrieBlock (i.dataRegionStart, i.dataBlocks)
  rootTaken : i.dataPool.isAllocated (i.rootTrieBlock - i.dataRegionStart) = true
  freeData : i.freeDataBlks = Bitmap.total i.dataPool.l2
  freeInodes : i.freeInodes = Bitmap.total i.inodePool.l2

end Regions

section Sizes

theorem sub64_eq {a b : ℕ} (h : b ≤ a) (ha : a < 2 ^ 64) : sub64 a b = a - b := by
  unfold sub64
  omega

theorem roundUp_eq {v a : ℕ} (ha : 0 < a) (h : v + a < 2 ^ 64) :
    roundUp v a = (v + a - 1) / a * a := by
  unfold roundUp
  rw [Nat.mod_eq_of_lt h, sub64_eq (by omega) h]

theorem estInodes_bounds (total ratio : ℕ) (h : total < 2 ^ 51) :
    100 ≤ estInodes total ratio ∧ estInodes total ratio < 2 ^ 52 := by
  have hdiv : total / ratio ≤ total := Nat.div_le_self _ _
  unfold estInodes minInodes inodeAlign
  rw [roundUp_eq (by norm_num) (by omega)]
  omega

theorem nbBlocks_newAllocBuilder (n : ℕ) :
    (Pyramid.newAllocBuilder n).nbBlocks = allocPoolBlocks n := by
  unfold Pyramid.nbBlocks allocPoolBlocks Pyramid.newAllocBuilder
  simp only [Pyramid.length_fullLevel]

theorem allocWordBlocks_bounds {w : ℕ} (h : w < 2 ^ 60) :
    1 ≤ allocWordBlocks w ∧ allocWordBlocks w ≤ 1 + (w - 1) / 512 := by
  unfold allocWordBlocks
  omega

/-- A pool takes a small part of what it describes. -/
theorem allocPoolBlocks_bounds {n : ℕ} (h : n < 2 ^ 52) :
    4 ≤ allocPoolBlocks n ∧ allocPoolBlocks n ≤ 4 + n / 1024 := by
  have hwords : (allocLevelWords n).1 ≤ 1 + n / 4096 ∧ (allocLevelWords n).2.1 ≤ 1 + n / 4096 ∧
      (allocLevelWords n).2.2 ≤ 1 + n / 64 := by
    unfold allocLevelWords
    dsimp only
    omega
  obtain ⟨h0, h1, h2⟩ := hwords
  have hb0 := allocWordBlocks_bounds (w := (allocLevelWords n).1) (by omega)
  have hb1 := allocWordBlocks_bounds (w := (allocLevelWords n).2.1) (by omega)
  have hb2 := allocWordBlocks_bounds (w := (allocLevelWords n).2.2) (by omega)
  unfold allocPoolBlocks
  dsimp only
  omega

theorem four_le_allocPoolBlocks (n : ℕ) : 4 ≤ allocPoolBlocks n := by
  have hfloor : ∀ w, 1 ≤ allocWordBlocks w := fun w => le_max_right _ _
  have h0 := hfloor (allocLevelWords n).1
  have h1 := hfloor (allocLevelWords n).2.1
  have h2 := hfloor (allocLevelWords n).2.2
  unfold allocPoolBlocks
  dsimp only
  omega

theorem nbBlocks_markAllocated (p : Pyramid) (rel : ℕ) :
    (p.markAllocated rel).1.nbBlocks = p.nbBlocks := by
  have hemptied : ∀ (q : Pyramid) (w : ℕ), (q.emptied w).nbBlocks = q.nbBlocks := by
    intro q w
    unfold Pyramid.emptied
    dsimp only
    split_ifs <;> simp [Pyramid.nbBlocks, Pyramid.clear1, Pyramid.clear0]
  unfold Pyramid.markAllocated
  split_ifs
  · rfl
  · rfl
  · rw [hemptied]
    simp [Pyramid.nbBlocks, Pyramid.clear2]

theorem nbBlocks_newDataAllocBuilder (n : ℕ) :
    (Pyramid.newDataAllocBuilder n).nbBlocks = allocPoolBlocks n := by
  unfold Pyramid.newDataAllocBuilder
  split_ifs
  · rw [nbBlocks_markAllocated, nbBlocks_newAllocBuilder]
  · exact nbBlocks_newAllocBuilder n

end Sizes

section Bitmaps

open Bitmap

variable {p : Pyramid} {rel : ℕ} {n : ℕ}

theorem markAllocated_fields (hrel : rel < p.blockCount)
    (hfree : bitAt p.l2 rel = true) :
    (p.markAllocated rel).1.l2 = (p.clear2 (rel / 64) (rel % 64)).l2 ∧
      (p.markAllocated rel).1.blockCount = p.blockCount := by
  have hbit : ¬(p.word2 (rel / 64)).getLsbD (rel % 64) = false := by
    change ¬bitAt p.l2 rel = false
    simp [hfree]
  unfold Pyramid.markAllocated
  rw [if_neg (by omega), if_neg hbit]
  obtain ⟨hl2, hcount, -⟩ := Pyramid.emptied_fields ({ p.clear2 (rel / 64) (rel % 64) with
    freeCount := (p.freeCount + 2 ^ 64 - 1) % 2 ^ 64 } : Pyramid) (rel / 64)
  exact ⟨hl2, hcount⟩

theorem bitAt_markAllocated (hrel : rel < p.blockCount)
    (hfree : bitAt p.l2 rel = true) (i : ℕ) :
    bitAt (p.markAllocated rel).1.l2 i = (bitAt p.l2 i && !decide (i = rel)) := by
  rw [(markAllocated_fields hrel hfree).1, Pyramid.bitAt_clear2]

theorem isAllocated_markAllocated (h : p.Whole)
    (hrel : rel < p.blockCount) (hfree : bitAt p.l2 rel = true) :
    (p.markAllocated rel).1.isAllocated rel = true := by
  have hbit := bitAt_markAllocated hrel hfree rel
  obtain ⟨hl2, hcount⟩ := markAllocated_fields hrel hfree
  have hlen : (p.markAllocated rel).1.l2.length = p.l2.length := by
    rw [hl2]
    exact List.length_set
  have hword := h.toShape.word_lt hrel
  rw [decide_eq_true rfl, Bool.not_true, Bool.and_false] at hbit
  unfold Pyramid.isAllocated
  rw [hcount, hlen, decide_eq_true hrel, decide_eq_true hword]
  change (!bitAt (p.markAllocated rel).1.l2 rel) = true
  rw [hbit]
  rfl

theorem total_markAllocated (hrel : rel < p.blockCount)
    (hfree : bitAt p.l2 rel = true) : total (p.markAllocated rel).1.l2 + 1 = total p.l2 := by
  have hlen : (p.markAllocated rel).1.l2.length = p.l2.length := by
    rw [(markAllocated_fields hrel hfree).1]
    exact List.length_set
  refine total_clear rel 1 hlen (fun i hlow hhigh => ?_) fun i => ?_
  · have hi : i = rel := by omega
    rw [hi]
    exact hfree
  · rw [bitAt_markAllocated hrel hfree]
    congr 2
    exact decide_eq_decide.mpr (by omega)

theorem bitAt_newAllocBuilder (hn : 1 ≤ n) (hmax : n ≤ 2 ^ 64 - 64) (i : ℕ) :
    bitAt (Pyramid.newAllocBuilder n).l2 i = decide (i < n) := by
  unfold Pyramid.newAllocBuilder
  rw [Pyramid.allocLevelWords_eq hn hmax]
  exact Pyramid.bitAt_fullLevel hn rfl i

theorem total_newAllocBuilder (hn : 1 ≤ n) (hmax : n ≤ 2 ^ 64 - 64) :
    total (Pyramid.newAllocBuilder n).l2 = n :=
  (Pyramid.whole_newAllocBuilder hn hmax).count.symm

/-- The inode bitmap, with the root inode taken. -/
theorem total_rootInode (hn : 1 ≤ n) (hmax : n ≤ 2 ^ 64 - 64) :
    total ((Pyramid.newAllocBuilder n).markAllocated 0).1.l2 = n - 1 := by
  have hfree : bitAt (Pyramid.newAllocBuilder n).l2 0 = true := by
    rw [bitAt_newAllocBuilder hn hmax, decide_eq_true_eq]
    omega
  have htaken := total_markAllocated (p := Pyramid.newAllocBuilder n) (show 0 < n from hn) hfree
  rw [total_newAllocBuilder hn hmax] at htaken
  omega

/-- The data bitmap, with block 0 reserved and the page of the root directory taken. -/
theorem dataPool_facts (hn : 2 ≤ n) (hmax : n ≤ 2 ^ 64 - 64) :
    ((Pyramid.newDataAllocBuilder n).markAllocated 1).1.isAllocated 1 = true ∧
      total ((Pyramid.newDataAllocBuilder n).markAllocated 1).1.l2 = n - 2 := by
  have hdata : Pyramid.newDataAllocBuilder n = ((Pyramid.newAllocBuilder n).markAllocated 0).1 :=
    if_pos (by omega)
  have hfree : bitAt (Pyramid.newAllocBuilder n).l2 0 = true := by
    rw [bitAt_newAllocBuilder (by omega) hmax, decide_eq_true_eq]
    omega
  have hsame : ((Pyramid.newAllocBuilder n).markAllocated 0).1.blockCount = n :=
    (markAllocated_fields (show 0 < n by omega) hfree).2
  have hnext : bitAt ((Pyramid.newAllocBuilder n).markAllocated 0).1.l2 1 = true := by
    rw [bitAt_markAllocated (show 0 < n by omega) hfree, bitAt_newAllocBuilder (by omega) hmax,
      decide_eq_true (show 1 < n by omega)]
    rfl
  have hwhole := (Pyramid.whole_newAllocBuilder (by omega) hmax).markAllocated 0
  have htotal := total_rootInode (show 1 ≤ n by omega) hmax
  have htaken := total_markAllocated (by rw [hsame]; omega) hnext
  rw [hdata]
  refine ⟨isAllocated_markAllocated hwhole (by rw [hsame]; omega) hnext, ?_⟩
  omega

end Bitmaps

section Layout

variable (totalBlocks inodeSize journalBlocks inodeRatio : ℕ)

def tableBlocks : ℕ :=
  roundUp (estInodes totalBlocks inodeRatio) (4096 / inodeSize) / (4096 / inodeSize)

def dataEstimate : ℕ :=
  totalBlocks - (2 + allocPoolBlocks (estInodes totalBlocks inodeRatio) +
    tableBlocks totalBlocks inodeSize inodeRatio + journalBlocks)

/-- The sizes the single pass gets right: a block of at least one inode, not one data
block only, and a pool for the estimate that is as large as the pool for the blocks that
are left after it. -/
structure Regular : Prop where
  slots : inodeSize ≤ 4096
  small : totalBlocks < 2 ^ 51
  notOne : dataEstimate totalBlocks inodeSize journalBlocks inodeRatio -
    allocPoolBlocks (dataEstimate totalBlocks inodeSize journalBlocks inodeRatio) ≠ 1
  samePool : allocPoolBlocks (dataEstimate totalBlocks inodeSize journalBlocks inodeRatio -
      allocPoolBlocks (dataEstimate totalBlocks inodeSize journalBlocks inodeRatio)) =
    allocPoolBlocks (dataEstimate totalBlocks inodeSize journalBlocks inodeRatio)

variable {totalBlocks inodeSize journalBlocks inodeRatio}

theorem tableBlocks_bounds (inodeRatio : ℕ) (hpos : 0 < 4096 / inodeSize) (htotal : totalBlocks < 2 ^ 51) :
    1 ≤ tableBlocks totalBlocks inodeSize inodeRatio ∧
      tableBlocks totalBlocks inodeSize inodeRatio < 2 ^ 53 := by
  obtain ⟨hlow, hhigh⟩ := estInodes_bounds totalBlocks inodeRatio htotal
  have hper : 4096 / inodeSize ≤ 4096 := Nat.div_le_self _ _
  unfold tableBlocks
  rw [roundUp_eq hpos (by omega), Nat.mul_div_cancel _ hpos]
  constructor
  · rw [Nat.le_div_iff_mul_le hpos]
    omega
  · refine lt_of_le_of_lt (Nat.div_le_self _ _) ?_
    omega

/-- The pool and the blocks it describes fill what lies between the EAT and the journal. -/
theorem place_laid {inodes table dataBlocks : ℕ} (hinodes : 100 ≤ inodes) (hmany : inodes < 2 ^ 52)
    (htable : 1 ≤ table) (hpos : 0 < journalBlocks) (hdata : 2 ≤ dataBlocks)
    (htotal : totalBlocks < 2 ^ 51)
    (hsum : totalBlocks = 2 + allocPoolBlocks inodes + table + allocPoolBlocks dataBlocks +
      dataBlocks + journalBlocks) {i : Image}
    (hi : place totalBlocks inodeSize journalBlocks inodes table dataBlocks = .ok i) : i.Laid := by
  obtain ⟨hblow, -⟩ := allocPoolBlocks_bounds hmany
  have hplow := four_le_allocPoolBlocks dataBlocks
  obtain ⟨htaken, hfree⟩ := dataPool_facts hdata (by omega)
  unfold place at hi
  dsimp only at hi
  rw [nbBlocks_markAllocated, nbBlocks_newAllocBuilder, nbBlocks_newDataAllocBuilder,
    sub64_eq (by omega : journalBlocks ≤ totalBlocks) (by omega),
    sub64_eq (by omega : 1 ≤ allocPoolBlocks dataBlocks) (by omega),
    sub64_eq (by omega : 2 ≤ dataBlocks) (by omega), sub64_eq (by omega : 1 ≤ inodes) (by omega),
    Nat.mod_eq_of_lt (by omega : 1 + allocPoolBlocks inodes < 2 ^ 64),
    Nat.mod_eq_of_lt (by omega : 1 + allocPoolBlocks inodes + table < 2 ^ 64),
    Nat.mod_eq_of_lt (by omega : 1 + allocPoolBlocks inodes + table + 1 < 2 ^ 64),
    Nat.mod_eq_of_lt (by omega : 1 + allocPoolBlocks inodes + table + 1 + 1 +
      (allocPoolBlocks dataBlocks - 1) < 2 ^ 64),
    Nat.mod_eq_of_lt (by omega : 1 + allocPoolBlocks inodes + table + 1 + 1 +
      (allocPoolBlocks dataBlocks - 1) + 1 < 2 ^ 64)] at hi
  split_ifs at hi with hroom
  injection hi with hi
  subst hi
  refine ⟨?_, ?_, ?_, ?_, ?_, ?_, ?_⟩
  · simp only [Image.regions, Image.dataRegionStart, Tiles, true_and]
    omega
  · exact (nbBlocks_markAllocated _ _).trans (nbBlocks_newAllocBuilder _)
  · exact (nbBlocks_markAllocated _ _).trans (nbBlocks_newDataAllocBuilder _)
  · unfold Within Image.dataRegionStart
    dsimp only
    omega
  · have hrel : 1 + allocPoolBlocks inodes + table + 1 + 1 + (allocPoolBlocks dataBlocks - 1) + 1 -
        (1 + allocPoolBlocks inodes + table + 1 + allocPoolBlocks dataBlocks) = 1 := by omega
    unfold Image.dataRegionStart
    rw [hrel]
    exact htaken
  · exact hfree.symm
  · exact (total_rootInode (by omega) (by omega)).symm

theorem sub64_comm {a b c : ℕ} (hb : b < 2 ^ 64) (hc : c < 2 ^ 64) :
    sub64 (sub64 a b) c = sub64 (sub64 a c) b := by
  unfold sub64
  omega

/-- Without a block for data the pool reaches into the journal. -/
theorem place_refused (inodeSize dataBlocks : ℕ) {inodes table : ℕ} (hmany : inodes < 2 ^ 52)
    (htable : table < 2 ^ 53) (hfits : journalBlocks ≤ totalBlocks) (htotal : totalBlocks < 2 ^ 51)
    (hsum : totalBlocks < 2 + allocPoolBlocks inodes + table + 4 + journalBlocks) :
    ∃ msg, place totalBlocks inodeSize journalBlocks inodes table dataBlocks =
      .error (.refused msg) := by
  have hb := (allocPoolBlocks_bounds hmany).2
  have hplow := four_le_allocPoolBlocks dataBlocks
  have hphigh : allocPoolBlocks dataBlocks < 2 ^ 63 := by
    have hwords : ∀ w, allocWordBlocks w < 2 ^ 53 := by
      intro w
      unfold allocWordBlocks
      omega
    have h0 := hwords (allocLevelWords dataBlocks).1
    have h1 := hwords (allocLevelWords dataBlocks).2.1
    have h2 := hwords (allocLevelWords dataBlocks).2.2
    unfold allocPoolBlocks
    dsimp only
    omega
  unfold place
  dsimp only
  rw [nbBlocks_markAllocated, nbBlocks_newAllocBuilder, nbBlocks_newDataAllocBuilder,
    sub64_eq hfits (by omega), sub64_eq (by omega : 1 ≤ allocPoolBlocks dataBlocks) (by omega),
    if_pos (by omega)]
  exact ⟨_, rfl⟩

/-- No panic, and a volume that is laid out as it should be. -/
def Sound (x : Except Failure Image) : Prop := x ≠ .error .panic ∧ ∀ i, x = .ok i → i.Laid

theorem sound_refused (msg : String) : Sound (.error (.refused msg)) := by
  constructor
  · intro h
    cases h
  · intro i h
    cases h

theorem place_ne_panic (inodes table dataBlocks : ℕ) :
    place totalBlocks inodeSize journalBlocks inodes table dataBlocks ≠ .error .panic := by
  unfold place
  dsimp only
  split_ifs <;> exact fun h => by cases h

theorem layOut_sound (hin : 0 < inodeSize) (hpos : 0 < journalBlocks)
    (hjournal : journalBlocks < 2 ^ 63)
    (h : Regular totalBlocks inodeSize journalBlocks inodeRatio) :
    Sound (layOut totalBlocks inodeSize journalBlocks inodeRatio) := by
  have hper : 0 < 4096 / inodeSize := Nat.div_pos h.slots hin
  have htotal := h.small
  obtain ⟨hinlow, hinhigh⟩ := estInodes_bounds totalBlocks inodeRatio htotal
  obtain ⟨htlow, hthigh⟩ := tableBlocks_bounds inodeRatio hper htotal
  obtain ⟨hblow, hbhigh⟩ := allocPoolBlocks_bounds hinhigh
  have hone := h.notOne
  have hsame := h.samePool
  have hest : dataEstimate totalBlocks inodeSize journalBlocks inodeRatio =
      totalBlocks - (2 + allocPoolBlocks (estInodes totalBlocks inodeRatio) +
        tableBlocks totalBlocks inodeSize inodeRatio + journalBlocks) := rfl
  have htable : roundUp (estInodes totalBlocks inodeRatio) (4096 / inodeSize) / (4096 / inodeSize) =
      tableBlocks totalBlocks inodeSize inodeRatio := rfl
  unfold layOut
  dsimp only
  rw [nbBlocks_newAllocBuilder, htable, if_neg (by omega)]
  generalize dataEstimate totalBlocks inodeSize journalBlocks inodeRatio = est at *
  generalize hinodes : estInodes totalBlocks inodeRatio = inodes at *
  generalize tableBlocks totalBlocks inodeSize inodeRatio = table at *
  rw [Nat.mod_eq_of_lt (by omega)]
  refine iteInduction (fun _ => sound_refused _) fun hroom => ?_
  have hplain : [1, allocPoolBlocks inodes, table, 1].foldl sub64 totalBlocks =
      est + journalBlocks := by
    have h1 : sub64 totalBlocks 1 = totalBlocks - 1 := sub64_eq (by omega) (by omega)
    have h2 : sub64 (totalBlocks - 1) (allocPoolBlocks inodes) =
        totalBlocks - 1 - allocPoolBlocks inodes := sub64_eq (by omega) (by omega)
    have h3 : sub64 (totalBlocks - 1 - allocPoolBlocks inodes) table =
        totalBlocks - 1 - allocPoolBlocks inodes - table := sub64_eq (by omega) (by omega)
    have h4 : sub64 (totalBlocks - 1 - allocPoolBlocks inodes - table) 1 =
        totalBlocks - 1 - allocPoolBlocks inodes - table - 1 := sub64_eq (by omega) (by omega)
    rw [List.foldl_cons, List.foldl_cons, List.foldl_cons, List.foldl_cons, List.foldl_nil, h1, h2,
      h3, h4]
    omega
  have hestimate : [1, allocPoolBlocks inodes, table, 1, journalBlocks].foldl sub64 totalBlocks =
      est := by
    rw [show [1, allocPoolBlocks inodes, table, 1, journalBlocks] =
      [1, allocPoolBlocks inodes, table, 1] ++ [journalBlocks] from rfl, List.foldl_append, hplain,
      List.foldl_cons, List.foldl_nil, sub64_eq (by omega) (by omega), Nat.add_sub_cancel]
  obtain ⟨hplow, hphigh⟩ := allocPoolBlocks_bounds (n := est) (by omega)
  have hdata : [1, allocPoolBlocks inodes, table, 1, allocPoolBlocks est, journalBlocks].foldl sub64
      totalBlocks = sub64 est (allocPoolBlocks est) := by
    rw [show [1, allocPoolBlocks inodes, table, 1, allocPoolBlocks est, journalBlocks] =
      [1, allocPoolBlocks inodes, table, 1] ++ [allocPoolBlocks est, journalBlocks] from rfl,
      List.foldl_append, hplain, List.foldl_cons, List.foldl_cons, List.foldl_nil,
      sub64_comm (by omega) (by omega),
      sub64_eq (by omega : journalBlocks ≤ est + journalBlocks) (by omega), Nat.add_sub_cancel]
  rw [hestimate, hdata]
  refine iteInduction (fun _ => sound_refused _) fun hsome => ?_
  by_cases hfits : allocPoolBlocks est ≤ est
  · rw [sub64_eq hfits (by omega)] at hsome ⊢
    refine ⟨place_ne_panic _ _ _, fun i hi => ?_⟩
    exact place_laid hinlow hinhigh htlow hpos (by omega) htotal (by omega) hi
  · obtain ⟨msg, hrefused⟩ := place_refused inodeSize
      (sub64 est (allocPoolBlocks est)) hinhigh hthigh
      (by omega : journalBlocks ≤ totalBlocks) htotal (by omega)
    rw [hrefused]
    exact sound_refused msg

end Layout

/-- What is asked of the options: if the device can be probed, the sizes are regular. -/
def Options.Regular (o : Options) : Prop :=
  ∀ total, o.totalBlocks = .ok total →
    Mkfs.Regular total o.inodeSize.val.toNat o.journalBlocks o.inodeRatio.val.toNat

/-- The journal begins where the data region ends. -/
theorem Image.Laid.journal {i : Image} (h : i.Laid) :
    i.journalOffset = i.dataRegionStart + i.dataBlocks := by
  have htiles := h.tiles
  simp only [Image.regions, Tiles] at htiles
  omega

/-- A number in the range of an option. -/
def Flag.ofUInt32 (n : UInt32) : Flag := ⟨n.toNat, by have := n.toNat_lt; omega⟩

/-- A volume of the given size with the other options at their defaults, but for the
inode size. -/
def sampleOptions (size inodeSize : UInt32) : Options where
  size := Flag.ofUInt32 size
  blockSize := Flag.ofUInt32 4096
  inodeSize := Flag.ofUInt32 inodeSize
  journalSize := Flag.ofUInt32 0
  inodeRatio := Flag.ofUInt32 8
  probed := .error "not probed"

/-- What a made volume shows of itself. -/
def shown (o : Options) : Option (ℕ × ℕ × ℕ × ℕ) :=
  (mkfs o).toOption.map fun i =>
    (i.rootTrieBlock, i.dataRegionStart, i.dataBlocks, i.journalOffset)

theorem exists_of_shown {o : Options} {root start blocks journal : ℕ}
    (h : shown o = some (root, start, blocks, journal)) :
    ∃ i, mkfs o = .ok i ∧ i.rootTrieBlock = root ∧ i.dataRegionStart = start ∧
      i.dataBlocks = blocks ∧ i.journalOffset = journal := by
  unfold shown at h
  cases hmade : mkfs o with
  | error e =>
    rw [hmade] at h
    cases h
  | ok i =>
    rw [hmade] at h
    injection h with h
    injection h with hroot h
    injection h with hstart h
    injection h with hblocks hjournal
    exact ⟨i, rfl, hroot, hstart, hblocks, hjournal⟩

end Mkfs

end Briefs
