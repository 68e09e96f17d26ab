import Briefs.File.Punch

/-!
# Collapsing and inserting

`collapseRangeOp` cuts a range of blocks out of a file and `insertRangeOp` opens one in it.
What lies behind the range moves towards the front or towards the end, with its blocks.
-/

namespace Briefs.File

open Lib Alloc Btree
open Bridge (BlockRun RunAccum)

section Calls

variable (env : Env)

def maxBytes : ℕ := env.totalBlocks * blockSize

def collapseRangeOp (i : Inode) (off size : ℕ) : Call FS Unit := do
  Call.when (off % blockSize ≠ 0 ∨ size % blockSize ≠ 0) (Call.fail (.errno .einval))
  Call.when (i.fileSize ≤ off + size) (Call.fail (.errno .einval))
  Call.when (isInlineData i) (Call.fail (.errno .eopnotsupp))
  let tree ← collect i
  let (newExts, freed) := shiftDown tree.exts (off / blockSize) (size / blockSize)
  commitRebuiltExtents env (resized env i (i.fileSize - size)) tree newExts freed

def insertRangeOp (i : Inode) (off size : ℕ) : Call FS Unit := do
  Call.when (off % blockSize ≠ 0 ∨ size % blockSize ≠ 0) (Call.fail (.errno .einval))
  Call.when (i.fileSize ≤ off) (Call.fail (.errno .einval))
  -- the difference wraps where the file is larger than the device
  Call.when ((maxBytes env + 2 ^ 64 - i.fileSize) % 2 ^ 64 < size) (Call.fail (.errno .efbig))
  Call.when (isInlineData i) (Call.fail (.errno .eopnotsupp))
  let tree ← collect i
  commitRebuiltExtents env (resized env i ((i.fileSize + size) % 2 ^ 64)) tree
    (shiftUp tree.exts (off / blockSize) (size / blockSize)) []

end Calls

variable {env : Env} {s t u v : FS} {i i' j : Inode} {exts newExts : List Extent}
  {nodes nodes' : List ℕ} {b k p f pos pos' S L n ino off size : ℕ} {r : Unit} {M : ℕ → ℕ → Prop}

/-- The extents of a file are stored with its blocks moved. -/
theorem Opened.restored (h : Opened env s ino i u) (hbacked : Backed env u i exts nodes)
    {tree : ExtentTree} {freed : List BlockRun} {g : ℕ → UInt8}
    (hcollect : collectExtentTree u.dev i = .ok tree) (hproper : Proper newExts)
    (hmaps : ∀ k' p f, Maps newExts k' p f ↔ ∃ k, M k k' ∧ Maps exts k p f)
    (hfreed : ∀ b, b ∈ runBlocks freed ↔ Mapped exts b ∧ ¬Mapped newExts b)
    (hn : n ≤ maxFileSize)
    (hbound : ∀ k' p f, Maps newExts k' p f → k' < blocksFor n + env.totalBlocks)
    (hbytes : byteAt u.dev newExts = g) (htail : ∀ pos, n ≤ pos → g pos = 0)
    (hcall : commitRebuiltExtents env (resized env i n) tree newExts freed u = (.ok r, t)) :
    Outcome env s ino n g t ∧ Moved env s ino t M := by
  have hstaged : Staged env u i exts u (resized env i n) newExts [] :=
    { works := Works.refl _ _
      proper := hproper
      blocks := fun b ⟨k', f, hk'⟩ => by
        obtain ⟨k, -, hk⟩ := (hmaps k' b f).mp hk'
        exact .inl ⟨k, f, hk⟩
      used := fun b hb => absurd hb List.not_mem_nil
      number := rfl
      mode := rfl
      flags := rfl
      bound := hbound
      tail := hbytes.symm ▸ htail }
  obtain ⟨i', nodes', heffect, hbacked', hsee, hnode, hre, -⟩ :=
    hstaged.commitRebuilt h.ok.room hbacked hn hcollect hfreed hcall
  have hsize : i'.fileSize = n := by
    rw [hre.rest]
    rfl
  have hout := h.outcome_backed heffect hbacked' (hsize.trans_le hn)
  rw [hsize, hsee, hbytes] at hout
  exact ⟨hout, h.moved hbacked heffect hbacked' hnode hmaps⟩

theorem byteAt_moved (dev : ℕ → Cell) (hexts : Proper exts) (hnew : Proper newExts)
    (hmaps : ∀ k' p f, Maps newExts k' p f ↔ ∃ k, M k k' ∧ Maps exts k p f)
    (hmod : pos' % blockSize = pos % blockSize)
    (hM : ∀ k, M k (pos' / blockSize) ↔ k = pos / blockSize) :
    byteAt dev newExts pos' = byteAt dev exts pos := by
  refine byteAt_congr hexts hnew hmod (fun p f => ?_) fun _ _ => rfl
  simp [hmaps, hM]

/-! ### Collapsing -/

/-- Where a block of the file goes when `L` blocks from `S` on are cut out. -/
def Collapses (S L k k' : ℕ) : Prop := k < S ∧ k' = k ∨ S + L ≤ k ∧ k' + L = k

theorem collapses_iff : (∃ k', Collapses S L k k') ↔ k < S ∨ S + L ≤ k := by
  unfold Collapses
  constructor
  · rintro ⟨k', hk⟩
    omega
  · rintro (hk | hk)
    · exact ⟨k, .inl ⟨hk, rfl⟩⟩
    · exact ⟨k - L, .inr (by omega)⟩

theorem maps_shiftDown (h : Proper exts) (S L : ℕ) : Proper (shiftDown exts S L).1 ∧
    (∀ k' p f, Maps (shiftDown exts S L).1 k' p f ↔ ∃ k, Collapses S L k k' ∧ Maps exts k p f) ∧
    ∀ b, b ∈ runBlocks (shiftDown exts S L).2 ↔
      Mapped exts b ∧ ¬Mapped (shiftDown exts S L).1 b := by
  obtain ⟨hsorted, hspec⟩ := shiftDown_spec (S := S) (L := L) h.sorted
  have hmaps : ∀ k' p f, Maps (shiftDown exts S L).1 k' p f ↔
      ∃ k, Collapses S L k k' ∧ Maps exts k p f := by
    intro k' p f
    rw [hspec]
    constructor
    · rintro (⟨hlt, hk⟩ | ⟨hle, hk⟩)
      · exact ⟨k', .inl ⟨hlt, rfl⟩, hk⟩
      · exact ⟨k' + L, .inr ⟨by omega, rfl⟩, hk⟩
    · rintro ⟨k, ⟨hlt, rfl⟩ | ⟨hle, rfl⟩, hk⟩
      · exact .inl ⟨hlt, hk⟩
      · exact .inr ⟨by omega, hk⟩
  refine ⟨h.moved hsorted hmaps ?_, hmaps, fun b => ?_⟩
  · intro k a b ha hb
    simp only [Collapses] at ha hb
    omega
  · rw [freed_shiftDown h.sorted]
    refine h.mem_freed hmaps fun k => ?_
    rw [collapses_iff]
    omega

/-- Positions of a file and positions of the file without the blocks. -/
theorem byteAt_collapsed (dev : ℕ → Cell) (hexts : Proper exts) (hnew : Proper newExts)
    (hoff : off % blockSize = 0) (hsize : size % blockSize = 0)
    (hmaps : ∀ k' p f, Maps newExts k' p f ↔
      ∃ k, Collapses (off / blockSize) (size / blockSize) k k' ∧ Maps exts k p f) :
    byteAt dev newExts = fun pos =>
      if pos < off then byteAt dev exts pos else byteAt dev exts (pos + size) := by
  funext pos
  split_ifs with hpos
  · refine byteAt_moved dev hexts hnew hmaps rfl fun k => ?_
    simp only [Collapses, blockSize] at *
    omega
  · refine byteAt_moved dev hexts hnew hmaps ?_ fun k => ?_ <;>
    · simp only [Collapses, blockSize] at *
      omega

theorem collapseRangeOp_spec (h : Opened env s ino i u)
    (hcall : collapseRangeOp env i off size u = (.ok r, t)) :
    off % blockSize = 0 ∧ size % blockSize = 0 ∧ off + size < (s.inodes ino).fileSize ∧
      Outcome env s ino ((s.inodes ino).fileSize - size) (fun pos =>
        if pos < off then content s (s.inodes ino) pos
        else content s (s.inodes ino) (pos + size)) t ∧
      Moved env s ino t (Collapses (off / blockSize) (size / blockSize)) := by
  rw [← h.fileSize, ← h.content_eq]
  obtain ⟨haligned, hcall⟩ := Call.checked hcall
  obtain ⟨hinside, hcall⟩ := Call.checked hcall
  obtain ⟨hdata, hcall⟩ := Call.checked hcall
  obtain ⟨exts, nodes, hbacked⟩ := h.fileOk.form.resolve_left fun hin => hdata hin.flag
  obtain ⟨tree, hcollect, htree, -, -⟩ := hbacked.collect
  obtain ⟨tree', u₁, hread, hcall⟩ := Call.bind_eq_ok hcall
  obtain ⟨rfl, rfl⟩ := collect_eq_ok hcollect hread
  rw [htree] at hcall
  rw [not_or, not_ne_iff, not_ne_iff] at haligned
  obtain ⟨hoff, hsize⟩ := haligned
  rw [Nat.not_le] at hinside
  obtain ⟨hproper, hmaps, hfreed⟩ :=
    maps_shiftDown hbacked.proper (off / blockSize) (size / blockSize)
  have hbytes := byteAt_collapsed u.dev hbacked.proper hproper hoff hsize hmaps
  refine ⟨hoff, hsize, hinside, ?_⟩
  rw [hbacked.content_eq]
  refine h.restored hbacked hcollect hproper hmaps hfreed ((Nat.sub_le _ _).trans h.fileOk.size)
    (fun k' p f hk' => ?_) hbytes (fun pos hpos => ?_) hcall
  · obtain ⟨k, hk, hmap⟩ := (hmaps k' p f).mp hk'
    have := hbacked.bound k p f hmap
    simp only [Collapses, blocksFor, blockSize] at *
    omega
  · rw [if_neg (by omega)]
    exact hbacked.tail _ (by omega)

/-! ### Inserting -/

/-- Where a block of the file goes when `L` blocks are put in at `S`. -/
def Inserts (S L k k' : ℕ) : Prop := k < S ∧ k' = k ∨ S ≤ k ∧ k' = k + L

theorem inserts_total (S L k : ℕ) : ∃ k', Inserts S L k k' := by
  rcases Nat.lt_or_ge k S with hk | hk
  · exact ⟨k, .inl ⟨hk, rfl⟩⟩
  · exact ⟨k + L, .inr ⟨hk, rfl⟩⟩

theorem maps_shiftUp (h : Proper exts) (S L : ℕ) : Proper (shiftUp exts S L) ∧
    ∀ k' p f, Maps (shiftUp exts S L) k' p f ↔ ∃ k, Inserts S L k k' ∧ Maps exts k p f := by
  obtain ⟨hsorted, hspec⟩ := shiftUp_spec (S := S) (L := L) h.sorted
  have hmaps : ∀ k' p f, Maps (shiftUp exts S L) k' p f ↔
      ∃ k, Inserts S L k k' ∧ Maps exts k p f := by
    intro k' p f
    rw [hspec]
    constructor
    · rintro (⟨hlt, hk⟩ | ⟨hle, hk⟩)
      · exact ⟨k', .inl ⟨hlt, rfl⟩, hk⟩
      · exact ⟨k' - L, .inr (by omega), hk⟩
    · rintro ⟨k, ⟨hlt, rfl⟩ | ⟨hle, rfl⟩, hk⟩
      · exact .inl ⟨hlt, hk⟩
      · exact .inr ⟨by omega, by rwa [Nat.add_sub_cancel]⟩
  refine ⟨h.moved hsorted hmaps ?_, hmaps⟩
  intro k a b ha hb
  simp only [Inserts] at ha hb
  omega

theorem byteAt_inserted (dev : ℕ → Cell) (hexts : Proper exts) (hnew : Proper newExts)
    (hoff : off % blockSize = 0) (hsize : size % blockSize = 0)
    (hmaps : ∀ k' p f, Maps newExts k' p f ↔
      ∃ k, Inserts (off / blockSize) (size / blockSize) k k' ∧ Maps exts k p f) :
    byteAt dev newExts = fun pos =>
      if pos < off then byteAt dev exts pos
      else if pos < off + size then 0 else byteAt dev exts (pos - size) := by
  funext pos
  split_ifs with hpos hin
  · refine byteAt_moved dev hexts hnew hmaps rfl fun k => ?_
    simp only [Inserts, blockSize] at *
    omega
  · refine byteAt_of_gap hnew fun p f hk' => ?_
    obtain ⟨k, hk, -⟩ := (hmaps _ p f).mp hk'
    simp only [Inserts, blockSize] at *
    omega
  · refine byteAt_moved dev hexts hnew hmaps ?_ fun k => ?_ <;>
    · simp only [Inserts, blockSize] at *
      omega

theorem insertRangeOp_spec (h : Opened env s ino i u)
    (hmax : (s.inodes ino).fileSize + size ≤ maxFileSize)
    (hcall : insertRangeOp env i off size u = (.ok r, t)) :
    off % blockSize = 0 ∧ size % blockSize = 0 ∧ off < (s.inodes ino).fileSize ∧
      Outcome env s ino ((s.inodes ino).fileSize + size) (fun pos =>
        if pos < off then content s (s.inodes ino) pos
        else if pos < off + size then 0 else content s (s.inodes ino) (pos - size)) t ∧
      Moved env s ino t (Inserts (off / blockSize) (size / blockSize)) := by
  rw [← h.fileSize, ← h.content_eq] at *
  obtain ⟨haligned, hcall⟩ := Call.checked hcall
  obtain ⟨hinside, hcall⟩ := Call.checked hcall
  obtain ⟨-, hcall⟩ := Call.checked hcall
  obtain ⟨hdata, hcall⟩ := Call.checked hcall
  obtain ⟨exts, nodes, hbacked⟩ := h.fileOk.form.resolve_left fun hin => hdata hin.flag
  obtain ⟨tree, hcollect, htree, -, -⟩ := hbacked.collect
  obtain ⟨tree', u₁, hread, hcall⟩ := Call.bind_eq_ok hcall
  obtain ⟨rfl, rfl⟩ := collect_eq_ok hcollect hread
  rw [htree, Nat.mod_eq_of_lt (hmax.trans_lt (by decide))] at hcall
  rw [not_or, not_ne_iff, not_ne_iff] at haligned
  obtain ⟨hoff, hsize⟩ := haligned
  rw [Nat.not_le] at hinside
  obtain ⟨hproper, hmaps⟩ := maps_shiftUp hbacked.proper (off / blockSize) (size / blockSize)
  have hbytes := byteAt_inserted u.dev hbacked.proper hproper hoff hsize hmaps
  refine ⟨hoff, hsize, hinside, ?_⟩
  rw [hbacked.content_eq]
  refine h.restored hbacked hcollect hproper hmaps (fun b => iff_of_false (by simp [runBlocks]) ?_)
    hmax (fun k' p f hk' => ?_) hbytes (fun pos hpos => ?_) hcall
  · rintro ⟨⟨k, f, hk⟩, hnot⟩
    exact (hbacked.proper.dropped_iff hk hmaps).mp hnot (inserts_total _ _ k)
  · obtain ⟨k, hk, hmap⟩ := (hmaps k' p f).mp hk'
    have := hbacked.bound k p f hmap
    simp only [Inserts, blocksFor, blockSize] at *
    omega
  · rw [if_neg (by omega), if_neg (by omega)]
    exact hbacked.tail _ (by omega)

end Briefs.File
