import Briefs.File.Commit

/-!
# Writing

`writeFileData` and its parts. A write goes block by block: it patches a block that is
mapped, turns an unwritten block into a written one, and allocates a block in a hole. The
invariant of the loop is that the extents grow (`Grows`) and that the file reads as before
with the data written so far laid over it.
-/

namespace Briefs.File

open Lib Alloc Btree
open Bridge (BlockRun RunAccum)
open Dir (inodeFlagIndexed)

/-- A 64-bit number as one with a sign. -/
def int64 (n : ℕ) : ℤ := Int.bmod n (2 ^ 64)

section Calls

variable (env : Env)

def userFlagsImmutable (i : Inode) : Prop := env.userFlags i.inodeNumber &&& 0x10 ≠ 0

def userFlagsAppendOnly (i : Inode) : Prop := env.userFlags i.inodeNumber &&& 0x20 ≠ 0

instance (i : Inode) : Decidable (userFlagsImmutable env i) := inferInstanceAs (Decidable (_ ≠ _))

instance (i : Inode) : Decidable (userFlagsAppendOnly env i) := inferInstanceAs (Decidable (_ ≠ _))

/-- `stampDataTimes`. -/
def stampDataTimes (i : Inode) (mtime : Bool) : Inode :=
  { i with ctime := env.now, mtime := if mtime then env.now else i.mtime }

def stampMtimeCtime (i : Inode) : Inode := stampDataTimes env i true

/-- The inode with the size `n` and new times. -/
def resized (i : Inode) (n : ℕ) : Inode := stampMtimeCtime env { i with fileSize := n }

/-- The inode with the size `n`, if that is larger, and new times. -/
def grownTo (i : Inode) (oldSize : ℤ) (n : ℕ) : Inode :=
  stampMtimeCtime env (if oldSize < n then { i with fileSize := n } else i)

def writeInlineData (i : Inode) (data : Bytes) (off : ℕ) : Inode :=
  grownTo env (setInlineData { i with flags := i.flags ||| inodeFlagInlineData }
    (copyInto (clearRange (inlineData i) i.fileSize off) off data)) (int64 i.fileSize)
    (off + data.length)

/-- What a mapped block holds before a segment is written to it; a block that is unwritten
or overwritten is not read. -/
def blockToPatch (ext : Extent) (iblock start : ℕ) (seg : Bytes) : Call FS Block :=
  if ext.unwritten ∨ start = 0 ∧ seg.length = blockSize then pure zeroBlock
  else readBlock (ext.place iblock)

/-- One round of the loop of `writeExtentData`: write `seg` to a block of the file from the
position `start` of the block on. The second result tells whether the extents changed. -/
def writeSegment (exts : List Extent) (iblock start : ℕ) (seg : Bytes) :
    Call FS (List Extent × Bool) :=
  match lookupExtent exts iblock with
  | some ext => do
    let buf ← blockToPatch ext iblock start seg
    writeBlock (ext.place iblock) (copyInto buf start seg)
    if ext.unwritten then pure (splitUnwrittenAt exts ext iblock, true) else pure (exts, false)
  | none => do
    let abs ← allocBlock env false
    writeBlock abs (copyInto zeroBlock start seg)
    pure (insertExtentSorted exts ⟨iblock, abs, 1, 0⟩, true)

/-- Where the part of a write ends that goes to the block of `cur`; the end of the last
block may wrap. -/
def segmentEnd (cur endOff : ℕ) : ℕ :=
  let blockEnd := cur / blockSize * blockSize + blockSize
  min endOff (if blockEnd < 2 ^ 63 then blockEnd else endOff)

/-- The loop of `writeExtentData`, with the data that is left. Each round writes at least
one byte, so that the length of the data bounds the rounds. -/
def writeBlocks (endOff : ℕ) : ℕ → ℕ → Bytes → List Extent → Bool → Call FS (List Extent × Bool)
  | 0, _, _, exts, rebuild => pure (exts, rebuild)
  | fuel + 1, cur, data, exts, rebuild =>
    if endOff ≤ cur then pure (exts, rebuild)
    else do
      let n := segmentEnd cur endOff - cur
      let (exts, changed) ← writeSegment env exts (cur / blockSize)
        (cur - cur / blockSize * blockSize) (data.take n)
      writeBlocks endOff fuel (cur + n) (data.drop n) exts (rebuild || changed)

/-- The first phase of `writeExtentData`: the extents with the data written to their blocks,
and the nodes that are no longer used. -/
def writeExtents (i : Inode) (data : Bytes) (off : ℕ) (oldSize : ℤ) :
    Call FS (Inode × List BlockRun × List Extent) := do
  let tree ← collect i
  Call.when (oldSize < off ∧ 0 < oldSize ∧ oldSize % blockSize ≠ 0)
    (zeroEofTail tree.exts oldSize.toNat)
  let (exts, rebuild) ← writeBlocks env (off + data.length) data.length off data tree.exts false
  if rebuild then do
    let (i, oldNodes) ← rebuildExtentIndexWrite env i tree exts
    pure (i, oldNodes, exts)
  else pure (i, [], exts)

def writeExtentData (i : Inode) (data : Bytes) (off : ℕ) (oldSize : ℤ) : Call FS ℕ := do
  let (i, oldNodes, exts) ← orRollback (writeExtents env i data off oldSize)
  let i := grownTo env i oldSize (off + data.length)
  updateUnwrittenRes i.inodeNumber exts
  commitExtentChange env i [] oldNodes
  pure data.length

/-- The choice of `writeFileData`: data in the inode or in blocks. -/
def writeOpened (i : Inode) (data : Bytes) (off : ℕ) : Call FS ℕ :=
  if isInlineData i ∨ int64 i.fileSize = 0 ∧ i.numExtentsTotal = 0 then
    if off + data.length ≤ inlineDataMax then do
      -- a negative index into the region
      Call.when (int64 i.fileSize < 0) (Call.fail .crash)
      commitInodeMetadata (writeInlineData env i data off)
      pure data.length
    else do
      let j ← orRollback (promoteInlineData env i)
      writeExtentData env j data off (int64 i.fileSize)
  else writeExtentData env i data off (int64 i.fileSize)

def writeFileData (ino : ℕ) (data : Bytes) (off : ℕ) : Call FS ℕ :=
  if data = [] then pure 0
  else do
    let s ← Call.read
    Call.when s.shutdown (Call.fail (.errno .eio))
    Call.when s.readOnly (Call.fail (.errno .erofs))
    let i := s.inodes ino
    Call.when (userFlagsImmutable env i) (Call.fail (.errno .eperm))
    Call.when (userFlagsAppendOnly env i ∧ off ≠ i.fileSize) (Call.fail (.errno .eperm))
    let i ← removePrivs env i
    Call.when (maxFileSize < off ∨ maxFileSize - off < data.length) (Call.fail (.errno .efbig))
    resetAllocated
    writeOpened env i data off

end Calls

variable {env : Env} {s t u : FS} {i i' j : Inode} {exts exts' : List Extent} {dev : ℕ → Cell}
  {nodes new : List ℕ} {k p f pos cur endOff off : ℕ} {data seg : Bytes} {buf : Block}

/-! ### Data laid over a file -/

theorem copyInto_nil (g : ℕ → UInt8) (start : ℕ) : copyInto g start [] = g := by
  funext pos
  rw [copyInto, if_neg]
  simp only [List.length_nil]
  omega

theorem copyInto_copyInto (g : ℕ → UInt8) (start n : ℕ) (data : Bytes) (hn : n ≤ data.length) :
    copyInto (copyInto g start (data.take n)) (start + n) (data.drop n) = copyInto g start data := by
  funext pos
  simp only [copyInto, List.length_take, List.length_drop, Nat.min_eq_left hn,
    List.getD_eq_getElem?_getD, List.getElem?_drop]
  by_cases hlate : start + n ≤ pos ∧ pos < start + n + (data.length - n)
  · rw [if_pos hlate, if_pos (by omega)]
    congr 2
    omega
  · rw [if_neg hlate]
    by_cases hin : start ≤ pos ∧ pos < start + n
    · rw [if_pos hin, if_pos (by omega), List.getElem?_take_of_lt (by omega)]
    · rw [if_neg hin, if_neg (by omega)]

/-- The bytes of one block, patched from `cur` on, are those of the file with the patch. -/
theorem copyInto_segment (hpos : pos / blockSize = cur / blockSize) :
    copyInto buf (cur - cur / blockSize * blockSize) seg (pos % blockSize) =
      copyInto (fun pos => buf (pos % blockSize)) cur seg pos := by
  have hiff : (cur - cur / blockSize * blockSize ≤ pos % blockSize ∧
      pos % blockSize < cur - cur / blockSize * blockSize + seg.length) ↔
      cur ≤ pos ∧ pos < cur + seg.length := by
    simp only [blockSize] at hpos ⊢
    omega
  refine if_ctx_congr hiff (fun hin => ?_) fun _ => rfl
  have heq : pos % blockSize - (cur - cur / blockSize * blockSize) = pos - cur := by
    simp only [blockSize] at hpos ⊢
    omega
  rw [heq]

theorem byteAt_put (hexts : Proper exts) (hexts' : Proper exts') (hmaps : Maps exts' k p 0)
    (hsame : ∀ m q g, m ≠ k → (Maps exts' m q g ↔ Maps exts m q g)) :
    byteAt (Function.update dev p (.data buf)) exts' pos =
      if pos / blockSize = k then buf (pos % blockSize) else byteAt dev exts pos := by
  rw [byteAt_update hexts' hmaps]
  by_cases hk : pos / blockSize = k
  · rw [if_pos hk, if_pos hk, if_pos rfl]
  · rw [if_neg hk, if_neg hk]
    exact byteAt_congr hexts hexts' rfl (fun q g => hsame _ q g hk) fun _ _ => rfl

/-- A block of the file is replaced by its old bytes with a segment written over them. -/
theorem byteAt_segment (hexts : Proper exts) (hexts' : Proper exts')
    (hmaps : Maps exts' (cur / blockSize) p 0)
    (hsame : ∀ m q g, m ≠ cur / blockSize → (Maps exts' m q g ↔ Maps exts m q g))
    (hseg : cur % blockSize + seg.length ≤ blockSize)
    (hbuf : ∀ pos, pos / blockSize = cur / blockSize → ¬(cur ≤ pos ∧ pos < cur + seg.length) →
      buf (pos % blockSize) = byteAt dev exts pos) :
    byteAt (Function.update dev p (.data (copyInto buf (cur - cur / blockSize * blockSize) seg))) exts' =
      copyInto (byteAt dev exts) cur seg := by
  funext pos
  rw [byteAt_put hexts hexts' hmaps hsame]
  split_ifs with hk
  · rw [copyInto_segment hk]
    by_cases hin : cur ≤ pos ∧ pos < cur + seg.length
    · rw [copyInto, copyInto, if_pos hin, if_pos hin]
    · rw [copyInto, copyInto, if_neg hin, if_neg hin, hbuf pos hk hin]
  · have hout : ¬(cur ≤ pos ∧ pos < cur + seg.length) := by
      simp only [blockSize] at hk hseg
      omega
    rw [copyInto, if_neg hout]

/-! ### The loop -/

theorem maps_of_lookup {ext : Extent} (hs : Sorted exts) (h : lookupExtent exts k = some ext) :
    ext ∈ exts ∧ (ext.offset ≤ k ∧ k < ext.stop) ∧ Maps exts k (ext.place k) ext.flags := by
  obtain ⟨hmem, hhas⟩ := hs.locate_eq_some.mp h
  exact ⟨hmem, hhas, ext, hmem, hhas, rfl⟩

/-- What one round does: the segment is laid over the file. -/
structure Patched (env : Env) (s : FS) (exts : List Extent) (cur : ℕ) (data : Bytes) (u : FS)
    (exts' : List Extent) (changed : Bool) (new : List ℕ) : Prop where
  grows : Grows env s exts u exts' new
  bytes : byteAt u.dev exts' = copyInto (byteAt s.dev exts) cur data
  inside : ∀ k p f, Maps exts' k p f → k * blockSize < cur + data.length ∨ ∃ q g, Maps exts k q g
  same : changed = false → exts' = exts

theorem blockToPatch_spec (env : Env) {ext : Extent} (hexts : Proper exts)
    (hlookup : lookupExtent exts (cur / blockSize) = some ext)
    (h : blockToPatch ext (cur / blockSize) (cur - cur / blockSize * blockSize) seg s = (.ok buf, u)) :
    u.dev = s.dev ∧ Works env s [] (Mapped exts) u ∧ ∀ pos, pos / blockSize = cur / blockSize →
      ¬(cur ≤ pos ∧ pos < cur + seg.length) → buf (pos % blockSize) = byteAt s.dev exts pos := by
  obtain ⟨hmem, -, hmaps⟩ := maps_of_lookup hexts.sorted hlookup
  have hbyte : ∀ pos, pos / blockSize = cur / blockSize → byteAt s.dev exts pos =
      if ext.flags = 0 then (s.dev (ext.place (cur / blockSize))).bytes (pos % blockSize) else 0 := by
    intro pos hpos
    rw [← hpos] at hmaps ⊢
    exact byteAt_of_maps hexts hmaps
  unfold blockToPatch at h
  split_ifs at h with hskip
  · obtain ⟨rfl, rfl⟩ := Call.pure_eq_ok h
    refine ⟨rfl, Works.refl _ _, fun pos hpos hout => ?_⟩
    rcases hskip with hun | ⟨hstart, hlen⟩
    · rw [hbyte pos hpos, if_neg ((unwritten_iff (hexts.of_mem hmem).1).mp hun)]
      rfl
    · simp only [blockSize] at hpos hstart hlen
      omega
  · obtain ⟨rfl, hdev, hworks⟩ := works_readBlock env h
    refine ⟨hdev, hworks.mono ?_, fun pos hpos _ => ?_⟩
    · rintro b rfl
      exact ⟨_, _, hmaps⟩
    · have hzero : ext.flags = 0 := by
        by_contra hflags
        exact hskip (.inl ((unwritten_iff (hexts.of_mem hmem).1).mpr hflags))
      rw [hbyte pos hpos, if_pos hzero]

section Rounds

variable {changed : Bool} {ext : Extent} {abs : ℕ}

theorem patched_unwritten (hexts : Proper exts) (hseg : cur % blockSize + seg.length ≤ blockSize)
    (hlookup : lookupExtent exts (cur / blockSize) = some ext) (hun : ext.unwritten = true)
    (hworks : Works env s [] (Mapped exts) u)
    (hdev : u.dev = Function.update s.dev (ext.place (cur / blockSize))
      (.data (copyInto buf (cur - cur / blockSize * blockSize) seg)))
    (hbuf : ∀ pos, pos / blockSize = cur / blockSize → ¬(cur ≤ pos ∧ pos < cur + seg.length) →
      buf (pos % blockSize) = byteAt s.dev exts pos) :
    Patched env s exts cur seg u (splitUnwrittenAt exts ext (cur / blockSize)) true [] := by
  obtain ⟨hmem, hhas, hmaps⟩ := maps_of_lookup hexts.sorted hlookup
  have hflags := (hexts.of_mem hmem).1
  have hflag : ext.flags = extentFlagUnwritten :=
    hflags.resolve_left ((unwritten_iff hflags).mp hun)
  obtain ⟨hsorted, hsplit⟩ := splitUnwrittenAt_spec hexts.sorted hmem hhas hflag
  have hmaps' := (hsplit _ _ _).mpr (.inl ⟨rfl, rfl, rfl⟩)
  have hplace : ∀ k p f, Maps (splitUnwrittenAt exts ext (cur / blockSize)) k p f →
      (f = 0 ∨ f = extentFlagUnwritten) ∧ ∃ g, Maps exts k p g := by
    intro k p f hk
    rcases (hsplit k p f).mp hk with ⟨rfl, rfl, rfl⟩ | ⟨-, hk⟩
    · exact ⟨.inl rfl, _, hmaps⟩
    · exact ⟨hexts.flags k p f hk, f, hk⟩
  have hproper := hexts.of_places hsorted hplace
  refine ⟨⟨hworks, hproper, ?_⟩, ?_, ?_, by simp⟩
  · intro b
    rw [or_iff_left List.not_mem_nil]
    constructor
    · rintro ⟨k, f, hk⟩
      obtain ⟨-, g, hg⟩ := hplace k b f hk
      exact ⟨k, g, hg⟩
    · rintro ⟨k, f, hk⟩
      by_cases heq : k = cur / blockSize
      · subst heq
        obtain ⟨rfl, -⟩ := Prod.mk.inj (hexts.sorted.unique hk hmaps)
        exact ⟨_, _, hmaps'⟩
      · exact ⟨k, f, (hsplit k b f).mpr (.inr ⟨heq, hk⟩)⟩
  · rw [hdev]
    refine byteAt_segment hexts hproper hmaps' (fun m q g hm => ?_) hseg hbuf
    rw [hsplit]
    exact ⟨fun hk => hk.elim (fun hk => absurd hk.1 hm) And.right, fun hk => .inr ⟨hm, hk⟩⟩
  · intro k p f hk
    obtain ⟨-, g, hg⟩ := hplace k p f hk
    exact .inr ⟨p, g, hg⟩

theorem patched_hole (hexts : Proper exts) (hfree : ∀ b, Mapped exts b → ¬Free env s b)
    (hseg : cur % blockSize + seg.length ≤ blockSize) (hne : 0 < seg.length)
    (hlookup : lookupExtent exts (cur / blockSize) = none)
    (hworks : Works env s [abs] (Mapped exts) u)
    (hdev : u.dev = Function.update s.dev abs
      (.data (copyInto zeroBlock (cur - cur / blockSize * blockSize) seg))) :
    Patched env s exts cur seg u (insertExtentSorted exts ⟨cur / blockSize, abs, 1, 0⟩) true
      [abs] := by
  have hgap : blockMap.Gap exts (cur / blockSize) := hexts.sorted.locate_eq_none.mp hlookup
  have hsingle : ∀ k p f, Maps [⟨cur / blockSize, abs, 1, 0⟩] k p f ↔
      k = cur / blockSize ∧ p = abs ∧ f = 0 := by
    intro k p f
    rw [maps_single]
    simp only [Extent.stop, Extent.place]
    omega
  have hzero : abs ≠ 0 := ne_zero_of_free (hworks.free abs (List.mem_singleton.mpr rfl))
  obtain ⟨hgrows, hinsert⟩ := grows_insertAll [⟨cur / blockSize, abs, 1, 0⟩] hworks hexts
    hfree (proper_single Nat.one_pos (.inl rfl) hzero) (by simp [Mapped, hsingle]) (by
      intro e he k hlo hhi
      obtain rfl := List.mem_singleton.mp he
      simp only [Extent.stop] at hlo hhi
      obtain rfl : k = cur / blockSize := by omega
      exact hgap)
  have hmaps' := (hinsert _ _ _).mpr (.inr ((hsingle _ _ _).mpr ⟨rfl, rfl, rfl⟩))
  refine ⟨hgrows, ?_, ?_, by simp⟩
  · rw [hdev]
    refine byteAt_segment hexts hgrows.proper hmaps' (fun m q g hm => ?_) hseg fun pos hpos _ => ?_
    · refine (hinsert m q g).trans (or_iff_left fun hk => ?_)
      exact hm ((hsingle m q g).mp hk).1
    · refine (byteAt_of_gap hexts ?_).symm
      rintro q g ⟨e, he, hk, -⟩
      exact hgap e he (hpos ▸ hk)
  · intro k p f hk
    rcases (hinsert k p f).mp hk with hk | hk
    · exact .inr ⟨p, f, hk⟩
    · obtain ⟨rfl, -, -⟩ := (hsingle k p f).mp hk
      left
      simp only [blockSize]
      omega

theorem writeSegment_spec (hexts : Proper exts) (hfree : ∀ b, Mapped exts b → ¬Free env s b)
    (hseg : cur % blockSize + seg.length ≤ blockSize) (hne : 0 < seg.length)
    (h : writeSegment env exts (cur / blockSize) (cur - cur / blockSize * blockSize) seg s =
      (.ok (exts', changed), u)) :
    ∃ new, Patched env s exts cur seg u exts' changed new := by
  unfold writeSegment at h
  cases hlookup : lookupExtent exts (cur / blockSize) with
  | some ext =>
    rw [hlookup] at h
    obtain ⟨hmem, -, hmaps⟩ := maps_of_lookup hexts.sorted hlookup
    obtain ⟨buf, v, hread, h⟩ := Call.bind_eq_ok h
    obtain ⟨⟨⟩, w, hwrite, h⟩ := Call.bind_eq_ok h
    obtain ⟨hdev, hworks, hbuf⟩ := blockToPatch_spec env hexts hlookup hread
    obtain ⟨hdev', hworks'⟩ := works_writeCell env hwrite
    have hboth : Works env s [] (Mapped exts) w := by
      refine hworks.trans (hworks'.mono ?_)
      rintro b rfl
      exact ⟨_, _, hmaps⟩
    rw [hdev] at hdev'
    refine ⟨[], ?_⟩
    split_ifs at h with hun
    · obtain ⟨hres, rfl⟩ := Call.pure_eq_ok h
      obtain ⟨rfl, rfl⟩ := Prod.mk.inj hres
      exact patched_unwritten hexts hseg hlookup hun hboth hdev' hbuf
    · obtain ⟨hres, rfl⟩ := Call.pure_eq_ok h
      obtain ⟨rfl, rfl⟩ := Prod.mk.inj hres
      have hzero : ext.flags = 0 := by
        by_contra hne
        exact hun ((unwritten_iff (hexts.of_mem hmem).1).mpr hne)
      rw [hzero] at hmaps
      refine ⟨⟨hboth, hexts, fun b => (or_iff_left List.not_mem_nil).symm⟩, ?_, ?_, fun _ => rfl⟩
      · rw [hdev']
        exact byteAt_segment hexts hexts hmaps (fun _ _ _ _ => Iff.rfl) hseg hbuf
      · exact fun k p f hk => .inr ⟨p, f, hk⟩
  | none =>
    rw [hlookup] at h
    obtain ⟨abs, v, halloc, h⟩ := Call.bind_eq_ok h
    obtain ⟨⟨⟩, w, hwrite, h⟩ := Call.bind_eq_ok h
    obtain ⟨hres, rfl⟩ := Call.pure_eq_ok h
    obtain ⟨rfl, rfl⟩ := Prod.mk.inj hres
    obtain ⟨hdev, hnew⟩ := works_allocBlock (W := fun b => Mapped exts b ∨ b ∈ [abs]) halloc
    obtain ⟨hdev', hworks'⟩ := works_writeCell env hwrite
    have hworks := hnew.trans (hworks'.mono fun b hb => .inr (List.mem_singleton.mpr hb))
    rw [List.append_nil] at hworks
    rw [hdev] at hdev'
    exact ⟨[abs], patched_hole hexts hfree hseg hne hlookup hworks.absorb hdev'⟩

end Rounds

theorem segmentEnd_eq (cur : ℕ) (h : endOff < 2 ^ 63) :
    segmentEnd cur endOff = min endOff (cur / blockSize * blockSize + blockSize) := by
  simp only [segmentEnd]
  split_ifs with hwrap
  · rfl
  · rw [min_self, min_eq_left]
    omega

/-- The loop lays the data over the file. -/
theorem writeBlocks_spec {fuel : ℕ} {rebuild rebuild' : Bool} (hexts : Proper exts)
    (hfree : ∀ b, Mapped exts b → ¬Free env s b) (hend : cur + data.length = endOff)
    (hmax : endOff < 2 ^ 63) (hfuel : data.length ≤ fuel)
    (h : writeBlocks env endOff fuel cur data exts rebuild s = (.ok (exts', rebuild'), u)) :
    (∃ new, Patched env s exts cur data u exts' rebuild' new) ∧
      (rebuild = true → rebuild' = true) := by
  induction fuel generalizing cur data exts rebuild s with
  | zero =>
    obtain ⟨hres, rfl⟩ := Call.pure_eq_ok h
    obtain ⟨rfl, rfl⟩ := Prod.mk.inj hres
    obtain rfl := List.length_eq_zero_iff.mp (Nat.le_zero.mp hfuel)
    exact ⟨⟨[], Grows.refl s hexts, (copyInto_nil _ _).symm, fun k p f hk => .inr ⟨p, f, hk⟩,
      fun _ => rfl⟩, id⟩
  | succ fuel ih =>
    rw [writeBlocks] at h
    by_cases hdone : endOff ≤ cur
    · rw [if_pos hdone] at h
      obtain ⟨hres, rfl⟩ := Call.pure_eq_ok h
      obtain ⟨rfl, rfl⟩ := Prod.mk.inj hres
      obtain rfl := List.length_eq_zero_iff.mp (by omega : data.length = 0)
      exact ⟨⟨[], Grows.refl s hexts, (copyInto_nil _ _).symm, fun k p f hk => .inr ⟨p, f, hk⟩,
        fun _ => rfl⟩, id⟩
    rw [if_neg hdone] at h
    obtain ⟨⟨exts₁, changed⟩, v, hsegment, hrest⟩ := Call.bind_eq_ok h
    have hn := segmentEnd_eq cur hmax
    set n := segmentEnd cur endOff - cur with hndef
    have hbounds : 0 < n ∧ n ≤ data.length ∧ cur % blockSize + n ≤ blockSize := by
      simp only [blockSize] at hn ⊢
      omega
    have hlen : (data.take n).length = n := by
      rw [List.length_take, Nat.min_eq_left hbounds.2.1]
    obtain ⟨new, hpatch⟩ := writeSegment_spec hexts hfree (by rw [hlen]; exact hbounds.2.2)
      (by rw [hlen]; exact hbounds.1) hsegment
    obtain ⟨⟨more, hpatch'⟩, hflag⟩ := ih hpatch.grows.proper
      (fun b hb => hpatch.grows.not_free hfree hb) (by rw [List.length_drop]; omega)
      (by rw [List.length_drop]; omega) hrest
    refine ⟨⟨new ++ more, hpatch.grows.trans hpatch'.grows, ?_, ?_, ?_⟩, fun hr => hflag (by simp [hr])⟩
    · rw [hpatch'.bytes, hpatch.bytes, copyInto_copyInto _ _ _ _ hbounds.2.1]
    · intro k p f hk
      have hdrop := List.length_drop (i := n) (l := data)
      rcases hpatch'.inside k p f hk with hk | ⟨q, g, hk⟩
      · exact .inl (by omega)
      · rcases hpatch.inside k q g hk with hk | hk
        · exact .inl (by omega)
        · exact .inr hk
    · intro hsame
      have hnot : changed = false := by
        by_contra hchanged
        rw [hflag (by simp [hchanged])] at hsame
        exact Bool.noConfusion hsame
      rw [hpatch'.same hsame, hpatch.same hnot]

/-! ### Whole writes -/

theorem int64_of_le {n : ℕ} (h : n ≤ maxFileSize) : int64 n = n := by
  apply bmod_of_lt
  have hmax : maxFileSize = 2 ^ 63 - 1 := rfl
  omega

theorem grownTo_eq (env : Env) {m n : ℕ} (h : i.fileSize = m) : grownTo env i m n =
    { i with fileSize := max m n, mtime := env.now, ctime := env.now } := by
  subst h
  unfold grownTo
  split_ifs with hlt
  · rw [max_eq_right (by omega)]
    rfl
  · rw [max_eq_left (by omega)]
    rfl

/-- The tail of the last block is zero already. -/
theorem Backed.zeroEofTail {r : Unit} (h : Backed env s i exts nodes)
    (hcall : Call.when ((i.fileSize : ℤ) < off ∧ 0 < (i.fileSize : ℤ) ∧ (i.fileSize : ℤ) % blockSize ≠ 0)
      (zeroEofTail exts (i.fileSize : ℤ).toNat) s = (.ok r, u)) :
    Grows env s exts u exts [] ∧ byteAt u.dev exts = byteAt s.dev exts := by
  unfold Call.when at hcall
  split_ifs at hcall with hcond
  · rw [Int.toNat_natCast] at hcall
    have hzeroes : ZeroesTail env exts i.fileSize s u := zeroEofTail_spec h.proper (by omega) hcall
    obtain ⟨hworks, hbytes⟩ := hzeroes
    refine ⟨⟨hworks, h.proper, fun _ => (or_iff_left List.not_mem_nil).symm⟩, ?_⟩
    funext pos
    rw [hbytes]
    split_ifs with hin
    · exact (h.tail pos hin.1).symm
    · rfl
  · obtain ⟨-, rfl⟩ := Call.pure_eq_ok hcall
    exact ⟨Grows.refl _ h.proper, rfl⟩

/-- The first phase of a write: the data is in the blocks and the new extents in the index. -/
theorem writeExtents_spec {runs : List BlockRun} {v : FS} (hbacked : Backed env s i exts nodes)
    (hsize : i.fileSize ≤ maxFileSize) (hend : off + data.length ≤ maxFileSize)
    (h : writeExtents env i data off i.fileSize s = (.ok (i', runs, exts'), v)) :
    ∃ u new more nodes', Grows env s exts u exts' new ∧
      byteAt u.dev exts' = copyInto (byteAt s.dev exts) off data ∧
      (∀ k p f, Maps exts' k p f →
        k < blocksFor (max i.fileSize (off + data.length)) + env.totalBlocks) ∧
      Rebuilt env u i nodes exts' i' runs more nodes' v := by
  obtain ⟨tree, hcollect, rfl, hnodes, hsound⟩ := hbacked.collect
  have hmax : maxFileSize = 2 ^ 63 - 1 := rfl
  obtain ⟨tree', u₀, hcall, h⟩ := Call.bind_eq_ok h
  obtain ⟨rfl, rfl⟩ := collect_eq_ok hcollect hcall
  obtain ⟨⟨⟩, u₁, htail, h⟩ := Call.bind_eq_ok h
  obtain ⟨hgrows, hbytes⟩ := hbacked.zeroEofTail htail
  obtain ⟨⟨exts₁, rebuild⟩, u, hloop, h⟩ := Call.bind_eq_ok h
  have hfree : ∀ b, Mapped tree.exts b → ¬Free env u₁ b := fun b hb =>
    hgrows.works.not_free (hbacked.own b (.inr hb)).taken
  obtain ⟨⟨new, hpatch⟩, -⟩ := writeBlocks_spec hbacked.proper hfree rfl (by omega) le_rfl hloop
  have hall : Grows env s tree.exts u exts₁ new := hgrows.trans hpatch.grows
  have hbound : ∀ k p f, Maps exts₁ k p f →
      k < blocksFor (max i.fileSize (off + data.length)) + env.totalBlocks := by
    intro k p f hk
    rcases hpatch.inside k p f hk with hk | ⟨q, g, hk⟩
    · simp only [blocksFor, blockSize] at hk ⊢
      omega
    · have := hbacked.bound k q g hk
      simp only [blocksFor, blockSize] at this ⊢
      omega
  have hover := hpatch.bytes
  rw [hbytes] at hover
  dsimp only at h
  cases rebuild with
  | false =>
    obtain ⟨hres, rfl⟩ := Call.pure_eq_ok h
    obtain ⟨rfl, hpair⟩ := Prod.mk.inj hres
    obtain ⟨rfl, rfl⟩ := Prod.mk.inj hpair
    have hsame := hpatch.same rfl
    rw [hsame] at hall hover hbound ⊢
    exact ⟨u, new, [], nodes, hall, hover, hbound, hbacked.rebuilt hall.works⟩
  | true =>
    rw [if_pos rfl] at h
    obtain ⟨⟨i₁, runs₁⟩, w, hrebuild, h⟩ := Call.bind_eq_ok h
    obtain ⟨hres, rfl⟩ := Call.pure_eq_ok h
    obtain ⟨rfl, hpair⟩ := Prod.mk.inj hres
    obtain ⟨rfl, rfl⟩ := Prod.mk.inj hpair
    obtain ⟨hsound', hown⟩ := hall.works.sound hbacked hnodes hsound rfl
    obtain ⟨more, nodes', hrebuilt⟩ := rebuildExtentIndexWrite_spec hall.proper.sorted.offsets
      (hall.proper.offsets (max_le hsize hend) hbound) hsound' hown hrebuild
    exact ⟨u, new, more, nodes', hall, hover, hbound, hrebuilt.congr_old hnodes⟩

theorem writeExtentData_spec {n : ℕ} (hroom : Room env s) (hbacked : Backed env s i exts nodes)
    (hsize : i.fileSize ≤ maxFileSize) (hend : off + data.length ≤ maxFileSize)
    (h : writeExtentData env i data off i.fileSize s = (.ok n, t)) :
    ∃ i' exts' nodes', Effect env s i t i' ∧ Backed env t i' exts' nodes' ∧
      (∀ b, Mapped exts b → Mapped exts' b) ∧
      i'.fileSize = max i.fileSize (off + data.length) ∧
      byteAt t.dev exts' = copyInto (byteAt s.dev exts) off data ∧ n = data.length ∧
      t.unwrittenRes = Function.update s.unwrittenRes i.inodeNumber (countUnwrittenBlocks exts') := by
  obtain ⟨⟨i₁, runs, exts'⟩, v, hphase, h⟩ := Call.bind_eq_ok h
  obtain ⟨u, new, more, nodes', hgrows, hbytes, hbound, hrebuilt⟩ :=
    writeExtents_spec hbacked hsize hend (orRollback_eq_ok hphase)
  dsimp only at h
  have hsame : i₁.fileSize = i.fileSize := by rw [hrebuilt.inode.rest]
  rw [grownTo_eq env hsame] at h
  obtain ⟨⟨⟩, v₁, hreserve, h⟩ := Call.bind_eq_ok h
  obtain ⟨⟨⟩, v₂, hcommit, h⟩ := Call.bind_eq_ok h
  obtain ⟨rfl, rfl⟩ := Call.pure_eq_ok h
  have hrebuilt' := hrebuilt.resize (max i.fileSize (off + data.length)) env.now env.now
  have hstaged := hgrows.staged (j := { i with
    fileSize := max i.fileSize (off + data.length), mtime := env.now, ctime := env.now })
    (i := i) rfl rfl rfl hbound ?_
  swap
  · intro pos hpos
    have hpos : max i.fileSize (off + data.length) ≤ pos := hpos
    rw [hbytes, copyInto, if_neg (by omega)]
    exact hbacked.tail pos (by omega)
  have hfreed := hgrows.freed
  obtain ⟨hcommits, hres⟩ :=
    commits_store (Staged.runs_fit hbacked hrebuilt' hfreed) hreserve hcommit
  obtain ⟨heffect, hbacked', hsee⟩ := hstaged.effect hroom hbacked hrebuilt' hfreed hcommits
  refine ⟨_, exts', nodes', heffect, hbacked', ?_, rfl, hsee.trans hbytes, rfl, ?_⟩
  · exact fun b hb => (hgrows.blocks b).mpr (.inl hb)
  · rw [hres, hrebuilt.works.reserved, hgrows.works.reserved]
    have hnumber : i₁.inodeNumber = i.inodeNumber := by rw [hrebuilt.inode.rest]
    rw [← hnumber]

theorem writeInlineData_spec (env : Env) (hsmall : Small s i)
    (hfit : off + data.length ≤ inlineDataMax) :
    Inlined (writeInlineData env i data off) ∧
      inlineData (writeInlineData env i data off) = copyInto (inlineData i) off data ∧
      (writeInlineData env i data off).fileSize = max i.fileSize (off + data.length) ∧
      (writeInlineData env i data off).inodeNumber = i.inodeNumber ∧
      (writeInlineData env i data off).filemode = i.filemode ∧
      (Neat i → Neat (writeInlineData env i data off)) := by
  have hshort : i.fileSize ≤ inlineDataMax := hsmall.short
  have hmax : inlineDataMax ≤ maxFileSize := by decide
  have hgap : clearRange (inlineData i) i.fileSize off = inlineData i := by
    funext j
    rw [clearRange]
    split_ifs with hin
    · exact (hsmall.tail j hin.1).symm
    · rfl
  have hwrite : writeInlineData env i data off =
      { i with
        flags := i.flags ||| inodeFlagInlineData
        region := (setInlineData i (copyInto (inlineData i) off data)).region
        fileSize := max i.fileSize (off + data.length)
        mtime := env.now
        ctime := env.now } := by
    rw [writeInlineData, hgap, int64_of_le (hshort.trans hmax)]
    exact grownTo_eq env rfl
  have hbytes : inlineData (writeInlineData env i data off) = copyInto (inlineData i) off data := by
    rw [hwrite]
    funext j
    refine (inlineData_setInlineData i _ j).trans ?_
    split_ifs with hj
    · rfl
    · rw [copyInto, if_neg (by omega)]
      exact (hsmall.tail j (by omega)).symm
  refine ⟨⟨?_, ?_, ?_⟩, hbytes, ?_, ?_, ?_, fun hneat _ => ?_⟩
  rotate_right
  · obtain ⟨hinline, htotal, hidx⟩ := hsmall.bare hneat
    rw [hwrite]
    refine ⟨hinline, htotal, ?_⟩
    rw [isIndexed_iff] at hidx ⊢
    rw [Nat.testBit_or, show inodeFlagInlineData.testBit 2 = false from rfl, Bool.or_false]
    exact hidx
  · rw [isInlineData_iff, hwrite]
    rw [Nat.testBit_or, show inodeFlagInlineData.testBit 3 = true from rfl, Bool.or_true]
  · rw [hwrite]
    exact max_le hshort hfit
  · rw [hbytes, hwrite]
    intro j hj
    have hj : max i.fileSize (off + data.length) ≤ j := hj
    rw [copyInto, if_neg (by omega)]
    exact hsmall.tail j (by omega)
  all_goals rw [hwrite]

/-- A file that a write treats as one with its bytes in the inode. -/
theorem FileOk.small (h : FileOk env s i)
    (hcond : isInlineData i ∨ int64 i.fileSize = 0 ∧ i.numExtentsTotal = 0) : Small s i := by
  rcases h.form with hin | ⟨exts, nodes, hbacked⟩
  · exact hin.small
  · obtain ⟨hsize, htotal⟩ := hcond.resolve_left hbacked.data
    rw [int64_of_le h.size] at hsize
    rw [hbacked.total, List.length_eq_zero_iff] at htotal
    subst htotal
    exact hbacked.small (by omega)

section Whole

variable {ino n : ℕ}

theorem Opened.written {v : FS} (h : Opened env s ino i u) (hlifted : Lifted env u i v j exts nodes)
    (hend : off + data.length ≤ maxFileSize)
    (hcall : writeExtentData env j data off j.fileSize v = (.ok n, t)) :
    Outcome env s ino (max i.fileSize (off + data.length)) (copyInto (content u i) off data) t ∧
      n = data.length := by
  have hold : j.fileSize ≤ maxFileSize := hlifted.size.trans_le h.fileOk.size
  obtain ⟨i', exts', nodes', heffect, hbacked', hkept, hsize', hbytes', rfl, -⟩ :=
    writeExtentData_spec hlifted.room hlifted.backed hold hend hcall
  have hout := h.outcome_backed (hlifted.effect t i' heffect fun b hb =>
    hbacked'.owned_iff.mpr (.inr (hkept b hb))) hbacked' (hsize'.trans_le (max_le hold hend))
  rw [hsize', hlifted.size, hbytes', hlifted.bytes] at hout
  exact ⟨hout, rfl⟩

theorem writeOpened_spec (h : Opened env s ino i u) (hend : off + data.length ≤ maxFileSize)
    (hcall : writeOpened env i data off u = (.ok n, t)) :
    Outcome env s ino (max (s.inodes ino).fileSize (off + data.length))
      (copyInto (content s (s.inodes ino)) off data) t ∧ n = data.length := by
  have hfile := h.fileOk
  have hcast := int64_of_le hfile.size
  rw [← h.fileSize, ← h.content_eq]
  unfold writeOpened at hcall
  split_ifs at hcall with hcond hfit
  · have hsmall := hfile.small hcond
    obtain ⟨⟨⟩, u', hcheck, hcall⟩ := Call.bind_eq_ok hcall
    obtain ⟨⟨⟩, v, hcommit, hcall⟩ := Call.bind_eq_ok hcall
    obtain ⟨rfl, rfl⟩ := Call.pure_eq_ok hcall
    rw [hcast, Call.when, if_neg (by omega)] at hcheck
    obtain ⟨-, rfl⟩ := Call.pure_eq_ok hcheck
    obtain ⟨hin, hbytes, hsize, hnumber, hmode, hneat⟩ := writeInlineData_spec env hsmall hfit
    have hcommits : Commits env u _ (fun _ => False) v := commits_writeInodeOwned hcommit
    have heffect := hcommits.effect (Works.refl u (Owned u i))
      (fun b => iff_of_false hin.not_owned (hsmall.alone b)) hnumber hmode
    have hout := h.outcome heffect ⟨hin.short.trans (by decide), .inl hin⟩ hneat
    rw [hsize, hin.content_eq, hbytes, ← hsmall.bytes] at hout
    exact ⟨hout, rfl⟩
  · have hsmall := hfile.small hcond
    obtain ⟨j, v, hpromote, hcall⟩ := Call.bind_eq_ok hcall
    obtain ⟨exts, hlifted⟩ := hsmall.lifted h.ok.room (orRollback_eq_ok hpromote)
    rw [hcast, ← hlifted.size] at hcall
    exact h.written hlifted hend hcall
  · rcases hfile.form with hin | ⟨exts, nodes, hbacked⟩
    · exact absurd (.inl hin.flag) hcond
    · rw [hcast] at hcall
      exact h.written (hbacked.lifted h.ok.room) hend hcall

theorem writeFileData_spec (hok : Ok env s) (hfile : isFile (s.inodes ino)) (hdata : data ≠ [])
    (h : writeFileData env ino data off s = (.ok n, t)) :
    Outcome env s ino (max (s.inodes ino).fileSize (off + data.length))
      (copyInto (content s (s.inodes ino)) off data) t ∧ n = data.length := by
  unfold writeFileData at h
  rw [if_neg hdata] at h
  obtain ⟨s₀, s₁, hread, h⟩ := Call.bind_eq_ok h
  cases hread
  obtain ⟨-, h⟩ := Call.checked h
  obtain ⟨-, h⟩ := Call.checked h
  obtain ⟨-, h⟩ := Call.checked h
  obtain ⟨-, h⟩ := Call.checked h
  obtain ⟨i, u, hprivs, h⟩ := Call.bind_eq_ok h
  obtain ⟨hend, h⟩ := Call.checked h
  obtain ⟨⟨⟩, v, hreset, h⟩ := Call.bind_eq_ok h
  have hopened := (removePrivs_spec hok hfile hprivs).resetAllocated hreset
  exact writeOpened_spec hopened (by omega) h

/-- 300 bytes into an empty file, and one byte at the last position that a file has. -/
def writeFar : Call FS ℕ := do
  let _ ← writeFileData plainEnv 1 (List.replicate 300 7) 0
  writeFileData plainEnv 1 [9] (2 ^ 63 - 2)

end Whole

end Briefs.File
