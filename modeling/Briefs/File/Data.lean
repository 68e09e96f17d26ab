import Briefs.File.Index

/-!
# The bytes of a file

`readFileData` and what the operations share: the stripping of privileges, the promotion
of inline data and the zeroing of parts of a block. A file is well formed if its bytes
stand in the inode or in blocks of its own that the extents lead to, with zeros past its
end.
-/

namespace Briefs.File

open Lib Alloc Btree
open Bridge (BlockRun RunAccum)
open Dir (inodeFlagIndexed)

def maxFileSize : ℕ := 2 ^ 63 - 1

/-! ### Reading -/

/-- Where an extent starts, as a 64-bit number with a sign. -/
def extStart (e : Extent) : ℤ := Int.bmod (e.offset * blockSize) (2 ^ 64)

/-- Where an extent ends; a sum that wraps stands for the largest file. -/
def extEnd (e : Extent) : ℤ :=
  let sum := Int.bmod (extStart e + e.len * blockSize) (2 ^ 64)
  if sum < extStart e then maxFileSize else sum

/-- One round of the loop of `readFileData`: what an extent adds to the bytes from `off` up
to `endOff`. -/
def readExtent (dev : ℕ → Cell) (off endOff : ℕ) (buf : ℕ → UInt8) (e : Extent) : ℕ → UInt8 :=
  if extEnd e ≤ off ∨ endOff ≤ extStart e then buf
  else if e.phys = 0 ∨ e.unwritten then buf
  else
    let readStart := max (off : ℤ) (extStart e)
    let readEnd := min (endOff : ℤ) (extEnd e)
    let inExt := (readStart - extStart e).toNat
    fun pos =>
      if readStart ≤ pos ∧ pos < readEnd then
        let skip := inExt % blockSize + (pos - readStart).toNat
        (dev (e.phys + inExt / blockSize + skip / blockSize)).bytes (skip % blockSize)
      else buf pos

/-- `readFileData`: up to `n` bytes from `off` on. -/
def readFileData (s : FS) (ino off n : ℕ) : Except Err Bytes :=
  let i := s.inodes ino
  let size : ℤ := Int.bmod i.fileSize (2 ^ 64)
  if size ≤ off then .ok []
  else
    let endOff := min (if off + n < 2 ^ 63 then off + n else maxFileSize) size.toNat
    if isInlineData i then
      if inlineDataMax < endOff then .error .crash
      else .ok ((List.range' off (endOff - off)).map (inlineData i))
    else
      match collectExtentTree s.dev i with
      | .error e => .error e
      | .ok tree =>
        .ok ((List.range' off (endOff - off)).map
          (tree.exts.foldl (readExtent s.dev off endOff) zeroBlock))

/-! ### Parts of the operations -/

def isFile (i : Inode) : Prop := i.filemode &&& modeTypeMask = modeFile

instance (i : Inode) : Decidable (isFile i) := inferInstanceAs (Decidable (_ = _))

section Calls

variable (env : Env)

/-- The mode bits that a write by this caller takes away. -/
def privBits (i : Inode) : ℕ :=
  (if i.filemode &&& 0o4000 ≠ 0 then 0o4000 else 0) |||
    if i.filemode &&& 0o2000 ≠ 0 ∧ (i.filemode &&& 0o10 ≠ 0 ∨ !env.inGroup i.gid) then 0o2000 else 0

def stripMode (i : Inode) : Inode :=
  if env.hasFSetID then i else { i with filemode := bitClear i.filemode (privBits env i) }

def removePrivs (i : Inode) : Call FS Inode :=
  if ¬isFile i then pure i
  else if (stripMode env i).xattrOffset ≠ 0 then env.clearCapability (stripMode env i)
  else pure (stripMode env i)

def emptyRegion (i : Inode) : Inode :=
  setInlineData { i with
    flags := bitClear (bitClear i.flags inodeFlagInlineData) inodeFlagIndexed } zeroBlock

def promoteInlineData (i : Inode) : Call FS Inode :=
  if i.fileSize = 0 then
    pure { emptyRegion i with numExtentsInline := 0, numExtentsTotal := 0, extentInlineBase := 0 }
  else do
    let abs ← allocBlock env false
    -- the slice of the region ends at its 256 bytes
    Call.when (inlineDataMax < i.fileSize) (Call.fail .crash)
    writeBlock abs (copyInto zeroBlock 0 ((List.range i.fileSize).map (inlineData i)))
    pure { setInlineExtents (emptyRegion i) [⟨0, abs, 1, 0⟩] with
      numExtentsInline := 1, numExtentsTotal := 1, extentInlineBase := 0 }

end Calls

def zeroBlockRange (abs first last : ℕ) : Call FS Unit :=
  if last ≤ first then pure ()
  else do
    let buf ← readBlock abs
    writeBlock abs (clearRange buf first last)

def zeroBlockTail (abs first : ℕ) : Call FS Unit := zeroBlockRange abs first blockSize

def zeroEofTail (exts : List Extent) (oldSize : ℕ) : Call FS Unit :=
  match lookupExtent exts ((oldSize - 1) / blockSize) with
  | none => pure ()
  | some e => zeroBlockTail (e.place ((oldSize - 1) / blockSize)) (oldSize % blockSize)

def zeroEofTailBlock (exts : List Extent) (size : ℕ) : Call FS Unit :=
  match lookupExtent exts ((size - 1) / blockSize) with
  | none => pure ()
  | some e =>
    if e.phys = 0 ∨ e.unwritten then pure ()
    else zeroBlockTail (e.place ((size - 1) / blockSize)) (size % blockSize)

/-! ### The map of a file -/

/-- Extents that lead every block of the file to a block of its own, written or not. -/
structure Proper (exts : List Extent) : Prop where
  sorted : Sorted exts
  flags : ∀ k p f, Maps exts k p f → f = 0 ∨ f = extentFlagUnwritten
  inj : ∀ k p f k' f', Maps exts k p f → Maps exts k' p f' → k = k'
  nonzero : ∀ k p f, Maps exts k p f → p ≠ 0

/-- The device blocks that a list leads to. -/
def Mapped (exts : List Extent) (b : ℕ) : Prop := ∃ k f, Maps exts k b f

/-- The byte at a position of an extent-backed file. -/
def byteAt (dev : ℕ → Cell) (exts : List Extent) (pos : ℕ) : UInt8 :=
  match lookupExtent exts (pos / blockSize) with
  | some e =>
    if e.phys = 0 ∨ e.unwritten then 0
    else (dev (e.place (pos / blockSize))).bytes (pos % blockSize)
  | none => 0

section Bytes

variable {env : Env} {s t u : FS} {i i' : Inode} {exts exts' : List Extent} {dev dev' : ℕ → Cell}
  {k p f pos pos' : ℕ} {e : Extent}

theorem Proper.of_mem (h : Proper exts) (he : e ∈ exts) :
    (e.flags = 0 ∨ e.flags = extentFlagUnwritten) ∧ e.phys ≠ 0 := by
  have hlt : e.offset < e.stop := h.sorted.nonempty e he
  have hmaps : Maps exts e.offset e.phys e.flags :=
    ⟨e, he, ⟨le_rfl, hlt⟩, val_eq_iff.mpr ⟨by simp [Extent.place], rfl⟩⟩
  exact ⟨h.flags _ _ _ hmaps, h.nonzero _ _ _ hmaps⟩

theorem proper_nil : Proper [] :=
  ⟨Pieces.ordered_nil, fun _ _ _ h => absurd h Pieces.at_nil,
    fun _ _ _ _ _ h => absurd h Pieces.at_nil, fun _ _ _ h => absurd h Pieces.at_nil⟩

theorem proper_single (hlen : 0 < e.len) (hflags : e.flags = 0 ∨ e.flags = extentFlagUnwritten)
    (hphys : e.phys ≠ 0) : Proper [e] := by
  refine ⟨sorted_single hlen, ?_, ?_, ?_⟩
  · intro k p f hmaps
    obtain ⟨-, -, rfl⟩ := maps_single.mp hmaps
    exact hflags
  · intro k p f k' f' hmaps hmaps'
    obtain ⟨hk, hp, -⟩ := maps_single.mp hmaps
    obtain ⟨hk', hp', -⟩ := maps_single.mp hmaps'
    simp only [Extent.place] at hp hp'
    omega
  · intro k p f hmaps
    obtain ⟨-, hp, -⟩ := maps_single.mp hmaps
    simp only [Extent.place] at hp
    omega

/-- Blocks of the file may go and may change their flags as long as the others stay put. -/
theorem Proper.of_places (h : Proper exts) (hs : Sorted exts')
    (hplace : ∀ k p f, Maps exts' k p f → (f = 0 ∨ f = extentFlagUnwritten) ∧ ∃ g, Maps exts k p g) :
    Proper exts' := by
  refine ⟨hs, fun k p f hmaps => (hplace k p f hmaps).1, ?_, ?_⟩
  · intro k p f k' f' hmaps hmaps'
    obtain ⟨-, g, hg⟩ := hplace k p f hmaps
    obtain ⟨-, g', hg'⟩ := hplace k' p f' hmaps'
    exact h.inj k p g k' g' hg hg'
  · intro k p f hmaps
    obtain ⟨-, g, hg⟩ := hplace k p f hmaps
    exact h.nonzero k p g hg

theorem Proper.union {raw : List Extent} (h : Proper exts) (hraw : Proper raw) (hs : Sorted exts')
    (hmaps : ∀ k p f, Maps exts' k p f ↔ Maps exts k p f ∨ Maps raw k p f)
    (hapart : ∀ k p f k' f', Maps exts k p f → ¬Maps raw k' p f') : Proper exts' := by
  refine ⟨hs, ?_, ?_, ?_⟩
  · intro k p f hk
    rcases (hmaps k p f).mp hk with hk | hk
    · exact h.flags k p f hk
    · exact hraw.flags k p f hk
  · intro k p f k' f' hk hk'
    rcases (hmaps k p f).mp hk with hk | hk <;> rcases (hmaps k' p f').mp hk' with hk' | hk'
    · exact h.inj k p f k' f' hk hk'
    · exact absurd hk' (hapart k p f k' f' hk)
    · exact absurd hk (hapart k' p f' k f hk')
    · exact hraw.inj k p f k' f' hk hk'
  · intro k p f hk
    rcases (hmaps k p f).mp hk with hk | hk
    · exact h.nonzero k p f hk
    · exact hraw.nonzero k p f hk

theorem Proper.append {l r : List Extent} (h : Proper l) (h' : Proper r)
    (hlt : ∀ k p f k' p' f', Maps l k p f → Maps r k' p' f' → k < k')
    (hapart : ∀ b, Mapped l b → ¬Mapped r b) : Proper (l ++ r) := by
  refine h.union h' (Pieces.ordered_append.mpr ⟨h.sorted, h'.sorted, fun x hx y hy => ?_⟩)
    (fun _ _ _ => maps_append) fun k p f k' f' hk hk' => hapart p ⟨k, f, hk⟩ ⟨k', f', hk'⟩
  have hxlt : x.offset < x.stop := h.sorted.nonempty x hx
  have hylt : y.offset < y.stop := h'.sorted.nonempty y hy
  have hlast := maps_of_mem (k := x.stop - 1) hx (by omega)
  have hfirst := maps_of_mem (k := y.offset) hy (by omega)
  have := hlt _ _ _ _ _ _ hlast hfirst
  change x.stop ≤ y.offset
  omega

theorem Proper.place {q g : ℕ} (h : Proper exts) (hp : Maps exts k p f) (hq : Maps exts k q g) :
    p = q := by
  obtain ⟨x, hx, hxk, hxv⟩ := hp
  obtain ⟨y, hy, hyk, hyv⟩ := hq
  obtain rfl := h.sorted.eq_of_has hx hy hxk hyk
  exact (Prod.mk.inj (hxv.symm.trans hyv)).1

theorem Proper.tail (h : Proper (e :: exts)) : Proper exts := by
  refine h.of_places (Pieces.ordered_cons.mp h.sorted).2.2 fun k p f hk => ?_
  have hk' : Maps (e :: exts) k p f := maps_cons.mpr (.inr hk)
  exact ⟨h.flags k p f hk', f, hk'⟩

theorem unwritten_iff (h : e.flags = 0 ∨ e.flags = extentFlagUnwritten) :
    e.unwritten = true ↔ e.flags ≠ 0 := by
  rcases h with h | h <;> simp [Extent.unwritten, h, extentFlagUnwritten]

theorem byteAt_of_maps (h : Proper exts) (hmaps : Maps exts (pos / blockSize) p f) :
    byteAt dev exts pos = if f = 0 then (dev p).bytes (pos % blockSize) else 0 := by
  obtain ⟨e, he, hk, hval⟩ := hmaps
  obtain ⟨rfl, rfl⟩ := val_eq_iff.mp hval
  obtain ⟨hflags, hphys⟩ := h.of_mem he
  have hlookup : lookupExtent exts (pos / blockSize) = some e := h.sorted.locate_eq_some.mpr ⟨he, hk⟩
  rw [byteAt, hlookup]
  by_cases hzero : e.flags = 0
  · have hwritten : ¬e.unwritten = true := by simp [unwritten_iff hflags, hzero]
    simp [hphys, hwritten, hzero]
  · simp [unwritten_iff hflags, hzero]

theorem byteAt_of_gap (h : Proper exts) (hgap : ∀ p f, ¬Maps exts (pos / blockSize) p f) :
    byteAt dev exts pos = 0 := by
  have hlookup : lookupExtent exts (pos / blockSize) = none := by
    apply h.sorted.locate_eq_none.mpr
    intro e he hk
    exact hgap _ _ ⟨e, he, hk, rfl⟩
  rw [byteAt, hlookup]

theorem maps_or_gap (exts : List Extent) (k : ℕ) :
    (∃ p f, Maps exts k p f) ∨ ∀ p f, ¬Maps exts k p f := by
  by_cases h : ∃ p f, Maps exts k p f
  · exact .inl h
  · exact .inr fun p f hmaps => h ⟨p, f, hmaps⟩

/-- Two lists that say the same about a block, over devices that agree on it. -/
theorem byteAt_congr (h : Proper exts) (h' : Proper exts') (hmod : pos' % blockSize = pos % blockSize)
    (hsame : ∀ p f, Maps exts' (pos' / blockSize) p f ↔ Maps exts (pos / blockSize) p f)
    (hdev : ∀ p, Maps exts (pos / blockSize) p 0 → (dev' p).bytes (pos % blockSize) =
      (dev p).bytes (pos % blockSize)) :
    byteAt dev' exts' pos' = byteAt dev exts pos := by
  rcases maps_or_gap exts (pos / blockSize) with ⟨p, f, hmaps⟩ | hgap
  · rw [byteAt_of_maps h hmaps, byteAt_of_maps h' ((hsame p f).mpr hmaps), hmod]
    split_ifs with hzero
    · subst hzero
      exact hdev p hmaps
    · rfl
  · rw [byteAt_of_gap h hgap, byteAt_of_gap h' fun p f hmaps => hgap p f ((hsame p f).mp hmaps)]

theorem byteAt_update (h : Proper exts) (hmaps : Maps exts k p f) (buf : Block) :
    byteAt (Function.update dev p (.data buf)) exts pos =
      if pos / blockSize = k then if f = 0 then buf (pos % blockSize) else 0
      else byteAt dev exts pos := by
  split_ifs with hk hzero
  · subst hk hzero
    rw [byteAt_of_maps h hmaps, if_pos rfl, Function.update_self]
    rfl
  · subst hk
    rw [byteAt_of_maps h hmaps, if_neg hzero]
  · refine byteAt_congr h h rfl (fun _ _ => Iff.rfl) ?_
    intro q hq
    rw [Function.update_of_ne]
    rintro rfl
    exact hk (h.inj _ _ _ _ _ hq hmaps)

end Bytes

/-! ### Well-formed files -/

/-- The number of blocks of a file of this size. -/
def blocksFor (size : ℕ) : ℕ := (size + blockSize - 1) / blockSize

/-- A block in use: in the data region, not free and not about to be. -/
structure InUse (env : Env) (s : FS) (b : ℕ) : Prop where
  region : env.dataRegionStart < b
  fits : b < 2 ^ 64
  taken : ¬Free env s b
  kept : ¬Pending env s b

/-- A file whose bytes stand in the inode. -/
structure Inlined (i : Inode) : Prop where
  flag : isInlineData i
  short : i.fileSize ≤ inlineDataMax
  tail : ∀ j, i.fileSize ≤ j → inlineData i j = 0

/-- Nothing but bytes: no extents are counted and there is no index. -/
def Bare (i : Inode) : Prop :=
  i.numExtentsInline = 0 ∧ i.numExtentsTotal = 0 ∧ ¬isIndexed i

/-- A file with its bytes in the inode counts no extents. -/
def Neat (i : Inode) : Prop := isInlineData i → Bare i

/-- A file whose bytes stand in blocks of its own. -/
structure Backed (env : Env) (s : FS) (i : Inode) (exts : List Extent) (nodes : List ℕ) : Prop where
  data : ¬isInlineData i
  stores : Stores s.dev i exts nodes
  total : i.numExtentsTotal = exts.length
  proper : Proper exts
  apart : ∀ k p f, Maps exts k p f → p ∉ nodes
  bound : ∀ k p f, Maps exts k p f → k < blocksFor i.fileSize + env.totalBlocks
  own : ∀ b, (b ∈ nodes ∨ ∃ k f, Maps exts k b f) → InUse env s b
  tail : ∀ pos, i.fileSize ≤ pos → byteAt s.dev exts pos = 0

structure FileOk (env : Env) (s : FS) (i : Inode) : Prop where
  size : i.fileSize ≤ maxFileSize
  form : Inlined i ∨ ∃ exts nodes, Backed env s i exts nodes

/-- The blocks that the extents and the index of the inode lead to. -/
def Owned (s : FS) (i : Inode) (b : ℕ) : Prop :=
  ∃ tree, collectExtentTree s.dev i = .ok tree ∧ (b ∈ tree.nodes ∨ ∃ k f, Maps tree.exts k b f)

/-- The extents of the inode lead the block `k` of the file to the device block `p`. -/
def Leads (s : FS) (i : Inode) (k p f : ℕ) : Prop :=
  ∃ tree, collectExtentTree s.dev i = .ok tree ∧ Maps tree.exts k p f

/-- The bytes of a file, past its end too. -/
def content (s : FS) (i : Inode) : ℕ → UInt8 :=
  if isInlineData i then inlineData i
  else
    match collectExtentTree s.dev i with
    | .ok tree => byteAt s.dev tree.exts
    | .error _ => zeroBlock

section Files

variable {env : Env} {s t u : FS} {i i' : Inode} {exts exts' : List Extent} {nodes : List ℕ}
  {k p f pos b : ℕ} {e : Extent}

theorem Backed.collect (h : Backed env s i exts nodes) :
    ∃ tree, collectExtentTree s.dev i = .ok tree ∧ tree.exts = exts ∧
      (∀ b, b ∈ tree.nodes ↔ b ∈ nodes) ∧ tree.Sound s.dev i :=
  h.stores.collect h.data

theorem Backed.owned_iff (h : Backed env s i exts nodes) :
    Owned s i b ↔ b ∈ nodes ∨ ∃ k f, Maps exts k b f := by
  obtain ⟨tree, hcollect, rfl, hnodes, -⟩ := h.collect
  constructor
  · rintro ⟨tree', hcollect', hb⟩
    obtain rfl := Except.ok.inj (hcollect.symm.trans hcollect')
    rwa [hnodes] at hb
  · intro hb
    exact ⟨tree, hcollect, by rwa [hnodes]⟩

theorem Backed.leads_iff (h : Backed env s i exts nodes) : Leads s i k p f ↔ Maps exts k p f := by
  obtain ⟨tree, hcollect, rfl, -, -⟩ := h.collect
  constructor
  · rintro ⟨tree', hcollect', hmaps⟩
    obtain rfl := Except.ok.inj (hcollect.symm.trans hcollect')
    exact hmaps
  · exact fun hmaps => ⟨tree, hcollect, hmaps⟩

theorem Leads.owned (h : Leads s i k p f) : Owned s i p := by
  obtain ⟨tree, hcollect, hmaps⟩ := h
  exact ⟨tree, hcollect, .inr ⟨k, f, hmaps⟩⟩

theorem Inlined.not_owned (h : Inlined i) : ¬Owned s i b := by
  rintro ⟨tree, hcollect, hb⟩
  rw [collectExtentTree, if_pos h.flag] at hcollect
  obtain rfl := Except.ok.inj hcollect
  rcases hb with hb | ⟨k, f, hmaps⟩
  · exact List.not_mem_nil hb
  · exact Pieces.at_nil hmaps

theorem Backed.content_eq (h : Backed env s i exts nodes) : content s i = byteAt s.dev exts := by
  obtain ⟨tree, hcollect, rfl, -, -⟩ := h.collect
  rw [content, if_neg h.data, hcollect]

theorem Inlined.content_eq (h : Inlined i) : content s i = inlineData i := by
  rw [content, if_pos h.flag]

theorem FileOk.inUse (h : FileOk env s i) (hb : Owned s i b) : InUse env s b := by
  rcases h.form with hin | ⟨exts, nodes, hbacked⟩
  · exact absurd hb hin.not_owned
  · exact hbacked.own b (hbacked.owned_iff.mp hb)

theorem FileOk.content_tail (h : FileOk env s i) (hpos : i.fileSize ≤ pos) : content s i pos = 0 := by
  rcases h.form with hin | ⟨exts, nodes, hbacked⟩
  · rw [hin.content_eq, hin.tail pos hpos]
  · rw [hbacked.content_eq, hbacked.tail pos hpos]

/-! ### What a read returns -/

theorem bmod_of_lt {n : ℕ} (h : n < 2 ^ 63) : Int.bmod (n : ℤ) (2 ^ 64) = n := by
  rw [Int.bmod_eq_of_le] <;> omega

theorem bmod_of_ge {n : ℕ} (h : 2 ^ 63 ≤ n) (h' : n < 2 ^ 64) :
    Int.bmod (n : ℤ) (2 ^ 64) = n - 2 ^ 64 := by
  rw [Int.bmod_def]
  omega

theorem stop_lt (h : e.stop < 2 ^ 52) : e.stop * blockSize < 2 ^ 64 := by
  unfold blockSize
  omega

theorem extStart_of_lt (h : e.offset * blockSize < 2 ^ 63) : extStart e = e.offset * blockSize := by
  have := bmod_of_lt h
  rw [Nat.cast_mul] at this
  exact this

theorem extEnd_of_lt (h : e.offset * blockSize < 2 ^ 63) (hstop : e.stop < 2 ^ 52) :
    extEnd e = min (e.stop * blockSize) maxFileSize := by
  have hsum : extStart e + e.len * blockSize = ((e.stop * blockSize : ℕ) : ℤ) := by
    rw [extStart_of_lt h, Extent.stop]
    push_cast
    ring
  have hle : e.offset * blockSize ≤ e.stop * blockSize := Nat.mul_le_mul_right _ (Nat.le_add_right _ _)
  have hstop' := stop_lt hstop
  have hmax : (maxFileSize : ℤ) = 2 ^ 63 - 1 := rfl
  have hcast : (e.offset : ℤ) * blockSize = ((e.offset * blockSize : ℕ) : ℤ) :=
    (Nat.cast_mul _ _).symm
  simp only [extEnd]
  rw [hsum, extStart_of_lt h, Nat.cast_min, hmax, hcast]
  by_cases hlt : e.stop * blockSize < 2 ^ 63
  · rw [bmod_of_lt hlt]
    split_ifs <;> omega
  · rw [bmod_of_ge (Nat.not_lt.mp hlt) hstop']
    split_ifs <;> omega

theorem extEnd_of_ge (h : 2 ^ 63 ≤ e.offset * blockSize) (hstop : e.stop < 2 ^ 52) : extEnd e ≤ 0 := by
  have hle : e.offset * blockSize ≤ e.stop * blockSize := Nat.mul_le_mul_right _ (Nat.le_add_right _ _)
  have hlt := stop_lt hstop
  have hstart : extStart e = e.offset * blockSize - 2 ^ 64 := by
    have := bmod_of_ge h (hle.trans_lt hlt)
    rw [Nat.cast_mul] at this
    exact this
  have hsum : extStart e + e.len * blockSize = ((e.stop * blockSize : ℕ) : ℤ) - 2 ^ 64 := by
    rw [hstart, Extent.stop]
    push_cast
    ring
  have hbmod : Int.bmod (extStart e + e.len * blockSize) (2 ^ 64) =
      ((e.stop * blockSize : ℕ) : ℤ) - 2 ^ 64 := by
    rw [hsum, Int.bmod_eq_of_le] <;> omega
  simp only [extEnd]
  rw [hbmod, hstart]
  split_ifs with hwrap
  · omega
  · omega

/-- A position in a run, counted from the block that the read starts in. -/
theorem run_position {o a pos : ℕ} (ha : o * 4096 ≤ a) (hpos : a ≤ pos) :
    (a - o * 4096) / 4096 + ((a - o * 4096) % 4096 + (pos - a)) / 4096 = pos / 4096 - o ∧
      ((a - o * 4096) % 4096 + (pos - a)) % 4096 = pos % 4096 := by
  omega

theorem readExtent_eq {dev : ℕ → Cell} {off endOff : ℕ} {buf : ℕ → UInt8} (hstop : e.stop < 2 ^ 52)
    (hend : endOff ≤ maxFileSize) (hpos : off ≤ pos ∧ pos < endOff) :
    readExtent dev off endOff buf e pos =
      if (e.offset ≤ pos / blockSize ∧ pos / blockSize < e.stop) ∧ e.phys ≠ 0 ∧ ¬e.unwritten then
        (dev (e.place (pos / blockSize))).bytes (pos % blockSize)
      else buf pos := by
  unfold readExtent
  by_cases hfar : e.offset * blockSize < 2 ^ 63
  · have hstart := extStart_of_lt hfar
    have hstop' := extEnd_of_lt hfar hstop
    rw [← Nat.cast_mul] at hstart
    simp only [blockSize] at hstart hstop'
    by_cases hhole : e.phys = 0 ∨ e.unwritten = true
    · have hno : ¬((e.offset ≤ pos / blockSize ∧ pos / blockSize < e.stop) ∧ e.phys ≠ 0 ∧
          ¬e.unwritten = true) := fun h => hhole.elim h.2.1 h.2.2
      rw [if_neg hno, if_pos hhole, ite_self]
    · by_cases hin : e.offset ≤ pos / blockSize ∧ pos / blockSize < e.stop
      · have hyes : (e.offset ≤ pos / blockSize ∧ pos / blockSize < e.stop) ∧ e.phys ≠ 0 ∧
            ¬e.unwritten = true := ⟨hin, not_or.mp hhole⟩
        rw [if_pos hyes]
        simp only [blockSize] at hin ⊢
        have hmeets : ¬(extEnd e ≤ off ∨ endOff ≤ extStart e) := by
          rw [hstart, hstop']
          omega
        have hrange : max (off : ℤ) (extStart e) ≤ pos ∧ pos < min (endOff : ℤ) (extEnd e) := by
          rw [hstart, hstop']
          omega
        have hinExt : (max (off : ℤ) (extStart e) - extStart e).toNat =
            max off (e.offset * 4096) - e.offset * 4096 := by
          rw [hstart]
          omega
        have hskip : ((pos : ℤ) - max (off : ℤ) (extStart e)).toNat =
            pos - max off (e.offset * 4096) := by
          rw [hstart]
          omega
        have hafter : e.offset * 4096 ≤ max off (e.offset * 4096) := le_max_right _ _
        have hbefore : max off (e.offset * 4096) ≤ pos := by omega
        obtain ⟨hblock, hbyte⟩ := run_position hafter hbefore
        rw [if_neg hmeets, if_neg hhole, if_pos hrange]
        simp only [hinExt, hskip, Extent.place, hbyte, Nat.add_assoc, hblock]
      · have hno : ¬((e.offset ≤ pos / blockSize ∧ pos / blockSize < e.stop) ∧ e.phys ≠ 0 ∧
            ¬e.unwritten = true) := fun h => hin h.1
        rw [if_neg hno, if_neg hhole]
        simp only [blockSize] at hin
        have hrange : ¬(max (off : ℤ) (extStart e) ≤ pos ∧ pos < min (endOff : ℤ) (extEnd e)) := by
          rw [hstart, hstop']
          omega
        by_cases hmeets : extEnd e ≤ off ∨ endOff ≤ extStart e
        · rw [if_pos hmeets]
        · rw [if_neg hmeets, if_neg hrange]
  · have hneg := extEnd_of_ge (Nat.not_lt.mp hfar) hstop
    have hbefore : ¬e.offset ≤ pos / blockSize := by
      have hmax : maxFileSize = 2 ^ 63 - 1 := rfl
      simp only [blockSize] at hfar ⊢
      omega
    rw [if_pos (.inl (hneg.trans (Int.natCast_nonneg off))), if_neg fun h => hbefore h.1.1]

section Loop

variable {dev : ℕ → Cell} {off endOff : ℕ} {buf : ℕ → UInt8}

theorem foldl_readExtent_of_gap (hstop : ∀ e ∈ exts, e.stop < 2 ^ 52) (hend : endOff ≤ maxFileSize)
    (hpos : off ≤ pos ∧ pos < endOff) (hgap : blockMap.Gap exts (pos / blockSize)) :
    exts.foldl (readExtent dev off endOff) buf pos = buf pos := by
  induction exts generalizing buf with
  | nil => rfl
  | cons a exts ih =>
    obtain ⟨hstop', hstops⟩ := List.forall_mem_cons.mp hstop
    obtain ⟨hgap', hgaps⟩ := List.forall_mem_cons.mp hgap
    rw [List.foldl_cons, ih hstops hgaps, readExtent_eq hstop' hend hpos, if_neg fun h => hgap' h.1]

theorem foldl_readExtent_of_mem (hs : Sorted exts) (hstop : ∀ e ∈ exts, e.stop < 2 ^ 52)
    (hend : endOff ≤ maxFileSize) (hpos : off ≤ pos ∧ pos < endOff) (he : e ∈ exts)
    (hhas : blockMap.Has e (pos / blockSize)) :
    exts.foldl (readExtent dev off endOff) buf pos =
      if e.phys = 0 ∨ e.unwritten then buf pos
      else (dev (e.place (pos / blockSize))).bytes (pos % blockSize) := by
  induction exts generalizing buf with
  | nil => exact absurd he List.not_mem_nil
  | cons a exts ih =>
    obtain ⟨hstop', hstops⟩ := List.forall_mem_cons.mp hstop
    obtain ⟨-, hfirst, hrest⟩ := Pieces.ordered_cons.mp hs
    rw [List.foldl_cons]
    rcases List.mem_cons.mp he with rfl | he
    · have hgap : blockMap.Gap exts (pos / blockSize) := by
        intro x hx hxk
        have hle : e.stop ≤ x.offset := hfirst x hx
        have hlt : pos / blockSize < e.stop := hhas.2
        have hge : x.offset ≤ pos / blockSize := hxk.1
        omega
      rw [foldl_readExtent_of_gap hstops hend hpos hgap, readExtent_eq hstop' hend hpos]
      by_cases hhole : e.phys = 0 ∨ e.unwritten = true
      · rw [if_pos hhole, if_neg fun h => hhole.elim h.2.1 h.2.2]
      · rw [if_neg hhole, if_pos ⟨hhas, not_or.mp hhole⟩]
    · have hnot : ¬blockMap.Has a (pos / blockSize) := by
        intro hak
        have hle : a.stop ≤ e.offset := hfirst e he
        have hlt : pos / blockSize < a.stop := hak.2
        have hge : e.offset ≤ pos / blockSize := hhas.1
        omega
      have hsame : readExtent dev off endOff buf a pos = buf pos := by
        rw [readExtent_eq hstop' hend hpos, if_neg fun h => hnot h.1]
      rw [ih hrest hstops he, hsame]

/-- The loop of `readFileData` fills the buffer with the bytes of the file. -/
theorem foldl_readExtent (hs : Sorted exts) (hstop : ∀ e ∈ exts, e.stop < 2 ^ 52)
    (hend : endOff ≤ maxFileSize) (hpos : off ≤ pos ∧ pos < endOff) :
    exts.foldl (readExtent dev off endOff) zeroBlock pos = byteAt dev exts pos := by
  unfold byteAt lookupExtent
  cases hlookup : blockMap.locate exts (pos / blockSize) with
  | none =>
    rw [foldl_readExtent_of_gap hstop hend hpos (hs.locate_eq_none.mp hlookup)]
    rfl
  | some e =>
    obtain ⟨he, hhas⟩ := hs.locate_eq_some.mp hlookup
    exact foldl_readExtent_of_mem hs hstop hend hpos he hhas

end Loop

theorem Backed.stop_lt (h : Backed env s i exts nodes) (hsize : i.fileSize ≤ maxFileSize)
    (he : e ∈ exts) : e.stop < 2 ^ 52 := by
  have hlt : e.offset < e.stop := h.proper.sorted.nonempty e he
  have hmaps : Maps exts (e.stop - 1) (e.place (e.stop - 1)) e.flags :=
    ⟨e, he, ⟨by change e.offset ≤ _; omega, by change _ < e.stop; omega⟩, rfl⟩
  have hbound := h.bound _ _ _ hmaps
  have hsmall := env.small
  have hmax : maxFileSize = 2 ^ 63 - 1 := rfl
  simp only [blocksFor, blockSize] at hbound
  omega

/-- The file reads as the bytes `f` up to its size. -/
def ReadsAs (s : FS) (ino size : ℕ) (f : ℕ → UInt8) : Prop :=
  ∀ off n, off < 2 ^ 63 → n < 2 ^ 63 →
    readFileData s ino off n = .ok ((List.range' off (min n (size - off))).map f)

theorem clip_eq {off n size : ℕ} (hsize : size ≤ maxFileSize) (hlt : off < size) :
    min (if off + n < 2 ^ 63 then off + n else maxFileSize) size = off + min n (size - off) := by
  have hmax : maxFileSize = 2 ^ 63 - 1 := rfl
  split_ifs <;> omega

theorem FileOk.readsAs {ino : ℕ} (h : FileOk env s (s.inodes ino)) :
    ReadsAs s ino (s.inodes ino).fileSize (content s (s.inodes ino)) := by
  intro off n hoff hn
  have hsize := h.size
  have hcast : Int.bmod ((s.inodes ino).fileSize : ℤ) (2 ^ 64) = (s.inodes ino).fileSize := by
    apply bmod_of_lt
    have hmax : maxFileSize = 2 ^ 63 - 1 := rfl
    omega
  unfold readFileData
  simp only [hcast, Int.toNat_natCast, Nat.cast_le]
  by_cases hlt : (s.inodes ino).fileSize ≤ off
  · rw [if_pos hlt, Nat.sub_eq_zero_of_le hlt]
    simp
  rw [if_neg hlt, clip_eq hsize (Nat.not_le.mp hlt), Nat.add_sub_cancel_left]
  have hclip : off + min n ((s.inodes ino).fileSize - off) ≤ (s.inodes ino).fileSize := by omega
  rcases h.form with hin | ⟨exts, nodes, hbacked⟩
  · rw [if_pos hin.flag, if_neg (Nat.not_lt.mpr (hclip.trans hin.short)), hin.content_eq]
  · obtain ⟨tree, hcollect, rfl, -, -⟩ := hbacked.collect
    rw [if_neg hbacked.data, hcollect, hbacked.content_eq]
    refine congrArg Except.ok (List.map_congr_left fun pos hpos => ?_)
    rw [List.mem_range'_1] at hpos
    exact foldl_readExtent hbacked.proper.sorted (fun e he => hbacked.stop_lt hsize he)
      (hclip.trans hsize) hpos

end Files

/-! ### Zeroing -/

section Zeroing

variable {env : Env} {s t : FS} {exts : List Extent} {k p f pos size first last : ℕ} {r : Unit}

theorem zeroBlockRange_spec (env : Env) (hexts : Proper exts) (hmaps : Maps exts k p f)
    (h : zeroBlockRange p first last s = (.ok r, t)) :
    Works env s [] (Mapped exts) t ∧ ∀ pos, byteAt t.dev exts pos =
      if pos / blockSize = k ∧ first ≤ pos % blockSize ∧ pos % blockSize < last then 0
      else byteAt s.dev exts pos := by
  unfold zeroBlockRange at h
  split_ifs at h with hle
  · obtain ⟨-, rfl⟩ := Call.pure_eq_ok h
    refine ⟨Works.refl _ _, fun pos => ?_⟩
    rw [if_neg fun hin => by omega]
  · obtain ⟨buf, u, hread, hwrite⟩ := Call.bind_eq_ok h
    obtain ⟨rfl, hdev, hworks⟩ := works_readBlock env hread
    obtain ⟨hdev', hworks'⟩ := works_writeCell env hwrite
    have hin : ∀ b, b = p → Mapped exts b := by
      rintro b rfl
      exact ⟨k, f, hmaps⟩
    refine ⟨(hworks.mono hin).trans (hworks'.mono hin), fun pos => ?_⟩
    rw [hdev', hdev, byteAt_update hexts hmaps]
    by_cases hk : pos / blockSize = k
    · subst hk
      rw [if_pos rfl, byteAt_of_maps hexts hmaps]
      simp only [clearRange, true_and]
      split_ifs <;> rfl
    · rw [if_neg hk, if_neg fun hin => hk hin.1]

/-- The bytes of the last block past the size are zero now; the others are as before. -/
def ZeroesTail (env : Env) (exts : List Extent) (size : ℕ) (s t : FS) : Prop :=
  Works env s [] (Mapped exts) t ∧ ∀ pos, byteAt t.dev exts pos =
    if size ≤ pos ∧ pos / blockSize = (size - 1) / blockSize then 0 else byteAt s.dev exts pos

theorem zeroBlockTail_spec (hexts : Proper exts) (hsize : size % blockSize ≠ 0)
    (hmaps : Maps exts ((size - 1) / blockSize) p f)
    (h : zeroBlockTail p (size % blockSize) s = (.ok r, t)) : ZeroesTail env exts size s t := by
  obtain ⟨hworks, hbytes⟩ := zeroBlockRange_spec env hexts hmaps h
  refine ⟨hworks, fun pos => ?_⟩
  rw [hbytes]
  refine if_congr ?_ rfl rfl
  simp only [blockSize] at hsize ⊢
  omega

theorem zeroesTail_of_gap (hexts : Proper exts)
    (hgap : ∀ p f, f = 0 → ¬Maps exts ((size - 1) / blockSize) p f) : ZeroesTail env exts size s s := by
  refine ⟨Works.refl _ _, fun pos => ?_⟩
  split_ifs with hin
  · rcases maps_or_gap exts (pos / blockSize) with ⟨p, f, hmaps⟩ | hnone
    · rw [byteAt_of_maps hexts hmaps, if_neg fun hzero => hgap p f hzero (hin.2 ▸ hmaps)]
    · exact byteAt_of_gap hexts hnone
  · rfl

theorem zeroEofTail_spec (hexts : Proper exts) (hsize : size % blockSize ≠ 0)
    (h : zeroEofTail exts size s = (.ok r, t)) : ZeroesTail env exts size s t := by
  unfold zeroEofTail lookupExtent at h
  cases hlookup : blockMap.locate exts ((size - 1) / blockSize) with
  | none =>
    rw [hlookup] at h
    obtain ⟨-, rfl⟩ := Call.pure_eq_ok h
    refine zeroesTail_of_gap hexts fun p f _ hmaps => ?_
    obtain ⟨e, he, hk, -⟩ := hmaps
    exact hexts.sorted.locate_eq_none.mp hlookup e he hk
  | some e =>
    rw [hlookup] at h
    obtain ⟨he, hk⟩ := hexts.sorted.locate_eq_some.mp hlookup
    exact zeroBlockTail_spec hexts hsize ⟨e, he, hk, rfl⟩ h

theorem zeroEofTailBlock_spec (hexts : Proper exts) (hsize : size % blockSize ≠ 0)
    (h : zeroEofTailBlock exts size s = (.ok r, t)) : ZeroesTail env exts size s t := by
  unfold zeroEofTailBlock lookupExtent at h
  cases hlookup : blockMap.locate exts ((size - 1) / blockSize) with
  | none =>
    rw [hlookup] at h
    obtain ⟨-, rfl⟩ := Call.pure_eq_ok h
    refine zeroesTail_of_gap hexts fun p f _ hmaps => ?_
    obtain ⟨e, he, hk, -⟩ := hmaps
    exact hexts.sorted.locate_eq_none.mp hlookup e he hk
  | some e =>
    rw [hlookup] at h
    obtain ⟨he, hk⟩ := hexts.sorted.locate_eq_some.mp hlookup
    obtain ⟨hflags, hphys⟩ := hexts.of_mem he
    dsimp only at h
    split_ifs at h with hhole
    · obtain ⟨-, rfl⟩ := Call.pure_eq_ok h
      refine zeroesTail_of_gap hexts fun p f hf hmaps => ?_
      obtain ⟨e', he', hk', hval⟩ := hmaps
      obtain rfl := hexts.sorted.eq_of_has he he' hk hk'
      rw [← (val_eq_iff.mp hval).2] at hf
      rcases hhole with hzero | hun
      · exact hphys hzero
      · exact (unwritten_iff hflags).mp hun hf
    · exact zeroBlockTail_spec hexts hsize ⟨e, he, hk, rfl⟩ h

end Zeroing

end Briefs.File
