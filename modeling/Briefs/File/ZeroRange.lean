import Briefs.File.Preallocate
import Briefs.File.Punch

/-!
# Zeroing a range

`zeroRangeOp`: the blocks that lie wholly inside the range become unwritten blocks, those
that were holes by an allocation, and the parts of the range in the blocks at either end are
zeroed where they stand.
-/

namespace Briefs.File

open Lib Alloc Btree
open Bridge (BlockRun RunAccum)

/-- One round of the closure `zeroRegion`. -/
def zeroRegionBlock (exts : List Extent) (first last blk : ℕ) : Call FS Unit :=
  match lookupExtent exts blk with
  | none => pure ()
  | some ext =>
    if ext.phys = 0 ∨ ext.unwritten then pure ()
    else zeroBlockRange (ext.place blk)
      (if blk * blockSize < first then first - blk * blockSize else 0)
      (min (last - blk * blockSize) blockSize)

def zeroRegionFrom (exts : List Extent) (first last : ℕ) : ℕ → ℕ → Call FS Unit
  | 0, _ => pure ()
  | fuel + 1, blk =>
    if blk * blockSize < last then do
      zeroRegionBlock exts first last blk
      zeroRegionFrom exts first last fuel (blk + 1)
    else pure ()

/-- The closure `zeroRegion`. -/
def zeroRegion (exts : List Extent) (first last : ℕ) : Call FS Unit :=
  zeroRegionFrom exts first last (blocksFor last) (first / blockSize)

/-- Zero the parts of the range in the blocks at its ends, or all of it if it has no block
of its own. -/
def zeroEdges (exts : List Extent) (off endOff : ℕ) : Call FS Unit :=
  if blocksFor off < endOff / blockSize then do
    zeroRegion exts off (blocksFor off * blockSize)
    zeroRegion exts (endOff / blockSize * blockSize) endOff
  else zeroRegion exts off endOff

/-- What becomes of an extent when the blocks of a range are turned into unwritten ones. -/
def convertExtent (sFull eFull : ℕ) (e : Extent) : List Extent :=
  if e.stop ≤ sFull ∨ eFull ≤ e.offset then [e]
  else
    beforeBlock e sFull e.flags ++
      [⟨max e.offset sFull, e.phys + (max e.offset sFull - e.offset),
        min e.stop eFull - max e.offset sFull, extentFlagUnwritten⟩] ++
      fromBlock e eFull eFull e.flags

section Calls

variable (env : Env)

/-- New blocks for a hole, if there is one. -/
def fillHole (first last : ℕ) : Call FS (List Extent) :=
  if first < last then allocUnwrittenHole env first last else pure []

/-- The loop of `zeroRangeOp` over the extents, with the hole behind the last one. -/
def convertExtents (sFull eFull : ℕ) : ℕ → List Extent → Call FS (List Extent)
  | cursor, [] => fillHole env cursor eFull
  | cursor, e :: exts => do
    let hole ← fillHole env cursor (min e.offset eFull)
    let rest ← convertExtents sFull eFull (max cursor (min e.stop eFull)) exts
    pure (hole ++ convertExtent sFull eFull e ++ rest)

/-- The extents with the blocks of the range unwritten. -/
def convertRange (exts : List Extent) (sFull eFull : ℕ) : Call FS (List Extent) :=
  if sFull < eFull then do
    let raw ← convertExtents env sFull eFull sFull exts
    pure (insertAll [] raw)
  else pure exts

def growsTo (i : Inode) (endOff mode : ℕ) : Prop := ¬keepsSize mode ∧ i.fileSize < endOff

instance (i : Inode) (endOff mode : ℕ) : Decidable (growsTo i endOff mode) :=
  inferInstanceAs (Decidable (_ ∧ _))

/-- The inode with the size after the operation and its times. -/
def zeroStamped (i : Inode) (endOff mode : ℕ) : Inode :=
  stampDataTimes env { i with fileSize := sizeAfter mode i.fileSize endOff }
    (decide (growsTo i endOff mode))

def zeroRangeInline (i : Inode) (off endOff mode : ℕ) : Call FS Unit :=
  commitInodeMetadata (zeroStamped env
    (if off < min endOff i.fileSize then
      setInlineData i (clearRange (inlineData i) off (min endOff i.fileSize))
    else i) endOff mode)

/-- `zeroRangeOp` for a file that has its bytes in blocks. -/
def zeroRangeExtents (i : Inode) (off endOff mode : ℕ) : Call FS Unit := do
  let tree ← orRollback (collect i)
  orRollback (zeroEdges tree.exts off endOff)
  let newExts ← orRollback (convertRange env tree.exts (blocksFor off) (endOff / blockSize))
  Call.when (growsTo i endOff mode ∧ i.fileSize % blockSize ≠ 0 ∧
    i.fileSize / blockSize < blocksFor off) (orRollback (zeroEofTail tree.exts i.fileSize))
  if blocksFor off < endOff / blockSize then
    commitRebuiltExtents env (zeroStamped env i endOff mode) tree newExts []
  else commitInodeMetadata (zeroStamped env i endOff mode)

def zeroRangeOp (i : Inode) (off size mode : ℕ) : Call FS Unit :=
  if isInlineData i then
    if off + size ≤ inlineDataMax then zeroRangeInline env i off (off + size) mode
    else do
      let i ← orRollback (promoteInlineData env i)
      zeroRangeExtents env i off (off + size) mode
  else zeroRangeExtents env i off (off + size) mode

end Calls

variable {env : Env} {s t u v w : FS} {i i' j : Inode} {exts exts' raw newExts : List Extent}
  {nodes nodes' new more : List ℕ} {e : Extent} {b k p f g pos m n ino off size endOff mode : ℕ}
  {sFull eFull cursor : ℕ} {r : Unit} {out : ℕ → UInt8} {tree : ExtentTree}

/-! ### Zeroing at the ends -/

theorem zeroRegionBlock_spec (env : Env) (hexts : Proper exts)
    (h : zeroRegionBlock exts m n k s = (.ok r, t)) :
    Zeroes env exts (fun pos => pos / blockSize = k ∧ m ≤ pos ∧ pos < n) s t := by
  unfold zeroRegionBlock at h
  cases hlookup : lookupExtent exts k with
  | none =>
    rw [hlookup] at h
    obtain ⟨-, rfl⟩ := Call.pure_eq_ok h
    refine .refl fun pos hpos => byteAt_of_gap hexts ?_
    rw [hpos.1]
    exact (lookupExtent_eq_none hexts.sorted).mp hlookup
  | some ext =>
    rw [hlookup] at h
    obtain ⟨hmem, -, hmaps⟩ := maps_of_lookup hexts.sorted hlookup
    dsimp only at h
    split_ifs at h with hskip hfirst
    · obtain ⟨-, rfl⟩ := Call.pure_eq_ok h
      have hflag := (unwritten_iff (hexts.of_mem hmem).1).mp
        (hskip.resolve_left (hexts.of_mem hmem).2)
      refine .refl fun pos hpos => ?_
      rw [byteAt_of_maps hexts (hpos.1 ▸ hmaps), if_neg hflag]
    · refine (zeroes_zeroBlockRange hexts hmaps h).congr fun pos => ?_
      simp only [blockSize] at hfirst ⊢
      omega
    · refine (zeroes_zeroBlockRange hexts hmaps h).congr fun pos => ?_
      simp only [blockSize] at hfirst ⊢
      omega

theorem zeroRegionFrom_spec (env : Env) (hexts : Proper exts) {fuel : ℕ}
    (hfuel : blocksFor n ≤ k + fuel) (h : zeroRegionFrom exts m n fuel k s = (.ok r, t)) :
    Zeroes env exts (fun pos => k ≤ pos / blockSize ∧ m ≤ pos ∧ pos < n) s t := by
  induction fuel generalizing k s with
  | zero =>
    obtain ⟨-, rfl⟩ := Call.pure_eq_ok h
    refine .refl fun pos hpos => ?_
    simp only [blocksFor, blockSize] at hfuel hpos
    omega
  | succ fuel ih =>
    rw [zeroRegionFrom] at h
    split_ifs at h with hmore
    · obtain ⟨⟨⟩, v, hfirst, h⟩ := Call.bind_eq_ok h
      have hrest := ih (by omega) h
      refine ((zeroRegionBlock_spec env hexts hfirst).trans hrest).congr fun pos => ?_
      omega
    · obtain ⟨-, rfl⟩ := Call.pure_eq_ok h
      refine .refl fun pos hpos => ?_
      simp only [blockSize] at hmore hpos
      omega

theorem zeroRegion_spec (env : Env) (hexts : Proper exts)
    (h : zeroRegion exts m n s = (.ok r, t)) :
    Zeroes env exts (fun pos => m ≤ pos ∧ pos < n) s t := by
  refine (zeroRegionFrom_spec env hexts (Nat.le_add_left _ _) h).congr fun pos => ?_
  simp only [blockSize]
  omega

theorem inner_iff_full : Inner off endOff k ↔ blocksFor off ≤ k ∧ k < endOff / blockSize := by
  simp only [Inner, blocksFor, blockSize]
  omega

theorem zeroEdges_spec (env : Env) (hexts : Proper exts)
    (h : zeroEdges exts off endOff s = (.ok r, t)) : Zeroes env exts (Edge off endOff) s t := by
  unfold zeroEdges at h
  split_ifs at h with hmiddle
  · obtain ⟨⟨⟩, v, hfirst, hlast⟩ := Call.bind_eq_ok h
    refine ((zeroRegion_spec env hexts hfirst).trans (zeroRegion_spec env hexts hlast)).congr
      fun pos => ?_
    simp only [Edge, Inner, blocksFor, blockSize] at hmiddle ⊢
    omega
  · refine (zeroRegion_spec env hexts h).congr fun pos => ?_
    refine (and_iff_left ?_).symm
    rw [inner_iff_full]
    omega

/-! ### Turning blocks into unwritten ones -/

/-- The flags of a block after the conversion. -/
def flagIn (sFull eFull k f : ℕ) : ℕ := if sFull ≤ k ∧ k < eFull then extentFlagUnwritten else f

theorem maps_convertExtent (he : e.offset < e.stop) :
    Maps (convertExtent sFull eFull e) k p f ↔
      (e.offset ≤ k ∧ k < e.stop) ∧ e.place k = p ∧ flagIn sFull eFull k e.flags = f := by
  unfold convertExtent
  split_ifs with hout
  · rw [maps_single, flagIn]
    refine and_congr_right fun hk => ?_
    rw [if_neg (by omega)]
  · rw [maps_append, maps_append, maps_beforeBlock, maps_single, maps_fromBlock (by omega)]
    by_cases hk : sFull ≤ k ∧ k < eFull
    · rw [flagIn, if_pos hk]
      simp only [Extent.stop, Extent.place] at *
      omega
    · rw [flagIn, if_neg hk]
      simp only [Extent.stop, Extent.place] at *
      omega

theorem sorted_convertExtent (hlt : sFull < eFull) (he : e.offset < e.stop) :
    Sorted (convertExtent sFull eFull e) := by
  have hlen : 0 < e.len := by
    rw [Extent.stop] at he
    omega
  unfold convertExtent
  split_ifs with hout
  · exact sorted_single hlen
  · have hmid : 0 < min e.stop eFull - max e.offset sFull := by omega
    refine Pieces.ordered_append.mpr ⟨Pieces.ordered_append.mpr ⟨sorted_beforeBlock,
      sorted_single hmid, ?_⟩, sorted_fromBlock, ?_⟩
    · intro x hx y hy
      rw [List.mem_singleton.mp hy]
      have := mem_beforeBlock hx
      change x.stop ≤ max e.offset sFull
      omega
    · intro x hx y hy
      have hfrom := mem_fromBlock hy
      change x.stop ≤ y.offset
      rcases List.mem_append.mp hx with hx | hx
      · have := mem_beforeBlock hx
        omega
      · rw [List.mem_singleton.mp hx]
        change max e.offset sFull + (min e.stop eFull - max e.offset sFull) ≤ y.offset
        omega

/-- The blocks of the list in a range are unwritten now, and its holes from `cursor` on are
filled. -/
structure Converted (env : Env) (s : FS) (sFull eFull cursor : ℕ) (exts raw : List Extent)
    (new : List ℕ) (u : FS) : Prop where
  works : ∀ W, Works env s new W u
  dev : u.dev = s.dev
  proper : Proper raw
  blocks : ∀ b, Mapped raw b ↔ Mapped exts b ∨ b ∈ new
  kept : ∀ k p f, Maps exts k p f → Maps raw k p (flagIn sFull eFull k f)
  added : ∀ k p f, Maps raw k p f → (∃ g, Maps exts k p g ∧ f = flagIn sFull eFull k g) ∨
    (cursor ≤ k ∧ k < eFull) ∧ f = extentFlagUnwritten
  covers : ∀ k, cursor ≤ k → k < eFull → ∃ p f, Maps raw k p f

theorem fillHole_spec (h : fillHole env m n s = (.ok raw, u)) :
    ∃ new, Fills env s m n raw new u := by
  unfold fillHole at h
  split_ifs at h with hlt
  · exact allocUnwrittenHole_spec hlt h
  · obtain ⟨rfl, rfl⟩ := Call.pure_eq_ok h
    exact ⟨[], Fills.nil s (Nat.not_lt.mp hlt)⟩

theorem Proper.converted (hlt : sFull < eFull) (h : Proper (e :: exts)) :
    Proper (convertExtent sFull eFull e) := by
  have he : e.offset < e.stop := (Pieces.ordered_cons.mp h.sorted).1
  refine h.of_places (sorted_convertExtent hlt he) fun k p f hk => ?_
  obtain ⟨hin, hp, hf⟩ := (maps_convertExtent he).mp hk
  have hk' : Maps (e :: exts) k p e.flags := maps_cons.mpr (.inl ⟨hin, hp, rfl⟩)
  refine ⟨?_, e.flags, hk'⟩
  rw [← hf, flagIn]
  split_ifs
  · exact .inr rfl
  · exact h.flags k p _ hk'

theorem convertExtents_spec (hlt : sFull < eFull) (hexts : Proper exts)
    (hfree : ∀ b, Mapped exts b → ¬Free env s b)
    (h : convertExtents env sFull eFull cursor exts s = (.ok raw, u)) :
    ∃ new, Converted env s sFull eFull cursor exts raw new u := by
  induction exts generalizing cursor s raw with
  | nil =>
    obtain ⟨new, hfills⟩ := fillHole_spec h
    refine ⟨new, hfills.works, hfills.dev, hfills.proper, fun b => ?_, fun k p f hk => ?_,
      fun k p f hk => .inr ⟨(hfills.covers k).mp ⟨p, f, hk⟩, hfills.unwritten k p f hk⟩,
      fun k hlow hhigh => (hfills.covers k).mpr ⟨hlow, hhigh⟩⟩
    · rw [hfills.blocks, or_iff_right mapped_nil]
    · exact absurd hk Pieces.at_nil
  | cons e exts ih =>
    rw [convertExtents] at h
    obtain ⟨hole, u₁, hhole, h⟩ := Call.bind_eq_ok h
    obtain ⟨rest, u₂, hrest, h⟩ := Call.bind_eq_ok h
    obtain ⟨rfl, rfl⟩ := Call.pure_eq_ok h
    obtain ⟨new, hfills⟩ := fillHole_spec hhole
    have hworks := hfills.works fun _ => False
    have hmapped : ∀ b, Mapped exts b → Mapped (e :: exts) b := by
      rintro b ⟨k, f, hk⟩
      exact ⟨k, f, maps_cons.mpr (.inr hk)⟩
    obtain ⟨more, hconv⟩ := ih hexts.tail
      (fun b hb => hworks.not_free (hfree b (hmapped b hb))) hrest
    have he : e.offset < e.stop := (Pieces.ordered_cons.mp hexts.sorted).1
    have hbehind : ∀ k p f, Maps exts k p f → e.stop ≤ k := by
      rintro k p f ⟨x, hx, hk, -⟩
      have hle : e.stop ≤ x.offset := (Pieces.ordered_cons.mp hexts.sorted).2.1 x hx
      exact hle.trans hk.1
    have hlate : ∀ k p f, Maps rest k p f → e.stop ≤ k := by
      intro k p f hk
      rcases hconv.added k p f hk with ⟨g, hk, -⟩ | ⟨hin, -⟩
      · exact hbehind k p g hk
      · omega
    have hhead : ∀ k p f, Maps (convertExtent sFull eFull e) k p f →
        (e.offset ≤ k ∧ k < e.stop) ∧ Maps (e :: exts) k p e.flags := by
      intro k p f hk
      obtain ⟨hin, hp, -⟩ := (maps_convertExtent he).mp hk
      exact ⟨hin, maps_cons.mpr (.inl ⟨hin, hp, rfl⟩)⟩
    have hfront : Proper (hole ++ convertExtent sFull eFull e) := by
      refine hfills.proper.append (hexts.converted hlt) ?_ ?_
      · intro k p f k' p' f' hk hk'
        have hin := (hfills.covers k).mp ⟨p, f, hk⟩
        have hin' := (hhead k' p' f' hk').1
        omega
      · rintro b hb ⟨k, f, hk⟩
        exact hfree b ⟨k, _, (hhead k b f hk).2⟩ (hworks.free b ((hfills.blocks b).mp hb))
    refine ⟨new ++ more, fun W => (hfills.works W).trans (hconv.works W),
      hconv.dev.trans hfills.dev, hfront.append hconv.proper ?_ ?_, ?_, ?_, ?_, ?_⟩
    · intro k p f k' p' f' hk hk'
      have := hlate k' p' f' hk'
      rcases maps_append.mp hk with hk | hk
      · have hin := (hfills.covers k).mp ⟨p, f, hk⟩
        omega
      · have hin := (hhead k p f hk).1
        omega
    · rintro b ⟨k, f, hk⟩ hb
      rcases maps_append.mp hk with hk | hk
      · have hnew := (hfills.blocks b).mp ⟨k, f, hk⟩
        rcases (hconv.blocks b).mp hb with hb | hb
        · exact hfree b (hmapped b hb) (hworks.free b hnew)
        · exact hworks.taken b hnew ((hconv.works fun _ => False).free b hb)
      · obtain ⟨hin, hk⟩ := hhead k b f hk
        rcases (hconv.blocks b).mp hb with ⟨k', f', hk'⟩ | hb
        · have := hbehind k' b f' hk'
          rw [hexts.inj k b _ k' f' hk (maps_cons.mpr (.inr hk'))] at hin
          omega
        · exact hfree b ⟨k, _, hk⟩ (hworks.shrinks b ((hconv.works fun _ => False).free b hb))
    · intro b
      have hself : Mapped (convertExtent sFull eFull e) b ↔ Mapped [e] b := by
        simp only [Mapped, maps_convertExtent he, maps_single]
        constructor
        · rintro ⟨k, f, hin, hp, -⟩
          exact ⟨k, e.flags, hin, hp, rfl⟩
        · rintro ⟨k, f, hin, hp, -⟩
          exact ⟨k, _, hin, hp, rfl⟩
      have happend : ∀ {l r : List Extent}, Mapped (l ++ r) b ↔ Mapped l b ∨ Mapped r b := by
        intro l r
        simp only [Mapped, maps_append, exists_or]
      rw [happend, happend, hself, hfills.blocks, hconv.blocks, List.mem_append,
        show e :: exts = [e] ++ exts from rfl, happend]
      tauto
    · intro k p f hk
      rcases maps_cons.mp hk with ⟨hin, hp, rfl⟩ | hk
      · exact maps_append.mpr (.inl (maps_append.mpr (.inr ((maps_convertExtent he).mpr
          ⟨hin, hp, rfl⟩))))
      · exact maps_append.mpr (.inr (hconv.kept k p f hk))
    · intro k p f hk
      rcases maps_append.mp hk with hk | hk
      · rcases maps_append.mp hk with hk | hk
        · have hin := (hfills.covers k).mp ⟨p, f, hk⟩
          exact .inr ⟨by omega, hfills.unwritten k p f hk⟩
        · obtain ⟨hin, hp, hf⟩ := (maps_convertExtent he).mp hk
          exact .inl ⟨e.flags, maps_cons.mpr (.inl ⟨hin, hp, rfl⟩), hf.symm⟩
      · rcases hconv.added k p f hk with ⟨g, hk, hf⟩ | ⟨hin, hf⟩
        · exact .inl ⟨g, maps_cons.mpr (.inr hk), hf⟩
        · exact .inr ⟨by omega, hf⟩
    · intro k hlow hhigh
      by_cases hbefore : k < e.offset
      · obtain ⟨p, f, hk⟩ := (hfills.covers k).mpr (by omega)
        exact ⟨p, f, maps_append.mpr (.inl (maps_append.mpr (.inl hk)))⟩
      by_cases hinside : k < e.stop
      · exact ⟨_, _, maps_append.mpr (.inl (maps_append.mpr (.inr ((maps_convertExtent he).mpr
          ⟨⟨by omega, hinside⟩, rfl, rfl⟩))))⟩
      · obtain ⟨p, f, hk⟩ := hconv.covers k (by omega) hhigh
        exact ⟨p, f, maps_append.mpr (.inr hk)⟩

theorem convertRange_spec (hlt : sFull < eFull) (hexts : Proper exts)
    (hfree : ∀ b, Mapped exts b → ¬Free env s b)
    (h : convertRange env exts sFull eFull s = (.ok newExts, u)) :
    ∃ new, Converted env s sFull eFull sFull exts newExts new u := by
  unfold convertRange at h
  rw [if_pos hlt] at h
  obtain ⟨raw, v, hraw, h⟩ := Call.bind_eq_ok h
  obtain ⟨rfl, rfl⟩ := Call.pure_eq_ok h
  obtain ⟨new, hconv⟩ := convertExtents_spec hlt hexts hfree hraw
  obtain ⟨hsorted, hmaps⟩ := insertAll_nil_spec hconv.proper.sorted
  have hproper := hconv.proper.of_places hsorted fun k p f hk =>
    ⟨hconv.proper.flags k p f ((hmaps k p f).mp hk), f, (hmaps k p f).mp hk⟩
  refine ⟨new, hconv.works, hconv.dev, hproper, fun b => ?_, ?_, ?_, ?_⟩
  · rw [← hconv.blocks b]
    simp only [Mapped, hmaps]
  · exact fun k p f hk => (hmaps _ _ _).mpr (hconv.kept k p f hk)
  · exact fun k p f hk => hconv.added k p f ((hmaps k p f).mp hk)
  · intro k hlow hhigh
    obtain ⟨p, f, hk⟩ := hconv.covers k hlow hhigh
    exact ⟨p, f, (hmaps k p f).mpr hk⟩

/-! ### The operation -/

/-- The blocks inside the range are unwritten and the others are as before. -/
structure Whitened (off endOff : ℕ) (exts newExts : List Extent) : Prop where
  proper : Proper newExts
  kept : ∀ k p f, Maps exts k p f → ∃ g, Maps newExts k p g
  inner : ∀ k, Inner off endOff k → ∃ p, Maps newExts k p extentFlagUnwritten
  outer : ∀ k p f, ¬Inner off endOff k → (Maps newExts k p f ↔ Maps exts k p f)

theorem Converted.whitened
    (h : Converted env s (blocksFor off) (endOff / blockSize) (blocksFor off) exts newExts new u) :
    Whitened off endOff exts newExts where
  proper := h.proper
  kept := fun k p f hk => ⟨_, h.kept k p f hk⟩
  inner := fun k hk => by
    have hin := inner_iff_full.mp hk
    obtain ⟨p, f, hmaps⟩ := h.covers k hin.1 hin.2
    refine ⟨p, ?_⟩
    rcases h.added k p f hmaps with ⟨g, -, rfl⟩ | ⟨-, rfl⟩
    · rwa [flagIn, if_pos hin] at hmaps
    · exact hmaps
  outer := fun k p f hk => by
    have hout : ¬(blocksFor off ≤ k ∧ k < endOff / blockSize) := fun hin =>
      hk (inner_iff_full.mpr hin)
    constructor
    · intro hmaps
      rcases h.added k p f hmaps with ⟨g, hg, rfl⟩ | ⟨hin, -⟩
      · rwa [flagIn, if_neg hout]
      · exact absurd hin hout
    · intro hmaps
      have hkept := h.kept k p f hmaps
      rwa [flagIn, if_neg hout] at hkept

theorem Whitened.refl (h : Proper exts) (hnone : ∀ k, ¬Inner off endOff k) :
    Whitened off endOff exts exts :=
  ⟨h, fun _ _ f hk => ⟨f, hk⟩, fun k hk => absurd hk (hnone k), fun _ _ _ _ => Iff.rfl⟩

/-- The bytes of a file with the range zeroed. -/
theorem Whitened.bytes {dev dev' : ℕ → Cell} (h : Whitened off endOff exts newExts)
    (hexts : Proper exts) (hinside : ∀ pos, Edge off endOff pos → byteAt dev' exts pos = 0)
    (houtside : ∀ pos, ¬Edge off endOff pos → byteAt dev' exts pos = byteAt dev exts pos) :
    byteAt dev' newExts = fun pos =>
      if off ≤ pos ∧ pos < endOff then 0 else byteAt dev exts pos := by
  funext pos
  by_cases hinner : Inner off endOff (pos / blockSize)
  · have hin : off ≤ pos ∧ pos < endOff := by
      simp only [Inner, blockSize] at hinner
      omega
    obtain ⟨p, hmaps⟩ := h.inner _ hinner
    rw [if_pos hin, byteAt_of_maps h.proper hmaps]
    rfl
  · have hsame : byteAt dev' newExts pos = byteAt dev' exts pos :=
      byteAt_congr hexts h.proper rfl (fun p f => h.outer _ p f hinner) fun _ _ => rfl
    rw [hsame]
    split_ifs with hin
    · exact hinside pos ⟨hin, hinner⟩
    · exact houtside pos fun hedge => hin hedge.1

/-- The tail of the old last block is zero already. -/
theorem zeroGrownTail_spec (env : Env) {c : Prop} [Decidable c] (hexts : Proper exts)
    (htail : ∀ pos, n ≤ pos → byteAt s.dev exts pos = 0)
    (h : Call.when (c ∧ n % blockSize ≠ 0 ∧ n / blockSize < m) (orRollback (zeroEofTail exts n)) s =
      (.ok r, t)) :
    Works env s [] (Mapped exts) t ∧ byteAt t.dev exts = byteAt s.dev exts := by
  unfold Call.when at h
  split_ifs at h with hcond
  · have hzeroes : ZeroesTail env exts n s t :=
      zeroEofTail_spec hexts hcond.2.1 (orRollback_eq_ok h)
    refine ⟨hzeroes.1, funext fun pos => (hzeroes.2 pos).trans ?_⟩
    split_ifs with hin
    · exact (htail pos hin.1).symm
    · rfl
  · obtain ⟨-, rfl⟩ := Call.pure_eq_ok h
    exact ⟨Works.refl _ _, rfl⟩

/-- The file after its edges were zeroed, with the blocks of the middle converted. -/
theorem Converted.commit
    (hconv : Converted env u (blocksFor off) (endOff / blockSize) (blocksFor off) exts newExts new v)
    (hroom : Room env s) (hbacked : Backed env s i exts nodes)
    (hzeroes : Zeroes env exts (Edge off endOff) s u) (hworks : Works env v [] (Mapped exts) w)
    (hsee : byteAt w.dev exts = byteAt v.dev exts) (hend : endOff ≤ env.totalBlocks * blockSize)
    (hgrow : i.fileSize ≤ j.fileSize) (hmax : j.fileSize ≤ maxFileSize)
    (hnumber : j.inodeNumber = i.inodeNumber) (hmode : j.filemode = i.filemode) (hflags : j.flags = i.flags)
    (hcollect : collectExtentTree s.dev i = .ok tree)
    (h : commitRebuiltExtents env j tree newExts [] w = (.ok r, t)) :
    ∃ i' nodes', Effect env s i t i' ∧ Backed env t i' newExts nodes' ∧
      i'.fileSize = j.fileSize ∧ byteAt t.dev newExts = (fun pos =>
        if off ≤ pos ∧ pos < endOff then 0 else byteAt s.dev exts pos) := by
  rw [hconv.dev] at hsee
  have hbytes := hconv.whitened.bytes hbacked.proper (hsee ▸ hzeroes.inside)
    (hsee ▸ hzeroes.outside)
  have hall := (hzeroes.works.trans (hconv.works _)).trans hworks
  rw [List.nil_append, List.append_nil] at hall
  have hgrows : Grows env s exts w newExts new := ⟨hall, hconv.proper, hconv.blocks⟩
  have hstaged := hgrows.staged hnumber hmode hflags ?_ ?_
  · obtain ⟨i', nodes', heffect, hbacked', hstored, -, hre, -⟩ :=
      hstaged.commitRebuilt hroom hbacked hmax hcollect hgrows.freed h
    exact ⟨i', nodes', heffect, hbacked', by rw [hre.rest], hstored.trans hbytes⟩
  · intro k p f hk
    rcases hconv.added k p f hk with ⟨g, hg, -⟩ | ⟨hin, -⟩
    · have := hbacked.bound k p g hg
      simp only [blocksFor, blockSize] at this ⊢
      omega
    · simp only [blockSize] at hin hend
      omega
  · intro pos hpos
    rw [hbytes]
    dsimp only
    split_ifs
    · rfl
    · exact hbacked.tail pos (hgrow.trans hpos)

/-- The file after its edges were zeroed, with no block in the middle. -/
theorem Zeroes.commit {mtime ctime : Time} (hzeroes : Zeroes env exts (Edge off endOff) s u)
    (hbacked : Backed env s i exts nodes) (hwhite : Whitened off endOff exts exts)
    (hworks : Works env u [] (Mapped exts) w) (hsee : byteAt w.dev exts = byteAt u.dev exts)
    (hgrow : i.fileSize ≤ n)
    (h : Commits env w { i with fileSize := n, mtime := mtime, ctime := ctime }
      (fun _ => False) t) :
    ∃ i' nodes', Effect env s i t i' ∧ Backed env t i' exts nodes' ∧ i'.fileSize = n ∧
      byteAt t.dev exts = (fun pos =>
        if off ≤ pos ∧ pos < endOff then 0 else byteAt s.dev exts pos) := by
  have hbytes := hwhite.bytes hbacked.proper (hsee ▸ hzeroes.inside) (hsee ▸ hzeroes.outside)
  obtain ⟨heffect, hbacked'⟩ := hbacked.inPlace (hzeroes.works.trans hworks) hgrow (fun pos hpos => by
    rw [hbytes]
    dsimp only
    split_ifs
    · rfl
    · exact hbacked.tail pos (hgrow.trans hpos)) h
  exact ⟨_, nodes, heffect, hbacked', rfl, by rw [h.dev, hbytes]⟩

theorem zeroRangeExtents_spec (hroom : Room env s) (hbacked : Backed env s i exts nodes)
    (hsize : i.fileSize ≤ maxFileSize) (hend : endOff ≤ env.totalBlocks * blockSize)
    (h : zeroRangeExtents env i off endOff mode s = (.ok r, t)) :
    ∃ i' newExts nodes', Effect env s i t i' ∧ Backed env t i' newExts nodes' ∧
      Whitened off endOff exts newExts ∧ i'.fileSize = sizeAfter mode i.fileSize endOff ∧
      i'.fileSize ≤ maxFileSize ∧ byteAt t.dev newExts = (fun pos =>
        if off ≤ pos ∧ pos < endOff then 0 else byteAt s.dev exts pos) := by
  obtain ⟨tree, hcollect, rfl, -, -⟩ := hbacked.collect
  obtain ⟨tree', u₀, hread, hrest⟩ := Call.bind_eq_ok h
  obtain ⟨rfl, rfl⟩ := collect_eq_ok hcollect (orRollback_eq_ok hread)
  obtain ⟨⟨⟩, u, hedges, hconverts⟩ := Call.bind_eq_ok hrest
  obtain ⟨newExts, v, hconvert, hcommit⟩ := Call.bind_eq_ok hconverts
  obtain ⟨⟨⟩, w, htail, hlast⟩ := Call.bind_eq_ok hcommit
  have hzeroes := zeroEdges_spec env hbacked.proper (orRollback_eq_ok hedges)
  obtain ⟨hgrow, hbelow⟩ := sizeAfter_cases mode i.fileSize endOff
  have hle := hbelow.trans (max_le hsize (end_le_maxFileSize hend))
  have hzero : ∀ pos, i.fileSize ≤ pos → byteAt u.dev tree.exts pos = 0 := by
    intro pos hpos
    by_cases hedge : Edge off endOff pos
    · exact hzeroes.inside pos hedge
    · rw [hzeroes.outside pos hedge]
      exact hbacked.tail pos hpos
  by_cases hmiddle : blocksFor off < endOff / blockSize
  · rw [if_pos hmiddle] at hlast
    obtain ⟨new, hconv⟩ := convertRange_spec hmiddle hbacked.proper
      (fun b hb => hzeroes.works.not_free (hbacked.own b (.inr hb)).taken)
      (orRollback_eq_ok hconvert)
    obtain ⟨hworks, hsee⟩ := zeroGrownTail_spec env hbacked.proper (hconv.dev.symm ▸ hzero)
      htail
    obtain ⟨i', nodes', heffect, hbacked', hfinal, hbytes⟩ :=
      hconv.commit hroom hbacked hzeroes hworks hsee hend (j := zeroStamped env i endOff mode) hgrow hle rfl rfl rfl
        hcollect hlast
    exact ⟨i', newExts, nodes', heffect, hbacked', hconv.whitened, hfinal, hfinal.trans_le hle,
      hbytes⟩
  · rw [if_neg hmiddle] at hlast
    have hnone : ∀ k, ¬Inner off endOff k := by
      intro k hk
      rw [inner_iff_full] at hk
      omega
    unfold convertRange at hconvert
    rw [if_neg hmiddle] at hconvert
    obtain ⟨rfl, rfl⟩ := Call.pure_eq_ok (orRollback_eq_ok hconvert)
    obtain ⟨hworks, hsee⟩ := zeroGrownTail_spec env hbacked.proper hzero htail
    have hwhite := Whitened.refl hbacked.proper hnone
    obtain ⟨i', nodes', heffect, hbacked', hfinal, hbytes⟩ :=
      hzeroes.commit hbacked hwhite hworks hsee hgrow (commits_writeInodeOwned hlast)
    exact ⟨i', tree.exts, nodes', heffect, hbacked', hwhite, hfinal, hfinal.trans_le hle, hbytes⟩

/-- What the operation does to the blocks of the file: those inside the range are unwritten
blocks, in their old places if they had one, and the others are as before. The bytes of an
inode may have moved to a block. -/
structure Zeroed (s : FS) (ino off endOff : ℕ) (t : FS) : Prop where
  inner : ∀ k, Inner off endOff k → ∃ p, Leads t (t.inodes ino) k p extentFlagUnwritten ∧
    ∀ q g, Leads s (s.inodes ino) k q g → q = p
  kept : ∀ k p f, ¬Inner off endOff k → Leads s (s.inodes ino) k p f →
    Leads t (t.inodes ino) k p f
  only : ¬isInlineData (s.inodes ino) → ∀ k p f, ¬Inner off endOff k →
    Leads t (t.inodes ino) k p f → Leads s (s.inodes ino) k p f
  sorted : ∃ tree, collectExtentTree t.dev (t.inodes ino) = .ok tree ∧ Sorted tree.exts

theorem FileOk.sorted (h : FileOk env s i) :
    ∃ tree, collectExtentTree s.dev i = .ok tree ∧ Sorted tree.exts := by
  rcases h.form with hin | ⟨exts, nodes, hbacked⟩
  · exact ⟨{}, if_pos hin.flag, Pieces.ordered_nil⟩
  · obtain ⟨tree, hcollect, rfl, -, -⟩ := hbacked.collect
    exact ⟨tree, hcollect, hbacked.proper.sorted⟩

theorem Opened.zeroed_inline (h : Opened env s ino i u) (hin : Inlined i)
    (hout : Outcome env s ino n out t)
    (hinner : ∀ k, Inner off endOff k → ∃ p, Leads t (t.inodes ino) k p extentFlagUnwritten) :
    Zeroed s ino off endOff t := by
  have hnone : ∀ k p f, ¬Leads s (s.inodes ino) k p f := fun k p f hk =>
    hin.not_owned (h.leads_iff.mpr hk).owned
  have hflag : isInlineData (s.inodes ino) := by
    have hsame := h.same.trans (h.calm.same ino h.regular)
    rw [SameFile] at hsame
    rw [hsame] at hin
    exact hin.flag
  refine ⟨fun k hk => ?_, fun k p f _ hk => absurd hk (hnone k p f),
    fun hdata => absurd hflag hdata, (hout.ok.file ino hout.file).sorted⟩
  obtain ⟨p, hp⟩ := hinner k hk
  exact ⟨p, hp, fun q g hq => absurd hq (hnone k q g)⟩

theorem zeroRangeInline_spec (h : Opened env s ino i u) (hin : Inlined i)
    (hend : endOff ≤ inlineDataMax) (hcall : zeroRangeInline env i off endOff mode u = (.ok r, t)) :
    Outcome env s ino (sizeAfter mode i.fileSize endOff)
      (fun pos => if off ≤ pos ∧ pos < endOff then 0 else inlineData i pos) t := by
  have hcases := sizeAfter_cases mode i.fileSize endOff
  have hshort : sizeAfter mode i.fileSize endOff ≤ inlineDataMax :=
    hcases.2.trans (max_le hin.short hend)
  have hcommits : Commits env u _ (fun _ => False) t := commits_writeInodeOwned hcall
  rw [← hin.clearRange_eq]
  split_ifs at hcommits with hsome
  · refine (h.patched (C := fun _ => False) hin hshort ?_ hcommits).1
    intro pos hpos
    rw [clearRange, hin.tail pos (hcases.1.trans hpos), ite_self]
  · have hsame : clearRange (inlineData i) off (min endOff i.fileSize) = inlineData i := by
      funext pos
      rw [clearRange, if_neg (by omega)]
    rw [hsame]
    have hj : Inlined (zeroStamped env i endOff mode) :=
      ⟨hin.flag, hshort, fun pos hpos => hin.tail pos (hcases.1.trans hpos)⟩
    exact (h.inlined (C := fun _ => False) hin hj rfl rfl (fun hneat _ => hneat hin.flag)
      hcommits).1

theorem Opened.zeroed_backed (h : Opened env s ino i u) (hbacked : Backed env u i exts nodes)
    (heffect : Effect env u i t i') (hbacked' : Backed env t i' newExts nodes')
    (hwhite : Whitened off endOff exts newExts) (hout : Outcome env s ino n out t) :
    Zeroed s ino off endOff t := by
  have hself := h.self heffect
  have hold : ∀ k p f, Leads s (s.inodes ino) k p f ↔ Maps exts k p f := fun k p f =>
    h.leads_iff.symm.trans hbacked.leads_iff
  have hnew : ∀ k p f, Leads t (t.inodes ino) k p f ↔ Maps newExts k p f := fun k p f => by
    rw [hself]
    exact hbacked'.leads_iff
  refine ⟨fun k hk => ?_, fun k p f hk hlead => ?_, fun _ k p f hk hlead => ?_,
    (hout.ok.file ino hout.file).sorted⟩
  · obtain ⟨p, hp⟩ := hwhite.inner k hk
    refine ⟨p, (hnew _ _ _).mpr hp, fun q g hq => ?_⟩
    obtain ⟨g', hq'⟩ := hwhite.kept k q g ((hold _ _ _).mp hq)
    exact hwhite.proper.place hq' hp
  · exact (hnew _ _ _).mpr ((hwhite.outer k p f hk).mpr ((hold _ _ _).mp hlead))
  · exact (hold _ _ _).mpr ((hwhite.outer k p f hk).mp ((hnew _ _ _).mp hlead))

theorem zeroRangeOp_spec (h : Opened env s ino i u)
    (hend : off + size ≤ env.totalBlocks * blockSize)
    (hcall : zeroRangeOp env i off size mode u = (.ok r, t)) :
    Outcome env s ino (sizeAfter mode (s.inodes ino).fileSize (off + size))
        (fun pos => if off ≤ pos ∧ pos < off + size then 0 else content s (s.inodes ino) pos) t ∧
      Zeroed s ino off (off + size) t := by
  have hfile := h.fileOk
  rw [← h.fileSize, ← h.content_eq]
  unfold zeroRangeOp at hcall
  rcases hfile.form with hin | ⟨exts, nodes, hbacked⟩
  · rw [if_pos hin.flag] at hcall
    rw [hin.content_eq]
    split_ifs at hcall with hfit
    · have hout := zeroRangeInline_spec h hin hfit hcall
      refine ⟨hout, h.zeroed_inline hin hout fun k hk => ?_⟩
      have hmax : inlineDataMax = 256 := rfl
      simp only [Inner, blockSize] at hk
      omega
    · obtain ⟨j, v, hpromote, hcall⟩ := Call.bind_eq_ok hcall
      obtain ⟨exts, hlifted⟩ := hin.small.lifted h.ok.room (orRollback_eq_ok hpromote)
      obtain ⟨i', newExts, nodes', heffect, hbacked', hwhite, hsize', hmax, hbytes'⟩ :=
        zeroRangeExtents_spec hlifted.room hlifted.backed (hlifted.size.trans_le hfile.size) hend
          hcall
      have heffect' := hlifted.effect t i' heffect fun b hb => by
        obtain ⟨k, f, hk⟩ := hb
        obtain ⟨g, hk'⟩ := hwhite.kept k b f hk
        exact hbacked'.owned_iff.mpr (.inr ⟨k, g, hk'⟩)
      have hout := h.outcome_backed heffect' hbacked' hmax
      rw [hsize', hlifted.size, hbytes', hlifted.bytes, hin.content_eq] at hout
      refine ⟨hout, h.zeroed_inline hin hout fun k hk => ?_⟩
      obtain ⟨p, hp⟩ := hwhite.inner k hk
      exact ⟨p, h.self heffect' ▸ hbacked'.leads_iff.mpr hp⟩
  · rw [if_neg hbacked.data] at hcall
    obtain ⟨i', newExts, nodes', heffect, hbacked', hwhite, hsize', hmax, hbytes'⟩ :=
      zeroRangeExtents_spec h.ok.room hbacked hfile.size hend hcall
    have hout := h.outcome_backed heffect hbacked' hmax
    rw [hsize', hbytes', ← hbacked.content_eq] at hout
    exact ⟨hout, h.zeroed_backed hbacked heffect hbacked' hwhite hout⟩

end Briefs.File
