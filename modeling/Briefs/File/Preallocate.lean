import Briefs.Alloc.Taken
import Briefs.File.Write

/-!
# Preallocation

`allocUnwrittenHole` and `preallocate`: the holes of a range are filled with unwritten
blocks, one run for a hole where the bitmap has one and harvested runs where it has not.
-/

namespace Briefs.File

open Lib Alloc Btree
open Bridge (BlockRun RunAccum)
open Dir (inodeFlagIndexed)

section Calls

variable (env : Env)

/-- `AllocBlocks`; 0 where no run is long enough. -/
def allocRun (n : ℕ) : Call FS ℕ := fun s =>
  match s.dataAlloc.allocBlocks n with
  | (rel, a) =>
    if rel = 0 then (.ok 0, { s with dataAlloc := a })
    else (.ok rel, { s with dataAlloc := a, allocated := s.allocated.addRun rel n })

/-- `AllocRunsUpTo`; no run is an error. -/
def allocRuns (n : ℕ) : Call FS (List (ℕ × ℕ)) := fun s =>
  match s.dataAlloc.allocRunsUpTo n with
  | (runs, a) =>
    if runs = [] then (.error (.errno .enospc), { s with dataAlloc := a })
    else (.ok runs, { s with
      dataAlloc := a, allocated := runs.foldl (fun acc r => acc.addRun r.1 r.2) s.allocated })

/-- Runs as unwritten extents, one behind the other. -/
def layRuns : ℕ → List (ℕ × ℕ) → List Extent
  | _, [] => []
  | blk, r :: runs =>
    ⟨blk, env.dataRegionStart + r.1, r.2, extentFlagUnwritten⟩ :: layRuns (blk + r.2) runs

/-- The loop of `allocUnwrittenHole`. Each round takes a block at least. -/
def harvestHole (endBlk : ℕ) : ℕ → ℕ → Call FS (List Extent)
  | 0, _ => pure []
  | fuel + 1, blk =>
    if endBlk ≤ blk then pure []
    else do
      let runs ← allocRuns (endBlk - blk)
      let exts ← harvestHole endBlk fuel (blk + (runs.map Prod.snd).sum)
      pure (layRuns env blk runs ++ exts)

def allocUnwrittenHole (startBlk endBlk : ℕ) : Call FS (List Extent) := do
  let rel ← allocRun (endBlk - startBlk)
  if rel ≠ 0 then
    pure [⟨startBlk, env.dataRegionStart + rel, endBlk - startBlk, extentFlagUnwritten⟩]
  else harvestHole env endBlk (endBlk - startBlk) startBlk

/-- The end of the hole from `h` on, at `endBlk` at the latest. -/
def holeEnd (exts : List Extent) (endBlk : ℕ) : ℕ → ℕ → ℕ
  | 0, h => h
  | fuel + 1, h =>
    if endBlk ≤ h then h
    else if (lookupExtent exts h).isSome then h
    else holeEnd exts endBlk fuel (h + 1)

/-- The loop of `preallocate`. -/
def fillHoles (endBlk : ℕ) : ℕ → ℕ → List Extent → Call FS (List Extent)
  | 0, _, exts => pure exts
  | fuel + 1, blk, exts =>
    if endBlk ≤ blk then pure exts
    else if (lookupExtent exts blk).isSome then fillHoles endBlk fuel (blk + 1) exts
    else do
      let h := holeEnd exts endBlk (endBlk - (blk + 1)) (blk + 1)
      let raw ← allocUnwrittenHole env blk h
      fillHoles endBlk fuel h (insertAll exts raw)

def fallocKeepSize : ℕ := 0x01

def keepsSize (mode : ℕ) : Prop := mode &&& fallocKeepSize ≠ 0

instance (mode : ℕ) : Decidable (keepsSize mode) := inferInstanceAs (Decidable (_ ≠ _))

/-- The size that an operation up to `endOff` leaves. -/
def sizeAfter (mode oldSize endOff : ℕ) : ℕ :=
  if ¬keepsSize mode ∧ oldSize < endOff then endOff else oldSize

def preallocate (i : Inode) (start endOff mode : ℕ) : Call FS Unit := do
  let startBlk := start / blockSize
  let endBlk := (endOff + blockSize - 1) / blockSize
  let tree ← collect i
  let exts ← orRollback (fillHoles env endBlk (endBlk - startBlk) startBlk tree.exts)
  commitRebuiltExtents env (resized env i (sizeAfter mode i.fileSize endOff)) tree exts []

end Calls

variable {env : Env} {s t u : FS} {i i' j : Inode} {exts exts' raw : List Extent}
  {nodes new more : List ℕ} {W : ℕ → Prop} {b k p f pos startBlk endBlk blk n : ℕ}

/-! ### Runs -/

/-- New blocks for the hole from `startBlk` up to `endBlk`. -/
structure Fills (env : Env) (s : FS) (startBlk endBlk : ℕ) (raw : List Extent) (new : List ℕ)
    (u : FS) : Prop where
  works : ∀ W, Works env s new W u
  dev : u.dev = s.dev
  proper : Proper raw
  blocks : ∀ b, Mapped raw b ↔ b ∈ new
  covers : ∀ k, (∃ p f, Maps raw k p f) ↔ startBlk ≤ k ∧ k < endBlk
  unwritten : ∀ k p f, Maps raw k p f → f = extentFlagUnwritten

theorem Fills.nil (s : FS) (h : endBlk ≤ startBlk) : Fills env s startBlk endBlk [] [] s where
  works := fun _ => Works.refl _ _
  dev := rfl
  proper := proper_nil
  blocks := fun _ => iff_of_false mapped_nil List.not_mem_nil
  covers := fun k => iff_of_false (fun ⟨_, _, hk⟩ => Pieces.at_nil hk) (by omega)
  unwritten := fun _ _ _ hk => absurd hk Pieces.at_nil

theorem Fills.append {mid : ℕ} {raw' : List Extent} (h : Fills env s startBlk mid raw new u)
    (h' : Fills env u mid endBlk raw' more t) (hstart : startBlk ≤ mid) (hend : mid ≤ endBlk) :
    Fills env s startBlk endBlk (raw ++ raw') (new ++ more) t := by
  have hproper : Proper (raw ++ raw') := by
    refine h.proper.append h'.proper ?_ ?_
    · intro k p f k' p' f' hk hk'
      have hmid := (h.covers k).mp ⟨p, f, hk⟩
      have hmid' := (h'.covers k').mp ⟨p', f', hk'⟩
      omega
    · intro b hb hb'
      have hnew := (h.works fun _ => False).taken b ((h.blocks b).mp hb)
      exact hnew ((h'.works fun _ => False).free b ((h'.blocks b).mp hb'))
  refine ⟨fun W => (h.works W).trans (h'.works W), h'.dev.trans h.dev, hproper, ?_, ?_, ?_⟩
  · intro b
    rw [List.mem_append, ← h.blocks, ← h'.blocks]
    simp only [Mapped, maps_append, exists_or]
  · intro k
    simp only [maps_append, exists_or, h.covers, h'.covers]
    omega
  · intro k p f hk
    rcases maps_append.mp hk with hk | hk
    · exact h.unwritten k p f hk
    · exact h'.unwritten k p f hk

def runRels (runs : List (ℕ × ℕ)) : List ℕ := runs.flatMap fun r => List.range' r.1 r.2

theorem mem_runRels {runs : List (ℕ × ℕ)} {rel : ℕ} :
    rel ∈ runRels runs ↔ ∃ r ∈ runs, r.1 ≤ rel ∧ rel < r.1 + r.2 := by
  simp only [runRels, List.mem_flatMap, List.mem_range'_1]

theorem nodup_runRels {runs : List (ℕ × ℕ)} (h : runs.Pairwise fun r s => r.1 + r.2 ≤ s.1) :
    (runRels runs).Nodup := by
  refine List.nodup_flatMap.mpr ⟨fun r _ => List.nodup_range', h.imp ?_⟩
  intro r s hrs rel hr hs
  rw [List.mem_range'_1] at hr hs
  omega

theorem blocks_addRuns (runs : List (ℕ × ℕ)) (acc : RunAccum) :
    (runs.foldl (fun acc r => acc.addRun r.1 r.2) acc).blocks = acc.blocks ++ runRels runs := by
  induction runs generalizing acc with
  | nil => simp [runRels]
  | cons r runs ih =>
    rw [List.foldl_cons, ih, RunAccum.blocks_addRun, List.append_assoc]
    rfl

theorem offset_layRuns {runs : List (ℕ × ℕ)} : ∀ e ∈ layRuns env blk runs, blk ≤ e.offset := by
  induction runs generalizing blk with
  | nil => exact fun _ he => absurd he List.not_mem_nil
  | cons r runs ih =>
    intro e he
    rcases List.mem_cons.mp he with rfl | he
    · exact le_rfl
    · exact (Nat.le_add_right _ _).trans (ih e he)

/-- What runs, laid one behind the other, lead to. -/
theorem layRuns_spec (env : Env) (blk : ℕ) {runs : List (ℕ × ℕ)} (hpos : ∀ r ∈ runs, 0 < r.2 ∧ r.1 ≠ 0)
    (hsorted : runs.Pairwise fun r s => r.1 + r.2 ≤ s.1) :
    Proper (layRuns env blk runs) ∧
      (∀ b, Mapped (layRuns env blk runs) b ↔
        b ∈ (runRels runs).map (env.dataRegionStart + ·)) ∧
      (∀ k, (∃ p f, Maps (layRuns env blk runs) k p f) ↔
        blk ≤ k ∧ k < blk + (runs.map Prod.snd).sum) ∧
      ∀ k p f, Maps (layRuns env blk runs) k p f → f = extentFlagUnwritten := by
  induction runs generalizing blk with
  | nil =>
    refine ⟨proper_nil, fun b => iff_of_false mapped_nil List.not_mem_nil, fun k => ?_, ?_⟩
    · exact iff_of_false (fun ⟨_, _, hk⟩ => Pieces.at_nil hk) (by simp)
    · exact fun _ _ _ hk => absurd hk Pieces.at_nil
  | cons r runs ih =>
    obtain ⟨⟨hr, hrel⟩, hpos⟩ := List.forall_mem_cons.mp hpos
    obtain ⟨hafter, hsorted⟩ := List.pairwise_cons.mp hsorted
    obtain ⟨hproper, hblocks, hcovers, hflags⟩ := ih (blk + r.2) hpos hsorted
    have hfirst : ∀ k p f, Maps [⟨blk, env.dataRegionStart + r.1, r.2, extentFlagUnwritten⟩] k p f ↔
        (blk ≤ k ∧ k < blk + r.2) ∧ p = env.dataRegionStart + r.1 + (k - blk) ∧
          f = extentFlagUnwritten := by
      intro k p f
      rw [maps_single]
      simp only [Extent.stop, Extent.place]
      omega
    have hcons : ∀ k p f, Maps (layRuns env blk (r :: runs)) k p f ↔
        Maps [⟨blk, env.dataRegionStart + r.1, r.2, extentFlagUnwritten⟩] k p f ∨
          Maps (layRuns env (blk + r.2) runs) k p f := fun k p f =>
      maps_append (l := [⟨blk, env.dataRegionStart + r.1, r.2, extentFlagUnwritten⟩])
    have hsort : Sorted (layRuns env blk (r :: runs)) :=
      Pieces.ordered_cons.mpr ⟨Nat.lt_add_of_pos_right hr, offset_layRuns, hproper.sorted⟩
    refine ⟨?_, ?_, ?_, ?_⟩
    · refine (proper_single hr (.inr rfl) (by simp; omega)).union hproper hsort hcons ?_
      intro k p f k' f' hk hk'
      obtain ⟨hk, hp, -⟩ := (hfirst k p f).mp hk
      obtain ⟨rel, hrel', heq⟩ := List.mem_map.mp ((hblocks p).mp ⟨k', f', hk'⟩)
      obtain ⟨x, hx, hlow, hhigh⟩ := mem_runRels.mp hrel'
      have := hafter x hx
      omega
    · intro b
      have hsplit : runRels (r :: runs) = List.range' r.1 r.2 ++ runRels runs := rfl
      rw [hsplit, List.map_append, List.mem_append, ← hblocks]
      simp only [Mapped, hcons, exists_or]
      refine or_congr_left ?_
      constructor
      · rintro ⟨k, f, hk⟩
        obtain ⟨hk, rfl, -⟩ := (hfirst k b f).mp hk
        exact List.mem_map.mpr ⟨r.1 + (k - blk), List.mem_range'_1.mpr (by omega), by omega⟩
      · intro hb
        obtain ⟨rel, hrel, rfl⟩ := List.mem_map.mp hb
        rw [List.mem_range'_1] at hrel
        exact ⟨blk + (rel - r.1), _, (hfirst _ _ _).mpr ⟨by omega, by omega, rfl⟩⟩
    · intro k
      simp only [hcons, exists_or, hcovers, List.map_cons, List.sum_cons]
      constructor
      · rintro (⟨p, f, hk⟩ | hk)
        · have := ((hfirst k p f).mp hk).1
          omega
        · omega
      · intro hk
        by_cases hlt : k < blk + r.2
        · exact .inl ⟨_, _, (hfirst k _ _).mpr ⟨⟨hk.1, hlt⟩, rfl, rfl⟩⟩
        · exact .inr (by omega)
    · intro k p f hk
      rcases (hcons k p f).mp hk with hk | hk
      · exact ((hfirst k p f).mp hk).2.2
      · exact hflags k p f hk

theorem fills_runs (env : Env) (blk : ℕ) (runs : List (ℕ × ℕ)) {a : Allocator} {acc : RunAccum}
    (hruns : ∀ r ∈ runs, 0 < r.2 ∧ ∀ rel, r.1 ≤ rel → rel < r.1 + r.2 →
      rel ≠ 0 ∧ s.dataAlloc.isFree rel = true ∧ a.isFree rel = false)
    (hsorted : runs.Pairwise fun r s => r.1 + r.2 ≤ s.1)
    (hshrinks : ∀ rel, a.isFree rel = true → s.dataAlloc.isFree rel = true)
    (hshield : a.metaShield = s.dataAlloc.metaShield)
    (hacc : acc.blocks = s.allocated.blocks ++ runRels runs) :
    Fills env s blk (blk + (runs.map Prod.snd).sum) (layRuns env blk runs)
      ((runRels runs).map (env.dataRegionStart + ·)) { s with dataAlloc := a, allocated := acc } := by
  have hpos : ∀ r ∈ runs, 0 < r.2 ∧ r.1 ≠ 0 := by
    intro r hr
    obtain ⟨hlen, hrels⟩ := hruns r hr
    exact ⟨hlen, (hrels r.1 le_rfl (by omega)).1⟩
  obtain ⟨hproper, hblocks, hcovers, hflags⟩ := layRuns_spec env blk hpos hsorted
  refine ⟨fun W => works_take (nodup_runRels hsorted) ?_ hshrinks hshield hacc, rfl, hproper,
    hblocks, hcovers, hflags⟩
  intro rel hrel
  obtain ⟨r, hr, hlow, hhigh⟩ := mem_runRels.mp hrel
  exact (hruns r hr).2 rel hlow hhigh

theorem harvestHole_spec {fuel : ℕ} (hblk : blk ≤ endBlk) (hfuel : endBlk - blk ≤ fuel)
    (h : harvestHole env endBlk fuel blk s = (.ok raw, u)) :
    ∃ new, Fills env s blk endBlk raw new u := by
  induction fuel generalizing blk raw s with
  | zero =>
    obtain ⟨rfl, rfl⟩ := Call.pure_eq_ok h
    exact ⟨[], Fills.nil s (by omega)⟩
  | succ fuel ih =>
    rw [harvestHole] at h
    by_cases hdone : endBlk ≤ blk
    · rw [if_pos hdone] at h
      obtain ⟨rfl, rfl⟩ := Call.pure_eq_ok h
      exact ⟨[], Fills.nil s hdone⟩
    rw [if_neg hdone] at h
    obtain ⟨runs, v, hruns, h⟩ := Call.bind_eq_ok h
    obtain ⟨rest, w, hrest, h⟩ := Call.bind_eq_ok h
    obtain ⟨rfl, rfl⟩ := Call.pure_eq_ok h
    obtain ⟨hshrinks, hshield, hfree, hsorted, hsum⟩ :=
      s.dataAlloc.allocRunsUpTo_spec (endBlk - blk)
    unfold allocRuns at hruns
    rcases hres : s.dataAlloc.allocRunsUpTo (endBlk - blk) with ⟨found, a⟩
    rw [hres] at hruns hshrinks hshield hfree hsorted hsum
    dsimp only at hruns hshrinks hshield hfree hsorted hsum
    split_ifs at hruns with hnone
    · exact absurd (Prod.mk.inj hruns).1 (by simp)
    cases hruns
    have hfirst := fills_runs env blk runs hfree hsorted hshrinks hshield
      (blocks_addRuns runs s.allocated)
    obtain ⟨r, hr⟩ := List.exists_mem_of_ne_nil runs hnone
    have hgrow : r.2 ≤ (runs.map Prod.snd).sum :=
      List.single_le_sum (fun _ _ => Nat.zero_le _) _ (List.mem_map_of_mem hr)
    have := (hfree r hr).1
    obtain ⟨more, hmore⟩ := ih (by omega) (by omega) hrest
    exact ⟨_, hfirst.append hmore (by omega) (by omega)⟩

theorem allocUnwrittenHole_spec (hlt : startBlk < endBlk)
    (h : allocUnwrittenHole env startBlk endBlk s = (.ok raw, u)) :
    ∃ new, Fills env s startBlk endBlk raw new u := by
  obtain ⟨rel, v, hrun, h⟩ := Call.bind_eq_ok h
  obtain ⟨hshrinks, hshield, hfree⟩ := s.dataAlloc.allocBlocks_spec (endBlk - startBlk)
  unfold allocRun at hrun
  rcases hres : s.dataAlloc.allocBlocks (endBlk - startBlk) with ⟨first, a⟩
  rw [hres] at hrun hshrinks hshield hfree
  dsimp only at hrun hshrinks hshield hfree
  split_ifs at hrun with hzero
  · cases hrun
    rw [if_neg (by simp)] at h
    have hkeep : s.allocated.blocks = s.allocated.blocks ++ [] := (List.append_nil _).symm
    have hnone : ∀ W, Works env s [] W { s with dataAlloc := a } := fun W =>
      works_take List.nodup_nil (by simp) hshrinks hshield hkeep
    obtain ⟨new, hfills⟩ := harvestHole_spec hlt.le le_rfl h
    exact ⟨new, { hfills with works := fun W => (hnone W).trans (hfills.works W) }⟩
  · cases hrun
    rw [if_pos hzero] at h
    obtain ⟨rfl, rfl⟩ := Call.pure_eq_ok h
    obtain ⟨hn, hrels⟩ := hfree hzero
    have hacc : (s.allocated.addRun rel (endBlk - startBlk)).blocks =
        s.allocated.blocks ++ runRels [(rel, endBlk - startBlk)] := by
      rw [RunAccum.blocks_addRun]
      simp [runRels]
    have hfills := fills_runs env startBlk [(rel, endBlk - startBlk)] (by
      intro r hr
      obtain rfl := List.mem_singleton.mp hr
      exact ⟨hn, fun x hlow hhigh => ⟨by dsimp only at hlow; omega, hrels x hlow hhigh⟩⟩)
      (List.pairwise_singleton _ _) hshrinks hshield hacc
    have hsum : startBlk + ([(rel, endBlk - startBlk)].map Prod.snd).sum = endBlk := by
      simp only [List.map_cons, List.map_nil, List.sum_cons, List.sum_nil]
      omega
    rw [hsum] at hfills
    exact ⟨_, hfills⟩

/-! ### Filling -/

theorem gap_of_lookup (hs : Sorted exts) (h : (lookupExtent exts k).isSome = false) :
    blockMap.Gap exts k := by
  refine hs.locate_eq_none.mp ?_
  rw [← Option.not_isSome_iff_eq_none, Bool.not_eq_true]
  exact h

theorem holeEnd_spec (fuel h : ℕ) (hs : Sorted exts) (hle : h ≤ endBlk) :
    h ≤ holeEnd exts endBlk fuel h ∧ holeEnd exts endBlk fuel h ≤ endBlk ∧
      ∀ k, h ≤ k → k < holeEnd exts endBlk fuel h → blockMap.Gap exts k := by
  induction fuel generalizing h with
  | zero => exact ⟨le_rfl, hle, fun k hlow hhigh => absurd (hlow.trans_lt hhigh) (lt_irrefl _)⟩
  | succ fuel ih =>
    rw [holeEnd]
    split_ifs with hdone hmapped
    · exact ⟨le_rfl, hle, fun k hlow hhigh => absurd (hlow.trans_lt hhigh) (lt_irrefl _)⟩
    · exact ⟨le_rfl, hle, fun k hlow hhigh => absurd (hlow.trans_lt hhigh) (lt_irrefl _)⟩
    · obtain ⟨hlow, hhigh, hgap⟩ := ih (h + 1) (Nat.not_le.mp hdone)
      refine ⟨(Nat.le_succ h).trans hlow, hhigh, fun k hk hk' => ?_⟩
      rcases Nat.eq_or_lt_of_le hk with rfl | hk
      · exact gap_of_lookup hs (Bool.not_eq_true _ ▸ hmapped)
      · exact hgap k hk hk'

/-- The blocks from `blk` up to `endBlk` that had none have an unwritten block now; the
others are as before. -/
structure Filled (env : Env) (s : FS) (exts : List Extent) (blk endBlk : ℕ) (u : FS)
    (exts' : List Extent) (new : List ℕ) : Prop where
  grows : Grows env s exts u exts' new
  dev : u.dev = s.dev
  kept : ∀ k p f, Maps exts k p f → Maps exts' k p f
  added : ∀ k p f, Maps exts' k p f →
    Maps exts k p f ∨ (blk ≤ k ∧ k < endBlk) ∧ f = extentFlagUnwritten
  covers : ∀ k, blk ≤ k → k < endBlk → ∃ p f, Maps exts' k p f

theorem Filled.refl (s : FS) (h : Proper exts) (hle : endBlk ≤ blk) :
    Filled env s exts blk endBlk s exts [] :=
  ⟨Grows.refl s h, rfl, fun _ _ _ => id, fun _ _ _ => .inl, fun k hlow hhigh => by omega⟩

theorem Filled.bytes (h : Filled env s exts blk endBlk u exts' new) (hexts : Proper exts) :
    byteAt u.dev exts' = byteAt s.dev exts := by
  funext pos
  rw [h.dev]
  rcases maps_or_gap exts (pos / blockSize) with ⟨p, f, hk⟩ | hgap
  · rw [byteAt_of_maps hexts hk, byteAt_of_maps h.grows.proper (h.kept _ p f hk)]
  · rw [byteAt_of_gap hexts hgap]
    rcases maps_or_gap exts' (pos / blockSize) with ⟨p, f, hk⟩ | hgap'
    · obtain ⟨-, rfl⟩ := (h.added _ p f hk).resolve_left (hgap p f)
      rw [byteAt_of_maps h.grows.proper hk]
      rfl
    · exact byteAt_of_gap h.grows.proper hgap'

theorem fillHoles_spec {fuel : ℕ} (hexts : Proper exts)
    (hfree : ∀ b, Mapped exts b → ¬Free env s b) (hfuel : endBlk - blk ≤ fuel)
    (h : fillHoles env endBlk fuel blk exts s = (.ok exts', u)) :
    ∃ new, Filled env s exts blk endBlk u exts' new := by
  induction fuel generalizing blk exts s with
  | zero =>
    obtain ⟨rfl, rfl⟩ := Call.pure_eq_ok h
    exact ⟨[], Filled.refl s hexts (by omega)⟩
  | succ fuel ih =>
    rw [fillHoles] at h
    by_cases hdone : endBlk ≤ blk
    · rw [if_pos hdone] at h
      obtain ⟨rfl, rfl⟩ := Call.pure_eq_ok h
      exact ⟨[], Filled.refl s hexts hdone⟩
    rw [if_neg hdone] at h
    cases hmapped : (lookupExtent exts blk).isSome with
    | true =>
      rw [hmapped, if_pos rfl] at h
      obtain ⟨new, hfilled⟩ := ih hexts hfree (by omega) h
      obtain ⟨e, he⟩ := Option.isSome_iff_exists.mp hmapped
      obtain ⟨-, -, hmaps⟩ := maps_of_lookup hexts.sorted he
      refine ⟨new, { hfilled with added := ?_, covers := ?_ }⟩
      · intro k p f hk
        refine (hfilled.added k p f hk).imp_right fun hk => ⟨by omega, hk.2⟩
      · intro k hlow hhigh
        rcases Nat.eq_or_lt_of_le hlow with rfl | hlow
        · exact ⟨_, _, hfilled.kept _ _ _ hmaps⟩
        · exact hfilled.covers k hlow hhigh
    | false =>
      rw [hmapped, if_neg Bool.false_ne_true] at h
      obtain ⟨raw, v, halloc, h⟩ := Call.bind_eq_ok h
      obtain ⟨hlow, hhigh, hgaps⟩ := holeEnd_spec (endBlk - (blk + 1)) (blk + 1)
        hexts.sorted (Nat.not_le.mp hdone)
      generalize holeEnd exts endBlk (endBlk - (blk + 1)) (blk + 1) = e at *
      have hgap : ∀ k, blk ≤ k → k < e → blockMap.Gap exts k := by
        intro k hk hk'
        rcases Nat.eq_or_lt_of_le hk with rfl | hk
        · exact gap_of_lookup hexts.sorted hmapped
        · exact hgaps k hk hk'
      obtain ⟨new, hfills⟩ := allocUnwrittenHole_spec hlow halloc
      obtain ⟨hgrows, hmaps⟩ := grows_insertAll raw (hfills.works _) hexts hfree hfills.proper
        hfills.blocks fun x hx k hk hk' => by
          have hin := (hfills.covers k).mp ⟨_, _, x, hx, ⟨hk, hk'⟩, rfl⟩
          exact hgap k hin.1 hin.2
      obtain ⟨more, hmore⟩ := ih hgrows.proper (fun b hb => hgrows.not_free hfree hb) (by omega) h
      refine ⟨new ++ more, hgrows.trans hmore.grows, hmore.dev.trans hfills.dev, ?_, ?_, ?_⟩
      · exact fun k p f hk => hmore.kept k p f ((hmaps k p f).mpr (.inl hk))
      · intro k p f hk
        rcases hmore.added k p f hk with hk | ⟨hin, hf⟩
        · rcases (hmaps k p f).mp hk with hk | hk
          · exact .inl hk
          · have hin := (hfills.covers k).mp ⟨p, f, hk⟩
            exact .inr ⟨by omega, hfills.unwritten k p f hk⟩
        · exact .inr ⟨by omega, hf⟩
      · intro k hk hk'
        by_cases hlate : e ≤ k
        · exact hmore.covers k hlate hk'
        · obtain ⟨p, f, hraw⟩ := (hfills.covers k).mpr ⟨hk, Nat.not_le.mp hlate⟩
          exact ⟨p, f, hmore.kept k p f ((hmaps k p f).mpr (.inr hraw))⟩

theorem sizeAfter_cases (mode oldSize endOff : ℕ) :
    oldSize ≤ sizeAfter mode oldSize endOff ∧ sizeAfter mode oldSize endOff ≤ max oldSize endOff := by
  unfold sizeAfter
  split_ifs <;> omega

/-- A range that fits the device ends below the largest file size. -/
theorem end_le_maxFileSize {endOff : ℕ} (h : endOff ≤ env.totalBlocks * blockSize) :
    endOff ≤ maxFileSize := by
  have hsmall := env.small
  have hmax : maxFileSize = 2 ^ 63 - 1 := rfl
  simp only [blockSize] at h
  omega

theorem preallocate_spec {start endOff mode : ℕ} {r : Unit} (hroom : Room env s)
    (hbacked : Backed env s i exts nodes) (hsize : i.fileSize ≤ maxFileSize)
    (hend : endOff ≤ env.totalBlocks * blockSize)
    (h : preallocate env i start endOff mode s = (.ok r, t)) :
    ∃ i' exts' nodes', Effect env s i t i' ∧ Backed env t i' exts' nodes' ∧
      (∀ b, Mapped exts b → Mapped exts' b) ∧
      i'.fileSize = sizeAfter mode i.fileSize endOff ∧ i'.fileSize ≤ maxFileSize ∧
      byteAt t.dev exts' = byteAt s.dev exts ∧
      (∀ k, start ≤ k * blockSize + (blockSize - 1) → k * blockSize < endOff →
        ∃ p f, Maps exts' k p f) ∧
      t.unwrittenRes = Function.update s.unwrittenRes i.inodeNumber (countUnwrittenBlocks exts') := by
  obtain ⟨tree, hcollect, rfl, -, -⟩ := hbacked.collect
  obtain ⟨tree', u₀, hcall, h⟩ := Call.bind_eq_ok h
  obtain ⟨rfl, rfl⟩ := collect_eq_ok hcollect hcall
  obtain ⟨exts', u, hfill, h⟩ := Call.bind_eq_ok h
  obtain ⟨new, hfilled⟩ := fillHoles_spec hbacked.proper
    (fun b hb => (hbacked.own b (.inr hb)).taken) le_rfl (orRollback_eq_ok hfill)
  have hcases := sizeAfter_cases mode i.fileSize endOff
  have hle : sizeAfter mode i.fileSize endOff ≤ maxFileSize :=
    hcases.2.trans (max_le hsize (end_le_maxFileSize hend))
  have hbytes := hfilled.bytes hbacked.proper
  have hstaged := hfilled.grows.staged (i := i) (j := resized env i (sizeAfter mode i.fileSize endOff)) rfl rfl rfl ?_ ?_
  · obtain ⟨i', nodes', heffect, hbacked', hsee, -, hre, hunw⟩ := hstaged.commitRebuilt hroom hbacked
      hle hcollect hfilled.grows.freed h
    have hfinal : i'.fileSize = sizeAfter mode i.fileSize endOff := by
      rw [hre.rest]
      rfl
    refine ⟨i', exts', nodes', heffect, hbacked', fun b hb => (hfilled.grows.blocks b).mpr (.inl hb),
      hfinal, hfinal.trans_le hle, hsee.trans hbytes, ?_, ?_⟩
    · intro k hlow hhigh
      refine hfilled.covers k ?_ ?_
      all_goals
        simp only [blockSize] at hlow hhigh ⊢
        omega
    · rw [hunw, hfilled.grows.works.reserved]
      rfl
  · intro k p f hk
    change k < blocksFor (sizeAfter mode i.fileSize endOff) + env.totalBlocks
    rcases hfilled.added k p f hk with hk | ⟨hin, -⟩
    · have := hbacked.bound k p f hk
      simp only [blocksFor, blockSize] at this ⊢
      omega
    · simp only [blockSize] at hin hend
      omega
  · intro pos hpos
    rw [hbytes]
    exact hbacked.tail pos (hcases.1.trans hpos)

end Briefs.File
