import Briefs.File.Frame

/-!
# The extent index of a file

`collectExtentTree`, `rebuildExtentIndex` and `rebuildExtentIndexWrite`: up to eight
extents stand in the inode, more of them in a B+ tree. A rebuild of a tree keeps the
leading leaves whose extents did not change, all but the last of them, and builds the rest
and every index node anew in blocks that were free.
-/

namespace Briefs.File

open Lib Alloc Btree
open Bridge (BlockRun RunAccum)
open Dir (inodeFlagIndexed)

/-- What a walk of the index collects: the extents, the leaves and the other nodes. -/
structure ExtentTree where
  exts : List Extent := []
  leaves : List (ℕ × List Extent) := []
  idx : List ℕ := []

def collectExtentTree (dev : ℕ → Cell) (i : Inode) : Except Err ExtentTree :=
  if isInlineData i then .ok {}
  else if ¬isIndexed i then .ok { exts := (inlineExtents i).take (min i.numExtentsInline 8) }
  else if i.extentInlineBase = 0 then .ok {}
  else
    let t := (loader dev).walkBtree false i.extentInlineBase
    let leaves := Loader.leavesOf t.nodes
    if t.faults = [] then
      .ok
        { exts := leaves.flatMap Prod.snd
          leaves := leaves
          idx := (t.nodes.map Loader.Info.block).filter fun b => b ∉ leaves.map Prod.fst }
    else .error (.text "btree node")

/-- `collectExtentTree` on the blocks of the device. -/
def collect (i : Inode) : Call FS ExtentTree := fun s => (collectExtentTree s.dev i, s)

def ExtentTree.nodes (t : ExtentTree) : List ℕ := t.leaves.map Prod.fst ++ t.idx

/-- Blocks as runs, merged one after the other. -/
def asRuns (blocks : List ℕ) : List BlockRun := (blocks.foldl RunAccum.addBlock {}).runs

def ExtentTree.allNodes (t : ExtentTree) : List BlockRun := asRuns t.nodes

/-- The number of leading chunks that are equal. -/
def equalChunks : List (List Extent) → List (List Extent) → ℕ
  | a :: as, b :: bs => if a = b then equalChunks as bs + 1 else 0
  | _, _ => 0

/-- How many leaves a rebuild keeps: the last equal one points to what follows it. -/
def reuseCount (newChunks : List (List Extent)) (oldLeaves : List (ℕ × List Extent)) : ℕ :=
  let p := equalChunks newChunks (oldLeaves.map Prod.snd)
  if 2 ≤ p then p - 1 else 0

section Calls

variable (env : Env)

def writeNodes : List (ℕ × Node) → Call FS Unit
  | [] => pure ()
  | (block, n) :: rest => do
    writeCell block (.node n)
    writeNodes rest

def rebuildExtentIndex (i : Inode) (exts : List Extent) : Call FS Inode :=
  if exts = [] then
    pure { setInlineExtents i [] with
      flags := bitClear i.flags inodeFlagIndexed
      extentInlineBase := 0
      numExtentsInline := 0
      numExtentsTotal := 0 }
  else if exts.length ≤ 8 ∧ ¬isIndexed i then
    pure { setInlineExtents i exts with
      numExtentsInline := exts.length
      numExtentsTotal := exts.length
      extentInlineBase := 0
      flags := bitClear i.flags inodeFlagIndexed }
  else do
    let leaves ← buildBtreeLeaves (allocBlock env true) exts
    let (root, idx) ← buildBtreeIndex (allocBlock env true)
      (leaves.map fun x => (x.1, firstOffset x.2.extents)) 1
    writeNodes leaves
    writeNodes idx
    pure { i with
      flags := i.flags ||| inodeFlagIndexed
      extentInlineBase := root.1
      numExtentsInline := 0
      numExtentsTotal := exts.length }

def rebuildExtentIndexWrite (i : Inode) (tree : ExtentTree) (exts : List Extent) :
    Call FS (Inode × List BlockRun) :=
  if exts = [] ∨ exts.length ≤ 8 ∧ ¬isIndexed i then do
    let i ← rebuildExtentIndex env i exts
    pure (i, tree.allNodes)
  else if ¬isIndexed i ∨ tree.leaves = [] then do
    let i ← rebuildExtentIndex env i exts
    pure (i, tree.allNodes)
  else do
    let newChunks := chunkBtreeExtents exts
    let reuse := reuseCount newChunks tree.leaves
    let fresh ← Call.times (allocBlock env true) (newChunks.length - reuse)
    let leafBlocks := (tree.leaves.take reuse).map Prod.fst ++ fresh
    writeNodes ((leafNodes leafBlocks newChunks).drop reuse)
    let (root, idx) ← buildBtreeIndex (allocBlock env true)
      (leafBlocks.zip (newChunks.map firstOffset)) 1
    writeNodes idx
    pure ({ i with
      flags := i.flags ||| inodeFlagIndexed
      extentInlineBase := root.1
      numExtentsInline := 0
      numExtentsTotal := exts.length },
      asRuns ((tree.leaves.drop reuse).map Prod.fst ++ tree.idx))

/-- `commitRebuiltExtents`. -/
def commitRebuiltExtents (i : Inode) (tree : ExtentTree) (newExts : List Extent)
    (freed : List BlockRun) : Call FS Unit := do
  let (i, oldNodes) ← orRollback (rebuildExtentIndexWrite env i tree newExts)
  updateUnwrittenRes i.inodeNumber newExts
  commitExtentChange env i freed oldNodes

end Calls

variable {env : Env} {s t u : FS} {i i' : Inode} {exts : List Extent} {nodes new : List ℕ}
  {tree : ExtentTree} {W : ℕ → Prop}

/-! ### Nodes on the device -/

theorem works_writeNodes (env : Env) {ns : List (ℕ × Node)} {r : Unit}
    (hnodup : (ns.map Prod.fst).Nodup) (h : writeNodes ns s = (.ok r, t)) :
    (∀ x ∈ ns, t.dev x.1 = .node x.2) ∧ Works env s [] (· ∈ ns.map Prod.fst) t := by
  induction ns generalizing s with
  | nil =>
    obtain ⟨-, rfl⟩ := Call.pure_eq_ok h
    exact ⟨by simp, Works.refl _ _⟩
  | cons x ns ih =>
    obtain ⟨block, n⟩ := x
    obtain ⟨hnot, hnodup⟩ := List.nodup_cons.mp hnodup
    obtain ⟨⟨⟩, v, hwrite, hrest⟩ := Call.bind_eq_ok h
    obtain ⟨hdev, hworks⟩ := works_writeCell env hwrite
    obtain ⟨hnodes, hworks'⟩ := ih hnodup hrest
    refine ⟨?_, ?_⟩
    · refine List.forall_mem_cons.mpr ⟨?_, hnodes⟩
      rw [hworks'.dev block hnot (by simp), hdev, Function.update_self]
    · refine (hworks.mono ?_).trans (hworks'.mono ?_)
      · rintro b rfl
        exact List.mem_cons_self
      · exact fun b hb => List.mem_cons_of_mem _ hb

theorem loader_eq {dev : ℕ → Cell} {b : ℕ} {n : Node} (h : dev b = .node n) :
    loader dev b = .ok n := by
  rw [loader, h]

theorem runBlocks_asRuns (blocks : List ℕ) : runBlocks (asRuns blocks) = blocks := by
  have hfold : ∀ r : RunAccum, (blocks.foldl RunAccum.addBlock r).blocks = r.blocks ++ blocks := by
    induction blocks with
    | nil => simp
    | cons b blocks ih =>
      intro r
      rw [List.foldl_cons, ih, RunAccum.addBlock, RunAccum.blocks_addRun]
      simp
  exact hfold {}

/-! ### What is stored -/

def leavesAt (dev : ℕ → Cell) (root : ℕ) : List (ℕ × List Extent) :=
  Loader.leavesOf ((loader dev).walkBtree false root).nodes

/-- The index of an inode that has no inline data: its extents and its nodes. -/
inductive Stores (dev : ℕ → Cell) (i : Inode) : List Extent → List ℕ → Prop
  | inline {exts : List Extent} : ¬isIndexed i → exts.length ≤ 8 →
      i.numExtentsInline = exts.length → (inlineExtents i).take exts.length = exts →
      (exts = [] → ∀ j, inlineData i j = 0) →
      Stores dev i exts []
  | tree {depth : ℕ} {leaves : List (ℕ × List Extent)} {nodes : List ℕ} : isIndexed i →
      leaves.flatMap Prod.snd ≠ [] → depth ≤ btreeMaxDepth →
      (loader dev).Denotes depth i.extentInlineBase leaves nodes → nodes.Nodup →
      Stores dev i (leaves.flatMap Prod.snd) nodes

/-- What a rebuild needs of the tree it starts from. -/
structure ExtentTree.Sound (dev : ℕ → Cell) (i : Inode) (tree : ExtentTree) : Prop where
  leaf : ∀ x ∈ tree.leaves, (loader dev).Denotes 0 x.1 [x] [x.1]
  nodup : tree.nodes.Nodup
  indexed : isIndexed i → tree.leaves ≠ []

theorem Stores.congr {dev dev' : ℕ → Cell} (h : Stores dev i exts nodes)
    (hsame : ∀ b ∈ nodes, dev' b = dev b) : Stores dev' i exts nodes := by
  cases h with
  | inline hidx hlen hnum hexts hzero => exact .inline hidx hlen hnum hexts hzero
  | tree hidx hne hdepth hden hnodup =>
    refine .tree hidx hne hdepth (hden.congr fun b hb => ?_) hnodup
    rw [loader, loader, hsame b hb]

theorem denotes_ne_zero {load : Loader} {depth b : ℕ} {leaves : List (ℕ × List Extent)}
    (h : load.Denotes depth b leaves nodes) : b ≠ 0 := by
  cases depth with
  | zero =>
    obtain ⟨n, hpass, -⟩ := h
    exact hpass.1
  | succ depth =>
    obtain ⟨n, parts, hpass, -⟩ := h
    exact hpass.1

theorem collect_eq_ok {tree' : ExtentTree} (hcollect : collectExtentTree s.dev i = .ok tree)
    (h : collect i s = (.ok tree', t)) : tree = tree' ∧ s = t := by
  obtain ⟨hres, rfl⟩ := Prod.mk.inj h
  exact ⟨Except.ok.inj (hcollect.symm.trans hres), rfl⟩

theorem Stores.collect {dev : ℕ → Cell} (h : Stores dev i exts nodes) (hdata : ¬isInlineData i) :
    ∃ tree, collectExtentTree dev i = .ok tree ∧ tree.exts = exts ∧
      (∀ b, b ∈ tree.nodes ↔ b ∈ nodes) ∧ tree.Sound dev i := by
  unfold collectExtentTree
  rw [if_neg hdata]
  cases h with
  | inline hidx hlen hnum hexts hzero =>
    rw [if_pos hidx, hnum, min_eq_left hlen]
    refine ⟨_, rfl, hexts, by simp [ExtentTree.nodes], ⟨by simp, by simp [ExtentTree.nodes], ?_⟩⟩
    exact fun h => absurd h hidx
  | @tree depth leaves _ hidx hne hdepth hden hnodup =>
    have hwalk := Loader.adds_walkBtree false hden hdepth hnodup
    obtain ⟨handed, hhanded, hblocks, hleaves⟩ := hwalk.handed
    rw [List.nil_append] at hhanded
    have hbase : i.extentInlineBase ≠ 0 := denotes_ne_zero hden
    rw [if_neg (not_not.mpr hidx), if_neg hbase]
    simp only [hwalk.faults, if_true, hhanded, hblocks, hleaves]
    have hsub : ∀ x ∈ leaves, x.1 ∈ nodes := fun x hx => (denotes_leaf hden hx).2
    refine ⟨_, rfl, rfl, ?_, ⟨fun x hx => (denotes_leaf hden hx).1, ?_, ?_⟩⟩
    · intro b
      simp only [ExtentTree.nodes, List.mem_append, List.mem_filter, decide_eq_true_eq]
      constructor
      · rintro (hb | hb)
        · obtain ⟨x, hx, rfl⟩ := List.mem_map.mp hb
          exact hsub x hx
        · exact hb.1
      · intro hb
        by_cases hleaf : b ∈ leaves.map Prod.fst
        · exact .inl hleaf
        · exact .inr ⟨hb, hleaf⟩
    · have hleafBlocks : leaves.map Prod.fst = (handed.filter fun i => i.node.leaf).map
          Loader.Info.block := by
        rw [← hleaves, Loader.leavesOf, List.map_map]
        rfl
      have hleafNodup : (leaves.map Prod.fst).Nodup := by
        rw [hleafBlocks]
        exact (hblocks ▸ hnodup).sublist (List.filter_sublist.map _)
      refine List.nodup_append.mpr ⟨hleafNodup, hnodup.filter _, ?_⟩
      rintro a ha b hb rfl
      exact (of_decide_eq_true (List.mem_filter.mp hb).2) ha
    · rintro - rfl
      exact hne rfl

/-! ### Building the tree -/

theorem length_le_of_ascending {l : List ℕ} {n : ℕ} (h : l.Pairwise (· < ·)) (hn : ∀ x ∈ l, x < n) :
    l.length ≤ n := by
  have hsub : l ⊆ List.range n := fun x hx => List.mem_range.mpr (hn x hx)
  have := (List.subperm_of_subset (h.imp fun hlt => hlt.ne) hsub).length_le
  rwa [List.length_range] at this

theorem Sorted.offsets (h : Sorted exts) : (exts.map Extent.offset).Pairwise (· < ·) := by
  rw [List.pairwise_map]
  refine h.apart.imp_of_mem ?_
  intro a b ha hb hab
  have hlt : a.offset < a.stop := h.nonempty a ha
  exact hlt.trans_le hab

/-- The index put over leaves gives a tree with these leaves. -/
theorem denotes_buildBtreeIndex {load : Loader} {leaves : List (ℕ × List Extent)}
    {cur : List Child} (hcur : cur.map Prod.fst = leaves.map Prod.fst) (hne : leaves ≠ [])
    (hlen : leaves.length ≤ 2 ^ 64) (hleaf : ∀ x ∈ leaves, load.Denotes 0 x.1 [x] [x.1])
    {root : Child} {idx : List (ℕ × Node)}
    (h : buildBtreeIndex (allocBlock env true) cur 1 s = (.ok (root, idx), t))
    (hload : ∀ x ∈ idx, x.1 ≠ 0 ∧ load x.1 = .ok x.2) :
    ∃ depth all, depth ≤ btreeMaxDepth ∧ load.Denotes depth root.1 leaves all ∧
      all.Perm (idx.map Prod.fst ++ leaves.map Prod.fst) := by
  have hlength : cur.length = leaves.length := by
    rw [← List.length_map Prod.fst, hcur, List.length_map]
  have hcurne : cur ≠ [] := by
    rintro rfl
    exact hne (List.length_eq_zero_iff.mp hlength.symm)
  rw [buildBtreeIndex, if_neg hcurne] at h
  have hheight : cur.length ≤ 254 ^ 9 := hlength.le.trans (hlen.trans (by norm_num))
  obtain ⟨depth, all, hdepth, hden, hall⟩ :=
    denotes_buildUp (grove_leaves hcur hleaf) hcurne hheight h hload
  have hparts : (leaves.map fun x => ([x], [x.1])).flatMap Prod.fst = leaves := by
    rw [List.flatMap_map]
    exact List.flatMap_singleton' leaves
  have hblocks : (leaves.map fun x => ([x], [x.1])).flatMap Prod.snd = leaves.map Prod.fst := by
    rw [List.flatMap_map, List.map_eq_flatMap]
  rw [hparts] at hden
  rw [hblocks] at hall
  exact ⟨depth, all, hdepth.trans (by norm_num [btreeMaxDepth]), hden, hall⟩

theorem denotes_leafNodes {load : Loader} {blocks : List ℕ} {chunks : List (List Extent)}
    (hload : ∀ x ∈ leafNodes blocks chunks, x.1 ≠ 0 ∧ load x.1 = .ok x.2)
    (hchunks : ∀ c ∈ chunks, c.length ≤ btreeLeafFanout ∧ (c.map Extent.offset).Pairwise (· < ·)) :
    ∀ x ∈ blocks.zip chunks, load.Denotes 0 x.1 [x] [x.1] := by
  induction blocks generalizing chunks with
  | nil => simp
  | cons b blocks ih =>
    cases chunks with
    | nil => simp
    | cons c chunks =>
      obtain ⟨hb, hload⟩ := List.forall_mem_cons.mp hload
      obtain ⟨hc, hchunks⟩ := List.forall_mem_cons.mp hchunks
      refine List.forall_mem_cons.mpr ⟨?_, ih hload hchunks⟩
      exact denotes_buildBtreeLeafBuf hb.1 hb.2 hc.1 hc.2

theorem drop_leafNodes (n : ℕ) (blocks : List ℕ) (chunks : List (List Extent)) :
    (leafNodes blocks chunks).drop n = leafNodes (blocks.drop n) (chunks.drop n) := by
  induction n generalizing blocks chunks with
  | zero => rfl
  | succ n ih =>
    cases blocks with
    | nil => simp [leafNodes]
    | cons b blocks =>
      cases chunks with
      | nil => simp [leafNodes]
      | cons c chunks =>
        rw [leafNodes, List.drop_succ_cons, ih, List.drop_succ_cons, List.drop_succ_cons]

/-! ### The rebuild -/

/-- The inode with another index, and nothing else changed. -/
structure Reindexed (i : Inode) (exts : List Extent) (i' : Inode) : Prop where
  total : i'.numExtentsTotal = exts.length
  data : isInlineData i' ↔ isInlineData i
  rest : i' = { i with
    flags := i'.flags
    extentInlineBase := i'.extentInlineBase
    numExtentsInline := i'.numExtentsInline
    numExtentsTotal := i'.numExtentsTotal
    region := i'.region }

theorem equalChunks_spec (as bs : List (List Extent)) : equalChunks as bs ≤ as.length ∧
    equalChunks as bs ≤ bs.length ∧ as.take (equalChunks as bs) = bs.take (equalChunks as bs) := by
  induction as generalizing bs with
  | nil => simp [equalChunks]
  | cons a as ih =>
    cases bs with
    | nil => simp [equalChunks]
    | cons b bs =>
      obtain ⟨hle, hle', htake⟩ := ih bs
      rw [equalChunks]
      split_ifs with heq
      · subst heq
        rw [List.length_cons, List.length_cons, List.take_succ_cons, List.take_succ_cons, htake]
        exact ⟨by omega, by omega, rfl⟩
      · simp

theorem reuseCount_spec (chunks : List (List Extent)) (leaves : List (ℕ × List Extent)) :
    reuseCount chunks leaves ≤ chunks.length ∧ reuseCount chunks leaves ≤ leaves.length ∧
      chunks.take (reuseCount chunks leaves) =
        (leaves.take (reuseCount chunks leaves)).map Prod.snd := by
  obtain ⟨hle, hle', htake⟩ := equalChunks_spec chunks (leaves.map Prod.snd)
  rw [List.length_map] at hle'
  have hreuse : reuseCount chunks leaves ≤ equalChunks chunks (leaves.map Prod.snd) := by
    simp only [reuseCount]
    split_ifs <;> omega
  refine ⟨hreuse.trans hle, hreuse.trans hle', ?_⟩
  have := congrArg (List.take (reuseCount chunks leaves)) htake
  rwa [List.take_take, List.take_take, min_eq_left hreuse, ← List.map_take] at this

/-- The leaves that stay and the leaves that are built, with the index over them, are a tree. -/
theorem stores_rebuilt (kept : List (ℕ × List Extent)) {fresh : List ℕ}
    {rest : List (List Extent)} (hchunks : kept.map Prod.snd ++ rest = chunkBtreeExtents exts)
    (hlen : fresh.length = rest.length) (hs : (exts.map Extent.offset).Pairwise (· < ·))
    (hne : exts ≠ []) (hfits : ∀ e ∈ exts, e.offset < 2 ^ 64) {cur : List Child}
    (hcur : cur.map Prod.fst = kept.map Prod.fst ++ fresh) {root : Child} {idx : List (ℕ × Node)}
    (hbuild : buildBtreeIndex (allocBlock env true) cur 1 s = (.ok (root, idx), u))
    (hkept : ∀ x ∈ kept, (loader t.dev).Denotes 0 x.1 [x] [x.1])
    (hleaf : ∀ x ∈ leafNodes fresh rest, x.1 ≠ 0 ∧ t.dev x.1 = .node x.2)
    (hidx : ∀ x ∈ idx, x.1 ≠ 0 ∧ t.dev x.1 = .node x.2)
    (hnodup : (kept.map Prod.fst ++ fresh ++ idx.map Prod.fst).Nodup)
    (hbase : i.extentInlineBase = root.1) (hindexed : isIndexed i) :
    ∃ nodes, Stores t.dev i exts nodes ∧
      nodes.Perm (kept.map Prod.fst ++ fresh ++ idx.map Prod.fst) ∧
      leavesAt t.dev i.extentInlineBase = kept ++ fresh.zip rest := by
  have hzip : (fresh.zip rest).map Prod.fst = fresh := List.map_fst_zip hlen.le
  have hzip' : (fresh.zip rest).map Prod.snd = rest := List.map_snd_zip hlen.ge
  have hsnd : (kept ++ fresh.zip rest).map Prod.snd = chunkBtreeExtents exts := by
    rw [List.map_append, hzip', hchunks]
  have hexts : (kept ++ fresh.zip rest).flatMap Prod.snd = exts := by
    rw [List.flatMap_def, hsnd, flatten_chunkBtreeExtents]
  have hcount : (kept ++ fresh.zip rest).length ≤ 2 ^ 64 := by
    rw [← List.length_map Prod.snd, hsnd, length_chunkBtreeExtents]
    have := length_le_of_ascending hs (by simpa using hfits)
    rw [List.length_map] at this
    omega
  have hsome : kept ++ fresh.zip rest ≠ [] := by
    intro hnil
    rw [hnil] at hexts
    exact hne hexts.symm
  have hasc := chunks_ascending hs
  rw [← hchunks] at hasc
  have hden : ∀ x ∈ kept ++ fresh.zip rest, (loader t.dev).Denotes 0 x.1 [x] [x.1] := by
    intro x hx
    rcases List.mem_append.mp hx with hx | hx
    · exact hkept x hx
    · exact denotes_leafNodes (fun y hy => ⟨(hleaf y hy).1, loader_eq (hleaf y hy).2⟩)
        (fun c hc => hasc c (List.mem_append_right _ hc)) x hx
  obtain ⟨depth, all, hdepth, hall, hperm⟩ := denotes_buildBtreeIndex
    (by rw [hcur, List.map_append, hzip]) hsome hcount hden hbuild
    fun x hx => ⟨(hidx x hx).1, loader_eq (hidx x hx).2⟩
  rw [List.map_append, hzip] at hperm
  have hperm' := hperm.trans List.perm_append_comm
  have hall' := hperm'.nodup_iff.mpr hnodup
  rw [← hbase] at hall
  refine ⟨all, ?_, hperm', ?_⟩
  · rw [← hexts]
    exact .tree hindexed (hexts ▸ hne) hdepth hall hall'
  · obtain ⟨handed, hhanded, -, hleaves⟩ := (Loader.adds_walkBtree false hall hdepth hall').handed
    rw [List.nil_append] at hhanded
    rw [leavesAt, hhanded, hleaves]

theorem repeats_buildBtreeIndex {cur : List Child} {root : Child} {idx : List (ℕ × Node)}
    (h : buildBtreeIndex (allocBlock env true) cur 1 s = (.ok (root, idx), t)) :
    t.dev = s.dev ∧ Works env s (idx.map Prod.fst) W t := by
  unfold buildBtreeIndex at h
  split_ifs at h
  · exact absurd (Prod.mk.inj h).1 (by simp)
  · exact works_repeats (repeats_buildUp h)

theorem testBit_inodeFlagIndexed : inodeFlagIndexed.testBit 2 = true ∧
    inodeFlagIndexed.testBit 3 = false := ⟨rfl, rfl⟩

theorem rebuildExtentIndex_inline (hpath : exts = [] ∨ exts.length ≤ 8 ∧ ¬isIndexed i)
    (h : rebuildExtentIndex env i exts s = (.ok i', t)) :
    t = s ∧ Stores t.dev i' exts [] ∧ Reindexed i exts i' := by
  unfold rebuildExtentIndex at h
  split_ifs at h with hnil hfew
  · subst hnil
    obtain ⟨rfl, rfl⟩ := Call.pure_eq_ok h
    refine ⟨rfl, .inline ?_ (by simp) rfl rfl ?_, rfl, ?_, rfl⟩
    · simp [isIndexed_iff, testBit_bitClear, testBit_inodeFlagIndexed]
    · intro _ j
      rfl
    · simp [isInlineData_iff, testBit_bitClear, testBit_inodeFlagIndexed]
  · obtain ⟨rfl, rfl⟩ := Call.pure_eq_ok h
    refine ⟨rfl, .inline ?_ hfew.1 rfl ?_ ?_, rfl, ?_, rfl⟩
    · simp [isIndexed_iff, testBit_bitClear, testBit_inodeFlagIndexed]
    · simp only [inlineExtents, setInlineExtents]
      rw [List.take_take, min_eq_left hfew.1, List.take_left]
    · intro heq
      exact absurd heq hnil
    · simp [isInlineData_iff, testBit_bitClear, testBit_inodeFlagIndexed]
  · exact absurd hpath (not_or.mpr ⟨hnil, hfew⟩)

theorem indexed_inode (i : Inode) (base n : ℕ) :
    isIndexed { i with
      flags := i.flags ||| inodeFlagIndexed
      extentInlineBase := base
      numExtentsInline := 0
      numExtentsTotal := n } := by
  simp [isIndexed_iff, testBit_inodeFlagIndexed]

theorem reindexed_inode (i : Inode) (base : ℕ) (exts : List Extent) :
    Reindexed i exts { i with
      flags := i.flags ||| inodeFlagIndexed
      extentInlineBase := base
      numExtentsInline := 0
      numExtentsTotal := exts.length } := by
  refine ⟨rfl, ?_, rfl⟩
  simp [isInlineData_iff, testBit_inodeFlagIndexed]

theorem rebuildExtentIndex_tree (hne : exts ≠ []) (hpath : ¬(exts.length ≤ 8 ∧ ¬isIndexed i))
    (hs : (exts.map Extent.offset).Pairwise (· < ·)) (hfits : ∀ e ∈ exts, e.offset < 2 ^ 64)
    (h : rebuildExtentIndex env i exts s = (.ok i', t)) :
    ∃ new nodes, Works env s new (fun _ => False) t ∧ Stores t.dev i' exts nodes ∧
      nodes.Perm new ∧ Reindexed i exts i' ∧ isIndexed i' := by
  rw [rebuildExtentIndex, if_neg hne, if_neg hpath] at h
  obtain ⟨leaves, a, hleaves, h⟩ := Call.bind_eq_ok h
  obtain ⟨⟨root, idx⟩, b, hindex, h⟩ := Call.bind_eq_ok h
  obtain ⟨⟨⟩, c, hwrite, h⟩ := Call.bind_eq_ok h
  obtain ⟨⟨⟩, d, hwrite', h⟩ := Call.bind_eq_ok h
  obtain ⟨rfl, rfl⟩ := Call.pure_eq_ok h
  rw [buildBtreeLeaves, if_neg hne] at hleaves
  obtain ⟨fresh, a', hfresh, h⟩ := Call.bind_eq_ok hleaves
  obtain ⟨rfl, rfl⟩ := Call.pure_eq_ok h
  obtain ⟨hlen, hcalls⟩ := Call.repeats_times hfresh
  have hblocks := map_fst_leafNodes hlen
  obtain ⟨-, halloc⟩ := works_repeats (W := (· ∈ fresh ++ idx.map Prod.fst)) hcalls.of_context
  obtain ⟨-, halloc'⟩ := repeats_buildBtreeIndex (W := (· ∈ fresh ++ idx.map Prod.fst)) hindex
  have hnew := halloc.trans halloc'
  have hnodup := List.nodup_append.mp hnew.nodup
  have hfreshNodup : ((leafNodes fresh (chunkBtreeExtents exts)).map Prod.fst).Nodup := by
    rw [hblocks]
    exact hnodup.1
  obtain ⟨hdev, hw⟩ := works_writeNodes env hfreshNodup hwrite
  obtain ⟨hdev', hw'⟩ := works_writeNodes env hnodup.2.1 hwrite'
  rw [hblocks] at hw
  have hworks := (hnew.trans (hw.mono fun b hb => List.mem_append_left _ hb)).trans
    (hw'.mono fun b hb => List.mem_append_right _ hb)
  rw [List.append_nil, List.append_nil] at hworks
  have hnew' : Works env s (fresh ++ idx.map Prod.fst) (fun _ => False) d :=
    (hworks.mono fun b hb => .inr hb).absorb
  have hmem : ∀ x ∈ leafNodes fresh (chunkBtreeExtents exts), x.1 ∈ fresh := by
    intro x hx
    rw [← hblocks]
    exact List.mem_map_of_mem hx
  obtain ⟨nodes, hstores, hperm, -⟩ := stores_rebuilt (t := d) [] rfl hlen hs hne hfits
    (by simpa [List.map_map, Function.comp_def] using hblocks) hindex (by simp) (fun x hx => by
      refine ⟨ne_zero_of_free (hnew.free _ (List.mem_append_left _ (hmem x hx))), ?_⟩
      rw [hw'.dev x.1 _ (by simp), hdev x hx]
      intro hin
      exact hnodup.2.2 _ (hmem x hx) _ hin rfl) (fun x hx => by
      exact ⟨ne_zero_of_free (hnew.free _ (List.mem_append_right _ (List.mem_map_of_mem hx))), hdev' x hx⟩)
    (by simpa using hnew.nodup) rfl (indexed_inode i root.1 exts.length)
  exact ⟨_, nodes, hnew', hstores, by simpa using hperm, reindexed_inode i root.1 exts,
    indexed_inode i root.1 exts.length⟩

/-- What the rebuild of a tree leaves behind: `kept` are leaves of the old tree, the leaves
in `fresh` and the index nodes stand in `new` blocks. -/
structure Localized (env : Env) (s : FS) (i : Inode) (tree : ExtentTree) (exts : List Extent)
    (i' : Inode) (runs : List BlockRun) (kept dropped : List (ℕ × List Extent))
    (fresh new nodes : List ℕ) (t : FS) : Prop where
  works : Works env s new (fun _ => False) t
  stores : Stores t.dev i' exts nodes
  old : tree.leaves = kept ++ dropped
  reused : kept.length = reuseCount (chunkBtreeExtents exts) tree.leaves
  nodes : nodes.Perm (kept.map Prod.fst ++ new)
  runs : runBlocks runs = dropped.map Prod.fst ++ tree.idx
  inode : Reindexed i exts i'
  indexed : isIndexed i'
  leaves : leavesAt t.dev i'.extentInlineBase =
    kept ++ fresh.zip ((chunkBtreeExtents exts).drop kept.length)
  length : fresh.length = (chunkBtreeExtents exts).length - kept.length
  written : ∀ x ∈ leafNodes fresh ((chunkBtreeExtents exts).drop kept.length),
    t.dev x.1 = .node x.2
  taken : ∀ b ∈ fresh, b ∈ new

theorem rebuildExtentIndexWrite_local (hne : exts ≠ []) (hindexed : isIndexed i)
    (hleaves : tree.leaves ≠ []) (hs : (exts.map Extent.offset).Pairwise (· < ·))
    (hfits : ∀ e ∈ exts, e.offset < 2 ^ 64) (hsound : tree.Sound s.dev i)
    (hown : ∀ b ∈ tree.nodes, ¬Free env s b) {runs : List BlockRun}
    (h : rebuildExtentIndexWrite env i tree exts s = (.ok (i', runs), t)) :
    ∃ kept dropped fresh new nodes,
      Localized env s i tree exts i' runs kept dropped fresh new nodes t := by
  rw [rebuildExtentIndexWrite, if_neg (by tauto), if_neg (by tauto)] at h
  obtain ⟨hle, hle', hsame⟩ := reuseCount_spec (chunkBtreeExtents exts) tree.leaves
  generalize hreuse : reuseCount (chunkBtreeExtents exts) tree.leaves = reuse at h hle hle' hsame
  set kept := tree.leaves.take reuse with hkept
  set rest := (chunkBtreeExtents exts).drop reuse with hrest
  have hchunks : kept.map Prod.snd ++ rest = chunkBtreeExtents exts := by
    rw [← hsame, hrest, List.take_append_drop]
  have hkeptLen : kept.length = reuse := by
    rw [hkept, List.length_take, min_eq_left hle']
  obtain ⟨fresh, a, hfresh, h⟩ := Call.bind_eq_ok h
  obtain ⟨⟨⟩, b, hwrite, h⟩ := Call.bind_eq_ok h
  obtain ⟨⟨root, idx⟩, c, hindex, h⟩ := Call.bind_eq_ok h
  obtain ⟨⟨⟩, d, hwrite', h⟩ := Call.bind_eq_ok h
  obtain ⟨hres, rfl⟩ := Call.pure_eq_ok h
  cases hres
  obtain ⟨hlen, hcalls⟩ := Call.repeats_times hfresh
  have hlen' : fresh.length = rest.length := by rw [hlen, hrest, List.length_drop]
  have hblocks := map_fst_leafNodes hlen'
  rw [drop_leafNodes, List.drop_left' (by rw [List.length_map, hkeptLen]), ← hrest] at hwrite
  obtain ⟨-, halloc⟩ := works_repeats (W := (· ∈ fresh ++ idx.map Prod.fst)) hcalls
  have hfreshNodup : ((leafNodes fresh rest).map Prod.fst).Nodup := by
    rw [hblocks]
    exact halloc.nodup
  obtain ⟨hdev, hw⟩ := works_writeNodes env hfreshNodup hwrite
  rw [hblocks] at hw
  obtain ⟨hsameDev, halloc'⟩ :=
    repeats_buildBtreeIndex (W := (· ∈ fresh ++ idx.map Prod.fst)) hindex
  have hnew := (halloc.trans (hw.mono fun b hb => List.mem_append_left _ hb)).trans halloc'
  rw [List.append_nil] at hnew
  have hnodup := List.nodup_append.mp hnew.nodup
  obtain ⟨hdev', hw'⟩ := works_writeNodes env hnodup.2.1 hwrite'
  have hworks := hnew.trans (hw'.mono fun b hb => List.mem_append_right _ hb)
  rw [List.append_nil] at hworks
  have hnew' : Works env s (fresh ++ idx.map Prod.fst) (fun _ => False) d :=
    (hworks.mono fun b hb => .inr hb).absorb
  have hmem : ∀ x ∈ leafNodes fresh rest, x.1 ∈ fresh := by
    intro x hx
    rw [← hblocks]
    exact List.mem_map_of_mem hx
  have hkeptMem : ∀ x ∈ kept, x ∈ tree.leaves := fun x hx => List.mem_of_mem_take hx
  have hold : ∀ x ∈ kept, x.1 ∉ fresh ++ idx.map Prod.fst := by
    intro x hx
    refine hnew'.notMem_of_not_free (hown x.1 ?_)
    exact List.mem_append_left _ (List.mem_map_of_mem (hkeptMem x hx))
  have hkeptNodup : (kept.map Prod.fst).Nodup := by
    refine (List.nodup_append.mp hsound.nodup).1.sublist ?_
    exact (List.take_sublist _ _).map _
  have hwritten : ∀ x ∈ leafNodes fresh rest, d.dev x.1 = .node x.2 := by
    intro x hx
    rw [hw'.dev x.1 _ (by simp), hsameDev, hdev x hx]
    intro hin
    exact hnodup.2.2 _ (hmem x hx) _ hin rfl
  obtain ⟨nodes, hstores, hperm, hnewLeaves⟩ := stores_rebuilt (t := d) _ hchunks hlen' hs hne hfits
    (List.map_fst_zip (by
      rw [List.length_append, List.length_map, List.length_map, hkeptLen]
      omega)) hindex (fun x hx => by
      refine (hsound.leaf x (hkeptMem x hx)).congr ?_
      intro b hb
      rw [List.mem_singleton] at hb
      subst hb
      rw [loader, loader, hnew'.dev x.1 id (hold x hx)]) (fun x hx => by
      exact ⟨ne_zero_of_free (hnew.free _ (List.mem_append_left _ (hmem x hx))), hwritten x hx⟩)
    (fun x hx => by
      exact ⟨ne_zero_of_free (hnew.free _ (List.mem_append_right _ (List.mem_map_of_mem hx))), hdev' x hx⟩)
    (by
      rw [List.append_assoc]
      refine List.nodup_append.mpr ⟨hkeptNodup, hnew.nodup, ?_⟩
      rintro _ hk _ hin rfl
      obtain ⟨x, hx, rfl⟩ := List.mem_map.mp hk
      exact hold x hx hin) rfl (indexed_inode i root.1 exts.length)
  rw [List.append_assoc] at hperm
  rw [hrest, ← hkeptLen] at hnewLeaves hwritten
  exact ⟨kept, tree.leaves.drop reuse, fresh, _, nodes,
    { works := hnew'
      stores := hstores
      old := (List.take_append_drop _ _).symm
      reused := hkeptLen.trans hreuse.symm
      nodes := hperm
      runs := by rw [runBlocks_asRuns, List.map_drop]
      inode := reindexed_inode i root.1 exts
      indexed := indexed_inode i root.1 exts.length
      leaves := hnewLeaves
      length := by rw [hlen, hkeptLen]
      written := hwritten
      taken := fun b hb => List.mem_append_left _ hb }⟩

/-- What a rebuild leaves behind. -/
structure Rebuilt (env : Env) (s : FS) (i : Inode) (old : List ℕ) (exts : List Extent) (i' : Inode)
    (runs : List BlockRun) (new nodes : List ℕ) (t : FS) : Prop where
  works : Works env s new (fun _ => False) t
  stores : Stores t.dev i' exts nodes
  inode : Reindexed i exts i'
  indexed : exts ≠ [] → isIndexed i → isIndexed i'
  kept : ∀ b, b ∈ nodes ↔ b ∈ new ∨ b ∈ old ∧ b ∉ runBlocks runs
  returned : ∀ b ∈ runBlocks runs, b ∈ old
  once : (runBlocks runs).Nodup

/-- A rebuild stores the new extents. The nodes that are no longer used are returned. -/
theorem rebuildExtentIndexWrite_spec (hs : (exts.map Extent.offset).Pairwise (· < ·))
    (hfits : ∀ e ∈ exts, e.offset < 2 ^ 64) (hsound : tree.Sound s.dev i)
    (hown : ∀ b ∈ tree.nodes, ¬Free env s b) {runs : List BlockRun}
    (h : rebuildExtentIndexWrite env i tree exts s = (.ok (i', runs), t)) :
    ∃ new nodes, Rebuilt env s i tree.nodes exts i' runs new nodes t := by
  by_cases hlocal : exts ≠ [] ∧ isIndexed i
  · obtain ⟨hne, hindexed⟩ := hlocal
    obtain ⟨kept, dropped, fresh, new, nodes, hlocal⟩ :=
      rebuildExtentIndexWrite_local hne hindexed (hsound.indexed hindexed) hs hfits hsound hown h
    have hleaves := hlocal.old
    have hruns := hlocal.runs
    have hnodes : tree.nodes = kept.map Prod.fst ++ (dropped.map Prod.fst ++ tree.idx) := by
      rw [ExtentTree.nodes, hleaves, List.map_append, List.append_assoc]
    have hapart := hsound.nodup
    rw [hnodes] at hapart
    obtain ⟨-, honce, hcross⟩ := List.nodup_append.mp hapart
    refine ⟨new, nodes, hlocal.works, hlocal.stores, hlocal.inode, fun _ _ => hlocal.indexed, ?_, ?_,
      hruns ▸ honce⟩
    · intro b
      rw [hlocal.nodes.mem_iff, hruns, hnodes, List.mem_append, List.mem_append]
      constructor
      · rintro (hb | hb)
        · exact .inr ⟨.inl hb, fun hin => hcross b hb b hin rfl⟩
        · exact .inl hb
      · rintro (hb | ⟨hb | hb, hnot⟩)
        · exact .inr hb
        · exact .inl hb
        · exact absurd hb hnot
    · intro b hb
      rw [hnodes, ← hruns]
      exact List.mem_append_right _ hb
  · have hboth : (do
        let i ← rebuildExtentIndex env i exts
        pure (i, tree.allNodes)) s = (.ok (i', runs), t) := by
      unfold rebuildExtentIndexWrite at h
      split_ifs at h with hshort hleaves
      · exact h
      · exact h
      · exact absurd ⟨fun heq => hshort (.inl heq),
          not_not.mp fun hidx => hleaves (.inl hidx)⟩ hlocal
    obtain ⟨j, u, hrebuild, h⟩ := Call.bind_eq_ok hboth
    obtain ⟨hres, rfl⟩ := Call.pure_eq_ok h
    cases hres
    have hruns : runBlocks tree.allNodes = tree.nodes := runBlocks_asRuns _
    by_cases hpath : exts = [] ∨ exts.length ≤ 8 ∧ ¬isIndexed i
    · obtain ⟨rfl, hstores, hinode⟩ := rebuildExtentIndex_inline hpath hrebuild
      refine ⟨[], [], Works.refl _ _, hstores, hinode, ?_, ?_, ?_, hruns ▸ hsound.nodup⟩
      · exact fun hne hidx => absurd ⟨hne, hidx⟩ hlocal
      · simp [hruns]
      · simp [hruns]
    · rw [not_or] at hpath
      obtain ⟨new, nodes, hworks, hstores, hperm, hinode, hidx⟩ :=
        rebuildExtentIndex_tree hpath.1 hpath.2 hs hfits hrebuild
      refine ⟨new, nodes, hworks, hstores, hinode, fun _ _ => hidx, ?_, ?_, hruns ▸ hsound.nodup⟩
      · intro b
        rw [hperm.mem_iff, hruns]
        tauto
      · simp [hruns]

def walkedExtents (dev : ℕ → Cell) (root : ℕ) : List Extent :=
  (Loader.leavesOf ((loader dev).walkBtree false root).nodes).flatMap Prod.snd

theorem Stores.walk {dev : ℕ → Cell} (h : Stores dev i exts nodes) (hindexed : isIndexed i) :
    ((loader dev).walkBtree false i.extentInlineBase).faults = [] ∧
      walkedExtents dev i.extentInlineBase = exts ∧
      ((loader dev).walkBtree false i.extentInlineBase).nodes.map Loader.Info.block = nodes := by
  cases h with
  | inline hidx => exact absurd hindexed hidx
  | tree _ hne hdepth hden hnodup =>
    have hwalk := Loader.adds_walkBtree false hden hdepth hnodup
    obtain ⟨handed, hhanded, hblocks, hleaves⟩ := hwalk.handed
    rw [List.nil_append] at hhanded
    exact ⟨hwalk.faults, by rw [walkedExtents, hhanded, hleaves], by rw [hhanded, hblocks]⟩

/-! ### Rebuilds one after the other -/

/-- The index of the inode comes from rebuilds: it has had none so far, a rebuild has just
stored one, or something else was done that left its nodes alone. -/
inductive Produced (env : Env) : FS → Inode → Prop
  | start {s : FS} {i : Inode} : ¬isInlineData i → ¬isIndexed i → Produced env s i
  | rebuild {s t : FS} {i i' : Inode} {tree : ExtentTree} {exts : List Extent}
      {runs : List BlockRun} : Produced env s i → collectExtentTree s.dev i = .ok tree →
      Sorted exts → (∀ e ∈ exts, e.offset < 2 ^ 64) →
      rebuildExtentIndexWrite env i tree exts s = (.ok (i', runs), t) → Produced env t i'
  | other {s t : FS} {i : Inode} {tree : ExtentTree} : Produced env s i →
      collectExtentTree s.dev i = .ok tree →
      (∀ b ∈ tree.nodes, t.dev b = s.dev b ∧ ¬Free env t b) → Produced env t i

theorem collect_of_not_indexed (hdata : ¬isInlineData i) (hidx : ¬isIndexed i)
    (h : collectExtentTree s.dev i = .ok tree) : tree.Sound s.dev i ∧ tree.nodes = [] := by
  rw [collectExtentTree, if_neg hdata, if_pos hidx] at h
  obtain rfl := Except.ok.inj h
  exact ⟨⟨by simp, by simp [ExtentTree.nodes], fun hindexed => absurd hindexed hidx⟩, rfl⟩

/-- The index of the inode, if it has one, is a tree in blocks that are not free. -/
structure Planted (env : Env) (s : FS) (i : Inode) : Prop where
  data : ¬isInlineData i
  tree : isIndexed i → ∃ exts nodes, Stores s.dev i exts nodes ∧ ∀ b ∈ nodes, ¬Free env s b

theorem Planted.collect (h : Planted env s i) (hcollect : collectExtentTree s.dev i = .ok tree) :
    tree.Sound s.dev i ∧ (∀ b ∈ tree.nodes, ¬Free env s b) ∧
      (isIndexed i →
        ∃ exts nodes, Stores s.dev i exts nodes ∧ ∀ b, b ∈ tree.nodes ↔ b ∈ nodes) := by
  by_cases hidx : isIndexed i
  · obtain ⟨exts, nodes, hstores, hown⟩ := h.tree hidx
    obtain ⟨tree', hcollect', -, hnodes, hsound⟩ := hstores.collect h.data
    obtain rfl := Except.ok.inj (hcollect'.symm.trans hcollect)
    exact ⟨hsound, fun b hb => hown b ((hnodes b).mp hb), fun _ => ⟨exts, nodes, hstores, hnodes⟩⟩
  · obtain ⟨hsound, hnil⟩ := collect_of_not_indexed h.data hidx hcollect
    exact ⟨hsound, by simp [hnil], fun hindexed => absurd hindexed hidx⟩

theorem Rebuilt.planted {old : List ℕ} {runs : List BlockRun} (hdata : ¬isInlineData i)
    (hown : ∀ b ∈ old, ¬Free env s b) (h : Rebuilt env s i old exts i' runs new nodes t) :
    Planted env t i' where
  data := fun hin => hdata (h.inode.data.mp hin)
  tree := by
    intro _
    refine ⟨exts, nodes, h.stores, ?_⟩
    intro b hb
    rcases (h.kept b).mp hb with hnew | ⟨hold, -⟩
    · exact h.works.taken b hnew
    · exact h.works.not_free (hown b hold)

theorem Produced.planted (h : Produced env s i) : Planted env s i := by
  induction h with
  | start hdata hidx => exact ⟨hdata, fun hindexed => absurd hindexed hidx⟩
  | rebuild _ hcollect hs hfits hcall ih =>
    obtain ⟨hsound, hown, -⟩ := ih.collect hcollect
    obtain ⟨new, nodes, hrebuilt⟩ := rebuildExtentIndexWrite_spec hs.offsets hfits hsound hown hcall
    exact hrebuilt.planted ih.data hown
  | other _ hcollect hleft ih =>
    obtain ⟨-, -, htree⟩ := ih.collect hcollect
    refine ⟨ih.data, ?_⟩
    intro hidx
    obtain ⟨exts, nodes, hstores, hnodes⟩ := htree hidx
    refine ⟨exts, nodes, hstores.congr ?_, ?_⟩
    · exact fun b hb => (hleft b ((hnodes b).mpr hb)).1
    · exact fun b hb => (hleft b ((hnodes b).mpr hb)).2

/-- Extents of one block with a block of the file between any two. -/
def spacedExtents (n : ℕ) : List Extent := (List.range n).map fun k => ⟨2 * k, 100 + k, 1, 0⟩

theorem sorted_spacedExtents (n : ℕ) : Sorted (spacedExtents n) := by
  constructor
  · rw [spacedExtents, List.pairwise_map]
    refine List.pairwise_lt_range.imp ?_
    intro a b hab
    change 2 * a + 1 ≤ 2 * b
    omega
  · intro e he
    obtain ⟨k, -, rfl⟩ := List.mem_map.mp he
    exact Nat.lt_succ_self _

theorem spacedExtents_fit {n : ℕ} (hn : n ≤ 2 ^ 63) : ∀ e ∈ spacedExtents n, e.offset < 2 ^ 64 := by
  intro e he
  obtain ⟨k, hk, rfl⟩ := List.mem_map.mp he
  rw [List.mem_range] at hk
  change 2 * k < 2 ^ 64
  omega

/-- Collect the index and rebuild it for `n` spaced extents. -/
def respace (n : ℕ) (i : Inode) : Call FS (Inode × List BlockRun) := do
  let tree ← collect i
  rebuildExtentIndexWrite plainEnv i tree (spacedExtents n)

theorem respace_eq_ok {n : ℕ} {runs : List BlockRun} (h : respace n i s = (.ok (i', runs), t)) :
    ∃ tree, collectExtentTree s.dev i = .ok tree ∧
      rebuildExtentIndexWrite plainEnv i tree (spacedExtents n) s = (.ok (i', runs), t) := by
  obtain ⟨tree, u, hcollect, h⟩ := Call.bind_eq_ok h
  obtain ⟨hres, rfl⟩ := Prod.mk.inj hcollect
  exact ⟨tree, hres, h⟩

/-- A tree with 260 extents that gets 40 more. -/
def regrow : Call FS (Inode × List BlockRun) := do
  let (i, _) ← respace 260 (freshVolume.inodes 2)
  if isIndexed i then respace 300 i else Call.fail .crash

end Briefs.File
