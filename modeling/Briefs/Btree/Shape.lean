import Briefs.Btree.Build

/-!
# The tree that a build gives

What holds of the nodes of `BuildBtreeLeaves` and `BuildBtreeIndex` together: how full they
are, which keys separate the children, on which levels they stand, and that the walk from
the root gives the extents back.
-/

namespace Briefs.Btree

open Lib

variable {load : Loader} {exts : List Extent} {nodes : List (ℕ × Node)} {bucket : List Child}

/-! ### Separators -/

/-- A subtree whose root is one of the nodes built, on level `k`, with the key `c.2`. -/
structure Rooted (load : Loader) (nodes : List (ℕ × Node)) (k : ℕ) (c : Child) (part : Part) :
    Prop where
  denotes : load.Denotes k c.1 part.1 part.2
  level : ∃ n, (c.1, n) ∈ nodes ∧ n.level = k
  key : ((part.1.flatMap Prod.snd).head?.map Extent.offset) = some c.2

theorem Rooted.indexNode {k block : ℕ} {parts : List Part}
    (hblock : block ≠ 0) (hload : load block = .ok (indexNode (k + 1) bucket))
    (hmem : (block, Btree.indexNode (k + 1) bucket) ∈ nodes) (hmin : 2 ≤ bucket.length)
    (hmax : bucket.length ≤ 254) (hparts : List.Forall₂ (Rooted load nodes k) bucket parts) :
    Rooted load nodes (k + 1) (block, (bucket.headD (0, 0)).2)
      (parts.flatMap Prod.fst, block :: parts.flatMap Prod.snd) := by
  refine ⟨?_, ⟨_, hmem, rfl⟩, ?_⟩
  · exact denotes_indexNode hblock hload hmin hmax (hparts.imp fun _ _ h => h.denotes)
  · cases hparts with
    | nil => simp at hmin
    | cons hfirst _ =>
      have hkey := hfirst.key
      rw [Option.map_eq_some_iff] at hkey ⊢
      obtain ⟨e, hhead, he⟩ := hkey
      refine ⟨e, ?_, he⟩
      rw [List.flatMap_cons, List.flatMap_append, List.head?_append, hhead]
      rfl

/-- The key of a subtree is the smallest offset in it. -/
theorem Rooted.isLeast {k : ℕ} {c : Child} {part : Part} (h : Rooted load nodes k c part)
    (hasc : ((part.1.flatMap Prod.snd).map Extent.offset).Pairwise (· < ·)) :
    IsLeast (Set.image Extent.offset {e | e ∈ part.1.flatMap Prod.snd}) c.2 := by
  obtain ⟨e, hhead, he⟩ := Option.map_eq_some_iff.mp h.key
  generalize part.1.flatMap Prod.snd = l at hasc hhead
  cases l with
  | nil => simp at hhead
  | cons a l =>
    obtain rfl : a = e := by simpa using hhead
    rw [List.map_cons, List.pairwise_cons] at hasc
    refine ⟨⟨a, List.mem_cons_self, he⟩, ?_⟩
    rintro - ⟨b, hb, rfl⟩
    rcases List.mem_cons.mp hb with rfl | hb
    · exact he.ge
    · exact he.ge.trans (hasc.1 _ (List.mem_map_of_mem hb)).le

theorem sublist_flatMap {α β : Type} {f : α → List β} {l : List α} {a : α} (h : a ∈ l) :
    (f a).Sublist (l.flatMap f) := by
  rw [List.flatMap_def]
  exact List.sublist_flatten_of_mem (List.mem_map_of_mem h)

/-- A node as the build leaves it, on a device that holds the nodes that were built. -/
structure Shaped (load : Loader) (nodes : List (ℕ × Node)) (n : Node) : Prop where
  leaf : n.leaf = true → n.level = 0 ∧ n.numKeys ≤ 126
  index : n.leaf = false → 1 ≤ n.numKeys ∧ n.numKeys ≤ 253
  /-- Each separator is the smallest offset under the child to its right. -/
  separator : n.leaf = false → ∀ i < n.numKeys, ∃ depth leaves sub,
    load.Denotes depth (n.children.getD (i + 1) 0) leaves sub ∧
    IsLeast (Set.image Extent.offset {e | e ∈ leaves.flatMap Prod.snd})
      (n.entries.getD i ⟨0, 0⟩).highKey
  level : n.leaf = false → ∀ c ∈ n.children, ∃ m, (c, m) ∈ nodes ∧ m.level + 1 = n.level

theorem shaped_leaf {chunk : List Extent} {next : ℕ} (h : chunk.length ≤ btreeLeafFanout) :
    Shaped load nodes (buildBtreeLeafBuf chunk next) where
  leaf _ := ⟨rfl, h⟩
  index h := by simp [buildBtreeLeafBuf] at h
  separator h := by simp [buildBtreeLeafBuf] at h
  level h := by simp [buildBtreeLeafBuf] at h

theorem highKey_indexNode (level : ℕ) {i : ℕ} (hi : i + 1 < bucket.length) :
    ((indexNode level bucket).entries.getD i ⟨0, 0⟩).highKey = (bucket.get ⟨i + 1, hi⟩).2 := by
  have hlen : i < bucket.tail.length := by
    rw [List.length_tail]
    omega
  rw [entries_indexNode, List.getD_eq_getElem?_getD, List.getElem?_zipWith,
    List.getElem?_eq_getElem (Nat.lt_of_succ_lt hi), List.getElem?_eq_getElem hlen]
  simp

theorem child_indexNode (level : ℕ) {i : ℕ} (hi : i < bucket.length) :
    (indexNode level bucket).children.getD i 0 = (bucket.get ⟨i, hi⟩).1 := by
  rw [children_indexNode _ _ (List.ne_nil_of_length_pos (Nat.zero_lt_of_lt hi))]
  simp [hi]

theorem shaped_index {k : ℕ} {leaves : List (ℕ × List Extent)} {n : Node}
    (h : Covers (Rooted load nodes k) (1 + k) leaves n)
    (hasc : ((leaves.flatMap Prod.snd).map Extent.offset).Pairwise (· < ·)) :
    Shaped load nodes n := by
  obtain ⟨bucket, parts, rfl, hmin, hmax, hparts, hsub⟩ := h
  refine ⟨fun h => ?_, fun _ => ?_, fun _ i hi => ?_, fun _ c hc => ?_⟩
  · simp [indexNode] at h
  · simp only [indexNode]
    omega
  · simp only [indexNode] at hi
    have hi : i + 1 < bucket.length := by omega
    have hi' : i + 1 < parts.length := hparts.length_eq ▸ hi
    have hright := hparts.get hi hi'
    have hpart : (parts.get ⟨i + 1, hi'⟩).1.Sublist leaves :=
      (sublist_flatMap (List.get_mem parts _)).trans hsub
    have hleast := hright.isLeast (hasc.sublist ((hpart.flatMap Prod.snd).map _))
    rw [child_indexNode _ hi, highKey_indexNode _ hi]
    exact ⟨k, _, _, hright.denotes, hleast⟩
  · rw [children_indexNode _ _ (List.ne_nil_of_length_pos (by omega))] at hc
    obtain ⟨c, hmem, rfl⟩ := List.mem_map.mp hc
    obtain ⟨part, hpart⟩ := exists_of_forall₂_right hparts.flip hmem
    obtain ⟨m, hm, hlevel⟩ := hpart.level
    refine ⟨m, hm, ?_⟩
    rw [hlevel, indexNode, Nat.add_comm]

/-! ### The build -/

section Build

variable {σ : Type} {alloc : Call σ ℕ} {s t : σ} {root : Child}

/-- What a build returns: leaves for the chunks and the levels over them, in blocks that
come from the allocator one after the other. -/
theorem buildBtree_eq_ok (h : buildBtree alloc exts s = (.ok (root, nodes), t)) :
    ∃ blocks idx u, blocks.length = (chunkBtreeExtents exts).length ∧
      nodes = leafNodes blocks (chunkBtreeExtents exts) ++ idx ∧
      Call.Repeats alloc s (blocks ++ idx.map Prod.fst) t ∧
      buildBtreeIndex alloc ((leafNodes blocks (chunkBtreeExtents exts)).map fun x =>
        (x.1, firstOffset x.2.extents)) 1 u = (.ok (root, idx), t) := by
  obtain ⟨leaves, u, hleaves, h⟩ := Call.bind_eq_ok h
  obtain ⟨⟨root', idx⟩, v, hindex, h⟩ := Call.bind_eq_ok h
  obtain ⟨hres, rfl⟩ := Call.pure_eq_ok h
  cases hres
  unfold buildBtreeLeaves at hleaves
  split_ifs at hleaves
  · exact absurd (Prod.mk.inj hleaves).1 (by simp)
  · obtain ⟨blocks, u', hblocks, h⟩ := Call.bind_eq_ok hleaves
    obtain ⟨rfl, rfl⟩ := Call.pure_eq_ok h
    obtain ⟨hlen, hcalls⟩ := Call.repeats_times hblocks
    refine ⟨blocks, idx, u', hlen, rfl, hcalls.of_context.append ?_, hindex⟩
    unfold buildBtreeIndex at hindex
    split_ifs at hindex
    · exact absurd (Prod.mk.inj hindex).1 (by simp)
    · exact repeats_buildUp hindex

theorem rooted_leafNodes {blocks : List ℕ} {chunks : List (List Extent)}
    (hlen : blocks.length = chunks.length)
    (hchunks : ∀ c ∈ chunks, c ≠ [] ∧ c.length ≤ btreeLeafFanout ∧
      (c.map Extent.offset).Pairwise (· < ·))
    (hload : ∀ x ∈ leafNodes blocks chunks, x ∈ nodes ∧ x.1 ≠ 0 ∧ load x.1 = .ok x.2) :
    List.Forall₂ (Rooted load nodes 0)
      ((leafNodes blocks chunks).map fun x => (x.1, firstOffset x.2.extents))
      ((blocks.zip chunks).map fun x => ([x], [x.1])) := by
  induction blocks generalizing chunks with
  | nil => exact .nil
  | cons b blocks ih =>
    cases chunks with
    | nil => simp at hlen
    | cons c chunks =>
      obtain ⟨⟨hne, hfew, hasc⟩, hchunks⟩ := List.forall_mem_cons.mp hchunks
      obtain ⟨⟨hmem, hblock, hb⟩, hload⟩ := List.forall_mem_cons.mp hload
      refine .cons ⟨?_, ⟨_, hmem, rfl⟩, ?_⟩ (ih (by simpa using hlen) hchunks hload)
      · exact denotes_buildBtreeLeafBuf hblock hb hfew hasc
      · obtain ⟨e, rest, rfl⟩ := List.exists_cons_of_ne_nil hne
        rfl

theorem mem_leafNodes {blocks : List ℕ} {chunks : List (List Extent)} {x : ℕ × Node}
    (h : x ∈ leafNodes blocks chunks) :
    ∃ chunk ∈ chunks, ∃ next, x.2 = buildBtreeLeafBuf chunk next := by
  induction blocks generalizing chunks with
  | nil => simp [leafNodes] at h
  | cons b blocks ih =>
    cases chunks with
    | nil => simp [leafNodes] at h
    | cons c chunks =>
      rcases List.mem_cons.mp h with rfl | h
      · exact ⟨c, List.mem_cons_self, _, rfl⟩
      · obtain ⟨chunk, hchunk, next, hx⟩ := ih h
        exact ⟨chunk, List.mem_cons_of_mem _ hchunk, next, hx⟩

theorem rooted_buildBtree (hasc : (exts.map Extent.offset).Pairwise (· < ·))
    (h : buildBtree alloc exts s = (.ok (root, nodes), t))
    (hload : ∀ x ∈ nodes, x.1 ≠ 0 ∧ load x.1 = .ok x.2) :
    ∃ k leaves all, Rooted load nodes k root (leaves, all) ∧ leaves.flatMap Prod.snd = exts ∧
      all.Perm (nodes.map Prod.fst) ∧ ∀ x ∈ nodes, Shaped load nodes x.2 := by
  obtain ⟨blocks, idx, u, hlen, rfl, -, hindex⟩ := buildBtree_eq_ok h
  have hchunks := chunks_ascending hasc
  have hzip : (blocks.zip (chunkBtreeExtents exts)).map Prod.snd = chunkBtreeExtents exts :=
    List.map_snd_zip hlen.ge
  have hexts : (blocks.zip (chunkBtreeExtents exts)).flatMap Prod.snd = exts := by
    rw [List.flatMap_def, hzip, flatten_chunkBtreeExtents]
  have hleaves := rooted_leafNodes hlen
    (fun c hc => ⟨(mem_chunkBtreeExtents hc).1, hchunks c hc⟩)
    fun x hx => ⟨List.mem_append_left idx hx, hload x (List.mem_append_left idx hx)⟩
  have hfst : ((blocks.zip (chunkBtreeExtents exts)).map fun x => ([x], [x.1])).flatMap Prod.fst =
      blocks.zip (chunkBtreeExtents exts) := by
    rw [List.flatMap_map]
    exact List.flatMap_singleton' _
  have hsnd : ((blocks.zip (chunkBtreeExtents exts)).map fun x => ([x], [x.1])).flatMap Prod.snd =
      blocks := by
    rw [List.flatMap_map, ← List.map_eq_flatMap]
    exact List.map_fst_zip hlen.le
  unfold buildBtreeIndex at hindex
  split_ifs at hindex with hne
  · exact absurd (Prod.mk.inj hindex).1 (by simp)
  · obtain ⟨k, all, -, hroot, hall, hcovers⟩ := buildUp_rule 1 (k := 0) hleaves hne
      (Nat.lt_pow_self (by norm_num : 1 < 254)).le hindex
      fun j block bucket ps hmin hmax hps hmem => by
        have hmem := List.mem_append_right (leafNodes blocks (chunkBtreeExtents exts)) hmem
        obtain ⟨hblock, hb⟩ := hload _ hmem
        rw [Nat.add_comm] at hmem hb
        exact Rooted.indexNode hblock hb hmem hmin hmax hps
    rw [hfst] at hroot hcovers
    rw [hsnd] at hall
    refine ⟨k, _, all, hroot, hexts, ?_, List.forall_mem_append.mpr ⟨?_, ?_⟩⟩
    · rw [List.map_append, map_fst_leafNodes hlen]
      exact hall.trans List.perm_append_comm
    · intro x hx
      obtain ⟨chunk, hchunk, next, hx⟩ := mem_leafNodes hx
      rw [hx]
      exact shaped_leaf (hchunks chunk hchunk).1
    · intro x hx
      obtain ⟨j, hj⟩ := hcovers x hx
      exact shaped_index hj (by rwa [hexts])

/-! ### A build fails only with its allocator -/

theorem nodeCount_lt {n : ℕ} (h : 2 ≤ n) : nodeCount n < n := by
  simp only [nodeCount, btreeIdxFanout]
  omega

section Total

variable {ε : Prop} (halloc : Call.Triple ε (fun _ => True) alloc fun _ _ => True)

include halloc

theorem triple_buildLevel (level : ℕ) (buckets : List (List Child)) :
    Call.Triple ε (fun _ => True) (buildLevel alloc level buckets)
      fun built _ => built.2.length = buckets.length := by
  induction buckets with
  | nil => exact .pure fun _ _ => rfl
  | cons bucket rest ih =>
    refine .bind halloc.context fun block => .bind ih ?_
    rintro ⟨nodes, next⟩
    refine .pure fun _ hlen => ?_
    simpa using hlen

/-- Each level has fewer nodes than the one below it, so the levels come to an end. -/
theorem triple_buildUp {fuel : ℕ} (level : ℕ) (cur : List Child) (hne : 0 < cur.length)
    (hfuel : cur.length ≤ fuel) :
    Call.Triple ε (fun _ => True) (buildUp alloc fuel level cur) fun _ _ => True := by
  induction fuel generalizing level cur with
  | zero => omega
  | succ fuel ih =>
    rw [buildUp]
    refine .ite (fun _ => .pure fun _ _ => trivial) fun hone => ?_
    refine .bind (triple_buildLevel halloc level _) ?_
    rintro ⟨nodes, next⟩
    have hpos := (nodeCount_bounds hne).1
    have hlt := nodeCount_lt (n := cur.length) (by omega)
    have hcount := (bucketSizes_spec (n := cur.length) (by omega)).2.2
    rw [length_cutSizes, hcount]
    intro v hlen
    refine Call.Triple.bind (P := fun _ => True) (ih (level + 1) next ?_ ?_) ?_ v trivial
    · dsimp only at hlen
      omega
    · dsimp only at hlen
      omega
    · rintro ⟨root, more⟩
      exact .pure fun _ _ => trivial

theorem triple_buildBtree (hne : exts ≠ []) :
    Call.Triple ε (fun _ => True) (buildBtree alloc exts) fun _ _ => True := by
  have hsome : 0 < (chunkBtreeExtents exts).length := by
    have := List.length_pos_iff.mpr hne
    rw [length_chunkBtreeExtents]
    omega
  have hleaves : Call.Triple ε (fun _ => True) (buildBtreeLeaves alloc exts)
      fun leaves _ => leaves.length = (chunkBtreeExtents exts).length := by
    refine .ite (fun h => absurd h hne) fun _ => .bind (halloc.context.times _) fun blocks => ?_
    refine .pure fun _ hlen => ?_
    rw [← List.length_map Prod.fst, map_fst_leafNodes hlen, hlen]
  refine .bind hleaves fun leaves u hlen => ?_
  have hpos : 0 < (leaves.map fun x => (x.1, firstOffset x.2.extents)).length := by
    rw [List.length_map, hlen]
    exact hsome
  refine Call.Triple.bind (P := fun _ => True) (Q := fun _ _ => True) (.ite (fun h => ?_) fun _ => ?_)
    ?_ u trivial
  · rw [h] at hpos
    exact absurd hpos (lt_irrefl 0)
  · exact triple_buildUp halloc 1 _ hpos le_rfl
  · rintro ⟨root, idx⟩
    exact .pure fun _ _ => trivial

end Total

/-- Reading back what was built: with an allocator that never hands out a block twice, a build
fails only where the allocator does. The nodes of one that returns are full as they should
be, separated by smallest offsets, one level apart, and walked once each. -/
theorem walkBtree_buildBtree (hne : exts ≠ [])
    (hasc : (exts.map Extent.offset).Pairwise (· < ·))
    (hdistinct : ∀ blocks t, Call.Repeats alloc s blocks t → blocks.Nodup ∧ 0 ∉ blocks) :
    (∀ e t, buildBtree alloc exts s = (.error e, t) → ∃ u e' v, alloc u = (.error e', v)) ∧
      ∀ root nodes t, buildBtree alloc exts s = (.ok (root, nodes), t) →
        (nodes.map Prod.fst).Nodup ∧
        ∀ load : Loader, (∀ x ∈ nodes, load x.1 = .ok x.2) →
          (∀ x ∈ nodes, Shaped load nodes x.2) ∧
          ∃ top, (root.1, top) ∈ nodes ∧
            (top.level ≤ btreeMaxDepth → ∀ tolerant,
              (load.walkBtree tolerant root.1).faults = [] ∧
              ((load.walkBtree tolerant root.1).nodes.map Loader.Info.block).Perm
                (nodes.map Prod.fst) ∧
              (Loader.leavesOf (load.walkBtree tolerant root.1).nodes).flatMap Prod.snd = exts) := by
  refine ⟨fun e t h => ?_, fun root nodes t h => ?_⟩
  · have halloc : Call.Triple (∃ u e' v, alloc u = (.error e', v)) (fun _ => True) alloc
        fun _ _ => True := by
      intro u _
      rcases hu : alloc u with ⟨_ | _, v⟩
      · exact ⟨u, _, v, hu⟩
      · trivial
    have hbuild := triple_buildBtree halloc hne s trivial
    rwa [h] at hbuild
  · obtain ⟨blocks, idx, u, hlen, hnodes, hcalls, -⟩ := buildBtree_eq_ok h
    have hblocks : nodes.map Prod.fst = blocks ++ idx.map Prod.fst := by
      rw [hnodes, List.map_append, map_fst_leafNodes hlen]
    rw [← hblocks] at hcalls
    obtain ⟨hnodup, hzero⟩ := hdistinct _ _ hcalls
    refine ⟨hnodup, fun load hload => ?_⟩
    obtain ⟨k, leaves, all, hroot, hexts, hperm, hshaped⟩ := rooted_buildBtree hasc h
      fun x hx => ⟨fun h0 => hzero (h0 ▸ List.mem_map_of_mem hx), hload x hx⟩
    obtain ⟨top, htop, hlevel⟩ := hroot.level
    refine ⟨hshaped, top, htop, fun hdepth tolerant => ?_⟩
    rw [hlevel] at hdepth
    have hwalk := Loader.adds_walkBtree tolerant hroot.denotes hdepth (hperm.nodup_iff.mpr hnodup)
    obtain ⟨handed, hhanded, hall, hleaves⟩ := hwalk.handed
    rw [List.nil_append] at hhanded
    rw [hhanded, hall, hleaves]
    exact ⟨hwalk.faults, hperm, hexts⟩

/-! ### How many nodes -/

/-- The nodes of all levels over `n` children. -/
def indexNodes (n : ℕ) : ℕ :=
  if 2 ≤ n then nodeCount n + indexNodes (nodeCount n) else 0
termination_by n
decreasing_by exact nodeCount_lt ‹_›

theorem length_buildUp {fuel level : ℕ} {cur : List Child} (hne : 0 < cur.length)
    (h : buildUp alloc fuel level cur s = (.ok (root, nodes), t)) :
    nodes.length = indexNodes cur.length := by
  induction fuel generalizing level cur s nodes with
  | zero => exact absurd (Prod.mk.inj h).1 (by simp)
  | succ fuel ih =>
    rw [buildUp] at h
    rw [indexNodes]
    split_ifs at h with hone
    · obtain ⟨hres, rfl⟩ := Call.pure_eq_ok h
      cases hres
      rw [hone]
      rfl
    · obtain ⟨⟨nodes', next⟩, u, hlevel, h⟩ := Call.bind_eq_ok h
      obtain ⟨⟨root', more⟩, v, hup, h⟩ := Call.bind_eq_ok h
      obtain ⟨hres, rfl⟩ := Call.pure_eq_ok h
      cases hres
      obtain ⟨-, hcount, hcount'⟩ := repeats_buildLevel hlevel
      rw [length_cutSizes, (bucketSizes_spec (n := cur.length) (by omega)).2.2] at hcount hcount'
      have hpos := (nodeCount_bounds hne).1
      rw [if_pos (by omega), List.length_append, ih (by omega) hup, hcount, hcount']

theorem length_buildBtree (h : buildBtree alloc exts s = (.ok (root, nodes), t)) :
    Call.Repeats alloc s (nodes.map Prod.fst) t ∧
      nodes.length = (exts.length + 125) / 126 + indexNodes ((exts.length + 125) / 126) := by
  obtain ⟨blocks, idx, u, hlen, rfl, hcalls, hindex⟩ := buildBtree_eq_ok h
  have hfst := map_fst_leafNodes hlen
  have hleaves : (leafNodes blocks (chunkBtreeExtents exts)).length = (exts.length + 125) / 126 := by
    rw [← List.length_map Prod.fst, hfst, hlen, length_chunkBtreeExtents]
  refine ⟨by rwa [List.map_append, hfst], ?_⟩
  unfold buildBtreeIndex at hindex
  split_ifs at hindex with hne
  · exact absurd (Prod.mk.inj hindex).1 (by simp)
  · have hidx := length_buildUp (List.length_pos_iff.mpr hne) hindex
    rw [List.length_map, hleaves] at hidx
    rw [List.length_append, hleaves, hidx]

end Build

/-! ### An allocator that counts -/

/-- The allocator that hands out one block after the other. -/
def counter : Call ℕ ℕ := fun n => (.ok n, n + 1)

theorem repeats_counter {s t : ℕ} {blocks : List ℕ} (h : Call.Repeats counter s blocks t) :
    blocks = List.range' s blocks.length := by
  induction h with
  | nil => rfl
  | cons hcall _ ih =>
    obtain ⟨ha, rfl⟩ := Prod.mk.inj hcall
    obtain rfl := Except.ok.inj ha
    rw [List.length_cons, List.range'_succ, ← ih]

theorem distinct_counter {s t : ℕ} (hs : s ≠ 0) {blocks : List ℕ}
    (h : Call.Repeats counter s blocks t) : blocks.Nodup ∧ 0 ∉ blocks := by
  rw [repeats_counter h]
  refine ⟨List.nodup_range', fun hzero => ?_⟩
  rw [List.mem_range'_1] at hzero
  omega

/-- Extents of one block each. -/
def unitExtents (n : ℕ) : List Extent := (List.range n).map fun i => ⟨i, i + 1, 1, 0⟩

theorem ascending_unitExtents (n : ℕ) :
    ((unitExtents n).map Extent.offset).Pairwise (· < ·) := by
  rw [unitExtents, List.map_map]
  exact (List.pairwise_lt_range (n := n)).map _ fun _ _ h => h

theorem buildBtree_counter {n : ℕ} (hn : 0 < n) (s : ℕ) :
    ∃ root nodes t, buildBtree counter (unitExtents n) s = (.ok (root, nodes), t) ∧
      nodes.length = (n + 125) / 126 + indexNodes ((n + 125) / 126) := by
  have hlen : (unitExtents n).length = n := by rw [unitExtents, List.length_map, List.length_range]
  have htotal : Call.Triple False (fun _ => True) counter fun _ _ => True := fun _ _ => trivial
  have hbuild := triple_buildBtree htotal
    (List.ne_nil_of_length_pos (by rwa [hlen]))
  obtain ⟨⟨root, nodes⟩, t, h, -⟩ := hbuild.succeeds (s := s) trivial
  have hcount := (length_buildBtree h).2
  rw [hlen] at hcount
  exact ⟨root, nodes, t, h, hcount⟩

theorem walkBtree_buildBtree_counter :
    ∃ root nodes t, buildBtree counter (unitExtents 127) 1 = (.ok (root, nodes), t) ∧
      nodes.length = 3 ∧
      ∀ load : Loader, (∀ x ∈ nodes, load x.1 = .ok x.2) → ∀ x ∈ nodes, Shaped load nodes x.2 := by
  obtain ⟨root, nodes, t, h, hcount⟩ := buildBtree_counter (n := 127) (by norm_num) 1
  have hne : unitExtents 127 ≠ [] := List.ne_nil_of_length_pos (by simp [unitExtents])
  obtain ⟨-, hbuilt⟩ := @walkBtree_buildBtree _ _ counter (1 : ℕ) hne
    (ascending_unitExtents 127) fun _ _ => distinct_counter one_ne_zero
  refine ⟨root, nodes, t, h, ?_, fun load hload => ((hbuilt root nodes t h).2 load hload).1⟩
  rw [hcount, indexNodes, if_pos (by norm_num), indexNodes, if_neg]
  · rfl
  · norm_num [nodeCount, btreeIdxFanout]

end Briefs.Btree
