import Briefs.Btree.Walk
import Briefs.Lib.Call

/-!
# Building an extent index

`btree_build.go`: the extents are cut into full leaves, and level after level is put over
them until one node is left, the children spread evenly over the nodes of a level. The
blocks come from `alloc`, one call for each node; a node is returned with its block and
written by the caller.
-/

namespace Briefs.Btree

open Lib

/-- `ChunkBtreeExtents`. -/
def chunkBtreeExtents (exts : List Extent) : List (List Extent) :=
  (List.range ((exts.length + btreeLeafFanout - 1) / btreeLeafFanout)).map fun i =>
    (exts.drop (i * btreeLeafFanout)).take btreeLeafFanout

/-- `BuildBtreeLeafBuf`. -/
def buildBtreeLeafBuf (chunk : List Extent) (next : ℕ) : Node where
  leaf := true
  level := 0
  numKeys := chunk.length
  extents := chunk
  nextLeaf := next

/-- The leaves for the chunks, each with a pointer to the one behind it. -/
def leafNodes : List ℕ → List (List Extent) → List (ℕ × Node)
  | block :: blocks, chunk :: chunks =>
    (block, buildBtreeLeafBuf chunk (blocks.headD 0)) :: leafNodes blocks chunks
  | _, _ => []

def firstOffset (chunk : List Extent) : ℕ := (chunk.headD ⟨0, 0, 0, 0⟩).offset

/-- A subtree under construction: its block and its smallest key. -/
abbrev Child := ℕ × ℕ

/-- The number of nodes over `n` children. -/
def nodeCount (n : ℕ) : ℕ := (n + btreeIdxFanout) / (btreeIdxFanout + 1)

/-- The sizes of the nodes of a level with `n` children, as even as can be. -/
def bucketSizes (n : ℕ) : List ℕ :=
  (List.range (nodeCount n)).map fun i =>
    if i < n % nodeCount n then n / nodeCount n + 1 else n / nodeCount n

/-- Cut a list into pieces of the given sizes. -/
def cutSizes {α : Type} : List ℕ → List α → List (List α)
  | [], _ => []
  | k :: sizes, l => l.take k :: cutSizes sizes (l.drop k)

/-- The node over the children of a bucket. -/
def indexNode (level : ℕ) (bucket : List Child) : Node where
  leaf := false
  level := level
  numKeys := bucket.length - 1
  idx := List.zipWith (fun c d => ⟨c.1, d.2⟩) bucket bucket.tail
  trailingChild := (bucket.getLastD (0, 0)).1

section Build

variable {σ : Type} (alloc : Call σ ℕ)

def buildBtreeLeaves (exts : List Extent) : Call σ (List (ℕ × Node)) :=
  if exts = [] then Call.fail (.text "BuildBtreeLeaves: no extents")
  else do
    let blocks ← Call.times (Call.context "alloc leaf" alloc) (chunkBtreeExtents exts).length
    pure (leafNodes blocks (chunkBtreeExtents exts))

/-- One level of `BuildBtreeIndex`: the nodes and, for the level above, their smallest keys. -/
def buildLevel (level : ℕ) : List (List Child) → Call σ (List (ℕ × Node) × List Child)
  | [] => pure ([], [])
  | bucket :: rest => do
    let block ← Call.context "alloc idx node" alloc
    let (nodes, next) ← buildLevel level rest
    pure ((block, indexNode level bucket) :: nodes, (block, (bucket.headD (0, 0)).2) :: next)

/-- The levels of `BuildBtreeIndex`, with the number of levels that are left. -/
def buildUp : ℕ → ℕ → List Child → Call σ (Child × List (ℕ × Node))
  | 0, _, _ => Call.fail .crash
  | fuel + 1, level, cur =>
    if cur.length = 1 then pure (cur.headD (0, 0), [])
    else do
      let (nodes, next) ← buildLevel alloc level (cutSizes (bucketSizes cur.length) cur)
      let (root, more) ← buildUp fuel (level + 1) next
      pure (root, nodes ++ more)

/-- `BuildBtreeIndex`: the root with its smallest key and the nodes over the children. -/
def buildBtreeIndex (children : List Child) (level : ℕ) : Call σ (Child × List (ℕ × Node)) :=
  if children = [] then Call.fail (.text "BuildBtreeIndex: no children")
  else buildUp alloc children.length level children

/-- The leaves and the levels over them, as a full rebuild makes them. -/
def buildBtree (exts : List Extent) : Call σ (Child × List (ℕ × Node)) := do
  let leaves ← buildBtreeLeaves alloc exts
  let (root, idx) ← buildBtreeIndex alloc
    (leaves.map fun x => (x.1, firstOffset x.2.extents)) 1
  pure (root, leaves ++ idx)

end Build

/-! ### Chunks -/

theorem flatten_pieces {α : Type} (l : List α) (n k : ℕ) :
    ((List.range k).map fun i => (l.drop (i * n)).take n).flatten = l.take (k * n) := by
  induction k with
  | zero => simp
  | succ k ih =>
    rw [List.range_succ, List.map_append, List.flatten_append, ih, Nat.succ_mul, List.take_add]
    simp

theorem flatten_chunkBtreeExtents (exts : List Extent) : (chunkBtreeExtents exts).flatten = exts := by
  rw [chunkBtreeExtents, flatten_pieces, List.take_of_length_le]
  simp only [btreeLeafFanout]
  omega

theorem length_chunkBtreeExtents (exts : List Extent) :
    (chunkBtreeExtents exts).length = (exts.length + 125) / 126 := by
  simp [chunkBtreeExtents, btreeLeafFanout]

theorem mem_chunkBtreeExtents {exts chunk : List Extent} (h : chunk ∈ chunkBtreeExtents exts) :
    chunk ≠ [] ∧ chunk.length ≤ btreeLeafFanout ∧ chunk.Sublist exts := by
  obtain ⟨i, hi, rfl⟩ := List.mem_map.mp h
  rw [List.mem_range] at hi
  simp only [btreeLeafFanout] at hi ⊢
  refine ⟨?_, ?_, (List.take_sublist _ _).trans (List.drop_sublist _ _)⟩
  · apply List.ne_nil_of_length_pos
    rw [List.length_take, List.length_drop]
    omega
  · rw [List.length_take]
    omega

theorem chunks_ascending {exts : List Extent}
    (h : (exts.map Extent.offset).Pairwise (· < ·)) :
    ∀ c ∈ chunkBtreeExtents exts,
      c.length ≤ btreeLeafFanout ∧ (c.map Extent.offset).Pairwise (· < ·) := by
  intro c hc
  obtain ⟨-, hlen, hsub⟩ := mem_chunkBtreeExtents hc
  exact ⟨hlen, h.sublist (hsub.map _)⟩

/-! ### Levels -/

theorem sum_spread (k r b : ℕ) (hr : r ≤ k) :
    ((List.range k).map fun i => if i < r then b + 1 else b).sum = b * k + r := by
  induction k generalizing r with
  | zero =>
    obtain rfl : r = 0 := by omega
    rfl
  | succ k ih =>
    rw [List.range_succ, List.map_append, List.sum_append, List.map_singleton, List.sum_singleton]
    by_cases hlast : k < r
    · have hall : ((List.range k).map fun i => if i < r then b + 1 else b) =
          (List.range k).map fun i => if i < k then b + 1 else b := by
        refine List.map_congr_left fun i hi => ?_
        rw [List.mem_range] at hi
        rw [if_pos hi, if_pos (hi.trans hlast)]
      rw [hall, ih k le_rfl, if_pos hlast, Nat.mul_succ]
      omega
    · rw [ih r (by omega), if_neg hlast, Nat.mul_succ]
      omega

theorem length_cutSizes {α : Type} (sizes : List ℕ) (l : List α) :
    (cutSizes sizes l).length = sizes.length := by
  induction sizes generalizing l with
  | nil => rfl
  | cons k sizes ih => rw [cutSizes, List.length_cons, List.length_cons, ih]

theorem nodeCount_bounds {n : ℕ} (hn : 0 < n) :
    0 < nodeCount n ∧ nodeCount n ≤ n ∧ n ≤ 254 * nodeCount n := by
  simp only [nodeCount, btreeIdxFanout]
  omega

theorem bucketSizes_spec {n : ℕ} (hn : 2 ≤ n) :
    (bucketSizes n).sum = n ∧ (∀ k ∈ bucketSizes n, 2 ≤ k ∧ k ≤ 254) ∧
      (bucketSizes n).length = nodeCount n := by
  obtain ⟨hnodes, -, hle⟩ := nodeCount_bounds (Nat.zero_lt_of_lt hn)
  have hge : 2 * nodeCount n ≤ n := by
    simp only [nodeCount, btreeIdxFanout]
    omega
  unfold bucketSizes
  generalize nodeCount n = nNodes at *
  have hdiv := Nat.div_add_mod n nNodes
  have hmod := Nat.mod_lt n hnodes
  refine ⟨?_, ?_, by simp⟩
  · rw [sum_spread _ _ _ hmod.le, Nat.mul_comm, hdiv]
  · intro k hk
    obtain ⟨i, -, rfl⟩ := List.mem_map.mp hk
    have htwo : 2 ≤ n / nNodes := (Nat.le_div_iff_mul_le hnodes).mpr hge
    have hmost : n / nNodes ≤ 254 := Nat.div_le_of_le_mul (by rwa [Nat.mul_comm])
    split_ifs with hrem
    · refine ⟨htwo.trans (Nat.le_succ _),
        Nat.succ_le_of_lt (lt_of_le_of_ne hmost fun heq => ?_)⟩
      rw [heq] at hdiv
      omega
    · exact ⟨htwo, hmost⟩

variable {load : Loader}

theorem map_getD_range {α : Type} (l : List α) (d : α) {n : ℕ} (hn : n = l.length) :
    ((List.range n).map fun i => l.getD i d) = l := by
  subst hn
  apply List.ext_getElem
  · simp
  · intro i h₁ h₂
    simp [List.getElem?_eq_getElem h₂]

theorem entries_indexNode (level : ℕ) (bucket : List Child) :
    (indexNode level bucket).entries =
      List.zipWith (fun c d => ⟨c.1, d.2⟩) bucket bucket.tail := by
  apply map_getD_range
  simp only [indexNode, List.length_zipWith, List.length_tail]
  omega

theorem children_indexNode (level : ℕ) (bucket : List Child) (h : bucket ≠ []) :
    (indexNode level bucket).children = bucket.map Prod.fst := by
  rw [Node.children, entries_indexNode]
  simp only [indexNode]
  induction bucket with
  | nil => exact absurd rfl h
  | cons c rest ih =>
    cases rest with
    | nil => rfl
    | cons d rest =>
      have := ih (List.cons_ne_nil d rest)
      simpa using this

theorem passes_indexNode {level block : ℕ} {bucket : List Child} (hblock : block ≠ 0)
    (hload : load block = .ok (indexNode level bucket)) (hlen : bucket.length ≤ 254) :
    load.Passes block (indexNode level bucket) := by
  have hfew : ¬253 < bucket.length - 1 := by omega
  refine ⟨hblock, ?_⟩
  simp only [Loader.accept, hload, indexNode, btreeIdxFanout, hfew, Bool.not_true,
    Bool.false_eq_true, if_false]

/-- The leaves and the nodes of a subtree. -/
abbrev Part := List (ℕ × List Extent) × List ℕ

/-- Trees, one for each child, over which a level is put. -/
abbrev Grove (load : Loader) (depth : ℕ) (cur : List Child)
    (parts : List (List (ℕ × List Extent) × List ℕ)) : Prop :=
  List.Forall₂ (fun c part => load.Denotes depth c part.1 part.2) (cur.map Prod.fst) parts

section Build

variable {σ : Type} {alloc : Call σ ℕ} {level : ℕ} {nodes : List (ℕ × Node)} {parts : List Part}
  {cur : List Child} {s t : σ} {root : Child}

theorem repeats_buildLevel {buckets : List (List Child)}
    {next : List Child} (h : buildLevel alloc level buckets s = (.ok (nodes, next), t)) :
    Call.Repeats alloc s (nodes.map Prod.fst) t ∧ nodes.length = buckets.length ∧
      next.length = buckets.length := by
  induction buckets generalizing s nodes next with
  | nil =>
    obtain ⟨hres, rfl⟩ := Call.pure_eq_ok h
    cases hres
    exact ⟨.nil, rfl, rfl⟩
  | cons bucket rest ih =>
    obtain ⟨block, u, hblock, h⟩ := Call.bind_eq_ok h
    obtain ⟨⟨nodes', next'⟩, v, hrest, h⟩ := Call.bind_eq_ok h
    obtain ⟨hres, rfl⟩ := Call.pure_eq_ok h
    cases hres
    obtain ⟨hcalls, hlen, hlen'⟩ := ih hrest
    exact ⟨.cons (Call.context_eq_ok hblock) hcalls, by simp [hlen], by simp [hlen']⟩

/-- The node over a bucket of two children or more, with the subtrees of the children. -/
def Covers (R : Child → Part → Prop) (level : ℕ) (leaves : List (ℕ × List Extent)) (n : Node) :
    Prop :=
  ∃ bucket parts, n = indexNode level bucket ∧ 2 ≤ bucket.length ∧ bucket.length ≤ 254 ∧
    List.Forall₂ R bucket parts ∧ (parts.flatMap Prod.fst).Sublist leaves

/-- What one level does: a relation `R` between children and subtrees gives `Q` between the
new nodes and theirs, with the same leaves. -/
theorem buildLevel_rule {R Q : Child → Part → Prop} {sizes : List ℕ}
    (hsizes : ∀ k ∈ sizes, 2 ≤ k ∧ k ≤ 254)
    (hcur : List.Forall₂ R cur parts) (hsum : sizes.sum = cur.length)
    {next : List Child}
    (h : buildLevel alloc level (cutSizes sizes cur) s = (.ok (nodes, next), t))
    (hstep : ∀ block bucket ps, 2 ≤ bucket.length → bucket.length ≤ 254 →
      List.Forall₂ R bucket ps → (block, indexNode level bucket) ∈ nodes →
      Q (block, (bucket.headD (0, 0)).2)
        (ps.flatMap Prod.fst, block :: ps.flatMap Prod.snd)) :
    ∃ parts', List.Forall₂ Q next parts' ∧
      parts'.flatMap Prod.fst = parts.flatMap Prod.fst ∧
      (parts'.flatMap Prod.snd).Perm (nodes.map Prod.fst ++ parts.flatMap Prod.snd) ∧
      ∀ x ∈ nodes, Covers R level (parts.flatMap Prod.fst) x.2 := by
  induction sizes generalizing cur parts s nodes next with
  | nil =>
    obtain ⟨hres, rfl⟩ := Call.pure_eq_ok h
    cases hres
    obtain rfl : cur = [] := List.length_eq_zero_iff.mp hsum.symm
    cases hcur
    exact ⟨[], .nil, rfl, .refl _, by simp⟩
  | cons k sizes ih =>
    obtain ⟨hk, hsizes⟩ := List.forall_mem_cons.mp hsizes
    rw [List.sum_cons] at hsum
    obtain ⟨block, u, hblock, h⟩ := Call.bind_eq_ok h
    obtain ⟨⟨nodes', next'⟩, v, hrest, h⟩ := Call.bind_eq_ok h
    obtain ⟨hres, rfl⟩ := Call.pure_eq_ok h
    cases hres
    have hlen : (cur.take k).length = k := by
      rw [List.length_take]
      omega
    have htake := List.forall₂_take k hcur
    have hleaves : parts.flatMap Prod.fst =
        (parts.take k).flatMap Prod.fst ++ (parts.drop k).flatMap Prod.fst := by
      rw [← List.flatMap_append, List.take_append_drop]
    obtain ⟨parts', hforest, hsame, hnodes, hcovers⟩ := ih hsizes (List.forall₂_drop k hcur) (by
      rw [List.length_drop]
      omega) hrest fun block bucket ps hmin hmax hps hmem =>
        hstep block bucket ps hmin hmax hps (List.mem_cons_of_mem _ hmem)
    have hnode := hstep block (cur.take k) (parts.take k) (by omega) (by omega) htake
      List.mem_cons_self
    refine ⟨_ :: parts', .cons hnode hforest, ?_, ?_, ?_⟩
    · rw [List.flatMap_cons, hsame, hleaves]
    · rw [List.flatMap_cons, List.map_cons]
      rw [List.cons_append, List.cons_append]
      refine List.Perm.cons _ ?_
      have hswap := List.perm_append_comm_assoc ((parts.take k).flatMap Prod.snd)
        (nodes'.map Prod.fst) ((parts.drop k).flatMap Prod.snd)
      rw [← List.flatMap_append, List.take_append_drop] at hswap
      exact (hnodes.append_left _).trans hswap
    · rw [hleaves]
      refine List.forall_mem_cons.mpr ⟨?_, ?_⟩
      · exact ⟨_, _, rfl, by omega, by omega, htake, List.sublist_append_left _ _⟩
      · intro x hx
        obtain ⟨bucket, ps, hx, hmin, hmax, hps, hsub⟩ := hcovers x hx
        exact ⟨bucket, ps, hx, hmin, hmax, hps, hsub.trans (List.sublist_append_right _ _)⟩

/-- The blocks of the nodes that are built come from the allocator, in order. -/
theorem repeats_buildUp {fuel : ℕ}
    (h : buildUp alloc fuel level cur s = (.ok (root, nodes), t)) :
    Call.Repeats alloc s (nodes.map Prod.fst) t := by
  induction fuel generalizing level cur s nodes with
  | zero => exact absurd (Prod.mk.inj h).1 (by simp)
  | succ fuel ih =>
    rw [buildUp] at h
    split_ifs at h
    · obtain ⟨hres, rfl⟩ := Call.pure_eq_ok h
      cases hres
      exact .nil
    · obtain ⟨⟨nodes', next⟩, u, hlevel, h⟩ := Call.bind_eq_ok h
      obtain ⟨⟨root', more⟩, v, hup, h⟩ := Call.bind_eq_ok h
      obtain ⟨hres, rfl⟩ := Call.pure_eq_ok h
      cases hres
      rw [List.map_append]
      exact (repeats_buildLevel hlevel).1.append (ih hup)

/-- What the levels do together. Each of them divides the number of subtrees by 254, so there
are few. -/
theorem buildUp_rule {R : ℕ → Child → Part → Prop} (base : ℕ) {k fuel height : ℕ}
    (hcur : List.Forall₂ (R k) cur parts) (hne : cur ≠ [])
    (hheight : cur.length ≤ 254 ^ height)
    (h : buildUp alloc fuel (base + k) cur s = (.ok (root, nodes), t))
    (hstep : ∀ j block bucket ps, 2 ≤ bucket.length → bucket.length ≤ 254 →
      List.Forall₂ (R j) bucket ps → (block, indexNode (base + j) bucket) ∈ nodes →
      R (j + 1) (block, (bucket.headD (0, 0)).2)
        (ps.flatMap Prod.fst, block :: ps.flatMap Prod.snd)) :
    ∃ k' all, k' ≤ k + height ∧ R k' root (parts.flatMap Prod.fst, all) ∧
      all.Perm (nodes.map Prod.fst ++ parts.flatMap Prod.snd) ∧
      ∀ x ∈ nodes, ∃ j, Covers (R j) (base + j) (parts.flatMap Prod.fst) x.2 := by
  induction fuel generalizing k height cur parts s nodes with
  | zero => exact absurd (Prod.mk.inj h).1 (by simp)
  | succ fuel ih =>
    rw [buildUp] at h
    split_ifs at h with hone
    · obtain ⟨c, rfl⟩ := List.length_eq_one_iff.mp hone
      obtain ⟨hres, rfl⟩ := Call.pure_eq_ok h
      cases hres
      obtain ⟨part, rest, hpart, hrest, rfl⟩ := List.forall₂_cons_left_iff.mp hcur
      rw [List.forall₂_nil_left_iff] at hrest
      subst hrest
      exact ⟨k, part.2, Nat.le_add_right _ _, by simpa using hpart, by simp, by simp⟩
    · have hpos : 0 < cur.length := List.length_pos_iff.mpr hne
      obtain ⟨⟨nodes', next⟩, u, hlevel, h⟩ := Call.bind_eq_ok h
      obtain ⟨⟨root', more⟩, v, hup, h⟩ := Call.bind_eq_ok h
      obtain ⟨hres, rfl⟩ := Call.pure_eq_ok h
      cases hres
      obtain ⟨hsum, hsizes, hcount⟩ := bucketSizes_spec (n := cur.length) (by omega)
      obtain ⟨parts', hforest, hleaves, hblocks, hcovers⟩ := buildLevel_rule (Q := R (k + 1))
        hsizes hcur hsum hlevel fun block bucket ps hmin hmax hps hmem =>
          hstep k block bucket ps hmin hmax hps (List.mem_append_left _ hmem)
      have hlen : next.length = nodeCount cur.length := by
        rw [(repeats_buildLevel hlevel).2.2, length_cutSizes, hcount]
      obtain ⟨hnodes, -, hmost⟩ := nodeCount_bounds hpos
      obtain ⟨height, rfl⟩ : ∃ h, height = h + 1 := by
        refine Nat.exists_eq_succ_of_ne_zero ?_
        rintro rfl
        rw [pow_zero] at hheight
        omega
      have hfew : next.length ≤ 254 ^ height := by
        rw [hlen, nodeCount, btreeIdxFanout, pow_succ] at *
        omega
      obtain ⟨k', all, hk, hroot, hall, hmore⟩ :=
        ih hforest (List.ne_nil_of_length_pos (by omega)) hfew hup
          fun j block bucket ps hmin hmax hps hmem =>
            hstep j block bucket ps hmin hmax hps (List.mem_append_right _ hmem)
      rw [hleaves] at hroot hmore
      refine ⟨k', all, by omega, hroot, ?_, List.forall_mem_append.mpr ⟨?_, hmore⟩⟩
      · rw [List.map_append]
        refine hall.trans ((hblocks.append_left _).trans ?_)
        rw [← List.append_assoc]
        exact List.perm_append_comm.append_right _
      · exact fun x hx => ⟨k, hcovers x hx⟩

theorem denotes_indexNode {depth block : ℕ} {bucket : List Child}
    (hblock : block ≠ 0) (hload : load block = .ok (indexNode level bucket))
    (hmin : 2 ≤ bucket.length) (hmax : bucket.length ≤ 254)
    (hparts : List.Forall₂ (fun c part => load.Denotes depth c.1 part.1 part.2) bucket parts) :
    load.Denotes (depth + 1) block (parts.flatMap Prod.fst)
      (block :: parts.flatMap Prod.snd) := by
  have hne : bucket ≠ [] := List.ne_nil_of_length_pos (by omega)
  refine ⟨_, parts, passes_indexNode hblock hload hmax, rfl, ?_, rfl, rfl⟩
  rw [children_indexNode _ _ hne, List.forall₂_map_left_iff]
  exact hparts

/-- The levels put over trees give one tree with the same leaves. -/
theorem denotes_buildUp {depth fuel height : ℕ}
    (hcur : Grove load depth cur parts) (hne : cur ≠ []) (hheight : cur.length ≤ 254 ^ height)
    (h : buildUp alloc fuel level cur s = (.ok (root, nodes), t))
    (hload : ∀ x ∈ nodes, x.1 ≠ 0 ∧ load x.1 = .ok x.2) :
    ∃ depth' all, depth' ≤ depth + height ∧
      load.Denotes depth' root.1 (parts.flatMap Prod.fst) all ∧
      all.Perm (nodes.map Prod.fst ++ parts.flatMap Prod.snd) := by
  rw [Grove, List.forall₂_map_left_iff] at hcur
  obtain ⟨k, all, hk, hroot, hall, -⟩ := buildUp_rule level (k := 0)
    (R := fun k c part => load.Denotes (depth + k) c.1 part.1 part.2) hcur hne hheight h
    fun j block bucket ps hmin hmax hps hmem =>
      denotes_indexNode (hload _ hmem).1 (hload _ hmem).2 hmin hmax hps
  exact ⟨depth + k, all, by omega, hroot, hall⟩

end Build

/-! ### Leaves -/

theorem ascending_of_pairwise {l : List ℕ} (h : l.Pairwise (· < ·)) : ascending l = true := by
  induction l with
  | nil => rfl
  | cons a l ih =>
    obtain ⟨hfirst, hrest⟩ := List.pairwise_cons.mp h
    cases l with
    | nil => rfl
    | cons b l =>
      rw [ascending, ih hrest, decide_eq_true (hfirst b List.mem_cons_self)]
      rfl

theorem leafExtents_buildBtreeLeafBuf (chunk : List Extent) (next : ℕ) :
    (buildBtreeLeafBuf chunk next).leafExtents = chunk := map_getD_range _ _ rfl

theorem denotes_buildBtreeLeafBuf {block next : ℕ} {chunk : List Extent} (hblock : block ≠ 0)
    (hload : load block = .ok (buildBtreeLeafBuf chunk next)) (hlen : chunk.length ≤ btreeLeafFanout)
    (hsorted : (chunk.map Extent.offset).Pairwise (· < ·)) :
    load.Denotes 0 block [(block, chunk)] [block] := by
  refine ⟨buildBtreeLeafBuf chunk next, ⟨hblock, ?_⟩, rfl, ?_, rfl⟩
  · have hasc := ascending_of_pairwise hsorted
    have hfew : ¬btreeLeafFanout < (buildBtreeLeafBuf chunk next).numKeys := Nat.not_lt.mpr hlen
    rw [← leafExtents_buildBtreeLeafBuf chunk next] at hasc
    simp only [Loader.accept, hload, hfew, hasc, if_false]
    rfl
  · rw [leafExtents_buildBtreeLeafBuf]

theorem map_fst_leafNodes {blocks : List ℕ} {chunks : List (List Extent)}
    (h : blocks.length = chunks.length) : (leafNodes blocks chunks).map Prod.fst = blocks := by
  induction blocks generalizing chunks with
  | nil => rfl
  | cons b blocks ih =>
    cases chunks with
    | nil => simp at h
    | cons c chunks =>
      rw [leafNodes, List.map_cons, ih (by simpa using h)]

theorem exists_of_forall₂_right {α β : Type} {R : α → β → Prop} {l : List α} {m : List β}
    (h : List.Forall₂ R l m) {b : β} (hb : b ∈ m) : ∃ a, R a b := by
  induction h with
  | nil => exact absurd hb List.not_mem_nil
  | cons hab _ ih =>
    rcases List.mem_cons.mp hb with rfl | hb
    · exact ⟨_, hab⟩
    · exact ih hb

theorem denotes_leaf {depth block : ℕ} {leaves : List (ℕ × List Extent)} {nodes : List ℕ}
    (h : load.Denotes depth block leaves nodes) {x : ℕ × List Extent} (hx : x ∈ leaves) :
    load.Denotes 0 x.1 [x] [x.1] ∧ x.1 ∈ nodes := by
  induction depth generalizing block leaves nodes with
  | zero =>
    obtain ⟨n, hpass, hleaf, rfl, rfl⟩ := h
    rw [List.mem_singleton] at hx
    subst hx
    exact ⟨⟨n, hpass, hleaf, rfl, rfl⟩, List.mem_singleton.mpr rfl⟩
  | succ depth ih =>
    obtain ⟨n, parts, hpass, hleaf, hparts, rfl, rfl⟩ := h
    obtain ⟨part, hpart, hx⟩ := List.mem_flatMap.mp hx
    obtain ⟨c, hc⟩ := exists_of_forall₂_right hparts hpart
    obtain ⟨hself, hmem⟩ := ih hc hx
    exact ⟨hself, List.mem_cons_of_mem _ (List.mem_flatMap.mpr ⟨part, hpart, hmem⟩)⟩

theorem grove_leaves {cur : List Child} {leaves : List (ℕ × List Extent)}
    (hcur : cur.map Prod.fst = leaves.map Prod.fst)
    (h : ∀ x ∈ leaves, load.Denotes 0 x.1 [x] [x.1]) :
    Grove load 0 cur (leaves.map fun x => ([x], [x.1])) := by
  rw [Grove, hcur, List.forall₂_map_left_iff, List.forall₂_map_right_iff, List.forall₂_same]
  exact h

end Briefs.Btree
