import Briefs.Disk.Inode

/-!
# Walking an extent index

`WalkBtree` of `btree.go`: the index of a file is a B+ tree whose leaves hold extents by
offset. A node is handed over once it is read and has passed its own checks; the strict
walk ends at the first fault, the tolerant one leaves out the subtree. No visitor stops a
walk, so the nodes and the faults are all there is to it. The callers modelled here ask
for the checksums and pass over null children.
-/

namespace Briefs.Btree

def btreeLeafFanout : ℕ := 126
def btreeIdxFanout : ℕ := 253
def btreeMaxDepth : ℕ := 16

structure BtreeIdxEntry where
  child : ℕ
  highKey : ℕ
  deriving DecidableEq, Repr

/-- A block with the magic number of a node. -/
structure Node where
  leaf : Bool
  level : ℕ
  numKeys : ℕ
  extents : List Extent := []
  idx : List BtreeIdxEntry := []
  trailingChild : ℕ := 0
  nextLeaf : ℕ := 0
  /-- `VerifyBtreeNodeChecksum` accepts the stored checksum. -/
  sumOk : Bool := true
  deriving DecidableEq, Repr

inductive BtreeError
  | read
  | badMagic
  | checksum
  | depth
  | cycle
  | unsorted
  | countOverflow
  | badHighKey
  | badChild
  | crossLeafUnsorted
  | countMismatch
  deriving DecidableEq, Repr

namespace Node

variable (n : Node)

def leafExtents : List Extent := (List.range n.numKeys).map fun i => n.extents.getD i ⟨0, 0, 0, 0⟩

def entries : List BtreeIdxEntry := (List.range n.numKeys).map fun i => n.idx.getD i ⟨0, 0⟩

def children : List ℕ := n.entries.map BtreeIdxEntry.child ++ [n.trailingChild]

end Node

def ascending : List ℕ → Bool
  | a :: b :: l => decide (a < b) && ascending (b :: l)
  | _ => true

/-- A block read as a node: `.read` or `.badMagic` where that is not possible. -/
abbrev Loader := ℕ → Except BtreeError Node

namespace Loader

variable (load : Loader) {leaves : List (ℕ × List Extent)} {nodes : List ℕ}

/-- What a node has to pass before it is handed over. -/
def accept (block : ℕ) : Except BtreeError Node :=
  match load block with
  | .error e => .error e
  | .ok n =>
    if !n.sumOk then .error .checksum
    else if n.leaf then
      if btreeLeafFanout < n.numKeys then .error .countOverflow
      else if !ascending (n.leafExtents.map Extent.offset) then .error .unsorted
      else .ok n
    else if btreeIdxFanout < n.numKeys then .error .countOverflow
    else .ok n

/-- `BtreeNodeInfo`. -/
structure Info where
  block : ℕ
  node : Node
  isRoot : Bool
  expectedLevel : ℕ

structure Trace where
  visited : List ℕ := []
  nodes : List Info := []
  faults : List (ℕ × BtreeError) := []

def Trace.fault (t : Trace) (block : ℕ) (e : BtreeError) : Trace :=
  { t with faults := t.faults ++ [(block, e)] }

/-- Walk into one child after the other; a strict walk stops at a fault. -/
def walkChildren (tolerant : Bool) (walk : ℕ → Trace → Trace) : List ℕ → Trace → Trace
  | [], t => t
  | c :: cs, t =>
    let t' := walk c t
    if !tolerant && !t'.faults.isEmpty then t' else walkChildren tolerant walk cs t'

/-- `walkBtreeNode`, with the number of levels left before the depth is exceeded. -/
def walkBtreeNode (tolerant : Bool) : ℕ → ℕ → Bool → ℕ → Trace → Trace
  | 0, _, _, block, t => if block = 0 then t else t.fault block .depth
  | budget + 1, expectedLevel, isRoot, block, t =>
    if block = 0 then t
    else if block ∈ t.visited then t.fault block .cycle
    else
      let t : Trace := { t with visited := block :: t.visited }
      match load.accept block with
      | .error e => t.fault block e
      | .ok n =>
        let t : Trace := { t with nodes := t.nodes ++ [⟨block, n, isRoot, expectedLevel⟩] }
        if n.leaf then t
        else
          walkChildren tolerant
            (walkBtreeNode tolerant budget ((n.level + 2 ^ 16 - 1) % 2 ^ 16) false) n.children t

/-- `WalkBtree`. -/
def walkBtree (tolerant : Bool) (root : ℕ) : Trace :=
  load.walkBtreeNode tolerant (btreeMaxDepth + 1) 0 true root {}

/-- A block of a subtree that passes the checks of the walk. -/
def Passes (block : ℕ) (n : Node) : Prop := block ≠ 0 ∧ load.accept block = .ok n

/-- The leaves among the nodes handed over, with the extents they hold. -/
def leavesOf (nodes : List Info) : List (ℕ × List Extent) :=
  (nodes.filter fun i => i.node.leaf).map fun i => (i.block, i.node.leafExtents)

/-- The subtree at a block: how many levels lie below it, its leaves from left to right
and its nodes in the order of the walk. -/
def Denotes : ℕ → ℕ → List (ℕ × List Extent) → List ℕ → Prop
  | 0, block, leaves, nodes =>
    ∃ n, load.Passes block n ∧ n.leaf = true ∧ leaves = [(block, n.leafExtents)] ∧ nodes = [block]
  | depth + 1, block, leaves, nodes =>
    ∃ n parts, load.Passes block n ∧ n.leaf = false ∧
      List.Forall₂ (fun c part => Denotes depth c part.1 part.2) n.children parts ∧
      leaves = parts.flatMap Prod.fst ∧ nodes = block :: parts.flatMap Prod.snd

/-- What a walk adds to its trace where it meets no fault. -/
structure Adds (leaves : List (ℕ × List Extent)) (nodes : List ℕ) (t t' : Trace) : Prop where
  faults : t'.faults = []
  visited : ∀ b, b ∈ t'.visited ↔ b ∈ nodes ∨ b ∈ t.visited
  handed : ∃ new, t'.nodes = t.nodes ++ new ∧ new.map Info.block = nodes ∧ leavesOf new = leaves

variable {load}

theorem Adds.append {leaves leaves' : List (ℕ × List Extent)} {nodes nodes' : List ℕ}
    {t t' t'' : Trace} (h : Adds leaves nodes t t') (h' : Adds leaves' nodes' t' t'') :
    Adds (leaves ++ leaves') (nodes ++ nodes') t t'' := by
  obtain ⟨new, hnew, hblocks, hleaves⟩ := h.handed
  obtain ⟨more, hmore, hblocks', hleaves'⟩ := h'.handed
  refine ⟨h'.faults, ?_, new ++ more, ?_, ?_, ?_⟩
  · intro b
    rw [h'.visited, h.visited, List.mem_append]
    tauto
  · rw [hmore, hnew, List.append_assoc]
  · rw [List.map_append, hblocks, hblocks']
  · rw [leavesOf, List.filter_append, List.map_append, ← hleaves, ← hleaves', leavesOf, leavesOf]

theorem adds_walkChildren (tolerant : Bool) {walk : ℕ → Trace → Trace} {cs : List ℕ}
    {parts : List (List (ℕ × List Extent) × List ℕ)}
    (hwalk : List.Forall₂ (fun c part => ∀ t : Trace, t.faults = [] → part.2.Nodup →
      (∀ b ∈ part.2, b ∉ t.visited) → Adds part.1 part.2 t (walk c t)) cs parts)
    (t : Trace) (hfaults : t.faults = []) (hnodup : (parts.flatMap Prod.snd).Nodup)
    (hvisited : ∀ b ∈ parts.flatMap Prod.snd, b ∉ t.visited) :
    Adds (parts.flatMap Prod.fst) (parts.flatMap Prod.snd) t
      (walkChildren tolerant walk cs t) := by
  induction hwalk generalizing t with
  | nil => exact ⟨hfaults, by simp [walkChildren], [], by simp [walkChildren], rfl, rfl⟩
  | @cons c part cs parts hc hcs ih =>
    rw [List.flatMap_cons] at hnodup hvisited
    obtain ⟨hpart, hparts, hapart⟩ := List.nodup_append.mp hnodup
    have hstep := hc t hfaults hpart fun b hb => hvisited b (List.mem_append_left _ hb)
    have hrest := ih (walk c t) hstep.faults hparts (by
      intro b hb hmem
      rcases (hstep.visited b).mp hmem with hin | hin
      · exact hapart b hin b hb rfl
      · exact hvisited b (List.mem_append_right _ hb) hin)
    rw [walkChildren]
    simp only [hstep.faults, List.isEmpty_nil, Bool.not_true, Bool.and_false, Bool.false_eq_true,
      if_false]
    exact hstep.append hrest

/-- A walk from a node hands over the nodes of its subtree. -/
theorem adds_walkBtreeNode (tolerant : Bool) {depth block : ℕ}
    (h : load.Denotes depth block leaves nodes) (budget expectedLevel : ℕ) (isRoot : Bool)
    (t : Trace) (hbudget : depth < budget) (hfaults : t.faults = []) (hnodup : nodes.Nodup)
    (hvisited : ∀ b ∈ nodes, b ∉ t.visited) :
    Adds leaves nodes t (load.walkBtreeNode tolerant budget expectedLevel isRoot block t) := by
  induction depth generalizing budget expectedLevel isRoot block leaves nodes t with
  | zero =>
    obtain ⟨n, ⟨hne, hacc⟩, hleaf, rfl, rfl⟩ := h
    obtain ⟨budget, rfl⟩ := Nat.exists_eq_succ_of_ne_zero (Nat.ne_of_gt hbudget)
    have hnot := hvisited block List.mem_cons_self
    simp only [walkBtreeNode, hne, hnot, hacc, hleaf, if_false, if_true]
    refine ⟨hfaults, by simp, _, rfl, rfl, ?_⟩
    simp [leavesOf, hleaf]
  | succ depth ih =>
    obtain ⟨n, parts, ⟨hne, hacc⟩, hleaf, hparts, rfl, rfl⟩ := h
    obtain ⟨budget, rfl⟩ := Nat.exists_eq_succ_of_ne_zero (Nat.ne_of_gt (Nat.zero_lt_of_lt hbudget))
    have hnot := hvisited block List.mem_cons_self
    obtain ⟨hblock, hrest⟩ := List.nodup_cons.mp hnodup
    simp only [walkBtreeNode, hne, hnot, hacc, hleaf, if_false,
      Bool.false_eq_true]
    have hself : Adds [] [block] t { t with
        visited := block :: t.visited,
        nodes := t.nodes ++ [⟨block, n, isRoot, expectedLevel⟩] } :=
      ⟨hfaults, by simp, _, rfl, rfl, by simp [leavesOf, hleaf]⟩
    refine hself.append (adds_walkChildren tolerant (hparts.imp ?_) _ hfaults hrest ?_)
    · intro c part hpart t' hfaults' hnodup' hvisited'
      exact ih hpart budget _ false t' (by omega) hfaults' hnodup' hvisited'
    · intro b hb hmem
      rcases List.mem_cons.mp hmem with rfl | hmem
      · exact hblock hb
      · exact hvisited b (List.mem_cons_of_mem _ hb) hmem

theorem adds_walkBtree (tolerant : Bool) {depth root : ℕ}
    (h : load.Denotes depth root leaves nodes) (hdepth : depth ≤ btreeMaxDepth)
    (hnodup : nodes.Nodup) : Adds leaves nodes {} (load.walkBtree tolerant root) :=
  adds_walkBtreeNode tolerant h _ _ _ _ (Nat.lt_succ_of_le hdepth) rfl hnodup (by simp)

/-- A tree depends on its own nodes only. -/
theorem Denotes.congr {load' : Loader} {depth block : ℕ}
    (h : load.Denotes depth block leaves nodes)
    (hsame : ∀ b ∈ nodes, load' b = load b) : load'.Denotes depth block leaves nodes := by
  have hpasses : ∀ {b n}, load' b = load b → load.Passes b n → load'.Passes b n := by
    intro b n heq hpass
    refine ⟨hpass.1, ?_⟩
    rw [← hpass.2, accept, accept, heq]
  induction depth generalizing block leaves nodes with
  | zero =>
    obtain ⟨n, hpass, hleaf, rfl, rfl⟩ := h
    exact ⟨n, hpasses (hsame block List.mem_cons_self) hpass, hleaf, rfl, rfl⟩
  | succ depth ih =>
    obtain ⟨n, parts, hpass, hleaf, hparts, rfl, rfl⟩ := h
    refine ⟨n, parts, hpasses (hsame block List.mem_cons_self) hpass, hleaf, ?_, rfl, rfl⟩
    refine (List.forall₂_iff_zip.mpr ⟨hparts.length_eq, ?_⟩)
    intro c part hmem
    refine ih (List.forall₂_zip hparts hmem) ?_
    intro b hb
    exact hsame b (List.mem_cons_of_mem _ (List.mem_flatMap.mpr ⟨part, (List.of_mem_zip hmem).2, hb⟩))

end Loader

end Briefs.Btree
