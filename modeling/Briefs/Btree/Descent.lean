import Briefs.Btree.Build

/-!
# The descent behind every walk

`walkBtreeNode` of `btree.go` with all of its options, callbacks that may fail, and nodes
that may hold anything. The walk of `Briefs.Btree.Walk` is the case of checksums, skipped
null children and callbacks that only record. The depth limit ends the recursion; what was
handed over and the depth of every call are kept beside the state of the walk.
-/

namespace Briefs.Btree.Descent

open Lib

structure BtreeNodeInfo extends Loader.Info where
  depth : ℕ

/-- The error of a walk: a fault of a node, or the error of a callback. -/
inductive WalkError
  | fault (block : ℕ) (e : BtreeError)
  | visitor (e : Err)

/-- The callbacks, with the state they work on. -/
structure BtreeNodeVisitor (τ : Type) where
  visitNode : BtreeNodeInfo → τ → Option Err × τ
  visitLeaf : BtreeNodeInfo → List Extent → τ → Option Err × τ

structure BtreeWalkOptions (τ : Type) where
  verifyCRC : Bool
  nullChildIsFault : Bool
  tolerant : Bool
  onFault : ℕ → BtreeError → τ → τ

structure Walk (τ : Type) where
  visited : List ℕ := []
  handed : List BtreeNodeInfo := []
  depths : List ℕ := []
  outer : τ

/-- A part of a walk: the error it returns, if any. -/
abbrev Walking (τ : Type) := Walk τ → Option WalkError × Walk τ

/-- What a node has to pass before it is handed over. -/
def checkedNode (load : Loader) (verifyCRC : Bool) (block : ℕ) : Except BtreeError Node :=
  match load block with
  | .error e => .error e
  | .ok n =>
    if verifyCRC && !n.sumOk then .error .checksum
    else if n.leaf then
      if btreeLeafFanout < n.numKeys then .error .countOverflow
      else if !ascending (n.leafExtents.map Extent.offset) then .error .unsorted
      else .ok n
    else if btreeIdxFanout < n.numKeys then .error .countOverflow
    else .ok n

section Walk

variable {τ : Type}

def andThen (x y : Walking τ) : Walking τ := fun w =>
  match x w with
  | (some e, w) => (some e, w)
  | (none, w) => y w

def Walking.skip : Walking τ := fun w => (none, w)

/-- A callback; its error ends the walk. -/
def callback (f : τ → Option Err × τ) : Walking τ := fun w =>
  ((f w.outer).1.map .visitor, { w with outer := (f w.outer).2 })

variable (load : Loader) (opts : BtreeWalkOptions τ) (v : BtreeNodeVisitor τ)

/-- A tolerant walk reports the fault and goes on, a strict one returns it. -/
def fault (block : ℕ) (e : BtreeError) : Walking τ := fun w =>
  if opts.tolerant then (none, { w with outer := opts.onFault block e w.outer })
  else (some (.fault block e), w)

/-- The callbacks for a node. -/
def visit (info : BtreeNodeInfo) : Walking τ :=
  andThen (callback (v.visitNode info))
    (if info.node.leaf then callback (v.visitLeaf info info.node.leafExtents) else .skip)

def walkChildren (walk : ℕ → Walking τ) : List ℕ → Walking τ
  | [] => .skip
  | c :: cs => andThen (walk c) (walkChildren walk cs)

def walkBtreeNode (depth expectedLevel : ℕ) (isRoot : Bool) (block : ℕ) : Walking τ := fun w =>
  let w : Walk τ := { w with depths := depth :: w.depths }
  if block = 0 then
    if opts.nullChildIsFault then fault opts block .badChild w else (none, w)
  else if btreeMaxDepth < depth then fault opts block .depth w
  else if block ∈ w.visited then fault opts block .cycle w
  else
    let w : Walk τ := { w with visited := block :: w.visited }
    match checkedNode load opts.verifyCRC block with
    | .error e => fault opts block e w
    | .ok n =>
      let info : BtreeNodeInfo := ⟨⟨block, n, isRoot, expectedLevel⟩, depth⟩
      -- The level of the children is computed in 16 bits.
      andThen (visit v info)
        (if n.leaf then .skip
        else walkChildren (walkBtreeNode (depth + 1) ((n.level + 2 ^ 16 - 1) % 2 ^ 16) false)
          n.children) { w with handed := w.handed ++ [info] }
termination_by btreeMaxDepth + 1 - depth

/-- `WalkBtree`. -/
def walkBtree (root : ℕ) (outer : τ) : Option WalkError × Walk τ :=
  walkBtreeNode load opts v 0 0 true root { outer := outer }

end Walk

/-! ### What a walk does -/

section Advance

variable {τ : Type} {load : Loader} {opts : BtreeWalkOptions τ} {v : BtreeNodeVisitor τ}
  {w : Walk τ} {targets targets' : List ℕ} {r : Option WalkError × Walk τ}

/-- The blocks of the nodes handed over. -/
def blocksOf (infos : List BtreeNodeInfo) : List ℕ := infos.map fun i => i.block

/-- The targets and, node by node, the children were handed over. -/
def Closed (targets : List ℕ) (new : List BtreeNodeInfo) : Prop :=
  (∀ b ∈ targets, b ≠ 0 → b ∈ blocksOf new) ∧
    ∀ i ∈ new, i.node.leaf = false → ∀ c ∈ i.node.children, c ≠ 0 → c ∈ blocksOf new

/-- The part of a walk from `w` to `w'` that goes to the targets, hands over `new` and
returns `r`. -/
structure Advance (opts : BtreeWalkOptions τ) (targets : List ℕ) (w : Walk τ)
    (new : List BtreeNodeInfo) (r : Option WalkError) (w' : Walk τ) : Prop where
  handed : w'.handed = w.handed ++ new
  visited : ∀ b ∈ w.visited, b ∈ w'.visited
  nodup : (blocksOf new).Nodup
  fresh : ∀ b ∈ blocksOf new, b ∉ w.visited ∧ b ∈ w'.visited
  depths : ∀ d ∈ w'.depths, d ∈ w.depths ∨ d ≤ btreeMaxDepth + 1
  sorted : ∀ i ∈ new, i.node.leaf = true →
    (i.node.leafExtents.map Extent.offset).Pairwise (· < ·)
  closed : opts.tolerant = false → r = none → Closed targets new

def Advances (opts : BtreeWalkOptions τ) (targets : List ℕ) (w : Walk τ)
    (r : Option WalkError × Walk τ) : Prop := ∃ new, Advance opts targets w new r.1 r.2

theorem advances_quiet (hhanded : r.2.handed = w.handed)
    (hvisited : r.2.visited = w.visited) (hdepths : r.2.depths = w.depths)
    (hr : opts.tolerant = false → r.1 = none → ∀ b ∈ targets, b = 0) :
    Advances opts targets w r := by
  refine ⟨[], ?_, ?_, List.nodup_nil, by simp [blocksOf], ?_, by simp, fun hstrict hnone => ?_⟩
  · rw [hhanded, List.append_nil]
  · rw [hvisited]
    exact fun _ hb => hb
  · rw [hdepths]
    exact fun _ hd => .inl hd
  · exact ⟨fun b hb hne => absurd (hr hstrict hnone b hb) hne, by simp⟩

theorem advances_fault (block : ℕ) (e : BtreeError) :
    Advances opts targets w (fault opts block e w) := by
  unfold fault
  split_ifs with htolerant
  · exact advances_quiet rfl rfl rfl fun hstrict => by simp [htolerant] at hstrict
  · exact advances_quiet rfl rfl rfl fun _ hnone => by simp at hnone

theorem advances_callback (f : τ → Option Err × τ) : Advances opts [] w (callback f w) :=
  advances_quiet rfl rfl rfl (by simp)

theorem Closed.append {new new' : List BtreeNodeInfo} (h : Closed targets new)
    (h' : Closed targets' new') : Closed (targets ++ targets') (new ++ new') := by
  have hblocks : blocksOf (new ++ new') = blocksOf new ++ blocksOf new' := List.map_append
  constructor
  · intro b hb hne
    rw [hblocks, List.mem_append]
    exact (List.mem_append.mp hb).imp (h.1 b · hne) (h'.1 b · hne)
  · intro i hi hleaf c hc hne
    rw [hblocks, List.mem_append]
    exact (List.mem_append.mp hi).imp (h.2 i · hleaf c hc hne) (h'.2 i · hleaf c hc hne)

theorem Advances.andThen {x y : Walking τ} (hx : Advances opts targets w (x w))
    (hy : ∀ w', Advances opts targets' w' (y w')) :
    Advances opts (targets ++ targets') w (andThen x y w) := by
  unfold Descent.andThen
  rcases hr : x w with ⟨_ | e, w'⟩ <;> rw [hr] at hx
  · obtain ⟨new, h⟩ := hx
    obtain ⟨new', h'⟩ := hy w'
    have hblocks : blocksOf (new ++ new') = blocksOf new ++ blocksOf new' := List.map_append
    refine ⟨new ++ new', ?_, fun b hb => h'.visited b (h.visited b hb), ?_, ?_, ?_, ?_, ?_⟩
    · rw [h'.handed, h.handed, List.append_assoc]
    · rw [hblocks]
      refine List.nodup_append.mpr ⟨h.nodup, h'.nodup, ?_⟩
      rintro b hb _ hb' rfl
      exact (h'.fresh b hb').1 (h.fresh b hb).2
    · rw [hblocks]
      refine List.forall_mem_append.mpr ⟨fun b hb => ?_, fun b hb => ?_⟩
      · exact ⟨(h.fresh b hb).1, h'.visited b (h.fresh b hb).2⟩
      · exact ⟨fun hin => (h'.fresh b hb).1 (h.visited b hin), (h'.fresh b hb).2⟩
    · intro d hd
      exact (h'.depths d hd).elim (h.depths d) .inr
    · exact List.forall_mem_append.mpr ⟨h.sorted, h'.sorted⟩
    · exact fun hstrict hnone => (h.closed hstrict rfl).append (h'.closed hstrict hnone)
  · obtain ⟨new, h⟩ := hx
    exact ⟨new, { h with closed := fun _ hnone => by simp at hnone }⟩

theorem advances_walkChildren {walk : ℕ → Walking τ} {cs : List ℕ}
    (hwalk : ∀ c w, Advances opts [c] w (walk c w)) (w : Walk τ) :
    Advances opts cs w (walkChildren walk cs w) := by
  induction cs generalizing w with
  | nil => exact advances_quiet rfl rfl rfl (by simp)
  | cons c cs ih => exact (hwalk c w).andThen ih

theorem Advances.deepen {depth : ℕ}
    (hdepth : depth ≤ btreeMaxDepth + 1)
    (h : Advances opts targets { w with depths := depth :: w.depths } r) :
    Advances opts targets w r := by
  obtain ⟨new, h⟩ := h
  refine ⟨new, { h with depths := fun d hd => ?_ }⟩
  rcases h.depths d hd with hin | hle
  · rcases List.mem_cons.mp hin with rfl | hin
    · exact .inr hdepth
    · exact .inl hin
  · exact .inr hle

theorem Advances.mark {block : ℕ}
    (h : Advances opts targets { w with visited := block :: w.visited } r) :
    Advances opts targets w r := by
  obtain ⟨new, h⟩ := h
  refine ⟨new, { h with visited := fun b hb => ?_, fresh := fun b hb => ?_ }⟩
  · exact h.visited b (List.mem_cons_of_mem _ hb)
  · exact ⟨fun hin => (h.fresh b hb).1 (List.mem_cons_of_mem _ hin), (h.fresh b hb).2⟩

theorem Advances.hand (info : BtreeNodeInfo)
    (hblock : info.block ∉ w.visited)
    (hsorted : info.node.leaf = true →
      (info.node.leafExtents.map Extent.offset).Pairwise (· < ·))
    (hchildren : info.node.leaf = false → targets = info.node.children)
    (h : Advances opts targets { w with
      visited := info.block :: w.visited
      handed := w.handed ++ [info] } r) : Advances opts [info.block] w r := by
  obtain ⟨new, h⟩ := h
  have hblocks : blocksOf (info :: new) = info.block :: blocksOf new := rfl
  refine ⟨info :: new, ?_, ?_, ?_, ?_, h.depths, ?_, ?_⟩
  · rw [h.handed, List.append_assoc]
    rfl
  · exact fun b hb => h.visited b (List.mem_cons_of_mem _ hb)
  · rw [hblocks, List.nodup_cons]
    exact ⟨fun hin => (h.fresh _ hin).1 List.mem_cons_self, h.nodup⟩
  · rw [hblocks]
    refine List.forall_mem_cons.mpr ⟨⟨hblock, h.visited _ List.mem_cons_self⟩, fun b hb => ?_⟩
    exact ⟨fun hin => (h.fresh b hb).1 (List.mem_cons_of_mem _ hin), (h.fresh b hb).2⟩
  · exact List.forall_mem_cons.mpr ⟨hsorted, h.sorted⟩
  · intro hstrict hnone
    obtain ⟨htargets, hnew⟩ := h.closed hstrict hnone
    rw [Closed, hblocks]
    refine ⟨fun b hb _ => List.mem_cons.mpr (.inl (List.mem_singleton.mp hb)), ?_⟩
    refine List.forall_mem_cons.mpr ⟨fun hleaf c hc hne => ?_, fun i hi hleaf c hc hne => ?_⟩
    · exact List.mem_cons_of_mem _ (htargets c (hchildren hleaf ▸ hc) hne)
    · exact List.mem_cons_of_mem _ (hnew i hi hleaf c hc hne)

theorem advances_visit (info : BtreeNodeInfo) (w : Walk τ) :
    Advances opts [] w (visit v info w) := by
  have hcallback : Advances opts [] w (callback (v.visitNode info) w) := advances_callback _
  refine hcallback.andThen fun w' => ?_
  split_ifs
  · exact advances_callback _
  · exact advances_quiet rfl rfl rfl (by simp)

theorem pairwise_of_ascending {l : List ℕ} (h : ascending l = true) : l.Pairwise (· < ·) := by
  induction l with
  | nil => exact .nil
  | cons a l ih =>
    cases l with
    | nil => exact List.pairwise_singleton _ _
    | cons b l =>
      rw [ascending, Bool.and_eq_true, decide_eq_true_eq] at h
      have hrest := ih h.2
      refine List.pairwise_cons.mpr ⟨List.forall_mem_cons.mpr ⟨h.1, fun c hc => ?_⟩, hrest⟩
      exact h.1.trans (List.rel_of_pairwise_cons hrest hc)

theorem sorted_of_checkedNode {verifyCRC : Bool} {block : ℕ} {n : Node}
    (h : checkedNode load verifyCRC block = .ok n) (hleaf : n.leaf = true) :
    (n.leafExtents.map Extent.offset).Pairwise (· < ·) := by
  unfold checkedNode at h
  rcases hload : load block with e | m <;> rw [hload] at h
  · simp at h
  · dsimp only at h
    split_ifs at h with h₁ h₂ h₃ h₄ h₅
    · cases h
      exact pairwise_of_ascending (by simpa using h₄)
    · cases h
      exact absurd hleaf h₂

theorem advances_walkBtreeNode (depth expectedLevel : ℕ) (isRoot : Bool) (block : ℕ)
    (hdepth : depth ≤ btreeMaxDepth + 1) (w : Walk τ) :
    Advances opts [block] w (walkBtreeNode load opts v depth expectedLevel isRoot block w) := by
  rw [walkBtreeNode]
  refine .deepen hdepth ?_
  split_ifs with hzero hnull hdeep hvisited
  · exact advances_fault block _
  · exact advances_quiet rfl rfl rfl fun _ _ b hb => (List.mem_singleton.mp hb).trans hzero
  · exact advances_fault block _
  · exact advances_fault block _
  · rcases hchecked : checkedNode load opts.verifyCRC block with e | n
    · exact .mark (advances_fault block e)
    · have hchildren : ∀ w, Advances opts (if n.leaf then [] else n.children) w
          ((if n.leaf then Walking.skip else walkChildren (walkBtreeNode load opts v (depth + 1)
            ((n.level + 2 ^ 16 - 1) % 2 ^ 16) false) n.children) w) := by
        intro w
        split_ifs
        · exact advances_quiet rfl rfl rfl (by simp)
        · exact advances_walkChildren (fun c w => advances_walkBtreeNode _ _ _ c (by omega) w) w
      refine .hand ⟨⟨block, n, isRoot, expectedLevel⟩, depth⟩ hvisited
        (sorted_of_checkedNode hchecked) (fun hleaf => ?_) ((advances_visit _ _).andThen hchildren)
      rw [List.nil_append, if_neg (by simpa using hleaf)]
termination_by btreeMaxDepth + 1 - depth

/-- `WalkBtree` on any device, from any block, with any options and callbacks: it returns, hands
no block over twice and calls itself no deeper than the limit allows. Where a strict walk
returns no error, the leaves ascend and no child is left out. -/
theorem walkBtree_guards (load : Loader) (opts : BtreeWalkOptions τ) (v : BtreeNodeVisitor τ)
    (root : ℕ) (outer : τ) :
    (blocksOf (walkBtree load opts v root outer).2.handed).Nodup ∧
      (∀ d ∈ (walkBtree load opts v root outer).2.depths, d ≤ btreeMaxDepth + 1) ∧
      (opts.tolerant = false → (walkBtree load opts v root outer).1 = none →
        ∀ i ∈ (walkBtree load opts v root outer).2.handed,
          (i.node.leaf = true → (i.node.leafExtents.map Extent.offset).Pairwise (· < ·)) ∧
          (i.node.leaf = false → ∀ c ∈ i.node.children, c ≠ 0 →
            c ∈ blocksOf (walkBtree load opts v root outer).2.handed)) := by
  obtain ⟨new, h⟩ : Advances opts [root] { outer := outer } (walkBtree load opts v root outer) :=
    advances_walkBtreeNode 0 0 true root (Nat.zero_le _) _
  have hnew : (walkBtree load opts v root outer).2.handed = new := h.handed
  rw [hnew]
  refine ⟨h.nodup, fun d hd => ?_, fun hstrict hnone i hi => ⟨h.sorted i hi, ?_⟩⟩
  · exact (h.depths d hd).resolve_left (by simp)
  · exact (h.closed hstrict hnone).2 i hi

end Advance

/-! ### The walk that records -/

section Record

variable {load : Loader} {tolerant : Bool}

/-- Checksums are verified, null children skipped and faults noted down. -/
def recording (tolerant : Bool) : BtreeWalkOptions (List (ℕ × BtreeError)) where
  verifyCRC := true
  nullChildIsFault := false
  tolerant := tolerant
  onFault block e faults := faults ++ [(block, e)]

def silent {τ : Type} : BtreeNodeVisitor τ where
  visitNode _ outer := (none, outer)
  visitLeaf _ _ outer := (none, outer)

def ending : Option WalkError → List (ℕ × BtreeError)
  | some (.fault block e) => [(block, e)]
  | _ => []

/-- The state of a walk that records, beside the trace of `Loader.walkBtree`. -/
structure Mirrors (tolerant : Bool) (r : Option WalkError × Walk (List (ℕ × BtreeError)))
    (t : Loader.Trace) : Prop where
  visited : t.visited = r.2.visited
  nodes : t.nodes = r.2.handed.map BtreeNodeInfo.toInfo
  faults : t.faults = r.2.outer ++ ending r.1
  stops : (!tolerant && !t.faults.isEmpty) = r.1.isSome

variable {w : Walk (List (ℕ × BtreeError))} {t : Loader.Trace}

theorem Mirrors.fault (h : Mirrors tolerant (none, w) t) (block : ℕ) (e : BtreeError) :
    Mirrors tolerant (fault (recording tolerant) block e w) (t.fault block e) := by
  have hfaults : t.faults = w.outer := by simpa [ending] using h.faults
  unfold Descent.fault Loader.Trace.fault
  cases tolerant <;>
    exact ⟨h.visited, h.nodes, by simp [recording, ending, hfaults], by simp [recording]⟩

theorem Mirrors.walkChildren {walk : ℕ → Walking (List (ℕ × BtreeError))}
    {walk' : ℕ → Loader.Trace → Loader.Trace}
    (hwalk : ∀ c w t, Mirrors tolerant (none, w) t → Mirrors tolerant (walk c w) (walk' c t))
    (cs : List ℕ) (h : Mirrors tolerant (none, w) t) :
    Mirrors tolerant (walkChildren walk cs w) (Loader.walkChildren tolerant walk' cs t) := by
  induction cs generalizing w t with
  | nil => exact h
  | cons c cs ih =>
    have hc := hwalk c w t h
    simp only [Descent.walkChildren, Descent.andThen, Loader.walkChildren, hc.stops]
    rcases hr : walk c w with ⟨_ | e, w'⟩ <;> rw [hr] at hc
    · exact ih hc
    · exact hc

theorem Mirrors.deepen (h : Mirrors tolerant (none, w) t) (depth : ℕ) :
    Mirrors tolerant (none, { w with depths := depth :: w.depths }) t :=
  ⟨h.visited, h.nodes, h.faults, h.stops⟩

theorem Mirrors.mark (h : Mirrors tolerant (none, w) t) (block : ℕ) :
    Mirrors tolerant (none, { w with visited := block :: w.visited })
      { t with visited := block :: t.visited } :=
  ⟨congrArg (block :: ·) h.visited, h.nodes, h.faults, h.stops⟩

theorem Mirrors.hand (h : Mirrors tolerant (none, w) t) (info : BtreeNodeInfo) :
    Mirrors tolerant (none, { w with handed := w.handed ++ [info] })
      { t with nodes := t.nodes ++ [info.toInfo] } := by
  refine ⟨h.visited, ?_, h.faults, h.stops⟩
  rw [List.map_append, h.nodes]
  rfl

theorem visit_silent (info : BtreeNodeInfo) (w : Walk (List (ℕ × BtreeError))) :
    visit silent info w = (none, w) := by
  unfold visit
  split_ifs <;> rfl

theorem Mirrors.walkBtreeNode (depth expectedLevel : ℕ) (isRoot : Bool) (block : ℕ)
    (h : Mirrors tolerant (none, w) t) :
    Mirrors tolerant
      (walkBtreeNode load (recording tolerant) silent depth expectedLevel isRoot block w)
      (load.walkBtreeNode tolerant (btreeMaxDepth + 1 - depth) expectedLevel isRoot block t) := by
  induction hleft : btreeMaxDepth + 1 - depth generalizing depth expectedLevel isRoot block w t with
  | zero =>
    have h := h.deepen depth
    rw [Descent.walkBtreeNode, Loader.walkBtreeNode, if_pos (show btreeMaxDepth < depth by omega)]
    by_cases hzero : block = 0
    · rw [if_pos hzero, if_pos hzero]
      exact h
    · rw [if_neg hzero, if_neg hzero]
      exact h.fault block _
  | succ left ih =>
    have h := h.deepen depth
    rw [Descent.walkBtreeNode, Loader.walkBtreeNode, if_neg (show ¬btreeMaxDepth < depth by omega)]
    by_cases hzero : block = 0
    · rw [if_pos hzero, if_pos hzero]
      exact h
    · rw [if_neg hzero, if_neg hzero]
      have hseen : block ∈ t.visited ↔ block ∈ w.visited := by rw [h.visited]
      by_cases hvisited : block ∈ w.visited
      · rw [if_pos hvisited, if_pos (hseen.mpr hvisited)]
        exact h.fault block _
      · rw [if_neg hvisited, if_neg (mt hseen.mp hvisited)]
        have h := h.mark block
        rw [show checkedNode load (recording tolerant).verifyCRC block = load.accept block from rfl]
        rcases load.accept block with e | n
        · exact h.fault block e
        · have h := h.hand ⟨⟨block, n, isRoot, expectedLevel⟩, depth⟩
          dsimp only
          rw [andThen, visit_silent]
          split_ifs with hleaf
          · exact h
          · exact h.walkChildren (fun c w t h => ih (depth + 1) _ false c h (by omega)) n.children

/-- The trace of `Loader.walkBtree` is what this walk hands over and reports. -/
theorem mirrors_walkBtree (load : Loader) (tolerant : Bool) (root : ℕ) :
    Mirrors tolerant (walkBtree load (recording tolerant) silent root [])
      (load.walkBtree tolerant root) :=
  Mirrors.walkBtreeNode 0 0 true root ⟨rfl, rfl, rfl, by simp⟩

end Record

end Briefs.Btree.Descent
