import Briefs.Lib.Bytes
import Briefs.Bridge.RunList
import Mathlib.Data.List.AList

/-!
# The deferred-metadata map

Metadata blocks that operations changed wait in `dirtyBlocks` until a drain
writes them to the device, and freed blocks wait in `pendingFrees` until the
same drain returns them to the allocator (`cache.go`, `device.go`). The drain
`SyncMeta` takes its snapshot, writes, frees and deletes without holding a lock
across the steps, so each step is a definition of its own.
-/

namespace Briefs.Bridge

open Lib

abbrev BlockMap := AList fun _ : ℕ => Bytes

structure Deferred where
  device : ℕ → Bytes
  dirtyBlocks : BlockMap
  pendingFrees : RunAccum
  /-- The data bitmap, by data-relative block number. -/
  allocated : ℕ → Bool

/-- A `SyncMeta` call between its snapshot and its deletes. -/
structure Drain where
  snap : BlockMap
  /-- Blocks of the snapshot not yet written to the device. -/
  todo : List ℕ
  frees : RunAccum
  /-- Whether the frees were applied. -/
  freed : Bool

namespace Deferred

def setDirtyBlock (c : Deferred) (block : ℕ) (buf : Bytes) : Deferred :=
  { c with dirtyBlocks := c.dirtyBlocks.insert block buf }

def dirtyView (c : Deferred) (block : ℕ) : Option Bytes := c.dirtyBlocks.lookup block

/-- A deferred block is served from the map, any other from the device. -/
def readBlock (c : Deferred) (block : ℕ) : Bytes := (c.dirtyView block).getD (c.device block)

def writeBlock (c : Deferred) (block : ℕ) (data : Bytes) : Deferred :=
  { c with device := Function.update c.device block data }

def writeBlockSlot (c : Deferred) (block off : ℕ) (data : Bytes) : Deferred :=
  { c with device := Function.update c.device block (copyAt (c.device block) off data) }

/-- The second half of `writeThroughFreshInodeSlot`: patch a deferred copy. -/
def patchSlot (c : Deferred) (block off : ℕ) (data : Bytes) : Deferred :=
  match c.dirtyView block with
  | some cur => c.setDirtyBlock block (copyAt cur off data)
  | none => c

def deferBlockFreeRun (c : Deferred) (rel n : ℕ) : Deferred :=
  { c with pendingFrees := c.pendingFrees.addRun rel n }

def freeRun (c : Deferred) (run : BlockRun) : Deferred :=
  { c with allocated := fun b => c.allocated b && !(run.first ≤ b && b < run.first + run.n) }

/-- The locked part at the start of `SyncMeta`. An empty map makes an empty
snapshot, whose writes and deletes do nothing. -/
def takeSnapshot (c : Deferred) : Deferred × Drain :=
  ({ c with pendingFrees := {} },
    { snap := c.dirtyBlocks, todo := c.dirtyBlocks.keys, frees := c.pendingFrees, freed := false })

def applyFrees (c : Deferred) (frees : RunAccum) : Deferred := frees.runs.foldl freeRun c

/-- Delete the entry of a block if it still has the given content. -/
def compareDelete (m : BlockMap) (e : Sigma fun _ : ℕ => Bytes) : BlockMap :=
  if m.lookup e.1 = some e.2 then m.erase e.1 else m

/-- Drop the entries that still hold what the drain wrote. -/
def deleteDrained (c : Deferred) (snap : BlockMap) : Deferred :=
  { c with dirtyBlocks := snap.entries.foldl compareDelete c.dirtyBlocks }

theorem dirtyView_setDirtyBlock (c : Deferred) (block other : ℕ) (buf : Bytes) :
    (c.setDirtyBlock block buf).dirtyView other =
      if other = block then some buf else c.dirtyView other := by
  unfold dirtyView setDirtyBlock
  split_ifs with h
  · subst h
    exact AList.lookup_insert _
  · exact AList.lookup_insert_ne h

theorem device_patchSlot (c : Deferred) (block off : ℕ) (data : Bytes) :
    (c.patchSlot block off data).device = c.device := by
  unfold patchSlot
  split <;> rfl

theorem dirtyView_patchSlot (c : Deferred) (block off other : ℕ) (data : Bytes) :
    (c.patchSlot block off data).dirtyView other =
      if other = block then (c.dirtyView other).map fun cur => copyAt cur off data
      else c.dirtyView other := by
  unfold patchSlot
  split
  · rename_i cur hcur
    rw [dirtyView_setDirtyBlock]
    split_ifs with h
    · subst h
      rw [hcur]
      rfl
    · rfl
  · rename_i hnone
    split_ifs with h
    · subst h
      rw [hnone]
      rfl
    · rfl

theorem lookup_compareDelete (m : BlockMap) (e : Sigma fun _ : ℕ => Bytes) (block : ℕ) :
    (compareDelete m e).lookup block =
      if e.1 = block ∧ m.lookup block = some e.2 then none else m.lookup block := by
  unfold compareDelete
  by_cases hb : e.1 = block
  · subst hb
    by_cases hm : m.lookup e.1 = some e.2
    · simp [hm]
    · simp [hm]
  · by_cases hm : m.lookup e.1 = some e.2
    · simp [hm, hb, AList.lookup_erase_ne (Ne.symm hb)]
    · simp [hm, hb]

theorem lookup_foldl_compareDelete (l : List (Sigma fun _ : ℕ => Bytes)) (m : BlockMap)
    (block : ℕ) :
    (l.foldl compareDelete m).lookup block =
      if ∃ e ∈ l, e.1 = block ∧ m.lookup block = some e.2 then none else m.lookup block := by
  induction l generalizing m with
  | nil => simp
  | cons e l ih =>
    rw [List.foldl_cons, ih, lookup_compareDelete]
    by_cases hhit : e.1 = block ∧ m.lookup block = some e.2
    · simp [hhit]
    · simp only [hhit, List.exists_mem_cons_iff, false_or, if_false]

/-- A drain deletes exactly the entries that still equal its snapshot. -/
theorem lookup_deleteDrained (c : Deferred) (snap : BlockMap) (block : ℕ) :
    (c.deleteDrained snap).dirtyBlocks.lookup block =
      if ∃ buf, snap.lookup block = some buf ∧ c.dirtyBlocks.lookup block = some buf then none
      else c.dirtyBlocks.lookup block := by
  have hiff : (∃ e ∈ snap.entries, e.1 = block ∧ c.dirtyBlocks.lookup block = some e.2) ↔
      ∃ buf, snap.lookup block = some buf ∧ c.dirtyBlocks.lookup block = some buf := by
    constructor
    · rintro ⟨⟨b, buf⟩, hmem, rfl, hbuf⟩
      exact ⟨buf, AList.mem_lookup_iff.mpr hmem, hbuf⟩
    · rintro ⟨buf, hsnap, hbuf⟩
      exact ⟨⟨block, buf⟩, AList.mem_lookup_iff.mp hsnap, rfl, hbuf⟩
  unfold deleteDrained
  rw [lookup_foldl_compareDelete]
  simp only [hiff]

theorem applyFrees_device (c : Deferred) (frees : RunAccum) :
    (c.applyFrees frees).device = c.device ∧
      (c.applyFrees frees).dirtyBlocks = c.dirtyBlocks := by
  unfold applyFrees
  induction frees.runs generalizing c with
  | nil => exact ⟨rfl, rfl⟩
  | cons run runs ih => exact ih _

end Deferred

end Briefs.Bridge
