import Briefs.Bridge.DirtyView
import Briefs.Journal.Log

/-!
# Operations, syncs and drains

Operations append records, change blocks in their own cache, queue frees and
merge their blocks into the deferred map at their end; `Sync` and `Checkpoint`
hold the journal lock from their first write to their end and run a drain in the
middle; `Fsync` runs a drain outside that lock. The steps are those between which
a thread can be interrupted; the map, the device and the drains are those of
`Briefs.Bridge.DirtyView`, the ring that of `Briefs.Journal.Log`.

The last fields only remember: whose changes a deferred or drained copy carries,
who queued the frees a drain took, and which changes reached the device.
-/

namespace Briefs.Bridge

open Lib Journal

abbrev OpId := ℕ

/-- A running operation: its cache of changed blocks, and whether its records are
written and it merges. -/
structure Op where
  merging : Bool
  cache : BlockMap

/-- The `Sync` or `Checkpoint` call that holds the journal lock. -/
structure Holder where
  drain : ℕ
  /-- The call is `Checkpoint`. -/
  checkpoint : Bool
  /-- The argument of `Sync`. -/
  ckpt : Bool
  /-- Whether its drain took its snapshot. -/
  draining : Bool

/-- The end of the call, after its drain; `Checkpoint` retires once more. -/
def Holder.endLog (h : Holder) (l : Log) : Log :=
  if h.checkpoint then (l.syncEnd h.ckpt).retire else l.syncEnd h.ckpt

structure World where
  shared : Shared
  log : Log
  holder : Option Holder
  ops : OpId → Option Op
  locks : ℕ → Option OpId
  started : List OpId
  /-- The operation of each record. -/
  owners : List OpId
  carried : ℕ → List OpId
  queued : List OpId
  snapCarried : ℕ → ℕ → List OpId
  snapQueued : ℕ → List OpId
  written : List (OpId × ℕ)
  exposed : List OpId

inductive WorldAct
  | begin (op : OpId)
  | record (op : OpId) (size : ℕ)
  | change (op : OpId) (block : ℕ) (buf : Bytes)
  | queueFree (op : OpId) (rel n : ℕ)
  | startMerge (op : OpId)
  | merge (op : OpId) (block : ℕ)
  | finish (op : OpId)
  | abort (op : OpId)
  | syncBegin (ckpt : Bool) (drain : ℕ)
  | checkpointBegin (drain : ℕ)
  | checkpointClean
  | syncSnapshot
  | syncEnd
  | fsyncSnapshot (drain : ℕ)
  | drainWrite (drain block : ℕ)
  | applyFrees (drain : ℕ)
  | deleteDrained (drain : ℕ)

namespace World

def setOp (w : World) (o : OpId) (op : Option Op) : World :=
  { w with ops := Function.update w.ops o op }

def unlock (w : World) (o : OpId) : World :=
  { w with locks := fun b => if w.locks b = some o then none else w.locks b }

def begin (w : World) (o : OpId) : Option World :=
  if o ∈ w.started then none
  else some ({ w with started := o :: w.started }.setOp o (some { merging := false, cache := ∅ }))

/-- `WriteRecord`, which waits for the journal lock. -/
def record (w : World) (o : OpId) (size : ℕ) : Option World :=
  match w.ops o with
  | none => none
  | some op =>
    if op.merging = false ∧ w.holder.isNone then
      some { w with log := w.log.writeRecord size, owners := w.owners ++ [o] }
    else none

/-- `loadBlock` and `saveBlock` under the block's lock, held to the end of the operation. -/
def change (w : World) (o : OpId) (block : ℕ) (buf : Bytes) : Option World :=
  match w.ops o with
  | none => none
  | some op =>
    if op.merging = false ∧ (w.locks block = none ∨ w.locks block = some o) then
      some ({ w with locks := Function.update w.locks block (some o) }.setOp o
        (some { op with cache := op.cache.insert block buf }))
    else none

def queueFree (w : World) (o : OpId) (rel n : ℕ) : Option World :=
  match w.ops o with
  | none => none
  | some _ =>
    some { w with
      shared := { w.shared with cache := w.shared.cache.deferBlockFreeRun rel n }
      queued := o :: w.queued }

def startMerge (w : World) (o : OpId) : Option World :=
  match w.ops o with
  | none => none
  | some op => some (w.setOp o (some { op with merging := true }))

/-- Whose changes a block carries once `o` has stored it over what is deferred. -/
def carriedBy (w : World) (o : OpId) (block : ℕ) : List OpId :=
  o :: if (w.shared.cache.dirtyView block).isSome then w.carried block else []

/-- One `setDirtyBlock` of `mergeCache`. -/
def merge (w : World) (o : OpId) (block : ℕ) : Option World :=
  match w.ops o with
  | none => none
  | some op =>
    match op.cache.lookup block with
    | none => none
    | some buf =>
      if op.merging = true then
        (w.shared.store block buf).map fun sh =>
          { w with
            shared := sh
            carried := Function.update w.carried block (w.carriedBy o block)
          }.setOp o (some { op with cache := op.cache.erase block })
      else none

def finish (w : World) (o : OpId) : Option World :=
  match w.ops o with
  | none => none
  | some op =>
    if op.merging = true ∧ op.cache.keys = [] then some ((w.setOp o none).unlock o) else none

/-- `cacheAbort`: the operation failed and drops its cache. -/
def abort (w : World) (o : OpId) : Option World :=
  match w.ops o with
  | none => none
  | some op => if op.merging = false then some ((w.setOp o none).unlock o) else none

def lockBegin (w : World) (h : Holder) : Option World :=
  if w.holder.isNone ∧ w.log.ring.dirty ∧ (w.shared.drains h.drain).isNone then
    some { w with log := w.log.syncBegin, holder := some h }
  else none

def syncBegin (w : World) (ckpt : Bool) (drain : ℕ) : Option World :=
  w.lockBegin { drain := drain, checkpoint := false, ckpt := ckpt, draining := false }

def checkpointBegin (w : World) (drain : ℕ) : Option World :=
  w.lockBegin { drain := drain, checkpoint := true, ckpt := true, draining := false }

/-- `Checkpoint` with nothing pending retires without a sync. -/
def checkpointClean (w : World) : Option World :=
  if w.holder.isNone ∧ w.log.ring.dirty = false then some { w with log := w.log.retire } else none

def takeSnapshot (w : World) (drain : ℕ) : Option World :=
  (w.shared.snapshot drain).map fun sh =>
    { w with
      shared := sh
      queued := []
      snapCarried := Function.update w.snapCarried drain w.carried
      snapQueued := Function.update w.snapQueued drain w.queued }

/-- The drain of the call that holds the journal lock starts. -/
def syncSnapshot (w : World) : Option World :=
  match w.holder with
  | none => none
  | some h =>
    if h.draining = false then
      (w.takeSnapshot h.drain).map fun u => { u with holder := some { h with draining := true } }
    else none

/-- A drain from `Fsync`, outside the journal lock. -/
def fsyncSnapshot (w : World) (drain : ℕ) : Option World :=
  if w.holder.map Holder.drain = some drain then none else w.takeSnapshot drain

def drainWrite (w : World) (drain block : ℕ) : Option World :=
  (w.shared.drainWrite drain block).map fun sh =>
    { w with
      shared := sh
      written := (w.snapCarried drain block).map (·, block) ++ w.written
      exposed := w.snapCarried drain block ++ w.exposed }

def applyFrees (w : World) (drain : ℕ) : Option World :=
  (w.shared.applyFrees drain).map fun sh =>
    { w with shared := sh, exposed := w.snapQueued drain ++ w.exposed }

def deleteDrained (w : World) (drain : ℕ) : Option World :=
  (w.shared.deleteDrained drain).map fun sh => { w with shared := sh }

def syncEnd (w : World) : Option World :=
  match w.holder with
  | none => none
  | some h =>
    if h.draining = true ∧ (w.shared.drains h.drain).isNone then
      some { w with log := h.endLog w.log, holder := none }
    else none

def step (w : World) : WorldAct → Option World
  | .begin o => w.begin o
  | .record o size => w.record o size
  | .change o block buf => w.change o block buf
  | .queueFree o rel n => w.queueFree o rel n
  | .startMerge o => w.startMerge o
  | .merge o block => w.merge o block
  | .finish o => w.finish o
  | .abort o => w.abort o
  | .syncBegin ckpt drain => w.syncBegin ckpt drain
  | .checkpointBegin drain => w.checkpointBegin drain
  | .checkpointClean => w.checkpointClean
  | .syncSnapshot => w.syncSnapshot
  | .syncEnd => w.syncEnd
  | .fsyncSnapshot drain => w.fsyncSnapshot drain
  | .drainWrite drain block => w.drainWrite drain block
  | .applyFrees drain => w.applyFrees drain
  | .deleteDrained drain => w.deleteDrained drain

def Steps (w : World) (a : WorldAct) (u : World) : Prop := w.step a = some u

/-- A mount: nothing deferred, nothing running, no record appended. -/
def mounted (device : ℕ → Bytes) (allocated : ℕ → Bool) (ring : Ring) : World where
  shared :=
    { cache :=
        { device := device, dirtyBlocks := ∅, pendingFrees := {}, allocated := allocated }
      drains := fun _ => none
      slotWrites := fun _ => none }
  log := { ring := ring, total := 0, flushed := 0, committed := 0, retired := 0 }
  holder := none
  ops _ := none
  locks _ := none
  started := []
  owners := []
  carried _ := []
  queued := []
  snapCarried _ _ := []
  snapQueued _ := []
  written := []
  exposed := []

/-! ## What a step does -/

def snapshotted (w : World) (drain : ℕ) : World :=
  { w with
    shared := { w.shared with cache := w.shared.cache.takeSnapshot.1 }.setDrain drain
      (some w.shared.cache.takeSnapshot.2)
    queued := []
    snapCarried := Function.update w.snapCarried drain w.carried
    snapQueued := Function.update w.snapQueued drain w.queued }

/-- The steps, with what has to hold before each. -/
inductive Move (w : World) : WorldAct → World → Prop
  | begin {o : OpId} (hfresh : o ∉ w.started) :
      Move w (.begin o) (({ w with started := o :: w.started } : World).setOp o
        (some { merging := false, cache := ∅ }))
  | record {o : OpId} {op : Op} {size : ℕ} (hop : w.ops o = some op) (hm : op.merging = false)
      (hfree : w.holder = none) :
      Move w (.record o size) { w with log := w.log.writeRecord size, owners := w.owners ++ [o] }
  | change {o : OpId} {op : Op} {block : ℕ} {buf : Bytes} (hop : w.ops o = some op)
      (hm : op.merging = false) :
      Move w (.change o block buf) (({ w with
        locks := Function.update w.locks block (some o) } : World).setOp o
          (some { op with cache := op.cache.insert block buf }))
  | queueFree {o : OpId} {op : Op} {rel n : ℕ} (hop : w.ops o = some op) :
      Move w (.queueFree o rel n) { w with
        shared := { w.shared with cache := w.shared.cache.deferBlockFreeRun rel n }
        queued := o :: w.queued }
  | startMerge {o : OpId} {op : Op} (hop : w.ops o = some op) :
      Move w (.startMerge o) (w.setOp o (some { op with merging := true }))
  | merge {o : OpId} {op : Op} {block : ℕ} {buf : Bytes} (hop : w.ops o = some op)
      (hm : op.merging = true) :
      Move w (.merge o block) (({ w with
        shared := { w.shared with cache := w.shared.cache.setDirtyBlock block buf }
        carried := Function.update w.carried block (w.carriedBy o block) } : World).setOp o
          (some { op with cache := op.cache.erase block }))
  | finish {o : OpId} {op : Op} (hop : w.ops o = some op) :
      Move w (.finish o) ((w.setOp o none).unlock o)
  | abort {o : OpId} {op : Op} (hop : w.ops o = some op) :
      Move w (.abort o) ((w.setOp o none).unlock o)
  | lockBegin {a : WorldAct} {hd : Holder} (hfree : w.holder = none)
      (ha : a = .syncBegin hd.ckpt hd.drain ∧ hd.checkpoint = false ∨ a = .checkpointBegin hd.drain)
      (hdraining : hd.draining = false) :
      Move w a { w with log := w.log.syncBegin, holder := some hd }
  | checkpointClean (hfree : w.holder = none) :
      Move w .checkpointClean { w with log := w.log.retire }
  | syncSnapshot {hd : Holder} (hhd : w.holder = some hd) :
      Move w .syncSnapshot { w.snapshotted hd.drain with holder := some { hd with draining := true } }
  | syncEnd {hd : Holder} (hhd : w.holder = some hd) (hdraining : hd.draining = true)
      (hdone : w.shared.drains hd.drain = none) :
      Move w .syncEnd { w with log := hd.endLog w.log, holder := none }
  | fsyncSnapshot {drain : ℕ} (hother : ∀ hd, w.holder = some hd → hd.drain ≠ drain) :
      Move w (.fsyncSnapshot drain) (w.snapshotted drain)
  | drainWrite {drain block : ℕ} {d : Drain} {buf : Bytes} (hd : w.shared.drains drain = some d)
      (hbuf : d.snap.lookup block = some buf) :
      Move w (.drainWrite drain block) { w with
        shared := { w.shared with cache := w.shared.cache.writeBlock block buf }.setDrain drain
          (some { d with todo := d.todo.filter (· ≠ block) })
        written := (w.snapCarried drain block).map (·, block) ++ w.written
        exposed := w.snapCarried drain block ++ w.exposed }
  | applyFrees {drain : ℕ} {d : Drain} (hd : w.shared.drains drain = some d) :
      Move w (.applyFrees drain) { w with
        shared := { w.shared with cache := w.shared.cache.applyFrees d.frees }.setDrain drain
          (some { d with freed := true })
        exposed := w.snapQueued drain ++ w.exposed }
  | deleteDrained {drain : ℕ} {d : Drain} (hd : w.shared.drains drain = some d)
      (hdone : d.todo = []) :
      Move w (.deleteDrained drain) { w with
        shared := { w.shared with cache := w.shared.cache.deleteDrained d.snap }.setDrain drain none }

variable {w u : World} {o : OpId} {a : WorldAct}

theorem setOp_ne {o' : OpId} (op : Option Op) (h : o' ≠ o) : (w.setOp o op).ops o' = w.ops o' :=
  Function.update_of_ne h _ _

theorem takeSnapshot_some {drain : ℕ} (h : w.takeSnapshot drain = some u) :
    u = w.snapshotted drain := by
  obtain ⟨sh, hsh, rfl⟩ := Option.map_eq_some_iff.mp h
  obtain ⟨-, rfl⟩ := Shared.snapshot_eq_some.mp hsh
  rfl

theorem lockBegin_some {hd : Holder} (h : w.lockBegin hd = some u) :
    w.holder = none ∧ u = { w with log := w.log.syncBegin, holder := some hd } := by
  unfold lockBegin at h
  split_ifs at h with hg
  exact ⟨Option.isNone_iff_eq_none.mp hg.1, (Option.some.inj h).symm⟩

theorem exists_op {f : Op → Option World}
    (h : (match w.ops o with | none => none | some op => f op) = some u) :
    ∃ op, w.ops o = some op ∧ f op = some u := by
  cases hop : w.ops o with
  | none =>
    rw [hop] at h
    cases h
  | some op =>
    rw [hop] at h
    exact ⟨op, rfl, h⟩

theorem Steps.move (h : w.Steps a u) : w.Move a u := by
  cases a with
  | begin o =>
    change w.begin o = some u at h
    unfold World.begin at h
    split_ifs at h with hold
    cases h
    exact .begin hold
  | record o size =>
    obtain ⟨op, hop, h⟩ := exists_op h
    split_ifs at h with hg
    cases h
    exact .record hop hg.1 (Option.isNone_iff_eq_none.mp hg.2)
  | change o block buf =>
    obtain ⟨op, hop, h⟩ := exists_op h
    split_ifs at h with hg
    cases h
    exact .change hop hg.1
  | queueFree o rel n =>
    obtain ⟨op, hop, h⟩ := exists_op h
    cases h
    exact .queueFree hop
  | startMerge o =>
    obtain ⟨op, hop, h⟩ := exists_op h
    cases h
    exact .startMerge hop
  | merge o block =>
    obtain ⟨op, hop, h⟩ := exists_op h
    split at h
    · cases h
    · split_ifs at h with hm
      obtain ⟨sh, hsh, rfl⟩ := Option.map_eq_some_iff.mp h
      obtain ⟨-, rfl⟩ := Shared.store_eq_some.mp hsh
      exact .merge hop hm
  | finish o =>
    obtain ⟨op, hop, h⟩ := exists_op h
    split_ifs at h
    cases h
    exact .finish hop
  | abort o =>
    obtain ⟨op, hop, h⟩ := exists_op h
    split_ifs at h
    cases h
    exact .abort hop
  | syncBegin ckpt drain =>
    obtain ⟨hfree, rfl⟩ := lockBegin_some h
    exact .lockBegin hfree (.inl ⟨rfl, rfl⟩) rfl
  | checkpointBegin drain =>
    obtain ⟨hfree, rfl⟩ := lockBegin_some h
    exact .lockBegin hfree (.inr rfl) rfl
  | checkpointClean =>
    change w.checkpointClean = some u at h
    unfold World.checkpointClean at h
    split_ifs at h with hg
    cases h
    exact .checkpointClean (Option.isNone_iff_eq_none.mp hg.1)
  | syncSnapshot =>
    change w.syncSnapshot = some u at h
    unfold World.syncSnapshot at h
    split at h
    · cases h
    · split_ifs at h
      obtain ⟨v, hv, rfl⟩ := Option.map_eq_some_iff.mp h
      obtain rfl := takeSnapshot_some hv
      exact .syncSnapshot ‹_›
  | syncEnd =>
    change w.syncEnd = some u at h
    unfold World.syncEnd at h
    split at h
    · cases h
    · split_ifs at h with hg
      cases h
      exact .syncEnd ‹_› hg.1 (Option.isNone_iff_eq_none.mp hg.2)
  | fsyncSnapshot drain =>
    change w.fsyncSnapshot drain = some u at h
    unfold World.fsyncSnapshot at h
    split_ifs at h with hg
    obtain rfl := takeSnapshot_some h
    refine .fsyncSnapshot fun hd hhd heq => hg ?_
    rw [hhd, Option.map_some, heq]
  | drainWrite drain block =>
    obtain ⟨sh, hsh, rfl⟩ := Option.map_eq_some_iff.mp h
    obtain ⟨d, buf, hd, hbuf, -, rfl⟩ := Shared.drainWrite_eq_some.mp hsh
    exact .drainWrite hd hbuf
  | applyFrees drain =>
    obtain ⟨sh, hsh, rfl⟩ := Option.map_eq_some_iff.mp h
    obtain ⟨d, hd, -, rfl⟩ := Shared.applyFrees_eq_some.mp hsh
    exact .applyFrees hd
  | deleteDrained drain =>
    obtain ⟨sh, hsh, rfl⟩ := Option.map_eq_some_iff.mp h
    obtain ⟨d, hd, hdone, rfl⟩ := Shared.deleteDrained_eq_some.mp hsh
    exact .deleteDrained hd hdone.1

end World

end Briefs.Bridge
