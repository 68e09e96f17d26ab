import Briefs.Bridge.RunList
import Briefs.Journal.Tape
import Briefs.Lib.Layered
import Briefs.Lib.Program
import Briefs.Trie.Page

/-!
# What the trie code works on

The part of the bridge the directory tries use: the blocks of the data region with
the operation's cache and the deferred map over them (`cache.go`), the data
allocator with its queue of deferred frees, the pool of partial pages and the
journal. The calls of the trie code on it are the commands `Cmd`. Device writes do
not fail; a block that cannot be read is `Content.unreadable`.
-/

namespace Briefs.Trie

open Lib Alloc Journal
open Bridge (RunAccum)

/-- Where the regions of the volume are. -/
structure Geometry where
  dataRegionStart : ℕ
  rootIno : ℕ
  inodesPerBlock : ℕ
  /-- The first block of the journal ring and the one past its last. -/
  journalStart : ℕ
  journalEnd : ℕ

/-- A block number relative to the data region, in 64 bits. -/
def Geometry.rel (g : Geometry) (abs : ℕ) : ℕ := (abs + 2 ^ 64 - g.dataRegionStart) % 2 ^ 64

structure Store where
  blocks : Layered ℕ Content
  dataAlloc : Allocator
  /-- The data allocator's pool on the device. -/
  dataPool : Pyramid
  pendingFrees : RunAccum
  triePartials : List ℕ
  tape : Tape
  inReplay : Bool
  replayTrieBlocks : List ℕ
  /-- How often the deferred map was drained. -/
  drains : ℕ

inductive Cmd
  | loadBlock (block : ℕ)
  | readBlock (block : ℕ)
  | saveBlock (block : ℕ) (c : Content)
  | cacheDrop (block : ℕ)
  | allocBlock
  | freeBlock (rel : ℕ)
  | deferBlockFreeRun (abs n : ℕ)
  | writeRecord (r : Record)
  | partials
  | setPartials (blocks : List ℕ)
  | popReplayBlock

abbrev Cmd.Ret : Cmd → Type
  | .loadBlock _ => Except Err Content
  | .readBlock _ => Except Err Content
  | .saveBlock _ _ => Unit
  | .cacheDrop _ => Unit
  | .allocBlock => ℕ
  | .freeBlock _ => Unit
  | .deferBlockFreeRun _ _ => Unit
  | .writeRecord _ => Except Err Unit
  | .partials => List ℕ
  | .setPartials _ => Unit
  | .popReplayBlock => Option ℕ

abbrev Prog := Program Cmd Cmd.Ret

def Content.readable : Content → Except Err Content
  | .unreadable => .error (.errno .eio)
  | c => .ok c

namespace Store

variable (g : Geometry) (s : Store)

def loadBlock (block : ℕ) : Except Err Content × Store :=
  match (s.blocks.view block).readable with
  | .ok c => (.ok c, { s with blocks := s.blocks.load block })
  | .error e => (.error e, s)

def syncAllocator : Store :=
  { s with dataPool := s.dataAlloc.syncPool s.dataPool, dataAlloc := s.dataAlloc.synced }

/-- `SyncMeta`: the deferred blocks reach the device, then the queued frees are applied. -/
def syncMeta : Store :=
  { s with
    blocks := s.blocks.drain
    dataAlloc := s.pendingFrees.runs.foldl (fun a run => a.freeRun run.first run.n) s.dataAlloc
    pendingFrees := {}
    drains := s.drains + 1 }

/-- The pools are written with every retire. -/
def retirePools (b : Bool) : Store := if b then s.syncAllocator else s

/-- `Sync`: nothing on a clean journal, else commit, drain and write the pools. What
follows the drain retires with the pools just written. -/
def sync (ckpt : Bool) : Store :=
  if s.tape.ring.dirty then
    let s := s.retirePools (decide s.tape.ring.full)
    let s := ({ s with tape := s.tape.syncBegin } : Store).syncMeta.syncAllocator
    { s with tape := s.tape.syncEnd ckpt }
  else s

/-- `WriteRecord`, which does nothing during a replay. -/
def writeRecord (r : Record) : Store :=
  if s.inReplay then s
  else
    let s := s.retirePools (s.tape.retires r)
    { s with tape := s.tape.writeRecord r }

/-- `reclaimPendingFrees`: whether a sync may have freed blocks. -/
def reclaimPendingFrees : Bool × Store :=
  if s.pendingFrees.count = 0 then (false, s) else (true, s.sync false)

def tryAllocBlock : ℕ × Store :=
  let r := s.dataAlloc.tryAllocBlock false
  (r.1, { s with dataAlloc := r.2 })

/-- `AllocBlock` of the data allocator: a failed request reclaims once and tries again. -/
def allocBlock : ℕ × Store :=
  match s.tryAllocBlock with
  | (0, s) =>
    match s.reclaimPendingFrees with
    | (true, s) => s.tryAllocBlock
    | (false, s) => (0, s)
  | (rel, s) => (rel, s)

/-- The block a replay takes for a new trie page, the last one collected. -/
def popReplayBlock : Option ℕ × Store :=
  if s.inReplay then
    (s.replayTrieBlocks.getLast?, { s with replayTrieBlocks := s.replayTrieBlocks.dropLast })
  else (none, s)

def exec (c : Cmd) (s : Store) : c.Ret × Store :=
  match c with
  | .loadBlock block => s.loadBlock block
  | .readBlock block => ((s.blocks.read block).readable, s)
  | .saveBlock block c => ((), { s with blocks := s.blocks.save block c })
  | .cacheDrop block => ((), { s with blocks := s.blocks.drop block })
  | .allocBlock => s.allocBlock
  | .freeBlock rel => ((), { s with dataAlloc := s.dataAlloc.freeBlock rel })
  | .deferBlockFreeRun abs n =>
    ((), { s with pendingFrees := s.pendingFrees.addRun (g.rel abs) n })
  | .writeRecord r => (.ok (), s.writeRecord r)
  | .partials => (s.triePartials, s)
  | .setPartials blocks => ((), { s with triePartials := blocks })
  | .popReplayBlock => s.popReplayBlock

end Store

section Calls

def perform (c : Cmd) : Prog c.Ret := Program.cmd c

def loadBlock (block : ℕ) : Prog Content := do
  Program.ofExcept (← perform (.loadBlock block))

def readBlock (block : ℕ) : Prog Content := do
  Program.ofExcept (← perform (.readBlock block))

def saveBlock (block : ℕ) (c : Content) : Prog Unit := perform (.saveBlock block c)

def writeRecord (r : Record) : Prog Unit := do
  Program.ofExcept (← perform (.writeRecord r))

def deferBlockFree (abs : ℕ) : Prog Unit := perform (.deferBlockFreeRun abs 1)

/-- `addPartial`. -/
def addPartial (block : ℕ) : Prog Unit := do
  let pool ← perform .partials
  Program.when (block ∉ pool) (perform (.setPartials (pool ++ [block])))

/-- `removePartial`. -/
def removePartial (block : ℕ) : Prog Unit := do
  let pool ← perform .partials
  perform (.setPartials (pool.filter (· ≠ block)))

end Calls

end Briefs.Trie
