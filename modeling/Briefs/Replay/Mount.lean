import Briefs.Dir.Rename
import Briefs.Replay.Apply

/-!
# Crash and mount

`Disk` is what a crash leaves of a mounted file system, and `mount` what the next
mount makes of it: the passes of `replayJournal` over the live window of the log, the
link counts, and the clean journal. `resolve` reads the directory tree of the result.
-/

namespace Briefs.Replay

open Lib Lib.Call Alloc Journal Trie Dir

/-- What is on the device. -/
structure Disk where
  blocks : ℕ → Content
  table : ℕ → Option TableBlock
  dataPool : Pyramid
  inodePool : Pyramid
  ring : ℕ → RingBlock
  logStart : ℕ
  logEnd : ℕ

/-- Ring blocks written over the ring as it was. -/
def overlay (ring : ℕ → RingBlock) (writes : List (ℕ × List Record)) (pos : ℕ) : RingBlock :=
  match writes.lookup pos with
  | some rs => .records rs
  | none => ring pos

/-- What is left when process memory is lost. -/
def crash (b : BrieFS) : Disk where
  blocks := b.store.blocks.device
  table := b.table.device
  dataPool := b.store.dataPool
  inodePool := b.inodePool
  ring := overlay b.ring b.store.tape.writes
  logStart := b.store.tape.ring.logStart
  logEnd := b.store.tape.ring.logEnd

def layered {ν : Type} (device : ℕ → ν) : Layered ℕ ν where
  device := device
  deferred := fun _ => none
  cache := fun _ => none
  cacheDirty := fun _ => false

/-- The journal of a mount (`NewJournal`). -/
def openTape (g : Geometry) (logStart logEnd : ℕ) : Tape where
  ring :=
    { start := g.journalStart
      stop := g.journalEnd
      allocs := true
      writePos := logStart
      logStart := logStart
      logEnd := logEnd
      offset := journalBlockHdrSize
      records := 0
      blocks := 0
      dirty := false
      events := [] }
  cur := []
  writes := []
  commits := 0

/-- The file system before the replay. -/
def opened (g : Geometry) (d : Disk) : BrieFS where
  store :=
    { blocks := layered d.blocks
      dataAlloc := .ofPool d.dataPool
      dataPool := d.dataPool
      pendingFrees := {}
      triePartials := []
      tape := openTape g d.logStart d.logEnd
      inReplay := false
      replayTrieBlocks := []
      drains := 0 }
  table := layered d.table
  inodeAlloc := .ofPool d.inodePool
  inodePool := d.inodePool
  ring := d.ring
  unwrittenRes := fun _ => 0
  frozen := false
  ticks := 0

variable (env : Env)

/-- The ring blocks `WalkJournalRing` visits from `cur` on. -/
def visited (g : Geometry) (logEnd : ℕ) : ℕ → ℕ → List ℕ
  | 0, _ => []
  | iter + 1, cur =>
    let next := nextRingBlock cur g.journalStart (g.journalEnd - g.journalStart)
    cur :: if next = logEnd then [] else visited g logEnd iter next

def window (g : Geometry) (d : Disk) : List (ℕ × RingBlock) :=
  (visited g d.logEnd (g.journalEnd - g.journalStart) d.logStart).map fun pos => (pos, d.ring pos)

/-- The records of a block; the errors `EINVAL` and `ENOENT` skip a record. -/
def applyRecords (reserveOnly : Bool) : List Record → Call Session Unit
  | [] => pure ()
  | r :: rest => do
    match ← attempt (applyRecord env reserveOnly r) with
    | .ok _ => applyRecords reserveOnly rest
    | .error e =>
      if e = .errno .einval ∨ e = .errno .enoent then applyRecords reserveOnly rest
      else fail (.wrap "replay record" e)

/-- `walkJournal`: a block that is no journal block ends the walk, and the checkpoint
block is skipped. -/
def walkJournal (reserveOnly : Bool) : List (ℕ × RingBlock) → Call Session Unit
  | [] => pure ()
  | (cur, block) :: rest =>
    if cur < env.geometry.journalStart ∨ env.geometry.journalEnd ≤ cur then
      fail (.text s!"briefs: journal read out of range (block={cur})")
    else
      match block with
      | .foreign => pure ()
      | .records rs => do
        when (cur ≠ env.geometry.journalEnd - 1) (applyRecords env reserveOnly rs)
        walkJournal reserveOnly rest

/-- What pass 3 finds out about the allocated inodes. -/
structure Census where
  links : ℕ → ℕ
  subdirs : ℕ → ℕ
  /-- The inodes read, with their type and link count. -/
  state : List (ℕ × Bool × ℕ)

def countEntries (allocated : ℕ → Bool) (ino : ℕ) (c : Census) (entry : ℕ × ℕ) : Census :=
  let bump (n : ℕ) : ℕ := (n + 1) % 2 ^ 32
  { c with
    links :=
      if allocated (entry.1 - 1) then Function.update c.links entry.1 (bump (c.links entry.1))
      else c.links
    subdirs :=
      if entry.2 = ftypeOf modeDir then Function.update c.subdirs ino (bump (c.subdirs ino))
      else c.subdirs }

/-- Pass 3a over the given inodes. -/
def census : List ℕ → Census → Call Session Census
  | [], c => pure c
  | ino :: rest, c => do
    let r ← read
    let allocated := r.fs.inodeAlloc.allocated
    if allocated (ino - 1) then
      match r.fs.readInode env ino with
      | .error _ => census rest c
      | .ok di => do
        let c := { c with state := c.state ++ [(ino, di.isDir, di.nlinks)] }
        if di.isDir then do
          let entries ← runTrie env (iterateAll walkFuel (.start di.dirTrieRoot))
          census rest (entries.foldl (countEntries allocated ino) c)
        else census rest c
    else census rest c

/-- `WriteInode`, straight to the device. -/
def writeInode (inode : Inode) : Call Session Unit := fun r =>
  match inodeLocation env.geometry inode.inodeNumber with
  | none => (.error (.errno .eio), r)
  | some (blk, i) =>
    match r.fs.table.read blk with
    | none => (.error (.errno .eio), r)
    | some slots =>
      (.ok (), { r with fs := { r.fs with table := { r.fs.table with
        device := Function.update r.fs.table.device blk (some (Function.update slots i inode)) } } })

/-- Pass 3b: correct the link counts that disagree. -/
def patchLinks (c : Census) : List (ℕ × Bool × ℕ) → Call Session Unit
  | [] => pure ()
  | (ino, isDir, nlinks) :: rest => do
    let expected := if isDir then (2 + c.subdirs ino) % 2 ^ 32 else c.links ino
    if nlinks = expected then patchLinks c rest
    else do
      let r ← read
      match r.fs.readInode env ino with
      | .error _ => patchLinks c rest
      | .ok di => do
        writeInode env { di with nlinks := expected }
        patchLinks c rest

/-- `replayReconcileNlinks`. -/
def replayReconcileNlinks : Call Session Unit := do
  let r ← read
  let c ← census env (List.range' 1 r.fs.inodeAlloc.bitmap.blockCount)
    { links := fun _ => 0, subdirs := fun _ => 0, state := [] }
  patchLinks env c c.state

/-- `flushCacheToDevice`. -/
def flushCache (b : BrieFS) : BrieFS := b.mapCaches Layered.flush

/-- Both pools are written and the log is marked clean. -/
def finish (b : BrieFS) : BrieFS :=
  let store := b.store.syncAllocator
  let ring := store.tape.ring
  { b with
    store :=
      { store with
        inReplay := false
        replayTrieBlocks := []
        tape := { store.tape with
          ring := { ring with logStart := ring.logEnd, writePos := ring.logEnd, dirty := false,
                              records := 0, blocks := 0 }
          commits := store.tape.commits + 1 } }
    inodePool := b.inodeAlloc.syncPool b.inodePool
    inodeAlloc := b.inodeAlloc.synced }

/-- The session a replay starts with. -/
def startSession (b : BrieFS) : Session where
  fs := { b with store := { b.store with inReplay := true } }
  xattrFinal := []
  xattrNext := fun _ => 0
  xattrLive := fun _ => false
  trieSeeded := fun _ => false
  replayParents := fun _ => none
  replayParentsPristine := fun _ => none

/-- The passes of `replayJournal`. -/
def replayPasses (blocks : List (ℕ × RingBlock)) : Call Session Unit := do
  context "briefs: replay pass 1 (reserve)" (walkJournal env true blocks)
  update buildXattrLiveSet
  context "briefs: replay pass 2 (apply)" (walkJournal env false blocks)
  updateFs flushCache
  context "briefs: replay pass 3 (nlink)" (replayReconcileNlinks env)
  updateFs finish

/-- `replayJournal`. -/
def replayJournal (d : Disk) (b : BrieFS) : Except Err BrieFS :=
  if d.logStart = d.logEnd then .ok b
  else
    match replayPasses env (window env.geometry d) (startSession b) with
    | (.ok _, r) => .ok r.fs
    | (.error e, _) => .error e

def mount (d : Disk) : Except Err BrieFS :=
  let n := env.geometry.journalEnd - env.geometry.journalStart
  if n < journalMinBlocks ∨ journalMaxBlocks < n then .error (.text "init journal")
  else replayJournal env d (opened env.geometry d)

/-- `Lookup` of a name in the directory `ino`. -/
def lookup (b : BrieFS) (ino : ℕ) (name : Bytes) : Option (ℕ × ℕ) :=
  match b.readInode env ino with
  | .error _ => none
  | .ok di =>
    match ((trieLookup di.dirTrieRoot name).run (Store.exec env.geometry) b.store).1 with
    | .ok entry => some entry
    | .error _ => none

/-- The inode and the type a path leads to, from the directory `entry` on. -/
def resolveFrom (b : BrieFS) : ℕ × ℕ → List Bytes → Option (ℕ × ℕ)
  | entry, [] => some entry
  | entry, name :: rest =>
    match lookup env b entry.1 name with
    | none => none
    | some entry => resolveFrom b entry rest

/-- The directory tree: what a path from the root leads to. -/
def resolve (b : BrieFS) (path : List Bytes) : Option (ℕ × ℕ) :=
  resolveFrom env b (env.geometry.rootIno, ftypeOf modeDir) path

end Briefs.Replay
