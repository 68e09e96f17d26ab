import Briefs.Trie.Mutate
import Briefs.Trie.Walk

/-!
# The mounted file system

`BrieFS` adds the inode table and the inode allocator to what the tries use. The
table is kept by blocks, as the cache and the deferred map hold it, so an operation
that saves one slot also saves its copy of the neighbours. `Cmd` are the calls the
directory operations make. What lies outside this development enters through `Env`:
the clock, the generation numbers, the extent index of large files and the default
ACLs, any of which may answer anything.
-/

namespace Briefs.Dir

open Lib Alloc Journal Trie
open Bridge (BlockRun)

/-- The slots of a block of the inode table. -/
abbrev TableBlock := ℕ → Inode

def inodeFlagIndexed : ℕ := 4
def modeSetGID : ℕ := 0o2000
def symlinkMaxLen : ℕ := 2550
def btreeLeafFanout : ℕ := 126
def btreeIdxFanout : ℕ := 253

/-- The extents of a file and the node blocks of its index. -/
structure ExtentTree where
  exts : List Extent
  nodes : List BlockRun

structure Env where
  geometry : Geometry
  clock : ℕ → Time
  rand : ℕ → ℕ
  /-- The walk of the extent index of a file. -/
  walkIndex : ℕ → Inode → Except Err ExtentTree
  /-- The mode a default ACL of the parent gives, if it has one. -/
  aclMode : ℕ → Inode → ℕ → Option ℕ

structure BrieFS where
  store : Store
  /-- A block that cannot be read is `none`. -/
  table : Layered ℕ (Option TableBlock)
  inodeAlloc : Allocator
  /-- The inode allocator's pool on the device. -/
  inodePool : Pyramid
  /-- The journal ring as it was at the mount. -/
  ring : ℕ → RingBlock
  unwrittenRes : ℕ → ℕ
  frozen : Bool
  /-- How often the environment was asked. -/
  ticks : ℕ

inductive Cmd
  | store (c : Trie.Cmd)
  | readInode (ino : ℕ)
  | readInodeCached (ino : ℕ)
  | writeInodeCached (inode : Inode)
  | zeroInodeCached (ino : ℕ)
  | writeThroughFreshInodeSlot (inode : Inode)
  | allocInodeBit
  | freeInodeBit (rel : ℕ)
  | cacheBegin
  | mergeCache
  | cacheAbort
  | setUnwrittenRes (ino n : ℕ)
  | frozen
  | nowTime
  | rand
  | walkIndex (inode : Inode)
  | aclMode (parent : Inode) (mode : ℕ)

abbrev Cmd.Ret : Cmd → Type
  | .store c => c.Ret
  | .readInode _ => Except Err Inode
  | .readInodeCached _ => Except Err Inode
  | .writeInodeCached _ => Except Err Unit
  | .zeroInodeCached _ => Except Err Unit
  | .writeThroughFreshInodeSlot _ => Except Err Unit
  | .allocInodeBit => ℕ
  | .freeInodeBit _ => Unit
  | .cacheBegin => Unit
  | .mergeCache => Unit
  | .cacheAbort => Unit
  | .setUnwrittenRes _ _ => Unit
  | .frozen => Bool
  | .nowTime => Time
  | .rand => ℕ
  | .walkIndex _ => Except Err ExtentTree
  | .aclMode _ _ => Option ℕ

abbrev Prog := Program Cmd Cmd.Ret

/-- `InodeLocation`; inode 0 is far outside the device. -/
def inodeLocation (g : Geometry) (ino : ℕ) : Option (ℕ × ℕ) :=
  if ino = 0 then none else some ((ino - 1) / g.inodesPerBlock, (ino - 1) % g.inodesPerBlock)

/-- The slot of an inode, given what the table blocks hold. -/
def slotIn (g : Geometry) (blocks : ℕ → Option TableBlock) (ino : ℕ) : Option Inode :=
  match inodeLocation g ino with
  | none => none
  | some (blk, i) => (blocks blk).map fun slots => slots i

/-- Put an inode into a slot of a table block. -/
def putInode (i : ℕ) (inode : Inode) (block : Option TableBlock) : Option TableBlock :=
  block.map fun slots => Function.update slots i inode

/-- `metaReserveSize`. -/
def metaReserveSize (n : ℕ) : ℕ :=
  if n = 0 then 0
  else
    let leaves := (n + btreeLeafFanout - 1) % 2 ^ 64 / btreeLeafFanout
    leaves + (leaves + btreeIdxFanout - 1) / btreeIdxFanout + 1

namespace BrieFS

variable (env : Env) (b : BrieFS)

/-- What a sync inside a store call does outside the store: a drain also writes the
deferred table blocks, and the inode pool is written with every commit. -/
def settle (before : Store) : BrieFS :=
  let b := if b.store.drains = before.drains then b else { b with table := b.table.drain }
  if b.store.tape.commits = before.tape.commits then b
  else { b with inodePool := b.inodeAlloc.syncPool b.inodePool, inodeAlloc := b.inodeAlloc.synced }

def execStore (c : Trie.Cmd) : c.Ret × BrieFS :=
  match Store.exec env.geometry c b.store with
  | (r, store) => (r, ({ b with store := store } : BrieFS).settle b.store)

def slotOr (inode : Option Inode) : Except Err Inode :=
  match inode with
  | some i => .ok i
  | none => .error (.errno .eio)

/-- `ReadInode`, over the deferred map. -/
def readInode (ino : ℕ) : Except Err Inode := slotOr (slotIn env.geometry b.table.read ino)

def loadSlot (ino : ℕ) : BrieFS :=
  match inodeLocation env.geometry ino with
  | none => b
  | some (blk, _) =>
    if (b.table.view blk).isSome then { b with table := b.table.load blk } else b

def readInodeCached (ino : ℕ) : Except Err Inode × BrieFS :=
  (slotOr (slotIn env.geometry b.table.view ino), b.loadSlot env ino)

/-- Replace the slot of `ino` in the operation's cache. -/
def saveSlot (ino : ℕ) (inode : Inode) : Except Err Unit × BrieFS :=
  match inodeLocation env.geometry ino with
  | none => (.error (.errno .eio), b)
  | some (blk, i) =>
    match b.table.view blk with
    | none => (.error (.errno .eio), b)
    | some slots =>
      (.ok (), { b with table := b.table.save blk (some (Function.update slots i inode)) })

/-- `writeThroughFreshInodeSlot`: the slot on the device, and in a deferred copy of its block. -/
def writeThroughFreshInodeSlot (inode : Inode) : Except Err Unit × BrieFS :=
  match inodeLocation env.geometry inode.inodeNumber with
  | none => (.error (.errno .eio), b)
  | some (blk, i) => (.ok (), { b with table := b.table.patch blk (putInode i inode) })

/-- `AllocBlock` of the inode allocator, which has nothing to reclaim. -/
def allocInodeBit : ℕ × BrieFS :=
  let r := b.inodeAlloc.tryAllocBlock false
  (r.1, { b with inodeAlloc := r.2 })

/-- `setUnwrittenRes`. -/
def setUnwrittenRes (ino n : ℕ) : BrieFS :=
  { b with
    unwrittenRes := Function.update b.unwrittenRes ino n
    store := { b.store with
      dataAlloc := b.store.dataAlloc.adjustShield
        ((metaReserveSize n : ℤ) - metaReserveSize (b.unwrittenRes ino)) } }

def mapCaches (f : ∀ {ν : Type}, Layered ℕ ν → Layered ℕ ν) : BrieFS :=
  { b with table := f b.table, store := { b.store with blocks := f b.store.blocks } }

def tick : BrieFS := { b with ticks := b.ticks + 1 }

def exec (c : Cmd) (b : BrieFS) : c.Ret × BrieFS :=
  match c with
  | .store c => b.execStore env c
  | .readInode ino => (b.readInode env ino, b)
  | .readInodeCached ino => b.readInodeCached env ino
  | .writeInodeCached inode => b.saveSlot env inode.inodeNumber inode
  | .zeroInodeCached ino => b.saveSlot env ino .zero
  | .writeThroughFreshInodeSlot inode => b.writeThroughFreshInodeSlot env inode
  | .allocInodeBit => b.allocInodeBit
  | .freeInodeBit rel => ((), { b with inodeAlloc := b.inodeAlloc.freeBlock rel })
  | .cacheBegin => ((), b.mapCaches Layered.clear)
  | .mergeCache => ((), b.mapCaches Layered.merge)
  | .cacheAbort => ((), b.mapCaches Layered.clear)
  | .setUnwrittenRes ino n => ((), b.setUnwrittenRes ino n)
  | .frozen => (b.frozen, b)
  | .nowTime => (env.clock b.ticks, b.tick)
  | .rand => (env.rand b.ticks, b.tick)
  | .walkIndex inode => (env.walkIndex b.ticks inode, b.tick)
  | .aclMode parent mode => (env.aclMode b.ticks parent mode, b.tick)

end BrieFS

section Calls

def perform (c : Cmd) : Prog c.Ret := Program.cmd c

def trie {α : Type} (p : Trie.Prog α) : Prog α := p.embed Cmd.store fun _ r => r

def readInode (ino : ℕ) : Prog Inode := do Program.ofExcept (← perform (.readInode ino))

def readInodeCached (ino : ℕ) : Prog Inode := do
  Program.ofExcept (← perform (.readInodeCached ino))

def writeInodeCached (inode : Inode) : Prog Unit := do
  Program.ofExcept (← perform (.writeInodeCached inode))

def zeroInodeCached (ino : ℕ) : Prog Unit := do
  Program.ofExcept (← perform (.zeroInodeCached ino))

def writeThroughFreshInodeSlot (inode : Inode) : Prog Unit := do
  Program.ofExcept (← perform (.writeThroughFreshInodeSlot inode))

def writeRecord (r : Record) : Prog Unit := trie (Trie.writeRecord r)

/-- `cacheEpilogue`: the cache of an operation is merged if it succeeds and dropped if not. -/
def cacheEpilogue {α : Type} (body : Prog α) : Prog α := do
  perform .cacheBegin
  match ← body.attempt with
  | .ok a => do
    perform .mergeCache
    return a
  | .error e => do
    perform .cacheAbort
    .fail e

end Calls

end Briefs.Dir
