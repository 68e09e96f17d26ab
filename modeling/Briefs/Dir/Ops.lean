import Briefs.Dir.State

/-!
# Creating, linking and removing entries

`inode_alloc.go`, `dir_ops.go` and the link part of `link_ops.go`. The code changes
the inodes it holds in place; here a function that does so returns the inode.
-/

namespace Briefs.Dir

open Lib Journal Trie

variable (g : Geometry)

def dirEntryPrefixLen : ℕ := 2

/-- Link counts are 32 bits wide. -/
def incLink (n : ℕ) : ℕ := (n + 1) % 2 ^ 32

def decLink (n : ℕ) : ℕ := (n + 2 ^ 32 - 1) % 2 ^ 32

/-- The entry type of a mode. -/
def ftypeOf (mode : ℕ) : ℕ := (mode >>> 12) % 2 ^ 8

def isDirMode (mode : ℕ) : Bool := mode &&& modeTypeMask == modeDir

def stampMtimeCtime (i : Inode) : Prog Inode := do return i.stampMtimeCtime (← perform .nowTime)

def stampCtime (i : Inode) : Prog Inode := do return i.stampCtime (← perform .nowTime)

def journalInodeFull (i : Inode) : Prog Unit := writeRecord (.inodeFull i.inodeNumber i)

def journalInodeUpdate (i : Inode) : Prog Unit :=
  writeRecord (.inodeUpdate
    { ino := i.inodeNumber
      mode := i.filemode
      nlink := i.nlinks
      uid := i.uid
      gid := i.gid
      fileSize := i.fileSize
      atime := i.atime
      mtime := i.mtime
      ctime := i.ctime
      flags := i.flags
      generation := some i.generation })

def journalDirUpdate (parentIno childIno : ℕ) (name : Bytes) (op ftype : ℕ) : Prog Unit :=
  writeRecord (.dirUpdate
    { parentIno := parentIno, childIno := childIno, name := name.take 255, op := op, ftype := ftype })

/-- `AllocInode`. -/
def allocInode (mode uid gid parentIno : ℕ) : Prog Inode := do
  let rel ← perform .allocInodeBit
  Program.require (rel ≠ 0) (.errno .enospc)
  let ino := rel + 1
  let nlink := if isDirMode mode then 2 else 1
  match ← (writeRecord (.inodeAlloc ino mode nlink uid gid)).attempt with
  | .error e => do
    perform (.freeInodeBit rel)
    .fail (.wrap "briefs: journal inode alloc" e)
  | .ok _ => do
    let now ← perform .nowTime
    let generation ← perform .rand
    return { Inode.newInode ino mode now with
      uid := uid
      gid := gid
      nlinks := nlink
      parentInode := if isDirMode mode then parentIno else 0
      generation := generation }

/-- `FreeInode`. -/
def freeInode (ino : ℕ) : Prog Unit :=
  Program.when (ino ≠ 0) do
    (zeroInodeCached ino).context s!"briefs: zero inode {ino}"
    (writeRecord (.inodeFree ino)).context "briefs: journal inode free"
    perform (.freeInodeBit (ino - 1))

/-- `addDirEntry`: the parent with the root its trie has afterwards. -/
def addDirEntry (parent : Inode) (childIno : ℕ) (name : Bytes) (ftype : ℕ) : Prog Inode := do
  let parent ←
    if parent.dirTrieRoot = 0 then do
      let parent := { parent with dirTrieRoot := ← trie (trieCreateRoot g) }
      journalInodeFull parent
      pure parent
    else pure parent
  match ← (trie (trieInsert g parent.dirTrieRoot name childIno ftype)).attempt with
  | .ok root => return { parent with dirTrieRoot := root }
  | .error e =>
    if e ≠ .errno .eexist then .fail e
    else
      match ← (trie (trieUpdateEntry parent.dirTrieRoot name childIno ftype)).attempt with
      | .ok _ => return parent
      | .error e =>
        if e ≠ .errno .enoent then .fail e
        else do
          let root ← trie (trieRemove parent.dirTrieRoot name)
          return { parent with dirTrieRoot := ← trie (trieInsert g root name childIno ftype) }

/-- `removeDirEntry`. -/
def removeDirEntry (parent : Inode) (name : Bytes) : Prog Inode :=
  if parent.dirTrieRoot = 0 then .fail (.errno .enoent)
  else do return { parent with dirTrieRoot := ← trie (trieRemove parent.dirTrieRoot name) }

/-- `updateParentDir`. -/
def updateParentDir (parent : Inode) (sizeDelta linkDelta : ℤ) : Prog Inode := do
  let parent := { parent with
    fileSize := ((parent.fileSize : ℤ) + sizeDelta).toNat
    nlinks :=
      if 0 < linkDelta then incLink parent.nlinks
      else if linkDelta < 0 then decLink parent.nlinks
      else parent.nlinks }
  let parent ← stampMtimeCtime parent
  writeInodeCached parent
  journalInodeFull parent
  return parent

/-- The inode an entry names, 0 if the lookup fails. -/
def existingEntry (parent : Inode) (name : Bytes) : Prog (ℕ × ℕ) := do
  match ← (trie (trieLookup parent.dirTrieRoot name)).attempt with
  | .ok entry => return entry
  | .error _ => return (0, 0)

/-- `applyCreateMode`. -/
def applyCreateMode (parent : Inode) (mode umask : ℕ) : Prog ℕ := do
  let acl ← if parent.xattrOffset = 0 then pure none else perform (.aclMode parent (mode &&& 0o7777))
  match acl with
  | some newMode => return newMode ||| (mode - (mode &&& 0o7777))
  | none => return mode - (mode &&& (umask &&& 0o777))

/-- A block of bytes, zero past the end of `bytes`. -/
def blockOf (size : ℕ) (bytes : Bytes) : Bytes := copyAt (List.replicate size 0) 0 bytes

/-- The symlink part of `createNamedInode`: a short target goes into the inode, a long
one into a block of its own. -/
def storeTarget (child : Inode) (target : Bytes) : Prog Inode := do
  let child := { child with fileSize := target.length }
  if target.length ≤ inlineDataMax then
    return { child with
      region := .data (blockOf inlineDataMax target)
      flags := child.flags ||| inodeFlagInlineData }
  else
    let rel ← perform (.store .allocBlock)
    Program.require (rel ≠ 0) (.errno .enospc)
    let abs := (g.dataRegionStart + rel) % 2 ^ 64
    trie (saveBlock abs (.raw (blockOf journalBlockSize target)))
    let journaled ← Program.attempt do
      writeRecord (.extentAlloc child.inodeNumber 0 1 abs)
      writeRecord (.symlinkData child.inodeNumber abs target)
    match journaled with
    | .error e => do
      perform (.store (.freeBlock rel))
      .fail e
    | .ok _ =>
      return { child.setFirstExtent ⟨0, abs, 1, 0⟩ with numExtentsInline := 1, numExtentsTotal := 1 }

structure CreateArgs where
  parentIno : ℕ
  name : Bytes
  mode : ℕ
  uid : ℕ
  gid : ℕ
  excl : Bool
  rdev : ℕ
  symlinkTarget : Bytes
  umask : ℕ

/-- `createNamedInode` from the allocated inode on; if it fails the inode is freed again. -/
def fillNamedInode (a : CreateArgs) (mode : ℕ) (parent child : Inode) : Prog Inode := do
  let child := if a.rdev = 0 then child else { child with rdev := a.rdev }
  let child ← if a.symlinkTarget = [] then pure child else storeTarget g child a.symlinkTarget
  let child ←
    if isDirMode mode then do
      pure { child with dirTrieRoot := ← trie (trieCreateRoot g) }
    else pure child
  writeInodeCached child
  let parent ← addDirEntry g parent child.inodeNumber a.name (ftypeOf mode)
  writeThroughFreshInodeSlot child
  journalInodeFull child
  journalDirUpdate a.parentIno child.inodeNumber a.name 0 (ftypeOf mode)
  let _ ← updateParentDir parent (dirEntryPrefixLen + a.name.length)
    (if isDirMode mode then 1 else 0)
  return child

/-- `createNamedInode` inside the operation's cache. -/
def createInCache (a : CreateArgs) : Prog Inode := do
  let parent ← readInodeCached a.parentIno
  Program.require parent.isDir (.errno .enotdir)
  let mode ← if a.symlinkTarget = [] then applyCreateMode parent a.mode a.umask else pure a.mode
  let setgid := parent.filemode &&& modeSetGID != 0
  let mode := if isDirMode mode && setgid then mode ||| modeSetGID else mode
  let child ← allocInode mode a.uid (if setgid then parent.gid else a.gid) a.parentIno
  match ← (fillNamedInode g a mode parent child).attempt with
  | .ok child => return child
  | .error e => do
    let _ ← (freeInode child.inodeNumber).attempt
    .fail e

/-- `createNamedInode`. -/
def createNamedInode (a : CreateArgs) : Prog Inode := do
  Program.require (!(← perform .frozen)) (.errno .erofs)
  Program.require (¬ (a.mode &&& modeTypeMask = modeSymlink ∧
    (a.symlinkTarget.length = 0 ∨ symlinkMaxLen < a.symlinkTarget.length))) (.errno .enametoolong)
  let parent0 ← readInode a.parentIno
  let (existing, _) ← existingEntry parent0 a.name
  if existing ≠ 0 then
    if a.excl then .fail (.errno .eexist) else readInode existing
  else cacheEpilogue (createInCache g a)

/-- `collectExtentTree`. -/
def collectExtentTree (i : Inode) : Prog ExtentTree :=
  if i.flags &&& inodeFlagInlineData ≠ 0 then pure ⟨[], []⟩
  else if i.flags &&& inodeFlagIndexed = 0 then
    match i.region with
    | .extents exts => pure ⟨exts.take (min i.numExtentsInline 8), []⟩
    | .data _ => pure ⟨[], []⟩
  else if i.extentInlineBase = 0 then pure ⟨[], []⟩
  else do Program.ofExcept (← perform (.walkIndex i))

/-- Queue the blocks of some runs and journal that they are free. -/
def deferFreeRuns (ino : ℕ) : List (ℕ × ℕ) → Prog Unit
  | [] => pure ()
  | (phys, len) :: rest => do
    perform (.store (.deferBlockFreeRun phys len))
    writeRecord (.extentFree ino phys len)
    deferFreeRuns ino rest

/-- `freeInodeData`. -/
def freeInodeData (i : Inode) : Prog Unit :=
  Program.when (i.flags &&& inodeFlagInlineData = 0) do
    let tree ← collectExtentTree i
    deferFreeRuns i.inodeNumber
      ((tree.exts.filter (·.phys ≠ 0)).map fun e => (e.phys, e.len))
    deferFreeRuns i.inodeNumber (tree.nodes.map fun run => (run.first, run.n))
    perform (.setUnwrittenRes i.inodeNumber 0)

/-- Free an inode whose last link is gone. A directory's trie is empty by then, so its
root is all there is to free of it. -/
def freeUnlinked (i : Inode) (ino : ℕ) (dir : Bool) : Prog Unit := do
  let i ←
    if dir ∧ i.dirTrieRoot ≠ 0 then do
      trie (trieFreeNode i.dirTrieRoot)
      pure { i with dirTrieRoot := 0 }
    else pure i
  freeInodeData i
  freeInode ino

/-- `unlinkInDir` inside the operation's cache. -/
def unlinkInCache (parentIno childIno : ℕ) (name : Bytes) (isRmdir : Bool) : Prog Unit := do
  let parent ← readInodeCached parentIno
  let child ← readInodeCached childIno
  if isRmdir then do
    Program.require child.isDir (.errno .enotdir)
    Program.require (← trie (dirIsEmpty child.dirTrieRoot)) (.errno .enotempty)
  else Program.require (!child.isDir) (.errno .eisdir)
  let parent ← removeDirEntry parent name
  journalDirUpdate parentIno 0 name 1 0
  let parent := if isRmdir then { parent with nlinks := decLink parent.nlinks } else parent
  let child := { child with nlinks := if isRmdir then 0 else decLink child.nlinks }
  let child ← stampCtime child
  writeInodeCached child
  journalInodeUpdate child
  Program.when (child.nlinks = 0) (freeUnlinked child childIno isRmdir)
  let _ ← updateParentDir parent (-(dirEntryPrefixLen + name.length)) 0

/-- `unlinkInDir`. -/
def unlinkInDir (parentIno : ℕ) (name : Bytes) (isRmdir : Bool) : Prog Unit := do
  Program.require (!(← perform .frozen)) (.errno .erofs)
  let p0 ← readInode parentIno
  Program.require p0.isDir (.errno .enotdir)
  match ← (trie (trieLookup p0.dirTrieRoot name)).attempt with
  | .error _ => .fail (.errno .enoent)
  | .ok (childIno, _) => cacheEpilogue (unlinkInCache parentIno childIno name isRmdir)

/-- `linkInDir` inside the operation's cache. -/
def linkInCache (parentIno : ℕ) (name : Bytes) (targetIno : ℕ) : Prog Inode := do
  let parent ← readInodeCached parentIno
  let target ← readInodeCached targetIno
  let parent ← addDirEntry g parent targetIno name (ftypeOf target.filemode)
  journalDirUpdate parentIno targetIno name 0 (ftypeOf target.filemode)
  let target ← stampCtime { target with nlinks := incLink target.nlinks }
  writeInodeCached target
  journalInodeFull target
  let _ ← updateParentDir parent (dirEntryPrefixLen + name.length) 0
  return target

/-- `linkInDir`. -/
def linkInDir (parentIno : ℕ) (name : Bytes) (targetIno : ℕ) : Prog Inode := do
  Program.require (!(← perform .frozen)) (.errno .erofs)
  let p0 ← readInode parentIno
  Program.require p0.isDir (.errno .enotdir)
  let (existing, _) ← existingEntry p0 name
  Program.require (existing = 0) (.errno .eexist)
  let t0 ← readInode targetIno
  Program.require (!t0.isDir) (.errno .eperm)
  cacheEpilogue (linkInCache g parentIno name targetIno)

end Briefs.Dir
