import Briefs.Dir.Ops

/-!
# Renaming

The rename part of `link_ops.go`. A rename holds each inode once, whatever names it
has in the operation (both parents may be one directory), so the inodes are kept in a
map by number.
-/

namespace Briefs.Dir

open Lib Journal Trie

variable (g : Geometry)

def renameNoreplaceFlag : ℕ := 1
def renameExchangeFlag : ℕ := 2
def renameWhiteoutFlag : ℕ := 4
def modeChr : ℕ := 0o020000
def modeWhiteout : ℕ := modeChr ||| 0o600

/-- The inodes a rename holds (`inodeGetter`). -/
abbrev Held := ℕ → Option Inode

namespace Held

def inode (m : Held) (ino : ℕ) : Inode := (m ino).getD .zero

def put (m : Held) (ino : ℕ) (i : Inode) : Held := Function.update m ino (some i)

/-- `inodeGetter.get`. -/
def get (m : Held) (ino : ℕ) : Prog Held :=
  if (m ino).isSome then pure m else do return m.put ino (← readInodeCached ino)

def change (m : Held) (ino : ℕ) (f : Inode → Prog Inode) : Prog Held := do
  return m.put ino (← f (m.inode ino))

def modify (m : Held) (ino : ℕ) (f : Inode → Inode) : Held := m.put ino (f (m.inode ino))

end Held

structure RenameArgs where
  oldParentIno : ℕ
  oldName : Bytes
  newParentIno : ℕ
  newName : Bytes

structure RenameOp where
  movedIno : ℕ
  movedFtype : ℕ
  targetIno : ℕ
  targetFtype : ℕ

/-- `removeRenameTarget`. -/
def removeRenameTarget (m : Held) (newParentIno : ℕ) (newName : Bytes) (targetIno : ℕ) :
    Prog Held := do
  let m ← m.change newParentIno (removeDirEntry · newName)
  journalDirUpdate newParentIno 0 newName 1 0
  let dir := (m.inode targetIno).isDir
  let m := if dir then m.modify newParentIno fun i => { i with nlinks := decLink i.nlinks } else m
  let m := m.modify targetIno fun i => { i with nlinks := if dir then 0 else decLink i.nlinks }
  let m ← m.change targetIno stampCtime
  writeInodeCached (m.inode targetIno)
  journalInodeFull (m.inode targetIno)
  Program.when ((m.inode targetIno).nlinks = 0) (freeUnlinked (m.inode targetIno) targetIno dir)
  return m

/-- `finishCrossDirMove`. -/
def finishCrossDirMove (m : Held) (a : RenameArgs) (movedIno : ℕ) : Prog Unit := do
  let cross := a.oldParentIno ≠ a.newParentIno
  let dirMove := cross ∧ (m.inode movedIno).isDir
  let m := if dirMove then m.modify movedIno fun i => { i with parentInode := a.newParentIno } else m
  Program.when dirMove do
    writeInodeCached (m.inode movedIno)
    journalInodeFull (m.inode movedIno)
  let m ← m.change a.oldParentIno (updateParentDir · 0 (if dirMove then -1 else 0))
  let m ←
    if cross then m.change a.newParentIno (updateParentDir · 0 (if dirMove then 1 else 0))
    else pure m
  let m ← m.change movedIno stampCtime
  writeInodeCached (m.inode movedIno)
  journalInodeFull (m.inode movedIno)

/-- The target of a rename other than an exchange: it may be missing, and a directory
must be empty. -/
def replacedTarget (newP0 : Inode) (newName : Bytes) (flags : ℕ) : Prog (ℕ × ℕ) := do
  let (targetIno, targetFtype) ← existingEntry newP0 newName
  Program.require (¬ (targetIno ≠ 0 ∧ flags &&& renameNoreplaceFlag ≠ 0 ∧
    flags &&& renameWhiteoutFlag = 0)) (.errno .eexist)
  Program.when (targetIno ≠ 0) do
    let tt ← readInode targetIno
    Program.when tt.isDir do
      Program.require (← trie (dirIsEmpty tt.dirTrieRoot)) (.errno .enotempty)
  return (targetIno, targetFtype)

/-- A lookup whose failure is `ENOENT`. -/
def requiredEntry (parent : Inode) (name : Bytes) : Prog (ℕ × ℕ) := do
  match ← (trie (trieLookup parent.dirTrieRoot name)).attempt with
  | .ok entry => return entry
  | .error _ => .fail (.errno .enoent)

/-- `beginRename`. -/
def beginRename (a : RenameArgs) (flags : ℕ) (body : RenameOp → Held → Prog Unit) :
    Prog Unit := do
  let oldP0 ← readInode a.oldParentIno
  let newP0 ← readInode a.newParentIno
  Program.require (oldP0.isDir ∧ newP0.isDir) (.errno .enotdir)
  let (movedIno, movedFtype) ← requiredEntry oldP0 a.oldName
  let (targetIno, targetFtype) ←
    if flags &&& renameExchangeFlag ≠ 0 then requiredEntry newP0 a.newName
    else replacedTarget newP0 a.newName flags
  cacheEpilogue do
    let m ← Held.get (fun _ => none) a.oldParentIno
    let m ← m.get a.newParentIno
    body ⟨movedIno, movedFtype, targetIno, targetFtype⟩ m

/-- Remove the target of a rename, if there is one. -/
def replaceTarget (a : RenameArgs) (op : RenameOp) (m : Held) : Prog Held :=
  if op.targetIno = 0 then pure m
  else do
    let m ← m.get op.targetIno
    removeRenameTarget m a.newParentIno a.newName op.targetIno

/-- `renamePlain`. -/
def renamePlain (a : RenameArgs) (flags : ℕ) : Prog Unit :=
  beginRename a flags fun op m => do
    let m ← m.get op.movedIno
    let m ← replaceTarget a op m
    let m ← m.change a.oldParentIno (removeDirEntry · a.oldName)
    journalDirUpdate a.oldParentIno 0 a.oldName 1 0
    let m ← m.change a.newParentIno (addDirEntry g · op.movedIno a.newName op.movedFtype)
    journalDirUpdate a.newParentIno op.movedIno a.newName 0 op.movedFtype
    finishCrossDirMove m a op.movedIno

/-- One side of an exchange: the entry is removed and added with the other inode. -/
def exchangeEntry (m : Held) (parentIno : ℕ) (name : Bytes) (ino ftype : ℕ) : Prog Held := do
  let m ← m.change parentIno (removeDirEntry · name)
  journalDirUpdate parentIno 0 name 1 0
  let m ← m.change parentIno (addDirEntry g · ino name ftype)
  journalDirUpdate parentIno ino name 0 ftype
  return m

/-- A directory that moves to another parent takes a link of it along. -/
def reparent (m : Held) (ino fromIno toIno : ℕ) : Held :=
  if (m.inode ino).isDir then
    ((m.modify ino fun i => { i with parentInode := toIno }).modify fromIno fun i =>
      { i with nlinks := decLink i.nlinks }).modify toIno fun i =>
      { i with nlinks := incLink i.nlinks }
  else m

/-- `renameExchange`. -/
def renameExchange (a : RenameArgs) : Prog Unit :=
  beginRename a renameExchangeFlag fun op m => do
    let m ← m.get op.movedIno
    let m ← m.get op.targetIno
    let m ← exchangeEntry g m a.oldParentIno a.oldName op.targetIno op.targetFtype
    let m ← exchangeEntry g m a.newParentIno a.newName op.movedIno op.movedFtype
    let cross := a.oldParentIno ≠ a.newParentIno
    let m := if cross then reparent m op.movedIno a.oldParentIno a.newParentIno else m
    let m := if cross then reparent m op.targetIno a.newParentIno a.oldParentIno else m
    let now ← perform .nowTime
    let m := m.modify op.movedIno (Inode.stampCtime · now)
    let m := m.modify op.targetIno (Inode.stampCtime · now)
    writeInodeCached (m.inode op.movedIno)
    journalInodeFull (m.inode op.movedIno)
    writeInodeCached (m.inode op.targetIno)
    journalInodeFull (m.inode op.targetIno)
    let m ← m.change a.oldParentIno (updateParentDir · 0 0)
    Program.when cross do
      let _ ← updateParentDir (m.inode a.newParentIno) 0 0

/-- The steps of a whiteout after which its inode is freed again if one of them fails. -/
def placeWhiteout (m : Held) (a : RenameArgs) (whiteout : Inode) : Prog Unit := do
  writeInodeCached whiteout
  writeThroughFreshInodeSlot whiteout
  journalInodeFull whiteout
  trie (trieUpdateEntry (m.inode a.oldParentIno).dirTrieRoot a.oldName whiteout.inodeNumber
    (ftypeOf modeChr))

/-- `renameWhiteout`. -/
def renameWhiteout (a : RenameArgs) : Prog Unit :=
  beginRename a renameWhiteoutFlag fun op m => do
    let m ← m.get op.movedIno
    let m ← replaceTarget a op m
    let whiteout ← allocInode modeWhiteout 0 0 a.oldParentIno
    match ← (placeWhiteout m a whiteout).attempt with
    | .error e => do
      let _ ← (freeInode whiteout.inodeNumber).attempt
      .fail e
    | .ok _ => do
      journalDirUpdate a.oldParentIno 0 a.oldName 1 0
      journalDirUpdate a.oldParentIno whiteout.inodeNumber a.oldName 0 (ftypeOf modeChr)
      let m ← m.change a.newParentIno (addDirEntry g · op.movedIno a.newName op.movedFtype)
      journalDirUpdate a.newParentIno op.movedIno a.newName 0 op.movedFtype
      finishCrossDirMove m a op.movedIno

/-- `renameInDir`. -/
def renameInDir (a : RenameArgs) (flags : ℕ) : Prog Unit := do
  Program.require (!(← perform .frozen)) (.errno .erofs)
  if flags &&& renameExchangeFlag ≠ 0 then renameExchange g a
  else if flags &&& renameWhiteoutFlag ≠ 0 then renameWhiteout g a
  else renamePlain g a flags

/-- The directory operations. -/
inductive Op
  | create (args : CreateArgs)
  | link (parentIno : ℕ) (name : Bytes) (targetIno : ℕ)
  | unlink (parentIno : ℕ) (name : Bytes)
  | rmdir (parentIno : ℕ) (name : Bytes)
  | rename (args : RenameArgs) (flags : ℕ)

def Op.program : Op → Prog Unit
  | .create args => do let _ ← createNamedInode g args
  | .link parentIno name targetIno => do let _ ← linkInDir g parentIno name targetIno
  | .unlink parentIno name => unlinkInDir parentIno name false
  | .rmdir parentIno name => unlinkInDir parentIno name true
  | .rename args flags => renameInDir g args flags

end Briefs.Dir
