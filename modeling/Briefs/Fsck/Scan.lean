import Briefs.Replay.Mount
import Briefs.Trie.Visits

/-!
# The scan of fsck

`verifyInodeTable` and `verifyAllDirTries` of `cmd/fsck`, as far as the link counts depend on
them: the inodes that are accepted, the directories among them and the entries of those. The
extents, the xattr blocks and the set of used blocks are left out. Of what a trie walk notes
it is only kept whether it makes the directory a failed one.
-/

namespace Briefs.Fsck

open Lib Alloc Trie Dir Replay

def nodeFlagDeleted : ℕ := 4
def nodeFlagRoot : ℕ := 8

/-- A line of output; an error is counted, a warning is not. -/
inductive Report
  | error (e : Err)
  | warning (msg : String)
  deriving DecidableEq, Repr

/-- The fields of the superblock the checks read. -/
structure SuperblockLayout where
  inodeTableOffset : ℕ
  totalBlocks : ℕ

structure TrieEntry where
  inode : ℕ
  ftype : ℕ
  name : Bytes
  parent : ℕ
  deriving DecidableEq, Repr

/-- `fsckState`. The map of the inodes is a list, in the order of their numbers. -/
structure State where
  inodes : List (ℕ × Inode)
  dirs : List (ℕ × Ref)
  entryCounts : ℕ → ℕ
  failedTrieDirs : List ℕ
  reports : List Report

namespace State

def empty : State where
  inodes := []
  dirs := []
  entryCounts := fun _ => 0
  failedTrieDirs := []
  reports := []

variable (fs : State)

def report (rs : List Report) : State := { fs with reports := fs.reports ++ rs }

def errorf (msg : String) : State := fs.report [.error (.text msg)]

/-- `reportLimited`, with `errorf` as its channel. -/
def reportLimited (verbose : Bool) (counter limit : ℕ) (suppressNotice msg : String) : State :=
  if verbose ∨ counter < limit then fs.errorf msg
  else if counter = limit then fs.errorf suppressNotice
  else fs

/-- Mark a directory whose walk is not to be trusted. -/
def failTrie (ino : ℕ) : State := { fs with failedTrieDirs := fs.failedTrieDirs.insert ino }

end State

/-- A number in hexadecimal, with at least `width` digits. -/
def hex (width n : ℕ) : String :=
  let digits := (Nat.toDigits 16 n).map Char.toUpper
  String.ofList (List.replicate (width - digits.length) '0' ++ digits)

section Inodes

/-- What is wrong with the extent fields of an inode. -/
def extentFault (inode : Inode) : Option String :=
  if inode.flags &&& inodeFlagInlineData ≠ 0 then
    if inlineDataMax < inode.fileSize then
      some s!"inline-data file size {inode.fileSize} > 256"
    else if inode.numExtentsTotal ≠ 0 then
      some s!"inline-data inode has {inode.numExtentsTotal} extents"
    else if inode.numExtentsInline ≠ 0 then
      some s!"inline-data inode has {inode.numExtentsInline} inline extents"
    else if inode.extentInlineBase ≠ 0 then
      some s!"inline-data inode has extent_inline_base {inode.extentInlineBase}"
    else if inode.isDir then some "directory cannot use inline data"
    else none
  else if inode.flags &&& inodeFlagIndexed ≠ 0 then
    if inode.numExtentsInline ≠ 0 then
      some s!"tree-backed inode has {inode.numExtentsInline} inline extents (must be 0)"
    else if inode.extentInlineBase = 0 then
      some "tree-backed inode has no root (extent_inline_base=0)"
    else if inode.numExtentsTotal = 0 then
      some "tree-backed inode claims 0 extents (should be inline-only)"
    else none
  else if 8 < inode.numExtentsInline then
    some s!"too many inline extents {inode.numExtentsInline}"
  else if inode.numExtentsTotal < inode.numExtentsInline then
    some s!"total extents {inode.numExtentsTotal} < inline extents {inode.numExtentsInline}"
  else if inode.extentInlineBase ≠ 0 then
    some s!"inline-only inode has extent_inline_base {inode.extentInlineBase} (must be 0)"
  else none

/-- `verifyInode`: nothing for a slot never written, else the inode or what is wrong. -/
def verifyInode (ino : ℕ) (slot : Inode) : Except Err (Option Inode) :=
  let bad (msg : String) : Except Err (Option Inode) := .error (.text s!"ino {ino}: {msg}")
  if slot.magic = 0 then .ok none
  else if slot.magic ≠ magicInode then bad s!"bad magic 0x{hex 16 slot.magic}"
  else if slot.inodeNumber ≠ ino then
    bad s!"stored inode number mismatch ({slot.inodeNumber})"
  else
    match extentFault slot with
    | some msg => bad msg
    | none => if slot.filemode = 0 then bad "zero file mode" else .ok (some slot)

def State.keep (fs : State) (ino : ℕ) (inode : Inode) : State :=
  { fs with
    inodes := fs.inodes ++ [(ino, inode)]
    dirs :=
      if inode.isDir ∧ inode.dirTrieRoot ≠ 0 then fs.dirs ++ [(ino, inode.dirTrieRoot)]
      else fs.dirs }

/-- One slot of the inode table. The second component counts the allocated slots that have
no valid magic. -/
def verifySlot (pool : Pyramid) (verbose : Bool) (acc : State × ℕ) (ino : ℕ) (slot : Inode) :
    State × ℕ :=
  let (fs, badAllocated) := acc
  if pool.isAllocated (ino - 1) = false then (fs, badAllocated)
  else if slot.magic = 0 then
    (fs.reportLimited verbose badAllocated 20
      "(more inode bitmap/table mismatch errors suppressed)"
      s!"ino {ino}: bitmap says allocated but inode has no valid magic (0x{hex 16 slot.magic})",
      badAllocated + 1)
  else
    let badAllocated := if slot.magic ≠ magicInode then badAllocated + 1 else badAllocated
    match verifyInode ino slot with
    | .error e => (fs.report [.error e], badAllocated)
    | .ok none => (fs, badAllocated)
    | .ok (some inode) => (fs.keep ino inode, badAllocated)

variable (sb : SuperblockLayout) (g : Geometry) (d : Disk) (verbose : Bool)

def verifyTableBlock (acc : State × ℕ) (bi : ℕ) : State × ℕ :=
  match d.table bi with
  | none =>
    (acc.1.report [.error (.wrap s!"read inode table block {sb.inodeTableOffset + bi}"
      (.errno .eio))], acc.2)
  | some slots =>
    (List.range g.inodesPerBlock).foldl (fun acc j =>
      verifySlot d.inodePool verbose acc (bi * g.inodesPerBlock + j + 1) (slots j)) acc

/-- `verifyInodeTable`. -/
def verifyInodeTable : State :=
  ((List.range ((d.inodePool.blockCount + g.inodesPerBlock - 1) / g.inodesPerBlock)).foldl
    (verifyTableBlock sb g d verbose) (.empty, 0)).1

end Inodes

section Tries

/-- Report `r` where `bad` holds. -/
def finding (bad : Prop) [Decidable bad] (r : Report) : List Report := if bad then [r] else []

/-- What a visit of a trie node finds wrong with the node. -/
def nodeFindings (sb : SuperblockLayout) (parentIno : ℕ) (rootRef : Ref) (v : Visit) :
    List Report :=
  let place := s!"ino {parentIno} dir trie: ref {v.ref}"
  let root := s!"ino {parentIno} dir trie: root ref {v.ref}"
  let node := v.node
  let error (bad : Prop) [Decidable bad] (msg : String) : List Report :=
    finding bad (.error (.text msg))
  error (node.nodeType ≠ 0 ∧ node.nodeType ≠ nodeTypeInterm ∧
      node.nodeType ≠ nodeTypeInterm ||| nodeStatusLeaf)
    s!"{place}: invalid node type 0x{hex 2 node.nodeType}" ++
  finding (node.flags &&& nodeFlagDeleted ≠ 0)
    (.warning s!"{place}: NODE_FLAG_DELETED set (pending cleanup)") ++
  error (v.ref ≠ rootRef ∧ node.flags &&& nodeFlagRoot ≠ 0)
    s!"{place}: NODE_FLAG_ROOT set on non-root node" ++
  finding (node.flags - (node.flags &&& (nodeFlagDeleted ||| nodeFlagRoot)) ≠ 0)
    (.warning s!"{place}: unknown flags 0x{hex 4 node.flags}") ++
  error (v.ref = rootRef ∧ node.depth ≠ 0) s!"{root}: depth is {node.depth}, expected 0" ++
  error (v.ref = rootRef ∧ node.byteVal ≠ 0) s!"{root}: byte_val is {node.byteVal}, expected 0" ++
  error (node.childCount = 0 ∧ node.firstChild ≠ 0)
    s!"{place}: child_count=0 but first_child={node.firstChild}" ++
  error (0 < node.childCount ∧ node.firstChild = 0)
    s!"{place}: child_count={node.childCount} but first_child=0" ++
  error (0 < node.firstChild ∧ sb.totalBlocks ≤ refBlock node.firstChild)
    s!"{place}: first_child block {refBlock node.firstChild} exceeds total blocks {sb.totalBlocks}" ++
  error (0 < node.nextSibling ∧ sb.totalBlocks ≤ refBlock node.nextSibling)
    s!"{place}: next_sibling block {refBlock node.nextSibling} exceeds total blocks {sb.totalBlocks}"

def pageFindings (parentIno : ℕ) (v : Visit) : List Report :=
  let allocated := (List.range trieSlotsPerBlock).countP v.page.isFree
  finding (allocated ≠ (trieSlotsPerBlock + 2 ^ 16 - v.page.liveCount) % 2 ^ 16)
    (.error (.text (s!"ino {parentIno} dir trie: page {refBlock v.ref} live_count={v.page.liveCount} " ++
      s!"inconsistent with free_slots bitmap ({allocated} allocated)")))

/-- The hooks of `verifyDirectoryTrie`. -/
def dirVisitor (sb : SuperblockLayout) (parentIno : ℕ) (rootRef : Ref) :
    TrieVisitor (State × List TrieEntry) where
  visitNode := fun v (fs, entries) =>
    if v.emitted then .visit (fs, entries)
    else
      let fs := fs.report (pageFindings parentIno v)
      if v.page.isFree (refSlot v.ref) then
        .skip ((fs.errorf s!"ino {parentIno} dir trie: ref {v.ref}: slot {refSlot v.ref} is marked free"
          ).failTrie parentIno, entries)
      else .visit (fs.report (nodeFindings sb parentIno rootRef v), entries)
  visitLeaf := fun v (fs, entries) =>
    if v.node.flags &&& nodeFlagDeleted ≠ 0 then .ok (fs, entries)
    else
      match v.page.readName v.node.nameLen v.node.nameOffset with
      | .error e =>
        .ok (fs.report [.error (.wrap (s!"ino {parentIno} dir trie: ref {v.ref}: " ++
          s!"empty or invalid name (name_len={v.node.nameLen}, name_offset={v.node.nameOffset})") e)],
          entries)
      | .ok name =>
        .ok ({ fs with
          entryCounts := Function.update fs.entryCounts v.node.inode
            (fs.entryCounts v.node.inode + 1) },
          entries ++ [⟨v.node.inode, v.node.ftype, name, parentIno⟩])
  note := .skip

/-- The notes after which a walk is not to be trusted. -/
def failingNote : NoteHook := fun ref kind err =>
  match kind with
  | .read | .page | .slot | .siblingCap => some (err.getD (.text s!"ref {ref}"))
  | .cycle | .siblingRead => none

/-- A visitor for the notes alone. -/
def noteVisitor : TrieVisitor Unit where
  visitNode := fun _ s => .visit s
  visitLeaf := fun _ s => .ok s
  note := failingNote

variable (sb : SuperblockLayout) (g : Geometry) (d : Disk)

/-- Whether the walk of a trie makes a note after which it is not to be trusted. -/
def walkFails (rootRef : Ref) : Bool :=
  match ((walkTrie readBlock noteVisitor rootRef ()).run (Store.exec g) (opened g d).store).1 with
  | .ok _ => false
  | .error _ => true

/-- `verifyDirectoryTrie`. -/
def verifyDirectoryTrie (fs : State) (parentIno : ℕ) (rootRef : Ref) : State × List TrieEntry :=
  if rootRef = 0 then (fs, [])
  else
    let fs := if walkFails g d rootRef then fs.failTrie parentIno else fs
    match ((walkTrie readBlock (dirVisitor sb parentIno rootRef) rootRef (fs, [])).run
      (Store.exec g) (opened g d).store).1 with
    | .ok r => r
    | .error e => (fs.report [.error (.wrap s!"ino {parentIno} dir trie" e)], [])

/-- `verifyAllDirTries`. -/
def verifyAllDirTries (fs : State) (dirs : List (ℕ × Ref)) : State × List TrieEntry :=
  dirs.foldl (fun acc dir =>
    let r := verifyDirectoryTrie sb g d acc.1 dir.1 dir.2
    (r.1, acc.2 ++ r.2)) (fs, [])

end Tries

end Briefs.Fsck
