import Briefs.Lib.Bytes

/-!
# Inodes

`inode.go`: an inode slot of the table, with the fields the directory operations
and the replay read or write. A slot whose magic is not `magicInode` is free.
-/

namespace Briefs

open Lib

def magicInode : ℕ := 0x494E4F44
def modeTypeMask : ℕ := 0o170000
def modeDir : ℕ := 0o040000
def modeFile : ℕ := 0o100000
def modeSymlink : ℕ := 0o120000
def inodeFlagInlineData : ℕ := 8
def inlineDataMax : ℕ := 256

/-- A clock reading, seconds and nanoseconds. -/
structure Time where
  sec : ℕ
  nsec : ℕ
  deriving DecidableEq, Repr

structure Extent where
  offset : ℕ
  phys : ℕ
  len : ℕ
  flags : ℕ
  deriving DecidableEq, Repr

/-- The 256-byte region of an inode: file or symlink bytes, or up to eight extents. -/
inductive Region
  | data (bytes : Bytes)
  | extents (exts : List Extent)
  deriving DecidableEq, Repr

structure Inode where
  inodeNumber : ℕ
  magic : ℕ
  filemode : ℕ
  uid : ℕ
  gid : ℕ
  fileSize : ℕ
  ctime : Time
  atime : Time
  mtime : Time
  creationTime : Time
  nlinks : ℕ
  numExtentsInline : ℕ
  extentInlineBase : ℕ
  numExtentsTotal : ℕ
  region : Region
  xattrOffset : ℕ
  parentInode : ℕ
  flags : ℕ
  dirTrieRoot : ℕ
  rdev : ℕ
  generation : ℕ
  deriving DecidableEq, Repr

namespace Inode

/-- The content of a zeroed slot. -/
def zero : Inode where
  inodeNumber := 0
  magic := 0
  filemode := 0
  uid := 0
  gid := 0
  fileSize := 0
  ctime := ⟨0, 0⟩
  atime := ⟨0, 0⟩
  mtime := ⟨0, 0⟩
  creationTime := ⟨0, 0⟩
  nlinks := 0
  numExtentsInline := 0
  extentInlineBase := 0
  numExtentsTotal := 0
  region := .extents []
  xattrOffset := 0
  parentInode := 0
  flags := 0
  dirTrieRoot := 0
  rdev := 0
  generation := 0

/-- `NewInode` at the given time. -/
def newInode (ino mode : ℕ) (now : Time) : Inode :=
  { zero with
    inodeNumber := ino
    magic := magicInode
    filemode := mode
    nlinks := 1
    ctime := now
    atime := now
    mtime := now
    creationTime := now }

def isDir (i : Inode) : Bool := i.filemode &&& modeTypeMask == modeDir

def isFile (i : Inode) : Bool := i.filemode &&& modeTypeMask == modeFile

def isSymlink (i : Inode) : Bool := i.filemode &&& modeTypeMask == modeSymlink

/-- The first inline extent, as `InlineExtents` parses the region. -/
def firstExtent (i : Inode) : Option Extent :=
  match i.region with
  | .extents exts => exts.head?
  | .data _ => none

/-- `SetInlineExtent` at index 0. -/
def setFirstExtent (i : Inode) (e : Extent) : Inode :=
  { i with
    region := .extents [e]
    numExtentsInline := max 1 i.numExtentsInline
    numExtentsTotal := max 1 i.numExtentsTotal }

/-- `stampMtimeCtime`. -/
def stampMtimeCtime (i : Inode) (now : Time) : Inode := { i with ctime := now, mtime := now }

def stampCtime (i : Inode) (now : Time) : Inode := { i with ctime := now }

end Inode

end Briefs
