import Briefs.Alloc.Pyramid
import Briefs.Lib.Bytes
import Briefs.Lib.Call

/-!
# Trie pages

`trie_disk.go` and the page half of `trie_mutate.go`: a block with a header, 64
node slots and a heap of names that grows down from its end. A name of the heap is
found by its distance from the end of the block. Of a block that is no trie page
only its bytes are kept.
-/

namespace Briefs.Trie

open Lib Alloc

def nodeTypeInterm : ℕ := 4
def nodeStatusLeaf : ℕ := 8
def trieSlotsPerBlock : ℕ := 64
def trieSiblingMax : ℕ := 1024
def maxNameLen : ℕ := 255

/-- The bytes behind the slot array: 4096 - (20 + 64 * 36). -/
def nameHeapSize : ℕ := 1772

abbrev Ref := ℕ

def makeRef (block slot : ℕ) : Ref := block * 64 + slot % 64

def refBlock (ref : Ref) : ℕ := ref / 64

def refSlot (ref : Ref) : ℕ := ref % 64

structure TrieSlot where
  firstChild : Ref := 0
  nextSibling : Ref := 0
  inode : ℕ := 0
  nameLen : ℕ := 0
  nameOffset : ℕ := 0
  depth : ℕ := 0
  nodeType : ℕ := 0
  byteVal : UInt8 := 0
  ftype : ℕ := 0
  flags : ℕ := 0
  childCount : ℕ := 0
  deriving DecidableEq, Repr

namespace TrieSlot

def isInterm (s : TrieSlot) : Bool := s.nodeType &&& nodeTypeInterm != 0

def hasLeafBit (s : TrieSlot) : Bool := s.nodeType &&& nodeStatusLeaf != 0

/-- `TrieIsLeaf`: a pure leaf, or an intermediate node that also is an entry. -/
def isLeaf (s : TrieSlot) : Bool := !s.isInterm || s.hasLeafBit

end TrieSlot

structure TriePage where
  liveCount : ℕ
  freeNameOff : ℕ
  freeSlots : Word
  slots : List TrieSlot
  heap : Bytes
  deriving DecidableEq

/-- What a block of the data region holds. -/
inductive Content
  | page (p : TriePage)
  | raw (bytes : Bytes)
  | unreadable
  deriving DecidableEq

namespace TriePage

variable (p : TriePage)

def slot (i : ℕ) : TrieSlot := p.slots.getD i {}

/-- `putSlot`. -/
def putSlot (i : ℕ) (s : TrieSlot) : TriePage := { p with slots := p.slots.set i s }

def isFree (i : ℕ) : Bool := p.freeSlots.getLsbD i

/-- A page whose only node is in slot 0. -/
def init (depth : ℕ) (byteVal : UInt8) (nodeType : ℕ) : TriePage where
  liveCount := 1
  freeNameOff := 0
  freeSlots := ~~~(1#64)
  slots := (List.replicate 64 ({} : TrieSlot)).set 0
    { depth := depth, byteVal := byteVal, nodeType := nodeType }
  heap := List.replicate nameHeapSize 0

/-- `triePageAllocSlot`: the first free slot. -/
def allocSlot : Option (ℕ × TriePage) :=
  match (List.range 64).find? p.isFree with
  | none => none
  | some i =>
    some (i, { p with
      freeSlots := p.freeSlots.clearBit i
      liveCount := (p.liveCount + 1) % 2 ^ 16 })

/-- `triePageHasNameHeap`. -/
def hasNameHeap (nameSize : ℕ) : Bool :=
  nameSize == 0 || decide (p.freeNameOff + nameSize ≤ nameHeapSize)

/-- `nlen` bytes of the heap, `noff` from its end. -/
def heapAt (noff nlen : ℕ) : Bytes := (p.heap.drop (nameHeapSize - noff)).take nlen

def putHeap (noff : ℕ) (bytes : Bytes) : TriePage :=
  { p with heap := copyAt p.heap (nameHeapSize - noff) bytes }

/-- Where the name of a live slot is stored, if it has one. -/
def liveName (i : ℕ) : Option (ℕ × ℕ) :=
  let s := p.slot i
  if p.isFree i then none
  else if s.nameOffset = 0 ∨ s.nameLen = 0 then none
  else some (s.nameOffset, s.nameLen)

/-- The first pass of the compaction: the stored names in slot order, unless one of
them does not lie in the heap. -/
def collectNames : List ℕ → ℕ → Option (List (ℕ × Bytes))
  | [], _ => some []
  | i :: rest, used =>
    match p.liveName i with
    | none => collectNames rest used
    | some (noff, nlen) =>
      if p.freeNameOff < noff ∨ noff < nlen ∨ p.freeNameOff < used + nlen then none
      else (collectNames rest (used + nlen)).map ((i, p.heapAt noff nlen) :: ·)

/-- The second pass: the names from the end of the block on. -/
def packNames (p : TriePage) : List (ℕ × Bytes) → ℕ → TriePage × ℕ
  | [], off => (p, off)
  | (i, name) :: rest, off =>
    let newOff := off + name.length
    packNames ((p.putSlot i { p.slot i with nameOffset := newOff }).putHeap newOff name) rest newOff

/-- `triePageCompactNames`; nothing if the page stays as it was. -/
def compactNames : Option TriePage :=
  if p.freeNameOff = 0 then none
  else
    (p.collectNames (List.range 64) 0).map fun names =>
      let q := p.packNames names 0
      { q.1 with freeNameOff := q.2 }

/-- `reserveNameHeap`. -/
def reserveNameHeap (s : TrieSlot) (nameSize : ℕ) : TriePage × TrieSlot :=
  ({ p with freeNameOff := p.freeNameOff + nameSize },
    { s with nameOffset := p.freeNameOff + nameSize, nameLen := nameSize })

/-- `triePageAllocName`. A failed call also says whether the compacted page has to be kept. -/
def allocName (s : TrieSlot) (nameLen : ℕ) :
    Except (Err × Option TriePage) (TriePage × TrieSlot) :=
  let nameSize := nameLen + 2
  if nameLen = 0 then .ok (p, s)
  else if maxNameLen < nameLen then .error (.errno .enametoolong, none)
  else if 0 < s.nameOffset ∧ nameSize ≤ s.nameLen then .ok (p, s)
  else if p.freeNameOff + nameSize ≤ nameHeapSize then .ok (p.reserveNameHeap s nameSize)
  else
    match p.compactNames with
    | none => .error (.errno .enospc, none)
    | some q =>
      if q.freeNameOff + nameSize ≤ nameHeapSize then .ok (q.reserveNameHeap s nameSize)
      else .error (.errno .enospc, some q)

/-- `ReadTrieName`: the name behind its two-byte length. -/
def readName (nameLen nameOffset : ℕ) : Except Err Bytes :=
  if nameLen < 2 ∨ maxNameLen + 2 < nameLen ∨ nameOffset = 0 then
    .error (.text s!"invalid name_len {nameLen} / name_offset {nameOffset}")
  else if nameHeapSize < nameOffset ∨ nameOffset < 2 then
    .error (.text s!"name_offset {nameOffset} out of range")
  else
    let stored := (getUint16 (p.heapAt nameOffset 2)).toNat
    if stored < 1 ∨ maxNameLen < stored then .error (.text s!"invalid stored name length {stored}")
    else if stored + 2 ≠ nameLen then
      .error (.text s!"name_len {nameLen} != stored length {stored} + 2")
    else if nameOffset < stored + 2 then .error (.text "name extends past buffer")
    else .ok (p.heapAt (nameOffset - 2) stored)

/-- The name of a slot as the mutations read it; unreadable names are empty. -/
def nameOf (s : TrieSlot) : Bytes := (p.readName s.nameLen s.nameOffset).toOption.getD []

/-- `WriteTrieName`: the page and the stored length. -/
def writeName (nameOffset : ℕ) (name : Bytes) : Except Err (TriePage × ℕ) :=
  if name = [] then .ok (p, 0)
  else if nameOffset = 0 then .error (.text "name offset not allocated")
  else if nameHeapSize < nameOffset ∨ nameOffset < name.length + 2 then
    .error (.text "name write out of range")
  else
    .ok (p.putHeap nameOffset (putUint16 (UInt16.ofNat name.length) ++ name), name.length + 2)

end TriePage

end Briefs.Trie
