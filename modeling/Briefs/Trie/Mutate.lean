import Briefs.Trie.Node

/-!
# Changing a directory trie

`TrieInsert`, `TrieUpdateEntry` and `TrieRemove` of `trie_mutate.go`. The code keeps
the root of the trie in the directory's inode; here the functions take the root and
return the one they leave. A loop over the name is a recursion over its rest.
-/

namespace Briefs.Trie

open Lib

variable (g : Geometry)

/-- The child a call returned; a failed call and the null ref are both `ENOSPC`. -/
def orNoSpace (p : Prog Ref) : Prog Ref := do
  match ← p.attempt with
  | .error _ => .fail (.errno .enospc)
  | .ok ref => if ref = 0 then .fail (.errno .enospc) else return ref

/-- `trieSplitLeaf`: an inner node in the place of the leaf `child`. -/
def trieSplitLeaf (cur child : Ref) (pos : ℕ) (byteVal : UInt8) (name : Bytes) (ino ftype : ℕ) :
    Prog Ref := do
  let depth := (pos + 1) % 2 ^ 8
  let (_, lnode) ← trieRead child
  -- the name of the leaf ends here, so the leaf itself branches
  if lnode.nameLen = pos + 3 then do
    putNode child { lnode with nodeType := nodeTypeInterm ||| nodeStatusLeaf, depth := depth }
    return child
  else
    let internal ← orNoSpace (trieCreateChild g cur depth byteVal nodeTypeInterm 0)
    let (_, gnode) ← trieRead cur
    let gnode ← trieRelinkSibling gnode child internal
    putNode cur gnode
    match ← (trieRead internal).attempt with
    | .error _ => pure ()
    | .ok (_, inode) =>
      putNode internal
        { inode with firstChild := child, nextSibling := lnode.nextSibling, childCount := 1 }
    Program.when (pos + 1 = name.length) do
      match ← (trieRead internal).attempt with
      | .error _ => pure ()
      | .ok _ => commitLeafNode internal (nodeTypeInterm ||| nodeStatusLeaf) name ino ftype
    return internal

/-- `trieCreateRoot`. -/
def trieCreateRoot : Prog Ref := triePageInit g 0 0 nodeTypeInterm

/-- The last byte of the name: the entry goes into the node found, or into a new leaf. -/
def insertLast (name : Bytes) (ino ftype : ℕ) (byteVal : UInt8) (pos : ℕ) (cur : Ref) :
    Prog Unit := do
  let existing ← trieFindChild cur byteVal
  if existing ≠ 0 then do
    let (cpage, cnode) ← trieRead existing
    if cnode.isInterm then
      if cnode.hasLeafBit ∧ cpage.nameOf cnode = name then .fail (.errno .eexist)
      else commitLeafNode existing (cnode.nodeType ||| nodeStatusLeaf) name ino ftype
    else if cpage.nameOf cnode = name then .fail (.errno .eexist)
    else do
      let _ ← trieSplitLeaf g cur existing pos byteVal name ino ftype
  else do
    let newLeaf ← orNoSpace (trieCreateChild g cur (pos % 2 ^ 8) byteVal 0 name.length)
    let stored ← Program.attempt do
      let _ ← trieRead newLeaf
      trieStoreName newLeaf name
    match stored with
    | .error e => do
      let _ ← (trieFreeNode newLeaf).attempt
      .fail e
    | .ok _ => commitLeafSlot newLeaf 0 ino ftype

/-- The loop of `TrieInsert` over the rest of the name. -/
def insertAt (name : Bytes) (ino ftype : ℕ) : Bytes → ℕ → Ref → Prog Unit
  | [], _, _ => pure ()
  | [byteVal], pos, cur => insertLast g name ino ftype byteVal pos cur
  | byteVal :: rest, pos, cur => do
    let child ← orNoSpace (trieFindOrCreateChild g cur ((pos + 1) % 2 ^ 8) byteVal)
    let (_, cnode) ← trieRead child
    if cnode.isInterm then insertAt name ino ftype rest (pos + 1) child
    else do
      let next ← trieSplitLeaf g cur child pos byteVal name ino ftype
      insertAt name ino ftype rest (pos + 1) next

/-- `TrieInsert`: the root of the trie afterwards. -/
def trieInsert (root : Ref) (name : Bytes) (ino ftype : ℕ) : Prog Ref := do
  Program.require (name.length ≤ maxNameLen) (.errno .enametoolong)
  let root ← if root = 0 then trieCreateRoot g else pure root
  insertAt g name ino ftype name 0 root
  return root

/-- The loop of `TrieUpdateEntry`. -/
def updateAt (name : Bytes) (newIno newType : ℕ) : Bytes → Ref → Prog Unit
  | [], _ => .fail (.errno .enoent)
  | byteVal :: rest, cur => do
    match ← (trieFindChild cur byteVal).attempt with
    | .error _ => .fail (.errno .enoent)
    | .ok child =>
      if child = 0 then .fail (.errno .enoent)
      else do
        let (cpage, cnode) ← trieRead child
        if rest = [] then
          if cnode.isLeaf ∧ cpage.nameOf cnode = name then
            putNode child { cnode with inode := newIno, ftype := newType }
          else .fail (.errno .enoent)
        else if cnode.isInterm then updateAt name newIno newType rest child
        else .fail (.errno .enoent)

/-- `TrieUpdateEntry`. -/
def trieUpdateEntry (root : Ref) (name : Bytes) (newIno newType : ℕ) : Prog Unit :=
  if root = 0 then .fail (.errno .enoent) else updateAt name newIno newType name root

/-- An inner node that is no entry and has no children. -/
def TrieSlot.isBare (s : TrieSlot) : Bool :=
  s.isInterm && !s.hasLeafBit && s.childCount == 0 && s.firstChild == 0

/-- The loop of `collapseAncestry`, from the deepest ancestor up to the root. -/
def collapseUp : List Ref → Prog Unit
  | check :: parent :: rest => do
    match ← (trieRead check).attempt with
    | .error _ => pure ()
    | .ok (_, cnode) =>
      Program.when cnode.isBare do
        match ← (trieRead parent).attempt with
        | .error _ => pure ()
        | .ok (_, pnode) => do
          let pnode ← trieRelinkSibling pnode check cnode.nextSibling
          putNode parent { pnode with childCount := (pnode.childCount + 2 ^ 16 - 1) % 2 ^ 16 }
          trieFreeNode check
          collapseUp (parent :: rest)
  | _ => pure ()

/-- `collapseAncestry`: the root afterwards, null if the trie became empty. -/
def collapseAncestry (root : Ref) (ancestry : List Ref) : Prog Ref := do
  collapseUp ancestry
  if root = 0 then return root
  else
    match ← (trieRead root).attempt with
    | .error _ => return root
    | .ok (_, rnode) =>
      if rnode.isBare then do
        trieFreeNode root
        return 0
      else return root

/-- The last byte of a name that is removed. -/
def removeLast (root : Ref) (ancestry : List Ref) (cur childPrev child : Ref) : Prog Ref := do
  let (_, cnode) ← trieRead child
  if cnode.isInterm && !cnode.hasLeafBit then .fail (.errno .enoent)
  else
    let hasChildren := decide (cnode.firstChild ≠ 0) || decide (cnode.childCount ≠ 0)
    Program.when cnode.isInterm
      (putNode child { cnode with nodeType := cnode.nodeType &&& (2 ^ 8 - 1 - nodeStatusLeaf) })
    if cnode.isInterm && hasChildren then return root
    else do
      trieUnlinkChild cur childPrev child
      trieFreeNode child
      collapseAncestry root ancestry

/-- The loop of `TrieRemove`; the ancestors of the entry are kept, the latest first. -/
def removeAt (root : Ref) : Bytes → Ref → List Ref → Prog Ref
  | [], _, _ => .fail (.errno .enoent)
  | byteVal :: rest, cur, ancestry => do
    let (child, childPrev) ← trieFindChildWithPrev cur byteVal
    if child = 0 then .fail (.errno .enoent)
    else if rest = [] then removeLast root ancestry cur childPrev child
    else removeAt root rest child (if ancestry.length < 256 then child :: ancestry else ancestry)

/-- `TrieRemove`: the root of the trie afterwards. -/
def trieRemove (root : Ref) (name : Bytes) : Prog Ref :=
  if root = 0 then .fail (.errno .enoent) else removeAt root name root [root]

end Briefs.Trie
