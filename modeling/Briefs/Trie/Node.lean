import Briefs.Trie.Store

/-!
# Trie nodes

The node functions of `trie_mutate.go`. A page the code holds a buffer of is the
cached one, so a slot is changed by changing it in the cached page.
-/

namespace Briefs.Trie

open Lib Alloc

/-- `ReadTriePage`. -/
def readTriePage : Content → Except Err TriePage
  | .page p => .ok p
  | _ => .error (.text "bad trie page magic")

def loadPage (block : ℕ) : Prog TriePage := do
  let c ← loadBlock block
  Program.ofExcept (readTriePage c)

def savePage (block : ℕ) (p : TriePage) : Prog Unit := saveBlock block (.page p)

/-- `trieRead`. -/
def trieRead (ref : Ref) : Prog (TriePage × TrieSlot) := do
  let p ← loadPage (refBlock ref)
  return (p, p.slot (refSlot ref))

/-- `putSlot` on the cached page and `saveBlock`. -/
def putNode (ref : Ref) (node : TrieSlot) : Prog Unit := do
  let p ← loadPage (refBlock ref)
  savePage (refBlock ref) (p.putSlot (refSlot ref) node)

/-- `trieScanSiblings`: the child with the byte and its previous sibling. -/
def trieScanSiblings (readNode : Ref → Prog TrieSlot) (parent : Ref) (byteVal : UInt8) :
    ℕ → Ref → Ref → Prog (Ref × Ref)
  | hops, cur, prev =>
    if cur = 0 then pure (0, 0)
    else
      match hops with
      | 0 => .fail (.text
          s!"trie sibling walk exceeded {trieSiblingMax} nodes from parent ref {parent}")
      | hops + 1 => do
        let node ← readNode cur
        if node.byteVal = byteVal then return (cur, prev)
        else trieScanSiblings readNode parent byteVal hops node.nextSibling cur

/-- `trieFindChildWithPrev`; a missing child is the null ref. -/
def trieFindChildWithPrev (parent : Ref) (byteVal : UInt8) : Prog (Ref × Ref) := do
  let (_, pnode) ← trieRead parent
  trieScanSiblings (fun ref => do return (← trieRead ref).2) parent byteVal trieSiblingMax
    pnode.firstChild 0

/-- `trieFindChild`. -/
def trieFindChild (parent : Ref) (byteVal : UInt8) : Prog Ref := do
  return (← trieFindChildWithPrev parent byteVal).1

/-- `triePageInit`: a new page whose slot 0 holds the node. -/
def triePageInit (g : Geometry) (depth : ℕ) (byteVal : UInt8) (nodeType : ℕ) : Prog Ref := do
  let rel ←
    match ← perform .popReplayBlock with
    | some rel => pure rel
    | none => perform .allocBlock
  Program.require (rel ≠ 0) (.errno .enospc)
  let block := (g.dataRegionStart + rel) % 2 ^ 64
  savePage block (.init depth byteVal nodeType)
  match ← (writeRecord (.trieAlloc block 0)).attempt with
  | .error e => do
    perform (.freeBlock rel)
    .fail e
  | .ok _ => do
    addPartial block
    return makeRef block 0

/-- The search of `trieAllocNode` over the partial pages: the slot it took, and the
pages that stay in the pool. -/
def allocFromPartials (nameSize : ℕ) : List ℕ → List ℕ → Prog (Option Ref × List ℕ)
  | [], out => pure (none, out)
  | block :: rest, out => do
    match ← (loadPage block).attempt with
    | .error _ => allocFromPartials nameSize rest out
    | .ok p =>
      if p.hasNameHeap nameSize then
        match p.allocSlot with
        | none => allocFromPartials nameSize rest out
        | some (slot, q) => do
          let (q, s) := if nameSize = 0 then (q, {}) else q.reserveNameHeap {} nameSize
          savePage block (q.putSlot slot s)
          return (some (makeRef block slot), out ++ (if q.freeSlots = 0 then [] else [block]) ++ rest)
      else allocFromPartials nameSize rest (out ++ [block])

/-- `trieAllocNode`. -/
def trieAllocNode (g : Geometry) (nameLen : ℕ) : Prog Ref := do
  let nameSize := if nameLen = 0 then 0 else nameLen + 2
  let (found, out) ← allocFromPartials nameSize (← perform .partials) []
  perform (.setPartials out)
  match found with
  | some ref => return ref
  | none => do
    let ref ← triePageInit g 0 0 0
    Program.when (nameSize ≠ 0) do
      let p ← loadPage (refBlock ref)
      let (p, s) := p.reserveNameHeap (p.slot 0) nameSize
      savePage (refBlock ref) (p.putSlot 0 s)
    return ref

/-- `trieFreeNode`: a page that becomes empty is dropped and queued to be freed. -/
def trieFreeNode (ref : Ref) : Prog Unit :=
  Program.when (ref ≠ 0) do
    let block := refBlock ref
    let slot := refSlot ref
    let p ← loadPage block
    Program.when (!p.isFree slot) do
      let p := ({ p with
        freeSlots := p.freeSlots.setBit slot
        liveCount := (p.liveCount + 2 ^ 16 - 1) % 2 ^ 16 } : TriePage).putSlot slot {}
      if p.liveCount = 0 then do
        perform (.cacheDrop block)
        removePartial block
        writeRecord (.trieAlloc block 1)
        deferBlockFree block
      else do
        Program.when (p.freeSlots ≠ 0) (addPartial block)
        savePage block p

/-- `trieStoreName`. A compaction that did not make enough room is kept all the same. -/
def trieStoreName (ref : Ref) (name : Bytes) : Prog Unit := do
  let block := refBlock ref
  let (p, s) ← trieRead ref
  match p.allocName s name.length with
  | .error (e, compacted) => do
    match compacted with
    | some q => savePage block q
    | none => pure ()
    .fail e
  | .ok (q, s) => do
    if name = [] then savePage block (q.putSlot (refSlot ref) { s with nameLen := 0, nameOffset := 0 })
    else
      let (q, nameLen) ← Program.ofExcept (q.writeName s.nameOffset name)
      savePage block (q.putSlot (refSlot ref) { s with nameLen := nameLen })

/-- The walk of `trieLinkChild` to the last sibling. -/
def linkLast (parent child : Ref) : ℕ → Ref → Prog Unit
  | 0, _ => .fail (.text
      s!"trie link sibling walk exceeded {trieSiblingMax} nodes from parent ref {parent}")
  | hops + 1, last => do
    let (_, lnode) ← trieRead last
    if lnode.nextSibling = 0 then putNode last { lnode with nextSibling := child }
    else linkLast parent child hops lnode.nextSibling

/-- `trieLinkChild`. -/
def trieLinkChild (parent child : Ref) : Prog Unit := do
  let (_, pnode) ← trieRead parent
  let childCount := (pnode.childCount + 1) % 2 ^ 16
  if pnode.firstChild = 0 then
    putNode parent { pnode with firstChild := child, childCount := childCount }
  else do
    linkLast parent child trieSiblingMax pnode.firstChild
    putNode parent { pnode with childCount := childCount }

/-- `trieCreateChild`; the null ref if no node was allocated. -/
def trieCreateChild (g : Geometry) (parent : Ref) (depth : ℕ) (byteVal : UInt8)
    (nodeType nameLen : ℕ) : Prog Ref := do
  let child ← trieAllocNode g nameLen
  if child = 0 then return 0
  else
    let linked ← Program.attempt do
      let (_, cnode) ← trieRead child
      putNode child { cnode with depth := depth, byteVal := byteVal, nodeType := nodeType }
      trieLinkChild parent child
    match linked with
    | .ok _ => return child
    | .error e => do
      let _ ← (trieFreeNode child).attempt
      .fail e

/-- `trieFindOrCreateChild`. -/
def trieFindOrCreateChild (g : Geometry) (parent : Ref) (depth : ℕ) (byteVal : UInt8) :
    Prog Ref := do
  let child ← trieFindChild parent byteVal
  if child = 0 then trieCreateChild g parent depth byteVal nodeTypeInterm 0 else return child

/-- `trieUnlinkChild`. -/
def trieUnlinkChild (parent childPrev child : Ref) : Prog Unit := do
  let (_, pnode) ← trieRead parent
  let (_, cnode) ← trieRead child
  let childCount := (pnode.childCount + 2 ^ 16 - 1) % 2 ^ 16
  if childPrev = 0 then
    putNode parent { pnode with firstChild := cnode.nextSibling, childCount := childCount }
  else do
    let (_, prev) ← trieRead childPrev
    putNode childPrev { prev with nextSibling := cnode.nextSibling }
    putNode parent { pnode with childCount := childCount }

/-- The sibling walk of `trieRelinkSibling`; it gives up silently. -/
def relinkAfter (oldChild newRef : Ref) : ℕ → Ref → Prog Unit
  | 0, _ => pure ()
  | hops + 1, w =>
    Program.when (w ≠ 0) do
      match ← (trieRead w).attempt with
      | .error _ => pure ()
      | .ok (_, wnode) =>
        if wnode.nextSibling = oldChild then putNode w { wnode with nextSibling := newRef }
        else relinkAfter oldChild newRef hops wnode.nextSibling

/-- `trieRelinkSibling`: the parent's slot afterwards, which the caller stores. -/
def trieRelinkSibling (pnode : TrieSlot) (oldChild newRef : Ref) : Prog TrieSlot :=
  if pnode.firstChild = oldChild then pure { pnode with firstChild := newRef }
  else do
    relinkAfter oldChild newRef trieSiblingMax pnode.firstChild
    return pnode

/-- `commitLeafSlot`. -/
def commitLeafSlot (ref : Ref) (nodeType ino ftype : ℕ) : Prog Unit := do
  let (_, node) ← trieRead ref
  putNode ref { node with nodeType := nodeType, ftype := ftype, inode := ino }

/-- `commitLeafNode`. -/
def commitLeafNode (ref : Ref) (nodeType : ℕ) (name : Bytes) (ino ftype : ℕ) : Prog Unit := do
  trieStoreName ref name
  commitLeafSlot ref nodeType ino ftype

end Briefs.Trie
