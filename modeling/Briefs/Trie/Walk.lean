import Briefs.Trie.Node

/-!
# Reading a directory trie

`TrieLookup` and the depth-first walk of `trie_walk.go` behind readdir, the
emptiness test, the replay's link counts and the seeding of the partial-page pool.
-/

namespace Briefs.Trie

open Lib

/-- `trieReadNode`: a node as a reader outside the operation sees it. -/
def trieReadNode (ref : Ref) : Prog (TriePage × TrieSlot) := do
  let block := refBlock ref
  let c ← (readBlock block).context s!"read trie page {block}"
  let p ← (Program.ofExcept (readTriePage c)).context s!"parse trie page {block}"
  return (p, p.slot (refSlot ref))

/-- `TrieFindChild`. -/
def trieFindChildRead (parent : Ref) (byteVal : UInt8) : Prog Ref := do
  let (_, pnode) ← trieReadNode parent
  let (child, _) ← trieScanSiblings (fun ref => do return (← trieReadNode ref).2) parent byteVal
    trieSiblingMax pnode.firstChild 0
  return child

/-- The entry in a leaf, if it is the name looked for. -/
def matchLeaf (child : Ref) (p : TriePage) (node : TrieSlot) (name : Bytes) : Prog (ℕ × ℕ) := do
  let leafName ← (Program.ofExcept (p.readName node.nameLen node.nameOffset)).context
    s!"corrupt trie leaf at ref {child}"
  if leafName = name then return (node.inode, node.ftype) else .fail (.text "not found")

/-- The loop of `TrieLookup`. -/
def lookupAt (name : Bytes) : Bytes → Ref → Prog (ℕ × ℕ)
  | [], _ => .fail (.text "not found")
  | byteVal :: rest, cur => do
    let child ← trieFindChildRead cur byteVal
    if child = 0 then .fail (.text "not found")
    else do
      let (p, node) ← trieReadNode child
      if rest = [] then
        if node.isLeaf then matchLeaf child p node name else .fail (.text "not found")
      else if node.isInterm then lookupAt name rest child
      else matchLeaf child p node name

/-- `TrieLookup`: the inode number and the type of an entry. -/
def trieLookup (root : Ref) (name : Bytes) : Prog (ℕ × ℕ) :=
  if root = 0 then .fail (.text "no trie root") else lookupAt name name root

/-- `TrieWalkNote`: the problems a walk can hit and go on. A slot number is always in range. -/
inductive TrieWalkNote
  | read
  | page
  | slot
  | cycle
  | siblingCap
  | siblingRead
  deriving DecidableEq, Repr

/-- The `Note` hook of a walk; an error ends the walk. -/
abbrev NoteHook := Ref → TrieWalkNote → Option Err → Option Err

/-- The hook of a walk that skips every problem. -/
def NoteHook.skip : NoteHook := fun _ _ _ => none

/-- `TrieWalker`: what is still to visit, the next one first. A node to be visited a
second time, for its children, is marked. -/
structure TrieWalker where
  stack : List (Ref × Bool)
  visited : List Ref
  /-- The pages read along chains of siblings, until a visit uses them. -/
  pageCache : List (ℕ × Content)
  /-- The error of the hook that ended the walk. -/
  abort : Option Err

structure Visit where
  ref : Ref
  emitted : Bool
  page : TriePage
  node : TrieSlot

/-- Every node is visited at most twice and pushes at most `trieSiblingMax` others, so
a walk takes fewer moves than this. -/
def walkFuel : ℕ := 2 ^ 80

namespace TrieWalker

def start (root : Ref) : TrieWalker where
  stack := if root = 0 then [] else [(root, false)]
  visited := []
  pageCache := []
  abort := none

section Walk

variable (read : ℕ → Prog Content) (hook : NoteHook)

/-- `note`. -/
def note (w : TrieWalker) (ref : Ref) (kind : TrieWalkNote) (err : Option Err) : TrieWalker :=
  match hook ref kind err with
  | none => w
  | some e => { w with abort := some e }

def forget (w : TrieWalker) (block : ℕ) : TrieWalker :=
  { w with pageCache := w.pageCache.filter (·.1 ≠ block) }

def keep (w : TrieWalker) (block : ℕ) (c : Content) : TrieWalker :=
  { w with pageCache := (block, c) :: (w.forget block).pageCache }

/-- The second half of `readNode`: the page and the slot of the block read. -/
def parseNode (w : TrieWalker) (ref : Ref) (c : Content) : Option (TriePage × TrieSlot) × TrieWalker :=
  match readTriePage c with
  | .error e => (none, w.note hook ref .page (some e))
  | .ok p => (some (p, p.slot (refSlot ref)), w)

/-- `readNode`: a page that was kept is used up. -/
def readNode (w : TrieWalker) (ref : Ref) : Prog (Option (TriePage × TrieSlot) × TrieWalker) :=
  match w.pageCache.lookup (refBlock ref) with
  | some c => pure ((w.forget (refBlock ref)).parseNode hook ref c)
  | none => do
    match ← (read (refBlock ref)).attempt with
    | .error e => return (none, w.note hook ref .read (some e))
    | .ok c => return w.parseNode hook ref c

/-- `collectChildren`: a sibling that cannot be read ends the list. -/
def collectChildren (parent : Ref) : ℕ → Ref → TrieWalker → Prog (List Ref × TrieWalker)
  | 0, child, w =>
    if child = 0 then pure ([], w)
    else pure ([], w.note hook parent .siblingCap (some (.text
      s!"sibling chain from ref {parent} exceeds {trieSiblingMax} nodes")))
  | hops + 1, child, w =>
    if child = 0 then pure ([], w)
    else do
      match ← (read (refBlock child)).attempt with
      | .error e => return ([child], w.note hook parent .siblingRead (some e))
      | .ok c =>
        let w := w.keep (refBlock child) c
        match readTriePage c with
        | .error e => return ([child], w.note hook parent .siblingRead (some e))
        | .ok p => do
          let (rest, w) ← collectChildren parent hops (p.slot (refSlot child)).nextSibling w
          return (child :: rest, w)

/-- What is scheduled after `node` was read: its children, or a second visit for them. -/
def schedule (w : TrieWalker) (ref : Ref) (emitted : Bool) (node : TrieSlot) : Prog TrieWalker :=
  if !emitted && node.isLeaf then
    pure (if node.firstChild = 0 then w else { w with stack := (ref, true) :: w.stack })
  else do
    let (children, w) ← collectChildren read hook ref trieSiblingMax node.firstChild w
    return { w with stack := children.map (·, false) ++ w.stack }

/-- `TrieWalker.Next`. -/
def next : ℕ → TrieWalker → Prog (Option Visit × TrieWalker)
  | 0, w => pure (none, w)
  | fuel + 1, w =>
    if w.abort.isSome then pure (none, w)
    else
      match w.stack with
      | [] => pure (none, w)
      | (ref, emitted) :: stack =>
        let w := { w with stack := stack }
        if ref ∈ w.visited ∧ !emitted then next fuel (w.note hook ref .cycle none)
        else do
          let w := if emitted then w else { w with visited := ref :: w.visited }
          match ← w.readNode read hook ref with
          | (none, w) => next fuel w
          | (some (page, node), w) => do
            let w ← w.schedule read hook ref emitted node
            return (some ⟨ref, emitted, page, node⟩, w)

end Walk

end TrieWalker

section WalkTrie

/-- What `VisitNode` makes of a node: go on, drop its entry (`ErrSkipTrieNode`) or stop. -/
inductive NodeVerdict (σ : Type)
  | visit (s : σ)
  | skip (s : σ)
  | stop (e : Err)

/-- `TrieVisitor`, whose functions share a state. -/
structure TrieVisitor (σ : Type) where
  visitNode : Visit → σ → NodeVerdict σ
  visitLeaf : Visit → σ → Except Err σ
  note : NoteHook

variable {σ : Type} (read : ℕ → Prog Content) (v : TrieVisitor σ)

/-- The loop of `WalkTrie`. -/
def walkTrieFrom : ℕ → TrieWalker → σ → Prog σ
  | 0, _, s => pure s
  | fuel + 1, w, s => do
    match ← w.next read v.note walkFuel with
    | (none, w) =>
      match w.abort with
      | none => return s
      | some e => .fail e
    | (some visit, w) =>
      match v.visitNode visit s with
      | .stop e => .fail e
      | .skip s => walkTrieFrom fuel w s
      | .visit s =>
        if !visit.emitted && visit.node.isLeaf then
          match v.visitLeaf visit s with
          | .error e => .fail e
          | .ok s => walkTrieFrom fuel w s
        else walkTrieFrom fuel w s

/-- `WalkTrie`. -/
def walkTrie (root : Ref) (s : σ) : Prog σ := walkTrieFrom read v walkFuel (.start root) s

end WalkTrie

/-- `TrieIterator.Next`: the next entry, or nothing when the walk is finished. -/
def iteratorNext : ℕ → TrieWalker → Prog (Option (ℕ × ℕ × Bytes) × TrieWalker)
  | 0, w => pure (none, w)
  | fuel + 1, w => do
    match ← w.next readBlock .skip walkFuel with
    | (none, w) => return (none, w)
    | (some v, w) =>
      if v.emitted || !v.node.isLeaf then iteratorNext fuel w
      else
        match v.page.readName v.node.nameLen v.node.nameOffset with
        | .error _ => iteratorNext fuel w
        | .ok name => return (some (v.node.inode, v.node.ftype, name), w)

/-- The first entries the iterator returns, up to one with inode number 0. -/
def iterateAll : ℕ → TrieWalker → Prog (List (ℕ × ℕ))
  | 0, _ => pure []
  | fuel + 1, w => do
    match ← iteratorNext walkFuel w with
    | (none, _) => return []
    | (some (ino, ftype, _), w) =>
      if ino = 0 then return [] else return (ino, ftype) :: (← iterateAll fuel w)

/-- `dirIsEmpty`. -/
def dirIsEmpty (root : Ref) : Prog Bool :=
  if root = 0 then pure true
  else do
    match ← iteratorNext walkFuel (.start root) with
    | (none, _) => return true
    | (some (ino, _, _), _) => return ino == 0

/-- The loop of `trieSeedPool`. -/
def seedFrom : ℕ → TrieWalker → Prog Unit
  | 0, _ => pure ()
  | fuel + 1, w => do
    match ← w.next loadBlock .skip walkFuel with
    | (none, _) => pure ()
    | (some v, w) => do
      Program.when (v.page.freeSlots ≠ 0 ∧ v.page.hasNameHeap 1) (addPartial (refBlock v.ref))
      seedFrom fuel w

/-- `trieSeedPool`. -/
def trieSeedPool (root : Ref) : Prog Unit := Program.when (root ≠ 0) (seedFrom walkFuel (.start root))

end Briefs.Trie
