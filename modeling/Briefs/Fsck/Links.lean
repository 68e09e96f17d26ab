import Mathlib.Data.List.TakeWhile
import Briefs.Fsck.Scan

/-!
# Link counts in fsck

`verifyLinkCounts` of `cmd/fsck`, and what the scan before it collects on an image whose
directories can be read.
-/

namespace Briefs.Fsck

open Lib Lib.Call Alloc Trie Dir Replay

section Pass

/-- The entries of each directory that name a directory. -/
def countSubdirs (fs : State) (entries : List TrieEntry) : ℕ → ℕ :=
  entries.foldl (fun counts e =>
    match fs.inodes.lookup e.inode with
    | none => counts
    | some target =>
      if target.isDir then Function.update counts e.parent (counts e.parent + 1) else counts)
    fun _ => 0

/-- The link count an inode should have, if it is checked. -/
def expectedLinks (fs : State) (subdirCount : Option (ℕ → ℕ)) (ino : ℕ) (inode : Inode) :
    Option ℕ :=
  if inode.isDir then subdirCount.map fun counts => 2 + counts ino
  else if inode.isFile || inode.isSymlink then some (fs.entryCounts ino)
  else none

/-- The check of one inode. The second component counts the mismatches. -/
def checkLinks (verbose : Bool) (fs : State) (subdirCount : Option (ℕ → ℕ)) (acc : State × ℕ)
    (e : ℕ × Inode) : State × ℕ :=
  match expectedLinks fs subdirCount e.1 e.2 with
  | none => acc
  | some expected =>
    if e.2.nlinks ≠ expected then
      (acc.1.reportLimited verbose acc.2 20 "(more link count errors suppressed)"
        s!"ino {e.1}: nlink={e.2.nlinks} but expected {expected}", acc.2 + 1)
    else acc

/-- `verifyLinkCounts`. -/
def verifyLinkCounts (verbose : Bool) (fs : State) (entries : List TrieEntry) : State :=
  if fs.failedTrieDirs = [] then
    (fs.inodes.foldl (checkLinks verbose fs (some (countSubdirs fs entries))) (fs, 0)).1
  else
    (fs.inodes.foldl (checkLinks verbose fs none)
      (fs.errorf (s!"link counts: skipping directory nlink check: {fs.failedTrieDirs.length} " ++
        "director(ies) with failed trie walks"), 0)).1

/-- The scan of an image: what it collects, and the entries of all directories. -/
def scan (sb : SuperblockLayout) (g : Geometry) (d : Disk) (verbose : Bool) :
    State × List TrieEntry :=
  let fs := verifyInodeTable sb g d verbose
  verifyAllDirTries sb g d fs fs.dirs

/-- Nothing is reported if every count is the one expected. -/
theorem verifyLinkCounts_eq {verbose : Bool} {fs : State} {entries : List TrieEntry}
    (hfailed : fs.failedTrieDirs = [])
    (h : ∀ e ∈ fs.inodes, ∀ expected,
      expectedLinks fs (some (countSubdirs fs entries)) e.1 e.2 = some expected →
        e.2.nlinks = expected) : verifyLinkCounts verbose fs entries = fs := by
  have hcheck : ∀ e ∈ fs.inodes, ∀ acc,
      checkLinks verbose fs (some (countSubdirs fs entries)) acc e = acc := by
    intro e he acc
    unfold checkLinks
    split
    · rfl
    · rename_i expected hexpected
      rw [if_neg (not_not.mpr (h e he expected hexpected))]
  have hfold : ∀ (l : List (ℕ × Inode)) acc, (∀ e ∈ l, e ∈ fs.inodes) →
      l.foldl (checkLinks verbose fs (some (countSubdirs fs entries))) acc = acc := by
    intro l acc hl
    induction l with
    | nil => rfl
    | cons e l ih =>
      rw [List.foldl_cons, hcheck e (hl e List.mem_cons_self)]
      exact ih fun e' he' => hl e' (List.mem_cons_of_mem _ he')
  rw [verifyLinkCounts, if_pos hfailed, hfold _ _ fun _ he => he]

theorem countSubdirs_eq (fs : State) (entries : List TrieEntry) (ino : ℕ) :
    countSubdirs fs entries ino =
      entries.countP fun e => e.parent = ino ∧ (fs.inodes.lookup e.inode).any Inode.isDir := by
  have hfold : ∀ counts : ℕ → ℕ, entries.foldl (fun counts e =>
      match fs.inodes.lookup e.inode with
      | none => counts
      | some target =>
        if target.isDir then Function.update counts e.parent (counts e.parent + 1) else counts)
      counts ino = counts ino + entries.countP fun e =>
        e.parent = ino ∧ (fs.inodes.lookup e.inode).any Inode.isDir := by
    induction entries with
    | nil => intro counts; rfl
    | cons e rest ih =>
      intro counts
      rw [List.foldl_cons, ih, List.countP_cons]
      cases hlookup : fs.inodes.lookup e.inode with
      | none => simp
      | some target =>
        by_cases hdir : target.isDir <;> by_cases hparent : e.parent = ino
        · simp [hdir, hparent]; omega
        · simp [hdir, hparent, Function.update_of_ne (Ne.symm hparent)]
        · simp [hdir]
        · simp [hdir]
  exact (hfold _).trans (Nat.zero_add _)

end Pass

section Scanned

variable {sb : SuperblockLayout} {g : Geometry} {d : Disk} {verbose : Bool} {ino : ℕ}
  {inos : List ℕ}

/-- The slot of an allocated inode. -/
def used (g : Geometry) (d : Disk) (ino : ℕ) : Option Inode :=
  if d.inodePool.isAllocated (ino - 1) then slotIn g d.table ino else none

/-- What `verifyInode` makes of a slot: the inode it is. -/
def accept (ino : ℕ) (slot : Inode) : Option Inode :=
  match verifyInode ino slot with
  | .ok r => r
  | .error _ => none

def accepted (g : Geometry) (d : Disk) (ino : ℕ) : Option Inode := (used g d ino).bind (accept ino)

def trieOf (ino : ℕ) (inode : Inode) : Option (ℕ × Ref) :=
  if inode.isDir ∧ inode.dirTrieRoot ≠ 0 then some (ino, inode.dirTrieRoot) else none

/-- The state after the slots of `inos`. -/
structure Scanned (g : Geometry) (d : Disk) (inos : List ℕ) (fs : State) : Prop where
  inodes : fs.inodes = inos.filterMap fun ino => (accepted g d ino).map (ino, ·)
  dirs : fs.dirs = inos.filterMap fun ino => (accepted g d ino).bind (trieOf ino)
  entryCounts : fs.entryCounts = fun _ => 0
  failed : fs.failedTrieDirs = []

theorem State.reportLimited_eq (fs : State) (verbose : Bool) (counter limit : ℕ)
    (notice msg : String) :
    ∃ rs, fs.reportLimited verbose counter limit notice msg = fs.report rs := by
  unfold State.reportLimited
  split_ifs
  · exact ⟨_, rfl⟩
  · exact ⟨_, rfl⟩
  · exact ⟨[], by simp [State.report]⟩

theorem Scanned.report {fs : State} (h : Scanned g d inos fs) (rs : List Report) :
    Scanned g d inos (fs.report rs) :=
  ⟨h.inodes, h.dirs, h.entryCounts, h.failed⟩

theorem Scanned.skip {inos more : List ℕ} {fs : State} (h : Scanned g d inos fs)
    (hnone : ∀ ino ∈ more, accepted g d ino = none) : Scanned g d (inos ++ more) fs := by
  have hmap : more.filterMap (fun ino => (accepted g d ino).map (ino, ·)) = [] := by
    rw [List.filterMap_eq_nil_iff]
    intro ino hino
    rw [hnone ino hino]
    rfl
  have hdir : more.filterMap (fun ino => (accepted g d ino).bind (trieOf ino)) = [] := by
    rw [List.filterMap_eq_nil_iff]
    intro ino hino
    rw [hnone ino hino]
    rfl
  refine ⟨?_, ?_, h.entryCounts, h.failed⟩
  · rw [List.filterMap_append, hmap, List.append_nil]
    exact h.inodes
  · rw [List.filterMap_append, hdir, List.append_nil]
    exact h.dirs

theorem Scanned.keep {fs : State} {inode : Inode} (h : Scanned g d inos fs)
    (haccepted : accepted g d ino = some inode) :
    Scanned g d (inos ++ [ino]) (fs.keep ino inode) := by
  refine ⟨?_, ?_, h.entryCounts, h.failed⟩
  · rw [List.filterMap_append, ← h.inodes]
    simp [haccepted, State.keep]
  · rw [List.filterMap_append, ← h.dirs]
    by_cases hdir : inode.isDir ∧ inode.dirTrieRoot ≠ 0
    · simp [haccepted, State.keep, trieOf, hdir]
    · simp [haccepted, State.keep, trieOf, hdir]

theorem Scanned.verifySlot {acc : State × ℕ} {slot : Inode}
    (h : Scanned g d inos acc.1) (hslot : slotIn g d.table ino = some slot) :
    Scanned g d (inos ++ [ino]) (verifySlot d.inodePool verbose acc ino slot).1 := by
  obtain ⟨fs, bad⟩ := acc
  unfold Fsck.verifySlot
  dsimp only
  by_cases halloc : d.inodePool.isAllocated (ino - 1) = false
  · rw [if_pos halloc]
    refine h.skip fun n hn => ?_
    rw [List.mem_singleton.mp hn, accepted, used, halloc]
    rfl
  have haccepted : accepted g d ino = accept ino slot := by
    rw [accepted, used, if_pos (by simpa using halloc), hslot]
    rfl
  rw [if_neg halloc]
  by_cases hmagic : slot.magic = 0
  · rw [if_pos hmagic]
    obtain ⟨rs, hrs⟩ := fs.reportLimited_eq verbose bad 20
      "(more inode bitmap/table mismatch errors suppressed)"
      s!"ino {ino}: bitmap says allocated but inode has no valid magic (0x{hex 16 slot.magic})"
    rw [hrs]
    refine (h.report rs).skip fun n hn => ?_
    rw [List.mem_singleton.mp hn, haccepted]
    simp [accept, verifyInode, hmagic]
  · rw [if_neg hmagic]
    cases hverify : verifyInode ino slot with
    | error e =>
      refine (h.report _).skip fun n hn => ?_
      rw [List.mem_singleton.mp hn, haccepted, accept, hverify]
    | ok r =>
      cases r with
      | none =>
        refine h.skip fun n hn => ?_
        rw [List.mem_singleton.mp hn, haccepted, accept, hverify]
      | some inode =>
        refine h.keep ?_
        rw [haccepted, accept, hverify]

def blockInos (g : Geometry) (bi : ℕ) : List ℕ :=
  (List.range g.inodesPerBlock).map fun j => bi * g.inodesPerBlock + j + 1

theorem slotIn_blockInos {bi j : ℕ} (hj : j < g.inodesPerBlock) :
    slotIn g d.table (bi * g.inodesPerBlock + j + 1) = (d.table bi).map fun slots => slots j := by
  have hdiv : (bi * g.inodesPerBlock + j) / g.inodesPerBlock = bi := by
    rw [Nat.add_comm, Nat.add_mul_div_right _ _ (by omega), Nat.div_eq_of_lt hj, Nat.zero_add]
  have hmod : (bi * g.inodesPerBlock + j) % g.inodesPerBlock = j := by
    rw [Nat.add_comm, Nat.add_mul_mod_self_right, Nat.mod_eq_of_lt hj]
  simp [slotIn, inodeLocation, hdiv, hmod]

theorem Scanned.verifyTableBlock {acc : State × ℕ} (h : Scanned g d inos acc.1)
    (bi : ℕ) :
    Scanned g d (inos ++ blockInos g bi) (verifyTableBlock sb g d verbose acc bi).1 := by
  unfold Fsck.verifyTableBlock
  cases hblock : d.table bi with
  | none =>
    refine (h.report _).skip fun ino hino => ?_
    obtain ⟨j, hj, rfl⟩ := List.mem_map.mp hino
    rw [accepted, used, slotIn_blockInos (List.mem_range.mp hj), hblock]
    simp
  | some slots =>
    have hfold : ∀ js : List ℕ, (∀ j ∈ js, j < g.inodesPerBlock) → ∀ inos acc,
        Scanned g d inos acc.1 →
        Scanned g d (inos ++ js.map fun j => bi * g.inodesPerBlock + j + 1)
          (js.foldl (fun acc j => Fsck.verifySlot d.inodePool verbose acc
            (bi * g.inodesPerBlock + j + 1) (slots j)) acc).1 := by
      intro js
      induction js with
      | nil => intro _ inos acc h; simpa using h
      | cons j js ih =>
        intro hjs inos acc h
        have hslot : slotIn g d.table (bi * g.inodesPerBlock + j + 1) = some (slots j) := by
          rw [slotIn_blockInos (hjs j List.mem_cons_self), hblock]
          rfl
        rw [List.foldl_cons, List.map_cons, ← List.singleton_append, ← List.append_assoc]
        exact ih (fun k hk => hjs k (List.mem_cons_of_mem _ hk)) _ _ (h.verifySlot hslot)
    exact hfold _ (fun j hj => List.mem_range.mp hj) _ _ h

theorem flatMap_blockInos (g : Geometry) (n : ℕ) :
    (List.range n).flatMap (blockInos g) = List.range' 1 (n * g.inodesPerBlock) := by
  induction n with
  | zero => simp
  | succ n ih =>
    rw [List.range_succ, List.flatMap_append, ih, List.flatMap_singleton, Nat.succ_mul,
      ← List.range'_append_1]
    congr 1
    rw [blockInos, List.range'_eq_map_range]
    refine List.map_congr_left fun j _ => ?_
    omega

theorem scanned_verifyInodeTable (sb : SuperblockLayout) (d : Disk) (verbose : Bool)
    (hper : 0 < g.inodesPerBlock) :
    ∃ n, d.inodePool.blockCount ≤ n ∧
      Scanned g d (List.range' 1 n) (verifyInodeTable sb g d verbose) := by
  have hfold : ∀ (bis : List ℕ) inos acc, Scanned g d inos acc.1 →
      Scanned g d (inos ++ bis.flatMap (blockInos g))
        (bis.foldl (Fsck.verifyTableBlock sb g d verbose) acc).1 := by
    intro bis
    induction bis with
    | nil => intro inos acc h; simpa using h
    | cons bi bis ih =>
      intro inos acc h
      rw [List.foldl_cons, List.flatMap_cons, ← List.append_assoc]
      exact ih _ _ (h.verifyTableBlock bi)
  refine ⟨_, ?_, flatMap_blockInos g _ ▸ hfold _ [] (.empty, 0) ⟨rfl, rfl, rfl, rfl⟩⟩
  have hdiv := Nat.div_add_mod (d.inodePool.blockCount + g.inodesPerBlock - 1) g.inodesPerBlock
  have hmod := Nat.mod_lt (d.inodePool.blockCount + g.inodesPerBlock - 1) hper
  rw [Nat.mul_comm]
  omega

theorem lookup_filterMap {α : Type} (f : ℕ → Option α) (keys : List ℕ) (k : ℕ) :
    (keys.filterMap fun k => (f k).map (k, ·)).lookup k = if k ∈ keys then f k else none := by
  induction keys with
  | nil => rfl
  | cons key keys ih =>
    rw [List.filterMap_cons]
    by_cases hkey : k = key
    · subst hkey
      cases hf : f k with
      | none => simpa [hf] using ih
      | some a => simp
    · have hbeq : (k == key) = false := by simpa using hkey
      cases hf : f key with
      | none => simpa [hkey] using ih
      | some a => simpa [List.lookup_cons, hbeq, hkey] using ih

end Scanned

section Entries

variable {sb : SuperblockLayout} {g : Geometry} {d : Disk} {root : Ref} {parent : ℕ}

def visits (g : Geometry) (d : Disk) (root : Ref) : Option (List Visit) :=
  match ((visitsFrom .skip walkFuel (.start root)).run (Store.exec g) (opened g d).store).1 with
  | .ok vs => vs
  | .error _ => none

def entriesAt (g : Geometry) (d : Disk) (root : Ref) : List (ℕ × ℕ × Bytes) :=
  ((visits g d root).getD []).filterMap Visit.entry

/-- The walk over a trie comes to an end, and what it notes does not make it a failed one. -/
structure Readable (g : Geometry) (d : Disk) (root : Ref) : Prop where
  ends : (visits g d root).isSome
  trusted : walkFails g d root = false

/-- A node fsck takes as it is: its slot is in use, and an entry in it is not marked deleted. -/
def Plain (v : Visit) : Prop :=
  (v.emitted = false → v.page.isFree (refSlot v.ref) = false) ∧
    (v.entry.isSome → v.node.flags &&& nodeFlagDeleted = 0)

instance (v : Visit) : Decidable (Plain v) := inferInstanceAs (Decidable (_ ∧ _))

theorem serves_opened (g : Geometry) (d : Disk) :
    Serves (Store.exec g) d.blocks (opened g d).store := fun _ => rfl

theorem Readable.walks (h : Readable g d root) :
    ∃ vs, visits g d root = some vs ∧
      Walks (Store.exec g) .skip (opened g d).store (.start root) vs ∧ vs.length < walkFuel := by
  obtain ⟨vs, hvs⟩ := Option.isSome_iff_exists.mp h.ends
  refine ⟨vs, hvs, walks_of_visitsFrom (serves_opened g d) _ ?_⟩
  unfold visits at hvs
  split at hvs
  · rename_i hrun
    rw [hrun, hvs]
  · cases hvs

def named (parent : ℕ) (e : ℕ × ℕ × Bytes) : TrieEntry := ⟨e.1, e.2.1, e.2.2, parent⟩

/-- From `fs` to `fs'` the given entries are collected. -/
structure Collects (fs fs' : State) (entries : List TrieEntry) : Prop where
  inodes : fs'.inodes = fs.inodes
  failed : fs'.failedTrieDirs = fs.failedTrieDirs
  entryCounts : ∀ ino, fs'.entryCounts ino = fs.entryCounts ino + entries.countP (·.inode = ino)

theorem Collects.refl (fs : State) : Collects fs fs [] := ⟨rfl, rfl, fun _ => rfl⟩

theorem Collects.trans {fs fs' fs'' : State} {l l' : List TrieEntry} (h : Collects fs fs' l)
    (h' : Collects fs' fs'' l') : Collects fs fs'' (l ++ l') := by
  refine ⟨h'.inodes.trans h.inodes, h'.failed.trans h.failed, fun ino => ?_⟩
  rw [h'.entryCounts, h.entryCounts, List.countP_append, Nat.add_assoc]

theorem Collects.report {fs fs' : State} {l : List TrieEntry} (h : Collects fs fs' l)
    (rs : List Report) : Collects fs (fs'.report rs) l :=
  ⟨h.inodes, h.failed, h.entryCounts⟩

/-- What `VisitNode` makes of a plain node. -/
theorem visitNode_plain (sb : SuperblockLayout) (parent : ℕ) (root : Ref) {v : Visit}
    (h : Plain v) (fs : State) (entries : List TrieEntry) :
    ∃ rs, (dirVisitor sb parent root).visitNode v (fs, entries) =
      .visit (fs.report rs, entries) := by
  dsimp only [dirVisitor]
  cases hemitted : v.emitted with
  | true => exact ⟨[], by simp [State.report]⟩
  | false =>
    refine ⟨pageFindings parent v ++ nodeFindings sb parent root v, ?_⟩
    simp [h.1 hemitted, State.report]

/-- What `VisitLeaf` makes of a plain node. -/
theorem visitLeaf_plain (sb : SuperblockLayout) (parent : ℕ) (root : Ref) {v : Visit}
    (h : Plain v) (hleaf : (!v.emitted && v.node.isLeaf) = true)
    (fs : State) (entries : List TrieEntry) :
    ∃ fs', (dirVisitor sb parent root).visitLeaf v (fs, entries) =
        .ok (fs', entries ++ v.entry.toList.map (named parent)) ∧
      Collects fs fs' (v.entry.toList.map (named parent)) := by
  have hfirst : ¬ (v.emitted || !v.node.isLeaf) = true := by simpa [and_comm] using hleaf
  have hentry : v.entry = _ := if_neg hfirst
  have hplain := h.2
  dsimp only [dirVisitor]
  cases hname : v.page.readName v.node.nameLen v.node.nameOffset with
  | error e =>
    rw [hname] at hentry
    rw [hentry]
    by_cases hdeleted : v.node.flags &&& nodeFlagDeleted ≠ 0
    · rw [if_pos hdeleted]
      exact ⟨fs, by simp, .refl fs⟩
    · rw [if_neg hdeleted]
      exact ⟨_, by simp; rfl, (Collects.refl fs).report _⟩
  | ok name =>
    rw [hname] at hentry
    rw [hentry] at hplain ⊢
    rw [if_neg (not_not.mpr (hplain rfl))]
    refine ⟨_, rfl, rfl, rfl, fun ino => ?_⟩
    by_cases hino : v.node.inode = ino
    · subst hino
      simp [named]
    · simp [named, hino, Function.update_of_ne (Ne.symm hino)]

theorem fold_dirVisitor (sb : SuperblockLayout) (parent : ℕ) (root : Ref) {vs : List Visit}
    (h : ∀ v ∈ vs, Plain v) (fs : State)
    (entries : List TrieEntry) :
    ∃ fs', (dirVisitor sb parent root).fold vs (fs, entries) =
        .ok (fs', entries ++ (vs.filterMap Visit.entry).map (named parent)) ∧
      Collects fs fs' ((vs.filterMap Visit.entry).map (named parent)) := by
  induction vs generalizing fs entries with
  | nil => exact ⟨fs, by simp [TrieVisitor.fold], .refl fs⟩
  | cons v vs ih =>
    have hv := h v List.mem_cons_self
    have hrest := ih fun v' hv' => h v' (List.mem_cons_of_mem _ hv')
    obtain ⟨rs, hnode⟩ := visitNode_plain sb parent root hv fs entries
    have hcons : (v :: vs).filterMap Visit.entry = v.entry.toList ++ vs.filterMap Visit.entry := by
      cases hentry : v.entry with
      | none => simp [List.filterMap_cons_none hentry]
      | some e => simp [List.filterMap_cons_some hentry]
    unfold TrieVisitor.fold
    rw [hnode, hcons]
    dsimp only
    by_cases hleaf : (!v.emitted && v.node.isLeaf) = true
    · obtain ⟨fs₁, hvisit, hcollects⟩ :=
        visitLeaf_plain sb parent root hv hleaf (fs.report rs) entries
      obtain ⟨fs₂, hfold, hcollects'⟩ := hrest fs₁ (entries ++ v.entry.toList.map (named parent))
      rw [if_pos hleaf, hvisit]
      refine ⟨fs₂, ?_, ?_⟩
      · rw [List.map_append, ← List.append_assoc]
        exact hfold
      · rw [List.map_append]
        exact (((Collects.refl fs).report rs).trans hcollects).trans hcollects'
    · have hentry : v.entry = none := by
        rw [Visit.entry, if_pos (by simpa [or_iff_not_imp_left] using hleaf)]
      obtain ⟨fs₂, hfold, hcollects⟩ := hrest (fs.report rs) entries
      rw [if_neg hleaf, hentry]
      exact ⟨fs₂, hfold, ((Collects.refl fs).report rs).trans hcollects⟩

theorem verifyDirectoryTrie_eq (sb : SuperblockLayout) (parent : ℕ) (h : Readable g d root)
    (hroot : root ≠ 0)
    (hplain : ∀ vs, visits g d root = some vs → ∀ v ∈ vs, Plain v) (fs : State) :
    ∃ fs', verifyDirectoryTrie sb g d fs parent root =
        (fs', (entriesAt g d root).map (named parent)) ∧
      Collects fs fs' ((entriesAt g d root).map (named parent)) := by
  obtain ⟨vs, hvs, hwalks, hlength⟩ := h.walks
  obtain ⟨fs', hfold, hcollects⟩ := fold_dirVisitor sb parent root (hplain vs hvs) fs []
  have hentries : entriesAt g d root = vs.filterMap Visit.entry := by rw [entriesAt, hvs]; rfl
  have hrun := Walks.walkTrieFrom (v := dirVisitor sb parent root) hwalks walkFuel hlength (fs, [])
  unfold verifyDirectoryTrie walkTrie
  rw [if_neg hroot, h.trusted, hentries]
  dsimp only
  rw [if_neg (by decide), hrun, hfold]
  exact ⟨fs', rfl, hcollects⟩

/-- `verifyAllDirTries`, if every directory is readable and plain. -/
theorem verifyAllDirTries_eq (sb : SuperblockLayout) {dirs : List (ℕ × Ref)}
    (hroot : ∀ dir ∈ dirs, dir.2 ≠ 0)
    (h : ∀ dir ∈ dirs, Readable g d dir.2)
    (hplain : ∀ dir ∈ dirs, ∀ vs, visits g d dir.2 = some vs → ∀ v ∈ vs, Plain v) (fs : State) :
    ∃ fs', verifyAllDirTries sb g d fs dirs =
        (fs', dirs.flatMap fun dir => (entriesAt g d dir.2).map (named dir.1)) ∧
      Collects fs fs' (dirs.flatMap fun dir => (entriesAt g d dir.2).map (named dir.1)) := by
  have hfold : ∀ (l : List (ℕ × Ref)) (found : List TrieEntry) (fs : State),
      (∀ dir ∈ l, dir ∈ dirs) →
      ∃ fs', l.foldl (fun acc dir =>
          let r := verifyDirectoryTrie sb g d acc.1 dir.1 dir.2
          (r.1, acc.2 ++ r.2)) (fs, found) =
        (fs', found ++ l.flatMap fun dir => (entriesAt g d dir.2).map (named dir.1)) ∧
      Collects fs fs' (l.flatMap fun dir => (entriesAt g d dir.2).map (named dir.1)) := by
    intro l
    induction l with
    | nil => intro found fs _; exact ⟨fs, by simp, .refl fs⟩
    | cons dir l ih =>
      intro found fs hl
      have hdir := hl dir List.mem_cons_self
      obtain ⟨fs₁, hverify, hcollects⟩ :=
        verifyDirectoryTrie_eq sb dir.1 (h dir hdir) (hroot dir hdir) (hplain dir hdir) fs
      obtain ⟨fs₂, hrest, hcollects'⟩ :=
        ih (found ++ (entriesAt g d dir.2).map (named dir.1)) fs₁
          fun dir' hdir' => hl dir' (List.mem_cons_of_mem _ hdir')
      refine ⟨fs₂, ?_, ?_⟩
      · rw [List.foldl_cons, List.flatMap_cons, ← List.append_assoc]
        rw [hverify]
        exact hrest
      · rw [List.flatMap_cons]
        exact hcollects.trans hcollects'
  obtain ⟨fs', hrun, hcollects⟩ := hfold dirs [] fs fun _ hdir => hdir
  exact ⟨fs', by simpa [verifyAllDirTries] using hrun, hcollects⟩

end Entries

end Briefs.Fsck
