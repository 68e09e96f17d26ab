import Mathlib.Data.List.Nodup
import Briefs.Fsck.Links
import Briefs.Replay.Reconcile
import Briefs.Replay.Invisible

/-!
# Link counts after a replay

`verifyLinkCounts` of `cmd/fsck` against `replayReconcileNlinks`. A replay counts as
subdirectories the entries of type directory, and lets an entry count only if its inode is
allocated; fsck looks at the inodes the entries name, and at those it has accepted. The two
agree on an image whose entries have the type of the inodes they name.
-/

namespace Briefs.Fsck

open Lib Lib.Call Alloc Trie Dir Replay

section Census

variable {env : Env} {d : Disk} {r : Session} {ino : ℕ}

/-- What a replay adds to its counts for one inode. -/
def tally (g : Geometry) (d : Disk) (c : Census) (ino : ℕ) : Census :=
  match used g d ino with
  | none => c
  | some di =>
    let c := { c with state := c.state ++ [(ino, di.isDir, di.nlinks)] }
    if di.isDir then
      (((entriesAt g d di.dirTrieRoot).map fun e => (e.1, e.2.1)).takeWhile (·.1 ≠ 0)).foldl
        (countEntries d.inodePool.isAllocated ino) c
    else c

/-- A session at rest on the image `d`. -/
structure RestsOn (env : Env) (d : Disk) (r : Session) : Prop where
  blocks : r.fs.store.blocks.read = d.blocks
  table : r.fs.table.read = d.table
  bitmap : r.fs.inodeAlloc.bitmap = d.inodePool

theorem RestsOn.serves (h : RestsOn env d r) :
    Serves (fun c b => b.execStore env c) d.blocks r.fs := by
  intro block
  simp [BrieFS.execStore, BrieFS.settle, Store.exec, h.blocks]

theorem RestsOn.readInode (h : RestsOn env d r) (ino : ℕ) :
    r.fs.readInode env ino = BrieFS.slotOr (slotIn env.geometry d.table ino) := by
  rw [BrieFS.readInode, h.table]

/-- The listing of a readable trie, as a replay makes it. -/
theorem RestsOn.iterateAll (h : RestsOn env d r) {root : Ref}
    (hread : Readable env.geometry d root) :
    runTrie env (iterateAll walkFuel (.start root)) r =
      (.ok (((entriesAt env.geometry d root).map fun e => (e.1, e.2.1)).takeWhile (·.1 ≠ 0)),
        r) := by
  obtain ⟨vs, hvs, hwalks, hlength⟩ := hread.walks
  have hrun := (hwalks.of_serves (serves_opened _ d) h.serves).iterateAll _ hlength hlength
  unfold runTrie
  rw [run_trie, hrun, entriesAt, hvs]
  rfl

theorem census_eq (h : RestsOn env d r)
    (hread : ∀ ino di, used env.geometry d ino = some di → di.isDir →
      Readable env.geometry d di.dirTrieRoot) (inos : List ℕ) (c : Census) :
    census env inos c r = (.ok (inos.foldl (tally env.geometry d) c), r) := by
  induction inos generalizing c with
  | nil => rfl
  | cons ino rest ih =>
    unfold census
    rw [bind_of_ok (rfl : Call.read r = (.ok r, r))]
    have halloc : r.fs.inodeAlloc.allocated = d.inodePool.isAllocated := by
      funext rel
      rw [Allocator.allocated, h.bitmap]
    rw [halloc]
    by_cases hino : d.inodePool.isAllocated (ino - 1) = true
    · rw [if_pos hino, h.readInode]
      cases hslot : slotIn env.geometry d.table ino with
      | none =>
        have hused : used env.geometry d ino = none := by rw [used, if_pos hino, hslot]
        rw [List.foldl_cons, tally, hused]
        exact ih c
      | some di =>
        have hused : used env.geometry d ino = some di := by rw [used, if_pos hino, hslot]
        rw [List.foldl_cons, tally, hused]
        dsimp only [BrieFS.slotOr]
        by_cases hdir : di.isDir = true
        · rw [if_pos hdir, if_pos hdir, bind_of_ok (h.iterateAll (hread ino di hused hdir))]
          exact ih _
        · rw [if_neg hdir, if_neg hdir]
          exact ih _
    · have hused : used env.geometry d ino = none := by rw [used, if_neg hino]
      rw [if_neg hino, List.foldl_cons, tally, hused]
      exact ih c

variable (g : Geometry)

def dirEntries (d : Disk) (inos : List ℕ) : List TrieEntry :=
  inos.flatMap fun ino =>
    match used g d ino with
    | none => []
    | some di => if di.isDir then (entriesAt g d di.dirTrieRoot).map (named ino) else []

/-- What the counts are after some inodes. -/
structure Tallied (d : Disk) (inos : List ℕ) (c : Census) : Prop where
  state : c.state = inos.filterMap fun ino =>
    (used g d ino).map fun di => (ino, di.isDir, di.nlinks)
  links : ∀ ino, d.inodePool.isAllocated (ino - 1) →
    c.links ino = (dirEntries g d inos).countP (·.inode = ino) % 2 ^ 32
  subdirs : ∀ ino, c.subdirs ino =
    (dirEntries g d inos).countP (fun e => e.parent = ino ∧ e.ftype = ftypeOf modeDir) % 2 ^ 32

variable {g}

theorem foldl_countEntries (ino : ℕ) {alloc : ℕ → Bool} (entries : List (ℕ × ℕ × Bytes))
    (c : Census)
    (links subdirs : ℕ → ℕ)
    (hlinks : ∀ x, alloc (x - 1) → c.links x = links x % 2 ^ 32)
    (hsubdirs : ∀ x, c.subdirs x = subdirs x % 2 ^ 32) :
    (∀ x, alloc (x - 1) →
      ((entries.map fun e => (e.1, e.2.1)).foldl (countEntries alloc ino) c).links x =
        (links x + (entries.map (named ino)).countP (·.inode = x)) % 2 ^ 32) ∧
    ∀ x, ((entries.map fun e => (e.1, e.2.1)).foldl (countEntries alloc ino) c).subdirs x =
      (subdirs x + (entries.map (named ino)).countP
        (fun e => e.parent = x ∧ e.ftype = ftypeOf modeDir)) % 2 ^ 32 := by
  induction entries generalizing c links subdirs with
  | nil => exact ⟨hlinks, hsubdirs⟩
  | cons e rest ih =>
    have hnext := ih (countEntries alloc ino c (e.1, e.2.1))
      (fun x => links x + if e.1 = x then 1 else 0)
      (fun x => subdirs x + if ino = x ∧ e.2.1 = ftypeOf modeDir then 1 else 0)
      (fun x hx => ?_) fun x => ?_
    · refine ⟨fun x hx => ?_, fun x => ?_⟩
      · rw [List.map_cons, List.foldl_cons, hnext.1 x hx, List.map_cons, List.countP_cons]
        have hsame : (if decide ((named ino e).inode = x) = true then 1 else 0) =
            if e.1 = x then 1 else 0 := if_congr decide_eq_true_iff rfl rfl
        rw [hsame]
        omega
      · rw [List.map_cons, List.foldl_cons, hnext.2 x, List.map_cons, List.countP_cons]
        have hsame : (if decide ((named ino e).parent = x ∧ (named ino e).ftype = ftypeOf modeDir) =
            true then 1 else 0) = if ino = x ∧ e.2.1 = ftypeOf modeDir then 1 else 0 :=
          if_congr decide_eq_true_iff rfl rfl
        rw [hsame]
        omega
    · dsimp only [countEntries]
      by_cases he : e.1 = x
      · subst he
        rw [if_pos hx, Function.update_self, hlinks _ hx, if_pos rfl, Nat.mod_add_mod]
      · rw [if_neg he]
        split_ifs
        · rw [Function.update_of_ne (Ne.symm he)]
          exact hlinks x hx
        · exact hlinks x hx
    · dsimp only [countEntries]
      by_cases hdir : e.2.1 = ftypeOf modeDir
      · rw [if_pos hdir]
        by_cases hino : ino = x
        · subst hino
          rw [Function.update_self, hsubdirs, if_pos ⟨rfl, hdir⟩, Nat.mod_add_mod]
        · rw [Function.update_of_ne (Ne.symm hino), hsubdirs, if_neg fun h => hino h.1,
            Nat.add_zero]
      · rw [if_neg hdir, hsubdirs, if_neg fun h => hdir h.2, Nat.add_zero]

theorem Tallied.tally {inos : List ℕ} {c : Census} (h : Tallied g d inos c) (ino : ℕ)
    (hzero : ∀ di, used g d ino = some di → di.isDir →
      ∀ e ∈ entriesAt g d di.dirTrieRoot, e.1 ≠ 0) :
    Tallied g d (inos ++ [ino]) (tally g d c ino) := by
  unfold Fsck.tally
  cases hused : used g d ino with
  | none =>
    have hentries : dirEntries g d (inos ++ [ino]) = dirEntries g d inos := by
      simp [dirEntries, hused]
    refine ⟨?_, ?_, ?_⟩
    · rw [List.filterMap_append, ← h.state]
      simp [hused]
    · rw [hentries]
      exact h.links
    · rw [hentries]
      exact h.subdirs
  | some di =>
    have hstate : c.state ++ [(ino, di.isDir, di.nlinks)] = (inos ++ [ino]).filterMap fun ino =>
        (used g d ino).map fun di => (ino, di.isDir, di.nlinks) := by
      rw [List.filterMap_append, ← h.state]
      simp [hused]
    dsimp only
    by_cases hdir : di.isDir = true
    · have hentries : dirEntries g d (inos ++ [ino]) =
          dirEntries g d inos ++ (entriesAt g d di.dirTrieRoot).map (named ino) := by
        simp [dirEntries, hused, hdir]
      have hall : ((entriesAt g d di.dirTrieRoot).map fun e => (e.1, e.2.1)).takeWhile (·.1 ≠ 0) =
          (entriesAt g d di.dirTrieRoot).map fun e => (e.1, e.2.1) := by
        refine List.takeWhile_eq_self_iff.mpr fun e he => ?_
        obtain ⟨e, hmem, rfl⟩ := List.mem_map.mp he
        simpa using hzero di hused hdir e hmem
      rw [if_pos hdir, hall]
      obtain ⟨hlinks, hsubdirs⟩ := foldl_countEntries ino
        (entriesAt g d di.dirTrieRoot)
        { c with state := c.state ++ [(ino, di.isDir, di.nlinks)] } _ _ h.links h.subdirs
      refine ⟨?_, fun x hx => ?_, fun x => ?_⟩
      · rw [state_countEntries, hstate]
      · rw [hlinks x hx, hentries, List.countP_append]
      · rw [hsubdirs x, hentries, List.countP_append]
    · have hentries : dirEntries g d (inos ++ [ino]) = dirEntries g d inos := by
        simp [dirEntries, hused, hdir]
      rw [if_neg hdir]
      refine ⟨hstate, ?_, ?_⟩
      · rw [hentries]
        exact h.links
      · rw [hentries]
        exact h.subdirs

theorem tallied_foldl (inos : List ℕ)
    (hzero : ∀ ino di, used g d ino = some di → di.isDir →
      ∀ e ∈ entriesAt g d di.dirTrieRoot, e.1 ≠ 0) :
    Tallied g d inos
      (inos.foldl (tally g d) { links := fun _ => 0, subdirs := fun _ => 0, state := [] }) := by
  have hfold : ∀ (later earlier : List ℕ) (c : Census), Tallied g d earlier c →
      Tallied g d (earlier ++ later) (later.foldl (Fsck.tally g d) c) := by
    intro later
    induction later with
    | nil => intro earlier c h; simpa using h
    | cons ino later ih =>
      intro earlier c h
      rw [List.foldl_cons, ← List.singleton_append, ← List.append_assoc]
      exact ih _ _ (h.tally ino (hzero ino))
  exact hfold inos [] _ ⟨rfl, fun _ _ => rfl, fun _ => rfl⟩

end Census

section Patch

variable {env : Env} {c : Census}

/-- The link count a replay gives an inode. -/
def replayLinks (c : Census) (ino : ℕ) (isDir : Bool) : ℕ :=
  if isDir then (2 + c.subdirs ino) % 2 ^ 32 else c.links ino

/-- An inode with the link count a replay gives it. -/
def relinked (c : Census) (ino : ℕ) (inode : Inode) : Inode :=
  { inode with nlinks := replayLinks c ino inode.isDir }

theorem slotIn_update {g : Geometry} {f : ℕ → Option TableBlock} {ino blk i : ℕ}
    {slots : TableBlock} (hloc : inodeLocation g ino = some (blk, i))
    (hblk : f blk = some slots) (inode : Inode) (x : ℕ) :
    slotIn g (Function.update f blk (some (Function.update slots i inode))) x =
      if x = ino then some inode else slotIn g f x := by
  have hino : ino ≠ 0 := by
    rintro rfl
    cases hloc
  obtain ⟨rfl, rfl⟩ : (ino - 1) / g.inodesPerBlock = blk ∧ (ino - 1) % g.inodesPerBlock = i := by
    simpa [inodeLocation, hino] using hloc
  by_cases hx : x = ino
  · subst hx
    simp [slotIn, inodeLocation, hino]
  rw [if_neg hx]
  by_cases hzero : x = 0
  · simp [slotIn, inodeLocation, hzero]
  unfold slotIn inodeLocation
  rw [if_neg hzero]
  dsimp only
  by_cases hdiv : (x - 1) / g.inodesPerBlock = (ino - 1) / g.inodesPerBlock
  · have hmod : (x - 1) % g.inodesPerBlock ≠ (ino - 1) % g.inodesPerBlock := by
      intro hmod
      have hleft := Nat.div_add_mod (x - 1) g.inodesPerBlock
      have hright := Nat.div_add_mod (ino - 1) g.inodesPerBlock
      rw [hdiv, hmod] at hleft
      omega
    rw [hdiv, Function.update_self, hblk, Option.map_some, Option.map_some,
      Function.update_of_ne hmod]
  · rw [Function.update_of_ne hdiv]

/-- What pass 3b does to the table. -/
structure Patched (env : Env) (c : Census) (inos : List ℕ) (r t : Session) : Prop where
  deferred : ∀ k, t.fs.table.deferred k = none
  store : t.fs.store = r.fs.store
  inodePool : t.fs.inodePool = r.fs.inodePool
  slots : ∀ x, slotIn env.geometry t.fs.table.device x =
    if x ∈ inos then (slotIn env.geometry r.fs.table.device x).map (relinked c x)
    else slotIn env.geometry r.fs.table.device x

theorem Patched.cons {ino : ℕ} {inos : List ℕ} {r u t : Session} {slot : Inode}
    (h : Patched env c inos u t) (hino : ino ∉ inos)
    (hslot : slotIn env.geometry r.fs.table.device ino = some slot)
    (hstore : u.fs.store = r.fs.store) (hpool : u.fs.inodePool = r.fs.inodePool)
    (hslots : ∀ x, slotIn env.geometry u.fs.table.device x =
      if x = ino then some (relinked c ino slot) else slotIn env.geometry r.fs.table.device x) :
    Patched env c (ino :: inos) r t := by
  refine ⟨h.deferred, h.store.trans hstore, h.inodePool.trans hpool, fun x => ?_⟩
  rw [h.slots x, hslots x]
  by_cases hx : x = ino
  · subst hx
    simp [hino, hslot]
  · simp [hx]

/-- Each inode of the census gets its count: its slot has its own number, or is empty, and
an empty slot with entries makes the pass fail. -/
theorem patched_patchLinks {l : List (ℕ × Bool × ℕ)} {r t : Session}
    (hok : patchLinks env c l r = (.ok (), t)) (hdeferred : ∀ k, r.fs.table.deferred k = none)
    (hnodup : (l.map Prod.fst).Nodup)
    (hl : ∀ e ∈ l, ∃ slot, slotIn env.geometry r.fs.table.device e.1 = some slot ∧
      e.2 = (slot.isDir, slot.nlinks) ∧ (slot = .zero ∨ slot.inodeNumber = e.1)) :
    Patched env c (l.map Prod.fst) r t := by
  induction l generalizing r with
  | nil =>
    cases hok
    exact ⟨hdeferred, rfl, rfl, fun x => by simp⟩
  | cons e rest ih =>
    obtain ⟨slot, hslot, hstate, hnumber⟩ := hl e List.mem_cons_self
    obtain ⟨ino, isDir, nlinks⟩ := e
    obtain ⟨rfl, rfl⟩ : isDir = slot.isDir ∧ nlinks = slot.nlinks := by simpa using hstate
    obtain ⟨hino, hrest⟩ := List.nodup_cons.mp hnodup
    dsimp only at hslot hnumber hino
    have hread : r.fs.table.read = r.fs.table.device := by
      funext k
      simp [Layered.read, hdeferred k]
    unfold patchLinks at hok
    change (if slot.nlinks = replayLinks c ino slot.isDir then patchLinks env c rest
      else _) r = _ at hok
    by_cases hsame : slot.nlinks = replayLinks c ino slot.isDir
    · rw [if_pos hsame] at hok
      have h := ih hok hdeferred hrest fun e he => hl e (List.mem_cons_of_mem _ he)
      have hkeep : relinked c ino slot = slot := by
        rw [relinked, ← hsame]
      refine h.cons hino hslot rfl rfl fun x => ?_
      split_ifs with hx
      · rw [hx, hslot, hkeep]
      · rfl
    · rw [if_neg hsame, bind_of_ok (rfl : Call.read r = (.ok r, r))] at hok
      rw [BrieFS.readInode, hread, hslot] at hok
      obtain ⟨⟨⟩, u, hwrite, hok⟩ := bind_eq_ok hok
      have hnumber : slot.inodeNumber = ino := by
        rcases hnumber with rfl | hnumber
        · cases hwrite
        · exact hnumber
      unfold writeInode at hwrite
      rw [hnumber, hread] at hwrite
      split at hwrite
      · cases hwrite
      rename_i blk i hloc
      split at hwrite
      · cases hwrite
      rename_i slots hblk
      obtain rfl := (Prod.mk.inj hwrite).2
      have hupdate := slotIn_update hloc hblk (relinked c ino slot)
      have hrelinked : { slot with
          inodeNumber := ino
          nlinks := replayLinks c ino slot.isDir } = relinked c ino slot := by
        rw [relinked, ← hnumber]
      change patchLinks env c rest { r with fs := { r.fs with table := { r.fs.table with
        device := Function.update r.fs.table.device blk (some (Function.update slots i
          { slot with
            inodeNumber := ino
            nlinks := replayLinks c ino slot.isDir })) } } } = _ at hok
      rw [hrelinked] at hok
      have h := ih hok hdeferred hrest fun e he => by
        have hne : e.1 ≠ ino := fun heq => hino (heq ▸ List.mem_map_of_mem he)
        obtain ⟨slot', hslot', hrest'⟩ := hl e (List.mem_cons_of_mem _ he)
        exact ⟨slot', ((hupdate e.1).trans (if_neg hne)).trans hslot', hrest'⟩
      exact h.cons hino hslot rfl rfl hupdate

end Patch

section Agreement

variable {g : Geometry} {d d' : Disk} {c : Census} {ino : ℕ} {slot : Inode}

theorem visits_congr (h : d'.blocks = d.blocks) (root : Ref) :
    visits g d' root = visits g d root := by
  have hrun := (reads_visitsFrom .skip walkFuel (.start root)).agree
    (h ▸ serves_opened g d') (serves_opened g d)
  rw [visits, visits, hrun]

theorem entriesAt_congr (h : d'.blocks = d.blocks) (root : Ref) :
    entriesAt g d' root = entriesAt g d root := by
  rw [entriesAt, entriesAt, visits_congr h]

theorem Readable.of_blocks {root : Ref} (h : Readable g d root) (hblocks : d'.blocks = d.blocks) :
    Readable g d' root := by
  have hrun := (reads_walkTrieFrom noteVisitor walkFuel (.start root) ()).agree
    (hblocks ▸ serves_opened g d') (serves_opened g d)
  refine ⟨(visits_congr (g := g) hblocks root).symm ▸ h.ends, ?_⟩
  have htrusted := h.trusted
  unfold walkFails walkTrie at htrusted ⊢
  rw [hrun]
  exact htrusted

theorem accept_eq (ino : ℕ) (slot : Inode) :
    accept ino slot =
      if slot.magic = magicInode ∧ slot.inodeNumber = ino ∧ extentFault slot = none ∧
        slot.filemode ≠ 0 then some slot else none := by
  unfold accept verifyInode
  by_cases hmagic : slot.magic = magicInode
  · by_cases hnumber : slot.inodeNumber = ino
    · cases hfault : extentFault slot with
      | some msg => simp [hmagic, hnumber, magicInode]
      | none => by_cases hmode : slot.filemode = 0 <;> simp [hmagic, hnumber, hmode, magicInode]
    · simp [hmagic, hnumber, magicInode]
  · have hfalse : ¬ (slot.magic = magicInode ∧ slot.inodeNumber = ino ∧ extentFault slot = none ∧
        slot.filemode ≠ 0) := fun h => hmagic h.1
    rw [if_neg hfalse]
    by_cases hzero : slot.magic = 0 <;>
      simp only [hzero, hmagic, if_true, if_false, ne_eq, not_false_eq_true]

theorem accept_relinked (c : Census) (ino : ℕ) (slot : Inode) :
    accept ino (relinked c ino slot) = (accept ino slot).map (relinked c ino) := by
  rw [accept_eq, accept_eq, apply_ite (Option.map (relinked c ino))]
  rfl

theorem accept_eq_some {slot inode : Inode} (h : accept ino slot = some inode) :
    inode = slot ∧ slot.inodeNumber = ino := by
  rw [accept_eq] at h
  split_ifs at h with hfine
  exact ⟨(Option.some.inj h).symm, hfine.2.1⟩

/-- An image on which fsck and a replay count alike: fsck accepts every inode in use that
is not an empty slot, every entry it finds in a directory is one, names an inode and has the
type of that inode, and no count leaves the 32 bits of a link count. -/
structure Countable (g : Geometry) (d : Disk) : Prop where
  slots : ∀ ino slot, used g d ino = some slot →
    slot = .zero ∨ verifyInode ino slot = .ok (some slot)
  plain : ∀ ino di, used g d ino = some di → di.isDir →
    ∀ vs, visits g d di.dirTrieRoot = some vs → ∀ v ∈ vs, Plain v
  named : ∀ e ∈ dirEntries g d (List.range' 1 d.inodePool.blockCount), e.inode ≠ 0
  typed : ∀ e ∈ dirEntries g d (List.range' 1 d.inodePool.blockCount),
    (e.ftype = ftypeOf modeDir ↔ (used g d e.inode).any Inode.isDir)
  links : ∀ ino, (dirEntries g d (List.range' 1 d.inodePool.blockCount)).countP
    (·.inode = ino) < 2 ^ 32
  subdirs : ∀ ino, 2 + (dirEntries g d (List.range' 1 d.inodePool.blockCount)).countP
    (fun e => e.parent = ino ∧ e.ftype = ftypeOf modeDir) < 2 ^ 32

theorem mem_range_of_used (h : used g d ino = some slot) :
    ino ∈ List.range' 1 d.inodePool.blockCount := by
  unfold used at h
  split_ifs at h with halloc
  have hpos : ino ≠ 0 := by
    rintro rfl
    cases h
  simp only [Pyramid.isAllocated, Bool.and_eq_true, decide_eq_true_eq] at halloc
  rw [List.mem_range'_1]
  omega

theorem isAllocated_of_used (h : used g d ino = some slot) :
    d.inodePool.isAllocated (ino - 1) = true := by
  unfold used at h
  split_ifs at h with halloc
  exact halloc

theorem Countable.accept (h : Countable g d) (hused : used g d ino = some slot)
    (hdir : slot.isDir) : accept ino slot = some slot := by
  rcases h.slots ino slot hused with rfl | hverify
  · cases hdir
  · rw [Fsck.accept, hverify]

/-- The image after the pass: only link counts differ. -/
structure Relinked (g : Geometry) (c : Census) (d d' : Disk) : Prop where
  blocks : d'.blocks = d.blocks
  inodePool : d'.inodePool = d.inodePool
  used : ∀ ino, used g d' ino = (used g d ino).map (relinked c ino)

theorem Relinked.accepted (h : Relinked g c d d') (ino : ℕ) :
    accepted g d' ino = (accepted g d ino).map (relinked c ino) := by
  rw [Fsck.accepted, Fsck.accepted, h.used]
  cases Fsck.used g d ino with
  | none => rfl
  | some slot => exact accept_relinked c ino slot

/-- A replay leaves the image with the counts it made. -/
theorem relinked_of_replay {env : Env} {t : Session}
    (hok : replayReconcileNlinks env (startSession (opened env.geometry d)) = (.ok (), t))
    (hread : ∀ ino di, used env.geometry d ino = some di → di.isDir →
      Readable env.geometry d di.dirTrieRoot) (hd : Countable env.geometry d) :
    ∃ c, Tallied env.geometry d (List.range' 1 d.inodePool.blockCount) c ∧
      Relinked env.geometry c d (crash t.fs) := by
  set r := startSession (opened env.geometry d) with hr
  have hrests : RestsOn env d r := ⟨rfl, rfl, rfl⟩
  have htallied := tallied_foldl (g := env.geometry) (d := d)
    (List.range' 1 d.inodePool.blockCount) fun ino di hused hdir e he => ?_
  swap
  · have hmem : Fsck.named ino e ∈ dirEntries env.geometry d
        (List.range' 1 d.inodePool.blockCount) := by
      refine List.mem_flatMap.mpr ⟨ino, mem_range_of_used hused, ?_⟩
      simp only [hused, hdir, if_true]
      exact List.mem_map_of_mem he
    exact hd.named _ hmem
  have hcensus := census_eq hrests hread (List.range' 1 d.inodePool.blockCount)
    { links := fun _ => 0, subdirs := fun _ => 0, state := [] }
  unfold replayReconcileNlinks at hok
  rw [bind_of_ok (rfl : Call.read r = (.ok r, r))] at hok
  change (census env (List.range' 1 d.inodePool.blockCount) _ >>= _) r = _ at hok
  rw [bind_of_ok hcensus] at hok
  set c := (List.range' 1 d.inodePool.blockCount).foldl (tally env.geometry d)
    { links := fun _ => 0, subdirs := fun _ => 0, state := [] }
  have hkeys : c.state.map Prod.fst = (List.range' 1 d.inodePool.blockCount).filterMap
      fun ino => (used env.geometry d ino).map fun _ => ino := by
    rw [htallied.state, List.map_filterMap]
    simp [Option.map_map, Function.comp_def]
  have hnodup : (c.state.map Prod.fst).Nodup := by
    rw [hkeys]
    refine List.Nodup.filterMap (fun x y z hx hy => ?_) (List.nodup_range' 1)
    obtain ⟨_, _, rfl⟩ := Option.map_eq_some_iff.mp hx
    obtain ⟨_, _, rfl⟩ := Option.map_eq_some_iff.mp hy
    rfl
  have hmem : ∀ ino, ino ∈ c.state.map Prod.fst ↔ (used env.geometry d ino).isSome := by
    intro ino
    rw [hkeys, List.mem_filterMap]
    constructor
    · rintro ⟨x, -, hx⟩
      obtain ⟨_, hused, rfl⟩ := Option.map_eq_some_iff.mp hx
      rw [hused]
      rfl
    · intro hsome
      obtain ⟨slot, hused⟩ := Option.isSome_iff_exists.mp hsome
      exact ⟨ino, mem_range_of_used hused, by rw [hused]; rfl⟩
  have hpatched := patched_patchLinks hok (fun _ => rfl) hnodup fun e he => by
    rw [htallied.state] at he
    obtain ⟨ino, -, he⟩ := List.mem_filterMap.mp he
    obtain ⟨slot, hused, rfl⟩ := Option.map_eq_some_iff.mp he
    have hslot := hused
    rw [used, if_pos (isAllocated_of_used hused)] at hslot
    refine ⟨slot, hslot, rfl, (hd.slots ino slot hused).imp_right fun hverify => ?_⟩
    have haccept : accept ino slot = some slot := by rw [accept, hverify]
    exact (accept_eq_some haccept).2
  refine ⟨c, htallied, ?_, hpatched.inodePool, fun ino => ?_⟩
  · change t.fs.store.blocks.device = d.blocks
    rw [hpatched.store]
    rfl
  · have hslots := hpatched.slots ino
    simp only [hmem ino] at hslots
    change slotIn env.geometry (crash t.fs).table ino = _ at hslots
    have hpool : (crash t.fs).inodePool = d.inodePool := hpatched.inodePool
    by_cases halloc : d.inodePool.isAllocated (ino - 1) = true
    · have hleft : used env.geometry (crash t.fs) ino =
          slotIn env.geometry (crash t.fs).table ino := by
        rw [used, hpool, if_pos halloc]
      have hright : used env.geometry d ino = slotIn env.geometry r.fs.table.device ino := by
        rw [used, if_pos halloc]
        rfl
      rw [hleft, hslots, hright]
      cases slotIn env.geometry r.fs.table.device ino <;> rfl
    · rw [used, used, hpool, if_neg halloc, if_neg halloc]
      rfl

theorem visits_zero (g : Geometry) (d : Disk) : visits g d 0 = some [] := rfl

theorem Relinked.accepted_dir (h : Relinked g c d d') {inode : Inode}
    (haccepted : Fsck.accepted g d' ino = some inode) :
    ∃ slot, Fsck.used g d ino = some slot ∧ inode = relinked c ino slot := by
  rw [h.accepted] at haccepted
  obtain ⟨kept, hkept, rfl⟩ := Option.map_eq_some_iff.mp haccepted
  obtain ⟨slot, hused, haccept⟩ := Option.bind_eq_some_iff.mp hkept
  exact ⟨slot, hused, by rw [(accept_eq_some haccept).1]⟩

/-- The entries fsck finds are the ones a replay counts. -/
theorem Relinked.entries_eq (h : Relinked g c d d') (hd : Countable g d) (inos : List ℕ) :
    ((inos.filterMap fun ino => (Fsck.accepted g d' ino).bind (trieOf ino)).flatMap fun dir =>
      (entriesAt g d' dir.2).map (Fsck.named dir.1)) = dirEntries g d inos := by
  induction inos with
  | nil => rfl
  | cons ino inos ih =>
    have hfirst : (((Fsck.accepted g d' ino).bind (trieOf ino)).toList.flatMap fun dir =>
        (entriesAt g d' dir.2).map (Fsck.named dir.1)) = dirEntries g d [ino] := by
      rw [h.accepted, Fsck.accepted, dirEntries, List.flatMap_singleton]
      cases hused : Fsck.used g d ino with
      | none => rfl
      | some slot =>
        dsimp only
        by_cases hdir : slot.isDir = true
        · rw [if_pos hdir, Option.bind_some, hd.accept hused hdir, Option.map_some,
            Option.bind_some, trieOf]
          have hdir' : (relinked c ino slot).isDir = true := hdir
          by_cases hroot : slot.dirTrieRoot = 0
          · rw [if_neg fun hand => hand.2 hroot, hroot, entriesAt, visits_zero]
            rfl
          · rw [if_pos ⟨hdir', hroot⟩]
            simp only [Option.toList_some, List.flatMap_singleton, entriesAt_congr h.blocks]
            rfl
        · rw [if_neg hdir]
          have hnone : ((Fsck.accept ino slot).map (relinked c ino)).bind (trieOf ino) =
              none := by
            cases haccept : Fsck.accept ino slot with
            | none => rfl
            | some inode =>
              obtain rfl := (accept_eq_some haccept).1
              exact if_neg fun hand => hdir hand.1
          rw [Option.bind_some, hnone]
          rfl
    have hcons : dirEntries g d (ino :: inos) = dirEntries g d [ino] ++ dirEntries g d inos := by
      simp [dirEntries]
    rw [hcons, ← hfirst, ← ih]
    cases hdir : (Fsck.accepted g d' ino).bind (trieOf ino) with
    | none => simp [hdir]
    | some dir => simp [hdir]

theorem dirEntries_range' {n : ℕ} (hn : d.inodePool.blockCount ≤ n) :
    dirEntries g d (List.range' 1 n) =
      dirEntries g d (List.range' 1 d.inodePool.blockCount) := by
  obtain ⟨m, rfl⟩ := Nat.exists_eq_add_of_le hn
  have hbeyond : dirEntries g d (List.range' (1 + d.inodePool.blockCount) m) = [] := by
    refine List.flatMap_eq_nil_iff.mpr fun ino hino => ?_
    cases hused : used g d ino with
    | none => rfl
    | some slot =>
      have hmem := List.mem_range'_1.mp (mem_range_of_used hused)
      have := List.mem_range'_1.mp hino
      omega
  rw [← List.range'_append_1, dirEntries, List.flatMap_append]
  exact (congrArg _ hbeyond).trans (List.append_nil _)

theorem forall_used {P : ℕ → Inode → Prop}
    (h : ∀ ino ∈ List.range' 1 d.inodePool.blockCount, ∀ slot ∈ used g d ino, P ino slot)
    (ino : ℕ) (slot : Inode) (hused : used g d ino = some slot) : P ino slot :=
  h ino (mem_range_of_used hused) slot hused

theorem forall_readable
    (h : ∀ ino ∈ List.range' 1 d.inodePool.blockCount, ∀ di ∈ used g d ino, di.isDir = true →
      (visits g d di.dirTrieRoot).isSome ∧ walkFails g d di.dirTrieRoot = false)
    (ino : ℕ) (di : Inode) (hused : used g d ino = some di) (hdir : di.isDir) :
    Readable g d di.dirTrieRoot :=
  ⟨(forall_used h ino di hused hdir).1, (forall_used h ino di hused hdir).2⟩

def smallLayout : SuperblockLayout where
  inodeTableOffset := 50
  totalBlocks := 208

/-- The one entry of the root directory leads to a directory that was never allocated, as
when the entry was committed and the inode not. -/
def danglingImage : Disk :=
  smallVolume (makeRef 101 0) (.page (pageOfA.putSlot 1
    { byteVal := 97, inode := 2, ftype := 4, nameLen := 3, nameOffset := 3 })) (fun _ => .zero) 0xFE

def reconciled (d : Disk) : Except Err Unit × Session :=
  replayReconcileNlinks smallEnv (startSession (opened smallEnv.geometry d))

theorem reconciled_ok {d : Disk} (h : (reconciled d).1 = .ok ()) :
    replayReconcileNlinks smallEnv (startSession (opened smallEnv.geometry d)) =
      (.ok (), (reconciled d).2) :=
  Prod.ext h rfl

/-- A root directory and a file `a` with a link count of nine. -/
def overlinkedImage : Disk :=
  smallVolume (makeRef 101 0) (.page pageOfA)
    (fun i => if i = 1 then
        { Inode.newInode 2 (modeFile + 0o644) ⟨1, 0⟩ with nlinks := 9, generation := 22 }
      else .zero) 0xFC

theorem countable_overlinkedImage : Countable smallEnv.geometry overlinkedImage where
  slots := forall_used (by decide)
  plain := by
    have h : ∀ ino ∈ List.range' 1 overlinkedImage.inodePool.blockCount,
        ∀ di ∈ used smallEnv.geometry overlinkedImage ino, di.isDir = true →
          ∀ vs ∈ visits smallEnv.geometry overlinkedImage di.dirTrieRoot, ∀ v ∈ vs, Plain v := by
      decide +kernel
    exact forall_used h
  named := by decide +kernel
  typed := by decide +kernel
  links ino := List.countP_le_length.trans_lt (by decide +kernel)
  subdirs ino := (Nat.add_le_add_left List.countP_le_length 2).trans_lt (by decide +kernel)

def rescanned (d : Disk) : State × List TrieEntry :=
  scan smallLayout smallEnv.geometry (crash (reconciled d).2.fs) true

end Agreement

end Briefs.Fsck
