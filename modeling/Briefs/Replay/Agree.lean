import Briefs.Dir.Quiet
import Briefs.Replay.Mount

/-!
# Replays that do not see some inodes

Two devices that differ only in the table slots of the inodes in `K` are replayed the
same way, slot for slot, as long as no record of the log changes a directory or a
symlink of `K`: snapshots of inodes in `K` may be applied on one device and skipped on
the other, but they stay in those slots.
-/

namespace Briefs.Replay

open Lib Lib.Call Journal Trie Dir

variable {env : Env} {K : ℕ → Prop}

/-- During a replay: the same in everything but the slots of `K`. -/
structure Agree (env : Env) (K : ℕ → Prop) (a b : BrieFS) : Prop where
  store : a.store = b.store
  inodeAlloc : a.inodeAlloc = b.inodeAlloc
  inodePool : a.inodePool = b.inodePool
  calmLeft : a.table.Calm
  calmRight : b.table.Calm
  device : mask env.geometry K a.table.device = mask env.geometry K b.table.device
  view : mask env.geometry K a.table.view = mask env.geometry K b.table.view

theorem Agree.symm {a b : BrieFS} (h : Agree env K a b) : Agree env K b a where
  store := h.store.symm
  inodeAlloc := h.inodeAlloc.symm
  inodePool := h.inodePool.symm
  calmLeft := h.calmRight
  calmRight := h.calmLeft
  device := h.device.symm
  view := h.view.symm

section Settle

variable (b : BrieFS) (before : Store)

theorem table_settle (h : b.table.Calm) : (b.settle before).table = b.table := by
  unfold BrieFS.settle
  dsimp only
  split_ifs
  · rfl
  · rfl
  · exact h.drain_eq
  · exact h.drain_eq

theorem inodeAlloc_settle :
    (b.settle before).inodeAlloc =
      if b.store.tape.commits = before.tape.commits then b.inodeAlloc else b.inodeAlloc.synced := by
  unfold BrieFS.settle
  dsimp only
  split_ifs <;> rfl

theorem inodePool_settle :
    (b.settle before).inodePool =
      if b.store.tape.commits = before.tape.commits then b.inodePool
      else b.inodeAlloc.syncPool b.inodePool := by
  unfold BrieFS.settle
  dsimp only
  split_ifs <;> rfl

end Settle

theorem store_execStore (a : BrieFS) (c : Trie.Cmd) :
    (a.execStore env c).2.store = (Store.exec env.geometry c a.store).2 :=
  BrieFS.store_settle _ _

theorem table_execStore {a : BrieFS} (h : a.table.Calm) (c : Trie.Cmd) :
    (a.execStore env c).2.table = a.table :=
  table_settle _ _ h

theorem bitmap_execStore (a : BrieFS) (c : Trie.Cmd) :
    (a.execStore env c).2.inodeAlloc.bitmap = a.inodeAlloc.bitmap := by
  have h : (a.execStore env c).2.inodeAlloc = _ := inodeAlloc_settle _ _
  rw [h]
  split_ifs <;> rfl

theorem Agree.execStore {a b : BrieFS} (h : Agree env K a b) (c : Trie.Cmd) :
    (a.execStore env c).1 = (b.execStore env c).1 ∧
      Agree env K (a.execStore env c).2 (b.execStore env c).2 := by
  have hret : (a.execStore env c).1 = (b.execStore env c).1 := by
    change (Store.exec env.geometry c a.store).1 = (Store.exec env.geometry c b.store).1
    rw [h.store]
  refine ⟨hret, ?_⟩
  constructor
  · rw [store_execStore, store_execStore, h.store]
  · have ha : (a.execStore env c).2.inodeAlloc = _ := inodeAlloc_settle _ _
    have hb : (b.execStore env c).2.inodeAlloc = _ := inodeAlloc_settle _ _
    rw [ha, hb, h.store, h.inodeAlloc]
  · have ha : (a.execStore env c).2.inodePool = _ := inodePool_settle _ _
    have hb : (b.execStore env c).2.inodePool = _ := inodePool_settle _ _
    rw [ha, hb, h.store, h.inodeAlloc, h.inodePool]
  · rw [table_execStore h.calmLeft]
    exact h.calmLeft
  · rw [table_execStore h.calmRight]
    exact h.calmRight
  · rw [table_execStore h.calmLeft, table_execStore h.calmRight]
    exact h.device
  · rw [table_execStore h.calmLeft, table_execStore h.calmRight]
    exact h.view

/-- A trie call runs on the store alone. -/
theorem run_trie {α : Type} (p : Trie.Prog α) (b : BrieFS) :
    (trie p).run (BrieFS.exec env) b = p.run (fun c b => b.execStore env c) b :=
  Program.run_embed p b

/-- Sessions of two replays that agree outside `K`. -/
structure SameReplay (env : Env) (K : ℕ → Prop) (r r' : Session) : Prop where
  fs : Agree env K r.fs r'.fs
  xattrFinal : r.xattrFinal = r'.xattrFinal
  xattrNext : r.xattrNext = r'.xattrNext
  xattrLive : r.xattrLive = r'.xattrLive
  trieSeeded : r.trieSeeded = r'.trieSeeded
  replayParents : r.replayParents = r'.replayParents
  pristine : ∀ ino, ¬ K ino → r.replayParentsPristine ino = r'.replayParentsPristine ino

theorem SameReplay.symm {r r' : Session} (h : SameReplay env K r r') : SameReplay env K r' r where
  fs := h.fs.symm
  xattrFinal := h.xattrFinal.symm
  xattrNext := h.xattrNext.symm
  xattrLive := h.xattrLive.symm
  trieSeeded := h.trieSeeded.symm
  replayParents := h.replayParents.symm
  pristine := fun ino hino => (h.pristine ino hino).symm

theorem SameReplay.withFs {r r' : Session} (h : SameReplay env K r r') {a b : BrieFS}
    (hfs : Agree env K a b) : SameReplay env K { r with fs := a } { r' with fs := b } :=
  { h with fs := hfs }

theorem blind_runTrie {α : Type} (p : Trie.Prog α) : Blind (SameReplay env K) (runTrie env p) := by
  intro r r' h
  have hstep : ∀ c a b, Agree env K a b → _ := fun c a b hab => Agree.execStore hab c
  have hrun := Program.run_related hstep p h.fs
  rw [← run_trie, ← run_trie] at hrun
  exact ⟨hrun.1, h.withFs hrun.2, fun _ _ => trivial⟩

section Slots

variable {a b : BrieFS} {ino : ℕ} {inode : Inode}

theorem isSome_slotIn_of_mask {f f' : ℕ → Option TableBlock} {g : Geometry}
    (h : mask g K f = mask g K f') : (slotIn g f ino).isSome = (slotIn g f' ino).isSome := by
  unfold slotIn
  split
  · rfl
  · simpa using isSome_of_mask h _

theorem Agree.loadSlot (h : Agree env K a b) :
    Agree env K (a.loadSlot env ino) (b.loadSlot env ino) := by
  unfold BrieFS.loadSlot
  split
  · exact h
  · rename_i blk _ _
    have hsome := isSome_of_mask h.view blk
    rw [hsome]
    split_ifs
    · refine ⟨h.store, h.inodeAlloc, h.inodePool, h.calmLeft.load blk, h.calmRight.load blk,
        h.device, ?_⟩
      rw [Layered.Calm.view_load, Layered.Calm.view_load]
      exact h.view
    · exact h

theorem Agree.save {blk : ℕ} {v v' : Option TableBlock} (h : Agree env K a b)
    (hmask : mask env.geometry K (Function.update a.table.view blk v) =
      mask env.geometry K (Function.update b.table.view blk v')) :
    Agree env K { a with table := a.table.save blk v } { b with table := b.table.save blk v' } := by
  refine ⟨h.store, h.inodeAlloc, h.inodePool, h.calmLeft.save blk v, h.calmRight.save blk v',
    h.device, ?_⟩
  rw [Layered.Calm.view_save, Layered.Calm.view_save]
  exact hmask

theorem Agree.saveSlot (h : Agree env K a b) :
    (a.saveSlot env ino inode).1 = (b.saveSlot env ino inode).1 ∧
      Agree env K (a.saveSlot env ino inode).2 (b.saveSlot env ino inode).2 := by
  unfold BrieFS.saveSlot
  split
  · exact ⟨rfl, h⟩
  · rename_i blk i _
    have hsome := isSome_of_mask h.view blk
    cases ha : a.table.view blk with
    | none =>
      have hb : b.table.view blk = none := by simpa [ha] using hsome.symm
      simp only [hb]
      exact ⟨trivial, h⟩
    | some slots =>
      obtain ⟨slots', hb⟩ : ∃ slots', b.table.view blk = some slots' :=
        Option.isSome_iff_exists.mp (by simpa [ha] using hsome.symm)
      simp only [hb]
      exact ⟨trivial, h.save (mask_update_same inode h.view ha hb)⟩

/-- A slot of `K` may be saved on one side only. -/
theorem Agree.saveSlot_hidden (h : Agree env K a b) (hK : K ino) :
    Agree env K (a.saveSlot env ino inode).2 b := by
  unfold BrieFS.saveSlot
  split
  · exact h
  · rename_i blk i hloc
    cases ha : a.table.view blk with
    | none => exact h
    | some slots =>
      refine ⟨h.store, h.inodeAlloc, h.inodePool, h.calmLeft.save blk _, h.calmRight, h.device, ?_⟩
      rw [Layered.Calm.view_save, mask_update_hidden inode ⟨ino, hK, hloc⟩ ha]
      exact h.view

theorem saveSlot_fst (h : (slotIn env.geometry a.table.view ino).isSome) :
    (a.saveSlot env ino inode).1 = .ok () := by
  unfold slotIn at h
  unfold BrieFS.saveSlot
  cases hloc : inodeLocation env.geometry ino with
  | none => simp [hloc] at h
  | some loc =>
    obtain ⟨slots, hslots⟩ : ∃ slots, a.table.view loc.1 = some slots := by
      simpa [hloc, Option.isSome_iff_exists] using h
    simp [hslots]

end Slots

section Records

variable {ino : ℕ} {r r' : Session}

theorem blind_updateFs {f : BrieFS → BrieFS}
    (h : ∀ a b, Agree env K a b → Agree env K (f a) (f b)) :
    Blind (SameReplay env K) (updateFs f) :=
  .update fun r r' hr => hr.withFs (h r.fs r'.fs hr.fs)

theorem blind_updateInodeAlloc (f : Alloc.Allocator → Alloc.Allocator) :
    Blind (SameReplay env K) (updateInodeAlloc f) :=
  blind_updateFs fun _ _ h => { h with inodeAlloc := congrArg f h.inodeAlloc }

theorem blind_updateStore (f : Store → Store) :
    Blind (SameReplay env K) (updateFs fun b => { b with store := f b.store }) :=
  blind_updateFs fun _ _ h => { h with store := congrArg f h.store }

theorem blind_updateDataAlloc (f : Alloc.Allocator → Alloc.Allocator) :
    Blind (SameReplay env K) (updateDataAlloc f) :=
  blind_updateStore fun s => { s with dataAlloc := f s.dataAlloc }

theorem blind_loadSlot (hino : ¬ K ino) : Blind (SameReplay env K) (loadSlot env ino) := by
  intro r r' h
  refine ⟨?_, h.withFs h.fs.loadSlot, fun _ _ => trivial⟩
  change BrieFS.slotOr (slotIn env.geometry r.fs.table.view ino) =
    BrieFS.slotOr (slotIn env.geometry r'.fs.table.view ino)
  rw [slotIn_of_mask h.fs.view hino]

theorem blind_storeSlot (inode : Inode) : Blind (SameReplay env K) (storeSlot env ino inode) :=
  fun _ _ h => ⟨h.fs.saveSlot.1, h.withFs h.fs.saveSlot.2, fun _ _ => trivial⟩

theorem blind_replayParent (hino : ¬ K ino) : Blind (SameReplay env K) (replayParent env ino) := by
  refine .read_bind fun r r' h => ⟨?_, by simp only [h.replayParents, h.pristine ino hino]⟩
  have hkeep : ∀ slot : Inode, Blind (SameReplay env K) (if slot.magic ≠ magicInode then pure none
      else do
        update fun r => { r with replayParents := Function.update r.replayParents ino (some slot) }
        return some slot) := by
    intro slot
    refine .ite .pure (.bind (.update fun r r' h => ?_) fun _ => .pure)
    exact { h with replayParents := by rw [h.replayParents] }
  split
  · exact .pure
  · split
    · exact hkeep _
    · exact .bind (blind_loadSlot hino) hkeep

theorem blind_tolerating {α : Type} {e : Errno} {default : α} {x : Call Session α}
    (hx : Blind (SameReplay env K) x) : Blind (SameReplay env K) (tolerating e default x) := by
  refine .bind hx.attempt fun res => ?_
  cases res with
  | ok a => exact .pure
  | error e' => exact .ite .pure .fail

theorem blind_replayDirUpdate {rec : DirUpdate} (hK : ¬ K rec.parentIno) :
    Blind (SameReplay env K) (replayDirUpdate env rec) := by
  refine .bind (blind_replayParent hK) fun parent => ?_
  cases parent with
  | none => exact .pure
  | some di =>
    refine .read_bind fun r r' h => ⟨?_, by rw [h.trieSeeded]⟩
    refine .bind (.when ?_) fun _ => ?_
    · refine .bind (.update fun r r' h => ?_) fun _ => blind_runTrie _
      exact { h with trieSeeded := by rw [h.trieSeeded] }
    · refine .ite (.bind (blind_tolerating (blind_runTrie _)) fun root => ?_)
        (.bind (blind_tolerating (blind_runTrie _)) fun root => ?_)
      all_goals
        refine .bind (.update fun r r' h => ?_) fun _ => blind_storeSlot _
        exact { h with replayParents := by rw [h.replayParents] }

/-- Remembering the slot of an inode outside `K`, or any slots of one in `K`. -/
theorem SameReplay.keepPristine {slot slot' : Inode}
    (h : SameReplay env K r r') (hslot : K ino ∨ slot = slot') :
    SameReplay env K (keepPristine ino slot r) (keepPristine ino slot' r') := by
  have hpristine : ∀ n, ¬ K n →
      (Replay.keepPristine ino slot r).replayParentsPristine n =
        (Replay.keepPristine ino slot' r').replayParentsPristine n := by
    intro n hn
    have hold := h.pristine n hn
    unfold Replay.keepPristine
    by_cases hino : n = ino
    · subst hino
      obtain rfl := hslot.resolve_left hn
      rw [h.replayParents, hold]
      split_ifs
      · simp only [Function.update_self]
      · exact hold
    · split_ifs <;> simpa [Function.update_of_ne hino] using hold
  have hfields : ∀ (slot : Inode) (r : Session), ∃ p, Replay.keepPristine ino slot r =
      { r with replayParentsPristine := p } := by
    intro slot r
    unfold Replay.keepPristine
    split_ifs
    · exact ⟨_, rfl⟩
    · exact ⟨_, rfl⟩
  obtain ⟨p, hp⟩ := hfields slot r
  obtain ⟨p', hp'⟩ := hfields slot' r'
  rw [hp, hp'] at hpristine ⊢
  exact { h with pristine := hpristine }

/-- A slot of `K` may be stored on one side only. -/
theorem SameReplay.storeSlot_hidden (h : SameReplay env K r r') (hK : K ino)
    (c : Prop) [Decidable c] (inode : Inode) :
    SameReplay env K (Call.when c (storeSlot env ino inode) r).2 r' := by
  unfold Call.when
  split_ifs
  · exact h.withFs (h.fs.saveSlot_hidden hK)
  · exact h

theorem when_storeSlot_fst {r : Session} {c : Prop} [Decidable c] {inode : Inode}
    (h : (slotIn env.geometry r.fs.table.view ino).isSome) :
    (Call.when c (storeSlot env ino inode) r).1 = .ok () := by
  unfold Call.when
  split_ifs
  · exact saveSlot_fst h
  · rfl

theorem view_loadSlot (b : BrieFS) : (b.loadSlot env ino).table.view = b.table.view := by
  unfold BrieFS.loadSlot
  split
  · rfl
  · split_ifs
    · exact Layered.Calm.view_load _
    · rfl

/-- A record that may store into a slot of `K` after reading it, or not. -/
theorem blind_patch_hidden (hK : K ino) {keep : Inode → Session → Session} {c : Inode → Prop}
    [DecidablePred c] {f : Inode → Inode}
    (hkeep : ∀ slot slot' r r', SameReplay env K r r' → SameReplay env K (keep slot r) (keep slot' r'))
    (hfs : ∀ slot r, (keep slot r).fs = r.fs) :
    Blind (SameReplay env K) (do
      let slot ← loadSlot env ino
      update (keep slot)
      when (c slot) (storeSlot env ino (f slot))) := by
  intro r r' h
  have hsome : (slotIn env.geometry r.fs.table.view ino).isSome =
    (slotIn env.geometry r'.fs.table.view ino).isSome := isSome_slotIn_of_mask h.fs.view
  have hfs' : Agree env K (r.fs.loadSlot env ino) (r'.fs.loadSlot env ino) := h.fs.loadSlot
  have hload := h.withFs hfs'
  have hmissing : ∀ r : Session, slotIn env.geometry r.fs.table.view ino = none → (do
      let slot ← loadSlot env ino
      update (keep slot)
      when (c slot) (storeSlot env ino (f slot)) : Call Session Unit) r =
      (.error (.errno .eio), { r with fs := r.fs.loadSlot env ino }) := by
    intro r hslot
    simp [bind_run, loadSlot, BrieFS.readInodeCached, hslot, BrieFS.slotOr]
  have hfound : ∀ (r : Session) slot, slotIn env.geometry r.fs.table.view ino = some slot → (do
      let slot ← loadSlot env ino
      update (keep slot)
      when (c slot) (storeSlot env ino (f slot)) : Call Session Unit) r =
      when (c slot) (storeSlot env ino (f slot))
        (keep slot { r with fs := r.fs.loadSlot env ino }) := by
    intro r slot hslot
    simp [bind_run, loadSlot, BrieFS.readInodeCached, hslot, BrieFS.slotOr, update]
  cases hl : slotIn env.geometry r.fs.table.view ino with
  | none =>
    have hr : slotIn env.geometry r'.fs.table.view ino = none := by simpa [hl] using hsome.symm
    rw [hmissing r hl, hmissing r' hr]
    exact ⟨rfl, hload, by simp⟩
  | some slot =>
    obtain ⟨slot', hr⟩ : ∃ slot', slotIn env.geometry r'.fs.table.view ino = some slot' :=
      Option.isSome_iff_exists.mp (by simpa [hl] using hsome.symm)
    rw [hfound r slot hl, hfound r' slot' hr]
    have hkept := hkeep slot slot' _ _ hload
    have hl' : (slotIn env.geometry (keep slot { r with fs := r.fs.loadSlot env ino }).fs.table.view
        ino).isSome := by simp [hfs, view_loadSlot, hl]
    have hr' : (slotIn env.geometry (keep slot' { r' with fs := r'.fs.loadSlot env ino }).fs.table.view
        ino).isSome := by simp [hfs, view_loadSlot, hr]
    refine ⟨?_, ?_, fun _ _ => trivial⟩
    · rw [when_storeSlot_fst hl', when_storeSlot_fst hr']
    · have hleft := hkept.storeSlot_hidden hK (c slot) (f slot)
      exact (hleft.symm.storeSlot_hidden hK (c slot') (f slot')).symm

theorem blind_replayInodeFull (snapshot : Inode) :
    Blind (SameReplay env K) (replayInodeFull env ino snapshot) := by
  by_cases hino : K ino
  · refine blind_patch_hidden hino (fun _ _ _ _ h => h.keepPristine (.inl hino)) fun slot r => ?_
    unfold keepPristine
    split_ifs <;> rfl
  · refine .bind (blind_loadSlot hino) fun slot => ?_
    exact .bind (.update fun r r' h => h.keepPristine (.inr rfl)) fun _ => .when (blind_storeSlot _)

theorem blind_replayInodeUpdate (rec : InodeUpdate) :
    Blind (SameReplay env K) (replayInodeUpdate env rec) := by
  by_cases hino : K rec.ino
  · exact blind_patch_hidden hino (fun _ _ _ _ h => h) fun _ _ => rfl
  · exact .bind (blind_loadSlot hino) fun slot => .when (blind_storeSlot _)

theorem blind_replaySymlinkData (hino : ¬ K ino) (phys : ℕ) (target : Bytes) :
    Blind (SameReplay env K) (replaySymlinkData env ino phys target) := by
  refine .when (.bind (blind_loadSlot hino).attempt fun res => ?_)
  cases res with
  | error e => exact .pure
  | ok slot => exact .when (blind_runTrie _)

theorem blind_replayXattrData (physBlk : ℕ) (data : Bytes) :
    Blind (SameReplay env K) (replayXattrData env physBlk data) :=
  .read_bind fun _ _ h => ⟨.when (blind_runTrie _), by simp only [h.xattrLive]⟩

theorem blind_replayTrieAlloc (block op : ℕ) (collect : Bool) :
    Blind (SameReplay env K) (replayTrieAlloc env block op collect) := by
  have hcollect : Blind (SameReplay env K) _ := blind_updateStore fun s =>
    { s with replayTrieBlocks := s.replayTrieBlocks ++ [env.geometry.rel block] }
  exact .ite (.bind (blind_updateDataAlloc _) fun _ => .when hcollect) (blind_updateDataAlloc _)

/-- A record that changes no directory and no symlink of `K`. -/
def Spares (K : ℕ → Prop) : Record → Prop
  | .dirUpdate rec => ¬ K rec.parentIno
  | .symlinkData ino .. => ¬ K ino
  | _ => True

theorem blind_applyRecord (reserveOnly : Bool) {rec : Record} (h : Spares K rec) :
    Blind (SameReplay env K) (applyRecord env reserveOnly rec) := by
  cases rec with
  | dirUpdate rec => exact .ite .pure (blind_replayDirUpdate h)
  | inodeAlloc => exact .when (blind_updateInodeAlloc _)
  | inodeFree => exact .when (blind_updateInodeAlloc _)
  | inodeUpdate rec => exact .ite .pure (blind_replayInodeUpdate rec)
  | extentAlloc => exact blind_updateDataAlloc _
  | extentFree => exact blind_updateDataAlloc _
  | trieAlloc block op => exact blind_replayTrieAlloc block op reserveOnly
  | inodeFull ino snapshot =>
    refine .ite (.update fun r r' h => ?_) (blind_replayInodeFull snapshot)
    exact { h with xattrFinal := by rw [h.xattrFinal] }
  | symlinkData ino phys target => exact .ite .pure (blind_replaySymlinkData h phys target)
  | xattrData ino physBlk data =>
    refine .ite (.when ?_) (blind_replayXattrData physBlk data)
    refine .bind (blind_updateDataAlloc _) fun _ => .update fun r r' h => ?_
    exact { h with xattrNext := by rw [h.xattrNext] }
  | triePage => exact .fail
  | checkpoint => exact .pure

theorem blind_applyRecords (reserveOnly : Bool) {recs : List Record}
    (h : ∀ rec ∈ recs, Spares K rec) : Blind (SameReplay env K) (applyRecords env reserveOnly recs) := by
  induction recs with
  | nil => exact .pure
  | cons rec rest ih =>
    have hrest := ih fun rec' hrec => h rec' (List.mem_cons_of_mem _ hrec)
    refine .bind (blind_applyRecord reserveOnly (h rec List.mem_cons_self)).attempt fun res => ?_
    cases res with
    | ok _ => exact hrest
    | error e => exact .ite hrest .fail

/-- The records a walk of these ring blocks may come to. -/
def recordsOf (blocks : List (ℕ × RingBlock)) : List Record :=
  blocks.flatMap fun block =>
    match block.2 with
    | .foreign => []
    | .records rs => rs

theorem blind_walkJournal (reserveOnly : Bool) {blocks : List (ℕ × RingBlock)}
    (h : ∀ rec ∈ recordsOf blocks, Spares K rec) :
    Blind (SameReplay env K) (walkJournal env reserveOnly blocks) := by
  induction blocks with
  | nil => exact .pure
  | cons block rest ih =>
    obtain ⟨cur, content⟩ := block
    have hrest := ih fun rec hrec => h rec (by
      rw [recordsOf, List.flatMap_cons]
      exact List.mem_append_right _ hrec)
    refine .ite .fail ?_
    cases content with
    | foreign => exact .pure
    | records rs =>
      refine .bind (.when (blind_applyRecords reserveOnly fun rec hrec => h rec ?_)) fun _ => hrest
      rw [recordsOf, List.flatMap_cons]
      exact List.mem_append_left _ hrec

theorem SameReplay.buildXattrLiveSet (h : SameReplay env K r r') :
    SameReplay env K (buildXattrLiveSet r) (buildXattrLiveSet r') := by
  refine { h with xattrLive := ?_ }
  simp only [Replay.buildXattrLiveSet, h.xattrFinal, h.xattrNext]

end Records

end Briefs.Replay
