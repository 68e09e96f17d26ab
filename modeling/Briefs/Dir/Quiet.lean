import Briefs.Dir.Rename

/-!
# What reaches the device without a commit

Between two commits an operation changes memory, appends records behind the live
window of the log, and writes the slots of fresh inodes. `Untouched` says this of a
whole run: apart from the slots of the inodes in `K` the device is what it was.
-/

namespace Briefs

open Lib Journal

namespace Trie.Store

/-- `t` is `s` after a call that committed nothing. -/
structure Quiet (s t : Store) : Prop where
  device : t.blocks.device = s.blocks.device
  dataPool : t.dataPool = s.dataPool
  drains : t.drains = s.drains
  tape : t.tape = s.tape ∨ ∃ r, t.tape = s.tape.writeRecord r

theorem tape_retirePools (s : Store) (b : Bool) : (s.retirePools b).tape = s.tape := by
  cases b <;> rfl

theorem sync_of_quiet {s : Store} {ckpt : Bool}
    (h : (s.sync ckpt).tape.commits = s.tape.commits) : s.sync ckpt = s := by
  unfold sync at h ⊢
  split_ifs at h ⊢ with hdirty
  · have hbegin := (s.retirePools (decide s.tape.ring.full)).tape.commits_lt_syncBegin
    have hend := (s.retirePools (decide s.tape.ring.full)).tape.syncBegin.commits_le_syncEnd ckpt
    change ((s.retirePools (decide s.tape.ring.full)).tape.syncBegin.syncEnd ckpt).commits = _ at h
    rw [tape_retirePools] at hbegin hend h
    omega
  · rfl

theorem quiet_tryAllocBlock (s : Store) : Quiet s s.tryAllocBlock.2 := ⟨rfl, rfl, rfl, .inl rfl⟩

/-- The store after an allocation: at most a sync between two changes of the bitmap. -/
theorem allocBlock_snd (s : Store) :
    s.allocBlock.2 = s.tryAllocBlock.2 ∨
      s.allocBlock.2 = (s.tryAllocBlock.2.sync false).tryAllocBlock.2 := by
  unfold allocBlock
  rcases s.tryAllocBlock with ⟨_ | rel, t⟩
  · by_cases hcount : t.pendingFrees.count = 0
    · left
      simp [reclaimPendingFrees, hcount]
    · right
      simp [reclaimPendingFrees, hcount]
  · exact .inl rfl

theorem quiet_allocBlock (s : Store) (h : s.allocBlock.2.tape.commits = s.tape.commits) :
    Quiet s s.allocBlock.2 := by
  rcases s.allocBlock_snd with heq | heq
  · rw [heq]
    exact s.quiet_tryAllocBlock
  · rw [heq] at h ⊢
    have hsync : s.tryAllocBlock.2.sync false = s.tryAllocBlock.2 := sync_of_quiet h
    rw [hsync]
    exact ⟨rfl, rfl, rfl, .inl rfl⟩

theorem quiet_writeRecord (s : Store) (r : Record)
    (h : (s.writeRecord r).tape.commits = s.tape.commits) : Quiet s (s.writeRecord r) := by
  unfold writeRecord at h ⊢
  split_ifs at h ⊢ with hreplay
  · exact ⟨rfl, rfl, rfl, .inl rfl⟩
  · have htape : ((s.retirePools (s.tape.retires r)).tape.writeRecord r).commits =
        s.tape.commits := h
    rw [tape_retirePools] at htape
    -- a retire would have counted as a commit
    have hstays : s.tape.retires r = false := by
      by_contra hne
      have hret : s.tape.retires r = true := by simpa using hne
      simp only [Tape.retires, Bool.and_eq_true, decide_eq_true_eq] at hret
      simp [Tape.writeRecord, hret.1, hret.2, Tape.append, Tape.retire, Tape.flush] at htape
    rw [hstays]
    exact ⟨rfl, rfl, rfl, .inr ⟨r, rfl⟩⟩

theorem exec_quiet (g : Geometry) (c : Cmd) (s : Store)
    (h : (exec g c s).2.tape.commits = s.tape.commits) : Quiet s (exec g c s).2 := by
  cases c with
  | loadBlock block =>
    change Quiet s (s.loadBlock block).2
    unfold loadBlock
    split <;> exact ⟨rfl, rfl, rfl, .inl rfl⟩
  | allocBlock => exact s.quiet_allocBlock h
  | writeRecord r => exact s.quiet_writeRecord r h
  | popReplayBlock =>
    change Quiet s s.popReplayBlock.2
    unfold popReplayBlock
    split_ifs <;> exact ⟨rfl, rfl, rfl, .inl rfl⟩
  | readBlock => exact ⟨rfl, rfl, rfl, .inl rfl⟩
  | saveBlock => exact ⟨rfl, rfl, rfl, .inl rfl⟩
  | cacheDrop => exact ⟨rfl, rfl, rfl, .inl rfl⟩
  | freeBlock => exact ⟨rfl, rfl, rfl, .inl rfl⟩
  | deferBlockFreeRun => exact ⟨rfl, rfl, rfl, .inl rfl⟩
  | partials => exact ⟨rfl, rfl, rfl, .inl rfl⟩
  | setPartials => exact ⟨rfl, rfl, rfl, .inl rfl⟩

end Trie.Store

namespace Dir

open Trie

section Mask

variable (g : Geometry) (K : ℕ → Prop)

/-- The table slot `i` of block `blk` belongs to an inode of `K`. -/
def Hidden (blk i : ℕ) : Prop := ∃ n, K n ∧ inodeLocation g n = some (blk, i)

open Classical in
/-- The table with the slots of `K` blanked out. -/
noncomputable def mask (blocks : ℕ → Option TableBlock) (blk : ℕ) : Option TableBlock :=
  (blocks blk).map fun slots i => if Hidden g K blk i then .zero else slots i

variable {g K} {f f' : ℕ → Option TableBlock}

theorem inodeLocation_inj {n m : ℕ} {loc : ℕ × ℕ} (hn : inodeLocation g n = some loc)
    (hm : inodeLocation g m = some loc) : n = m := by
  unfold inodeLocation at hn hm
  split_ifs at hn hm with hn0 hm0
  have hloc := Option.some.inj (hn.trans hm.symm)
  simp only [Prod.mk.injEq] at hloc
  have hn' := Nat.div_add_mod (n - 1) g.inodesPerBlock
  have hm' := Nat.div_add_mod (m - 1) g.inodesPerBlock
  rw [hloc.1, hloc.2] at hn'
  omega

theorem isSome_of_mask (h : mask g K f = mask g K f') (blk : ℕ) :
    (f blk).isSome = (f' blk).isSome := by
  have hblk := congrArg Option.isSome (congrFun h blk)
  simpa [mask] using hblk

theorem slot_of_mask (h : mask g K f = mask g K f') {blk i : ℕ} (hi : ¬ Hidden g K blk i) :
    (f blk).map (· i) = (f' blk).map (· i) := by
  have hblk := congrArg (Option.map (· i)) (congrFun h blk)
  simpa [mask, hi, Option.map_map, Function.comp_def] using hblk

/-- Tables that agree outside `K` hold the same inode in every slot outside `K`. -/
theorem slotIn_of_mask (h : mask g K f = mask g K f') {ino : ℕ} (hino : ¬ K ino) :
    slotIn g f ino = slotIn g f' ino := by
  unfold slotIn
  cases hloc : inodeLocation g ino with
  | none => rfl
  | some loc =>
    apply slot_of_mask h
    rintro ⟨n, hn, hnloc⟩
    exact hino (inodeLocation_inj hnloc hloc ▸ hn)

theorem mask_update_hidden {blk i : ℕ} {slots : TableBlock} (inode : Inode)
    (hi : Hidden g K blk i) (hblk : f blk = some slots) :
    mask g K (Function.update f blk (some (Function.update slots i inode))) = mask g K f := by
  funext b
  by_cases hb : b = blk
  · subst hb
    simp only [mask, Function.update_self, hblk, Option.map_some, Option.some.injEq]
    funext j
    by_cases hj : j = i
    · simp [hj, hi]
    · simp [Function.update_of_ne hj]
  · simp [mask, Function.update_of_ne hb]

theorem mask_update_same {blk i : ℕ} {slots slots' : TableBlock} (inode : Inode)
    (h : mask g K f = mask g K f') (hblk : f blk = some slots) (hblk' : f' blk = some slots') :
    mask g K (Function.update f blk (some (Function.update slots i inode))) =
      mask g K (Function.update f' blk (some (Function.update slots' i inode))) := by
  funext b
  by_cases hb : b = blk
  · subst hb
    have hslots := congrFun h b
    simp only [mask, hblk, hblk', Option.map_some, Option.some.injEq] at hslots
    simp only [mask, Function.update_self, Option.map_some, Option.some.injEq]
    funext j
    by_cases hj : j = i
    · simp [hj]
    · simpa [Function.update_of_ne hj] using congrFun hslots j
  · simpa [mask, Function.update_of_ne hb] using congrFun h b

end Mask

variable {env : Env} {K : ℕ → Prop} {a u v : BrieFS}

/-- Of the device only the slots of `K` and the log outside the live window differ. -/
structure Untouched (env : Env) (K : ℕ → Prop) (a u : BrieFS) : Prop where
  blocks : u.store.blocks.device = a.store.blocks.device
  dataPool : u.store.dataPool = a.store.dataPool
  inodePool : u.inodePool = a.inodePool
  ring : u.ring = a.ring
  table : mask env.geometry K u.table.device = mask env.geometry K a.table.device
  tape : a.store.tape.Since u.store.tape

theorem Untouched.frame (h : Untouched env K a u)
    (hblocks : v.store.blocks.device = u.store.blocks.device)
    (hdata : v.store.dataPool = u.store.dataPool) (hinode : v.inodePool = u.inodePool)
    (hring : v.ring = u.ring) (htable : v.table.device = u.table.device)
    (htape : v.store.tape = u.store.tape) : Untouched env K a v where
  blocks := hblocks.trans h.blocks
  dataPool := hdata.trans h.dataPool
  inodePool := hinode.trans h.inodePool
  ring := hring.trans h.ring
  table := htable ▸ h.table
  tape := htape ▸ h.tape

theorem BrieFS.store_settle (b : BrieFS) (before : Store) : (b.settle before).store = b.store := by
  unfold BrieFS.settle
  dsimp only
  split_ifs <;> rfl

theorem BrieFS.settle_quiet {b : BrieFS} {before : Store} (hdrains : b.store.drains = before.drains)
    (hcommits : b.store.tape.commits = before.tape.commits) : b.settle before = b := by
  unfold BrieFS.settle
  rw [if_pos hdrains, if_pos hcommits]

theorem Untouched.execStore (h : Untouched env K a u) (hb : a.store.tape.ring.Bounded)
    (c : Trie.Cmd)
    (hquiet : (u.execStore env c).2.store.tape.commits = u.store.tape.commits) :
    Untouched env K a (u.execStore env c).2 := by
  have hstore : (u.execStore env c).2.store = (Store.exec env.geometry c u.store).2 :=
    BrieFS.store_settle _ _
  rw [hstore] at hquiet
  have hq := Store.exec_quiet env.geometry c u.store hquiet
  have heq : (u.execStore env c).2 = { u with store := (Store.exec env.geometry c u.store).2 } :=
    BrieFS.settle_quiet hq.drains hquiet
  rw [heq]
  refine ⟨hq.device.trans h.blocks, hq.dataPool.trans h.dataPool, h.inodePool, h.ring, h.table, ?_⟩
  rcases hq.tape with htape | ⟨r, htape⟩
  · rw [htape]
    exact h.tape
  · rw [htape] at hquiet ⊢
    exact h.tape.writeRecord hb r hquiet

theorem Untouched.writeThrough (h : Untouched env K a u) {inode : Inode}
    (hK : K inode.inodeNumber) :
    Untouched env K a (u.writeThroughFreshInodeSlot env inode).2 := by
  unfold BrieFS.writeThroughFreshInodeSlot
  split
  · exact h
  · rename_i blk i hloc
    refine ⟨h.blocks, h.dataPool, h.inodePool, h.ring, ?_, h.tape⟩
    rw [← h.table]
    change mask _ _ (Function.update u.table.device blk (putInode i inode (u.table.device blk))) = _
    cases hblk : u.table.device blk with
    | none => rw [show putInode i inode none = none from rfl, ← hblk, Function.update_eq_self]
    | some slots => exact mask_update_hidden inode ⟨_, hK, hloc⟩ hblk

/-- One command: without a commit it keeps the device, apart from the slot it writes through. -/
theorem Untouched.step (h : Untouched env K a u) (hb : a.store.tape.ring.Bounded) (c : Cmd)
    (hquiet : (BrieFS.exec env c u).2.store.tape.commits = u.store.tape.commits)
    (hK : ∀ inode, c = .writeThroughFreshInodeSlot inode → K inode.inodeNumber) :
    Untouched env K a (BrieFS.exec env c u).2 := by
  cases c with
  | store c => exact h.execStore hb c hquiet
  | writeThroughFreshInodeSlot inode => exact h.writeThrough (hK inode rfl)
  | readInodeCached ino =>
    change Untouched env K a (u.loadSlot env ino)
    unfold BrieFS.loadSlot
    split
    · exact h
    · split_ifs
      · exact h.frame rfl rfl rfl rfl rfl rfl
      · exact h
  | writeInodeCached inode =>
    change Untouched env K a (u.saveSlot env inode.inodeNumber inode).2
    unfold BrieFS.saveSlot
    split
    · exact h
    · split
      · exact h
      · exact h.frame rfl rfl rfl rfl rfl rfl
  | zeroInodeCached ino =>
    change Untouched env K a (u.saveSlot env ino .zero).2
    unfold BrieFS.saveSlot
    split
    · exact h
    · split
      · exact h
      · exact h.frame rfl rfl rfl rfl rfl rfl
  | readInode => exact h
  | frozen => exact h
  | allocInodeBit => exact h.frame rfl rfl rfl rfl rfl rfl
  | freeInodeBit => exact h.frame rfl rfl rfl rfl rfl rfl
  | cacheBegin => exact h.frame rfl rfl rfl rfl rfl rfl
  | mergeCache => exact h.frame rfl rfl rfl rfl rfl rfl
  | cacheAbort => exact h.frame rfl rfl rfl rfl rfl rfl
  | setUnwrittenRes => exact h.frame rfl rfl rfl rfl rfl rfl
  | nowTime => exact h.frame rfl rfl rfl rfl rfl rfl
  | rand => exact h.frame rfl rfl rfl rfl rfl rfl
  | walkIndex => exact h.frame rfl rfl rfl rfl rfl rfl
  | aclMode => exact h.frame rfl rfl rfl rfl rfl rfl

end Dir

end Briefs
