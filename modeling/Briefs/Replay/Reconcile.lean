import Briefs.Replay.Agree

/-!
# The end of a replay, and the tree it leaves

The third pass reads the slots of allocated inodes only. So if no inode of `K` is
allocated then, two devices that differ in the slots of `K` still differ in nothing
else when the replay has ended, and a path that meets no inode of `K` leads to the same
place on both.
-/

namespace Briefs.Replay

open Lib Lib.Call Alloc Journal Trie Dir

variable {env : Env} {K : ℕ → Prop} {a b : BrieFS}

/-- After the second pass: the tables are on the device, and `bits` is the inode bitmap. -/
structure Rested (env : Env) (K : ℕ → Prop) (bits : Pyramid) (a b : BrieFS) : Prop
    extends Agree env K a b where
  stillLeft : a.table.Still
  stillRight : b.table.Still
  bitmap : a.inodeAlloc.bitmap = bits

variable {bits : Pyramid}

theorem Rested.execStore (h : Rested env K bits a b) (c : Trie.Cmd) :
    (a.execStore env c).1 = (b.execStore env c).1 ∧
      Rested env K bits (a.execStore env c).2 (b.execStore env c).2 := by
  obtain ⟨hret, hagree⟩ := h.toAgree.execStore c
  refine ⟨hret, hagree, ?_, ?_, (bitmap_execStore a c).trans h.bitmap⟩
  · rw [table_execStore h.calmLeft]
    exact h.stillLeft
  · rw [table_execStore h.calmRight]
    exact h.stillRight

theorem Rested.readInode (h : Rested env K bits a b) {ino : ℕ} (hino : ¬ K ino) :
    a.readInode env ino = b.readInode env ino := by
  unfold BrieFS.readInode
  rw [h.calmLeft.read_eq, h.calmRight.read_eq, slotIn_of_mask h.device hino]

/-- The sessions of the third pass. -/
def RestedReplay (env : Env) (K : ℕ → Prop) (bits : Pyramid) (r r' : Session) : Prop :=
  Rested env K bits r.fs r'.fs

theorem rested_runTrie {α : Type} (p : Trie.Prog α) :
    Blind (RestedReplay env K bits) (runTrie env p) := by
  intro r r' h
  have hstep : ∀ c a b, Rested env K bits a b → _ := fun c a b hab => Rested.execStore hab c
  have hrun := Program.run_related hstep p h
  rw [← run_trie, ← run_trie] at hrun
  exact ⟨hrun.1, hrun.2, fun _ _ => trivial⟩

theorem Rested.withDevice {d d' : ℕ → Option TableBlock} (h : Rested env K bits a b)
    (hmask : mask env.geometry K d = mask env.geometry K d') :
    Rested env K bits { a with table := { a.table with device := d } }
      { b with table := { b.table with device := d' } } := by
  have hleft : ({ a.table with device := d } : Layered ℕ _).Still := ⟨h.stillLeft.1, h.stillLeft.2⟩
  have hright : ({ b.table with device := d' } : Layered ℕ _).Still :=
    ⟨h.stillRight.1, h.stillRight.2⟩
  refine ⟨⟨h.store, h.inodeAlloc, h.inodePool, hleft.calm, hright.calm, hmask, ?_⟩, hleft, hright,
    h.bitmap⟩
  rw [hleft.view_eq, hright.view_eq]
  exact hmask

/-- `WriteInode` puts the same slot on both devices. -/
theorem rested_writeInode (inode : Inode) :
    Blind (RestedReplay env K bits) (writeInode env inode) := by
  intro r r' h
  unfold writeInode
  split
  · exact ⟨rfl, h, fun _ _ => trivial⟩
  · rename_i blk i _
    rw [h.calmLeft.read_eq, h.calmRight.read_eq]
    have hsome := isSome_of_mask h.device blk
    cases hl : r.fs.table.device blk with
    | none =>
      have hr : r'.fs.table.device blk = none := by simpa [hl] using hsome.symm
      simp only [hr]
      exact ⟨trivial, h, fun _ _ => trivial⟩
    | some slots =>
      obtain ⟨slots', hr⟩ : ∃ slots', r'.fs.table.device blk = some slots' :=
        Option.isSome_iff_exists.mp (by simpa [hl] using hsome.symm)
      simp only [hr]
      exact ⟨trivial, h.withDevice (mask_update_same inode h.device hl hr), fun _ _ => trivial⟩

theorem state_countEntries (allocated : ℕ → Bool) (ino : ℕ) (entries : List (ℕ × ℕ)) (c : Census) :
    (entries.foldl (countEntries allocated ino) c).state = c.state := by
  induction entries generalizing c with
  | nil => rfl
  | cons entry rest ih => exact (ih _).trans rfl

section Pass

variable (hfree : ∀ n, K n → bits.isAllocated (n - 1) = false)

include hfree in
/-- The census looks at no inode of `K`. -/
theorem rested_census (inos : List ℕ) {c : Census} (hc : ∀ e ∈ c.state, ¬ K e.1) :
    Related (RestedReplay env K bits) (census env inos c) fun c => ∀ e ∈ c.state, ¬ K e.1 := by
  induction inos generalizing c with
  | nil => exact .pure hc
  | cons ino rest ih =>
    refine .read_bind fun r r' h => ?_
    have halloc : r'.fs.inodeAlloc = r.fs.inodeAlloc := h.inodeAlloc.symm
    by_cases hino : K ino
    · have hbit : r.fs.inodeAlloc.allocated (ino - 1) = false := by
        rw [Allocator.allocated, h.bitmap]
        exact hfree ino hino
      simp only [halloc, hbit]
      exact ⟨ih hc, rfl⟩
    · refine ⟨.ite (fun _ => ?_) fun _ => ih hc, by simp only [halloc, h.readInode hino]⟩
      split
      · exact ih hc
      · rename_i di _
        have hstate : ∀ e ∈ c.state ++ [(ino, di.isDir, di.nlinks)], ¬ K e.1 := by
          intro e he
          rcases List.mem_append.mp he with he | he
          · exact hc e he
          · rw [List.mem_singleton.mp he]
            exact hino
        refine .ite (fun _ => .bind (rested_runTrie _) fun entries _ => ih ?_) fun _ => ih hstate
        rw [state_countEntries]
        exact hstate

theorem rested_patchLinks (c : Census) {inodes : List (ℕ × Bool × ℕ)}
    (h : ∀ e ∈ inodes, ¬ K e.1) : Blind (RestedReplay env K bits) (patchLinks env c inodes) := by
  induction inodes with
  | nil => exact .pure
  | cons e rest ih =>
    have hrest := ih fun e' he => h e' (List.mem_cons_of_mem _ he)
    obtain ⟨ino, isDir, nlinks⟩ := e
    have hino : ¬ K ino := h _ List.mem_cons_self
    refine .ite hrest (.read_bind fun r r' hr => ⟨?_, by simp only [hr.readInode hino]⟩)
    split
    · exact hrest
    · exact .bind (rested_writeInode _) fun _ => hrest

include hfree in
theorem rested_reconcile : Blind (RestedReplay env K bits) (replayReconcileNlinks env) := by
  refine .read_bind fun r r' h => ⟨?_, by simp only [h.inodeAlloc]⟩
  exact Related.bind (rested_census hfree _ (by simp)) fun c hc => rested_patchLinks c hc

end Pass

theorem Agree.flushCache {a b : BrieFS} (h : Agree env K a b) :
    Rested env K a.inodeAlloc.bitmap (flushCache a) (flushCache b) := by
  have hleft := h.calmLeft.still_flush
  have hright := h.calmRight.still_flush
  have hdevice : mask env.geometry K a.table.flush.device =
      mask env.geometry K b.table.flush.device := by
    rw [h.calmLeft.device_flush, h.calmRight.device_flush]
    exact h.view
  refine ⟨⟨?_, h.inodeAlloc, h.inodePool, hleft.calm, hright.calm, hdevice, ?_⟩, hleft, hright, rfl⟩
  · change { a.store with blocks := a.store.blocks.flush } =
      { b.store with blocks := b.store.blocks.flush }
    rw [h.store]
  · change mask _ _ a.table.flush.view = mask _ _ b.table.flush.view
    rw [hleft.view_eq, hright.view_eq]
    exact hdevice

theorem Agree.flushed {r r' : Session} (h : Agree env K r.fs r'.fs) :
    RestedReplay env K r.fs.inodeAlloc.bitmap { r with fs := Replay.flushCache r.fs }
      { r' with fs := Replay.flushCache r'.fs } :=
  h.flushCache

theorem Rested.finish {a b : BrieFS} (h : Rested env K bits a b) :
    Rested env K bits (finish a) (finish b) where
  store := by simp only [Replay.finish, h.store]
  inodeAlloc := by simp only [Replay.finish, h.inodeAlloc]
  inodePool := by simp only [Replay.finish, h.inodeAlloc, h.inodePool]
  calmLeft := h.calmLeft
  calmRight := h.calmRight
  device := h.device
  view := h.view
  stillLeft := h.stillLeft
  stillRight := h.stillRight
  bitmap := h.bitmap

/-- Replays of two devices that differ in the slots of `K` end alike. -/
theorem replayPasses_agree {blocks : List (ℕ × RingBlock)} {r r' t : Session}
    (h : SameReplay env K r r') (hspares : ∀ rec ∈ recordsOf blocks, Spares K rec)
    (hok : replayPasses env blocks r = (.ok (), t))
    (hfree : ∀ n, K n → t.fs.inodeAlloc.allocated (n - 1) = false) :
    ∃ t' bits, replayPasses env blocks r' = (.ok (), t') ∧ Rested env K bits t.fs t'.fs := by
  unfold replayPasses at hok ⊢
  obtain ⟨⟨⟩, u₁, h₁, hok₁⟩ := bind_eq_ok hok
  obtain ⟨u₁', h₁', hu₁⟩ := (blind_walkJournal true hspares).context.of_ok h h₁
  rw [bind_of_ok h₁']
  obtain ⟨⟨⟩, v₁, hv₁, hok₂⟩ := bind_eq_ok hok₁
  cases hv₁
  rw [bind_of_ok (rfl : update buildXattrLiveSet u₁' = _)]
  obtain ⟨⟨⟩, u₂, h₂, hok₃⟩ := bind_eq_ok hok₂
  obtain ⟨u₂', h₂', hu₂⟩ :=
    (blind_walkJournal false hspares).context.of_ok hu₁.buildXattrLiveSet h₂
  rw [bind_of_ok h₂']
  obtain ⟨⟨⟩, v₂, hv₂, hok₄⟩ := bind_eq_ok hok₃
  cases hv₂
  rw [bind_of_ok (rfl : updateFs flushCache u₂' = _)]
  obtain ⟨⟨⟩, u₃, h₃, hok₅⟩ := bind_eq_ok hok₄
  cases hok₅
  -- the pass compared with itself, to see that it keeps the inode bitmap
  have hself : Agree env (fun _ => False) u₂.fs u₂.fs :=
    ⟨rfl, rfl, rfl, hu₂.fs.calmLeft, hu₂.fs.calmLeft, rfl, rfl⟩
  obtain ⟨_, -, hkept⟩ := (rested_reconcile (fun n hn => hn.elim)).context.of_ok hself.flushed h₃
  have hbits : ∀ n, K n → u₂.fs.inodeAlloc.bitmap.isAllocated (n - 1) = false := by
    intro n hn
    rw [← hkept.bitmap]
    exact hfree n hn
  obtain ⟨u₃', h₃', hu₃⟩ := (rested_reconcile hbits).context.of_ok hu₂.fs.flushed h₃
  rw [bind_of_ok h₃']
  exact ⟨_, _, rfl, hu₃.finish⟩

end Briefs.Replay
