import Briefs.File.Write

/-!
# Truncation

`truncateLocked`: a file that shrinks gives up the blocks behind its new end and zeroes
what is left of its last block; a file that grows zeroes the tail of its old last block.
-/

namespace Briefs.File

open Lib Alloc Btree
open Bridge (BlockRun RunAccum)
open Dir (inodeFlagIndexed)

section Calls

variable (env : Env)

/-- The inode of a file with its bytes in the inode, cut to `newSize`. -/
def shrinkInline (i : Inode) (newSize : ℕ) : Inode :=
  if newSize = 0 then
    setInlineData { i with flags := bitClear i.flags inodeFlagInlineData } zeroBlock
  else setInlineData i (clearRange (inlineData i) newSize i.fileSize)

def truncateDown (i : Inode) (newSize : ℕ) : Call FS Unit :=
  if isInlineData i then do
    -- the region has 256 bytes
    Call.when (newSize ≠ 0 ∧ inlineDataMax < i.fileSize) (Call.fail .crash)
    commitInodeMetadata (resized env (shrinkInline i newSize) newSize)
  else do
    let tree ← collect i
    let cut := freeExtentRange tree.exts (blocksFor newSize) (2 ^ 64 - 1)
    Call.when (newSize % blockSize ≠ 0 ∧ 0 < newSize) (zeroEofTailBlock cut.1 newSize)
    commitRebuiltExtents env (resized env i newSize) tree cut.1 cut.2

/-- What a file that grows does to its inode before the size is set. -/
def extendInline (i : Inode) (newSize : ℕ) : Call FS Inode :=
  if isInlineData i ∧ inlineDataMax < newSize then orRollback (promoteInlineData env i)
  else if isInlineData i ∧ i.fileSize < newSize then
    pure (setInlineData i (clearRange (inlineData i) i.fileSize newSize))
  else pure i

/-- Zero the tail of the last block. -/
def zeroOldTail (i : Inode) : Call FS Unit := do
  let tree ← collect i
  zeroEofTailBlock tree.exts i.fileSize

def truncateUp (i : Inode) (newSize : ℕ) : Call FS Unit := do
  Call.when (i.fileSize % blockSize ≠ 0 ∧ 0 < i.fileSize ∧ ¬isInlineData i) (zeroOldTail i)
  let j ← extendInline env i newSize
  let s ← Call.read
  if 0 < s.allocated.count then commitExtentChange env (resized env j newSize) [] []
  else commitInodeMetadata (resized env j newSize)

def truncateOpened (i : Inode) (newSize : ℕ) : Call FS Unit :=
  if newSize < i.fileSize then truncateDown env i newSize else truncateUp env i newSize

def truncateLocked (i : Inode) (newSize : ℕ) : Call FS Unit := do
  Call.when (maxFileSize < newSize) (Call.fail (.errno .efbig))
  Call.when (userFlagsImmutable env i) (Call.fail (.errno .eperm))
  Call.when (userFlagsAppendOnly env i ∧ newSize < i.fileSize) (Call.fail (.errno .eperm))
  if newSize = i.fileSize then pure ()
  else do
    let i ← removePrivs env i
    resetAllocated
    truncateOpened env i newSize

def truncateInode (ino newSize : ℕ) : Call FS Unit := do
  let s ← Call.read
  Call.when (s.readOnly ∨ s.shutdown) (Call.fail (.errno .erofs))
  truncateLocked env (s.inodes ino) newSize

end Calls

variable {env : Env} {s t u : FS} {i i' j : Inode} {exts exts' newExts : List Extent}
  {nodes nodes' new more : List ℕ} {b k p f pos m n ino newSize : ℕ} {r : Unit}
  {M : ℕ → ℕ → Prop} {C : ℕ → Prop}

/-! ### Blocks that move -/

/-- Blocks that keep their device blocks and are put elsewhere in the file, or dropped. -/
theorem Proper.moved (h : Proper exts) (hs : Sorted newExts)
    (hmaps : ∀ k' p f, Maps newExts k' p f ↔ ∃ k, M k k' ∧ Maps exts k p f)
    (hM : ∀ k a b, M k a → M k b → a = b) : Proper newExts := by
  refine ⟨hs, fun k' p f hk' => ?_, fun k' p f k'' f' hk' hk'' => ?_, fun k' p f hk' => ?_⟩
  · obtain ⟨k, -, hk⟩ := (hmaps k' p f).mp hk'
    exact h.flags k p f hk
  · obtain ⟨k, hM', hk⟩ := (hmaps k' p f).mp hk'
    obtain ⟨m, hM'', hm⟩ := (hmaps k'' p f').mp hk''
    obtain rfl := h.inj k p f m f' hk hm
    exact hM k k' k'' hM' hM''
  · obtain ⟨k, -, hk⟩ := (hmaps k' p f).mp hk'
    exact h.nonzero k p f hk

/-- A block is lost if its place in the file goes nowhere. -/
theorem Proper.dropped_iff (h : Proper exts) (hk : Maps exts k p f)
    (hmaps : ∀ k' p f, Maps newExts k' p f ↔ ∃ k, M k k' ∧ Maps exts k p f) :
    ¬Mapped newExts p ↔ ¬∃ k', M k k' := by
  refine not_congr ⟨?_, ?_⟩
  · rintro ⟨k', f', hk'⟩
    obtain ⟨m, hM, hm⟩ := (hmaps k' p f').mp hk'
    rw [h.inj k p f m f' hk hm]
    exact ⟨k', hM⟩
  · rintro ⟨k', hM⟩
    exact ⟨k', f, (hmaps k' p f).mpr ⟨k, hM, hk⟩⟩

/-- The block `k` of the file has become its block `k'` where `M k k'`. The blocks that went
nowhere wait for the next sync. -/
structure Moved (env : Env) (s : FS) (ino : ℕ) (t : FS) (M : ℕ → ℕ → Prop) : Prop where
  leads : ∀ k' p f, Leads t (t.inodes ino) k' p f ↔ ∃ k, M k k' ∧ Leads s (s.inodes ino) k p f
  released : ∀ k p f, Leads s (s.inodes ino) k p f → (Pending env t p ↔ ¬∃ k', M k k')
  only : ∀ b, Pending env t b → Pending env s b ∨
    (∃ k f, (¬∃ k', M k k') ∧ Leads s (s.inodes ino) k b f) ∨ IsNode s (s.inodes ino) b

theorem Opened.moved (h : Opened env s ino i u) (hbacked : Backed env u i exts nodes)
    (heffect : Effect env u i t i') (hbacked' : Backed env t i' newExts nodes')
    (hnode : ∀ b, Mapped exts b → b ∉ nodes')
    (hmaps : ∀ k' p f, Maps newExts k' p f ↔ ∃ k, M k k' ∧ Maps exts k p f) :
    Moved env s ino t M := by
  have hself := h.self heffect
  have hold : ∀ k p f, Leads s (s.inodes ino) k p f ↔ Maps exts k p f := fun k p f =>
    h.leads_iff.symm.trans hbacked.leads_iff
  have hreleased : ∀ k p f, Leads s (s.inodes ino) k p f →
      (Pending env t p ↔ ¬∃ k', M k k') := by
    intro k p f hk
    have hmapped := (hold k p f).mp hk
    rw [h.released heffect hk.owned, hbacked'.owned_iff, not_or,
      and_iff_right (hnode p ⟨k, f, hmapped⟩)]
    exact hbacked.proper.dropped_iff hmapped hmaps
  refine ⟨?_, hreleased, ?_⟩
  · intro k' p f
    simp only [hself, hbacked'.leads_iff, hmaps, hold]
  · intro b hb
    rcases h.pending heffect hb with hb' | hown
    · exact .inl hb'
    · rcases owned_cases hown with hnode | ⟨k, f, hk⟩
      · exact .inr (.inr hnode)
      · exact .inr (.inl ⟨k, f, (hreleased k b f hk).mp hb, hk⟩)

/-- Blocks that are freed with a range and go nowhere. -/
theorem Proper.mem_freed (h : Proper exts)
    (hmaps : ∀ k' p f, Maps newExts k' p f ↔ ∃ k, M k k' ∧ Maps exts k p f)
    (hM : ∀ k, (∃ k', M k k') ↔ ¬(m ≤ k ∧ k < n)) :
    b ∈ runBlocks (freeExtentRange exts m n).2 ↔ Mapped exts b ∧ ¬Mapped newExts b := by
  rw [mem_freed_freeExtentRange fun e he => (h.of_mem he).2]
  constructor
  · rintro ⟨k, f, hin, hk⟩
    exact ⟨⟨k, f, hk⟩, (h.dropped_iff hk hmaps).mpr fun hex => (hM k).mp hex hin⟩
  · rintro ⟨⟨k, f, hk⟩, hnot⟩
    rw [h.dropped_iff hk hmaps, hM, not_not] at hnot
    exact ⟨k, f, hnot, hk⟩

/-! ### Ranges of blocks -/

/-- The blocks in `C` go and the others stay where they are. -/
def Stays (C : ℕ → Prop) (k k' : ℕ) : Prop := ¬C k ∧ k' = k

theorem stays_iff : (∃ k', Stays C k k') ↔ ¬C k := by
  simp [Stays]

theorem Stays.maps (hmaps : ∀ k p f, Maps newExts k p f ↔ ¬C k ∧ Maps exts k p f) (k' p f : ℕ) :
    Maps newExts k' p f ↔ ∃ k, Stays C k k' ∧ Maps exts k p f := by
  simp [hmaps, Stays, and_assoc]

theorem Proper.cut (h : Proper exts) (hmn : m ≤ n) : Proper (freeExtentRange exts m n).1 ∧
    (∀ k p f, Maps (freeExtentRange exts m n).1 k p f ↔ ¬(m ≤ k ∧ k < n) ∧ Maps exts k p f) ∧
    ∀ b, b ∈ runBlocks (freeExtentRange exts m n).2 ↔
      Mapped exts b ∧ ¬Mapped (freeExtentRange exts m n).1 b := by
  obtain ⟨hsorted, hmaps⟩ := freeExtentRange_spec h.sorted hmn
  refine ⟨h.moved hsorted (Stays.maps hmaps) ?_, hmaps, fun b => ?_⟩
  · exact fun k a b ha hb => ha.2.trans hb.2.symm
  · exact h.mem_freed (Stays.maps hmaps) fun k => stays_iff

theorem Proper.lost_iff (h : Proper exts) (hk : Maps exts k p f)
    (hmaps : ∀ k p f, Maps newExts k p f ↔ ¬C k ∧ Maps exts k p f) : ¬Mapped newExts p ↔ C k := by
  rw [h.dropped_iff hk (Stays.maps hmaps), stays_iff, not_not]

/-- A change that removes the blocks in `C` from the extents. -/
theorem Opened.cut (h : Opened env s ino i u) (hbacked : Backed env u i exts nodes)
    (heffect : Effect env u i t i') (hbacked' : Backed env t i' newExts nodes')
    (hnode : ∀ b, Mapped exts b → b ∉ nodes')
    (hmaps : ∀ k p f, Maps newExts k p f ↔ ¬C k ∧ Maps exts k p f) : Cut env s ino t C := by
  have hmoved := h.moved hbacked heffect hbacked' hnode (Stays.maps hmaps)
  refine ⟨fun k p f => ?_, fun k p f hk => ?_, fun b hb => ?_⟩
  · rw [hmoved.leads]
    simp [Stays, and_assoc]
  · rw [hmoved.released k p f hk, stays_iff, not_not]
  · simpa only [stays_iff, not_not] using hmoved.only b hb

theorem Opened.cut_inlined (h : Opened env s ino i u) (hin : Inlined i)
    (heffect : Effect env u i t i') (hnone : ∀ b, ¬Owned t i' b) : Cut env s ino t C := by
  have hself := h.self heffect
  have hold : ∀ k p f, ¬Leads s (s.inodes ino) k p f := fun k p f hk =>
    hin.not_owned (h.leads_iff.mpr hk).owned
  refine ⟨fun k p f => ?_, fun k p f hk => absurd hk (hold k p f), fun b hb => ?_⟩
  · rw [hself]
    exact iff_of_false (fun hk => hnone p hk.owned) fun hk => hold k p f hk.2
  · rcases h.pending heffect hb with hb | hown
    · exact .inl hb
    · exact absurd (h.owned_iff.mpr hown) hin.not_owned

/-! ### Shrinking -/

/-- A file cut to nothing gives up the region. -/
theorem shrinkInline_zero (env : Env) (v : FS) (hin : Inlined i) (hneat : Neat i) :
    Backed env v (resized env (shrinkInline i 0) 0) [] [] := by
  obtain ⟨hinline, htotal, hidx⟩ := hneat hin.flag
  have hflags : (resized env (shrinkInline i 0) 0).flags =
      bitClear i.flags inodeFlagInlineData := rfl
  refine ⟨?_, .inline ?_ (by simp) hinline rfl ?_, htotal, proper_nil,
    fun _ _ _ h => absurd h Pieces.at_nil, fun _ _ _ h => absurd h Pieces.at_nil, ?_, ?_⟩
  · rw [isInlineData_iff, hflags, testBit_bitClear,
      show inodeFlagInlineData.testBit 3 = true from rfl, Bool.not_true, Bool.and_false]
    exact Bool.false_ne_true
  · rw [isIndexed_iff] at hidx ⊢
    rw [hflags, testBit_bitClear, show inodeFlagInlineData.testBit 2 = false from rfl,
      Bool.not_false, Bool.and_true]
    exact hidx
  · intro _ j
    have hregion := inlineData_setInlineData { i with
      flags := bitClear i.flags inodeFlagInlineData } zeroBlock j
    exact hregion.trans (ite_self _)
  · rintro b (hb | hb)
    · exact absurd hb List.not_mem_nil
    · exact absurd hb mapped_nil
  · rw [byteAt_nil]
    exact fun _ _ => rfl

theorem shrinkInline_pos (env : Env) (hin : Inlined i) (hlt : newSize < i.fileSize)
    (hpos : newSize ≠ 0) :
    Inlined (resized env (shrinkInline i newSize) newSize) ∧
      inlineData (resized env (shrinkInline i newSize) newSize) =
        fun pos => if pos < newSize then inlineData i pos else 0 := by
  have hshort : i.fileSize ≤ inlineDataMax := hin.short
  have hshrink : shrinkInline i newSize =
      setInlineData i (clearRange (inlineData i) newSize i.fileSize) := if_neg hpos
  have hbytes : inlineData (resized env (shrinkInline i newSize) newSize) = fun pos => if pos < newSize then inlineData i pos else 0 := by
    rw [hshrink]
    funext pos
    refine (inlineData_setInlineData i _ pos).trans ?_
    rw [clearRange]
    by_cases hkeep : pos < newSize
    · rw [if_pos (by omega), if_neg (by omega), if_pos hkeep]
    · rw [if_neg hkeep]
      by_cases hold : pos < i.fileSize
      · rw [if_pos (by omega), if_pos (by omega)]
      · rw [hin.tail pos (by omega), ite_self, ite_self]
  refine ⟨⟨?_, ?_, ?_⟩, hbytes⟩
  · rw [hshrink]
    exact hin.flag
  · exact (hlt.le).trans hshort
  · rw [hbytes]
    intro j hj
    exact if_neg (Nat.not_lt.mpr hj)

/-- The bytes of a file whose blocks behind `newSize` were cut. -/
theorem byteAt_truncated {dev dev' : ℕ → Cell} (hexts : Proper exts) (hnew : Proper newExts)
    (hmaps : ∀ k p f, Maps newExts k p f ↔ ¬blocksFor newSize ≤ k ∧ Maps exts k p f)
    (htail : ∀ pos, byteAt dev' newExts pos =
      if (newSize % blockSize ≠ 0 ∧ 0 < newSize) ∧ newSize ≤ pos ∧
        pos / blockSize = (newSize - 1) / blockSize then 0 else byteAt dev newExts pos) :
    byteAt dev' newExts = fun pos => if pos < newSize then byteAt dev exts pos else 0 := by
  funext pos
  rw [htail]
  by_cases hpos : pos < newSize
  · have hk : ¬blocksFor newSize ≤ pos / blockSize := by
      simp only [blocksFor, blockSize]
      omega
    rw [if_pos hpos, if_neg fun h => by omega]
    refine byteAt_congr hexts hnew rfl (fun p f => ?_) fun _ _ => rfl
    rw [hmaps, and_iff_right hk]
  · rw [if_neg hpos]
    split_ifs with hin
    · rfl
    · refine byteAt_of_gap hnew fun p f hk => ?_
      obtain ⟨hk, -⟩ := (hmaps _ p f).mp hk
      simp only [blocksFor, blockSize] at hk hin
      omega

theorem zeroNewTail_spec (env : Env) (hexts : Proper exts)
    (h : Call.when (newSize % blockSize ≠ 0 ∧ 0 < newSize) (zeroEofTailBlock exts newSize) s =
      (.ok r, u)) :
    Works env s [] (Mapped exts) u ∧ ∀ pos, byteAt u.dev exts pos =
      if (newSize % blockSize ≠ 0 ∧ 0 < newSize) ∧ newSize ≤ pos ∧
        pos / blockSize = (newSize - 1) / blockSize then 0 else byteAt s.dev exts pos := by
  unfold Call.when at h
  split_ifs at h with hcond
  · have hzeroes : ZeroesTail env exts newSize s u := zeroEofTailBlock_spec hexts hcond.1 h
    refine ⟨hzeroes.1, fun pos => (hzeroes.2 pos).trans ?_⟩
    exact if_congr (and_iff_right hcond).symm rfl rfl
  · obtain ⟨-, rfl⟩ := Call.pure_eq_ok h
    exact ⟨Works.refl _ _, fun pos => (if_neg fun hin => hcond hin.1).symm⟩

theorem truncateDown_inline (h : Opened env s ino i u) (hneat : Neat i) (hin : Inlined i)
    (hlt : newSize < i.fileSize)
    (hcommits : Commits env u (resized env (shrinkInline i newSize) newSize) (fun _ => False) t) :
    Outcome env s ino newSize (fun pos => if pos < newSize then inlineData i pos else 0) t ∧
      Cut env s ino t fun k => blocksFor newSize ≤ k := by
  by_cases hzero : newSize = 0
  · subst hzero
    have hbacked := shrinkInline_zero env t hin hneat
    have hnone : ∀ b, ¬Owned t (resized env (shrinkInline i 0) 0) b := by
      intro b hb
      rcases hbacked.owned_iff.mp hb with hb | hb
      · exact List.not_mem_nil hb
      · exact mapped_nil hb
    have heffect := hcommits.effect (Works.refl u (Owned u i))
      (fun b => iff_of_false (hnone b) hin.not_owned) rfl rfl
    have hout := h.outcome_backed heffect hbacked (Nat.zero_le _)
    rw [byteAt_nil] at hout
    exact ⟨hout, h.cut_inlined hin heffect hnone⟩
  · obtain ⟨hin', hbytes⟩ := shrinkInline_pos env hin hlt hzero
    have hshrink : shrinkInline i newSize =
        setInlineData i (clearRange (inlineData i) newSize i.fileSize) := if_neg hzero
    have heffect := hcommits.effect (Works.refl u (Owned u i))
      (fun b => iff_of_false hin'.not_owned hin.not_owned) (by rw [hshrink]; rfl)
      (by rw [hshrink]; rfl)
    have hout := h.outcome heffect ⟨hlt.le.trans h.fileOk.size, .inl hin'⟩ fun _ _ => by
      rw [hshrink]
      exact hneat hin.flag
    rw [hin'.content_eq, hbytes] at hout
    exact ⟨hout, h.cut_inlined hin heffect fun _ => hin'.not_owned⟩

theorem truncateDown_spec (h : Opened env s ino i u) (hneat : Neat (s.inodes ino))
    (hlt : newSize < i.fileSize) (hcall : truncateDown env i newSize u = (.ok r, t)) :
    Outcome env s ino newSize
        (fun pos => if pos < newSize then content s (s.inodes ino) pos else 0) t ∧
      Cut env s ino t fun k => blocksFor newSize ≤ k := by
  have hfile := h.fileOk
  rw [← h.content_eq]
  unfold truncateDown at hcall
  rcases hfile.form with hin | ⟨exts, nodes, hbacked⟩
  · rw [if_pos hin.flag] at hcall
    obtain ⟨⟨⟩, v, hcheck, hcommit⟩ := Call.bind_eq_ok hcall
    obtain ⟨-, rfl⟩ := Call.check_eq_ok hcheck
    rw [hin.content_eq]
    exact truncateDown_inline h (h.neat_iff.mpr hneat) hin hlt (commits_writeInodeOwned hcommit)
  · rw [if_neg hbacked.data] at hcall
    obtain ⟨tree, hcollect, rfl, -, -⟩ := hbacked.collect
    obtain ⟨tree', u₀, hread, hcall⟩ := Call.bind_eq_ok hcall
    obtain ⟨rfl, rfl⟩ := collect_eq_ok hcollect hread
    obtain ⟨⟨⟩, v, hzero, hcall⟩ := Call.bind_eq_ok hcall
    have hmax : newSize ≤ maxFileSize := hlt.le.trans hfile.size
    have hstop : blocksFor newSize ≤ 2 ^ 64 - 1 := by
      have : maxFileSize = 2 ^ 63 - 1 := rfl
      simp only [blocksFor, blockSize]
      omega
    obtain ⟨hproper, hcut, hfreed⟩ := hbacked.proper.cut hstop
    have hmaps : ∀ k p f, Maps (freeExtentRange tree.exts (blocksFor newSize) (2 ^ 64 - 1)).1 k p f ↔
        ¬blocksFor newSize ≤ k ∧ Maps tree.exts k p f := by
      intro k p f
      rw [hcut]
      refine and_congr_left fun hk => not_congr (and_iff_left ?_)
      have hbound := hbacked.bound k p f hk
      have hsmall := env.small
      have hsize : i.fileSize ≤ 2 ^ 63 - 1 := hfile.size
      simp only [blocksFor, blockSize] at hbound
      omega
    have hsub : ∀ b, Mapped (freeExtentRange tree.exts (blocksFor newSize) (2 ^ 64 - 1)).1 b →
        Mapped tree.exts b := by
      rintro b ⟨k, f, hk⟩
      exact ⟨k, f, ((hmaps k b f).mp hk).2⟩
    generalize (freeExtentRange tree.exts (blocksFor newSize) (2 ^ 64 - 1)).1 = newExts at *
    obtain ⟨hworks, hbytes⟩ := zeroNewTail_spec env hproper hzero
    have hover := byteAt_truncated hbacked.proper hproper hmaps hbytes
    have hstaged : Staged env u i tree.exts v (resized env i newSize) newExts [] :=
      { works := hworks.mono hsub
        proper := hproper
        blocks := fun b hb => .inl (hsub b hb)
        used := fun b hb => absurd hb List.not_mem_nil
        number := rfl
        mode := rfl
        flags := rfl
        bound := fun k p f hk => by
          have hlt := ((hmaps k p f).mp hk).1
          change k < blocksFor newSize + env.totalBlocks
          omega
        tail := by
          rw [hover]
          exact fun pos hpos => if_neg (Nat.not_lt.mpr hpos) }
    obtain ⟨i', nodes', heffect, hbacked', hsee, hnode, hre, -⟩ :=
      hstaged.commitRebuilt h.ok.room hbacked hmax hcollect hfreed hcall
    have hsize : i'.fileSize = newSize := by
      rw [hre.rest]
      rfl
    have hout := h.outcome_backed heffect hbacked' (hsize.trans_le hmax)
    rw [hsize, hsee, hover, ← hbacked.content_eq] at hout
    exact ⟨hout, h.cut hbacked heffect hbacked' hnode hmaps⟩


/-! ### Growing -/

/-- Both ways to store the inode of a file that grew. -/
theorem commits_resized
    (h : (if 0 < s.allocated.count then commitExtentChange env j [] []
      else commitInodeMetadata j) s = (.ok r, t)) : Commits env s j (fun _ => False) t := by
  split_ifs at h
  · have hruns : ∀ b ∈ runBlocks [], env.dataRegionStart ≤ b ∧ b < 2 ^ 64 := fun b hb =>
      absurd hb List.not_mem_nil
    obtain ⟨hcommits, -⟩ := commits_commitExtentChange hruns h
    refine { hcommits with pending := fun b => (hcommits.pending b).trans ?_ }
    exact or_congr_right (iff_of_false (fun hb => by simp [runBlocks] at hb) id)
  · exact commits_writeInodeOwned h

/-- The tail of the last block is zero already. -/
theorem Backed.zeroOldTail (h : Backed env s i exts nodes)
    (hcall : Call.when (i.fileSize % blockSize ≠ 0 ∧ 0 < i.fileSize ∧ ¬isInlineData i)
      (zeroOldTail i) s = (.ok r, u)) :
    Works env s [] (Mapped exts) u ∧ byteAt u.dev exts = byteAt s.dev exts := by
  unfold Call.when at hcall
  split_ifs at hcall with hcond
  · obtain ⟨tree, hcollect, rfl, -, -⟩ := h.collect
    obtain ⟨tree', u₀, hread, hzero⟩ := Call.bind_eq_ok hcall
    obtain ⟨rfl, rfl⟩ := collect_eq_ok hcollect hread
    have hzeroes : ZeroesTail env tree.exts i.fileSize s u :=
      zeroEofTailBlock_spec h.proper hcond.1 hzero
    obtain ⟨hworks, hbytes⟩ := hzeroes
    refine ⟨hworks, ?_⟩
    funext pos
    rw [hbytes]
    split_ifs with hin
    · exact (h.tail pos hin.1).symm
    · rfl
  · obtain ⟨-, rfl⟩ := Call.pure_eq_ok hcall
    exact ⟨Works.refl _ _, rfl⟩

/-- An operation that promotes a file and changes nothing but its size. -/
theorem Small.promoted (hin : Small s i) (hroom : Room env s) (hle : i.fileSize ≤ newSize)
    (hpromote : promoteInlineData env i s = (.ok j, u))
    (hcommits : Commits env u (resized env j newSize) (fun _ => False) t) :
    ∃ exts, Effect env s i t (resized env j newSize) ∧
      Backed env t (resized env j newSize) exts [] ∧ byteAt t.dev exts = inlineData i := by
  obtain ⟨exts, hlifted⟩ := hin.lifted hroom hpromote
  have hsize := hlifted.size
  have hbacked := hlifted.backed
  obtain ⟨heffect, hbacked'⟩ := hbacked.inPlace (Works.refl u _) (hsize.trans_le hle)
    (fun pos hpos => hbacked.tail pos (hsize.trans_le (hle.trans hpos))) hcommits
  refine ⟨exts, hlifted.effect t _ heffect fun b hb => ?_, hbacked', ?_⟩
  · exact hbacked'.owned_iff.mpr (.inr hb)
  · rw [hcommits.dev, hlifted.bytes, hin.bytes]

theorem extendInline_inlined (env : Env) (hin : Inlined i) (hle : i.fileSize ≤ newSize)
    (hfit : newSize ≤ inlineDataMax) :
    Inlined (resized env (setInlineData i (clearRange (inlineData i) i.fileSize newSize)) newSize) ∧
      inlineData (resized env (setInlineData i (clearRange (inlineData i) i.fileSize newSize))
        newSize) = inlineData i := by
  have hbytes : inlineData (resized env
      (setInlineData i (clearRange (inlineData i) i.fileSize newSize)) newSize) = inlineData i := by
    funext pos
    refine (inlineData_setInlineData i _ pos).trans ?_
    rw [clearRange]
    by_cases hpos : i.fileSize ≤ pos
    · rw [hin.tail pos hpos, ite_self, ite_self]
    · rw [if_pos (by omega), if_neg fun h => hpos h.1]
  refine ⟨⟨hin.flag, hfit, ?_⟩, hbytes⟩
  rw [hbytes]
  exact fun pos hpos => hin.tail pos (hle.trans hpos)

theorem truncateUp_spec (h : Opened env s ino i u) (hlt : i.fileSize < newSize)
    (hmax : newSize ≤ maxFileSize) (hcall : truncateUp env i newSize u = (.ok r, t)) :
    Outcome env s ino newSize (content s (s.inodes ino)) t ∧
      ∀ b, Pending env t b → Pending env s b := by
  have hfile := h.fileOk
  rw [← h.content_eq]
  obtain ⟨⟨⟩, u₁, htail, hcall⟩ := Call.bind_eq_ok hcall
  obtain ⟨j, u₂, hextend, hcall⟩ := Call.bind_eq_ok hcall
  obtain ⟨s₀, u₃, hread, hcall⟩ := Call.bind_eq_ok hcall
  cases hread
  have hcommits := commits_resized hcall
  have hstay : ∀ i', Effect env u i t i' → (∀ b, Owned u i b → Owned t i' b) →
      ∀ b, Pending env t b → Pending env s b := by
    intro i' heffect hkept b hb
    rcases (heffect.pending b).mp hb with hb | ⟨hb, hnot⟩
    · exact h.calm.pending b hb
    · exact absurd (hkept b hb) hnot
  unfold extendInline at hextend
  rcases hfile.form with hin | ⟨exts, nodes, hbacked⟩
  · rw [Call.when, if_neg fun hcond => hcond.2.2 hin.flag] at htail
    obtain ⟨-, rfl⟩ := Call.pure_eq_ok htail
    rw [hin.content_eq]
    by_cases hbig : inlineDataMax < newSize
    · rw [if_pos ⟨hin.flag, hbig⟩] at hextend
      obtain ⟨exts, heffect, hbacked, hbytes⟩ := hin.small.promoted h.ok.room hlt.le
        (orRollback_eq_ok hextend) hcommits
      have hout := h.outcome_backed heffect hbacked hmax
      rw [hbytes] at hout
      exact ⟨hout, hstay _ heffect fun b hb => absurd hb hin.not_owned⟩
    · rw [if_neg fun hcond => hbig hcond.2, if_pos ⟨hin.flag, hlt⟩] at hextend
      obtain ⟨rfl, rfl⟩ := Call.pure_eq_ok hextend
      obtain ⟨hin', hbytes⟩ := extendInline_inlined env hin hlt.le (Nat.not_lt.mp hbig)
      have heffect := hcommits.effect (Works.refl u (Owned u i))
        (fun b => iff_of_false hin'.not_owned hin.not_owned) rfl rfl
      have hout := h.outcome heffect ⟨hmax, .inl hin'⟩ fun hneat _ => hneat hin.flag
      rw [hin'.content_eq, hbytes] at hout
      exact ⟨hout, hstay _ heffect fun b hb => absurd hb hin.not_owned⟩
  · rw [if_neg fun hcond => hbacked.data hcond.1, if_neg fun hcond => hbacked.data hcond.1] at hextend
    obtain ⟨rfl, rfl⟩ := Call.pure_eq_ok hextend
    obtain ⟨hworks, hbytes⟩ := hbacked.zeroOldTail htail
    obtain ⟨heffect, hbacked'⟩ := hbacked.inPlace hworks hlt.le (fun pos hpos => by
      rw [hbytes]
      exact hbacked.tail pos (hlt.le.trans hpos)) hcommits
    have hout := h.outcome_backed heffect hbacked' hmax
    rw [hcommits.dev, hbytes, ← hbacked.content_eq] at hout
    refine ⟨hout, hstay _ heffect fun b hb => ?_⟩
    exact hbacked'.owned_iff.mpr (hbacked.owned_iff.mp hb)

/-! ### Truncation -/

/-- A file of `newSize` bytes: as before below both sizes and zero behind them. -/
theorem truncateInode_spec (hok : Ok env s) (hfile : isFile (s.inodes ino))
    (hneat : Neat (s.inodes ino)) (h : truncateInode env ino newSize s = (.ok r, t)) :
    Outcome env s ino newSize
        (fun pos => if pos < newSize then content s (s.inodes ino) pos else 0) t ∧
      (if newSize < (s.inodes ino).fileSize then Cut env s ino t fun k => blocksFor newSize ≤ k
        else ∀ b, Pending env t b → Pending env s b) := by
  have hclip : (s.inodes ino).fileSize ≤ newSize →
      (fun pos => if pos < newSize then content s (s.inodes ino) pos else 0) =
        content s (s.inodes ino) := by
    intro hle
    funext pos
    split_ifs with hpos
    · rfl
    · exact ((hok.file ino hfile).content_tail (by omega)).symm
  unfold truncateInode truncateLocked at h
  obtain ⟨s₀, s₁, hread, h⟩ := Call.bind_eq_ok h
  cases hread
  obtain ⟨-, h⟩ := Call.checked h
  obtain ⟨hmax, h⟩ := Call.checked h
  obtain ⟨-, h⟩ := Call.checked h
  obtain ⟨-, h⟩ := Call.checked h
  split_ifs at h with hsame
  · obtain ⟨-, rfl⟩ := Call.pure_eq_ok h
    subst hsame
    rw [hclip le_rfl, if_neg (lt_irrefl _)]
    exact ⟨⟨hok, hfile, rfl, rfl, id, fun _ => id, fun _ _ _ => ⟨SameFile.refl _, rfl⟩⟩,
      fun _ => id⟩
  · obtain ⟨i, u, hprivs, h⟩ := Call.bind_eq_ok h
    obtain ⟨⟨⟩, v, hreset, h⟩ := Call.bind_eq_ok h
    have hopened := (removePrivs_spec hok hfile hprivs).resetAllocated hreset
    have hsize := hopened.fileSize
    unfold truncateOpened at h
    rw [hsize] at h
    by_cases hlt : newSize < (s.inodes ino).fileSize
    · rw [if_pos hlt] at h ⊢
      exact truncateDown_spec hopened hneat (hsize.symm ▸ hlt) h
    · rw [if_neg hlt] at h ⊢
      rw [hclip (Nat.not_lt.mp hlt)]
      exact truncateUp_spec hopened (by omega) (Nat.not_lt.mp hmax) h

end Briefs.File
