import Briefs.File.Truncate

/-!
# Punching holes

`punchHole`: the blocks that lie wholly inside the range are given up, and the parts of the
range in the blocks at either end are zeroed where they stand.
-/

namespace Briefs.File

open Lib Alloc Btree
open Bridge (BlockRun RunAccum)

/-- The closure `zeroPunched`, which tells whether there was a block to zero. -/
def zeroPunched (exts : List Extent) (blk first last : ℕ) : Call FS Bool :=
  match lookupExtent exts blk with
  | none => pure false
  | some ext =>
    if ext.phys = 0 then pure false
    else do
      zeroBlockRange (ext.place blk) first last
      pure true

/-- Both ends of the range are inside one block. -/
def sameBoundary (off endOff : ℕ) : Prop :=
  off % blockSize ≠ 0 ∧ endOff % blockSize ≠ 0 ∧ off / blockSize = blocksFor endOff - 1

instance (off endOff : ℕ) : Decidable (sameBoundary off endOff) :=
  inferInstanceAs (Decidable (_ ∧ _))

/-- Zero the parts of the range in the blocks at its ends. -/
def zeroBoundaries (exts : List Extent) (off endOff : ℕ) : Call FS Bool :=
  if sameBoundary off endOff then
    zeroPunched exts (off / blockSize) (off % blockSize) (endOff % blockSize)
  else do
    let head ← (if off % blockSize ≠ 0 then
        zeroPunched exts (off / blockSize) (off % blockSize) blockSize
      else pure false)
    let tail ← (if endOff % blockSize ≠ 0 then
        zeroPunched exts (blocksFor endOff - 1) 0 (endOff % blockSize)
      else pure false)
    pure (head || tail)

def delStart (off endOff : ℕ) : ℕ :=
  if sameBoundary off endOff then off / blockSize
  else if off % blockSize ≠ 0 then off / blockSize + 1 else off / blockSize

def delEnd (off endOff : ℕ) : ℕ :=
  if sameBoundary off endOff then off / blockSize
  else if endOff % blockSize ≠ 0 then blocksFor endOff - 1 else blocksFor endOff

/-- The extents without the blocks inside the range, and what is freed. -/
def punchedExts (exts : List Extent) (off endOff : ℕ) : List Extent × List BlockRun :=
  if delStart off endOff < delEnd off endOff then
    freeExtentRange exts (delStart off endOff) (delEnd off endOff)
  else (exts, [])

section Calls

variable (env : Env)

def punchInline (i : Inode) (off endOff : ℕ) : Call FS Unit :=
  if off < min endOff i.fileSize then do
    -- the region has 256 bytes
    Call.when (inlineDataMax < min endOff i.fileSize) (Call.fail .crash)
    commitInodeMetadata (stampMtimeCtime env
      (setInlineData i (clearRange (inlineData i) off (min endOff i.fileSize))))
  else pure ()

def punchHole (i : Inode) (off size : ℕ) : Call FS Unit :=
  if isInlineData i then punchInline env i off (off + size)
  else do
    let tree ← collect i
    let zeroed ← zeroBoundaries tree.exts off (off + size)
    let (newExts, freed) := punchedExts tree.exts off (off + size)
    if freed ≠ [] ∨ newExts.length ≠ tree.exts.length then
      commitRebuiltExtents env (stampMtimeCtime env i) tree newExts freed
    else if zeroed then commitInodeMetadata (stampMtimeCtime env i)
    else pure ()

end Calls

variable {env : Env} {s t u v : FS} {i i' j : Inode} {exts exts' newExts : List Extent}
  {nodes nodes' new more : List ℕ} {b k p f pos m n ino off size endOff : ℕ} {r : Unit}
  {Z Z' : ℕ → Prop}

/-! ### Zeroed positions -/

/-- The bytes of a file at the positions in `Z` are zero now; the others are as before. -/
structure Zeroes (env : Env) (exts : List Extent) (Z : ℕ → Prop) (s t : FS) : Prop where
  works : Works env s [] (Mapped exts) t
  inside : ∀ pos, Z pos → byteAt t.dev exts pos = 0
  outside : ∀ pos, ¬Z pos → byteAt t.dev exts pos = byteAt s.dev exts pos

theorem Zeroes.refl (h : ∀ pos, Z pos → byteAt s.dev exts pos = 0) : Zeroes env exts Z s s :=
  ⟨Works.refl _ _, h, fun _ _ => rfl⟩

theorem Zeroes.trans (h : Zeroes env exts Z s t) (h' : Zeroes env exts Z' t u) :
    Zeroes env exts (fun pos => Z pos ∨ Z' pos) s u := by
  refine ⟨h.works.trans h'.works, fun pos hpos => ?_, fun pos hpos => ?_⟩
  · by_cases hlate : Z' pos
    · exact h'.inside pos hlate
    · rw [h'.outside pos hlate]
      exact h.inside pos (hpos.resolve_right hlate)
  · rw [not_or] at hpos
    rw [h'.outside pos hpos.2, h.outside pos hpos.1]

theorem Zeroes.congr (h : Zeroes env exts Z s t) (hZ : ∀ pos, Z pos ↔ Z' pos) :
    Zeroes env exts Z' s t :=
  ⟨h.works, fun pos hpos => h.inside pos ((hZ pos).mpr hpos),
    fun pos hpos => h.outside pos fun hin => hpos ((hZ pos).mp hin)⟩

theorem zeroes_zeroBlockRange (hexts : Proper exts) (hmaps : Maps exts k p f)
    (h : zeroBlockRange p m n s = (.ok r, t)) :
    Zeroes env exts (fun pos => pos / blockSize = k ∧ m ≤ pos % blockSize ∧ pos % blockSize < n)
      s t := by
  obtain ⟨hworks, hbytes⟩ := zeroBlockRange_spec env hexts hmaps h
  exact ⟨hworks, fun pos hpos => (hbytes pos).trans (if_pos hpos),
    fun pos hpos => (hbytes pos).trans (if_neg hpos)⟩

theorem zeroPunched_spec (env : Env) {c : Bool} (hexts : Proper exts)
    (h : zeroPunched exts k m n s = (.ok c, t)) :
    Zeroes env exts (fun pos => pos / blockSize = k ∧ m ≤ pos % blockSize ∧ pos % blockSize < n)
      s t ∧ (c = false → t = s) := by
  unfold zeroPunched at h
  cases hlookup : lookupExtent exts k with
  | none =>
    rw [hlookup] at h
    obtain ⟨rfl, rfl⟩ := Call.pure_eq_ok h
    refine ⟨.refl fun pos hpos => byteAt_of_gap hexts ?_, fun _ => rfl⟩
    rw [hpos.1]
    exact (lookupExtent_eq_none hexts.sorted).mp hlookup
  | some ext =>
    rw [hlookup] at h
    obtain ⟨hmem, -, hmaps⟩ := maps_of_lookup hexts.sorted hlookup
    dsimp only at h
    rw [if_neg (hexts.of_mem hmem).2] at h
    obtain ⟨⟨⟩, v, hzero, h⟩ := Call.bind_eq_ok h
    obtain ⟨rfl, rfl⟩ := Call.pure_eq_ok h
    exact ⟨zeroes_zeroBlockRange hexts hmaps hzero, fun hfalse => absurd hfalse (by simp)⟩

def Inner (off endOff k : ℕ) : Prop := off ≤ k * blockSize ∧ (k + 1) * blockSize ≤ endOff

theorem inner_iff (hlt : off < endOff) :
    Inner off endOff k ↔ delStart off endOff ≤ k ∧ k < delEnd off endOff := by
  unfold delStart delEnd
  by_cases hsame : sameBoundary off endOff
  · rw [if_pos hsame, if_pos hsame]
    simp only [sameBoundary, Inner, blocksFor, blockSize] at hsame ⊢
    omega
  · rw [if_neg hsame, if_neg hsame]
    have hfirst : (if off % blockSize ≠ 0 then off / blockSize + 1 else off / blockSize) =
        blocksFor off := by
      split_ifs with hzero <;> simp only [blocksFor, blockSize] at hzero ⊢ <;> omega
    have hlast : (if endOff % blockSize ≠ 0 then blocksFor endOff - 1 else blocksFor endOff) =
        endOff / blockSize := by
      split_ifs with hzero <;> simp only [blocksFor, blockSize] at hzero ⊢ <;> omega
    rw [hfirst, hlast]
    simp only [Inner, blocksFor, blockSize]
    omega

/-- What the ends of the range leave to be zeroed in place. -/
def Edge (off endOff pos : ℕ) : Prop :=
  (off ≤ pos ∧ pos < endOff) ∧ ¬Inner off endOff (pos / blockSize)

theorem zeroBoundaries_spec (env : Env) {c : Bool} (hexts : Proper exts) (hlt : off < endOff)
    (h : zeroBoundaries exts off endOff s = (.ok c, t)) :
    Zeroes env exts (Edge off endOff) s t ∧ (c = false → t = s) := by
  unfold zeroBoundaries at h
  by_cases hsame : sameBoundary off endOff
  · rw [if_pos hsame] at h
    obtain ⟨hzeroes, hidle⟩ := zeroPunched_spec env hexts h
    refine ⟨hzeroes.congr fun pos => ?_, hidle⟩
    simp only [sameBoundary, Edge, Inner, blocksFor, blockSize] at hsame ⊢
    omega
  · rw [if_neg hsame] at h
    obtain ⟨head, v, hhead, h⟩ := Call.bind_eq_ok h
    obtain ⟨tail, w, htail, h⟩ := Call.bind_eq_ok h
    obtain ⟨rfl, rfl⟩ := Call.pure_eq_ok h
    have hfirst : Zeroes env exts (fun pos => off % blockSize ≠ 0 ∧
        pos / blockSize = off / blockSize ∧ off % blockSize ≤ pos % blockSize) s v ∧
        (head = false → v = s) := by
      split_ifs at hhead with hzero
      · obtain ⟨hzeroes, hidle⟩ := zeroPunched_spec env hexts hhead
        refine ⟨hzeroes.congr fun pos => ?_, hidle⟩
        simp only [blockSize] at hzero ⊢
        omega
      · obtain ⟨rfl, rfl⟩ := Call.pure_eq_ok hhead
        exact ⟨.refl fun pos hpos => absurd hpos.1 hzero, fun _ => rfl⟩
    have hlast : Zeroes env exts (fun pos => endOff % blockSize ≠ 0 ∧
        pos / blockSize = endOff / blockSize ∧ pos % blockSize < endOff % blockSize) v w ∧
        (tail = false → w = v) := by
      split_ifs at htail with hzero
      · obtain ⟨hzeroes, hidle⟩ := zeroPunched_spec env hexts htail
        refine ⟨hzeroes.congr fun pos => ?_, hidle⟩
        simp only [blocksFor, blockSize] at hzero ⊢
        omega
      · obtain ⟨rfl, rfl⟩ := Call.pure_eq_ok htail
        exact ⟨.refl fun pos hpos => absurd hpos.1 hzero, fun _ => rfl⟩
    refine ⟨(hfirst.1.trans hlast.1).congr fun pos => ?_, fun hidle => ?_⟩
    · simp only [sameBoundary, Edge, Inner, blocksFor, blockSize] at hsame ⊢
      omega
    · obtain ⟨hhead, htail⟩ := Bool.or_eq_false_iff.mp hidle
      rw [hlast.2 htail, hfirst.2 hhead]

/-- The bytes of a file without the blocks inside the range. -/
theorem byteAt_punched (hexts : Proper exts) (hnew : Proper newExts)
    (hmaps : ∀ k p f, Maps newExts k p f ↔ ¬Inner off endOff k ∧ Maps exts k p f)
    (hzero : Zeroes env exts (Edge off endOff) s v) :
    byteAt v.dev newExts = fun pos =>
      if off ≤ pos ∧ pos < endOff then 0 else byteAt s.dev exts pos := by
  funext pos
  by_cases hinner : Inner off endOff (pos / blockSize)
  · have hin : off ≤ pos ∧ pos < endOff := by
      simp only [Inner, blockSize] at hinner
      omega
    rw [if_pos hin]
    exact byteAt_of_gap hnew fun p f hk => ((hmaps _ p f).mp hk).1 hinner
  · have hsame : byteAt v.dev newExts pos = byteAt v.dev exts pos := by
      refine byteAt_congr hexts hnew rfl (fun p f => ?_) fun _ _ => rfl
      rw [hmaps, and_iff_right hinner]
    rw [hsame]
    split_ifs with hin
    · exact hzero.inside pos ⟨hin, hinner⟩
    · exact hzero.outside pos fun hedge => hin hedge.1

theorem punchedExts_spec (hexts : Proper exts) (hlt : off < endOff) :
    Proper (punchedExts exts off endOff).1 ∧
      (∀ k p f, Maps (punchedExts exts off endOff).1 k p f ↔
        ¬Inner off endOff k ∧ Maps exts k p f) ∧
      ∀ b, b ∈ runBlocks (punchedExts exts off endOff).2 ↔
        Mapped exts b ∧ ¬Mapped (punchedExts exts off endOff).1 b := by
  unfold punchedExts
  split_ifs with hsome
  · simp only [inner_iff hlt]
    exact hexts.cut hsome.le
  · have hnone : ∀ k, ¬Inner off endOff k := by
      intro k hk
      rw [inner_iff hlt] at hk
      omega
    refine ⟨hexts, fun k p f => (and_iff_right (hnone k)).symm, fun b => ?_⟩
    exact iff_of_false (by simp [runBlocks]) fun h => h.2 h.1

/-! ### Operations that store nothing -/

/-- An operation that ends before it has changed its file. -/
theorem Opened.idle (h : Opened env s ino i u) :
    Outcome env s ino (s.inodes ino).fileSize (content s (s.inodes ino)) u where
  ok := h.ok
  file := h.stays
  size := (h.calm.same ino h.regular).fileSize
  bytes := h.calm.content ino h.regular
  neat := (neat_same (h.calm.same ino h.regular)).mpr
  files := fun k => (h.calm.files k).mp
  others := fun k _ hk => ⟨h.calm.same k hk, h.calm.content k hk⟩

/-- A file that has none of the blocks in `C` loses nothing. -/
theorem Opened.cut_idle {C : ℕ → Prop} (h : Opened env s ino i u)
    (hnone : ∀ k p f, Leads s (s.inodes ino) k p f → ¬C k) : Cut env s ino u C where
  leads := fun k p f => by
    rw [h.calm.leads ino k p f h.regular]
    exact (and_iff_right_of_imp (hnone k p f)).symm
  released := fun k p f hk => by
    refine iff_of_false ?_ (hnone k p f hk)
    exact (h.fileOk.inUse (h.leads_iff.mpr hk).owned).kept
  only := fun b hb => .inl (h.calm.pending b hb)

/-! ### The operation -/

theorem Inlined.patched {g : Block} (mtime ctime : Time) (hin : Inlined i) (hn : n ≤ inlineDataMax)
    (hg : ∀ pos, n ≤ pos → g pos = 0) :
    Inlined { setInlineData i g with fileSize := n, mtime := mtime, ctime := ctime } ∧
      inlineData { setInlineData i g with fileSize := n, mtime := mtime, ctime := ctime } = g := by
  have hbytes : inlineData { setInlineData i g with
      fileSize := n, mtime := mtime, ctime := ctime } = g := by
    funext pos
    refine (inlineData_setInlineData i g pos).trans ?_
    split_ifs with hpos
    · rfl
    · exact (hg pos (by omega)).symm
  exact ⟨⟨hin.flag, hn, hbytes.symm ▸ hg⟩, hbytes⟩

theorem Opened.inlined {C : ℕ → Prop} (h : Opened env s ino i u) (hin : Inlined i) (hj : Inlined j)
    (hnumber : j.inodeNumber = i.inodeNumber) (hmode : j.filemode = i.filemode)
    (hneat : Neat i → Neat j) (hcommits : Commits env u j (fun _ => False) t) :
    Outcome env s ino j.fileSize (inlineData j) t ∧ Cut env s ino t C := by
  have heffect := hcommits.effect (Works.refl u (Owned u i))
    (fun b => iff_of_false hj.not_owned hin.not_owned) hnumber hmode
  have hmax : j.fileSize ≤ maxFileSize := hj.short.trans (by decide)
  have hout := h.outcome heffect ⟨hmax, .inl hj⟩ hneat
  rw [hj.content_eq] at hout
  exact ⟨hout, h.cut_inlined hin heffect fun _ => hj.not_owned⟩

theorem Opened.patched {g : Block} {mtime ctime : Time} {C : ℕ → Prop} (h : Opened env s ino i u)
    (hin : Inlined i) (hn : n ≤ inlineDataMax) (hg : ∀ pos, n ≤ pos → g pos = 0)
    (hcommits : Commits env u { setInlineData i g with
      fileSize := n, mtime := mtime, ctime := ctime } (fun _ => False) t) :
    Outcome env s ino n g t ∧ Cut env s ino t C := by
  obtain ⟨hin', hbytes⟩ := hin.patched mtime ctime hn hg
  have hout := h.inlined (C := C) hin hin' rfl rfl (fun hneat _ => hneat hin.flag) hcommits
  rwa [hbytes] at hout

/-- Nothing is to be zeroed past the end of the file. -/
theorem Inlined.clearRange_eq (hin : Inlined i) (off endOff : ℕ) :
    clearRange (inlineData i) off (min endOff i.fileSize) =
      fun pos => if off ≤ pos ∧ pos < endOff then 0 else inlineData i pos := by
  funext pos
  rw [clearRange]
  by_cases hpos : i.fileSize ≤ pos
  · rw [hin.tail pos hpos, ite_self, ite_self]
  · exact if_congr (by omega) rfl rfl

theorem punchInline_spec (h : Opened env s ino i u) (hin : Inlined i)
    (hcall : punchInline env i off endOff u = (.ok r, t)) :
    Outcome env s ino i.fileSize
        (fun pos => if off ≤ pos ∧ pos < endOff then 0 else inlineData i pos) t ∧
      Cut env s ino t (Inner off endOff) := by
  rw [← hin.clearRange_eq]
  unfold punchInline at hcall
  split_ifs at hcall with hsome
  · obtain ⟨⟨⟩, v, hcheck, hcommit⟩ := Call.bind_eq_ok hcall
    obtain ⟨-, rfl⟩ := Call.check_eq_ok hcheck
    have hcommits : Commits env u _ (fun _ => False) t := commits_writeInodeOwned hcommit
    refine h.patched hin hin.short ?_ hcommits
    intro pos hpos
    rw [clearRange, hin.tail pos hpos, ite_self]
  · obtain ⟨-, rfl⟩ := Call.pure_eq_ok hcall
    have hsame : clearRange (inlineData i) off (min endOff i.fileSize) = inlineData i := by
      funext pos
      rw [clearRange, if_neg (by omega)]
    rw [hsame, ← hin.content_eq (s := u), h.content_eq, h.fileSize]
    refine ⟨h.idle, h.cut_idle fun k p f hk => ?_⟩
    exact absurd (h.leads_iff.mpr hk).owned hin.not_owned

/-- The range is punched out of a file that has blocks. -/
theorem Opened.punched (h : Opened env s ino i u) (hbacked : Backed env u i exts nodes)
    (hlt : off < endOff) {tree : ExtentTree} (hcollect : collectExtentTree u.dev i = .ok tree)
    (hzeroes : Zeroes env exts (Edge off endOff) u v)
    (hcall : commitRebuiltExtents env (stampMtimeCtime env i) tree (punchedExts exts off endOff).1
      (punchedExts exts off endOff).2 v = (.ok r, t)) :
    Outcome env s ino i.fileSize
        (fun pos => if off ≤ pos ∧ pos < endOff then 0 else byteAt u.dev exts pos) t ∧
      Cut env s ino t (Inner off endOff) := by
  obtain ⟨hproper, hmaps, hfreed⟩ := punchedExts_spec hbacked.proper hlt
  generalize (punchedExts exts off endOff).1 = newExts at *
  have hbytes := byteAt_punched hbacked.proper hproper hmaps hzeroes
  have hstaged : Staged env u i exts v (stampMtimeCtime env i) newExts [] :=
    { works := hzeroes.works
      proper := hproper
      blocks := fun b ⟨k, f, hk⟩ => .inl ⟨k, f, ((hmaps k b f).mp hk).2⟩
      used := fun b hb => absurd hb List.not_mem_nil
      number := rfl
      mode := rfl
      flags := rfl
      bound := fun k p f hk => hbacked.bound k p f ((hmaps k p f).mp hk).2
      tail := by
        rw [hbytes]
        intro pos hpos
        dsimp only
        split_ifs
        · rfl
        · exact hbacked.tail pos hpos }
  obtain ⟨i', nodes', heffect, hbacked', hsee, hnode, hre, -⟩ :=
    hstaged.commitRebuilt h.ok.room hbacked h.fileOk.size hcollect hfreed hcall
  have hsize : i'.fileSize = i.fileSize := by
    rw [hre.rest]
    rfl
  have hout := h.outcome_backed heffect hbacked' (hsize.trans_le h.fileOk.size)
  rw [hsize, hsee, hbytes] at hout
  exact ⟨hout, h.cut hbacked heffect hbacked' hnode hmaps⟩

theorem Opened.zeroed (h : Opened env s ino i u) (hbacked : Backed env u i exts nodes)
    (hnone : ∀ k p f, Maps exts k p f → ¬Inner off endOff k)
    (hzeroes : Zeroes env exts (Edge off endOff) u v)
    (hcommits : Commits env v (stampMtimeCtime env i) (fun _ => False) t) :
    Outcome env s ino i.fileSize
        (fun pos => if off ≤ pos ∧ pos < endOff then 0 else byteAt u.dev exts pos) t ∧
      Cut env s ino t (Inner off endOff) := by
  have hmaps : ∀ k p f, Maps exts k p f ↔ ¬Inner off endOff k ∧ Maps exts k p f :=
    fun k p f => (and_iff_right_of_imp (hnone k p f)).symm
  have hbytes := byteAt_punched hbacked.proper hbacked.proper hmaps hzeroes
  obtain ⟨heffect, hbacked'⟩ := hbacked.inPlace hzeroes.works le_rfl (fun pos hpos => by
    rw [hbytes]
    dsimp only
    split_ifs
    · rfl
    · exact hbacked.tail pos hpos) hcommits
  have hout := h.outcome_backed heffect hbacked' h.fileOk.size
  rw [hcommits.dev, hbytes] at hout
  refine ⟨hout, h.cut hbacked heffect hbacked' ?_ hmaps⟩
  rintro b ⟨k, f, hk⟩
  exact hbacked.apart k b f hk

theorem punchHole_spec (h : Opened env s ino i u) (hsize : 0 < size)
    (hcall : punchHole env i off size u = (.ok r, t)) :
    Outcome env s ino (s.inodes ino).fileSize
        (fun pos => if off ≤ pos ∧ pos < off + size then 0 else content s (s.inodes ino) pos) t ∧
      Cut env s ino t (Inner off (off + size)) := by
  have hlt : off < off + size := by omega
  rw [← h.fileSize, ← h.content_eq]
  unfold punchHole at hcall
  rcases h.fileOk.form with hin | ⟨exts, nodes, hbacked⟩
  · rw [if_pos hin.flag] at hcall
    rw [hin.content_eq]
    exact punchInline_spec h hin hcall
  · rw [if_neg hbacked.data] at hcall
    obtain ⟨tree, hcollect, htree, -, -⟩ := hbacked.collect
    obtain ⟨tree', u₀, hread, hcall⟩ := Call.bind_eq_ok hcall
    obtain ⟨rfl, rfl⟩ := collect_eq_ok hcollect hread
    obtain ⟨zeroed, v, hzero, hcall⟩ := Call.bind_eq_ok hcall
    rw [htree] at hzero hcall
    obtain ⟨hzeroes, hidle⟩ := zeroBoundaries_spec env hbacked.proper hlt hzero
    rw [hbacked.content_eq]
    dsimp only at hcall
    by_cases hchanged : (punchedExts exts off (off + size)).2 ≠ [] ∨
        (punchedExts exts off (off + size)).1.length ≠ exts.length
    · rw [if_pos hchanged] at hcall
      exact h.punched hbacked hlt hcollect hzeroes hcall
    · rw [if_neg hchanged] at hcall
      obtain ⟨-, hmaps, hfreed⟩ := punchedExts_spec hbacked.proper hlt
      have hnone : ∀ k p f, Maps exts k p f → ¬Inner off (off + size) k := by
        intro k p f hk hinner
        have hlost := (hfreed p).mpr ⟨⟨k, f, hk⟩, (hbacked.proper.lost_iff hk hmaps).mpr hinner⟩
        rw [not_ne_iff.mp (not_or.mp hchanged).1] at hlost
        simp [runBlocks] at hlost
      cases zeroed with
      | true =>
        rw [if_pos rfl] at hcall
        exact h.zeroed hbacked hnone hzeroes (commits_writeInodeOwned hcall)
      | false =>
        rw [if_neg Bool.false_ne_true] at hcall
        obtain ⟨-, rfl⟩ := Call.pure_eq_ok hcall
        obtain rfl := hidle rfl
        have hbytes := byteAt_punched hbacked.proper hbacked.proper
          (fun k p f => (and_iff_right_of_imp (hnone k p f)).symm) hzeroes
        rw [← hbytes, ← hbacked.content_eq, h.content_eq, h.fileSize]
        exact ⟨h.idle, h.cut_idle fun k p f hk =>
          hnone k p f (hbacked.leads_iff.mp (h.leads_iff.mpr hk))⟩

end Briefs.File
