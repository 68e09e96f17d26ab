import Briefs.File.Volume

/-!
# Storing a change

How an operation leaves a file: inline data moves to a block, a new list of extents is
stored with its index, and what the file gives up is queued. `Staged` is what has been
prepared when the index is rebuilt; `Staged.effect` says what the commit makes of it.
-/

namespace Briefs.File

open Lib Alloc Btree
open Bridge (BlockRun RunAccum)
open Dir (inodeFlagIndexed)

variable {env : Env} {s t u v : FS} {i i' j : Inode} {exts exts' exts'' newExts : List Extent}
  {nodes nodes' new more : List ℕ} {tree : ExtentTree} {W : ℕ → Prop} {b k p f pos size : ℕ}

/-! ### Promotion -/

theorem inlineData_setInlineData (i : Inode) (region : Block) (j : ℕ) :
    inlineData (setInlineData i region) j = if j < inlineDataMax then region j else 0 := by
  simp only [inlineData, setInlineData, List.getD_eq_getElem?_getD, List.getElem?_map]
  split_ifs with hj
  · rw [List.getElem?_range hj]
    rfl
  · rw [List.getElem?_eq_none (by simpa using hj)]
    rfl

theorem mapped_nil : ¬Mapped [] b := by
  rintro ⟨k, f, hmaps⟩
  exact Pieces.at_nil hmaps

theorem maps_first {abs : ℕ} : Maps [⟨0, abs, 1, 0⟩] k p f ↔ k = 0 ∧ p = abs ∧ f = 0 := by
  rw [maps_single]
  simp only [Extent.stop, Extent.place]
  omega

theorem testBit_emptyRegion (i : Inode) (n : ℕ) (hn : n = 2 ∨ n = 3) :
    (emptyRegion i).flags.testBit n = false := by
  change (bitClear (bitClear i.flags inodeFlagInlineData) inodeFlagIndexed).testBit n = false
  rw [testBit_bitClear, testBit_bitClear]
  rcases hn with rfl | rfl
  · simp [testBit_inodeFlagIndexed]
  · simp [show inodeFlagInlineData.testBit 3 = true from rfl]

theorem byteAt_nil (dev : ℕ → Cell) : byteAt dev [] = zeroBlock := by
  funext pos
  exact byteAt_of_gap proper_nil fun p f => Pieces.at_nil

theorem getD_map_range (g : ℕ → UInt8) (n j : ℕ) :
    ((List.range n).map g).getD j 0 = if j < n then g j else 0 := by
  rw [List.getD_eq_getElem?_getD, List.getElem?_map]
  split_ifs with hj
  · rw [List.getElem?_range hj]
    rfl
  · rw [List.getElem?_eq_none (by simpa using hj)]
    rfl

theorem copyInto_zeroBlock (g : ℕ → UInt8) (n j : ℕ) :
    copyInto zeroBlock 0 ((List.range n).map g) j = if j < n then g j else 0 := by
  rw [copyInto, getD_map_range, List.length_map, List.length_range, Nat.zero_add, Nat.sub_zero]
  by_cases hj : j < n
  · rw [if_pos ⟨Nat.zero_le j, hj⟩]
  · rw [if_neg fun h => hj h.2, if_neg hj]
    rfl

/-- A file that has all its bytes in the region of its inode, if it has any. -/
structure Small (s : FS) (i : Inode) : Prop where
  short : i.fileSize ≤ inlineDataMax
  tail : ∀ j, i.fileSize ≤ j → inlineData i j = 0
  alone : ∀ b, ¬Owned s i b
  bytes : content s i = inlineData i
  bare : Neat i → Bare i

theorem Inlined.small (h : Inlined i) : Small s i :=
  ⟨h.short, h.tail, fun _ => h.not_owned, h.content_eq, fun hneat => hneat h.flag⟩

theorem Backed.neat (h : Backed env s i exts nodes) : Neat i := fun hflag => absurd hflag h.data

theorem Backed.small (h : Backed env s i [] nodes) (hsize : i.fileSize = 0) : Small s i := by
  have htotal := h.total
  obtain ⟨hzero, hnodes, hbare⟩ : inlineData i = zeroBlock ∧ nodes = [] ∧ Bare i := by
    have hstores := h.stores
    generalize hnil : ([] : List Extent) = exts at hstores
    cases hstores with
    | inline hidx _ hnum _ hzero =>
      refine ⟨funext (hzero hnil.symm), rfl, ?_, htotal, hidx⟩
      rw [hnum, ← hnil, List.length_nil]
    | tree _ hne => exact absurd hnil.symm hne
  refine ⟨hsize ▸ Nat.zero_le _, fun j _ => by rw [hzero]; rfl, fun b hb => ?_, ?_, fun _ => hbare⟩
  · rcases h.owned_iff.mp hb with hb | hb
    · exact List.not_mem_nil (hnodes ▸ hb)
    · exact mapped_nil hb
  · rw [h.content_eq, hzero, byteAt_nil]

/-- A file that was promoted: its bytes stand in one block now, if it has any. -/
theorem promoteInlineData_spec (hin : Small s i) (hroom : Room env s)
    (h : promoteInlineData env i s = (.ok i', t)) :
    ∃ exts new, Works env s new (fun _ => False) t ∧ Backed env t i' exts [] ∧
      (∀ b, Mapped exts b ↔ b ∈ new) ∧ byteAt t.dev exts = inlineData i ∧
      i'.inodeNumber = i.inodeNumber ∧ i'.filemode = i.filemode ∧ i'.fileSize = i.fileSize := by
  have hdata : ¬(emptyRegion i).flags.testBit 3 = true := by simp [testBit_emptyRegion]
  have hidx : ¬(emptyRegion i).flags.testBit 2 = true := by simp [testBit_emptyRegion]
  unfold promoteInlineData at h
  split_ifs at h with hzero
  · obtain ⟨rfl, rfl⟩ := Call.pure_eq_ok h
    have hempty : inlineData i = zeroBlock := by
      funext j
      exact hin.tail j (hzero ▸ Nat.zero_le j)
    refine ⟨[], [], Works.refl _ _, ⟨fun hflag => hdata (isInlineData_iff.mp hflag),
      .inline (fun hflag => hidx (isIndexed_iff.mp hflag)) (by simp) rfl rfl ?_, rfl, proper_nil,
      fun _ _ _ h => absurd h Pieces.at_nil, fun _ _ _ h => absurd h Pieces.at_nil, ?_, ?_⟩, ?_,
      (byteAt_nil _).trans hempty.symm, rfl, rfl, rfl⟩
    · intro _ j
      change ((List.range inlineDataMax).map zeroBlock).getD j 0 = 0
      rw [getD_map_range]
      exact ite_self _
    · rintro b (hb | hb)
      · exact absurd hb List.not_mem_nil
      · exact absurd hb mapped_nil
    · rw [byteAt_nil]
      exact fun _ _ => rfl
    · exact fun b => iff_of_false mapped_nil List.not_mem_nil
  · obtain ⟨abs, u, halloc, h⟩ := Call.bind_eq_ok h
    obtain ⟨⟨⟩, u', hcheck, h⟩ := Call.bind_eq_ok h
    obtain ⟨⟨⟩, v, hwrite, h⟩ := Call.bind_eq_ok h
    obtain ⟨rfl, rfl⟩ := Call.pure_eq_ok h
    rw [Call.when, if_neg (Nat.not_lt.mpr hin.short)] at hcheck
    obtain ⟨-, rfl⟩ := Call.pure_eq_ok hcheck
    obtain ⟨-, hnew⟩ := works_allocBlock (W := (· ∈ [abs])) halloc
    obtain ⟨hdev, hw⟩ := works_writeCell env hwrite
    have hworks := hnew.trans (hw.mono fun b hb => List.mem_singleton.mpr hb)
    rw [List.append_nil] at hworks
    have hworks' : Works env s [abs] (fun _ => False) v := (hworks.mono fun b hb => .inr hb).absorb
    have hmem : abs ∈ [abs] := List.mem_singleton.mpr rfl
    have hproper : Proper [⟨0, abs, 1, 0⟩] :=
      proper_single Nat.one_pos (.inl rfl) (ne_zero_of_free (hnew.free abs hmem))
    have hmapped : ∀ b, Mapped [⟨0, abs, 1, 0⟩] b ↔ b ∈ [abs] := by
      intro b
      simp only [Mapped, maps_first, List.mem_singleton]
      constructor
      · rintro ⟨k, f, -, hb, -⟩
        exact hb
      · exact fun hb => ⟨0, 0, rfl, hb, rfl⟩
    have hbytes : byteAt v.dev [⟨0, abs, 1, 0⟩] = inlineData i := by
      funext pos
      rw [hdev, byteAt_update hproper (maps_first.mpr ⟨rfl, rfl, rfl⟩)]
      have hshort : i.fileSize ≤ 256 := hin.short
      by_cases hfirst : pos / blockSize = 0
      · have hmod : pos % blockSize = pos := by
          simp only [blockSize] at hfirst ⊢
          omega
        rw [if_pos hfirst, if_pos rfl, hmod, copyInto_zeroBlock]
        split_ifs with hlt
        · rfl
        · exact (hin.tail pos (Nat.not_lt.mp hlt)).symm
      · rw [if_neg hfirst, hin.tail pos (by simp only [blockSize] at hfirst; omega)]
        refine byteAt_of_gap hproper fun p f hmaps => hfirst (maps_first.mp hmaps).1
    refine ⟨[⟨0, abs, 1, 0⟩], [abs], hworks', ⟨fun hflag => hdata (isInlineData_iff.mp hflag),
      .inline (fun hflag => hidx (isIndexed_iff.mp hflag)) (by simp) rfl rfl (by simp), rfl, hproper,
      by simp, ?_, ?_, ?_⟩, hmapped, hbytes, rfl, rfl, rfl⟩
    · intro k p f hmaps
      rw [(maps_first.mp hmaps).1]
      change 0 < (i.fileSize + 4096 - 1) / 4096 + env.totalBlocks
      omega
    · rintro b (hb | hb)
      · exact absurd hb List.not_mem_nil
      · exact hworks'.inUse_new hroom ((hmapped b).mp hb)
    · rw [hbytes]
      exact hin.tail

/-! ### Commits -/

theorem pending_deferBlockFreeRun {run : BlockRun}
    (hrun : ∀ b ∈ run.blocks, env.dataRegionStart ≤ b ∧ b < 2 ^ 64) :
    Pending env (deferBlockFreeRun env s run) b ↔ Pending env s b ∨ b ∈ run.blocks := by
  simp only [Pending, PendingAt, deferBlockFreeRun, RunAccum.blocks_addRun, List.mem_append,
    or_and_right, exists_or]
  refine or_congr_right ?_
  simp only [BlockRun.blocks, List.mem_range'_1] at hrun ⊢
  constructor
  · rintro ⟨rel, hrel, rfl⟩
    have hfirst := hrun run.first ⟨le_rfl, by omega⟩
    omega
  · intro hb
    have hfirst := hrun run.first ⟨le_rfl, by omega⟩
    exact ⟨b - env.dataRegionStart, by omega, by omega⟩

theorem pending_foldl_deferBlockFreeRun (runs : List BlockRun)
    (hruns : ∀ b ∈ runBlocks runs, env.dataRegionStart ≤ b ∧ b < 2 ^ 64) :
    Pending env (runs.foldl (deferBlockFreeRun env) s) b ↔ Pending env s b ∨ b ∈ runBlocks runs := by
  induction runs generalizing s with
  | nil => simp [runBlocks]
  | cons run runs ih =>
    rw [runBlocks, List.flatMap_cons] at hruns
    obtain ⟨hrun, hruns⟩ := List.forall_mem_append.mp hruns
    have hcons : b ∈ runBlocks (run :: runs) ↔ b ∈ run.blocks ∨ b ∈ runBlocks runs := by
      rw [runBlocks, List.flatMap_cons, List.mem_append]
    rw [List.foldl_cons, ih hruns, pending_deferBlockFreeRun hrun, hcons, or_assoc]

theorem foldl_deferBlockFreeRun (env : Env) (runs : List BlockRun) (s : FS) :
    ∃ q, runs.foldl (deferBlockFreeRun env) s = { s with pendingFrees := q } := by
  induction runs generalizing s with
  | nil => exact ⟨s.pendingFrees, rfl⟩
  | cons run runs ih =>
    obtain ⟨q, hq⟩ := ih (deferBlockFreeRun env s run)
    exact ⟨q, hq⟩

/-- What the commit of an extent change does. -/
structure Commits (env : Env) (s : FS) (i : Inode) (gone : ℕ → Prop) (t : FS) : Prop where
  dev : t.dev = s.dev
  free : ∀ b, Free env t b ↔ Free env s b
  inodes : t.inodes = Function.update s.inodes i.inodeNumber i
  pending : ∀ b, Pending env t b ↔ Pending env s b ∨ gone b
  chains : t.xattrBlocks = s.xattrBlocks
  touched : t.touched = s.touched

theorem commits_writeInodeOwned {r : Unit} (h : writeInodeOwned i s = (.ok r, t)) :
    Commits env s i (fun _ => False) t := by
  cases h
  exact ⟨rfl, fun _ => Iff.rfl, rfl, fun _ => (or_iff_left id).symm, rfl, rfl⟩

theorem commits_commitExtentChange {freed oldNodes : List BlockRun} {r : Unit}
    (hruns : ∀ b ∈ runBlocks (freed ++ oldNodes), env.dataRegionStart ≤ b ∧ b < 2 ^ 64)
    (h : commitExtentChange env i freed oldNodes s = (.ok r, t)) :
    Commits env s i (fun b => b ∈ runBlocks freed ∨ b ∈ runBlocks oldNodes) t ∧
      t.unwrittenRes = s.unwrittenRes := by
  obtain ⟨⟨⟩, u, hqueue, hwrite⟩ := Call.bind_eq_ok h
  cases hqueue
  cases hwrite
  obtain ⟨q, hq⟩ := foldl_deferBlockFreeRun env (freed ++ oldNodes) s
  have hpending : ∀ b, Pending env ((freed ++ oldNodes).foldl (deferBlockFreeRun env) s) b ↔
      Pending env s b ∨ b ∈ runBlocks freed ∨ b ∈ runBlocks oldNodes := by
    intro b
    rw [pending_foldl_deferBlockFreeRun _ hruns, runBlocks, List.flatMap_append, List.mem_append]
  dsimp only
  rw [hq] at hpending ⊢
  exact ⟨⟨rfl, fun _ => Iff.rfl, rfl, hpending, rfl, rfl⟩, rfl⟩

theorem updateUnwrittenRes_spec {ino : ℕ} {r : Unit}
    (h : updateUnwrittenRes ino exts s = (.ok r, t)) :
    t = { s with
      unwrittenRes := Function.update s.unwrittenRes ino (countUnwrittenBlocks exts)
      dataAlloc := t.dataAlloc } ∧ ∀ rel, t.dataAlloc.isFree rel = s.dataAlloc.isFree rel := by
  cases h
  dsimp only
  split_ifs with hsame
  · refine ⟨?_, fun _ => rfl⟩
    rw [hsame, Function.update_eq_self]
  · exact ⟨rfl, fun _ => rfl⟩

/-- An operation that changes bytes in place and stores an inode with the same blocks. -/
theorem Commits.effect (h : Commits env u i' (fun _ => False) t)
    (hworks : Works env s [] (Owned s i) u) (hown : ∀ b, Owned t i' b ↔ Owned s i b)
    (hnumber : i'.inodeNumber = i.inodeNumber) (hmode : i'.filemode = i.filemode) :
    Effect env s i t i' where
  inodes := by rw [h.inodes, hworks.inodes, hnumber]
  number := hnumber
  mode := hmode
  dev := by
    intro b _ hb
    rw [h.dev, hworks.dev b hb List.not_mem_nil]
  free := fun b hb => hworks.shrinks b ((h.free b).mp hb)
  pending := by
    intro b
    have hsame : Pending env u b ↔ Pending env s b := by
      rw [Pending, PendingAt, hworks.pending]
      exact Iff.rfl
    rw [h.pending, hsame, hown]
    exact or_congr_right (iff_of_false id fun hb => hb.2 hb.1)
  owned := fun b hb => .inl ((hown b).mp hb)
  chains := h.chains.trans hworks.chains

/-- What an operation has prepared when it comes to store the new extents of a file. -/
structure Staged (env : Env) (s : FS) (i : Inode) (exts : List Extent) (u : FS) (j : Inode)
    (newExts : List Extent) (new : List ℕ) : Prop where
  works : Works env s new (Mapped exts) u
  proper : Proper newExts
  blocks : ∀ b, Mapped newExts b → Mapped exts b ∨ b ∈ new
  used : ∀ b ∈ new, Mapped newExts b
  number : j.inodeNumber = i.inodeNumber
  mode : j.filemode = i.filemode
  flags : j.flags = i.flags
  bound : ∀ k p f, Maps newExts k p f → k < blocksFor j.fileSize + env.totalBlocks
  tail : ∀ pos, j.fileSize ≤ pos → byteAt u.dev newExts pos = 0

section Staging

variable {runs freed : List BlockRun} {r : Unit}

/-- No extent of a file starts past the 64-bit numbers. -/
theorem Proper.offsets (h : Proper exts) (hsize : size ≤ maxFileSize)
    (hbound : ∀ k p f, Maps exts k p f → k < blocksFor size + env.totalBlocks) :
    ∀ e ∈ exts, e.offset < 2 ^ 64 := by
  intro e he
  have hlt := hbound e.offset e.phys e.flags
    ⟨e, he, ⟨le_rfl, h.sorted.nonempty e he⟩, val_eq_iff.mpr ⟨by simp [Extent.place], rfl⟩⟩
  have hsmall := env.small
  have hmax : maxFileSize = 2 ^ 63 - 1 := rfl
  simp only [blocksFor, blockSize] at hlt
  omega

/-- The tree that was collected before the operation is still there when it is rebuilt. -/
theorem Works.sound (h : Works env s new (Mapped exts) u) (hbacked : Backed env s i exts nodes)
    (hnodes : ∀ b, b ∈ tree.nodes ↔ b ∈ nodes) (hsound : tree.Sound s.dev i)
    (hflags : j.flags = i.flags) : tree.Sound u.dev j ∧ ∀ b ∈ tree.nodes, ¬Free env u b := by
  have hfree : ∀ b ∈ tree.nodes, ¬Free env s b := fun b hb =>
    (hbacked.own b (.inl ((hnodes b).mp hb))).taken
  have hdev : ∀ b ∈ tree.nodes, u.dev b = s.dev b := by
    intro b hb
    refine h.dev b ?_ (h.notMem_of_not_free (hfree b hb))
    rintro ⟨k, f, hmaps⟩
    exact hbacked.apart k b f hmaps ((hnodes b).mp hb)
  refine ⟨⟨?_, hsound.nodup, ?_⟩, fun b hb => h.not_free (hfree b hb)⟩
  · intro x hx
    refine (hsound.leaf x hx).congr ?_
    intro b hb
    rw [List.mem_singleton] at hb
    subst hb
    rw [loader, loader, hdev x.1 (List.mem_append_left _ (List.mem_map_of_mem hx))]
  · intro hidx
    rw [isIndexed, hflags] at hidx
    exact hsound.indexed hidx

theorem Staged.not_free (h : Staged env s i exts u j newExts new) (hbacked : Backed env s i exts nodes)
    (hb : Mapped newExts b) : ¬Free env u b := by
  rcases h.blocks b hb with hb | hb
  · exact h.works.not_free (hbacked.own b (.inr hb)).taken
  · exact h.works.taken b hb

theorem Staged.rebuilt (h : Staged env s i exts u j newExts new) (hroom : Room env s)
    (hbacked : Backed env s i exts nodes)
    (hrebuilt : Rebuilt env u j nodes newExts i' runs more nodes' v) :
    Backed env v i' newExts nodes' ∧ byteAt v.dev newExts = byteAt u.dev newExts := by
  have hbytes : byteAt v.dev newExts = byteAt u.dev newExts := by
    refine byteAt_frame h.proper fun b hb => hrebuilt.works.dev b id ?_
    exact hrebuilt.works.notMem_of_not_free (h.not_free hbacked hb)
  have hsize : i'.fileSize = j.fileSize := by rw [hrebuilt.inode.rest]
  refine ⟨⟨?_, hrebuilt.stores, hrebuilt.inode.total, h.proper, ?_, ?_, ?_, ?_⟩, hbytes⟩
  · rw [hrebuilt.inode.data, isInlineData, h.flags]
    exact hbacked.data
  · intro k p f hmaps hp
    have hmapped : Mapped newExts p := ⟨k, f, hmaps⟩
    rcases (hrebuilt.kept p).mp hp with hp | ⟨hp, -⟩
    · exact h.not_free hbacked hmapped (hrebuilt.works.free p hp)
    · rcases h.blocks p hmapped with ⟨k', f', hmaps'⟩ | hnew
      · exact hbacked.apart k' p f' hmaps' hp
      · exact (hbacked.own p (.inl hp)).taken (h.works.free p hnew)
  · rw [hsize]
    exact h.bound
  · rintro b (hb | hb)
    · rcases (hrebuilt.kept b).mp hb with hb | ⟨hb, -⟩
      · exact hrebuilt.works.inUse_new (h.works.room hroom) hb
      · exact hrebuilt.works.inUse (h.works.inUse (hbacked.own b (.inl hb)))
    · refine hrebuilt.works.inUse ?_
      rcases h.blocks b hb with hb | hb
      · exact h.works.inUse (hbacked.own b (.inr hb))
      · exact h.works.inUse_new hroom hb
  · rw [hbytes, hsize]
    exact h.tail

theorem Staged.node_not_mapped (h : Staged env s i exts u j newExts new)
    (hbacked : Backed env s i exts nodes) (hb : b ∈ nodes) : ¬Mapped newExts b := by
  intro hmapped
  rcases h.blocks b hmapped with ⟨k, f, hmaps⟩ | hnew
  · exact hbacked.apart k b f hmaps hb
  · exact (hbacked.own b (.inl hb)).taken (h.works.free b hnew)

theorem Staged.not_node (h : Staged env s i exts u j newExts new)
    (hbacked : Backed env s i exts nodes)
    (hrebuilt : Rebuilt env u j nodes newExts i' runs more nodes' v) (hb : Mapped exts b) :
    b ∉ nodes' := by
  intro hin
  rcases (hrebuilt.kept b).mp hin with hin | ⟨hin, -⟩
  · exact h.works.not_free (hbacked.own b (.inr hb)).taken (hrebuilt.works.free b hin)
  · obtain ⟨k, f, hmaps⟩ := hb
    exact hbacked.apart k b f hmaps hin

theorem Staged.gone_iff (h : Staged env s i exts u j newExts new)
    (hbacked : Backed env s i exts nodes)
    (hrebuilt : Rebuilt env u j nodes newExts i' runs more nodes' v)
    (hfreed : ∀ b, b ∈ runBlocks freed ↔ Mapped exts b ∧ ¬Mapped newExts b) :
    b ∈ runBlocks freed ∨ b ∈ runBlocks runs ↔
      (b ∈ nodes ∨ Mapped exts b) ∧ ¬(b ∈ nodes' ∨ Mapped newExts b) := by
  have hmore : (b ∈ nodes ∨ Mapped exts b) → b ∉ more := fun hb hin =>
    h.works.not_free (hbacked.own b hb).taken (hrebuilt.works.free b hin)
  constructor
  · rintro (hb | hb)
    · obtain ⟨hold, hnot⟩ := (hfreed b).mp hb
      refine ⟨.inr hold, ?_⟩
      rintro (hin | hin)
      · exact h.not_node hbacked hrebuilt hold hin
      · exact hnot hin
    · have hold := hrebuilt.returned b hb
      refine ⟨.inl hold, ?_⟩
      rintro (hin | hin)
      · rcases (hrebuilt.kept b).mp hin with hin | ⟨-, hnot⟩
        · exact hmore (.inl hold) hin
        · exact hnot hb
      · exact h.node_not_mapped hbacked hold hin
  · rintro ⟨hold, hnot⟩
    rw [not_or] at hnot
    rcases hold with hold | hold
    · right
      by_contra hrun
      exact hnot.1 ((hrebuilt.kept b).mpr (.inr ⟨hold, hrun⟩))
    · exact .inl ((hfreed b).mpr ⟨hold, hnot.2⟩)

/-- An extent change that was prepared, rebuilt and committed. -/
theorem Staged.effect (h : Staged env s i exts u j newExts new) (hroom : Room env s)
    (hbacked : Backed env s i exts nodes)
    (hrebuilt : Rebuilt env u j nodes newExts i' runs more nodes' v)
    (hfreed : ∀ b, b ∈ runBlocks freed ↔ Mapped exts b ∧ ¬Mapped newExts b)
    (hcommits : Commits env v i' (fun b => b ∈ runBlocks freed ∨ b ∈ runBlocks runs) t) :
    Effect env s i t i' ∧ Backed env t i' newExts nodes' ∧
      byteAt t.dev newExts = byteAt u.dev newExts := by
  obtain ⟨hbacked', hbytes⟩ := h.rebuilt hroom hbacked hrebuilt
  have hgone := fun b => h.gone_iff hbacked hrebuilt hfreed (b := b)
  have hfinal : Backed env t i' newExts nodes' := by
    refine hbacked'.frame (fun b _ => by rw [hcommits.dev]) ?_
    intro b hb
    obtain ⟨hregion, hfits, htaken, hkept⟩ := hbacked'.own b (hbacked'.owned_iff.mp hb)
    refine ⟨hregion, hfits, fun hfree => htaken ((hcommits.free b).mp hfree), fun hp => ?_⟩
    rcases (hcommits.pending b).mp hp with hp | hp
    · exact hkept hp
    · exact ((hgone b).mp hp).2 (hbacked'.owned_iff.mp hb)
  have hnumber : i'.inodeNumber = i.inodeNumber := by
    rw [hrebuilt.inode.rest]
    exact h.number
  have hmode : i'.filemode = i.filemode := by
    rw [hrebuilt.inode.rest]
    exact h.mode
  refine ⟨⟨?_, hnumber, hmode, ?_, ?_, ?_, ?_, ?_⟩, hfinal, by rw [hcommits.dev, hbytes]⟩
  · rw [hcommits.inodes, hrebuilt.works.inodes, h.works.inodes, hnumber]
  · intro b hfree hown
    rw [hbacked.owned_iff, not_or] at hown
    rw [hcommits.dev, hrebuilt.works.dev b id, h.works.dev b hown.2]
    · exact h.works.notMem_of_not_free hfree
    · exact hrebuilt.works.notMem_of_not_free (h.works.not_free hfree)
  · intro b hb
    exact h.works.shrinks b (hrebuilt.works.shrinks b ((hcommits.free b).mp hb))
  · intro b
    have hsame : Pending env v b ↔ Pending env s b := by
      rw [Pending, PendingAt, hrebuilt.works.pending, h.works.pending]
      exact Iff.rfl
    rw [hcommits.pending, hsame, hgone b, hbacked.owned_iff, hfinal.owned_iff]
    exact Iff.rfl
  · intro b hb
    have hfree : ∀ b, Free env t b → Free env v b := fun b => (hcommits.free b).mp
    rw [hbacked.owned_iff]
    rcases hfinal.owned_iff.mp hb with hb | hb
    · rcases (hrebuilt.kept b).mp hb with hb | ⟨hb, -⟩
      · exact .inr ⟨h.works.shrinks b (hrebuilt.works.free b hb),
          fun hnow => hrebuilt.works.taken b hb (hfree b hnow)⟩
      · exact .inl (.inl hb)
    · rcases h.blocks b hb with hb | hb
      · exact .inl (.inr hb)
      · exact .inr ⟨h.works.free b hb,
          fun hnow => h.works.taken b hb (hrebuilt.works.shrinks b (hfree b hnow))⟩
  · rw [hcommits.chains, hrebuilt.works.chains, h.works.chains]

/-- The reservation and the commit, for the new extents and what is given up. -/
theorem commits_store (hruns : ∀ b ∈ runBlocks (freed ++ runs), env.dataRegionStart ≤ b ∧ b < 2 ^ 64)
    {r' : Unit} (hreserve : updateUnwrittenRes i.inodeNumber newExts s = (.ok r, u))
    (hcommit : commitExtentChange env i freed runs u = (.ok r', t)) :
    Commits env s i (fun b => b ∈ runBlocks freed ∨ b ∈ runBlocks runs) t ∧
      t.unwrittenRes =
        Function.update s.unwrittenRes i.inodeNumber (countUnwrittenBlocks newExts) := by
  obtain ⟨hu, hfree⟩ := updateUnwrittenRes_spec hreserve
  obtain ⟨hcommits, hres⟩ := commits_commitExtentChange hruns hcommit
  have hfree' : ∀ b, Free env u b ↔ Free env s b := by
    intro b
    simp only [Free, FreeAt, hfree]
  have hpending : ∀ b, Pending env u b ↔ Pending env s b := by
    intro b
    rw [hu]
    exact Iff.rfl
  refine ⟨⟨?_, ?_, ?_, ?_, ?_, ?_⟩, ?_⟩
  · rw [hcommits.dev, hu]
  · exact fun b => (hcommits.free b).trans (hfree' b)
  · rw [hcommits.inodes, hu]
  · exact fun b => (hcommits.pending b).trans (or_congr_left (hpending b))
  · rw [hcommits.chains, hu]
  · rw [hcommits.touched, hu]
  · rw [hres, hu]

theorem orRollback_eq_ok {α : Type} {x : Call FS α} {a : α} (h : orRollback x s = (.ok a, t)) :
    x s = (.ok a, t) := by
  unfold orRollback at h
  rcases hx : x s with ⟨r, u⟩
  rw [hx] at h
  cases r with
  | ok b => exact h
  | error e => exact absurd (Prod.mk.inj h).1 (by simp)

theorem Rebuilt.congr_old {old old' : List ℕ} (h : Rebuilt env u j old newExts i' runs more nodes' v)
    (hold : ∀ b, b ∈ old ↔ b ∈ old') : Rebuilt env u j old' newExts i' runs more nodes' v :=
  { h with
    kept := fun b => by rw [h.kept, hold]
    returned := fun b hb => (hold b).mp (h.returned b hb) }

/-- The blocks given up have 64-bit numbers in the data region. -/
theorem Staged.runs_fit (hbacked : Backed env s i exts nodes)
    (hrebuilt : Rebuilt env u j nodes newExts i' runs more nodes' v)
    (hfreed : ∀ b, b ∈ runBlocks freed ↔ Mapped exts b ∧ ¬Mapped newExts b) :
    ∀ b ∈ runBlocks (freed ++ runs), env.dataRegionStart ≤ b ∧ b < 2 ^ 64 := by
  intro b hb
  have huse : InUse env s b := by
    rw [runBlocks, List.flatMap_append] at hb
    rcases List.mem_append.mp hb with hb | hb
    · exact hbacked.own b (.inr ((hfreed b).mp hb).1)
    · exact hbacked.own b (.inl (hrebuilt.returned b hb))
  exact ⟨huse.region.le, huse.fits⟩

theorem Staged.commitRebuilt (h : Staged env s i exts u j newExts new) (hroom : Room env s)
    (hbacked : Backed env s i exts nodes) (hsize : j.fileSize ≤ maxFileSize)
    (hcollect : collectExtentTree s.dev i = .ok tree)
    (hfreed : ∀ b, b ∈ runBlocks freed ↔ Mapped exts b ∧ ¬Mapped newExts b)
    (hcall : commitRebuiltExtents env j tree newExts freed u = (.ok r, t)) :
    ∃ i' nodes', Effect env s i t i' ∧ Backed env t i' newExts nodes' ∧
      byteAt t.dev newExts = byteAt u.dev newExts ∧ (∀ b, Mapped exts b → b ∉ nodes') ∧
      Reindexed j newExts i' ∧ t.unwrittenRes =
        Function.update u.unwrittenRes j.inodeNumber (countUnwrittenBlocks newExts) := by
  obtain ⟨⟨i', runs⟩, v, hrebuild, hcall⟩ := Call.bind_eq_ok hcall
  obtain ⟨⟨⟩, w, hreserve, hcommit⟩ := Call.bind_eq_ok hcall
  obtain ⟨tree', hcollect', -, hnodes, hsound⟩ := hbacked.collect
  obtain rfl := Except.ok.inj (hcollect'.symm.trans hcollect)
  obtain ⟨hsound', hown⟩ := h.works.sound hbacked hnodes hsound h.flags
  obtain ⟨more, nodes', hrebuilt⟩ := rebuildExtentIndexWrite_spec h.proper.sorted.offsets
    (h.proper.offsets hsize h.bound) hsound' hown (orRollback_eq_ok hrebuild)
  have hrebuilt := hrebuilt.congr_old hnodes
  obtain ⟨hcommits, hres⟩ := commits_store (Staged.runs_fit hbacked hrebuilt hfreed) hreserve
    hcommit
  obtain ⟨heffect, hbacked', hbytes⟩ := h.effect hroom hbacked hrebuilt hfreed hcommits
  refine ⟨i', nodes', heffect, hbacked', hbytes, fun b => h.not_node hbacked hrebuilt,
    hrebuilt.inode, ?_⟩
  have hnumber : i'.inodeNumber = j.inodeNumber := by rw [hrebuilt.inode.rest]
  rw [hres, hrebuilt.works.reserved, hnumber]

end Staging

/-! ### Growth -/

/-- The blocks `new` are added to the extents of a file, and none is given up. -/
structure Grows (env : Env) (s : FS) (exts : List Extent) (u : FS) (exts' : List Extent)
    (new : List ℕ) : Prop where
  works : Works env s new (Mapped exts) u
  proper : Proper exts'
  blocks : ∀ b, Mapped exts' b ↔ Mapped exts b ∨ b ∈ new

namespace Grows

theorem refl (s : FS) (h : Proper exts) : Grows env s exts s exts [] :=
  ⟨Works.refl _ _, h, fun _ => (or_iff_left List.not_mem_nil).symm⟩

theorem trans (h : Grows env s exts u exts' new) (h' : Grows env u exts' v exts'' more) :
    Grows env s exts v exts'' (new ++ more) := by
  refine ⟨?_, h'.proper, ?_⟩
  · refine Works.absorb (Works.trans (h.works.mono ?_) (h'.works.mono ?_))
    · exact fun b hb => .inl hb
    · intro b hb
      rcases (h.blocks b).mp hb with hb | hb
      · exact .inl hb
      · exact .inr (List.mem_append_left _ hb)
  · intro b
    rw [h'.blocks, h.blocks, List.mem_append, or_assoc]

theorem not_free (h : Grows env s exts u exts' new) (hfree : ∀ b, Mapped exts b → ¬Free env s b)
    (hb : Mapped exts' b) : ¬Free env u b := by
  rcases (h.blocks b).mp hb with hb | hb
  · exact h.works.not_free (hfree b hb)
  · exact h.works.taken b hb

theorem staged (h : Grows env s exts u exts' new) (hnumber : j.inodeNumber = i.inodeNumber)
    (hmode : j.filemode = i.filemode) (hflags : j.flags = i.flags)
    (hbound : ∀ k p f, Maps exts' k p f → k < blocksFor j.fileSize + env.totalBlocks)
    (htail : ∀ pos, j.fileSize ≤ pos → byteAt u.dev exts' pos = 0) :
    Staged env s i exts u j exts' new where
  works := h.works
  proper := h.proper
  blocks := fun b => (h.blocks b).mp
  used := fun b hb => (h.blocks b).mpr (.inr hb)
  number := hnumber
  mode := hmode
  flags := hflags
  bound := hbound
  tail := htail

theorem freed (h : Grows env s exts u exts' new) :
    ∀ b, b ∈ runBlocks [] ↔ Mapped exts b ∧ ¬Mapped exts' b := by
  intro b
  refine iff_of_false List.not_mem_nil ?_
  exact fun hb => hb.2 ((h.blocks b).mpr (.inl hb.1))

end Grows

theorem grows_insertAll (raw : List Extent) (hworks : Works env s new (Mapped exts) u)
    (hexts : Proper exts) (hfree : ∀ b, Mapped exts b → ¬Free env s b) (hraw : Proper raw)
    (hnew : ∀ b, Mapped raw b ↔ b ∈ new)
    (hgap : ∀ e ∈ raw, ∀ k, e.offset ≤ k → k < e.stop → blockMap.Gap exts k) :
    Grows env s exts u (insertAll exts raw) new ∧
      ∀ k p f, Maps (insertAll exts raw) k p f ↔ Maps exts k p f ∨ Maps raw k p f := by
  obtain ⟨hsorted, hinsert⟩ := insertAll_spec raw hexts.sorted hraw.sorted hgap
  refine ⟨⟨hworks, hexts.union hraw hsorted hinsert ?_, ?_⟩, hinsert⟩
  · intro k p f k' f' hk hk'
    exact hfree p ⟨k, f, hk⟩ (hworks.free p ((hnew p).mp ⟨k', f', hk'⟩))
  · intro b
    rw [← hnew]
    constructor
    · rintro ⟨k, f, hk⟩
      rcases (hinsert k b f).mp hk with hk | hk
      · exact .inl ⟨k, f, hk⟩
      · exact .inr ⟨k, f, hk⟩
    · rintro (⟨k, f, hk⟩ | ⟨k, f, hk⟩)
      · exact ⟨k, f, (hinsert k b f).mpr (.inl hk)⟩
      · exact ⟨k, f, (hinsert k b f).mpr (.inr hk)⟩

theorem Backed.rebuilt (h : Backed env s i exts nodes) (hworks : Works env s new (Mapped exts) u) :
    Rebuilt env u i nodes exts i [] [] nodes u where
  works := Works.refl _ _
  stores := by
    refine h.stores.congr fun b hb => hworks.dev b ?_ ?_
    · rintro ⟨k, f, hmaps⟩
      exact h.apart k b f hmaps hb
    · exact hworks.notMem_of_not_free (h.own b (.inl hb)).taken
  inode := ⟨h.total, Iff.rfl, rfl⟩
  indexed := fun _ => id
  kept := fun b => by simp [runBlocks]
  returned := fun b hb => absurd hb List.not_mem_nil
  once := List.nodup_nil

theorem Stores.resize {dev : ℕ → Cell} (h : Stores dev i exts nodes) (n : ℕ) (mtime ctime : Time) :
    Stores dev { i with fileSize := n, mtime := mtime, ctime := ctime } exts nodes := by
  cases h with
  | inline hidx hlen hnum hexts hzero => exact .inline hidx hlen hnum hexts hzero
  | tree hidx hne hdepth hden hnodup => exact .tree hidx hne hdepth hden hnodup

theorem Rebuilt.resize {runs : List BlockRun} (h : Rebuilt env u i nodes exts i' runs more nodes' v)
    (n : ℕ) (mtime ctime : Time) :
    Rebuilt env u { i with fileSize := n, mtime := mtime, ctime := ctime } nodes exts
      { i' with fileSize := n, mtime := mtime, ctime := ctime } runs more nodes' v where
  works := h.works
  stores := h.stores.resize n mtime ctime
  inode := by
    obtain ⟨htotal, hdata, hrest⟩ := h.inode
    refine ⟨htotal, hdata, ?_⟩
    rw [hrest]
  indexed := h.indexed
  kept := h.kept
  returned := h.returned
  once := h.once

/-- Bytes are changed in place, and the inode is stored with its size and its times. -/
theorem Backed.inPlace {mtime ctime : Time} (h : Backed env s i exts nodes)
    (hworks : Works env s [] (Mapped exts) u) (hle : i.fileSize ≤ size)
    (htail : ∀ pos, size ≤ pos → byteAt u.dev exts pos = 0)
    (hcommits : Commits env u { i with fileSize := size, mtime := mtime, ctime := ctime }
      (fun _ => False) t) :
    Effect env s i t { i with fileSize := size, mtime := mtime, ctime := ctime } ∧
      Backed env t { i with fileSize := size, mtime := mtime, ctime := ctime } exts nodes := by
  have hdev : ∀ b ∈ nodes, t.dev b = s.dev b := by
    intro b hb
    rw [hcommits.dev]
    refine hworks.dev b ?_ List.not_mem_nil
    rintro ⟨k, f, hmaps⟩
    exact h.apart k b f hmaps hb
  have hbacked : Backed env t { i with fileSize := size, mtime := mtime, ctime := ctime } exts
      nodes := by
    refine ⟨h.data, (h.stores.resize size mtime ctime).congr hdev, h.total, h.proper, h.apart, ?_,
      ?_, ?_⟩
    · intro k p f hk
      have := h.bound k p f hk
      simp only [blocksFor, blockSize] at this ⊢
      omega
    · intro b hb
      obtain ⟨hregion, hfits, htaken, hkept⟩ := hworks.inUse (h.own b hb)
      refine ⟨hregion, hfits, fun hfree => htaken ((hcommits.free b).mp hfree), fun hp => ?_⟩
      exact hkept (((hcommits.pending b).mp hp).resolve_right id)
    · rw [hcommits.dev]
      exact htail
  refine ⟨hcommits.effect (hworks.mono fun b hb => h.owned_iff.mpr (.inr hb)) ?_ rfl rfl, hbacked⟩
  exact fun b => hbacked.owned_iff.trans h.owned_iff.symm

/-- An operation that promotes a file first and then gives up no block. -/
theorem Effect.promoted (h : Effect env u j t i') (hin : Small s i)
    (hworks : Works env s new (fun _ => False) u) (hown : ∀ b, Owned u j b ↔ b ∈ new)
    (hkept : ∀ b, Owned u j b → Owned t i' b) (hnumber : j.inodeNumber = i.inodeNumber)
    (hmode : j.filemode = i.filemode) : Effect env s i t i' where
  inodes := by rw [h.inodes, hworks.inodes, hnumber]
  number := h.number.trans hnumber
  mode := h.mode.trans hmode
  dev := by
    intro b hfree _
    have hnew : b ∉ new := hworks.notMem_of_not_free hfree
    rw [h.dev b (hworks.not_free hfree) fun hb => hnew ((hown b).mp hb), hworks.dev b id hnew]
  free := fun b hb => hworks.shrinks b (h.free b hb)
  pending := by
    intro b
    have hsame : Pending env u b ↔ Pending env s b := by
      rw [Pending, PendingAt, hworks.pending]
      exact Iff.rfl
    rw [h.pending, hsame]
    refine or_congr_right (iff_of_false ?_ fun hb => hin.alone b hb.1)
    exact fun hb => hb.2 (hkept b hb.1)
  owned := by
    intro b hb
    right
    rcases h.owned b hb with hb | ⟨hfree, htaken⟩
    · have hnew := (hown b).mp hb
      exact ⟨hworks.free b hnew, fun hfree => hworks.taken b hnew (h.free b hfree)⟩
    · exact ⟨hworks.shrinks b hfree, htaken⟩
  chains := h.chains.trans hworks.chains

/-- The file `i` stands in blocks: as `j` in `u`, with nothing given up. -/
structure Lifted (env : Env) (s : FS) (i : Inode) (u : FS) (j : Inode) (exts : List Extent)
    (nodes : List ℕ) : Prop where
  backed : Backed env u j exts nodes
  room : Room env u
  size : j.fileSize = i.fileSize
  bytes : byteAt u.dev exts = content s i
  effect : ∀ t i', Effect env u j t i' → (∀ b, Mapped exts b → Owned t i' b) → Effect env s i t i'

theorem Backed.lifted (h : Backed env s i exts nodes) (hroom : Room env s) :
    Lifted env s i s i exts nodes :=
  ⟨h, hroom, rfl, h.content_eq.symm, fun _ _ heffect _ => heffect⟩

theorem Small.lifted (hin : Small s i) (hroom : Room env s)
    (h : promoteInlineData env i s = (.ok j, u)) : ∃ exts, Lifted env s i u j exts [] := by
  obtain ⟨exts, new, hworks, hbacked, hmapped, hbytes, hnumber, hmode, hsize⟩ :=
    promoteInlineData_spec hin hroom h
  have hown : ∀ b, Owned u j b ↔ Mapped exts b := fun b => by
    rw [hbacked.owned_iff, or_iff_right List.not_mem_nil]
    rfl
  refine ⟨exts, hbacked, hworks.room hroom, hsize, hbytes.trans hin.bytes.symm,
    fun t i' heffect hkept => ?_⟩
  exact heffect.promoted hin hworks (fun b => (hown b).trans (hmapped b))
    (fun b hb => hkept b ((hown b).mp hb)) hnumber hmode

theorem Opened.self {ino : ℕ} (h : Opened env s ino i u) (heffect : Effect env u i t i') :
    t.inodes ino = i' := by
  rw [heffect.inodes, h.number, Function.update_self]

theorem Opened.outcome_backed {ino : ℕ} (h : Opened env s ino i u) (heffect : Effect env u i t i')
    (hbacked : Backed env t i' exts nodes) (hsize : i'.fileSize ≤ maxFileSize) :
    Outcome env s ino i'.fileSize (byteAt t.dev exts) t := by
  rw [← hbacked.content_eq]
  exact h.outcome heffect ⟨hsize, .inr ⟨exts, nodes, hbacked⟩⟩ fun _ => hbacked.neat

end Briefs.File
