import Briefs.File.Index

/-!
# The chain of the leaves

Every leaf stores the block of the leaf behind it. A rebuild keeps the leading equal leaves
up to the last of them, which it builds anew to set its pointer; the leaf before that one is
left as it is and still points to where the last one was.
-/

namespace Briefs.File

open Lib Btree
open Bridge (BlockRun)

variable {env : Env} {s t : FS} {i i' : Inode} {exts : List Extent} {tree : ExtentTree}
  {runs : List BlockRun}

/-- The pointer stored in a node. -/
def nextLeafAt (dev : ℕ → Cell) (block : ℕ) : Option ℕ :=
  match dev block with
  | .node n => some n.nextLeaf
  | _ => none

/-- Each block points to the one behind it, the last one to none. -/
def Linked (dev : ℕ → Cell) (blocks : List ℕ) : Prop :=
  ∀ k < blocks.length, nextLeafAt dev (blocks.getD k 0) = some (blocks.getD (k + 1) 0)

instance (dev : ℕ → Cell) (blocks : List ℕ) : Decidable (Linked dev blocks) :=
  inferInstanceAs (Decidable (∀ k < blocks.length, _))

/-- The leaves under a root are linked from left to right. -/
def LeafChain (dev : ℕ → Cell) (root : ℕ) : Prop :=
  Linked dev ((leavesAt dev root).map Prod.fst)

instance (dev : ℕ → Cell) (root : ℕ) : Decidable (LeafChain dev root) :=
  inferInstanceAs (Decidable (Linked dev _))

theorem Linked.next {dev : ℕ → Cell} {front back : List ℕ} {b : ℕ}
    (h : Linked dev (front ++ b :: back)) : nextLeafAt dev b = some (back.headD 0) := by
  have hk := h front.length (by simp)
  rw [List.getD_append_right _ _ _ _ le_rfl, List.getD_append_right _ _ _ _ (Nat.le_succ _)] at hk
  cases back <;> simpa using hk

theorem linked_leafNodes {dev : ℕ → Cell} {blocks : List ℕ} {chunks : List (List Extent)}
    (hlen : blocks.length = chunks.length)
    (hwritten : ∀ x ∈ leafNodes blocks chunks, dev x.1 = .node x.2) : Linked dev blocks := by
  induction blocks generalizing chunks with
  | nil => exact fun k hk => absurd hk (Nat.not_lt_zero k)
  | cons b blocks ih =>
    cases chunks with
    | nil => simp at hlen
    | cons c chunks =>
      obtain ⟨hfirst, hrest⟩ := List.forall_mem_cons.mp hwritten
      intro k hk
      cases k with
      | zero =>
        rw [List.getD_cons_zero, List.getD_cons_succ, nextLeafAt, hfirst]
        cases blocks <;> rfl
      | succ k =>
        rw [List.getD_cons_succ, List.getD_cons_succ]
        exact ih (by simpa using hlen) hrest k (by simpa using hk)

theorem reuseCount_lt {chunks : List (List Extent)} {leaves : List (ℕ × List Extent)}
    (h : reuseCount chunks leaves ≠ 0) :
    reuseCount chunks leaves < chunks.length ∧ reuseCount chunks leaves < leaves.length := by
  obtain ⟨hle, hle', -⟩ := equalChunks_spec chunks (leaves.map Prod.snd)
  rw [List.length_map] at hle'
  simp only [reuseCount] at h ⊢
  split_ifs at h ⊢ <;> omega

/-- A rebuilt tree whose leaves were linked: they are still linked just where none was kept. -/
theorem Localized.leafChain_iff {kept dropped : List (ℕ × List Extent)} {fresh new nodes : List ℕ}
    (h : Localized env s i tree exts i' runs kept dropped fresh new nodes t)
    (hown : ∀ b ∈ tree.nodes, ¬Free env s b) (hchain : Linked s.dev (tree.leaves.map Prod.fst)) :
    LeafChain t.dev i'.extentInlineBase ↔ kept = [] := by
  have hlen : fresh.length = ((chunkBtreeExtents exts).drop kept.length).length := by
    rw [h.length, List.length_drop]
  have hleaves : (leavesAt t.dev i'.extentInlineBase).map Prod.fst = kept.map Prod.fst ++ fresh := by
    rw [h.leaves, List.map_append, List.map_fst_zip hlen.le]
  rw [LeafChain, hleaves]
  constructor
  · intro hnew
    by_contra hne
    obtain ⟨front, x, rfl⟩ := List.eq_nil_or_concat' kept |>.resolve_left hne
    -- The last leaf that was kept pointed to the first one that was not.
    have hsome : reuseCount (chunkBtreeExtents exts) tree.leaves ≠ 0 := by
      rw [← h.reused]
      simp
    have hreuse := reuseCount_lt hsome
    rw [← h.reused] at hreuse
    have hfresh : fresh ≠ [] := List.ne_nil_of_length_pos (by
      rw [h.length]
      omega)
    obtain ⟨b, fresh, rfl⟩ := List.exists_cons_of_ne_nil hfresh
    have hdropped : dropped ≠ [] := by
      rintro rfl
      rw [h.old, List.append_nil] at hreuse
      exact lt_irrefl _ hreuse.2
    obtain ⟨y, dropped, rfl⟩ := List.exists_cons_of_ne_nil hdropped
    have hnodes : ∀ z ∈ tree.leaves, ¬Free env s z.1 := fun z hz =>
      hown z.1 (List.mem_append_left _ (List.mem_map_of_mem hz))
    rw [h.old] at hchain hnodes
    simp only [List.map_append, List.map_cons, List.map_nil, List.append_assoc,
      List.cons_append, List.nil_append] at hchain hnew
    have hbefore := hchain.next
    have hafter := hnew.next
    have hsame : t.dev x.1 = s.dev x.1 := by
      refine h.works.dev x.1 id (h.works.notMem_of_not_free (hnodes x ?_))
      simp
    rw [nextLeafAt, hsame] at hafter
    rw [nextLeafAt, hafter] at hbefore
    obtain rfl : b = y.1 := by simpa using hbefore
    exact hnodes y (by simp) (h.works.free _ (h.taken _ List.mem_cons_self))
  · rintro rfl
    exact linked_leafNodes hlen h.written

theorem leavesAt_collect (hdata : ¬isInlineData i) (hindexed : isIndexed i)
    (hbase : i.extentInlineBase ≠ 0) (h : collectExtentTree s.dev i = .ok tree) :
    tree.leaves = leavesAt s.dev i.extentInlineBase := by
  rw [collectExtentTree, if_neg hdata, if_neg (not_not.mpr hindexed), if_neg hbase] at h
  dsimp only at h
  split_ifs at h
  obtain rfl := Except.ok.inj h
  rfl

/-- Rebuild an index for 260 extents and then for `n`: whether its leaves are linked before and
after the second rebuild. -/
def relink (n : ℕ) : Call FS (Bool × Bool) := do
  let (i, _) ← respace 260 (freshVolume.inodes 2)
  let s ← Call.read
  let (j, _) ← (if isIndexed i then respace n i else Call.fail .crash)
  let t ← Call.read
  pure (decide (LeafChain s.dev i.extentInlineBase), decide (LeafChain t.dev j.extentInlineBase))

theorem relink_eq_ok {n : ℕ} {before after : Bool}
    (h : (relink n freshVolume).1 = .ok (before, after)) :
    ∃ s i tree i' runs t, Produced plainEnv s i ∧ isIndexed i ∧
      collectExtentTree s.dev i = .ok tree ∧
      rebuildExtentIndexWrite plainEnv i tree (spacedExtents n) s = (.ok (i', runs), t) ∧
      (before = true ↔ LeafChain s.dev i.extentInlineBase) ∧
      (after = true ↔ LeafChain t.dev i'.extentInlineBase) := by
  rcases hrun : relink n freshVolume with ⟨r, z⟩
  rw [hrun] at h
  obtain rfl := h
  unfold relink at hrun
  obtain ⟨⟨i, runs₀⟩, s, hfirst, hrun⟩ := Call.bind_eq_ok hrun
  obtain ⟨s', u, hread, hrun⟩ := Call.bind_eq_ok hrun
  obtain ⟨⟨j, runs⟩, t, hsecond, hrun⟩ := Call.bind_eq_ok hrun
  obtain ⟨t', v, hread', hrun⟩ := Call.bind_eq_ok hrun
  obtain ⟨hres, -⟩ := Call.pure_eq_ok hrun
  cases hread
  cases hread'
  cases hres
  split_ifs at hsecond with hindexed
  · obtain ⟨tree₀, hcollect₀, hrebuild₀⟩ := respace_eq_ok hfirst
    obtain ⟨tree, hcollect, hrebuild⟩ := respace_eq_ok hsecond
    have hproduced : Produced plainEnv s i :=
      .rebuild (.start (by decide) (by decide)) hcollect₀ (sorted_spacedExtents 260)
        (spacedExtents_fit (by norm_num)) hrebuild₀
    exact ⟨s, i, tree, j, runs, t, hproduced, hindexed, hcollect, hrebuild, by simp, by simp⟩
  · exact absurd (Prod.mk.inj hsecond).1 (by simp)

end Briefs.File
