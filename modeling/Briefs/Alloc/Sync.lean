import Briefs.Alloc.Image
import Briefs.Alloc.Stale
import Briefs.Alloc.Taken

/-!
# Writing the pool back

`Sync` of `fs.go` writes of the last level only the blocks that are marked. Every call of the
allocator marks the words it changes, so after each `Sync` the device holds the pool as it is in
memory. The exception is a call that mends a stale summary and finds nothing.
-/

namespace Briefs.Alloc

open Bitmap Lib

namespace Pyramid

variable {p q r : Pyramid} {ws : Set ℕ}

/-- Of the last level only the given words changed. -/
structure Within (p q : Pyramid) (ws : Set ℕ) : Prop where
  size : Alike p q
  bits : ∀ i, i / 64 ∉ ws → q.isFree i = p.isFree i
  count : p.freeCount < 2 ^ 64 → q.freeCount < 2 ^ 64

theorem Within.refl (p : Pyramid) (ws : Set ℕ) : Within p p ws := ⟨.refl p, fun _ _ => rfl, id⟩

theorem Within.trans (h : Within p q ws) (h' : Within q r ws) : Within p r ws :=
  ⟨h.size.trans h'.size, fun i hi => (h'.bits i hi).trans (h.bits i hi), h'.count ∘ h.count⟩

theorem Within.withCount {n : ℕ} (h : Within p q ws) (hn : n < 2 ^ 64) :
    Within p { q with freeCount := n } ws where
  size := ⟨h.size.l0, h.size.l1, h.size.l2, h.size.blockCount⟩
  bits i hi := by
    rw [isFree_congr q (q := { q with freeCount := n }) rfl i]
    exact h.bits i hi
  count _ := hn

theorem isFree_set_of_ne {w : ℕ} {x : Word} (h : q.l2 = p.l2.set w x) {i : ℕ} (hi : i / 64 ≠ w) :
    q.isFree i = p.isFree i := by
  change bitAt q.l2 i = bitAt p.l2 i
  rw [h, bitAt_set, if_neg fun hin => hi hin.1]

theorem within_freeWord (first n : ℕ) (acc : Pyramid × ℕ) (w : ℕ) (hw : w ∈ ws) :
    Within acc.1 (freeWord first n acc w).1 ws := by
  refine ⟨alike_freeWord .., fun i hi => ?_, fun hcount => ?_⟩
  · rcases freeWord_l2 first n acc w with hl2 | hl2
    · exact isFree_congr _ hl2 i
    · exact isFree_set_of_ne hl2 fun heq => hi (heq ▸ hw)
  · unfold freeWord
    dsimp only
    split_ifs
    · exact hcount
    all_goals exact Nat.mod_lt _ (by norm_num)

theorem within_markFreeRun (p : Pyramid) (first n : ℕ) :
    Within p (p.markFreeRun first n).1
      { w | first / 64 ≤ w ∧ w ≤ (first + min n (p.blockCount - first) - 1) / 64 } := by
  refine p.markFreeRun_rule (P := fun acc => Within p acc.1 _) first n (.refl p _) ?_
  rintro _ acc w rfl _ hlow hhigh hacc
  exact hacc.trans (within_freeWord _ _ acc w ⟨hlow, hhigh⟩)

/-- A scan that finds nothing leaves the count, and any scan keeps it in 64 bits. -/
theorem freeCount_scan (p : Pyramid) (ws : List ℕ) :
    ((p.scan ws).2 = none → (p.scan ws).1.freeCount = p.freeCount) ∧
      (p.freeCount < 2 ^ 64 → (p.scan ws).1.freeCount < 2 ^ 64) := by
  induction ws generalizing p with
  | nil => exact ⟨fun _ => rfl, id⟩
  | cons w0 ws ih =>
    have hstale : ∀ q : Pyramid, q.freeCount = p.freeCount →
        ((q.scan ws).2 = none → (q.scan ws).1.freeCount = p.freeCount) ∧
          (p.freeCount < 2 ^ 64 → (q.scan ws).1.freeCount < 2 ^ 64) := by
      intro q hq
      rw [← hq]
      exact ih q
    unfold scan
    dsimp only
    split_ifs
    · exact ih p
    · exact ⟨fun _ => rfl, id⟩
    · exact hstale _ rfl
    · exact ⟨fun _ => rfl, id⟩
    · exact hstale _ rfl
    · exact hstale _ rfl
    · exact ⟨fun _ => rfl, id⟩
    · refine ⟨fun hnone => hnone.elim, fun _ => ?_⟩
      unfold take
      dsimp only
      split_ifs <;> exact Nat.mod_lt _ (by norm_num)

theorem within_emptied (p : Pyramid) (w : ℕ) : Within p (p.emptied w) ∅ := by
  obtain ⟨hl2, -, hcount⟩ := p.emptied_fields w
  exact ⟨alike_emptied p w, fun i _ => isFree_congr _ hl2 i, fun h => hcount.trans_lt h⟩

theorem Within.mono {ws ws' : Set ℕ} (h : Within p q ws) (hsub : ws ⊆ ws') : Within p q ws' :=
  ⟨h.size, fun i hi => h.bits i fun hin => hi (hsub hin), h.count⟩

theorem within_markAllocated (p : Pyramid) (rel : ℕ) :
    Within p (p.markAllocated rel).1 {rel / 64} := by
  unfold markAllocated
  split_ifs
  · exact .refl p _
  · exact .refl p _
  · refine Within.trans (q := { p.clear2 (rel / 64) (rel % 64) with
      freeCount := (p.freeCount + 2 ^ 64 - 1) % 2 ^ 64 }) ⟨⟨rfl, rfl, List.length_set, rfl⟩,
        fun i hi => isFree_set_of_ne rfl hi, fun _ => Nat.mod_lt _ (by norm_num)⟩
      ((within_emptied _ _).mono (Set.empty_subset _))

theorem within_markFree (p : Pyramid) (rel : ℕ) : Within p (p.markFree rel).1 {rel / 64} := by
  rcases p.markFree_cases rel with ⟨heq, -⟩ | ⟨q, heq, -, -, hsize, hl2⟩
  · rw [heq]
    exact .refl p _
  · refine ⟨by rw [heq]; exact hsize, fun i hi => by rw [heq]; exact isFree_set_of_ne hl2 hi, ?_⟩
    intro hcount
    unfold markFree
    split_ifs
    · exact hcount
    · exact hcount
    · dsimp only
      split_ifs <;> exact Nat.mod_lt _ (by norm_num)

end Pyramid

namespace Allocator

open Pyramid

variable {a b c : Allocator}

/-- What changed is marked for the next `Sync`. -/
structure Marked (a b : Allocator) : Prop where
  size : Alike a.bitmap b.bitmap
  dirty : a.dirty = true → b.dirty = true
  kept : ∀ k ∈ a.l2Dirty, k ∈ b.l2Dirty
  bits : ∀ i, i / 64 / 512 ∉ b.l2Dirty → b.isFree i = a.isFree i
  count : a.bitmap.freeCount < 2 ^ 64 → b.bitmap.freeCount < 2 ^ 64
  clean : b.dirty = false → b.l2Dirty = a.l2Dirty ∧ b.bitmap.freeCount = a.bitmap.freeCount
  /-- With the summaries in order there is nothing to mend. -/
  same : a.bitmap.Whole → b.dirty = false → b.bitmap = a.bitmap

theorem marked_of_eq (hbitmap : b.bitmap = a.bitmap) (hdirty : b.dirty = a.dirty)
    (hl2 : b.l2Dirty = a.l2Dirty) : Marked a b where
  size := hbitmap ▸ .refl _
  dirty := hdirty.trans
  kept _ hk := hl2 ▸ hk
  bits _ _ := by rw [isFree, hbitmap, isFree]
  count := hbitmap ▸ id
  clean _ := ⟨hl2, congrArg _ hbitmap⟩
  same _ _ := hbitmap

theorem Marked.refl (a : Allocator) : Marked a a := marked_of_eq rfl rfl rfl

theorem Marked.trans (h : Marked a b) (h' : Marked b c) : Marked a c where
  size := h.size.trans h'.size
  dirty := h'.dirty ∘ h.dirty
  kept k hk := h'.kept k (h.kept k hk)
  bits i hi := (h'.bits i hi).trans (h.bits i fun hin => hi (h'.kept _ hin))
  count := h'.count ∘ h.count
  clean hc := by
    have hb : b.dirty = false := Bool.eq_false_iff.mpr fun hb => by
      rw [h'.dirty hb] at hc
      cases hc
    obtain ⟨hl2, hcount⟩ := h'.clean hc
    obtain ⟨hl2', hcount'⟩ := h.clean hb
    exact ⟨hl2.trans hl2', hcount.trans hcount'⟩
  same hw hc := by
    have hb : b.dirty = false := Bool.eq_false_iff.mpr fun hb => by
      rw [h'.dirty hb] at hc
      cases hc
    have hsame := h.same hw hb
    exact (h'.same (hsame ▸ hw) hc).trans hsame

theorem marked_of_within (ws : Set ℕ) (h : Within a.bitmap b.bitmap ws) (hdirty : b.dirty = true)
    (hkept : ∀ k ∈ a.l2Dirty, k ∈ b.l2Dirty) (hws : ∀ w ∈ ws, w / 512 ∈ b.l2Dirty) :
    Marked a b where
  size := h.size
  dirty _ := hdirty
  kept := hkept
  bits i hi := h.bits i fun hin => hi (hws _ hin)
  count := h.count
  clean hclean := by
    rw [hdirty] at hclean
    cases hclean
  same _ hclean := by
    rw [hdirty] at hclean
    cases hclean

theorem marks_foldl_markL2Word (ws : List ℕ) (a : Allocator) :
    (∀ k, k ∈ (ws.foldl markL2Word a).l2Dirty ↔ k ∈ a.l2Dirty ∨ ∃ w ∈ ws, k = w / 512) ∧
      (a.dirty = true ∨ ws ≠ [] → (ws.foldl markL2Word a).dirty = true) := by
  induction ws generalizing a with
  | nil => exact ⟨by simp, by simp⟩
  | cons w ws ih =>
    obtain ⟨hmarks, hdirty⟩ := ih (a.markL2Word w)
    refine ⟨fun k => ?_, fun _ => hdirty (.inl rfl)⟩
    rw [List.foldl_cons, hmarks, markL2Word]
    simp only [List.mem_cons, exists_eq_or_imp]
    tauto

theorem marked_markL2Word {p : Pyramid} {w : ℕ} (h : Within a.bitmap p {w}) :
    Marked a ({ a with bitmap := p }.markL2Word w) :=
  marked_of_within _ (b := { a with bitmap := p }.markL2Word w) h rfl
    (fun _ hk => List.mem_cons_of_mem _ hk) fun _ hw => by
      rw [Set.mem_singleton_iff.mp hw]
      exact List.mem_cons_self

theorem marked_reserveBlock (a : Allocator) (rel : ℕ) : Marked a (a.reserveBlock rel) := by
  have hwithin := a.bitmap.within_markAllocated rel
  unfold reserveBlock
  split
  · rename_i q heq
    rw [heq] at hwithin
    exact marked_markL2Word hwithin
  · exact .refl a

theorem marked_freeBlock (a : Allocator) (rel : ℕ) : Marked a (a.freeBlock rel) := by
  have hwithin := a.bitmap.within_markFree rel
  unfold freeBlock
  split
  · rename_i q heq
    rw [heq] at hwithin
    exact marked_markL2Word hwithin
  · exact .refl a

theorem marked_freeRun (a : Allocator) (first n : ℕ) : Marked a (a.freeRun first n) := by
  unfold freeRun
  split_ifs with hnone
  · exact .refl a
  have hwithin := a.bitmap.within_markFreeRun first (min n (a.bitmap.blockCount - first))
  rw [Nat.min_assoc, Nat.min_self] at hwithin
  dsimp only
  split
  · exact .refl a
  · rename_i q k heq
    rw [heq] at hwithin
    obtain ⟨hmarks, hdirty⟩ := marks_foldl_markL2Word (List.range' (first / 64)
      ((first + min n (a.bitmap.blockCount - first) - 1) / 64 - first / 64 + 1))
      { a with bitmap := q }
    refine marked_of_within { w | first / 64 ≤ w ∧
      w ≤ (first + min n (a.bitmap.blockCount - first) - 1) / 64 } ?_ (hdirty (.inr ?_)) ?_ ?_
    · rw [bitmap_foldl_markL2Word]
      exact hwithin
    · exact List.ne_nil_of_length_pos (by rw [List.length_range']; omega)
    · exact fun k hk => (hmarks k).mpr (.inl hk)
    · intro w hw
      have hw' : first / 64 ≤ w ∧ w ≤ (first + min n (a.bitmap.blockCount - first) - 1) / 64 := hw
      exact (hmarks _).mpr (.inr ⟨w, List.mem_range'_1.mpr (by omega), rfl⟩)

theorem marked_tryAllocBlock (a : Allocator) (forMeta : Bool) :
    Marked a (a.tryAllocBlock forMeta).2 := by
  rcases a.tryAllocBlock_cases forMeta with ⟨-, heq⟩ | ⟨havail, p, found, hscan, hfound⟩
  · rw [heq]
    exact .refl a
  have hspec := a.bitmap.scan_spec (List.range a.bitmap.l0.length)
  have hsize := a.bitmap.alike_scan (List.range a.bitmap.l0.length)
  obtain ⟨hnone, hcount⟩ := a.bitmap.freeCount_scan (List.range a.bitmap.l0.length)
  rw [hscan] at hspec hsize hnone hcount
  rcases hfound with ⟨rfl, heq⟩ | ⟨block, rfl, heq⟩
  · rw [heq]
    refine ⟨hsize, id, fun _ => id, fun i _ => hspec.2 i, hcount, fun _ => ⟨rfl, hnone rfl⟩, ?_⟩
    -- a whole pool with free blocks has one to find
    intro hwhole _
    obtain ⟨i, hi⟩ := hwhole.freeCount_pos_iff.mp (havail.trans_le (a.available_le forMeta))
    obtain ⟨block, hblock⟩ := hwhole.scan_finds hi
    rw [hscan] at hblock
    cases hblock
  · rw [heq]
    refine marked_markL2Word ⟨hsize, fun i hi => ?_, hcount⟩
    have hne : i ≠ block := by
      rintro rfl
      exact hi rfl
    rw [hspec.2.2.2 i, decide_eq_true hne, Bool.and_true]

theorem marked_reserveBlockZero (a : Allocator) : Marked a a.reserveBlockZero := by
  unfold reserveBlockZero
  split_ifs
  · refine marked_markL2Word (Within.trans (q := { a.bitmap.clear2 0 0 with
      freeCount := (a.bitmap.freeCount + 2 ^ 64 - 1) % 2 ^ 64 }) ⟨⟨rfl, rfl, List.length_set, rfl⟩,
        fun i hi => isFree_set_of_ne rfl hi, fun _ => Nat.mod_lt _ (by norm_num)⟩
      ((within_emptied _ _).mono (Set.empty_subset _)))
  · exact .refl a

theorem within_clearRun (p : Pyramid) (first n : ℕ) :
    Within p ((List.range n).foldl
      (fun p i => p.clear2 ((first + i) / 64) ((first + i) % 64)) p) (Set.Icc (first / 64)
        ((first + n - 1) / 64)) := by
  have hfold : ∀ k ≤ n, Within p ((List.range k).foldl
      (fun p i => p.clear2 ((first + i) / 64) ((first + i) % 64)) p) (Set.Icc (first / 64)
        ((first + n - 1) / 64)) := by
    intro k hk
    induction k with
    | zero => exact .refl p _
    | succ k ih =>
      rw [List.range_succ, List.foldl_append, List.foldl_cons, List.foldl_nil]
      refine (ih (by omega)).trans ⟨⟨rfl, rfl, List.length_set, rfl⟩, fun i hi => ?_, id⟩
      refine isFree_set_of_ne rfl fun hin => hi ?_
      rw [Set.mem_Icc]
      omega
  exact hfold n le_rfl

theorem foldl_mendWord (ws : List ℕ) (a : Allocator) :
    Within a.bitmap (ws.foldl mendWord a).bitmap ∅ ∧
      (∀ k, k ∈ a.l2Dirty ∨ (∃ w ∈ ws, k = w / 512) → k ∈ (ws.foldl mendWord a).l2Dirty) ∧
      (a.dirty = true → (ws.foldl mendWord a).dirty = true) := by
  induction ws generalizing a with
  | nil => exact ⟨.refl _ _, by simp, id⟩
  | cons w ws ih =>
    obtain ⟨hwithin, hmarks, hdirty⟩ := ih (a.mendWord w)
    refine ⟨(within_emptied a.bitmap w).trans hwithin, fun k hk => hmarks k ?_, fun _ => hdirty rfl⟩
    rcases hk with hk | ⟨v, hv, rfl⟩
    · exact .inl (List.mem_cons_of_mem _ hk)
    · rcases List.mem_cons.mp hv with rfl | hv
      · exact .inl List.mem_cons_self
      · exact .inr ⟨v, hv, rfl⟩

theorem marked_tryAllocBlocks (a : Allocator) (n : ℕ) : Marked a (a.tryAllocBlocks n).2 := by
  unfold tryAllocBlocks
  split_ifs with hguard
  · exact .refl a
  refine a.marked_reserveBlockZero.trans ?_
  dsimp only
  generalize a.reserveBlockZero = b
  split_ifs with hfound
  · exact .refl b
  generalize (b.bitmap.scanMaximalRuns (firstFit n) n (0, 0)).1 = first
  have hclear := within_clearRun b.bitmap first n
  generalize (List.range n).foldl
    (fun p i => p.clear2 ((first + i) / 64) ((first + i) % 64)) b.bitmap = p at hclear ⊢
  have hcount : (p.freeCount + 2 ^ 64 - n) % 2 ^ 64 < 2 ^ 64 := Nat.mod_lt _ (by norm_num)
  generalize (p.freeCount + 2 ^ 64 - n) % 2 ^ 64 = count at hcount ⊢
  have hwithin := hclear.withCount hcount
  obtain ⟨hmended, hmarks, hdirty⟩ := foldl_mendWord (runWords first n) { b with
    bitmap := { p with freeCount := count }, dirty := true }
  dsimp only at hmended hmarks hdirty ⊢
  generalize List.foldl mendWord _ (runWords first n) = c at hmended hmarks hdirty ⊢
  refine marked_of_within _ (hwithin.trans (hmended.mono (Set.empty_subset _))) (hdirty rfl)
    (fun k hk => hmarks k (.inl hk)) fun w hw => ?_
  obtain ⟨hlow, hhigh⟩ := Set.mem_Icc.mp hw
  exact hmarks _ (.inr ⟨w, mem_runWords.mpr ⟨hlow, hhigh.trans (le_max_right _ _)⟩, rfl⟩)

theorem marked_takeRuns (runs : List (ℕ × ℕ)) (a : Allocator) :
    Marked a (runs.foldl takeRun a) := by
  have hword : ∀ (first n : ℕ) (a : Allocator) (w : ℕ), Marked a (takeWord first n a w) := by
    intro first n a w
    refine marked_markL2Word (Within.trans (q := { a.bitmap with
      l2 := a.bitmap.l2.set w (a.bitmap.word2 w &&& ~~~(takeMask first n w)) })
      ⟨⟨rfl, rfl, List.length_set, rfl⟩, fun i hi => isFree_set_of_ne rfl hi, id⟩
      ((within_emptied _ _).mono (Set.empty_subset _)))
  have hwords : ∀ (r : ℕ × ℕ) (ws : List ℕ) (a : Allocator),
      Marked a (ws.foldl (takeWord r.1 r.2) a) := by
    intro r ws
    induction ws with
    | nil => exact .refl
    | cons w ws ih => exact fun a => (hword r.1 r.2 a w).trans (ih _)
  induction runs generalizing a with
  | nil => exact .refl a
  | cons r runs ih => exact (hwords r _ a).trans (ih _)

theorem marked_tryAllocRunsUpTo (a : Allocator) (n : ℕ) : Marked a (a.tryAllocRunsUpTo n).2 := by
  unfold tryAllocRunsUpTo
  split_ifs with havail hguard
  · exact .refl a
  · exact .refl a
  refine a.marked_reserveBlockZero.trans ?_
  dsimp only
  generalize a.reserveBlockZero = b
  generalize (b.bitmap.scanMaximalRuns harvest 0 ([], min n (a.available false))).1 = runs
  split_ifs
  · exact .refl b
  refine (marked_takeRuns runs b).trans ?_
  generalize runs.foldl takeRun b = c
  have hcount : (c.bitmap.freeCount + 2 ^ 64 - (runs.map Prod.snd).sum) % 2 ^ 64 < 2 ^ 64 :=
    Nat.mod_lt _ (by norm_num)
  generalize (c.bitmap.freeCount + 2 ^ 64 - (runs.map Prod.snd).sum) % 2 ^ 64 = count at hcount ⊢
  dsimp only
  exact marked_of_within _ ((Within.refl c.bitmap ∅).withCount hcount) rfl (fun _ => id)
    fun _ hw => absurd hw (Set.notMem_empty _)

end Allocator

namespace PoolOp

/-- The calls of the runtime allocator; the others are those of the builder. -/
def runtime : PoolOp → Bool
  | markAllocated _ | markFree _ | markFreeRun _ _ | allocateBlock => false
  | _ => true

/-- Every call marks what it changes. -/
theorem marked_apply {op : PoolOp} (h : op.runtime = true) (a : Allocator) :
    Allocator.Marked a (op.apply a) := by
  cases op with
  | markAllocated rel => cases h
  | markFree rel => cases h
  | markFreeRun first n => cases h
  | allocateBlock => cases h
  | reserveBlock rel => exact a.marked_reserveBlock rel
  | freeBlock rel => exact a.marked_freeBlock rel
  | freeRun first n => exact a.marked_freeRun first n
  | allocBlock forMeta => exact a.marked_tryAllocBlock forMeta
  | allocBlocks n =>
    change Allocator.Marked a (a.allocBlocks n).2
    unfold Allocator.allocBlocks
    split_ifs
    · exact .refl a
    · exact a.marked_tryAllocBlocks n
  | allocRunsUpTo n =>
    change Allocator.Marked a (a.allocRunsUpTo n).2
    unfold Allocator.allocRunsUpTo
    split_ifs
    · exact .refl a
    · exact a.marked_tryAllocRunsUpTo n
  | reserveBlockZero => exact a.marked_reserveBlockZero
  | adjustShield delta => exact Allocator.marked_of_eq rfl rfl rfl

end PoolOp

/-! ### The pool on the device follows -/

namespace Pyramid

variable {p q : Pyramid}

theorem word2_eq_of_bits {w : ℕ} (h : ∀ j < 64, q.isFree (w * 64 + j) = p.isFree (w * 64 + j)) :
    q.word2 w = p.word2 w := by
  apply BitVec.eq_of_getLsbD_eq
  intro j hj
  rw [← isFree_of_bits q hj, ← isFree_of_bits p hj]
  exact h j hj

theorem word2_eq_getElem {w : ℕ} (hw : w < p.l2.length) : p.word2 w = p.l2[w] := by
  rw [word2, List.getD_eq_getElem?_getD, List.getElem?_eq_getElem hw, Option.getD_some]

end Pyramid

namespace Allocator

open Pyramid

variable {a b : Allocator} {disk : Pyramid}

/-- The pool on the device differs from the one in memory at most where it is marked. -/
structure Tracks (disk : Pyramid) (a : Allocator) : Prop where
  size : Alike disk a.bitmap
  bits : ∀ i, i / 64 / 512 ∉ a.l2Dirty → a.isFree i = disk.isFree i
  clean : a.dirty = false → a.l2Dirty = [] ∧ a.bitmap.freeCount = disk.freeCount

theorem Tracks.step (h : Tracks disk a) (h' : Marked a b) : Tracks disk b where
  size := h.size.trans h'.size
  bits i hi := (h'.bits i hi).trans (h.bits i fun hin => hi (h'.kept _ hin))
  clean hb := by
    have ha : a.dirty = false := Bool.eq_false_iff.mpr fun ha => by
      rw [h'.dirty ha] at hb
      cases hb
    obtain ⟨hl2, hcount⟩ := h'.clean hb
    obtain ⟨hl2', hcount'⟩ := h.clean ha
    exact ⟨hl2.trans hl2', hcount.trans hcount'⟩

/-- The blocks that are not marked are on the device already. -/
theorem Tracks.l2_syncPool (h : Tracks disk a) : (a.syncPool disk).l2 = a.bitmap.l2 := by
  have hwords : ∀ w, w / 512 ∉ a.l2Dirty → a.bitmap.word2 w = disk.word2 w := by
    intro w hw
    refine word2_eq_of_bits fun j hj => h.bits _ ?_
    rwa [show (w * 64 + j) / 64 = w by omega]
  unfold syncPool
  by_cases hdirty : a.dirty = true
  · rw [if_pos hdirty]
    dsimp only
    split_ifs
    · rfl
    · apply List.ext_getElem
      · exact List.length_mapIdx
      · intro w _ hw
        rw [List.getElem_mapIdx]
        split_ifs with hmarked
        · rfl
        · rw [← hwords w hmarked, word2_eq_getElem hw]
  · rw [if_neg hdirty]
    obtain ⟨hnone, -⟩ := h.clean (Bool.eq_false_iff.mpr hdirty)
    apply List.ext_getElem h.size.l2.symm
    intro w hw hw'
    have hword := hwords w (by rw [hnone]; exact List.not_mem_nil)
    rw [word2_eq_getElem hw, word2_eq_getElem hw'] at hword
    exact hword.symm

theorem Tracks.syncPool_of_dirty (h : Tracks disk a) (hdirty : a.dirty = true) :
    a.syncPool disk = a.bitmap := by
  have hrest : a.syncPool disk = { a.bitmap with l2 := (a.syncPool disk).l2 } := by
    unfold syncPool
    rw [if_pos hdirty]
  rw [hrest, h.l2_syncPool]

theorem syncPool_of_clean (h : a.dirty = false) : a.syncPool disk = disk := by
  unfold syncPool
  rw [h, if_neg Bool.false_ne_true]

/-- After a `Sync` the count on the device is the one in memory, and nothing is marked. -/
theorem Tracks.sync (h : Tracks disk a) : Tracks (a.syncPool disk) a.synced ∧
    (a.syncPool disk).freeCount = a.bitmap.freeCount := by
  have hpool : Alike (a.syncPool disk) a.bitmap ∧
      (a.syncPool disk).freeCount = a.bitmap.freeCount := by
    by_cases hdirty : a.dirty = true
    · rw [h.syncPool_of_dirty hdirty]
      exact ⟨.refl _, rfl⟩
    · have hclean := Bool.eq_false_iff.mpr hdirty
      rw [syncPool_of_clean hclean]
      exact ⟨h.size, (h.clean hclean).2.symm⟩
  have hnone : a.synced.l2Dirty = [] := by
    unfold synced
    dsimp only
    split_ifs with hdirty
    · rfl
    · exact (h.clean (Bool.eq_false_iff.mpr hdirty)).1
  refine ⟨⟨hpool.1, fun i _ => ?_, fun _ => ⟨hnone, hpool.2.symm⟩⟩, hpool.2⟩
  exact (isFree_congr _ h.l2_syncPool i).symm

end Allocator

/-- The device and the allocator in memory. -/
structure PoolState where
  dev : ℕ → Bytes
  alloc : Allocator

/-- A call of the runtime allocator, or a `Sync`. -/
inductive PoolAct where
  | call (op : { op : PoolOp // op.runtime = true })
  | sync

namespace PoolAct

open Pyramid Allocator

def apply (poolStart : ℕ) (s : PoolState) : PoolAct → PoolState
  | call op => { s with alloc := op.1.apply s.alloc }
  | sync => ⟨s.alloc.sync poolStart s.dev, s.alloc.synced⟩

def applyAll (poolStart : ℕ) (acts : List PoolAct) (s : PoolState) : PoolState :=
  acts.foldl (apply poolStart) s

/-- A pool that was written in full and opened. -/
def written (p : Pyramid) (dev : ℕ → Bytes) (poolStart : ℕ) : PoolState :=
  ⟨writeFrom dev poolStart p.writeBlocks, ofPool p⟩

/-- Between the acts: the device holds a pool that the memory follows, and all of it is the same
where the summaries are in order and nothing is to be written. -/
structure Backed (poolStart : ℕ) (ordered : Prop) (s : PoolState) (disk : Pyramid) : Prop where
  holds : Holds s.dev poolStart disk
  tracks : Tracks disk s.alloc
  fits : Fits s.alloc.bitmap
  whole : ordered → s.alloc.bitmap.Whole
  same : ordered → s.alloc.dirty = false → disk = s.alloc.bitmap

variable {poolStart : ℕ} {ordered : Prop} {s : PoolState} {disk : Pyramid}

theorem Backed.call (h : Backed poolStart ordered s disk) (op : { op : PoolOp // op.runtime = true }) :
    Backed poolStart ordered (apply poolStart s (.call op)) disk := by
  have hmarked := PoolOp.marked_apply op.2 s.alloc
  refine ⟨h.holds, h.tracks.step hmarked, ?_, fun hw => PoolOp.whole_apply (h.whole hw) op.1, ?_⟩
  · have hsize := hmarked.size
    exact ⟨hsize.l0.trans_lt h.fits.l0, hsize.l1.trans_lt h.fits.l1, hsize.l2.trans_lt h.fits.l2,
      hsize.blockCount.trans_lt h.fits.blockCount, hmarked.count h.fits.freeCount⟩
  · intro hw hclean
    have hbefore : s.alloc.dirty = false := Bool.eq_false_iff.mpr fun hdirty => by
      rw [apply, hmarked.dirty hdirty] at hclean
      cases hclean
    exact (h.same hw hbefore).trans (hmarked.same (h.whole hw) hclean).symm

theorem Backed.sync (h : Backed poolStart ordered s disk) :
    Backed poolStart ordered (apply poolStart s .sync) (s.alloc.syncPool disk) := by
  refine ⟨h.holds.sync h.tracks.size, h.tracks.sync.1, h.fits, h.whole, fun hw _ => ?_⟩
  by_cases hdirty : s.alloc.dirty = true
  · exact h.tracks.syncPool_of_dirty hdirty
  · have hclean := Bool.eq_false_iff.mpr hdirty
    rw [syncPool_of_clean hclean]
    exact h.same hw hclean

theorem Backed.applyAll (acts : List PoolAct) (h : Backed poolStart ordered s disk) :
    ∃ disk, Backed poolStart ordered (applyAll poolStart acts s) disk := by
  induction acts generalizing s disk with
  | nil => exact ⟨disk, h⟩
  | cons act acts ih =>
    cases act with
    | call op => exact ih (h.call op)
    | sync => exact ih h.sync

/-- The levels are as long as `AllocLevelWords` says, and the counts are 64-bit. -/
structure Leveled (p : Pyramid) : Prop where
  l0 : p.l0.length = (allocLevelWords p.blockCount).1
  l1 : p.l1.length = (allocLevelWords p.blockCount).2.1
  l2 : p.l2.length = (allocLevelWords p.blockCount).2.2
  blockCount : p.blockCount < 2 ^ 64
  freeCount : p.freeCount < 2 ^ 64

theorem backed_written {p : Pyramid} (h : Leveled p) (dev : ℕ → Bytes) (poolStart : ℕ) :
    Backed poolStart p.Whole (written p dev poolStart) p := by
  obtain ⟨hl0, hl1, hl2, hcount, hfree⟩ := h
  unfold allocLevelWords at hl0 hl1 hl2
  dsimp only at hl0 hl1 hl2
  refine ⟨holds_writeBlocks p dev poolStart (by omega) (by omega) (by omega), ?_, ?_, id,
    fun _ _ => rfl⟩
  · exact ⟨.refl p, fun _ _ => rfl, fun _ => ⟨rfl, rfl⟩⟩
  · change Fits p
    exact ⟨by omega, by omega, by omega, hcount, hfree⟩

theorem Backed.read (h : Backed poolStart ordered s disk) :
    ∃ pool, readAllocatorBitmap (apply poolStart s .sync).dev poolStart = .ok pool ∧
      pool.l2 = s.alloc.bitmap.l2 ∧ pool.hdr.freeCount.toNat = s.alloc.bitmap.freeCount ∧
      (ordered → pool.l0 = s.alloc.bitmap.l0 ∧ pool.l1 = s.alloc.bitmap.l1) := by
  have hsync := h.sync
  have hsize := hsync.tracks.size
  have hcount := h.tracks.sync.2
  have hfits : Fits (s.alloc.syncPool disk) :=
    ⟨hsize.l0.symm.trans_lt h.fits.l0, hsize.l1.symm.trans_lt h.fits.l1,
      hsize.l2.symm.trans_lt h.fits.l2, hsize.blockCount.symm.trans_lt h.fits.blockCount,
      hcount.trans_lt h.fits.freeCount⟩
  refine ⟨_, hsync.holds.readAllocatorBitmap hfits, h.tracks.l2_syncPool, ?_, fun hord => ?_⟩
  · exact (UInt64.toNat_ofNat_of_lt' hfits.freeCount).trans hcount
  · have hsame : s.alloc.syncPool disk = s.alloc.bitmap := hsync.same hord rfl
    exact ⟨congrArg Pyramid.l0 hsame, congrArg Pyramid.l1 hsame⟩

/-- A `Sync` writes no block of the last level that is not marked. -/
theorem sync_of_not_marked (a : Allocator) (poolStart : ℕ) (dev : ℕ → Bytes) {i : ℕ}
    (hi : i * wordsPerBlock < a.bitmap.l2.length) (hsome : a.l2Dirty ≠ []) (hnot : i ∉ a.l2Dirty) :
    a.sync poolStart dev (a.bitmap.l2Start poolStart + i) =
      dev (a.bitmap.l2Start poolStart + i) := by
  have hlen0 : (packAllocWords a.bitmap.l0).length = _ := Fixed.length_pack a.bitmap.l0
  have hlen1 : (packAllocWords a.bitmap.l1).length = _ := Fixed.length_pack a.bitmap.l1
  have hends : poolStart + 1 + Fixed.blocks wordsPerBlock a.bitmap.l0.length =
        a.bitmap.l1Start poolStart ∧
      a.bitmap.l1Start poolStart + Fixed.blocks wordsPerBlock a.bitmap.l1.length =
        a.bitmap.l2Start poolStart := ⟨rfl, rfl⟩
  unfold Allocator.sync
  split_ifs
  · rfl
  · dsimp only
    rw [Function.update_of_ne (by omega), Allocator.syncL2, if_neg hsome,
      foldl_writeL2Block _ hi, if_neg hnot, writeFrom_of_le _ (by omega),
      writeFrom_of_le _ (by omega)]

end PoolAct

end Briefs.Alloc
