import Briefs.Alloc.Consistent
import Briefs.Alloc.Walk

/-!
# A pool over any sequence of calls

A fresh pool is consistent, whole runs are taken as consistently as single blocks, and
so every sequence of calls of the builder and the runtime allocator keeps it so.
-/

namespace Briefs.Alloc

open Bitmap

namespace Pyramid

section Fresh

variable {words n : ℕ}

theorem bitAt_fullLevel (hn : 0 < n) (hwords : words = (n + 63) / 64) (i : ℕ) :
    bitAt (fullLevel words n) i = decide (i < n) := by
  have hfull : ∀ i, bitAt (List.replicate words (~~~(0#64))) i = decide (i / 64 < words) := by
    intro i
    unfold bitAt
    rw [List.getD_eq_getElem?_getD, List.getElem?_replicate]
    split_ifs with hi
    · have hlt : i % 64 < 64 := Nat.mod_lt _ (by norm_num)
      rw [Option.getD_some, BitVec.getLsbD_not, decide_eq_true hlt, decide_eq_true hi]
      simp
    · simp [hi]
  unfold fullLevel
  split_ifs with htail
  · rw [hfull]
    exact decide_eq_decide.mpr (by omega)
  · rw [bitAt_set, List.length_replicate]
    split_ifs with hlast
    · rw [Word.getLsbD_low _ _ (by omega)]
      exact decide_eq_decide.mpr (by omega)
    · rw [hfull]
      exact decide_eq_decide.mpr (by omega)

theorem length_fullLevel (words n : ℕ) : (fullLevel words n).length = words := by
  unfold fullLevel
  split_ifs <;> simp

theorem word_fullLevel (hn : 0 < n) (hwords : words = (n + 63) / 64) (w : ℕ) :
    (fullLevel words n).getD w 0 ≠ 0 ↔ w < words := by
  constructor
  · intro hne
    by_contra hge
    apply hne
    rw [List.getD_eq_getElem?_getD, List.getElem?_eq_none (by rw [length_fullLevel]; omega)]
    rfl
  · intro hlt
    apply ne_zero_of_getLsbD (j := 0)
    rw [← bitAt_word _ (by norm_num), bitAt_fullLevel hn hwords, decide_eq_true_eq]
    omega

theorem sums_fullLevel {words above n : ℕ} (hn : 0 < n) (hwords : words = (n + 63) / 64)
    (habove : above = (words + 63) / 64) :
    Sums (fullLevel above words) (fullLevel words n) ∅ := by
  have hpos : 0 < words := by omega
  constructor
  · intro w hw
    rw [bitAt_fullLevel hpos habove, decide_eq_true_eq]
    exact (word_fullLevel hn hwords w).mp hw
  · intro w _ hbit
    rw [bitAt_fullLevel hpos habove, decide_eq_true_eq] at hbit
    exact (word_fullLevel hn hwords w).mpr hbit

theorem total_fullLevel (hn : 0 < n) (hwords : words = (n + 63) / 64) :
    total (fullLevel words n) = n := by
  rw [total_eq_card, length_fullLevel]
  have hrange : ((Finset.range (64 * words)).filter fun i => bitAt (fullLevel words n) i = true) =
      Finset.range n := by
    ext i
    rw [Finset.mem_filter, Finset.mem_range, Finset.mem_range, bitAt_fullLevel hn hwords,
      decide_eq_true_eq]
    omega
  rw [hrange, Finset.card_range]

theorem allocLevelWords_eq {n : ℕ} (hn : 1 ≤ n) (hmax : n ≤ 2 ^ 64 - 64) :
    allocLevelWords n =
      (((((n + 63) / 64) + 63) / 64 + 63) / 64, (((n + 63) / 64) + 63) / 64, (n + 63) / 64) := by
  unfold allocLevelWords
  rw [Nat.mod_eq_of_lt (by omega)]
  dsimp only
  rw [max_eq_left (by omega), max_eq_left (by omega), max_eq_left (by omega)]

theorem whole_newAllocBuilder {n : ℕ} (hn : 1 ≤ n) (hmax : n ≤ 2 ^ 64 - 64) :
    (newAllocBuilder n).Whole := by
  unfold newAllocBuilder
  rw [allocLevelWords_eq hn hmax]
  dsimp only
  refine ⟨⟨?_, ?_, ?_, ?_, ?_, ?_, ?_⟩, ?_⟩
  · change n < 2 ^ 64
    omega
  · rw [length_fullLevel]
    change n ≤ 64 * ((n + 63) / 64)
    omega
  · rw [length_fullLevel, length_fullLevel]
    omega
  · rw [length_fullLevel, length_fullLevel]
    omega
  · exact sums_fullLevel hn rfl rfl
  · exact sums_fullLevel (by omega) rfl rfl
  · intro i hi
    rw [bitAt_fullLevel hn rfl, decide_eq_true_eq] at hi
    exact hi
  · exact (total_fullLevel hn rfl).symm

theorem whole_newDataAllocBuilder {n : ℕ} (hn : 1 ≤ n) (hmax : n ≤ 2 ^ 64 - 64) :
    (newDataAllocBuilder n).Whole := by
  unfold newDataAllocBuilder
  rw [if_pos (show 0 < n from hn)]
  exact (whole_newAllocBuilder hn hmax).markAllocated 0

end Fresh

/-- Of the last level exactly the blocks of a run were taken. -/
structure Took (p q : Pyramid) (first n : ℕ) : Prop where
  length : q.l2.length = p.l2.length
  blockCount : q.blockCount = p.blockCount
  freeCount : q.freeCount = p.freeCount
  bits : ∀ i, bitAt q.l2 i = (bitAt p.l2 i && !decide (first ≤ i ∧ i < first + n))

variable {p q : Pyramid} {first n : ℕ}

theorem Took.total (h : Took p q first n)
    (hfree : ∀ i, first ≤ i → i < first + n → bitAt p.l2 i = true) :
    total q.l2 + n = total p.l2 := total_clear first n h.length hfree h.bits

theorem took_clearRun (p : Pyramid) (first n : ℕ) : Took p ((List.range n).foldl
    (fun p i => p.clear2 ((first + i) / 64) ((first + i) % 64)) p) first n := by
  induction n with
  | zero =>
    refine ⟨rfl, rfl, rfl, fun i => ?_⟩
    have hnone : ¬(first ≤ i ∧ i < first + 0) := by omega
    rw [decide_eq_false hnone, Bool.not_false, Bool.and_true]
    rfl
  | succ n ih =>
    rw [List.range_succ, List.foldl_append, List.foldl_cons, List.foldl_nil]
    refine ⟨List.length_set.trans ih.length, ih.blockCount, ih.freeCount, fun i => ?_⟩
    rw [bitAt_clear2, ih.bits, Bool.and_assoc]
    congr 1
    rw [← Bool.not_or]
    congr 1
    rw [← Bool.decide_or]
    exact decide_eq_decide.mpr (by omega)

theorem shape_clearRun (h : Shape ∅ p) (first n : ℕ) :
    Shape {w | first / 64 ≤ w ∧ w ≤ (first + n - 1) / 64} ((List.range n).foldl
      (fun p i => p.clear2 ((first + i) / 64) ((first + i) % 64)) p) := by
  induction n with
  | zero => exact h.mono (Set.empty_subset _)
  | succ n ih =>
    rw [List.range_succ, List.foldl_append, List.foldl_cons, List.foldl_nil]
    refine (ih.lose fun j hj => ?_).mono ?_
    · rw [Word.getLsbD_clearBit, Bool.and_eq_true] at hj
      exact hj.1
    · rintro w (rfl | hw)
      · constructor <;> omega
      · exact ⟨hw.1, hw.2.trans (Nat.div_le_div_right (by omega))⟩

end Pyramid

namespace Allocator

open Pyramid

variable {a : Allocator}

/-- Mending words one after the other leaves none of them stale. -/
theorem shape_mendWords {stale : Set ℕ} (ws : List ℕ) (h : Shape stale a.bitmap)
    (hws : ∀ w ∈ ws, w < a.bitmap.l2.length) :
    Shape (stale \ {w | w ∈ ws}) (ws.foldl mendWord a).bitmap ∧
      (ws.foldl mendWord a).bitmap.l2 = a.bitmap.l2 ∧
      (ws.foldl mendWord a).bitmap.freeCount = a.bitmap.freeCount := by
  induction ws generalizing a stale with
  | nil => exact ⟨h.mono (by simp), rfl, rfl⟩
  | cons w ws ih =>
    have hfields : (a.mendWord w).bitmap.l2 = a.bitmap.l2 ∧ _ ∧
        (a.mendWord w).bitmap.freeCount = a.bitmap.freeCount := emptied_fields a.bitmap w
    obtain ⟨hl2, -, hcount⟩ := hfields
    obtain ⟨hshape, hl2', hcount'⟩ := ih (a := a.mendWord w)
      (h.emptied (hws w List.mem_cons_self))
      (fun v hv => (hws v (List.mem_cons_of_mem w hv)).trans_eq (congrArg _ hl2.symm))
    refine ⟨hshape.mono ?_, hl2'.trans hl2, hcount'.trans hcount⟩
    rintro v ⟨⟨hv, hvw⟩, hvs⟩
    exact ⟨hv, fun hmem => (List.mem_cons.mp hmem).elim hvw hvs⟩

theorem mem_runWords {first n w : ℕ} : w ∈ runWords first n ↔
    first / 64 ≤ w ∧ w ≤ max (first / 64) ((first + n - 1) / 64) := by
  unfold runWords
  rw [List.mem_range'_1]
  omega

theorem free_of_firstFit (p : Pyramid) (n : ℕ) (hn : 0 < n)
    (hfound : n ≤ (p.scanMaximalRuns (firstFit n) n (0, 0)).2) (i : ℕ)
    (hlow : (p.scanMaximalRuns (firstFit n) n (0, 0)).1 ≤ i)
    (hhigh : i < (p.scanMaximalRuns (firstFit n) n (0, 0)).1 + n) : bitAt p.l2 i = true := by
  obtain ⟨e, hrun⟩ := p.scanMaximalRuns_rule (P := fun _ acc => acc.2 = 0 ∨
    ∀ i, acc.1 ≤ i → i < acc.1 + acc.2 → bitAt p.l2 i = true) (firstFit n) n
    (fun e acc start len hacc _ _ hfree => by
      unfold firstFit
      split_ifs
      · exact .inr hfree
      · exact hacc) (0, 0) (.inl rfl)
  rcases hrun with hzero | hfree
  · omega
  · exact hfree i hlow (by omega)

/-- The bits of a free run are cleared, then the summaries of its words mended. -/
theorem whole_clearRun {first n c : ℕ} (h : a.bitmap.Whole) (hn : 0 < n)
    (hfree : ∀ i, first ≤ i → i < first + n → bitAt a.bitmap.l2 i = true)
    (hc : n ≤ total a.bitmap.l2 → c + n = a.bitmap.freeCount) :
    ((runWords first n).foldl mendWord { a with
      bitmap := { (List.range n).foldl
        (fun p i => p.clear2 ((first + i) / 64) ((first + i) % 64)) a.bitmap with freeCount := c }
      dirty := true }).bitmap.Whole := by
  have hend := h.inside _ (hfree (first + n - 1) (by omega) (by omega))
  have hshape := shape_clearRun h.toShape first n
  have htook := took_clearRun a.bitmap first n
  have htotal := htook.total hfree
  generalize (List.range n).foldl
    (fun p i => p.clear2 ((first + i) / 64) ((first + i) % 64)) a.bitmap = p
    at hshape htook htotal ⊢
  have hwords : ∀ w ∈ runWords first n, w < p.l2.length := by
    intro w hw
    rw [mem_runWords] at hw
    have := hshape.word_lt (i := first + n - 1) (hend.trans_eq htook.blockCount.symm)
    omega
  obtain ⟨hmended, hl2, hfreeCount⟩ := shape_mendWords
    (a := { a with bitmap := { p with freeCount := c }, dirty := true })
    (runWords first n) (hshape.withCount c) hwords
  refine ⟨hmended.mono ?_, ?_⟩
  · rintro w ⟨hw, hnot⟩
    exact absurd (mem_runWords.mpr ⟨hw.1, hw.2.trans (le_max_right _ _)⟩) hnot
  · rw [hfreeCount, hl2]
    change c = total p.l2
    have := h.count
    omega

theorem whole_tryAllocBlocks {n : ℕ} (h : a.bitmap.Whole) (hn : 0 < n) :
    (a.tryAllocBlocks n).2.bitmap.Whole := by
  unfold tryAllocBlocks
  split_ifs with hguard
  · exact h
  · have hzero := whole_reserveBlockZero h
    dsimp only
    generalize a.reserveBlockZero = b at hzero ⊢
    split_ifs with hfound
    · exact hzero
    · refine whole_clearRun hzero hn ?_ fun hle => ?_
      · exact free_of_firstFit b.bitmap n hn (by omega)
      · rw [(took_clearRun b.bitmap _ n).freeCount]
        exact hzero.sub_freeCount hle

theorem getLsbD_takeMask {first n w j : ℕ} (hj : j < 64) (hw : first / 64 ≤ w) :
    (takeMask first n w).getLsbD j = decide (first ≤ w * 64 + j ∧ w * 64 + j < first + n) := by
  have hlow : (if 0 < first - w * 64 then ~~~((1#64 <<< (first - w * 64)) - 1)
      else ~~~(0#64)).getLsbD j = decide (first ≤ w * 64 + j) := by
    split_ifs with hlo
    · rw [BitVec.getLsbD_not, Word.getLsbD_low _ _ (by omega), decide_eq_true hj, Bool.true_and,
        ← decide_not]
      exact decide_eq_decide.mpr (by omega)
    · have hle : first ≤ w * 64 + j := by omega
      rw [BitVec.getLsbD_not, decide_eq_true hj, Bool.true_and, decide_eq_true hle]
      simp
  unfold takeMask
  by_cases hhi : first + n - w * 64 < 64
  · rw [if_pos hhi, BitVec.getLsbD_and, hlow, Word.getLsbD_low _ _ (by omega),
      ← Bool.decide_and]
    exact decide_eq_decide.mpr (by omega)
  · rw [if_neg hhi, hlow]
    exact decide_eq_decide.mpr (by omega)

theorem takeWord_fields (a : Allocator) (first n w : ℕ) (hlow : first / 64 ≤ w) :
    (takeWord first n a w).bitmap.l2.length = a.bitmap.l2.length ∧
    (takeWord first n a w).bitmap.blockCount = a.bitmap.blockCount ∧
    (takeWord first n a w).bitmap.freeCount = a.bitmap.freeCount ∧
    ∀ i, bitAt (takeWord first n a w).bitmap.l2 i =
      (bitAt a.bitmap.l2 i && !decide (i / 64 = w ∧ first ≤ i ∧ i < first + n)) := by
  have hfields : (takeWord first n a w).bitmap.l2 = a.bitmap.l2.set w
      (a.bitmap.word2 w &&& ~~~(takeMask first n w)) ∧
      (takeWord first n a w).bitmap.blockCount = a.bitmap.blockCount ∧
      (takeWord first n a w).bitmap.freeCount = a.bitmap.freeCount := emptied_fields _ w
  obtain ⟨hl2, hblocks, hcount⟩ := hfields
  refine ⟨by rw [hl2, List.length_set], hblocks, hcount, fun i => ?_⟩
  rw [hl2, bitAt_set]
  split_ifs with hi
  · have hlt : i % 64 < 64 := Nat.mod_lt _ (by norm_num)
    rw [BitVec.getLsbD_and, BitVec.getLsbD_not, decide_eq_true hlt, Bool.true_and,
      getLsbD_takeMask hlt hlow, ← hi.1]
    congr 2
    exact decide_eq_decide.mpr (by omega)
  · by_cases hw : i / 64 = w
    · rw [bitAt_of_length_le (by omega), Bool.false_and]
    · rw [decide_eq_false fun hin => hw hin.1, Bool.not_false, Bool.and_true]

theorem takeWords_fields (a : Allocator) (first n k : ℕ) :
    ((List.range' (first / 64) k).foldl (takeWord first n) a).bitmap.l2.length =
      a.bitmap.l2.length ∧
    ((List.range' (first / 64) k).foldl (takeWord first n) a).bitmap.blockCount =
      a.bitmap.blockCount ∧
    ((List.range' (first / 64) k).foldl (takeWord first n) a).bitmap.freeCount =
      a.bitmap.freeCount ∧
    ∀ i, bitAt ((List.range' (first / 64) k).foldl (takeWord first n) a).bitmap.l2 i =
      (bitAt a.bitmap.l2 i &&
        !decide (i / 64 < first / 64 + k ∧ first ≤ i ∧ i < first + n)) := by
  induction k with
  | zero =>
    refine ⟨rfl, rfl, rfl, fun i => ?_⟩
    have hnone : ¬(i / 64 < first / 64 + 0 ∧ first ≤ i ∧ i < first + n) := by omega
    rw [decide_eq_false hnone, Bool.not_false, Bool.and_true]
    rfl
  | succ k ih =>
    obtain ⟨hlen, hblocks, hcount, hbits⟩ := ih
    rw [List.range'_concat, List.foldl_append, List.foldl_cons, List.foldl_nil, Nat.one_mul]
    obtain ⟨hlen', hblocks', hcount', hbits'⟩ := takeWord_fields
      ((List.range' (first / 64) k).foldl (takeWord first n) a) first n (first / 64 + k) (by omega)
    refine ⟨hlen'.trans hlen, hblocks'.trans hblocks, hcount'.trans hcount, fun i => ?_⟩
    rw [hbits', hbits, Bool.and_assoc]
    congr 1
    rw [← Bool.not_or, ← Bool.decide_or]
    congr 1
    exact decide_eq_decide.mpr (by omega)

theorem took_takeRun (a : Allocator) (r : ℕ × ℕ) (hr : 0 < r.2) :
    Took a.bitmap (a.takeRun r).bitmap r.1 r.2 := by
  obtain ⟨hlen, hblocks, hcount, hbits⟩ :=
    takeWords_fields a r.1 r.2 ((r.1 + r.2 - 1) / 64 - r.1 / 64 + 1)
  refine ⟨hlen, hblocks, hcount, fun i => (hbits i).trans ?_⟩
  congr 2
  exact decide_eq_decide.mpr (by omega)

/-- A word of a run is taken, and nothing is stale. -/
theorem shape_takeWord (first n w : ℕ) (h : Shape ∅ a.bitmap) (hw : w < a.bitmap.l2.length) :
    Shape ∅ (takeWord first n a w).bitmap := by
  have hlose : Shape (insert w ∅) { a.bitmap with
      l2 := a.bitmap.l2.set w (a.bitmap.word2 w &&& ~~~(takeMask first n w)) } := by
    apply h.lose
    intro j hj
    rw [BitVec.getLsbD_and, Bool.and_eq_true] at hj
    exact hj.1
  exact (hlose.emptied (w := w) (hw.trans_eq List.length_set.symm)).mono (by simp)

/-- A free run is taken word by word. -/
theorem shape_takeRun {r : ℕ × ℕ} (h : Shape ∅ a.bitmap) (hr : 0 < r.2)
    (hfree : ∀ i, r.1 ≤ i → i < r.1 + r.2 → bitAt a.bitmap.l2 i = true) :
    Shape ∅ (a.takeRun r).bitmap := by
  have hend := h.inside _ (hfree (r.1 + r.2 - 1) (by omega) (by omega))
  have hlast := h.word_lt hend
  have hfold : ∀ k, k ≤ (r.1 + r.2 - 1) / 64 - r.1 / 64 + 1 →
      Shape ∅ ((List.range' (r.1 / 64) k).foldl (takeWord r.1 r.2) a).bitmap := by
    intro k
    induction k with
    | zero => exact fun _ => h
    | succ k ih =>
      intro hk
      rw [List.range'_concat, List.foldl_append, List.foldl_cons, List.foldl_nil, Nat.one_mul]
      refine shape_takeWord r.1 r.2 (r.1 / 64 + k) (ih (by omega)) ?_
      rw [(takeWords_fields a r.1 r.2 k).1]
      omega
  exact hfold _ le_rfl

theorem shape_takeRuns (runs : List (ℕ × ℕ)) (h : Shape ∅ a.bitmap)
    (hruns : ∀ r ∈ runs, 0 < r.2 ∧ ∀ i, r.1 ≤ i → i < r.1 + r.2 → bitAt a.bitmap.l2 i = true)
    (hsorted : runs.Pairwise fun r s => r.1 + r.2 ≤ s.1) :
    Shape ∅ (runs.foldl takeRun a).bitmap ∧
      (runs.foldl takeRun a).bitmap.freeCount = a.bitmap.freeCount ∧
      total (runs.foldl takeRun a).bitmap.l2 + (runs.map Prod.snd).sum = total a.bitmap.l2 := by
  induction runs generalizing a with
  | nil => exact ⟨h, rfl, rfl⟩
  | cons r runs ih =>
    obtain ⟨hpos, hfree⟩ := hruns r List.mem_cons_self
    obtain ⟨hafter, hsorted⟩ := List.pairwise_cons.mp hsorted
    have hshape := shape_takeRun h hpos hfree
    have htook := took_takeRun a r hpos
    obtain ⟨hshape', hcount, htotal⟩ := ih hshape (fun s hs => by
      obtain ⟨hspos, hsfree⟩ := hruns s (List.mem_cons_of_mem r hs)
      refine ⟨hspos, fun i hlow hhigh => ?_⟩
      have hpast : ¬(r.1 ≤ i ∧ i < r.1 + r.2) := by
        have := hafter s hs
        omega
      rw [htook.bits, hsfree i hlow hhigh, decide_eq_false hpast]
      rfl) hsorted
    refine ⟨hshape', hcount.trans htook.freeCount, ?_⟩
    have hfirst := htook.total hfree
    rw [List.map_cons, List.sum_cons, List.foldl_cons]
    omega

theorem free_of_harvest (p : Pyramid) (wanted : ℕ) :
    (∀ r ∈ (p.scanMaximalRuns harvest 0 ([], wanted)).1,
      0 < r.2 ∧ ∀ i, r.1 ≤ i → i < r.1 + r.2 → bitAt p.l2 i = true) ∧
    (p.scanMaximalRuns harvest 0 ([], wanted)).1.Pairwise fun r s => r.1 + r.2 ≤ s.1 := by
  obtain ⟨e, hfree, -, hsorted⟩ := p.scanMaximalRuns_rule
    (P := fun e acc =>
      (∀ r ∈ acc.1, 0 < r.2 ∧ ∀ i, r.1 ≤ i → i < r.1 + r.2 → bitAt p.l2 i = true) ∧
      (∀ r ∈ acc.1, r.1 + r.2 ≤ e) ∧ acc.1.Pairwise fun r s => r.1 + r.2 ≤ s.1)
    harvest 0 (fun e acc start len hacc hstart hlen hrun => by
      obtain ⟨hfree, hends, hsorted⟩ := hacc
      unfold harvest
      split_ifs with hdone
      · exact ⟨hfree, fun r hr => (hends r hr).trans (by omega), hsorted⟩
      · refine ⟨fun r hr => ?_, fun r hr => ?_, ?_⟩
        · rcases List.mem_append.mp hr with hr | hr
          · exact hfree r hr
          · rw [List.mem_singleton.mp hr]
            exact ⟨by dsimp only; omega, fun i hlow hhigh => hrun i hlow (by dsimp only at hhigh; omega)⟩
        · rcases List.mem_append.mp hr with hr | hr
          · exact (hends r hr).trans (by omega)
          · rw [List.mem_singleton.mp hr]
            omega
        · refine List.pairwise_append.mpr ⟨hsorted, List.pairwise_singleton _ _, ?_⟩
          intro r hr s hs
          rw [List.mem_singleton.mp hs]
          exact (hends r hr).trans hstart)
    ([], wanted) ⟨by simp, by simp, List.Pairwise.nil⟩
  exact ⟨hfree, hsorted⟩

theorem whole_takeRuns {runs : List (ℕ × ℕ)} {c : ℕ} (h : a.bitmap.Whole)
    (hruns : ∀ r ∈ runs, 0 < r.2 ∧ ∀ i, r.1 ≤ i → i < r.1 + r.2 → bitAt a.bitmap.l2 i = true)
    (hsorted : runs.Pairwise fun r s => r.1 + r.2 ≤ s.1)
    (hc : (runs.foldl takeRun a).bitmap.freeCount = a.bitmap.freeCount →
      (runs.map Prod.snd).sum ≤ total a.bitmap.l2 →
      c + (runs.map Prod.snd).sum = a.bitmap.freeCount) :
    ({ (runs.foldl takeRun a).bitmap with freeCount := c } : Pyramid).Whole := by
  obtain ⟨hshape, hcount, htotal⟩ := shape_takeRuns runs h.toShape hruns hsorted
  refine ⟨hshape.withCount c, ?_⟩
  change c = total (runs.foldl takeRun a).bitmap.l2
  have := h.count
  omega

theorem whole_tryAllocRunsUpTo (h : a.bitmap.Whole) (n : ℕ) :
    (a.tryAllocRunsUpTo n).2.bitmap.Whole := by
  unfold tryAllocRunsUpTo
  split_ifs with havail hguard
  · exact h
  · exact h
  · have hzero := whole_reserveBlockZero h
    dsimp only
    generalize a.reserveBlockZero = b at hzero ⊢
    obtain ⟨hfree, hsorted⟩ := free_of_harvest b.bitmap (min n (a.available false))
    split_ifs
    · exact hzero
    · refine whole_takeRuns hzero hfree hsorted fun hcount hle => ?_
      rw [hcount]
      exact hzero.sub_freeCount hle

theorem whole_allocBlocks (h : a.bitmap.Whole) (n : ℕ) : (a.allocBlocks n).2.bitmap.Whole := by
  unfold allocBlocks
  split_ifs with hn
  · exact h
  · exact whole_tryAllocBlocks h (Nat.pos_of_ne_zero hn)

theorem whole_allocRunsUpTo (h : a.bitmap.Whole) (n : ℕ) :
    (a.allocRunsUpTo n).2.bitmap.Whole := by
  unfold allocRunsUpTo
  split_ifs
  · exact h
  · exact whole_tryAllocRunsUpTo h n

theorem whole_reserveBlock (h : a.bitmap.Whole) (rel : ℕ) : (a.reserveBlock rel).bitmap.Whole := by
  have hmark := h.markAllocated rel
  unfold reserveBlock
  split
  · rename_i heq
    rw [heq] at hmark
    exact hmark
  · exact h

theorem whole_freeBlock (h : a.bitmap.Whole) (rel : ℕ) : (a.freeBlock rel).bitmap.Whole := by
  have hmark := h.markFree rel
  unfold freeBlock
  split
  · rename_i heq
    rw [heq] at hmark
    exact hmark
  · exact h

theorem whole_freeRun (h : a.bitmap.Whole) (first n : ℕ) :
    (a.freeRun first n).bitmap.Whole := by
  rw [bitmap_freeRun]
  exact h.markFreeRun first n

end Allocator

/-- The calls of the builder and of the runtime allocator. -/
inductive PoolOp where
  | markAllocated (rel : ℕ)
  | markFree (rel : ℕ)
  | markFreeRun (first n : ℕ)
  | allocateBlock
  | reserveBlock (rel : ℕ)
  | freeBlock (rel : ℕ)
  | freeRun (first n : ℕ)
  | allocBlock (forMeta : Bool)
  | allocBlocks (n : ℕ)
  | allocRunsUpTo (n : ℕ)
  | reserveBlockZero
  | adjustShield (delta : ℤ)

namespace PoolOp

def apply (a : Allocator) : PoolOp → Allocator
  | markAllocated rel => { a with bitmap := (a.bitmap.markAllocated rel).1 }
  | markFree rel => { a with bitmap := (a.bitmap.markFree rel).1 }
  | markFreeRun first n => { a with bitmap := (a.bitmap.markFreeRun first n).1 }
  | allocateBlock => { a with bitmap := a.bitmap.allocateBlock.2 }
  | reserveBlock rel => a.reserveBlock rel
  | freeBlock rel => a.freeBlock rel
  | freeRun first n => a.freeRun first n
  | allocBlock forMeta => (a.tryAllocBlock forMeta).2
  | allocBlocks n => (a.allocBlocks n).2
  | allocRunsUpTo n => (a.allocRunsUpTo n).2
  | reserveBlockZero => a.reserveBlockZero
  | adjustShield delta => a.adjustShield delta

/-- Every call keeps the levels and the count in agreement. -/
theorem whole_apply {a : Allocator} (h : a.bitmap.Whole) (op : PoolOp) : (op.apply a).bitmap.Whole := by
  cases op with
  | markAllocated rel => exact h.markAllocated rel
  | markFree rel => exact h.markFree rel
  | markFreeRun first n => exact h.markFreeRun first n
  | allocateBlock => exact h.allocateBlock
  | reserveBlock rel => exact Allocator.whole_reserveBlock h rel
  | freeBlock rel => exact Allocator.whole_freeBlock h rel
  | freeRun first n => exact Allocator.whole_freeRun h first n
  | allocBlock forMeta => exact Allocator.whole_tryAllocBlock h forMeta
  | allocBlocks n => exact Allocator.whole_allocBlocks h n
  | allocRunsUpTo n => exact Allocator.whole_allocRunsUpTo h n
  | reserveBlockZero => exact Allocator.whole_reserveBlockZero h
  | adjustShield delta => exact h

def applyAll (ops : List PoolOp) (a : Allocator) : Allocator := ops.foldl apply a

theorem whole_applyAll (ops : List PoolOp) {a : Allocator} (h : a.bitmap.Whole) :
    (applyAll ops a).bitmap.Whole := by
  unfold applyAll
  induction ops generalizing a with
  | nil => exact h
  | cons op ops ih => exact ih (whole_apply h op)

end PoolOp

def freshPool (data : Bool) (blockCount : ℕ) : Pyramid :=
  if data then Pyramid.newDataAllocBuilder blockCount else Pyramid.newAllocBuilder blockCount

/-- From a fresh pool of at least one block, and few enough that the number of words does
not wrap, every sequence of calls leaves the levels and the free count in agreement. -/
theorem consistent_of_fresh_pool (data : Bool) (blockCount : ℕ) (ops : List PoolOp)
    (hpos : 1 ≤ blockCount) (hmax : blockCount ≤ 2 ^ 64 - 64) :
    (PoolOp.applyAll ops (Allocator.ofPool (freshPool data blockCount))).bitmap.Consistent := by
  refine (PoolOp.whole_applyAll ops ?_).consistent
  unfold freshPool
  split_ifs
  · exact Pyramid.whole_newDataAllocBuilder hpos hmax
  · exact Pyramid.whole_newAllocBuilder hpos hmax

theorem consistent_of_fresh_pool_seventy : (1 ≤ 70 ∧ 70 ≤ 2 ^ 64 - 64) ∧
    (PoolOp.applyAll [.allocBlocks 66, .freeRun 1 3, .allocRunsUpTo 2]
      (Allocator.ofPool (freshPool true 70))).bitmap.Consistent :=
  ⟨by norm_num, consistent_of_fresh_pool true 70 _ (by norm_num) (by norm_num)⟩

/-- A pool of no blocks has a last-level word with 64 blocks in it, and a free count
of 0. -/
theorem not_consistent_of_no_blocks : ¬∀ (data : Bool) (blockCount : ℕ) (ops : List PoolOp),
    (PoolOp.applyAll ops (Allocator.ofPool (freshPool data blockCount))).bitmap.Consistent := by
  intro h
  have hinside := (h false 0 []).inside 0 (by decide)
  exact absurd hinside (by decide)

end Briefs.Alloc
