import Briefs.Alloc.Pool

/-!
# A pool is its free blocks

In a whole pool the summaries and the count follow from the last level, so two calls that
free and take the same blocks leave the same words. What each call frees or takes is said
block by block.
-/

namespace Briefs.Alloc

open Bitmap

namespace Pyramid

variable {p q r : Pyramid}

/-- The same number of blocks, in levels of the same size. -/
structure Alike (p q : Pyramid) : Prop where
  l0 : q.l0.length = p.l0.length
  l1 : q.l1.length = p.l1.length
  l2 : q.l2.length = p.l2.length
  blockCount : q.blockCount = p.blockCount

theorem Alike.refl (p : Pyramid) : Alike p p := ⟨rfl, rfl, rfl, rfl⟩

theorem Alike.trans (h : Alike p q) (h' : Alike q r) : Alike p r :=
  ⟨h'.l0.trans h.l0, h'.l1.trans h.l1, h'.l2.trans h.l2, h'.blockCount.trans h.blockCount⟩

/-- Two whole pools with the same free blocks are the same. -/
theorem Whole.ext (hp : p.Whole) (hq : q.Whole) (hsize : Alike p q)
    (hfree : ∀ i, p.isFree i = q.isFree i) : p = q := by
  have h2 : p.l2 = q.l2 := eq_of_bitAt hsize.l2.symm hfree
  have h1 : p.l1 = q.l1 := hp.sums1.eq_of_length (h2 ▸ hq.sums1) hsize.l1.symm
  have h0 : p.l0 = q.l0 := hp.sums0.eq_of_length (h1 ▸ hq.sums0) hsize.l0.symm
  have hcount : p.freeCount = q.freeCount := by rw [hp.count, hq.count, h2]
  have hblocks := hsize.blockCount
  cases p
  cases q
  cases h2
  cases h1
  cases h0
  cases hcount
  cases hblocks
  rfl

/-- `q` is `p` with the blocks of `added` free as well, `n` of which were not. -/
structure Gained (p q : Pyramid) (added : ℕ → Prop) (n : ℕ) : Prop where
  size : Alike p q
  free : ∀ i, q.isFree i = true ↔ p.isFree i = true ∨ added i
  total : total q.l2 = total p.l2 + n

variable {added added' : ℕ → Prop} {n n' : ℕ}

theorem Gained.refl (p : Pyramid) : Gained p p (fun _ => False) 0 :=
  ⟨.refl p, by simp, rfl⟩

theorem Gained.congr (h : Gained p q added n) (hadded : ∀ i, added i ↔ added' i) :
    Gained p q added' n :=
  ⟨h.size, fun i => (h.free i).trans (or_congr_right (hadded i)), h.total⟩

theorem Gained.trans (h : Gained p q added n) (h' : Gained q r added' n') :
    Gained p r (fun i => added i ∨ added' i) (n + n') where
  size := h.size.trans h'.size
  free i := by rw [h'.free, h.free, or_assoc]
  total := by rw [h'.total, h.total, Nat.add_assoc]

/-- The blocks gained settle a whole pool and the number of blocks gained. -/
theorem Gained.unique (h : Gained p q added n) (h' : Gained p r added n') (hq : q.Whole)
    (hr : r.Whole) : q = r ∧ n = n' := by
  have heq : q = r := by
    refine hq.ext hr ⟨?_, ?_, ?_, ?_⟩ fun i => ?_
    · rw [h.size.l0, h'.size.l0]
    · rw [h.size.l1, h'.size.l1]
    · rw [h.size.l2, h'.size.l2]
    · rw [h.size.blockCount, h'.size.blockCount]
    · exact Bool.eq_iff_iff.mpr ((h.free i).trans (h'.free i).symm)
  subst heq
  have htotal := h.total.symm.trans h'.total
  exact ⟨rfl, by omega⟩

theorem gained_setWord {w : ℕ} {mask : Word} (hsize : Alike p q) (hw : w < p.l2.length)
    (hl2 : q.l2 = p.l2.set w (p.word2 w ||| mask)) :
    Gained p q (fun i => i / 64 = w ∧ mask.getLsbD (i % 64) = true)
      (Word.onesCount (mask &&& ~~~(p.word2 w))) := by
  refine ⟨hsize, fun i => ?_, ?_⟩
  · change bitAt q.l2 i = true ↔ bitAt p.l2 i = true ∨ _
    rw [hl2, bitAt_set]
    by_cases hi : i / 64 = w
    · rw [if_pos ⟨hi, hw⟩, BitVec.getLsbD_or, Bool.or_eq_true, bitAt, hi]
      simp [word2]
    · rw [if_neg fun h => hi h.1]
      simp [hi]
  · have htotal := total_set (p.word2 w ||| mask) hw
    rw [Word.ones_or_mask] at htotal
    rw [hl2]
    change _ + ones (p.word2 w) = _ at htotal
    omega

theorem markFree_cases (p : Pyramid) (rel : ℕ) :
    p.markFree rel = (p, false) ∧ (p.blockCount ≤ rel ∨ p.isFree rel = true) ∨
      ∃ q, p.markFree rel = (q, true) ∧ rel < p.blockCount ∧ p.isFree rel = false ∧ Alike p q ∧
        q.l2 = p.l2.set (rel / 64) ((p.word2 (rel / 64)).setBit (rel % 64)) := by
  unfold Pyramid.markFree
  split_ifs with hout hbit
  · exact .inl ⟨rfl, .inl hout⟩
  · exact .inl ⟨rfl, .inr hbit⟩
  · right
    dsimp only
    split_ifs
    · exact ⟨_, rfl, Nat.not_le.mp hout, Bool.of_not_eq_true hbit,
        ⟨List.length_set, List.length_set, List.length_set, rfl⟩, rfl⟩
    · exact ⟨_, rfl, Nat.not_le.mp hout, Bool.of_not_eq_true hbit,
        ⟨rfl, List.length_set, List.length_set, rfl⟩, rfl⟩
    · exact ⟨_, rfl, Nat.not_le.mp hout, Bool.of_not_eq_true hbit,
        ⟨rfl, rfl, List.length_set, rfl⟩, rfl⟩

theorem Whole.gained_markFree (h : p.Whole) (rel : ℕ) :
    Gained p (p.markFree rel).1 (fun i => i = rel ∧ rel < p.blockCount)
      (if (p.markFree rel).2 then 1 else 0) := by
  rcases p.markFree_cases rel with ⟨heq, hold⟩ | ⟨q, heq, hlt, hbit, hsize, hl2⟩
  · rw [heq]
    refine ⟨.refl p, fun i => ⟨.inl, fun hi => hi.elim id ?_⟩, rfl⟩
    rintro ⟨rfl, hlt⟩
    exact hold.resolve_left (Nat.not_le.mpr hlt)
  · rw [heq]
    have hone : Word.onesCount ((1#64 <<< (rel % 64)) &&& ~~~(p.word2 (rel / 64))) = 1 := by
      have hmask : (1#64 <<< (rel % 64)) &&& ~~~(p.word2 (rel / 64)) = 1#64 <<< (rel % 64) := by
        apply BitVec.eq_of_getLsbD_eq
        intro j hj
        rw [BitVec.getLsbD_and, BitVec.getLsbD_not, Word.getLsbD_bit _ _ hj, decide_eq_true hj]
        by_cases hjb : j = rel % 64
        · subst hjb
          unfold isFree at hbit
          simp [hbit]
        · simp [hjb]
      rw [hmask]
      exact Word.ones_bit (Nat.mod_lt _ (by norm_num))
    have hgained := gained_setWord hsize (h.toShape.word_lt hlt) hl2
    rw [hone] at hgained
    refine hgained.congr fun i => ?_
    rw [Word.getLsbD_bit _ _ (Nat.mod_lt _ (by norm_num)), decide_eq_true_eq]
    omega

theorem getLsbD_runMask {first m w j : ℕ} (hm : 0 < m) (hj : j < 64) (hlow : first / 64 ≤ w)
    (hhigh : w ≤ (first + m - 1) / 64) :
    (runMask first m w).getLsbD j = true ↔ first ≤ w * 64 + j ∧ w * 64 + j < first + m := by
  refine ⟨mem_run_of_runMask hm hj hlow hhigh, fun ⟨hge, hlt⟩ => ?_⟩
  have hbelow : (if w = first / 64 then ~~~((1#64 <<< (first % 64)) - 1)
      else ~~~(0#64)).getLsbD j = true := by
    split_ifs with hw
    · rw [BitVec.getLsbD_not, Word.getLsbD_low _ _ (by omega), decide_eq_true hj, Bool.true_and,
        Bool.not_eq_true', decide_eq_false_iff_not]
      omega
    · rw [BitVec.getLsbD_not, decide_eq_true hj]
      simp
  unfold runMask
  generalize (if w = first / 64 then ~~~((1#64 <<< (first % 64)) - 1) else ~~~(0#64)) = low
    at hbelow ⊢
  split_ifs with hlast
  · rw [BitVec.getLsbD_and, hbelow, Word.getLsbD_low _ _ (by omega), Bool.true_and,
      decide_eq_true_eq]
    omega
  · exact hbelow

theorem alike_freeWord (first m : ℕ) (acc : Pyramid × ℕ) (w : ℕ) :
    Alike acc.1 (freeWord first m acc w).1 := by
  unfold freeWord
  dsimp only
  split_ifs
  · exact .refl _
  · exact ⟨List.length_set, List.length_set, List.length_set, rfl⟩
  · exact ⟨rfl, List.length_set, List.length_set, rfl⟩
  · exact ⟨rfl, rfl, List.length_set, rfl⟩

theorem gained_freeWord {first m w : ℕ} {acc : Pyramid × ℕ} (hm : 0 < m)
    (hlow : first / 64 ≤ w) (hhigh : w ≤ (first + m - 1) / 64) (hw : w < acc.1.l2.length) :
    ∃ k, (freeWord first m acc w).2 = acc.2 + k ∧
      Gained acc.1 (freeWord first m acc w).1
        (fun i => i / 64 = w ∧ first ≤ i ∧ i < first + m) k := by
  have hmask : ∀ i, i / 64 = w ∧ (runMask first m w).getLsbD (i % 64) = true ↔
      i / 64 = w ∧ first ≤ i ∧ i < first + m := by
    intro i
    refine and_congr_right fun hi => ?_
    rw [getLsbD_runMask hm (Nat.mod_lt _ (by norm_num)) hlow hhigh]
    omega
  have hsize := alike_freeWord first m acc w
  unfold freeWord at hsize ⊢
  by_cases hadded : runMask first m w &&& ~~~(acc.1.word2 w) = 0
  · have hsame : acc.1.l2 = acc.1.l2.set w (acc.1.word2 w ||| runMask first m w) := by
      refine eq_of_bitAt List.length_set.symm fun i => ?_
      rw [bitAt_set]
      split_ifs with hi
      · have hbit := congrArg (fun v : Word => v.getLsbD (i % 64)) hadded
        have hlt : i % 64 < 64 := Nat.mod_lt _ (by norm_num)
        simp only [BitVec.getLsbD_and, BitVec.getLsbD_not, decide_eq_true hlt, Bool.true_and] at hbit
        rw [BitVec.getLsbD_or, bitAt, hi.1]
        change (acc.1.word2 w).getLsbD (i % 64) = _
        revert hbit
        cases (acc.1.word2 w).getLsbD (i % 64) <;>
          cases (runMask first m w).getLsbD (i % 64) <;> simp
      · rfl
    have hgained := (gained_setWord (.refl acc.1) hw hsame).congr hmask
    rw [hadded] at hgained
    rw [if_pos hadded]
    exact ⟨_, rfl, hgained⟩
  · rw [if_neg hadded] at hsize ⊢
    refine ⟨_, rfl, (gained_setWord hsize hw ?_).congr hmask⟩
    split_ifs <;> rfl

theorem gained_freeWords {first m : ℕ} (h : p.Whole) (hm : 0 < m) (hfit : first + m ≤ p.blockCount)
    (k : ℕ) (hk : k ≤ (first + m - 1) / 64 - first / 64 + 1) :
    Gained p ((List.range' (first / 64) k).foldl (freeWord first m) (p, 0)).1
      (fun i => i / 64 < first / 64 + k ∧ first ≤ i ∧ i < first + m)
      ((List.range' (first / 64) k).foldl (freeWord first m) (p, 0)).2 := by
  induction k with
  | zero => exact (Gained.refl p).congr fun i => ⟨False.elim, fun hi => by omega⟩
  | succ k ih =>
    rw [List.range'_concat, List.foldl_append, List.foldl_cons, List.foldl_nil, Nat.one_mul]
    have hword := h.toShape.word_lt (i := first + m - 1) (by omega)
    have hbefore := ih (by omega)
    have hlow : first / 64 ≤ first / 64 + k := Nat.le_add_right _ _
    obtain ⟨n, hcount, hgained⟩ := gained_freeWord hm hlow (by omega) (by
      rw [hbefore.size.l2]
      omega)
    rw [hcount]
    refine (hbefore.trans hgained).congr fun i => ?_
    omega

theorem Whole.gained_markFreeRun (h : p.Whole) (first n : ℕ) :
    Gained p (p.markFreeRun first n).1 (fun i => first ≤ i ∧ i < first + n ∧ i < p.blockCount)
      (p.markFreeRun first n).2 := by
  unfold Pyramid.markFreeRun
  split_ifs with hrun
  · exact (Gained.refl p).congr fun i => ⟨False.elim, fun hi => by omega⟩
  · have hfit : first + min n (p.blockCount - first) ≤ p.blockCount := by omega
    have hall := gained_freeWords h (by omega) hfit _ le_rfl
    exact hall.congr fun i => by omega

/-- `AllocMarkFree` for each block of a run, and how many of the calls return true. -/
def markFreeEach (p : Pyramid) (first n : ℕ) : Pyramid × ℕ :=
  (List.range' first n).foldl (fun acc rel =>
    ((acc.1.markFree rel).1, acc.2 + if (acc.1.markFree rel).2 then 1 else 0)) (p, 0)

theorem Whole.gained_markFreeEach (h : p.Whole) (first n : ℕ) :
    (p.markFreeEach first n).1.Whole ∧
      Gained p (p.markFreeEach first n).1 (fun i => first ≤ i ∧ i < first + n ∧ i < p.blockCount)
        (p.markFreeEach first n).2 := by
  unfold markFreeEach
  induction n with
  | zero => exact ⟨h, (Gained.refl p).congr fun i => ⟨False.elim, fun hi => by omega⟩⟩
  | succ n ih =>
    obtain ⟨hwhole, hgained⟩ := ih
    rw [List.range'_concat, List.foldl_append, List.foldl_cons, List.foldl_nil, Nat.one_mul]
    refine ⟨hwhole.markFree _, (hgained.trans (hwhole.gained_markFree _)).congr fun i => ?_⟩
    rw [hgained.size.blockCount]
    omega

/-- Freeing a run is freeing its blocks one by one. -/
theorem markFreeRun_eq_markFreeEach (h : p.Whole) (first n : ℕ) :
    p.markFreeRun first n = p.markFreeEach first n := by
  obtain ⟨hwhole, heach⟩ := h.gained_markFreeEach first n
  obtain ⟨hpool, hcount⟩ := (h.gained_markFreeRun first n).unique heach (h.markFreeRun first n) hwhole
  exact Prod.ext hpool hcount

theorem markFreeRun_eq_markFreeEach_hundred :
    (((newDataAllocBuilder 200).markAllocated 70).1.markFreeRun 0 100 =
      ((newDataAllocBuilder 200).markAllocated 70).1.markFreeEach 0 100) ∧
    (((newDataAllocBuilder 200).markAllocated 70).1.markFreeRun 0 100).2 = 2 :=
  ⟨markFreeRun_eq_markFreeEach
    ((whole_newDataAllocBuilder (by norm_num) (by norm_num)).markAllocated 70) 0 100,
    by decide⟩

/-! ### Finding a block -/

theorem Whole.exists_word0 (h : p.Whole) {i : ℕ} (hi : p.isFree i = true) :
    ∃ w0 ∈ List.range p.l0.length, p.word0 w0 ≠ 0 := by
  have h2 : p.word2 (i / 64) ≠ 0 := ne_zero_of_getLsbD hi
  have h1 : p.word1 (i / 64 / 64) ≠ 0 := ne_zero_of_getLsbD (h.sums1.cover _ h2)
  have h0 : p.word0 (i / 64 / 64 / 64) ≠ 0 := ne_zero_of_getLsbD (h.sums0.cover _ h1)
  exact ⟨_, List.mem_range.mpr (lt_length_of_getD_ne_zero h0), h0⟩

section Path

variable (p : Pyramid) (w0 : ℕ)

/-- The word below the first set bit of a word of the first level. -/
def firstWord1 : ℕ := w0 * 64 + (p.word0 w0).trailingZeros

/-- The word of the last level that the first set bits lead to. -/
def firstWord2 : ℕ := p.firstWord1 w0 * 64 + (p.word1 (p.firstWord1 w0)).trailingZeros

def firstBlock : ℕ := p.firstWord2 w0 * 64 + (p.word2 (p.firstWord2 w0)).trailingZeros

/-- The first set bits lead to a free block. -/
def Leads : Prop :=
  p.word0 w0 ≠ 0 ∧ p.word1 (p.firstWord1 w0) ≠ 0 ∧ p.word2 (p.firstWord2 w0) ≠ 0

instance : Decidable (p.Leads w0) := inferInstanceAs (Decidable (_ ∧ _ ∧ _))

/-- The first set bits stay inside the levels and the block count. -/
structure Stays : Prop where
  word1 : p.word0 w0 ≠ 0 → p.firstWord1 w0 < p.l1.length
  word2 : p.word0 w0 ≠ 0 → p.word1 (p.firstWord1 w0) ≠ 0 → p.firstWord2 w0 < p.l2.length
  block : p.Leads w0 → p.firstBlock w0 < p.blockCount

end Path

/-- `q` is `p` below the word `w0` of the first level. -/
structure Agrees (p q : Pyramid) (w0 : ℕ) : Prop where
  size : Alike p q
  word0 : q.word0 w0 = p.word0 w0
  word1 : ∀ w1, w1 / 64 = w0 → q.word1 w1 = p.word1 w1
  l2 : q.l2 = p.l2

theorem Agrees.path {w0 : ℕ} (h : Agrees p q w0) (hne : p.word0 w0 ≠ 0) :
    q.firstWord1 w0 = p.firstWord1 w0 ∧
      q.word1 (p.firstWord1 w0) = p.word1 (p.firstWord1 w0) ∧
      q.firstWord2 w0 = p.firstWord2 w0 ∧ q.firstBlock w0 = p.firstBlock w0 := by
  have h1 : q.firstWord1 w0 = p.firstWord1 w0 := by rw [firstWord1, firstWord1, h.word0]
  have hlt := (Word.exists_bit_of_ne_zero hne).1
  have hw1 : q.word1 (p.firstWord1 w0) = p.word1 (p.firstWord1 w0) := by
    refine h.word1 _ ?_
    rw [firstWord1]
    omega
  have h2 : q.firstWord2 w0 = p.firstWord2 w0 := by rw [firstWord2, firstWord2, h1, hw1]
  refine ⟨h1, hw1, h2, ?_⟩
  rw [firstBlock, firstBlock, h2, word2, word2, h.l2]

theorem Agrees.leads_iff {w0 : ℕ} (h : Agrees p q w0) : q.Leads w0 ↔ p.Leads w0 := by
  unfold Leads
  rw [h.word0]
  refine and_congr_right fun hne => ?_
  obtain ⟨h1, hw1, h2, -⟩ := h.path hne
  rw [h1, hw1, h2, word2, word2, h.l2]

theorem Agrees.stays {w0 : ℕ} (h : Agrees p q w0) (hp : p.Stays w0) : q.Stays w0 := by
  refine ⟨fun hne => ?_, fun hne hne1 => ?_, fun hleads => ?_⟩
  · rw [h.word0] at hne
    rw [(h.path hne).1, h.size.l1]
    exact hp.word1 hne
  · rw [h.word0] at hne
    obtain ⟨h1, hw1, h2, -⟩ := h.path hne
    rw [h1, hw1] at hne1
    rw [h2, h.size.l2]
    exact hp.word2 hne hne1
  · rw [h.leads_iff] at hleads
    rw [(h.path hleads.1).2.2.2, h.size.blockCount]
    exact hp.block hleads

/-- Clearing stale bits on one path leaves the other paths alone. -/
theorem agrees_of_repair {w0 v0 b0 : ℕ} (b1 : ℕ) (hne : w0 ≠ v0) (hb0 : b0 < 64) :
    Agrees p (p.clear0 v0 b0) w0 ∧ Agrees p (p.clear1 (v0 * 64 + b0) b1) w0 := by
  refine ⟨⟨⟨List.length_set, rfl, rfl, rfl⟩, ?_, fun _ _ => rfl, rfl⟩,
    ⟨⟨rfl, List.length_set, rfl, rfl⟩, rfl, fun w1 hw1 => ?_, rfl⟩⟩
  · exact (getD_set _ _ _ _).trans (if_neg fun h => hne h.1)
  · exact (getD_set _ _ _ _).trans (if_neg fun h => by omega)

theorem Agrees.trans {w0 : ℕ} (h : Agrees p q w0) (h' : Agrees q r w0) : Agrees p r w0 :=
  ⟨h.size.trans h'.size, h'.word0.trans h.word0,
    fun w1 hw1 => (h'.word1 w1 hw1).trans (h.word1 w1 hw1), h'.l2.trans h.l2⟩

theorem find_congr {ws : List ℕ} (h : ∀ w0 ∈ ws, Agrees p q w0) :
    (ws.find? fun w0 => q.Leads w0).map q.firstBlock =
      (ws.find? fun w0 => p.Leads w0).map p.firstBlock := by
  induction ws with
  | nil => rw [List.find?_nil, List.find?_nil, Option.map_none, Option.map_none]
  | cons w0 ws ih =>
    obtain ⟨hself, hrest⟩ := List.forall_mem_cons.mp h
    by_cases hleads : p.Leads w0
    · have hleads' := hself.leads_iff.mpr hleads
      rw [List.find?_cons_of_pos (by simpa using hleads'),
        List.find?_cons_of_pos (by simpa using hleads), Option.map_some, Option.map_some,
        (hself.path hleads.1).2.2.2]
    · have hleads' := mt hself.leads_iff.mp hleads
      rw [List.find?_cons_of_neg (by simpa using hleads'),
        List.find?_cons_of_neg (by simpa using hleads)]
      exact ih hrest

/-- What the scan does at a word, in terms of the path. -/
theorem scan_cons (p : Pyramid) (w0 : ℕ) (ws : List ℕ) :
    p.scan (w0 :: ws) =
      if p.word0 w0 = 0 then p.scan ws
      else if p.l1.length ≤ p.firstWord1 w0 then (p, none)
      else if p.word1 (p.firstWord1 w0) = 0 then
        (p.clear0 w0 (p.word0 w0).trailingZeros).scan ws
      else if p.l2.length ≤ p.firstWord2 w0 then (p, none)
      else if p.word2 (p.firstWord2 w0) = 0 then
        (if (p.clear1 (p.firstWord1 w0) (p.word1 (p.firstWord1 w0)).trailingZeros).word1
            (p.firstWord1 w0) = 0
          then (p.clear1 (p.firstWord1 w0) (p.word1 (p.firstWord1 w0)).trailingZeros).clear0 w0
            (p.word0 w0).trailingZeros
          else p.clear1 (p.firstWord1 w0) (p.word1 (p.firstWord1 w0)).trailingZeros).scan ws
      else if p.blockCount ≤ p.firstBlock w0 then (p, none)
      else (p.take w0 (p.word0 w0).trailingZeros (p.firstWord1 w0)
        (p.word1 (p.firstWord1 w0)).trailingZeros (p.firstWord2 w0)
        (p.word2 (p.firstWord2 w0)).trailingZeros, some (p.firstBlock w0)) := rfl

/-- The scan finds the block behind the first word whose first set bits lead to one. -/
theorem scan_eq_find {ws : List ℕ} (hnodup : ws.Nodup) (hstays : ∀ w0 ∈ ws, p.Stays w0) :
    (p.scan ws).2 = (ws.find? fun w0 => p.Leads w0).map p.firstBlock := by
  induction ws generalizing p with
  | nil => rfl
  | cons w0 ws ih =>
    obtain ⟨hnot, hnodup⟩ := List.nodup_cons.mp hnodup
    obtain ⟨hself, hstays⟩ := List.forall_mem_cons.mp hstays
    have hskip : ¬p.Leads w0 → ((w0 :: ws).find? fun w0 => p.Leads w0) =
        ws.find? fun w0 => p.Leads w0 := fun h => List.find?_cons_of_neg (by simpa using h)
    -- after a repair on this path the others are as they were
    have hrepair : ¬p.Leads w0 → ∀ q, (∀ v0 ∈ ws, Agrees p q v0) →
        (q.scan ws).2 = ((w0 :: ws).find? fun w0 => p.Leads w0).map p.firstBlock := by
      intro hno q hq
      rw [hskip hno, ih hnodup fun v0 hv0 => (hq v0 hv0).stays (hstays v0 hv0), find_congr hq]
    have hother : ∀ v0 ∈ ws, v0 ≠ w0 := fun v0 hv0 heq => hnot (heq ▸ hv0)
    rw [scan_cons]
    by_cases h0 : p.word0 w0 = 0
    · rw [if_pos h0]
      exact hrepair (fun h => h.1 h0) p fun v0 _ => ⟨.refl p, rfl, fun _ _ => rfl, rfl⟩
    have hb0 := (Word.exists_bit_of_ne_zero h0).1
    rw [if_neg h0, if_neg (Nat.not_le.mpr (hself.word1 h0))]
    by_cases h1 : p.word1 (p.firstWord1 w0) = 0
    · rw [if_pos h1]
      exact hrepair (fun h => h.2.1 h1) _ fun v0 hv0 =>
        (agrees_of_repair 0 (hother v0 hv0) hb0).1
    rw [if_neg h1, if_neg (Nat.not_le.mpr (hself.word2 h0 h1))]
    by_cases h2 : p.word2 (p.firstWord2 w0) = 0
    · rw [if_pos h2]
      refine hrepair (fun h => h.2.2 h2) _ fun v0 hv0 => ?_
      have hclear := (agrees_of_repair (p := p) (p.word1 (p.firstWord1 w0)).trailingZeros
        (hother v0 hv0) hb0).2
      split_ifs
      · exact hclear.trans (agrees_of_repair 0 (hother v0 hv0) hb0).1
      · exact hclear
    have hleads : p.Leads w0 := ⟨h0, h1, h2⟩
    rw [if_neg h2, if_neg (Nat.not_le.mpr (hself.block hleads)),
      List.find?_cons_of_pos (by simpa using hleads)]
    rfl

theorem alike_scan (p : Pyramid) (ws : List ℕ) : Alike p (p.scan ws).1 := by
  induction ws generalizing p with
  | nil => exact .refl p
  | cons w0 ws ih =>
    rw [scan_cons]
    split_ifs
    · exact ih p
    · exact .refl p
    · refine Alike.trans ?_ (ih _)
      exact ⟨List.length_set, rfl, rfl, rfl⟩
    · exact .refl p
    · refine Alike.trans ?_ (ih _)
      exact ⟨List.length_set, List.length_set, rfl, rfl⟩
    · refine Alike.trans ?_ (ih _)
      exact ⟨rfl, List.length_set, rfl, rfl⟩
    · exact .refl p
    · dsimp only [take]
      split_ifs
      · exact ⟨List.length_set, List.length_set, List.length_set, rfl⟩
      · exact ⟨rfl, List.length_set, List.length_set, rfl⟩
      · exact ⟨rfl, rfl, List.length_set, rfl⟩

theorem Whole.leads (h : p.Whole) {w0 : ℕ} (h0 : p.word0 w0 ≠ 0) : p.Leads w0 :=
  ⟨h0, h.word1_ne_zero h0, h.word2_ne_zero (h.word1_ne_zero h0)⟩

theorem isFree_firstBlock {w0 : ℕ} (h : p.Leads w0) : p.isFree (p.firstBlock w0) = true := by
  obtain ⟨hlt, hbit⟩ := Word.exists_bit_of_ne_zero h.2.2
  rw [firstBlock, isFree_of_bits p hlt]
  exact hbit

theorem Whole.stays (h : p.Whole) (w0 : ℕ) : p.Stays w0 where
  word1 h0 := lt_length_of_getD_ne_zero (h.word1_ne_zero h0)
  word2 _ h1 := lt_length_of_getD_ne_zero (h.word2_ne_zero h1)
  block hleads := h.inside _ (isFree_firstBlock hleads)

theorem Whole.scan_finds (h : p.Whole) {i : ℕ} (hi : p.isFree i = true) :
    ∃ block, (p.scan (List.range p.l0.length)).2 = some block := by
  obtain ⟨w0, hmem, hw0⟩ := h.exists_word0 hi
  rw [scan_eq_find List.nodup_range fun w0 _ => h.stays w0]
  have hsome : ((List.range p.l0.length).find? fun w0 => p.Leads w0).isSome = true :=
    List.find?_isSome.mpr ⟨w0, hmem, decide_eq_true (h.leads hw0)⟩
  obtain ⟨v0, hv0⟩ := Option.isSome_iff_exists.mp hsome
  exact ⟨p.firstBlock v0, by rw [hv0, Option.map_some]⟩

theorem Whole.freeCount_of_lost (hp : p.Whole) (hq : q.Whole) (hsize : Alike p q) {block : ℕ}
    (hblock : p.isFree block = true)
    (hfree : ∀ rel, q.isFree rel = (p.isFree rel && decide (rel ≠ block))) :
    q.freeCount + 1 = p.freeCount := by
  rw [hp.count, hq.count]
  refine total_clear block 1 hsize.l2 (fun i hlow hhigh => ?_) fun i => ?_
  · obtain rfl : i = block := by omega
    exact hblock
  · refine (hfree i).trans ?_
    rw [← decide_not]
    congr 1
    exact decide_eq_decide.mpr (by omega)

theorem Whole.freeCount_pos_iff (h : p.Whole) : 0 < p.freeCount ↔ ∃ i, p.isFree i = true := by
  rw [h.count]
  exact total_pos_iff

theorem Whole.find_finds (h : p.Whole) {ws : List ℕ} (hex : ∃ w0 ∈ ws, p.word0 w0 ≠ 0) :
    ∃ block, p.find ws = some block ∧ p.isFree block = true := by
  induction ws with
  | nil => simp at hex
  | cons w0 ws ih =>
    rw [find]
    by_cases h0 : p.word0 w0 = 0
    · rw [if_pos h0]
      obtain ⟨v0, hv0, hne⟩ := hex
      refine ih ⟨v0, (List.mem_cons.mp hv0).resolve_left ?_, hne⟩
      rintro rfl
      exact hne h0
    · have hleads := h.leads h0
      have hstays := h.stays w0
      refine ⟨p.firstBlock w0, ?_, isFree_firstBlock hleads⟩
      have h1 : ¬(p.l1.length ≤ p.firstWord1 w0 ∨ p.word1 (p.firstWord1 w0) = 0) :=
        not_or.mpr ⟨Nat.not_le.mpr (hstays.word1 h0), hleads.2.1⟩
      have h2 : ¬(p.l2.length ≤ p.firstWord2 w0 ∨ p.word2 (p.firstWord2 w0) = 0) :=
        not_or.mpr ⟨Nat.not_le.mpr (hstays.word2 h0 hleads.2.1), hleads.2.2⟩
      rw [if_neg h0]
      exact (if_neg h1).trans ((if_neg h2).trans (if_neg (Nat.not_le.mpr (hstays.block hleads))))

theorem alike_emptied (p : Pyramid) (w : ℕ) : Alike p (p.emptied w) := by
  unfold emptied
  dsimp only
  split_ifs
  · exact ⟨List.length_set, List.length_set, rfl, rfl⟩
  · exact ⟨rfl, List.length_set, rfl, rfl⟩
  · exact .refl p

theorem markAllocated_cases (p : Pyramid) (rel : ℕ) :
    p.markAllocated rel = (p, false) ∧ (p.blockCount ≤ rel ∨ p.isFree rel = false) ∨
      ∃ q, p.markAllocated rel = (q, true) ∧ rel < p.blockCount ∧ p.isFree rel = true ∧
        Alike p q ∧ ∀ i, q.isFree i = (p.isFree i && decide (i ≠ rel)) := by
  unfold Pyramid.markAllocated
  split_ifs with hout hbit
  · exact .inl ⟨rfl, .inl hout⟩
  · exact .inl ⟨rfl, .inr hbit⟩
  · refine .inr ⟨_, rfl, Nat.not_le.mp hout, Bool.of_not_eq_false hbit, ?_, fun i => ?_⟩
    · refine Alike.trans ?_ (alike_emptied _ _)
      exact ⟨rfl, rfl, List.length_set, rfl⟩
    · generalize (_ + 2 ^ 64 - 1) % 2 ^ 64 = count
      have hl2 := (emptied_fields ({ p.clear2 (rel / 64) (rel % 64) with
        freeCount := count } : Pyramid) (rel / 64)).1
      refine (congrArg (bitAt · i) hl2).trans ((bitAt_clear2 p rel i).trans ?_)
      rw [← decide_not]
      rfl

end Pyramid

namespace Allocator

open Pyramid

variable {a : Allocator}

theorem gained_freeRun (h : a.bitmap.Whole) (first n : ℕ) :
    ∃ k, Gained a.bitmap (a.freeRun first n).bitmap
      (fun i => first ≤ i ∧ i < first + n ∧ i < a.bitmap.blockCount) k := by
  rw [bitmap_freeRun]
  exact ⟨_, h.gained_markFreeRun first n⟩

theorem tryAllocBlock_cases (a : Allocator) (forMeta : Bool) :
    a.available forMeta = 0 ∧ a.tryAllocBlock forMeta = (0, a) ∨
      0 < a.available forMeta ∧ ∃ p found, a.bitmap.scan (List.range a.bitmap.l0.length) = (p, found) ∧
        (found = none ∧ a.tryAllocBlock forMeta = (0, { a with bitmap := p }) ∨
          ∃ block, found = some block ∧
            a.tryAllocBlock forMeta = (block, { a with bitmap := p }.markL2Word (block / 64))) := by
  unfold tryAllocBlock
  by_cases havail : a.available forMeta = 0
  · exact .inl ⟨havail, if_pos havail⟩
  · refine .inr ⟨Nat.pos_of_ne_zero havail, ?_⟩
    rw [if_neg havail]
    rcases hscan : a.bitmap.scan (List.range a.bitmap.l0.length) with ⟨p, _ | block⟩
    · exact ⟨p, none, rfl, .inl ⟨rfl, rfl⟩⟩
    · exact ⟨p, some block, rfl, .inr ⟨block, rfl, rfl⟩⟩

theorem available_eq (a : Allocator) (forMeta : Bool) : a.available forMeta =
    if forMeta then a.bitmap.freeCount else a.bitmap.freeCount - a.metaShield := rfl

theorem available_le (a : Allocator) (forMeta : Bool) :
    a.available forMeta ≤ a.bitmap.freeCount := by
  rw [available_eq]
  split_ifs <;> omega

/-- A whole pool whose first block is taken hands out a block unless none is available. -/
theorem tryAllocBlock_whole (h : a.bitmap.Whole) (hzero : a.isFree 0 = false) (forMeta : Bool) :
    a.available forMeta = 0 ∧ a.tryAllocBlock forMeta = (0, a) ∨
      0 < a.available forMeta ∧ ∃ block b, a.tryAllocBlock forMeta = (block, b) ∧ block ≠ 0 ∧
        a.isFree block = true ∧ (∀ rel, b.isFree rel = (a.isFree rel && decide (rel ≠ block))) ∧
        b.bitmap.freeCount + 1 = a.bitmap.freeCount ∧ b.metaShield = a.metaShield := by
  rcases a.tryAllocBlock_cases forMeta with hnone | ⟨havail, p, found, hscan, hfound⟩
  · exact .inl hnone
  · obtain ⟨i, hi⟩ := h.freeCount_pos_iff.mp (havail.trans_le (a.available_le forMeta))
    obtain ⟨block, hblock⟩ := h.scan_finds hi
    have hspec := a.bitmap.scan_spec (List.range a.bitmap.l0.length)
    have hwhole := h.scan (List.range a.bitmap.l0.length)
    have hsize := a.bitmap.alike_scan (List.range a.bitmap.l0.length)
    rw [hscan] at hblock hspec hwhole hsize
    obtain rfl : found = some block := hblock
    obtain ⟨-, -, hfree, hbits⟩ := hspec
    rcases hfound with ⟨hnot, -⟩ | ⟨_, hsome, heq⟩
    · cases hnot
    · cases hsome
      refine .inr ⟨havail, block, _, heq, ?_, hfree, hbits, ?_, rfl⟩
      · rintro rfl
        exact absurd hfree (Bool.eq_false_iff.mp hzero)
      · exact h.freeCount_of_lost hwhole hsize hfree hbits

theorem allocateBlock_whole {p : Pyramid} (h : p.Whole) :
    (∀ rel, p.isFree rel = false) ∧ (∃ e, p.allocateBlock.1 = .error e) ∨
      ∃ block, p.allocateBlock.1 = .ok block ∧ p.isFree block = true ∧
        ∀ rel, p.allocateBlock.2.isFree rel = (p.isFree rel && decide (rel ≠ block)) := by
  unfold allocateBlock
  by_cases hcount : p.freeCount = 0
  · rw [if_pos hcount]
    refine .inl ⟨fun rel => ?_, _, rfl⟩
    by_contra hrel
    have := h.freeCount_pos_iff.mpr ⟨rel, Bool.of_not_eq_false hrel⟩
    omega
  · rw [if_neg hcount]
    obtain ⟨i, hi⟩ := h.freeCount_pos_iff.mp (Nat.pos_of_ne_zero hcount)
    obtain ⟨block, hfind, hfree⟩ := h.find_finds (h.exists_word0 hi)
    rw [hfind]
    refine .inr ⟨block, rfl, hfree, ?_⟩
    rcases p.markAllocated_cases block with ⟨-, hout⟩ | ⟨q, heq, -, -, -, hbits⟩
    · rcases hout with hout | hout
      · exact absurd (h.inside block hfree) (Nat.not_lt.mpr hout)
      · rw [hfree] at hout
        cases hout
    · dsimp only
      rw [heq]
      exact hbits

/-- The single-block allocations of a whole pool whose first block is taken: a block is found
just where the request may have one. It was free and is the only one taken, and a data
request leaves the shield. -/
theorem tryAllocBlock_iff (h : a.bitmap.Whole) (hzero : a.isFree 0 = false) :
    (∀ forMeta, ((a.tryAllocBlock forMeta).1 ≠ 0 ↔
          0 < if forMeta then a.bitmap.freeCount else a.bitmap.freeCount - a.metaShield) ∧
        ((a.tryAllocBlock forMeta).1 ≠ 0 → a.isFree (a.tryAllocBlock forMeta).1 = true) ∧
        (∀ rel, (a.tryAllocBlock forMeta).2.isFree rel =
          (a.isFree rel && decide (rel ≠ (a.tryAllocBlock forMeta).1))) ∧
        (forMeta = false → (a.tryAllocBlock forMeta).1 ≠ 0 →
          (a.tryAllocBlock forMeta).2.metaShield ≤
            (a.tryAllocBlock forMeta).2.bitmap.freeCount)) ∧
      ((∃ block, a.bitmap.allocateBlock.1 = .ok block) ↔ ∃ rel, a.bitmap.isFree rel = true) ∧
      ∀ block, a.bitmap.allocateBlock.1 = .ok block → a.bitmap.isFree block = true ∧
        ∀ rel, a.bitmap.allocateBlock.2.isFree rel =
          (a.bitmap.isFree rel && decide (rel ≠ block)) := by
  refine ⟨fun forMeta => ⟨?_, ?_, ?_, ?_⟩, ?_, ?_⟩
  · rw [← available_eq]
    rcases tryAllocBlock_whole h hzero forMeta with ⟨hnone, heq⟩ | ⟨hsome, block, b, heq, hne, -⟩
    · rw [heq, hnone]
      simp
    · rw [heq]
      exact ⟨fun _ => hsome, fun _ => hne⟩
  · rcases tryAllocBlock_whole h hzero forMeta with ⟨-, heq⟩ | ⟨-, block, b, heq, -, hfree, -⟩
    · rw [heq]
      exact fun hne => absurd rfl hne
    · rw [heq]
      exact fun _ => hfree
  · rcases tryAllocBlock_whole h hzero forMeta with ⟨-, heq⟩ | ⟨-, block, b, heq, -, -, hbits, -⟩
    · rw [heq]
      intro rel
      by_cases hrel : rel = 0
      · rw [hrel, hzero, Bool.false_and]
      · simp [hrel]
    · rw [heq]
      exact hbits
  · rintro rfl
    rcases tryAllocBlock_whole h hzero false with
      ⟨-, heq⟩ | ⟨hsome, block, b, heq, -, -, -, hcount, hshield⟩
    · rw [heq]
      exact fun hne => absurd rfl hne
    · rw [available_eq, if_neg (by simp)] at hsome
      rw [heq]
      intro _
      dsimp only
      omega
  · rcases allocateBlock_whole h with ⟨hnone, e, heq⟩ | ⟨block, heq, hfree, -⟩
    · rw [heq]
      simp [hnone]
    · exact ⟨fun _ => ⟨block, hfree⟩, fun _ => ⟨block, heq⟩⟩
  · intro block hok
    rcases allocateBlock_whole h with ⟨-, e, heq⟩ | ⟨block', heq, hfree, hbits⟩
    · rw [heq] at hok
      cases hok
    · rw [heq] at hok
      cases hok
      exact ⟨hfree, hbits⟩

theorem tryAllocBlock_iff_hundred :
    ((newDataAllocBuilder 100).Whole ∧ (ofPool (newDataAllocBuilder 100)).isFree 0 = false) ∧
      ((ofPool (newDataAllocBuilder 100)).tryAllocBlock false).1 ≠ 0 := by
  have h : (newDataAllocBuilder 100).Whole :=
    whole_newDataAllocBuilder (by norm_num) (by norm_num)
  have hzero : (ofPool (newDataAllocBuilder 100)).isFree 0 = false := by decide
  exact ⟨⟨h, hzero⟩, ((tryAllocBlock_iff h hzero).1 false).1.mpr (by decide)⟩

end Allocator

end Briefs.Alloc
