import Briefs.Alloc.Free
import Briefs.Alloc.Runs
import Briefs.Lib.Bitmap

/-!
# The summaries of a pool

Every bit of a summary level says whether the word below is zero, no bit lies past the
block count, and the free count is the number of set bits. Each call keeps this; while
a call is at work the summaries of the words it has changed may be stale.
-/

namespace Briefs.Alloc

open Bitmap

namespace Word

theorem getLsbD_bit (b j : ℕ) (hj : j < 64) : (1#64 <<< b).getLsbD j = decide (j = b) := by
  have h := getLsbD_setBit 0#64 b j hj
  rw [setBit, BitVec.zero_or] at h
  rw [h]
  simp

theorem ones_bit {b : ℕ} (hb : b < 64) : ones (1#64 <<< b) = 1 := by
  have hall : ∀ b : Fin 64, ones (1#64 <<< b.val) = 1 := by decide +kernel
  exact hall ⟨b, hb⟩

theorem ones_setBit {w : Word} {b : ℕ} (hb : b < 64) (hclear : w.getLsbD b = false) :
    ones (w.setBit b) = ones w + 1 := by
  rw [setBit, ones_or, ones_bit hb]
  intro j hj
  by_cases hjb : j = b
  · rw [hjb, hclear] at hj
    cases hj
  · have hj64 : j < 64 := by
      by_contra hge
      rw [BitVec.getLsbD_of_ge w j (by omega)] at hj
      cases hj
    rw [getLsbD_bit b j hj64]
    simp [hjb]

theorem ones_or_mask (w m : Word) : ones (w ||| m) = ones w + onesCount (m &&& ~~~w) := by
  have hor : w ||| m = w ||| (m &&& ~~~w) := by
    apply BitVec.eq_of_getLsbD_eq
    intro j hj
    simp only [BitVec.getLsbD_or, BitVec.getLsbD_and, BitVec.getLsbD_not, hj, decide_true,
      Bool.true_and]
    cases w.getLsbD j <;> simp
  rw [hor, ones_or]
  · rfl
  · intro j hj
    simp [hj]

/-- A word that is more than the bit just set was not zero before. -/
theorem ne_zero_of_setBit_ne {w : Word} {b : ℕ} (h : w.setBit b ≠ 1#64 <<< b) : w ≠ 0 := by
  rintro rfl
  apply h
  rw [setBit]
  simp

end Word

namespace Pyramid

/-- The three levels and the free count agree. -/
structure Consistent (p : Pyramid) : Prop where
  l1_iff : ∀ w, bitAt p.l1 w = true ↔ p.word2 w ≠ 0
  l0_iff : ∀ w, bitAt p.l0 w = true ↔ p.word1 w ≠ 0
  inside : ∀ rel, p.isFree rel = true → rel < p.blockCount
  count : p.freeCount = total p.l2

/-- What holds in the middle of a call: the summaries of the words in `stale` may not
have been mended yet. -/
structure Shape (stale : Set ℕ) (p : Pyramid) : Prop where
  bounded : p.blockCount < 2 ^ 64
  span2 : p.blockCount ≤ 64 * p.l2.length
  span1 : p.l2.length ≤ 64 * p.l1.length
  span0 : p.l1.length ≤ 64 * p.l0.length
  sums1 : Sums p.l1 p.l2 stale
  sums0 : Sums p.l0 p.l1 ∅
  inside : ∀ i, bitAt p.l2 i = true → i < p.blockCount

/-- Between calls. -/
structure Whole (p : Pyramid) : Prop extends Shape ∅ p where
  count : p.freeCount = total p.l2

variable {p : Pyramid} {stale : Set ℕ} {w : ℕ}

theorem Whole.consistent (h : p.Whole) : p.Consistent :=
  ⟨h.sums1.iff, h.sums0.iff, h.inside, h.count⟩

theorem Whole.freeCount_lt (h : p.Whole) : p.freeCount < 2 ^ 64 := by
  rw [h.count]
  exact lt_of_le_of_lt (total_le h.inside) h.bounded

namespace Shape

theorem word_lt (h : Shape stale p) {i : ℕ} (hi : i < p.blockCount) : i / 64 < p.l2.length := by
  have := h.span2
  omega

theorem word1_lt (h : Shape stale p) (hw : w < p.l2.length) : w / 64 < p.l1.length := by
  have := h.span1
  omega

theorem word0_lt (h : Shape stale p) (hw : w < p.l1.length) : w / 64 < p.l0.length := by
  have := h.span0
  omega

theorem withCount (h : Shape stale p) (n : ℕ) : Shape stale { p with freeCount := n } :=
  ⟨h.bounded, h.span2, h.span1, h.span0, h.sums1, h.sums0, h.inside⟩

theorem mono {stale' : Set ℕ} (h : Shape stale p) (hsub : stale ⊆ stale') : Shape stale' p :=
  { h with sums1 := h.sums1.mono hsub }

/-- A last-level word is written; its summary may be stale afterwards. -/
theorem setWord {x : Word} (h : Shape stale p) (hx : x ≠ 0 → bitAt p.l1 w = true)
    (hin : ∀ j < 64, x.getLsbD j = true → w * 64 + j < p.blockCount) :
    Shape (insert w stale) { p with l2 := p.l2.set w x } := by
  refine ⟨h.bounded, ?_, ?_, h.span0, h.sums1.setLow hx, h.sums0, ?_⟩
  · rw [List.length_set]
    exact h.span2
  · rw [List.length_set]
    exact h.span1
  · intro i hi
    rw [bitAt_set] at hi
    split_ifs at hi with hw
    · have := hin (i % 64) (Nat.mod_lt _ (by norm_num)) hi
      change i < p.blockCount
      omega
    · exact h.inside i hi

theorem lose {x : Word} (h : Shape stale p)
    (hx : ∀ j, x.getLsbD j = true → (p.word2 w).getLsbD j = true) :
    Shape (insert w stale) { p with l2 := p.l2.set w x } := by
  apply h.setWord
  · intro hne
    obtain ⟨j, _, hj⟩ := exists_getLsbD_of_ne_zero hne
    exact h.sums1.cover w (ne_zero_of_getLsbD (hx j hj))
  · intro j hlt hj
    apply h.inside
    rw [bitAt_word _ hlt]
    exact hx j hj

theorem fresh (h : Shape stale p) (hw : p.word2 w ≠ 0) : Shape (stale \ {w}) p :=
  { h with sums1 := h.sums1.fresh hw }

/-- The first summary loses the bit of a word that is zero. -/
theorem clear1 (h : Shape stale p) (hw : w < p.l2.length) (hzero : p.word2 w = 0) :
    Sums (p.clear1 (w / 64) (w % 64)).l1 p.l2 (stale \ {w}) ∧
      Sums p.l0 (p.clear1 (w / 64) (w % 64)).l1 {w / 64} := by
  constructor
  · apply h.sums1.setHigh (h.word1_lt hw)
    · intro j _ hne
      rw [Word.getLsbD_clearBit, decide_eq_true hne, Bool.and_true]
      rfl
    · rw [Word.getLsbD_clearBit]
      simp only [ne_eq, not_true_eq_false, decide_false, Bool.and_false, Bool.false_eq_true,
        false_iff, not_not]
      exact hzero
  · have hlow := h.sums0.setLow (w := w / 64)
      (x := Word.clearBit (p.word1 (w / 64)) (w % 64)) ?_
    · exact hlow.mono (by simp)
    · intro hne
      obtain ⟨j, _, hj⟩ := exists_getLsbD_of_ne_zero hne
      rw [Word.getLsbD_clearBit, Bool.and_eq_true] at hj
      exact h.sums0.cover _ (ne_zero_of_getLsbD hj.1)

/-- `emptied` mends the summaries above a word. -/
theorem emptied (h : Shape stale p) (hw : w < p.l2.length) :
    Shape (stale \ {w}) (p.emptied w) := by
  unfold Pyramid.emptied
  by_cases hzero : p.word2 w = 0
  · obtain ⟨hlow, hhigh⟩ := h.clear1 hw hzero
    have hw1 := h.word1_lt hw
    rw [if_pos hzero]
    have hlen1 : (p.clear1 (w / 64) (w % 64)).l1.length = p.l1.length := List.length_set
    by_cases hzero1 : (p.clear1 (w / 64) (w % 64)).word1 (w / 64) = 0
    · rw [if_pos hzero1]
      refine ⟨h.bounded, h.span2, ?_, ?_, hlow, ?_, h.inside⟩
      · exact h.span1.trans_eq (congrArg _ hlen1.symm)
      · have hlen0 : ((p.clear1 (w / 64) (w % 64)).clear0 (w / 64 / 64) (w / 64 % 64)).l0.length =
            p.l0.length := List.length_set
        rw [hlen0]
        exact hlen1.trans_le h.span0
      · have hmend := hhigh.setHigh (w := w / 64)
          (x := Word.clearBit (p.word0 (w / 64 / 64)) (w / 64 % 64)) (h.word0_lt hw1) ?_ ?_
        · exact hmend.mono (by simp)
        · intro j _ hne
          rw [Word.getLsbD_clearBit, decide_eq_true hne, Bool.and_true]
          rfl
        · rw [Word.getLsbD_clearBit]
          simp only [ne_eq, not_true_eq_false, decide_false, Bool.and_false, Bool.false_eq_true,
            false_iff, not_not]
          exact hzero1
    · rw [if_neg hzero1]
      refine ⟨h.bounded, h.span2, ?_, ?_, hlow, ?_, h.inside⟩
      · exact h.span1.trans_eq (congrArg _ hlen1.symm)
      · exact hlen1.trans_le h.span0
      · exact (hhigh.fresh hzero1).mono (by simp)
  · rw [if_neg hzero]
    exact h.fresh hzero

/-- A summary bit is set ahead of its word, in the second level too where the summary
word was zero. -/
theorem raise {q : Pyramid} (h : Shape stale p) (hw : w < p.l2.length)
    (hcount : q.blockCount = p.blockCount) (hl2 : q.l2 = p.l2)
    (hl1 : q.l1 = p.l1.set (w / 64) (Word.setBit (p.word1 (w / 64)) (w % 64)))
    (hl0 : q.l0 = p.l0 ∧ p.word1 (w / 64) ≠ 0 ∨
      q.l0 = p.l0.set (w / 64 / 64) (Word.setBit (p.word0 (w / 64 / 64)) (w / 64 % 64))) :
    Shape (insert w stale) q := by
  have hw1 := h.word1_lt hw
  have hne : q.word1 (w / 64) ≠ 0 := by
    refine ne_zero_of_getLsbD (j := w % 64) ?_
    unfold word1
    rw [hl1, getD_set, if_pos ⟨rfl, hw1⟩, Word.getLsbD_setBit _ _ _ (Nat.mod_lt _ (by norm_num))]
    simp
  have hlen1 : q.l1.length = p.l1.length := by rw [hl1, List.length_set]
  have hlen0 : q.l0.length = p.l0.length := by
    rcases hl0 with hl0 | hl0
    · rw [hl0.1]
    · rw [hl0, List.length_set]
  have habove : Sums q.l0 p.l1 {w / 64} := by
    rcases hl0 with ⟨hl0, -⟩ | hl0
    · rw [hl0]
      exact h.sums0.mono (Set.empty_subset _)
    · rw [hl0]
      refine (h.sums0.raise (h.word0_lt hw1) fun j hj => ?_).mono (by simp)
      exact Word.getLsbD_setBit _ _ _ hj
  refine ⟨hcount.trans_lt h.bounded, ?_, ?_, ?_, ?_, ?_, ?_⟩
  · rw [hcount, hl2]
    exact h.span2
  · rw [hl2, hlen1]
    exact h.span1
  · rw [hlen1, hlen0]
    exact h.span0
  · rw [hl1, hl2]
    exact h.sums1.raise hw1 fun j hj => Word.getLsbD_setBit _ _ _ hj
  · have hset : Sums q.l0 q.l1 {w / 64} := by
      rw [hl1]
      refine (habove.setLow fun _ => ?_).mono (by simp)
      rcases hl0 with ⟨hl0, hold⟩ | hl0
      · rw [hl0]
        exact h.sums0.cover _ hold
      · rw [hl0, bitAt_set, if_pos ⟨rfl, h.word0_lt hw1⟩,
          Word.getLsbD_setBit _ _ _ (Nat.mod_lt _ (by norm_num))]
        simp
    exact (hset.fresh hne).mono (by simp)
  · rw [hl2, hcount]
    exact h.inside

end Shape

section Fields

variable (p)

theorem emptied_fields (w : ℕ) : (p.emptied w).l2 = p.l2 ∧
    (p.emptied w).blockCount = p.blockCount ∧ (p.emptied w).freeCount = p.freeCount := by
  unfold emptied
  dsimp only
  split_ifs <;> exact ⟨rfl, rfl, rfl⟩

theorem bitAt_clear2 (rel i : ℕ) :
    bitAt (p.clear2 (rel / 64) (rel % 64)).l2 i = (bitAt p.l2 i && !decide (i = rel)) := by
  have hread : bitAt (p.clear2 (rel / 64) (rel % 64)).l2 i =
      if i / 64 = rel / 64 ∧ rel / 64 < p.l2.length then
        (Word.clearBit (p.word2 (rel / 64)) (rel % 64)).getLsbD (i % 64)
      else bitAt p.l2 i := bitAt_set _ _ _ _
  rw [hread]
  split_ifs with hw
  · rw [Word.getLsbD_clearBit, show word2 p (rel / 64) = p.l2.getD (i / 64) 0 by rw [hw.1]; rfl]
    have hdec : decide (i % 64 ≠ rel % 64) = !decide (i = rel) := by
      rw [← decide_not]
      exact decide_eq_decide.mpr (by omega)
    rw [hdec]
    rfl
  · by_cases hi : i = rel
    · rw [bitAt_of_length_le (by omega), Bool.false_and]
    · simp [hi]

end Fields

namespace Whole

theorem sub_freeCount {n : ℕ} (h : p.Whole) (hn : n ≤ total p.l2) :
    (p.freeCount + 2 ^ 64 - n) % 2 ^ 64 + n = p.freeCount := by
  have hlt := h.freeCount_lt
  have hcount := h.count
  omega

/-- A free block is taken, and the summaries are mended. -/
theorem takeBit {c : ℕ} (h : p.Whole) (rel : ℕ) (hfree : bitAt p.l2 rel = true)
    (hc : bitAt p.l2 rel = true → 1 ≤ total p.l2 → c + 1 = p.freeCount) :
    (({ p.clear2 (rel / 64) (rel % 64) with freeCount := c } : Pyramid).emptied
      (rel / 64)).Whole := by
  have hlt := h.inside rel hfree
  have hw := h.toShape.word_lt hlt
  have hclear : Shape {rel / 64} (p.clear2 (rel / 64) (rel % 64)) := by
    refine (h.toShape.lose fun j hj => ?_).mono (by simp)
    rw [Word.getLsbD_clearBit, Bool.and_eq_true] at hj
    exact hj.1
  have hlen : (p.clear2 (rel / 64) (rel % 64)).l2.length = p.l2.length := List.length_set
  have htotal := total_clear rel 1 hlen
    (fun i hlow hhigh => by
      have hi : i = rel := by omega
      rw [hi]
      exact hfree)
    (fun i => by
      rw [bitAt_clear2]
      congr 2
      exact decide_eq_decide.mpr (by omega))
  obtain ⟨hl2, -, hcount⟩ := emptied_fields ({ p.clear2 (rel / 64) (rel % 64) with
    freeCount := c } : Pyramid) (rel / 64)
  constructor
  · exact ((hclear.withCount c).emptied (hw.trans_eq hlen.symm)).mono (by simp)
  · rw [hcount, hl2]
    change c = total (p.clear2 (rel / 64) (rel % 64)).l2
    have hcount' := h.count
    have := hc hfree (by omega)
    omega

theorem markAllocated (h : p.Whole) (rel : ℕ) : (p.markAllocated rel).1.Whole := by
  unfold Pyramid.markAllocated
  split_ifs with hout hbit
  · exact h
  · exact h
  · exact h.takeBit rel (Bool.of_not_eq_false hbit) fun _ => h.sub_freeCount

/-- Bits of a word become set, with the summary bits above it that were missing. -/
theorem addBits {l0 l1 : List Word} {x : Word} {k c : ℕ} (h : p.Whole) (hw : w < p.l2.length)
    (hx : x ≠ 0) (hin : ∀ j < 64, x.getLsbD j = true → w * 64 + j < p.blockCount)
    (hup : l0 = p.l0 ∧ l1 = p.l1 ∧ p.word2 w ≠ 0 ∨
      l1 = p.l1.set (w / 64) (Word.setBit (p.word1 (w / 64)) (w % 64)) ∧
        (l0 = p.l0 ∧ p.word1 (w / 64) ≠ 0 ∨
          l0 = p.l0.set (w / 64 / 64) (Word.setBit (p.word0 (w / 64 / 64)) (w / 64 % 64))))
    (hk : ones x = ones (p.word2 w) + k) (hc : c = (p.freeCount + k) % 2 ^ 64) :
    ({ l0 := l0, l1 := l1, l2 := p.l2.set w x, blockCount := p.blockCount,
       freeCount := c } : Pyramid).Whole := by
  have hq : Shape {w} { p with l0 := l0, l1 := l1 } ∧ bitAt l1 w = true := by
    rcases hup with ⟨rfl, rfl, hold⟩ | ⟨rfl, hup⟩
    · exact ⟨h.toShape.mono (Set.empty_subset _), h.sums1.cover w hold⟩
    · have hraise : Shape (insert w ∅) { p with l0 := l0, l1 := p.l1.set (w / 64) _ } :=
        h.toShape.raise hw rfl rfl rfl hup
      refine ⟨hraise.mono (by simp), ?_⟩
      rw [bitAt_set, if_pos ⟨rfl, h.toShape.word1_lt hw⟩,
        Word.getLsbD_setBit _ _ _ (Nat.mod_lt _ (by norm_num))]
      simp
  have hset : Shape {w} { p with l0 := l0, l1 := l1, l2 := p.l2.set w x } :=
    (hq.1.setWord (fun _ => hq.2) hin).mono (by simp)
  have hne : (p.l2.set w x).getD w 0 ≠ 0 := by
    rw [getD_set, if_pos ⟨rfl, hw⟩]
    exact hx
  have htotal : total (p.l2.set w x) + ones (p.word2 w) = total p.l2 + ones x := total_set x hw
  constructor
  · exact ((hset.fresh hne).mono (by simp)).withCount c
  · change c = total (p.l2.set w x)
    have hle : total (p.l2.set w x) ≤ p.blockCount := total_le hset.inside
    have hcount := h.count
    have hbound := h.bounded
    omega

theorem markFree (h : p.Whole) (rel : ℕ) : (p.markFree rel).1.Whole := by
  unfold Pyramid.markFree
  split_ifs with hout hbit
  · exact h
  · exact h
  · have hw := h.toShape.word_lt (i := rel) (by omega)
    have hw1 := h.toShape.word1_lt hw
    have hb : rel % 64 < 64 := Nat.mod_lt _ (by norm_num)
    have hread2 : (p.l2.set (rel / 64) (Word.setBit (p.word2 (rel / 64)) (rel % 64))).getD
        (rel / 64) 0 = Word.setBit (p.word2 (rel / 64)) (rel % 64) := by
      rw [getD_set, if_pos ⟨rfl, hw⟩]
    have hread1 : (p.l1.set (rel / 64 / 64)
        (Word.setBit (p.word1 (rel / 64 / 64)) (rel / 64 % 64))).getD (rel / 64 / 64) 0 =
        Word.setBit (p.word1 (rel / 64 / 64)) (rel / 64 % 64) := by
      rw [getD_set, if_pos ⟨rfl, hw1⟩]
    have hne : Word.setBit (p.word2 (rel / 64)) (rel % 64) ≠ 0 := by
      apply ne_zero_of_getLsbD (j := rel % 64)
      rw [Word.getLsbD_setBit _ _ _ hb]
      simp
    have hin : ∀ j < 64, (Word.setBit (p.word2 (rel / 64)) (rel % 64)).getLsbD j = true →
        rel / 64 * 64 + j < p.blockCount := by
      intro j hj hset
      rw [Word.getLsbD_setBit _ _ _ hj, Bool.or_eq_true, decide_eq_true_eq] at hset
      rcases hset with hset | rfl
      · apply h.inside
        rw [bitAt_word _ hj]
        exact hset
      · omega
    have hk := Word.ones_setBit hb (Bool.of_not_eq_true hbit)
    -- the summaries are raised where the word, and then the summary word, was zero
    dsimp only
    split_ifs with h2 h1
    · exact h.addBits hw hne hin (.inr ⟨rfl, .inr rfl⟩) hk rfl
    · refine h.addBits hw hne hin (.inr ⟨rfl, .inl ⟨rfl, ?_⟩⟩) hk rfl
      apply Word.ne_zero_of_setBit_ne (b := rel / 64 % 64)
      rw [← hread1]
      exact h1
    · refine h.addBits hw hne hin (.inl ⟨rfl, rfl, ?_⟩) hk rfl
      apply Word.ne_zero_of_setBit_ne (b := rel % 64)
      rw [← hread2]
      exact h2

theorem freeWord {first n : ℕ} {acc : Pyramid × ℕ} (h : acc.1.Whole) (hn : 0 < n)
    (hfit : first + n ≤ acc.1.blockCount) (hlow : first / 64 ≤ w)
    (hhigh : w ≤ (first + n - 1) / 64) : (Pyramid.freeWord first n acc w).1.Whole := by
  have hw := h.toShape.word_lt (i := first + n - 1) (by omega)
  unfold Pyramid.freeWord
  by_cases hadded : runMask first n w &&& ~~~(acc.1.word2 w) = 0
  · rw [if_pos hadded]
    exact h
  · rw [if_neg hadded]
    obtain ⟨j, _, hj⟩ := exists_getLsbD_of_ne_zero hadded
    have hne : acc.1.word2 w ||| runMask first n w ≠ 0 := by
      rw [BitVec.getLsbD_and, Bool.and_eq_true] at hj
      apply ne_zero_of_getLsbD (j := j)
      rw [BitVec.getLsbD_or, hj.1, Bool.or_true]
    have hin : ∀ j < 64, (acc.1.word2 w ||| runMask first n w).getLsbD j = true →
        w * 64 + j < acc.1.blockCount := by
      intro j hj hset
      rw [BitVec.getLsbD_or, Bool.or_eq_true] at hset
      rcases hset with hset | hset
      · apply h.inside
        rw [bitAt_word _ hj]
        exact hset
      · have := mem_run_of_runMask hn hj hlow hhigh hset
        omega
    have hk := Word.ones_or_mask (acc.1.word2 w) (runMask first n w)
    have hwlt : w < acc.1.l2.length := by omega
    split_ifs with h2 h1
    · exact h.addBits hwlt hne hin (.inr ⟨rfl, .inr rfl⟩) hk rfl
    · exact h.addBits hwlt hne hin (.inr ⟨rfl, .inl ⟨rfl, h1⟩⟩) hk rfl
    · exact h.addBits hwlt hne hin (.inl ⟨rfl, rfl, h2⟩) hk rfl

theorem markFreeRun (h : p.Whole) (first n : ℕ) : (p.markFreeRun first n).1.Whole := by
  -- word by word: the invariant and the block count are kept
  refine (p.markFreeRun_rule (P := fun acc => acc.1.Whole ∧ acc.1.blockCount = p.blockCount)
    first n ⟨h, rfl⟩ ?_).1
  intro m acc w hm hpos hlow hhigh ⟨hacc, hcount⟩
  exact ⟨hacc.freeWord hpos (by omega) hlow hhigh, (blockCount_freeWord ..).trans hcount⟩

/-- The first set bit of a summary word leads to a word that is not zero. -/
theorem word1_ne_zero (h : p.Whole) {w0 : ℕ} (hne : p.word0 w0 ≠ 0) :
    p.word1 (w0 * 64 + (p.word0 w0).trailingZeros) ≠ 0 := by
  obtain ⟨hlt, hbit⟩ := Word.exists_bit_of_ne_zero hne
  refine (h.sums0.iff _).mp ?_
  rw [bitAt_word _ hlt]
  exact hbit

theorem word2_ne_zero (h : p.Whole) {w1 : ℕ} (hne : p.word1 w1 ≠ 0) :
    p.word2 (w1 * 64 + (p.word1 w1).trailingZeros) ≠ 0 := by
  obtain ⟨hlt, hbit⟩ := Word.exists_bit_of_ne_zero hne
  refine (h.sums1.iff _).mp ?_
  rw [bitAt_word _ hlt]
  exact hbit

/-- `take` is given the coordinates of the block at every level. -/
theorem take (h : p.Whole) {w0 b0 w1 b1 w2 b2 : ℕ} (hb2 : b2 < 64) (hb1 : b1 < 64) (hb0 : b0 < 64)
    (hw2 : w2 = w1 * 64 + b1) (hw1 : w1 = w0 * 64 + b0)
    (hfree : (p.word2 w2).getLsbD b2 = true) : (p.take w0 b0 w1 b1 w2 b2).Whole := by
  have hcoord : (w2 * 64 + b2) / 64 = w2 ∧ (w2 * 64 + b2) % 64 = b2 ∧ w2 / 64 = w1 ∧
      w2 % 64 = b1 ∧ w1 / 64 = w0 ∧ w1 % 64 = b0 := by omega
  obtain ⟨h1, h2, h3, h4, h5, h6⟩ := hcoord
  have htake := h.takeBit (w2 * 64 + b2) (by rw [bitAt_word _ hb2]; exact hfree)
    fun _ => h.sub_freeCount
  rw [h1, h2] at htake
  unfold emptied at htake
  rw [h3, h4, h5, h6] at htake
  exact htake

theorem scan (h : p.Whole) (ws : List ℕ) : (p.scan ws).1.Whole := by
  induction ws with
  | nil => exact h
  | cons w0 ws ih =>
    unfold Pyramid.scan
    dsimp only
    split_ifs with h0 hl1 h1 hl2 h2 h3 hcount
    · exact ih
    · exact h
    · exact absurd h1 (h.word1_ne_zero h0)
    · exact h
    · exact absurd h2 (h.word2_ne_zero h1)
    · exact absurd h2 (h.word2_ne_zero h1)
    · exact h
    · obtain ⟨hb0, -⟩ := Word.exists_bit_of_ne_zero h0
      obtain ⟨hb1, -⟩ := Word.exists_bit_of_ne_zero h1
      obtain ⟨hb2, hbit⟩ := Word.exists_bit_of_ne_zero h2
      exact h.take hb2 hb1 hb0 rfl rfl hbit

theorem allocateBlock (h : p.Whole) : p.allocateBlock.2.Whole := by
  unfold Pyramid.allocateBlock
  split_ifs
  · exact h
  · split
    · exact h
    · exact h.markAllocated _

end Whole

end Pyramid

namespace Allocator

variable {a : Allocator}

theorem whole_tryAllocBlock (h : a.bitmap.Whole) (forMeta : Bool) :
    (a.tryAllocBlock forMeta).2.bitmap.Whole := by
  unfold tryAllocBlock
  split_ifs
  · exact h
  · have hscan := h.scan (List.range a.bitmap.l0.length)
    split
    · rename_i heq
      rw [heq] at hscan
      exact hscan
    · rename_i heq
      rw [heq] at hscan
      exact hscan

theorem whole_reserveBlockZero (h : a.bitmap.Whole) : a.reserveBlockZero.bitmap.Whole := by
  unfold reserveBlockZero
  split_ifs with hbit
  · exact h.takeBit 0 hbit fun _ => h.sub_freeCount
  · exact h

end Allocator

end Briefs.Alloc
