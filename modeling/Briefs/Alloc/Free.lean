import Briefs.Alloc.Pyramid

/-!
# Which blocks are free

What an allocation and a free change in the last level of the bitmap: an allocation
takes a block that was free, and a free adds no block outside its run.
-/

namespace Briefs.Alloc

namespace Word

theorem getLsbD_clearBit (w : Word) (i j : ℕ) :
    (w.clearBit i).getLsbD j = (w.getLsbD j && decide (j ≠ i)) := by
  unfold clearBit
  by_cases hj : j < 64
  · by_cases hji : j = i
    · subst hji
      simp [hj]
    · by_cases hlt : j < i
      · simp [hj, hji, hlt]
      · have h0 : j - i ≠ 0 := by omega
        simp [hj, hji, hlt, h0]
  · simp [BitVec.getLsbD_of_ge w j (by omega)]

theorem getLsbD_setBit (w : Word) (i j : ℕ) (hj : j < 64) :
    (w.setBit i).getLsbD j = (w.getLsbD j || decide (j = i)) := by
  unfold setBit
  by_cases hji : j = i
  · subst hji
    simp [hj]
  · by_cases hlt : j < i
    · simp [hj, hji, hlt]
    · have h0 : j - i ≠ 0 := by omega
      simp [hj, hji, hlt, h0]

theorem exists_bit_of_ne_zero {w : Word} (h : w ≠ 0) :
    w.trailingZeros < 64 ∧ w.getLsbD w.trailingZeros = true := by
  unfold trailingZeros
  cases hfind : (List.range 64).find? fun i => w.getLsbD i with
  | none =>
    refine absurd ?_ h
    rw [List.find?_eq_none] at hfind
    apply BitVec.eq_of_getLsbD_eq
    intro i hi
    simpa using hfind i (List.mem_range.mpr hi)
  | some i =>
    refine ⟨?_, by simpa using List.find?_some hfind⟩
    simpa using List.mem_of_find?_eq_some hfind

theorem getLsbD_low (k j : ℕ) (hk : k ≤ 64) :
    ((1#64 <<< k) - 1).getLsbD j = decide (j < k ∧ j < 64) := by
  by_cases hk' : k = 64
  · subst hk'
    have hall : ((1#64 <<< 64) - 1 : Word) = BitVec.allOnes 64 := by decide
    rw [hall, BitVec.getLsbD_allOnes]
    simp
  · have hpow : 2 ^ k < 2 ^ 64 := Nat.pow_lt_pow_right (by norm_num) (by omega)
    have hpos : 0 < 2 ^ k := Nat.two_pow_pos k
    have hnat : ((1#64 <<< k) - 1 : Word).toNat = 2 ^ k - 1 := by
      have hone : BitVec.toNat (1#64) = 1 := rfl
      rw [show (1 : Word) = 1#64 from rfl, BitVec.toNat_sub, BitVec.toNat_shiftLeft, hone,
        Nat.one_shiftLeft, Nat.mod_eq_of_lt hpow]
      omega
    rw [BitVec.getLsbD, hnat, Nat.testBit_two_pow_sub_one]
    apply decide_eq_decide.mpr
    omega

end Word

namespace Pyramid

variable (p : Pyramid)

def isFree (rel : ℕ) : Bool := (p.word2 (rel / 64)).getLsbD (rel % 64)

theorem isFree_of_bits {w b : ℕ} (hb : b < 64) : p.isFree (w * 64 + b) = (p.word2 w).getLsbD b := by
  unfold isFree
  rw [show (w * 64 + b) / 64 = w by omega, show (w * 64 + b) % 64 = b by omega]

theorem isFree_take {w0 b0 w1 b1 w2 b2 rel : ℕ} (hw2 : w2 < p.l2.length) (hb2 : b2 < 64) :
    (p.take w0 b0 w1 b1 w2 b2).isFree rel = (p.isFree rel && decide (rel ≠ w2 * 64 + b2)) := by
  have hl2 : (p.take w0 b0 w1 b1 w2 b2).l2 = (p.clear2 w2 b2).l2 := by
    simp only [take]
    split_ifs <;> rfl
  unfold isFree word2
  rw [hl2]
  simp only [clear2, word2]
  by_cases hw : rel / 64 = w2
  · subst hw
    rw [List.getD_eq_getElem?_getD, List.getElem?_set_self hw2, Option.getD_some,
      Word.getLsbD_clearBit]
    congr 1
    apply decide_eq_decide.mpr
    omega
  · have hne : rel ≠ w2 * 64 + b2 := by omega
    rw [List.getD_eq_getElem?_getD, List.getElem?_set_ne (Ne.symm hw),
      ← List.getD_eq_getElem?_getD]
    simp [hne]

theorem isFree_congr {q : Pyramid} (h : q.l2 = p.l2) (rel : ℕ) : q.isFree rel = p.isFree rel := by
  unfold isFree word2
  rw [h]

/-- What the scan of an allocation takes was free, and it takes nothing else. -/
theorem scan_spec (ws : List ℕ) :
    (p.scan ws).1.blockCount = p.blockCount ∧
    match (p.scan ws).2 with
    | none => ∀ rel, (p.scan ws).1.isFree rel = p.isFree rel
    | some block => block < p.blockCount ∧ p.isFree block = true ∧
        ∀ rel, (p.scan ws).1.isFree rel = (p.isFree rel && decide (rel ≠ block)) := by
  induction ws generalizing p with
  | nil => exact ⟨rfl, fun _ => rfl⟩
  | cons w0 ws ih =>
    -- a stale summary bit is cleared, which the last level does not see
    have hstale : ∀ q : Pyramid, q.l2 = p.l2 → q.blockCount = p.blockCount →
        (q.scan ws).1.blockCount = p.blockCount ∧
        match (q.scan ws).2 with
        | none => ∀ rel, (q.scan ws).1.isFree rel = p.isFree rel
        | some block => block < p.blockCount ∧ p.isFree block = true ∧
            ∀ rel, (q.scan ws).1.isFree rel = (p.isFree rel && decide (rel ≠ block)) := by
      intro q hl2 hcount
      obtain ⟨hc, hres⟩ := ih q
      refine ⟨hc.trans hcount, ?_⟩
      simp only [isFree_congr p hl2, hcount] at hres
      exact hres
    unfold scan
    dsimp only
    split_ifs with h0 h1 h2 h3 h4 h5 h6
    · exact ih p
    · exact ⟨rfl, fun _ => rfl⟩
    · exact hstale _ rfl rfl
    · exact ⟨rfl, fun _ => rfl⟩
    · exact hstale _ rfl rfl
    · exact hstale _ rfl rfl
    · exact ⟨rfl, fun _ => rfl⟩
    · obtain ⟨hlt, hbit⟩ := Word.exists_bit_of_ne_zero h4
      refine ⟨?_, by omega, ?_, fun rel => isFree_take p (by omega) hlt⟩
      · simp only [take]
        split_ifs <;> rfl
      · rw [isFree_of_bits p hlt]
        exact hbit

theorem mem_run_of_runMask {first n w i : ℕ} (hn : 0 < n) (hi : i < 64)
    (hlow : first / 64 ≤ w) (hhigh : w ≤ (first + n - 1) / 64)
    (h : (runMask first n w).getLsbD i = true) : first ≤ w * 64 + i ∧ w * 64 + i < first + n := by
  have hbelow : w = first / 64 → first % 64 ≤ i := by
    rintro rfl
    have hbit : (~~~((1#64 <<< (first % 64)) - 1)).getLsbD i = true := by
      simp only [runMask, if_pos] at h
      split_ifs at h with hlast
      · exact (Bool.and_eq_true _ _ ▸ BitVec.getLsbD_and ▸ h).1
      · exact h
    rw [BitVec.getLsbD_not, Word.getLsbD_low _ _ (by omega)] at hbit
    simp only [Bool.and_eq_true, decide_eq_true_eq, Bool.not_eq_true', decide_eq_false_iff_not]
      at hbit
    omega
  have habove : w = (first + n - 1) / 64 → i ≤ (first + n - 1) % 64 := by
    intro hw
    have hbit : ((1#64 <<< ((first + n - 1) % 64 + 1)) - 1).getLsbD i = true := by
      simp only [runMask, if_pos hw] at h
      exact (Bool.and_eq_true _ _ ▸ BitVec.getLsbD_and ▸ h).2
    rw [Word.getLsbD_low _ _ (by omega)] at hbit
    simp only [decide_eq_true_eq] at hbit
    omega
  omega

theorem freeWord_l2 (first n : ℕ) (acc : Pyramid × ℕ) (w : ℕ) :
    (freeWord first n acc w).1.l2 = acc.1.l2 ∨
      (freeWord first n acc w).1.l2 = acc.1.l2.set w (acc.1.word2 w ||| runMask first n w) := by
  unfold freeWord
  dsimp only
  split_ifs
  · exact .inl rfl
  all_goals exact .inr rfl

theorem isFree_of_set {q : Pyramid} {w rel : ℕ} {m : Word} (hl2 : q.l2 = p.l2.set w (p.word2 w ||| m))
    (h : q.isFree rel = true) : p.isFree rel = true ∨ rel / 64 = w ∧ m.getLsbD (rel % 64) = true := by
  unfold isFree word2 at h
  rw [hl2] at h
  by_cases hw : rel / 64 = w
  · by_cases hlen : w < p.l2.length
    · rw [List.getD_eq_getElem?_getD, hw, List.getElem?_set_self hlen, Option.getD_some,
        BitVec.getLsbD_or, Bool.or_eq_true] at h
      rcases h with h | h
      · left
        unfold isFree
        rw [hw]
        exact h
      · exact .inr ⟨hw, h⟩
    · rw [List.set_eq_of_length_le (by omega)] at h
      exact .inl h
  · rw [List.getD_eq_getElem?_getD, List.getElem?_set_ne (Ne.symm hw),
      ← List.getD_eq_getElem?_getD] at h
    exact .inl h

theorem isFree_freeWord {first n w rel : ℕ} {acc : Pyramid × ℕ} (hn : 0 < n)
    (hlow : first / 64 ≤ w) (hhigh : w ≤ (first + n - 1) / 64)
    (h : (freeWord first n acc w).1.isFree rel = true) :
    acc.1.isFree rel = true ∨ first ≤ rel ∧ rel < first + n := by
  rcases freeWord_l2 first n acc w with hl2 | hl2
  · exact .inl (isFree_congr acc.1 hl2 rel ▸ h)
  · rcases acc.1.isFree_of_set hl2 h with hfree | ⟨hw, hbit⟩
    · exact .inl hfree
    · right
      have := mem_run_of_runMask hn (Nat.mod_lt _ (by norm_num)) hlow hhigh hbit
      omega

/-- The words of a run are freed one after the other. -/
theorem markFreeRun_rule {P : Pyramid × ℕ → Prop} (first n : ℕ) (hp : P (p, 0))
    (hword : ∀ m acc w, m = min n (p.blockCount - first) → 0 < m → first / 64 ≤ w →
      w ≤ (first + m - 1) / 64 → P acc → P (freeWord first m acc w)) :
    P (p.markFreeRun first n) := by
  unfold markFreeRun
  split_ifs with hrun
  · exact hp
  · refine List.foldlRecOn _ _ hp fun acc hacc w hw => ?_
    rw [List.mem_range'_1] at hw
    exact hword _ acc w rfl (by omega) hw.1 (by omega) hacc

theorem isFree_markFreeRun {first n rel : ℕ} (h : (p.markFreeRun first n).1.isFree rel = true) :
    p.isFree rel = true ∨ first ≤ rel ∧ rel < first + n := by
  refine p.markFreeRun_rule (P := fun acc => acc.1.isFree rel = true → _) first n .inl ?_ h
  intro m acc w hm hpos hlow hhigh hacc hfree
  rcases isFree_freeWord hpos hlow hhigh hfree with hold | hin
  · exact hacc hold
  · right
    omega

theorem blockCount_freeWord (first n : ℕ) (acc : Pyramid × ℕ) (w : ℕ) :
    (freeWord first n acc w).1.blockCount = acc.1.blockCount := by
  unfold freeWord
  dsimp only
  split_ifs <;> rfl

theorem blockCount_markFreeRun (first n : ℕ) :
    (p.markFreeRun first n).1.blockCount = p.blockCount :=
  p.markFreeRun_rule (P := fun acc => acc.1.blockCount = p.blockCount) first n rfl
    fun _ _ _ _ _ _ _ hacc => (blockCount_freeWord ..).trans hacc

theorem markFreeRun_of_none (first n : ℕ) (h : (p.markFreeRun first n).2 = 0) :
    (p.markFreeRun first n).1 = p := by
  have hall : (p.markFreeRun first n).1 = p ∨ 0 < (p.markFreeRun first n).2 := by
    refine p.markFreeRun_rule (P := fun acc => acc.1 = p ∨ 0 < acc.2) first n (.inl rfl) ?_
    intro m acc w _ _ _ _ hacc
    unfold freeWord
    by_cases hadded : runMask first m w &&& ~~~(acc.1.word2 w) = 0
    · rw [if_pos hadded]
      exact hacc
    · obtain ⟨hlt, hbit⟩ := Word.exists_bit_of_ne_zero hadded
      rw [if_neg hadded]
      exact .inr (Nat.add_pos_right _ (List.countP_pos_iff.mpr ⟨_, List.mem_range.mpr hlt, hbit⟩))
  exact hall.resolve_right (by omega)

theorem markFreeRun_min (first n : ℕ) :
    p.markFreeRun first (min n (p.blockCount - first)) = p.markFreeRun first n := by
  unfold markFreeRun
  rw [Nat.min_assoc, Nat.min_self]
  exact if_congr (by omega) rfl rfl

end Pyramid

namespace Allocator

variable (a : Allocator)

def isFree (rel : ℕ) : Bool := a.bitmap.isFree rel

/-- An allocation takes a block that was free, and no other. -/
theorem tryAllocBlock_spec (forMeta : Bool) :
    (a.tryAllocBlock forMeta).2.bitmap.blockCount = a.bitmap.blockCount ∧
    (∀ rel, (a.tryAllocBlock forMeta).2.isFree rel = true → a.isFree rel = true) ∧
    ((a.tryAllocBlock forMeta).1 ≠ 0 →
      (a.tryAllocBlock forMeta).1 < a.bitmap.blockCount ∧
      a.isFree (a.tryAllocBlock forMeta).1 = true ∧
      (a.tryAllocBlock forMeta).2.isFree (a.tryAllocBlock forMeta).1 = false) := by
  unfold tryAllocBlock
  split_ifs
  · exact ⟨rfl, fun _ h => h, fun h => absurd rfl h⟩
  · have hscan := a.bitmap.scan_spec (List.range a.bitmap.l0.length)
    split
    · rename_i q heq
      rw [heq] at hscan
      exact ⟨hscan.1, fun rel h => (hscan.2 rel).symm.trans h, fun h => absurd rfl h⟩
    · rename_i q block heq
      rw [heq] at hscan
      obtain ⟨hcount, hlt, hfree, hothers⟩ := hscan
      refine ⟨hcount, fun rel h => ?_, fun _ => ⟨hlt, hfree, ?_⟩⟩
      · have hrel : q.isFree rel = true := h
        rw [hothers rel, Bool.and_eq_true] at hrel
        exact hrel.1
      · change q.isFree block = false
        rw [hothers block]
        simp

theorem bitmap_foldl_markL2Word (ws : List ℕ) (a : Allocator) :
    (ws.foldl markL2Word a).bitmap = a.bitmap := by
  induction ws generalizing a with
  | nil => rfl
  | cons w ws ih => exact ih _

theorem bitmap_freeRun (first n : ℕ) :
    (a.freeRun first n).bitmap = (a.bitmap.markFreeRun first n).1 := by
  unfold freeRun
  split_ifs with hrun
  · rw [Pyramid.markFreeRun, if_pos hrun]
  · dsimp only
    split
    · rename_i q heq
      rw [Pyramid.markFreeRun_min] at heq
      exact (a.bitmap.markFreeRun_of_none first n (by rw [heq])).symm
    · rename_i q k heq
      rw [Pyramid.markFreeRun_min] at heq
      rw [bitmap_foldl_markL2Word, heq]

theorem isFree_freeRun {first n rel : ℕ} (h : (a.freeRun first n).isFree rel = true) :
    a.isFree rel = true ∨ first ≤ rel ∧ rel < first + n := by
  rw [isFree, bitmap_freeRun] at h
  exact a.bitmap.isFree_markFreeRun h

theorem blockCount_freeRun (first n : ℕ) :
    (a.freeRun first n).bitmap.blockCount = a.bitmap.blockCount := by
  rw [bitmap_freeRun, Pyramid.blockCount_markFreeRun]

end Allocator

end Briefs.Alloc
