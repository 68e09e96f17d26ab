import Mathlib.Tactic

/-!
# Bitmaps of 64-bit words

A bitmap is a list of words, read bit by bit. A bitmap summarises another one when its
bit `w` says whether the word `w` below is not zero; a set of indices may be stale,
their summary bits set over a word that has become zero.
-/

namespace Briefs.Bitmap

/-- Bit `i` of a bitmap; clear past its end. -/
def bitAt (l : List (BitVec 64)) (i : ℕ) : Bool := (l.getD (i / 64) 0).getLsbD (i % 64)

def ones (w : BitVec 64) : ℕ := (List.range 64).countP fun i => w.getLsbD i

def total (l : List (BitVec 64)) : ℕ := (l.map ones).sum

section Words

variable {l : List (BitVec 64)}

theorem getD_set (l : List (BitVec 64)) (w v : ℕ) (x : BitVec 64) :
    (l.set w x).getD v 0 = if v = w ∧ w < l.length then x else l.getD v 0 := by
  rw [List.getD_eq_getElem?_getD, List.getElem?_set]
  by_cases hw : w = v
  · subst hw
    by_cases hlen : w < l.length
    · simp [hlen]
    · simp [hlen, List.getD_eq_getElem?_getD]
  · simp [hw, Ne.symm hw, List.getD_eq_getElem?_getD]

theorem bitAt_set (l : List (BitVec 64)) (w i : ℕ) (x : BitVec 64) :
    bitAt (l.set w x) i =
      if i / 64 = w ∧ w < l.length then x.getLsbD (i % 64) else bitAt l i := by
  unfold bitAt
  rw [getD_set]
  split_ifs <;> rfl

theorem bitAt_word (l : List (BitVec 64)) {w j : ℕ} (hj : j < 64) :
    bitAt l (w * 64 + j) = (l.getD w 0).getLsbD j := by
  unfold bitAt
  rw [show (w * 64 + j) / 64 = w by omega, show (w * 64 + j) % 64 = j by omega]

theorem bitAt_of_length_le {i : ℕ} (h : l.length ≤ i / 64) :
    bitAt l i = false := by
  unfold bitAt
  rw [List.getD_eq_getElem?_getD, List.getElem?_eq_none h]
  simp

theorem exists_getLsbD_of_ne_zero {w : BitVec 64} (h : w ≠ 0) :
    ∃ j < 64, w.getLsbD j = true := by
  by_contra hnone
  push Not at hnone
  apply h
  apply BitVec.eq_of_getLsbD_eq
  intro j hj
  simpa using hnone j hj

theorem ne_zero_of_getLsbD {w : BitVec 64} {j : ℕ} (h : w.getLsbD j = true) : w ≠ 0 := by
  rintro rfl
  simp at h

theorem lt_length_of_getD_ne_zero {w : ℕ} (h : l.getD w 0 ≠ 0) : w < l.length := by
  by_contra hge
  rw [List.getD_eq_getElem?_getD, List.getElem?_eq_none (Nat.not_lt.mp hge)] at h
  exact h rfl

theorem lt_of_bitAt {i : ℕ} (h : bitAt l i = true) : i < 64 * l.length := by
  have := lt_length_of_getD_ne_zero (ne_zero_of_getLsbD h)
  omega

theorem eq_of_bitAt {l m : List (BitVec 64)} (hlen : l.length = m.length)
    (hbits : ∀ i, bitAt l i = bitAt m i) : l = m := by
  refine List.ext_getElem hlen fun w hw hw' => ?_
  apply BitVec.eq_of_getLsbD_eq
  intro j hj
  have hbit := hbits (w * 64 + j)
  rw [bitAt_word _ hj, bitAt_word _ hj] at hbit
  simpa [hw, hw'] using hbit

end Words

section Counting

variable {l : List (BitVec 64)}

/-- Words without a common set bit add up. -/
theorem ones_or {u v : BitVec 64} (h : ∀ j, u.getLsbD j = true → v.getLsbD j = false) :
    ones (u ||| v) = ones u + ones v := by
  unfold ones
  induction List.range 64 with
  | nil => rfl
  | cons j js ih =>
    rw [List.countP_cons, List.countP_cons, List.countP_cons, ih, BitVec.getLsbD_or]
    cases hu : u.getLsbD j
    · simp only [Bool.false_or, Bool.false_eq_true, if_false]
      omega
    · simp only [Bool.true_or, if_true, h j hu, Bool.false_eq_true, if_false]
      omega

theorem total_set {w : ℕ} (x : BitVec 64) (hw : w < l.length) :
    total (l.set w x) + ones (l.getD w 0) = total l + ones x := by
  unfold total
  induction l generalizing w with
  | nil => simp at hw
  | cons y l ih =>
    cases w with
    | zero =>
      simp only [List.set_cons_zero, List.map_cons, List.sum_cons, List.getD_cons_zero]
      omega
    | succ w =>
      have hrest := ih (w := w) (by simpa using hw)
      simp only [List.set_cons_succ, List.map_cons, List.sum_cons, List.getD_cons_succ]
      omega

/-- The set bits of a bitmap, counted bit by bit. -/
theorem total_eq_countP (l : List (BitVec 64)) :
    total l = (List.range (64 * l.length)).countP fun i => bitAt l i := by
  unfold total
  induction l with
  | nil => rfl
  | cons x l ih =>
    have hfirst : ((List.range 64).countP fun i => bitAt (x :: l) i) = ones x := by
      apply List.countP_congr
      intro i hi
      have hi64 : i < 64 := List.mem_range.mp hi
      unfold bitAt
      rw [Nat.div_eq_of_lt hi64, Nat.mod_eq_of_lt hi64, List.getD_cons_zero]
    have hrest : ((List.range (64 * l.length)).countP
        ((fun i => bitAt (x :: l) i) ∘ fun i => 64 + i)) =
        (List.range (64 * l.length)).countP fun i => bitAt l i := by
      apply List.countP_congr
      intro i _
      unfold bitAt
      rw [Function.comp_apply, show (64 + i) / 64 = i / 64 + 1 by omega,
        show (64 + i) % 64 = i % 64 by omega, List.getD_cons_succ]
    rw [List.map_cons, List.sum_cons, ih, List.length_cons,
      show 64 * (l.length + 1) = 64 + 64 * l.length by omega, List.range_add,
      List.countP_append, List.countP_map, hfirst, hrest]

theorem total_eq_card (l : List (BitVec 64)) :
    total l = ((Finset.range (64 * l.length)).filter fun i => bitAt l i = true).card := by
  have hdec : (fun i => bitAt l i) = fun i => decide (bitAt l i = true) := by
    funext i
    exact Bool.decide_eq_true.symm
  rw [total_eq_countP, List.countP_eq_length_filter, hdec]
  rfl

theorem total_pos_iff : 0 < total l ↔ ∃ i, bitAt l i = true := by
  rw [total_eq_card, Finset.card_pos]
  constructor
  · rintro ⟨i, hi⟩
    exact ⟨i, (Finset.mem_filter.mp hi).2⟩
  · rintro ⟨i, hi⟩
    exact ⟨i, Finset.mem_filter.mpr ⟨Finset.mem_range.mpr (lt_of_bitAt hi), hi⟩⟩

theorem total_le {n : ℕ} (h : ∀ i, bitAt l i = true → i < n) :
    total l ≤ n := by
  rw [total_eq_card]
  calc ((Finset.range (64 * l.length)).filter fun i => bitAt l i = true).card
      ≤ (Finset.range n).card := by
        apply Finset.card_le_card
        intro i hi
        exact Finset.mem_range.mpr (h i (Finset.mem_filter.mp hi).2)
    _ = n := Finset.card_range n

theorem total_clear {l l' : List (BitVec 64)} (first n : ℕ) (hlen : l'.length = l.length)
    (hset : ∀ i, first ≤ i → i < first + n → bitAt l i = true)
    (hbits : ∀ i, bitAt l' i = (bitAt l i && !decide (first ≤ i ∧ i < first + n))) :
    total l' + n = total l := by
  have hrun : Finset.Ico first (first + n) ⊆
      (Finset.range (64 * l.length)).filter fun i => bitAt l i = true := by
    intro i hi
    obtain ⟨hlow, hhigh⟩ := Finset.mem_Ico.mp hi
    have hbit := hset i hlow hhigh
    refine Finset.mem_filter.mpr ⟨Finset.mem_range.mpr ?_, hbit⟩
    by_contra hout
    rw [bitAt_of_length_le (by omega)] at hbit
    cases hbit
  have hrest : ((Finset.range (64 * l'.length)).filter fun i => bitAt l' i = true) =
      ((Finset.range (64 * l.length)).filter fun i => bitAt l i = true) \
        Finset.Ico first (first + n) := by
    ext i
    simp only [Finset.mem_filter, Finset.mem_sdiff, Finset.mem_range, Finset.mem_Ico, hlen, hbits,
      Bool.and_eq_true, Bool.not_eq_true', decide_eq_false_iff_not]
    tauto
  rw [total_eq_card, total_eq_card, hrest, Finset.card_sdiff_of_subset hrun, Nat.card_Ico]
  have := Finset.card_le_card hrun
  rw [Nat.card_Ico] at this
  omega

end Counting

/-- `hi` summarises `lo`, up to stale bits. -/
structure Sums (hi lo : List (BitVec 64)) (stale : Set ℕ) : Prop where
  cover : ∀ w, lo.getD w 0 ≠ 0 → bitAt hi w = true
  tight : ∀ w ∉ stale, bitAt hi w = true → lo.getD w 0 ≠ 0

namespace Sums

variable {hi lo : List (BitVec 64)} {stale : Set ℕ} {w : ℕ} {x : BitVec 64}

/-- A summary without stale bits. -/
theorem iff (h : Sums hi lo ∅) (w : ℕ) : bitAt hi w = true ↔ lo.getD w 0 ≠ 0 :=
  ⟨h.tight w (Set.notMem_empty w), h.cover w⟩

/-- A summary without stale bits is settled by what lies below. -/
theorem eq_of_length {hi' : List (BitVec 64)} (h : Sums hi lo ∅) (h' : Sums hi' lo ∅)
    (hlen : hi.length = hi'.length) : hi = hi' :=
  eq_of_bitAt hlen fun i => Bool.eq_iff_iff.mpr ((h.iff i).trans (h'.iff i).symm)

/-- A word below changes; its summary bit may be stale afterwards. -/
theorem setLow (h : Sums hi lo stale) (hx : x ≠ 0 → bitAt hi w = true) :
    Sums hi (lo.set w x) (insert w stale) := by
  constructor
  · intro v hv
    rw [getD_set] at hv
    split_ifs at hv with hw
    · rw [hw.1]
      exact hx hv
    · exact h.cover v hv
  · intro v hv hbit
    rw [Set.mem_insert_iff, not_or] at hv
    rw [getD_set, if_neg (fun hw => hv.1 hw.1)]
    exact h.tight v hv.2 hbit

/-- The summary bit of `w` is set ahead of the word below. -/
theorem raise (h : Sums hi lo stale) (hlen : w / 64 < hi.length)
    (hbits : ∀ j < 64, x.getLsbD j = ((hi.getD (w / 64) 0).getLsbD j || decide (j = w % 64))) :
    Sums (hi.set (w / 64) x) lo (insert w stale) := by
  have hread : ∀ v, bitAt (hi.set (w / 64) x) v = (bitAt hi v || decide (v = w)) := by
    intro v
    rw [bitAt_set]
    split_ifs with hw
    · have hdec : decide (v % 64 = w % 64) = decide (v = w) := decide_eq_decide.mpr (by omega)
      rw [hbits (v % 64) (Nat.mod_lt _ (by norm_num)), ← hw.1, hdec]
      rfl
    · have hne : v ≠ w := by
        rintro rfl
        exact hw ⟨rfl, hlen⟩
      simp [hne]
  constructor
  · intro v hv
    rw [hread, h.cover v hv, Bool.true_or]
  · intro v hv hbit
    rw [Set.mem_insert_iff, not_or] at hv
    rw [hread, decide_eq_false hv.1, Bool.or_false] at hbit
    exact h.tight v hv.2 hbit

theorem fresh (h : Sums hi lo stale) (hw : lo.getD w 0 ≠ 0) : Sums hi lo (stale \ {w}) := by
  refine ⟨h.cover, fun v hv hbit => ?_⟩
  by_cases hvw : v = w
  · rw [hvw]
    exact hw
  · exact h.tight v (fun hmem => hv ⟨hmem, hvw⟩) hbit

/-- The summary bit of `w` is written to what the word below says. -/
theorem setHigh (h : Sums hi lo stale) (hlen : w / 64 < hi.length)
    (hothers : ∀ j < 64, j ≠ w % 64 → x.getLsbD j = (hi.getD (w / 64) 0).getLsbD j)
    (hbit : x.getLsbD (w % 64) = true ↔ lo.getD w 0 ≠ 0) :
    Sums (hi.set (w / 64) x) lo (stale \ {w}) := by
  have hread : ∀ v, v ≠ w → bitAt (hi.set (w / 64) x) v = bitAt hi v := by
    intro v hv
    rw [bitAt_set]
    split_ifs with hw
    · rw [hothers (v % 64) (Nat.mod_lt _ (by norm_num)) (by omega), ← hw.1]
      rfl
    · rfl
  have hself : bitAt (hi.set (w / 64) x) w = x.getLsbD (w % 64) := by
    rw [bitAt_set, if_pos ⟨rfl, hlen⟩]
  constructor
  · intro v hv
    by_cases hvw : v = w
    · subst hvw
      rw [hself]
      exact hbit.mpr hv
    · rw [hread v hvw]
      exact h.cover v hv
  · intro v hv hset
    by_cases hvw : v = w
    · subst hvw
      rw [hself] at hset
      exact hbit.mp hset
    · rw [hread v hvw] at hset
      exact h.tight v (fun hmem => hv ⟨hmem, hvw⟩) hset

theorem mono {stale' : Set ℕ} (h : Sums hi lo stale) (hsub : stale ⊆ stale') : Sums hi lo stale' :=
  ⟨h.cover, fun v hv => h.tight v (fun hmem => hv (hsub hmem))⟩

end Sums

end Briefs.Bitmap
