import Briefs.Lib.Bytes

/-!
# Reading back what was put

A little-endian word is read back whatever follows it, and a copy that fits replaces
the bytes it covers.
-/

namespace Briefs.Lib

/-- Byte `k` of a word, moved back to its place. -/
theorem getLsbD_byte (x : BitVec 32) {i k : ℕ} (hi : i < 32) :
    (((x >>> (8 * k)).setWidth 8).setWidth 32 <<< (8 * k)).getLsbD i =
      (decide (8 * k ≤ i ∧ i < 8 * k + 8) && x.getLsbD i) := by
  simp only [BitVec.getLsbD_shiftLeft, BitVec.getLsbD_setWidth, BitVec.getLsbD_ushiftRight, hi,
    decide_true, Bool.true_and]
  by_cases hlow : i < 8 * k
  · have hout : ¬(8 * k ≤ i ∧ i < 8 * k + 8) := by omega
    simp [hlow, hout]
  · rw [Nat.add_sub_cancel' (by omega : 8 * k ≤ i)]
    by_cases hhigh : i < 8 * k + 8
    · have hbyte : i - 8 * k < 8 ∧ i - 8 * k < 32 := by omega
      have hin : 8 * k ≤ i ∧ i < 8 * k + 8 := by omega
      simp [hlow, hbyte, hin]
    · have hbyte : ¬i - 8 * k < 8 := by omega
      have hout : ¬(8 * k ≤ i ∧ i < 8 * k + 8) := by omega
      simp [hbyte, hout]

theorem word_of_bytes (x : BitVec 32) :
    ((x >>> (8 * 0)).setWidth 8).setWidth 32 <<< (8 * 0) |||
      ((x >>> (8 * 1)).setWidth 8).setWidth 32 <<< (8 * 1) |||
      ((x >>> (8 * 2)).setWidth 8).setWidth 32 <<< (8 * 2) |||
      ((x >>> (8 * 3)).setWidth 8).setWidth 32 <<< (8 * 3) = x := by
  apply BitVec.eq_of_getLsbD_eq
  intro i hi
  rw [BitVec.getLsbD_or, BitVec.getLsbD_or, BitVec.getLsbD_or, getLsbD_byte x hi,
    getLsbD_byte x hi, getLsbD_byte x hi, getLsbD_byte x hi, ← Bool.and_or_distrib_right,
    ← Bool.and_or_distrib_right, ← Bool.and_or_distrib_right, ← Bool.decide_or, ← Bool.decide_or,
    ← Bool.decide_or, decide_eq_true (by omega), Bool.true_and]

theorem getUint32_put_append (v : UInt32) (rest : Bytes) :
    getUint32 (putUint32 v ++ rest) = v := by
  change v.toUInt8.toUInt32 ||| (v >>> 8).toUInt8.toUInt32 <<< 8 |||
    (v >>> 16).toUInt8.toUInt32 <<< 16 ||| (v >>> 24).toUInt8.toUInt32 <<< 24 = v
  apply UInt32.eq_of_toBitVec_eq
  refine Eq.trans ?_ (word_of_bytes v.toBitVec)
  simp only [UInt32.toBitVec_or, UInt32.toBitVec_shiftLeft, UInt8.toBitVec_toUInt32,
    UInt32.toBitVec_toUInt8, UInt32.toBitVec_shiftRight, BitVec.shiftLeft_eq',
    BitVec.ushiftRight_eq']
  rw [show (UInt32.toBitVec 8 % 32).toNat = 8 by decide,
    show (UInt32.toBitVec 16 % 32).toNat = 16 by decide,
    show (UInt32.toBitVec 24 % 32).toNat = 24 by decide, Nat.mul_zero, BitVec.ushiftRight_zero,
    BitVec.shiftLeft_zero]

theorem getUint16_put_append (v : UInt16) (rest : Bytes) : getUint16 (putUint16 v ++ rest) = v := by
  apply UInt16.eq_of_toBitVec_eq
  apply BitVec.eq_of_getLsbD_eq
  intro i hi
  simp only [putUint16, getUint16, List.cons_append, UInt16.toBitVec_or, UInt16.toBitVec_shiftLeft,
    UInt8.toBitVec_toUInt16, UInt16.toBitVec_toUInt8, UInt16.toBitVec_shiftRight,
    BitVec.shiftLeft_eq', BitVec.ushiftRight_eq', show (UInt16.toBitVec 8 % 16).toNat = 8 by decide,
    BitVec.getLsbD_or, BitVec.getLsbD_shiftLeft, BitVec.getLsbD_setWidth,
    BitVec.getLsbD_ushiftRight, hi, decide_true, Bool.true_and]
  by_cases hhalf : i < 8
  · simp [hhalf]
  · rw [Nat.add_sub_cancel' (Nat.not_lt.mp hhalf)]
    have hbyte : i - 8 < 16 ∧ i - 8 < 8 := by omega
    simp [hhalf, hbyte]

theorem getUint64_put_append (v : UInt64) (rest : Bytes) :
    getUint64 (putUint64 v ++ rest) = v := by
  have hlow : getUint32 (putUint64 v ++ rest) = v.toUInt32 := by
    unfold putUint64
    rw [List.append_assoc]
    exact getUint32_put_append _ _
  have hhigh : getUint32 ((putUint64 v ++ rest).drop 4) = (v >>> 32).toUInt32 :=
    getUint32_put_append _ rest
  unfold getUint64
  rw [hlow, hhigh]
  apply UInt64.eq_of_toBitVec_eq
  apply BitVec.eq_of_getLsbD_eq
  intro i hi
  simp only [UInt64.toBitVec_or, UInt64.toBitVec_shiftLeft, UInt32.toBitVec_toUInt64,
    UInt64.toBitVec_toUInt32, UInt64.toBitVec_shiftRight, BitVec.shiftLeft_eq',
    BitVec.ushiftRight_eq', show (UInt64.toBitVec 32 % 64).toNat = 32 by decide,
    BitVec.getLsbD_or, BitVec.getLsbD_shiftLeft, BitVec.getLsbD_setWidth,
    BitVec.getLsbD_ushiftRight, hi, decide_true, Bool.true_and]
  by_cases hhalf : i < 32
  · simp [hhalf]
  · rw [Nat.add_sub_cancel' (Nat.not_lt.mp hhalf)]
    have hword : i - 32 < 64 ∧ i - 32 < 32 := by omega
    simp [hhalf, hword]

theorem copyAt_append {a b c : Bytes} (h : c.length ≤ b.length) :
    copyAt (a ++ b) a.length c = a ++ c ++ b.drop c.length := by
  unfold copyAt
  rw [List.take_left, List.length_append, Nat.add_sub_cancel_left, List.take_of_length_le h,
    List.drop_append]
  simp

theorem copyAt_past {a b src : Bytes} {off : ℕ} (h : a.length ≤ off) :
    ∃ rest, copyAt (a ++ b) off src = a ++ rest := by
  refine ⟨b.take (off - a.length) ++ src.take ((a ++ b).length - off) ++
    (a ++ b).drop (off + src.length), ?_⟩
  unfold copyAt
  rw [List.take_append, List.take_of_length_le h]
  simp only [List.append_assoc]

end Briefs.Lib
