import Briefs.Lib.Crc
import Briefs.Replay.Apply

/-!
# Checksums

`briefs/crc32c.go`: the checksum of journal records and of the blocks of extent and xattr
chains. The table is built with shifts towards the low end, for which the bits of the
polynomial have to stand in reverse; the constant has them in the other order. The register
then loses up to three bits, and seven patterns of 32 bits leave no trace in it.
-/

namespace Briefs.Checksum

open Lib Journal Replay

section Sums

/-- `ComputeChainChecksum`. -/
def computeChainChecksum (buf : Bytes) (blockSize : ℕ) : UInt64 :=
  if buf.length < blockSize ∨ blockSize < extentChainChecksumOffset then 0
  else (crc32c 0 (buf.take extentChainChecksumOffset)).toUInt64

/-- The bytes the checksum of a journal record covers. -/
def recordBytes (recordType flags : UInt32) (data : Bytes) : Bytes :=
  putUint32 recordType ++ putUint32 flags ++ putUint32 (UInt32.ofNat data.length) ++ data

end Sums

section Bits

/-- The bits of a buffer, the low bit of each byte first. -/
def bitAt (data : Bytes) (i : ℕ) : Bool := (data.getD (i / 8) 0).toBitVec.getLsbD (i % 8)

def bits (data : Bytes) : List Bool := (List.range (8 * data.length)).map (bitAt data)

def byteBits (b : UInt8) : List Bool := (List.range 8).map b.toBitVec.getLsbD

theorem bits_cons (b : UInt8) (data : Bytes) : bits (b :: data) = byteBits b ++ bits data := by
  have hfirst : (List.range 8).map (bitAt (b :: data)) = byteBits b := rfl
  have hrest : (List.range (8 * data.length)).map (bitAt (b :: data) ∘ (8 + ·)) = bits data := by
    refine List.map_congr_left fun i _ => ?_
    have hdiv : (8 + i) / 8 = i / 8 + 1 := by omega
    have hmod : (8 + i) % 8 = i % 8 := by omega
    simp [bitAt, hdiv, hmod]
  rw [bits, List.length_cons, Nat.mul_succ, Nat.add_comm, List.range_add, List.map_append,
    List.map_map, hfirst, hrest]

theorem bits_append (xs ys : Bytes) : bits (xs ++ ys) = bits xs ++ bits ys := by
  induction xs with
  | nil => rfl
  | cons b xs ih => rw [List.cons_append, bits_cons, bits_cons, ih, List.append_assoc]

theorem bitAt_of_le {data : Bytes} {i : ℕ} (h : 8 * data.length ≤ i) : bitAt data i = false := by
  have hlen : data.length ≤ i / 8 := by omega
  simp [bitAt, List.getElem?_eq_none hlen]

end Bits

section Register

def polynomial : BitVec 32 := crc32cPolynomial.toBitVec

theorem toBitVec_crc32cTable (i : UInt32) :
    (crc32cTable i).toBitVec = (Crc.shift polynomial)^[8] i.toBitVec := by
  refine Function.Semiconj.iterate_right (f := UInt32.toBitVec) (fun crc => ?_) 8 i
  have hand : (crc &&& 1).toBitVec =
      BitVec.setWidth 32 (BitVec.ofBool (crc.toBitVec.getLsbD 0)) := by
    rw [UInt32.toBitVec_and]
    exact BitVec.and_one_eq_setWidth_ofBool_getLsbD
  have hlow : (crc &&& 1 != 0) = crc.toBitVec.getLsbD 0 := by
    cases hbit : crc.toBitVec.getLsbD 0 <;> rw [hbit] at hand
    · have hzero : crc &&& 1 = 0 := UInt32.eq_of_toBitVec_eq hand
      simp [hzero]
    · have hone : crc &&& 1 = 1 := UInt32.eq_of_toBitVec_eq hand
      simp [hone]
  rw [hlow, Crc.shift]
  split_ifs <;> rfl

theorem getLsbD_mask (i : ℕ) : (0xFF#32).getLsbD i = decide (i < 8) := by
  by_cases hi : i < 32
  · interval_cases i <;> rfl
  · rw [BitVec.getLsbD_of_ge _ _ (by omega), decide_eq_false (by omega)]

theorem toBitVec_step (crc : UInt32) (b : UInt8) :
    ((crc >>> 8) ^^^ crc32cTable ((crc ^^^ b.toUInt32) &&& 0xFF)).toBitVec =
      Crc.feed polynomial crc.toBitVec (byteBits b) := by
  set x : BitVec 32 := b.toBitVec.setWidth 32 with hx
  have hbits : byteBits b = (List.range 8).map x.getLsbD := by
    refine List.map_congr_left fun i hi => ?_
    have := List.mem_range.mp hi
    simp [hx]
    omega
  have hhigh : ∀ i, 8 ≤ i → x.getLsbD i = false := by
    intro i hi
    simp [hx, BitVec.getLsbD_of_ge _ _ hi]
  have hshift : ((crc.toBitVec ^^^ x ^^^ ((crc.toBitVec ^^^ x) &&& 0xFF#32)) >>> 8) =
      crc.toBitVec >>> 8 := by
    refine BitVec.eq_of_getLsbD_eq fun i _ => ?_
    have hmask : (0xFF#32).getLsbD (8 + i) = false := by
      rw [getLsbD_mask]
      simp
    simp only [BitVec.getLsbD_ushiftRight, BitVec.getLsbD_xor, BitVec.getLsbD_and, hmask,
      hhigh (8 + i) (Nat.le_add_right 8 i), Bool.and_false, Bool.xor_false]
  rw [hbits, Crc.feed_word _ _ _ _ hhigh, Crc.iterate_shift_eq polynomial 8
    (x := (crc.toBitVec ^^^ x) &&& 0xFF#32) (y := crc.toBitVec ^^^ x) (fun i hi => ?_), hshift]
  · rw [UInt32.toBitVec_xor, toBitVec_crc32cTable]
    rfl
  · rw [BitVec.getLsbD_and, getLsbD_mask, decide_eq_true hi, Bool.and_true]

theorem toBitVec_crc32c (crc : UInt32) (data : Bytes) :
    (crc32c crc data).toBitVec = ~~~ Crc.feed polynomial (~~~ crc.toBitVec) (bits data) := by
  have hfold : ∀ crc : UInt32, (data.foldl (fun (crc : UInt32) (b : UInt8) => (crc >>> 8) ^^^
      crc32cTable ((crc ^^^ b.toUInt32) &&& 0xFF)) crc).toBitVec =
        Crc.feed polynomial crc.toBitVec (bits data) := by
    induction data with
    | nil => intro crc; rfl
    | cons b data ih =>
      intro crc
      rw [List.foldl_cons, ih, toBitVec_step, bits_cons, Crc.feed_append]
  unfold crc32c
  cases data with
  | nil => simp [bits, Crc.feed]
  | cons b data =>
    rw [if_neg (by simp), UInt32.toBitVec_not, hfold, UInt32.toBitVec_not]

end Register

section Errors

variable {e : BitVec 32}

/-- `data'` is `data` with the error `e` in the 32 bits from `pos` on. -/
structure Burst (data data' : Bytes) (pos : ℕ) (e : BitVec 32) : Prop where
  length : data'.length = data.length
  bits : ∀ i, bitAt data' i = (bitAt data i ^^ (decide (pos ≤ i) && e.getLsbD (i - pos)))

variable {data data' : Bytes} {pos : ℕ} {e : BitVec 32}

theorem Burst.inside (h : Burst data data' pos e) (i : ℕ) (hi : 8 * data.length ≤ pos + i) :
    e.getLsbD i = false := by
  have hlen := h.length
  have hbit := h.bits (pos + i)
  rw [bitAt_of_le hi, bitAt_of_le (hlen ▸ hi)] at hbit
  simpa using hbit.symm

theorem Burst.start_le (h : Burst data data' pos e) (he : e ≠ 0) : pos ≤ 8 * data.length := by
  by_contra hpos
  refine he (BitVec.eq_of_getLsbD_eq fun i _ => ?_)
  rw [h.inside i (by omega)]
  simp

theorem Burst.bits_eq (h : Burst data data' pos e) {n : ℕ} (hn : 8 * data.length = pos + n) :
    Checksum.bits data' = List.zipWith (· ^^ ·) (Checksum.bits data)
      (List.replicate pos false ++ (List.range n).map e.getLsbD) := by
  refine List.ext_getElem (by simp [Checksum.bits, h.length, hn]) fun i hi hi' => ?_
  simp only [Checksum.bits, List.getElem_map, List.getElem_range, List.getElem_zipWith, h.bits i]
  congr 1
  by_cases hpos : pos ≤ i
  · rw [List.getElem_append_right (by simpa using hpos)]
    simp [hpos]
  · rw [List.getElem_append_left (by simpa using hpos)]
    simp [hpos]

/-- An error is seen unless it leaves the register empty. -/
theorem Burst.crc32c_eq_iff (h : Burst data data' pos e) (crc : UInt32) {n : ℕ}
    (hn : 8 * data.length = pos + n) :
    crc32c crc data' = crc32c crc data ↔ (Crc.shift polynomial)^[n] e = 0#32 := by
  have hlength : (Checksum.bits data).length = pos + n := by simp [Checksum.bits, hn]
  have hfeed := Crc.feed_error polynomial (~~~ crc.toBitVec) e hlength fun i hi =>
    h.inside i (by omega)
  have hiff := BitVec.xor_right_inj (x := (Crc.shift polynomial)^[n] e) (y := 0#32)
    (Crc.feed polynomial (~~~ crc.toBitVec) (Checksum.bits data))
  rw [BitVec.xor_zero] at hiff
  rw [← UInt32.toBitVec_inj, toBitVec_crc32c, toBitVec_crc32c, h.bits_eq hn, hfeed,
    BitVec.not_inj, hiff]

/-- The errors that leave no trace: the sums of `0x3DB8DE83`, which is the constant with a
bit below it, and of its shifts by one and by two places. -/
def untraced : List (BitVec 32) :=
  [0x3DB8DE83, 0x7B71BD06, 0x46C96385, 0xF6E37A0C, 0xCB5BA48F, 0x8D92C70A, 0xB02A1989]

theorem shift_three_eq_zero :
    (Crc.shift polynomial)^[3] e = 0#32 ↔ e = 0#32 ∨ e ∈ untraced := by
  constructor
  · intro h
    rcases Crc.eq_of_shift polynomial h with h | h <;>
      rcases Crc.eq_of_shift polynomial h with h | h <;>
      rcases Crc.eq_of_shift polynomial h with rfl | rfl <;> decide
  · intro h
    have hall : ((0#32 :: untraced).all fun e => (Crc.shift polynomial)^[3] e == 0#32) = true := by
      decide
    exact beq_iff_eq.mp (List.all_eq_true.mp hall e (List.mem_cons.mpr h))

theorem getLsbD_polynomial (i : ℕ) (hi : 32 - 3 ≤ i) : polynomial.getLsbD i = false := by
  by_cases hlt : i < 32
  · interval_cases i <;> decide
  · exact BitVec.getLsbD_of_ge _ _ (by omega)

theorem exists_high_bit (h : e ∈ untraced) :
    ∃ i, 3 ≤ i ∧ e.getLsbD i = true := by
  have hall : (untraced.all fun e => (List.range' 29 3).any e.getLsbD) = true := by
    decide
  obtain ⟨i, hi, hbit⟩ := List.any_eq_true.mp (List.all_eq_true.mp hall e h)
  have := List.mem_range'_1.mp hi
  exact ⟨i, by omega, hbit⟩

/-- After three shifts the register is empty or never will be: the one word it could lose has
bit 29 set. -/
theorem shift_eq_zero_iff {n : ℕ} (he : ∀ i, n ≤ i → e.getLsbD i = false) :
    (Crc.shift polynomial)^[n] e = 0#32 ↔ e = 0#32 ∨ e ∈ untraced := by
  constructor
  · intro h
    refine shift_three_eq_zero.mp (Crc.iterate_shift_eq_zero polynomial (fun y hy => ?_) h)
    rcases Crc.eq_of_shift polynomial hy with hy | hy
    · simpa using hy
    · have hclear := Crc.getLsbD_iterate_shift polynomial 3 getLsbD_polynomial y 29 (by decide)
      rw [hy] at hclear
      exact absurd hclear (by decide)
  · rintro (rfl | hmem)
    · exact Crc.iterate_shift_zero polynomial n
    · obtain ⟨i, hi, hbit⟩ := exists_high_bit hmem
      have hn : 3 ≤ n := by
        by_contra hn
        rw [he i (by omega)] at hbit
        cases hbit
      obtain ⟨m, rfl⟩ := Nat.exists_eq_add_of_le' hn
      rw [Function.iterate_add_apply, shift_three_eq_zero.mpr (.inr hmem),
        Crc.iterate_shift_zero]

theorem Burst.crc32c_ne_iff (h : Burst data data' pos e) (he : e ≠ 0) (crc : UInt32) :
    crc32c crc data' ≠ crc32c crc data ↔ e ∉ untraced := by
  obtain ⟨n, hn⟩ := Nat.exists_eq_add_of_le (h.start_le he)
  rw [ne_eq, h.crc32c_eq_iff crc hn, shift_eq_zero_iff fun i hi => h.inside i (by omega),
    or_iff_right (show ¬ e = 0#32 from he)]

theorem crc32c_append (crc : UInt32) (xs ys : Bytes) :
    crc32c crc (xs ++ ys) = crc32c (crc32c crc xs) ys := by
  refine UInt32.eq_of_toBitVec_eq ?_
  rw [toBitVec_crc32c, toBitVec_crc32c, toBitVec_crc32c, BitVec.not_not, bits_append,
    Crc.feed_append]

theorem computeJournalRecordChecksum_eq (recordType flags : UInt32) (data : Bytes) :
    computeJournalRecordChecksum recordType flags data =
      crc32c 0 (recordBytes recordType flags data) := by
  rw [recordBytes, crc32c_append, crc32c_append, crc32c_append, computeJournalRecordChecksum]

/-- Of the errors in 32 consecutive bits every one is seen but seven: by the CRC from any
start, by the checksum of a journal record, and by the checksum of a chain block. -/
theorem checksums_detect_bursts (he : e ≠ 0) (pos : ℕ) :
    (∀ data data', Burst data data' pos e → ∀ crc,
      (crc32c crc data' ≠ crc32c crc data ↔ e ∉ untraced)) ∧
    (∀ recordType flags data recordType' flags' data',
      Burst (recordBytes recordType flags data) (recordBytes recordType' flags' data') pos e →
      (computeJournalRecordChecksum recordType' flags' data' ≠
        computeJournalRecordChecksum recordType flags data ↔ e ∉ untraced)) ∧
    ∀ buf buf' blockSize, buf'.length = buf.length → blockSize ≤ buf.length →
      extentChainChecksumOffset ≤ blockSize →
      Burst (buf.take extentChainChecksumOffset) (buf'.take extentChainChecksumOffset) pos e →
      (computeChainChecksum buf' blockSize ≠ computeChainChecksum buf blockSize ↔
        e ∉ untraced) := by
  refine ⟨fun data data' h crc => h.crc32c_ne_iff he crc, ?_, ?_⟩
  · intro recordType flags data recordType' flags' data' h
    rw [computeJournalRecordChecksum_eq, computeJournalRecordChecksum_eq]
    exact h.crc32c_ne_iff he 0
  · intro buf buf' blockSize hlen hsize hoff h
    have hbuf : ¬ (buf.length < blockSize ∨ blockSize < extentChainChecksumOffset) := by omega
    have hbuf' : ¬ (buf'.length < blockSize ∨ blockSize < extentChainChecksumOffset) := by omega
    rw [computeChainChecksum, computeChainChecksum, if_neg hbuf, if_neg hbuf', ne_eq,
      UInt32.toUInt64_inj]
    exact h.crc32c_ne_iff he 0

theorem burst_of_check (hlen : data'.length = data.length) (hfit : pos + 32 ≤ 8 * data.length)
    (h : ∀ i < 8 * data.length,
      bitAt data' i = (bitAt data i ^^ (decide (pos ≤ i) && e.getLsbD (i - pos)))) :
    Burst data data' pos e := by
  refine ⟨hlen, fun i => ?_⟩
  by_cases hi : i < 8 * data.length
  · exact h i hi
  · rw [bitAt_of_le (by omega), bitAt_of_le (by omega), BitVec.getLsbD_of_ge _ _ (by omega)]
    simp

/-- A payload of four zero bytes and one that is not have the same checksum. -/
theorem record_checksum_misses_burst :
    ∃ recordType flags data data' pos e,
      Burst (recordBytes recordType flags data) (recordBytes recordType flags data') pos e ∧
      e ≠ 0 ∧ computeJournalRecordChecksum recordType flags data' =
        computeJournalRecordChecksum recordType flags data :=
  ⟨1, 0, [0, 0, 0, 0], [0x83, 0xDE, 0xB8, 0x3D], 96, 0x3DB8DE83,
    burst_of_check rfl (by decide) (by decide +kernel), by decide, by decide +kernel⟩

/-- One bit of a payload. -/
theorem record_checksum_detects_bit :
    computeJournalRecordChecksum 1 0 [1, 0, 0, 0] ≠ computeJournalRecordChecksum 1 0 [0, 0, 0, 0] :=
  ((checksums_detect_bursts (e := 1) (by decide) 96).2.1 1 0 [0, 0, 0, 0] 1 0 [1, 0, 0, 0]
    (burst_of_check rfl (by decide) (by decide))).mpr (by decide)

end Errors

end Briefs.Checksum
