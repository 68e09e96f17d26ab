import Mathlib.Tactic

/-!
# Cyclic redundancy checks

The register is shifted towards its low end, and takes up the message bit by bit. A shift is
linear in exclusive or, so what an error does to the register does not depend on the message:
it is what the error alone would leave in an empty register.
-/

namespace Briefs.Lib.Crc

variable {w : ℕ} (poly : BitVec w)

section Shift

/-- One shift of the register. -/
def shift (c : BitVec w) : BitVec w :=
  if c.getLsbD 0 then (c >>> 1) ^^^ poly else c >>> 1

theorem shift_xor (a b : BitVec w) : shift poly (a ^^^ b) = shift poly a ^^^ shift poly b := by
  have hcancel : ∀ x y : BitVec w, x ^^^ poly ^^^ (y ^^^ poly) = x ^^^ y := by
    intro x y
    rw [BitVec.xor_assoc x, ← BitVec.xor_assoc poly y, BitVec.xor_comm poly y,
      BitVec.xor_assoc y, BitVec.xor_self, BitVec.xor_zero]
  unfold shift
  simp only [BitVec.getLsbD_xor, BitVec.ushiftRight_xor_distrib]
  cases a.getLsbD 0 <;> cases b.getLsbD 0
  · simp
  · simp [BitVec.xor_assoc]
  · simp only [Bool.xor_false, if_true, Bool.false_eq_true, if_false]
    ac_rfl
  · simp [hcancel]

@[simp] theorem shift_zero : shift poly 0#w = 0#w := by
  simp [shift]

theorem iterate_shift_xor (n : ℕ) (a b : BitVec w) :
    (shift poly)^[n] (a ^^^ b) = (shift poly)^[n] a ^^^ (shift poly)^[n] b := by
  induction n generalizing a b with
  | zero => rfl
  | succ n ih => rw [Function.iterate_succ_apply, shift_xor, ih]; rfl

@[simp] theorem iterate_shift_zero (n : ℕ) : (shift poly)^[n] 0#w = 0#w :=
  Function.iterate_fixed (shift_zero poly) n

/-- Bits that are clear leave the register by the plain shift. -/
theorem iterate_shift_of_clear (n : ℕ) (y : BitVec w) (h : ∀ i < n, y.getLsbD i = false) :
    (shift poly)^[n] y = y >>> n := by
  induction n with
  | zero => simp
  | succ n ih =>
    have hlow : (y >>> n).getLsbD 0 = false := by simpa using h n (Nat.lt_succ_self n)
    rw [Function.iterate_succ_apply', ih fun i hi => h i (Nat.lt_succ_of_lt hi), shift,
      if_neg (by simp [hlow]), BitVec.shiftRight_add]

/-- Shifts by table: the low bits are looked up and the others moved down. -/
theorem iterate_shift_eq (n : ℕ) {x y : BitVec w} (h : ∀ i < n, x.getLsbD i = y.getLsbD i) :
    (shift poly)^[n] y = ((y ^^^ x) >>> n) ^^^ (shift poly)^[n] x := by
  have hsplit : y = y ^^^ x ^^^ x := by rw [BitVec.xor_assoc, BitVec.xor_self, BitVec.xor_zero]
  have hclear : ∀ i < n, (y ^^^ x).getLsbD i = false := by
    intro i hi
    rw [BitVec.getLsbD_xor, h i hi, Bool.xor_self]
  conv_lhs => rw [hsplit, iterate_shift_xor, iterate_shift_of_clear poly n _ hclear]

end Shift

section Feed

/-- A bit at the low end of a register. -/
def low (b : Bool) : BitVec w := (BitVec.ofBool b).setWidth w

@[simp] theorem low_false : (low false : BitVec w) = 0#w := by
  simp [low]

theorem low_xor (a b : Bool) : (low (a ^^ b) : BitVec w) = low a ^^^ low b := by
  cases a <;> cases b <;> simp

/-- The register after the bits of a message. -/
def feed (c : BitVec w) (bits : List Bool) : BitVec w :=
  bits.foldl (fun c b => shift poly (c ^^^ low b)) c

theorem feed_append (c : BitVec w) (xs ys : List Bool) :
    feed poly c (xs ++ ys) = feed poly (feed poly c xs) ys :=
  List.foldl_append

theorem feed_zipWith_xor (c e : BitVec w) {xs ys : List Bool} (h : xs.length = ys.length) :
    feed poly (c ^^^ e) (List.zipWith (· ^^ ·) xs ys) = feed poly c xs ^^^ feed poly e ys := by
  induction xs generalizing c e ys with
  | nil =>
    obtain rfl := List.eq_nil_of_length_eq_zero h.symm
    rfl
  | cons x xs ih =>
    obtain ⟨y, ys, rfl⟩ := List.exists_cons_of_length_eq_add_one h.symm
    have hmix : c ^^^ e ^^^ low (x ^^ y) = (c ^^^ low x) ^^^ (e ^^^ low y) := by
      rw [low_xor]
      ac_rfl
    have hrest := ih (shift poly (c ^^^ low x)) (shift poly (e ^^^ low y)) (Nat.succ.inj h)
    rw [← shift_xor, ← hmix] at hrest
    exact hrest

theorem feed_replicate_false (n : ℕ) : feed poly 0#w (List.replicate n false) = 0#w := by
  induction n with
  | zero => rfl
  | succ n ih => simpa [feed, List.replicate_succ] using ih

theorem shift_xor_low (c x : BitVec w) :
    shift poly (c ^^^ x) = shift poly (c ^^^ low (x.getLsbD 0)) ^^^ (x >>> 1) := by
  have hsplit : c ^^^ x = (c ^^^ low (x.getLsbD 0)) ^^^ (low (x.getLsbD 0) ^^^ x) := by
    rw [BitVec.xor_assoc c, ← BitVec.xor_assoc (low _) (low _), BitVec.xor_self, BitVec.zero_xor]
  have hlow : shift poly (low (x.getLsbD 0) ^^^ x) = x >>> 1 := by
    rw [shift, if_neg]
    · rw [BitVec.ushiftRight_xor_distrib]
      ext i hi
      simp [low]
    · cases w with
      | zero => simp
      | succ w => simp [low]
  rw [hsplit, shift_xor, hlow]

/-- The bits of a word can be added to the register all at once. -/
theorem feed_word (n : ℕ) (c x : BitVec w) (h : ∀ i, n ≤ i → x.getLsbD i = false) :
    feed poly c ((List.range n).map x.getLsbD) = (shift poly)^[n] (c ^^^ x) := by
  induction n generalizing c x with
  | zero =>
    have hx : x = 0#w := BitVec.eq_of_getLsbD_eq fun i _ => by simpa using h i (Nat.zero_le i)
    simp [feed, hx]
  | succ n ih =>
    have hnext := ih (shift poly (c ^^^ low (x.getLsbD 0))) (x >>> 1) fun i hi => by
      simpa [Nat.add_comm] using h (i + 1) (Nat.succ_le_succ hi)
    rw [List.range_succ_eq_map, List.map_cons, List.map_map, Function.iterate_succ_apply,
      shift_xor_low, ← hnext]
    have hbits : (x >>> 1).getLsbD = x.getLsbD ∘ Nat.succ := by
      funext i
      simp [Nat.add_comm]
    rw [hbits]
    rfl

/-- What an error `e` that begins `n` bits before the end of the message does. -/
theorem feed_error (c e : BitVec w) {xs : List Bool} {pos n : ℕ} (hlen : xs.length = pos + n)
    (he : ∀ i, n ≤ i → e.getLsbD i = false) :
    feed poly c (List.zipWith (· ^^ ·) xs
      (List.replicate pos false ++ (List.range n).map e.getLsbD)) =
        feed poly c xs ^^^ (shift poly)^[n] e := by
  have herror : feed poly 0#w (List.replicate pos false ++ (List.range n).map e.getLsbD) =
      (shift poly)^[n] e := by
    rw [feed_append, feed_replicate_false, feed_word poly n _ _ he, BitVec.zero_xor]
  rw [← herror, ← feed_zipWith_xor poly c 0#w (by simp [hlen]), BitVec.xor_zero]

end Feed

section Kernel

/-- The two registers a shift can have come from. -/
theorem eq_of_shift {y t : BitVec w} (h : shift poly y = t) :
    y = t <<< 1 ∨ y = ((t ^^^ poly) <<< 1) ^^^ low true := by
  have hsplit : y = ((y >>> 1) <<< 1) ^^^ low (y.getLsbD 0) := by
    ext i hi
    cases i with
    | zero => simp [low, BitVec.getLsbD_eq_getElem hi]
    | succ i => simp [low, Nat.add_comm, BitVec.getLsbD_eq_getElem hi]
  unfold shift at h
  split_ifs at h with hlow
  · right
    rw [← h, BitVec.xor_assoc, BitVec.xor_self, BitVec.xor_zero, ← hlow]
    exact hsplit
  · left
    rw [hsplit, h]
    simp [hlow]

/-- The high bits after `k` shifts are clear if those of the polynomial are. -/
theorem getLsbD_iterate_shift (k : ℕ) (hpoly : ∀ i, w - k ≤ i → poly.getLsbD i = false)
    (y : BitVec w) (i : ℕ) (hi : w - k ≤ i) : ((shift poly)^[k] y).getLsbD i = false := by
  induction k generalizing i with
  | zero => exact BitVec.getLsbD_of_ge _ _ hi
  | succ k ih =>
    have hbefore := ih (fun j hj => hpoly j (by omega)) (1 + i) (by omega)
    rw [Function.iterate_succ_apply', shift]
    split_ifs <;> simp [hbefore, hpoly i hi]

/-- If nothing more vanishes after `k` shifts, whatever vanishes has done so by then. -/
theorem iterate_shift_eq_zero {k : ℕ}
    (hstable : ∀ y, shift poly ((shift poly)^[k] y) = 0#w → (shift poly)^[k] y = 0#w)
    {n : ℕ} {x : BitVec w} (h : (shift poly)^[n] x = 0#w) : (shift poly)^[k] x = 0#w := by
  rcases Nat.le_total n k with hn | hn
  · obtain ⟨m, rfl⟩ := Nat.exists_eq_add_of_le' hn
    rw [Function.iterate_add_apply, h, iterate_shift_zero]
  · obtain ⟨m, rfl⟩ := Nat.exists_eq_add_of_le hn
    clear hn
    induction m with
    | zero => exact h
    | succ m ih =>
      refine ih ?_
      rw [Function.iterate_add_apply]
      refine hstable _ ?_
      rw [← Function.iterate_add_apply, ← Function.iterate_succ_apply' (shift poly)]
      exact h

end Kernel

end Briefs.Lib.Crc
