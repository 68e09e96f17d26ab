import Mathlib.Tactic

/-!
# Cyclic slots

`slot m base k` is the slot reached from `base` after `k` moves around a ring of
`m` slots.
-/

namespace Briefs.Lib

def slot (m base k : ℕ) : ℕ := (base + k) % m

variable {m base i k : ℕ}

theorem slot_lt (hm : 0 < m) : slot m base k < m := Nat.mod_lt _ hm

theorem slot_zero (hbase : base < m) : slot m base 0 = base := by
  simp [slot, Nat.mod_eq_of_lt hbase]

theorem slot_size (hbase : base < m) : slot m base m = base := by
  simp [slot, Nat.mod_eq_of_lt hbase]

theorem slot_succ (hm : 0 < m) :
    slot m base (k + 1) = if slot m base k + 1 = m then 0 else slot m base k + 1 := by
  have hlt : slot m base k < m := slot_lt hm
  unfold slot at *
  rw [← Nat.add_assoc, ← Nat.mod_add_mod]
  split_ifs with h
  · rw [h, Nat.mod_self]
  · exact Nat.mod_eq_of_lt (by omega)

/-- Two slots fewer than `m` moves apart differ. -/
theorem slot_inj (hik : i ≤ k) (hlt : k < i + m) : slot m base i = slot m base k ↔ i = k := by
  constructor
  · intro h
    have hmod : i ≡ k [MOD m] := Nat.ModEq.add_left_cancel' base h
    have hdvd : m ∣ k - i := (Nat.modEq_iff_dvd' hik).mp hmod
    have hzero : k - i = 0 := Nat.eq_zero_of_dvd_of_lt hdvd (by omega)
    omega
  · rintro rfl
    rfl

/-- Within one lap the start is met again at the beginning and at the end only. -/
theorem slot_eq_base (hbase : base < m) (hk : k ≤ m) :
    slot m base k = base ↔ k = 0 ∨ k = m := by
  constructor
  · intro h
    by_cases hkm : k = m
    · exact .inr hkm
    · left
      have h0 : slot m base 0 = slot m base k := by rw [slot_zero hbase, h]
      exact ((slot_inj (Nat.zero_le k) (by omega)).mp h0).symm
  · rintro (rfl | rfl)
    · exact slot_zero hbase
    · exact slot_size hbase

end Briefs.Lib
