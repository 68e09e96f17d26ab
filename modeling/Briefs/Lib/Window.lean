import Briefs.Lib.Packed

/-!
# Windows of a buffer

`window buf off len` are the bytes from `off` on. A copy that fits shows up in the windows it
meets and in no other. `slice` is the same with the bounds checked.
-/

namespace Briefs.Lib

variable {buf src : Bytes} {off len a b : ℕ}

def window (buf : Bytes) (off len : ℕ) : Bytes := (buf.drop off).take len

/-- The slice `buf[lo:hi]`; nothing if it is out of range. -/
def slice (buf : Bytes) (lo hi : ℤ) : Option Bytes :=
  if 0 ≤ lo ∧ lo ≤ hi ∧ hi ≤ buf.length then some (window buf lo.toNat (hi - lo).toNat) else none

theorem slice_eq (h : off + len ≤ buf.length) :
    slice buf off ((off : ℤ) + len) = some (window buf off len) := by
  rw [slice, if_pos (by omega)]
  simp

theorem getElem?_window (buf : Bytes) (off len k : ℕ) :
    (window buf off len)[k]? = if k < len then buf[off + k]? else none := by
  rw [window, List.getElem?_take, List.getElem?_drop]

theorem length_window (h : off + len ≤ buf.length) : (window buf off len).length = len := by
  rw [window, List.length_take, List.length_drop]
  omega

theorem window_congr {buf' : Bytes} (h : ∀ k, off ≤ k → k < off + len → buf'[k]? = buf[k]?) :
    window buf' off len = window buf off len := by
  apply List.ext_getElem?
  intro k
  rw [getElem?_window, getElem?_window]
  split_ifs with hk
  · exact h (off + k) (by omega) (by omega)
  · rfl

theorem window_window (h : a + b ≤ len) :
    window (window buf off len) a b = window buf (off + a) b := by
  apply List.ext_getElem?
  intro k
  simp only [getElem?_window]
  by_cases hk : k < b
  · rw [if_pos hk, if_pos hk, if_pos (by omega), Nat.add_assoc]
  · rw [if_neg hk, if_neg hk]

theorem window_add : window buf off (a + b) = window buf off a ++ window buf (off + a) b := by
  rw [window, window, window, List.take_add, List.drop_drop]

theorem getElem?_copyAt (h : off + src.length ≤ buf.length) (k : ℕ) :
    (copyAt buf off src)[k]? = if off ≤ k ∧ k < off + src.length then src[k - off]? else buf[k]? := by
  have htake : (buf.take off).length = off := by rw [List.length_take]; omega
  rw [copyAt, List.take_of_length_le (by omega : src.length ≤ buf.length - off), List.append_assoc]
  by_cases hlow : k < off
  · rw [List.getElem?_append_left (by omega), List.getElem?_take_of_lt hlow, if_neg (by omega)]
  · rw [List.getElem?_append_right (by omega), htake]
    by_cases hhigh : k < off + src.length
    · rw [List.getElem?_append_left (by omega), if_pos (by omega)]
    · rw [List.getElem?_append_right (by omega), List.getElem?_drop, if_neg (by omega)]
      congr 1
      omega

theorem length_copyAt_of_le (h : off ≤ buf.length) : (copyAt buf off src).length = buf.length := by
  simp only [copyAt, List.length_append, List.length_take, List.length_drop]
  omega

theorem window_copyAt_self (buf src : Bytes) (off : ℕ) (h : off + src.length ≤ buf.length) :
    window (copyAt buf off src) off src.length = src := by
  apply List.ext_getElem?
  intro k
  rw [getElem?_window]
  split_ifs with hk
  · rw [getElem?_copyAt h, if_pos (by omega), Nat.add_sub_cancel_left]
  · exact (List.getElem?_eq_none (by omega)).symm

/-- A copy leaves the windows it does not meet. -/
theorem window_copyAt_of_disjoint (h : off + src.length ≤ buf.length)
    (hapart : a + b ≤ off ∨ off + src.length ≤ a) :
    window (copyAt buf off src) a b = window buf a b :=
  window_congr fun k _ _ => by rw [getElem?_copyAt h, if_neg (by omega)]

end Briefs.Lib
