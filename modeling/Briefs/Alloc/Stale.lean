import Briefs.Alloc.Exact

/-!
# Stale summaries

A pool as it may come from the device: the last level and the count are right, the
summaries have every bit they need and may have more. The scan of `tryAllocBlock` clears
the first stale bit it meets under a word of the first level and goes on with the next
word, so the other bits of the word are not looked at.
-/

namespace Briefs.Alloc

open Bitmap

namespace Pyramid

/-- The summaries miss no bit; some of their bits may be stale. -/
structure Covered (p : Pyramid) : Prop where
  bounded : p.blockCount < 2 ^ 64
  cover1 : ∀ w, p.word2 w ≠ 0 → bitAt p.l1 w = true
  cover0 : ∀ w, p.word1 w ≠ 0 → bitAt p.l0 w = true
  inside : ∀ rel, p.isFree rel = true → rel < p.blockCount
  count : p.freeCount = total p.l2

variable {p : Pyramid}

theorem stays_of_ends (h0 : ∀ w, bitAt p.l0 w = true → w < p.l1.length)
    (h1 : ∀ w, bitAt p.l1 w = true → w < p.l2.length)
    (hinside : ∀ rel, p.isFree rel = true → rel < p.blockCount) (w0 : ℕ) : p.Stays w0 where
  word1 hne := by
    obtain ⟨hlt, hbit⟩ := Word.exists_bit_of_ne_zero hne
    refine h0 _ ?_
    rw [firstWord1, bitAt_word _ hlt]
    exact hbit
  word2 _ hne := by
    obtain ⟨hlt, hbit⟩ := Word.exists_bit_of_ne_zero hne
    refine h1 _ ?_
    rw [firstWord2, bitAt_word _ hlt]
    exact hbit
  block hleads := hinside _ (isFree_firstBlock hleads)

theorem Leads.mem_range {w0 : ℕ} (h : p.Leads w0) : w0 ∈ List.range p.l0.length :=
  List.mem_range.mpr (lt_length_of_getD_ne_zero h.1)

end Pyramid

namespace Allocator

open Pyramid

variable {a : Allocator} {forMeta : Bool}

/-- Two words of blocks, one of them full, with the summary bits of both set. -/
def halfStale (first second : Word) : Pyramid :=
  { l0 := [1], l1 := [3], l2 := [first, second], blockCount := 128, freeCount := 1 }

theorem ends_halfStale (first second : Word) :
    (∀ w, bitAt (halfStale first second).l0 w = true → w < 1) ∧
      ∀ w, bitAt (halfStale first second).l1 w = true → w < 2 := by
  have h0 : ∀ w < 64, bitAt [1#64] w = true → w < 1 := by decide
  have h1 : ∀ w < 64, bitAt [3#64] w = true → w < 2 := by decide
  exact ⟨fun w hw => h0 w (lt_of_bitAt hw) hw, fun w hw => h1 w (lt_of_bitAt hw) hw⟩

theorem covered_halfStale {first second : Word} (h : ones first + ones second = 1) :
    (halfStale first second).Covered where
  bounded := by norm_num [halfStale]
  cover1 w hw := by
    have hlt : w < 2 := lt_length_of_getD_ne_zero hw
    have hbits : ∀ w < 2, bitAt [3#64] w = true := by decide
    exact hbits w hlt
  cover0 w hw := by
    have hlt : w < 1 := lt_length_of_getD_ne_zero hw
    have hbits : ∀ w < 1, bitAt [1#64] w = true := by decide
    exact hbits w hlt
  inside _ hrel := lt_of_bitAt hrel
  count := by
    rw [halfStale, total]
    simp [h]

end Allocator

end Briefs.Alloc
