import Briefs.Alloc.Pool

/-!
# What an allocation of runs takes

`AllocBlocks` and `AllocRunsUpTo` in terms of the free blocks: what they hand out was free
and is no longer, and no block becomes free. The summaries of the pyramid do not matter.
-/

namespace Briefs.Alloc

open Bitmap

namespace Allocator

open Pyramid

variable (a : Allocator)

theorem isFree_eq (rel : ℕ) : a.isFree rel = bitAt a.bitmap.l2 rel := rfl

theorem isFree_reserveBlockZero (rel : ℕ) :
    a.reserveBlockZero.isFree rel = (a.isFree rel && !decide (rel = 0)) := by
  unfold reserveBlockZero
  split_ifs with hzero
  · generalize (a.bitmap.freeCount + 2 ^ 64 - 1) % 2 ^ 64 = count
    have hl2 := (emptied_fields ({ a.bitmap.clear2 0 0 with freeCount := count } : Pyramid) 0).1
    exact (congrArg (bitAt · rel) hl2).trans (bitAt_clear2 a.bitmap 0 rel)
  · by_cases hrel : rel = 0
    · subst hrel
      have hbit : a.isFree 0 = false := Bool.not_eq_true _ ▸ hzero
      rw [hbit, Bool.false_and]
    · rw [decide_eq_false hrel, Bool.not_false, Bool.and_true]

theorem metaShield_reserveBlockZero : a.reserveBlockZero.metaShield = a.metaShield := by
  unfold reserveBlockZero
  split_ifs <;> rfl

theorem metaShield_foldl_mendWord (ws : List ℕ) :
    (ws.foldl mendWord a).metaShield = a.metaShield ∧
      (ws.foldl mendWord a).bitmap.l2 = a.bitmap.l2 := by
  induction ws generalizing a with
  | nil => exact ⟨rfl, rfl⟩
  | cons w ws ih =>
    obtain ⟨hshield, hl2⟩ := ih (a.mendWord w)
    exact ⟨hshield, hl2.trans (emptied_fields a.bitmap w).1⟩

/-- The bits of a run are cleared, whatever becomes of the counts and the summaries. -/
theorem isFree_clearRun (first n count : ℕ) :
    ((runWords first n).foldl mendWord { a with
      bitmap := { (List.range n).foldl
        (fun p i => p.clear2 ((first + i) / 64) ((first + i) % 64)) a.bitmap with
          freeCount := count }
      dirty := true }).metaShield = a.metaShield ∧
    ∀ rel, ((runWords first n).foldl mendWord { a with
      bitmap := { (List.range n).foldl
        (fun p i => p.clear2 ((first + i) / 64) ((first + i) % 64)) a.bitmap with
          freeCount := count }
      dirty := true }).isFree rel =
        (a.isFree rel && !decide (first ≤ rel ∧ rel < first + n)) := by
  have htook := took_clearRun a.bitmap first n
  generalize (List.range n).foldl
    (fun p i => p.clear2 ((first + i) / 64) ((first + i) % 64)) a.bitmap = p at htook ⊢
  obtain ⟨hshield, hl2⟩ := metaShield_foldl_mendWord
    { a with bitmap := { p with freeCount := count }, dirty := true } (runWords first n)
  refine ⟨hshield, fun rel => ?_⟩
  rw [isFree_eq, hl2]
  exact htook.bits rel

/-- A run that is handed out was free and is taken now. -/
theorem allocBlocks_spec (n : ℕ) :
    (∀ rel, (a.allocBlocks n).2.isFree rel = true → a.isFree rel = true) ∧
      (a.allocBlocks n).2.metaShield = a.metaShield ∧
      ((a.allocBlocks n).1 ≠ 0 → 0 < n ∧ ∀ rel, (a.allocBlocks n).1 ≤ rel →
        rel < (a.allocBlocks n).1 + n →
        a.isFree rel = true ∧ (a.allocBlocks n).2.isFree rel = false) := by
  have hzero : ∀ rel, a.reserveBlockZero.isFree rel = true → a.isFree rel = true := by
    intro rel hrel
    rw [isFree_reserveBlockZero, Bool.and_eq_true] at hrel
    exact hrel.1
  have hshield := a.metaShield_reserveBlockZero
  unfold allocBlocks tryAllocBlocks
  split_ifs with hn hguard
  · exact ⟨fun _ => id, rfl, fun h => absurd rfl h⟩
  · exact ⟨fun _ => id, rfl, fun h => absurd rfl h⟩
  dsimp only
  generalize a.reserveBlockZero = b at hzero hshield ⊢
  split_ifs with hfound
  · exact ⟨hzero, hshield, fun h => absurd rfl h⟩
  have hfree := free_of_firstFit b.bitmap n (Nat.pos_of_ne_zero hn) (Nat.not_lt.mp hfound)
  generalize (b.bitmap.scanMaximalRuns (firstFit n) n (0, 0)).1 = first at hfree ⊢
  generalize (_ + 2 ^ 64 - n) % 2 ^ 64 = count
  obtain ⟨hshield', hbits⟩ := b.isFree_clearRun first n count
  refine ⟨fun rel hrel => ?_, hshield'.trans hshield, fun _ => ⟨Nat.pos_of_ne_zero hn, ?_⟩⟩
  · rw [hbits, Bool.and_eq_true] at hrel
    exact hzero rel hrel.1
  · intro rel hlow hhigh
    refine ⟨hzero rel (hfree rel hlow hhigh), ?_⟩
    rw [hbits, decide_eq_true ⟨hlow, hhigh⟩, Bool.not_true, Bool.and_false]

theorem isFree_takeRuns (runs : List (ℕ × ℕ)) (hruns : ∀ r ∈ runs, 0 < r.2) (rel : ℕ) :
    (runs.foldl takeRun a).isFree rel = true ↔
      a.isFree rel = true ∧ ∀ r ∈ runs, ¬(r.1 ≤ rel ∧ rel < r.1 + r.2) := by
  induction runs generalizing a with
  | nil => simp
  | cons r runs ih =>
    obtain ⟨hr, hruns⟩ := List.forall_mem_cons.mp hruns
    have hbits : (a.takeRun r).isFree rel =
        (a.isFree rel && !decide (r.1 ≤ rel ∧ rel < r.1 + r.2)) := (took_takeRun a r hr).bits rel
    rw [List.foldl_cons, ih _ hruns, hbits, List.forall_mem_cons, Bool.and_eq_true,
      Bool.not_eq_true', decide_eq_false_iff_not, and_assoc]

theorem metaShield_takeRuns (runs : List (ℕ × ℕ)) :
    (runs.foldl takeRun a).metaShield = a.metaShield := by
  have hwords : ∀ (r : ℕ × ℕ) (ws : List ℕ) (a : Allocator),
      (ws.foldl (takeWord r.1 r.2) a).metaShield = a.metaShield := by
    intro r ws
    induction ws with
    | nil => exact fun _ => rfl
    | cons w ws ih => exact fun a => ih _
  induction runs generalizing a with
  | nil => rfl
  | cons r runs ih => exact (ih _).trans (hwords r _ a)

theorem sum_harvest (p : Pyramid) (wanted : ℕ) :
    ((p.scanMaximalRuns harvest 0 ([], wanted)).1.map Prod.snd).sum ≤ wanted := by
  obtain ⟨e, hsum⟩ := p.scanMaximalRuns_rule
    (P := fun _ acc => (acc.1.map Prod.snd).sum + acc.2 = wanted) harvest 0
    (fun e acc start len hacc _ _ _ => by
      unfold harvest
      split_ifs with hdone
      · exact hacc
      · simp only [List.map_append, List.map_cons, List.map_nil, List.sum_append, List.sum_cons,
          List.sum_nil]
        omega) ([], wanted) (by simp)
  omega

/-- A harvest takes nothing, or runs that it found with the first block out of the way. -/
theorem tryAllocRunsUpTo_cases (n : ℕ) :
    (∃ b, a.tryAllocRunsUpTo n = ([], b) ∧ (b = a ∨ b = a.reserveBlockZero)) ∨
      ∃ runs count, runs = (a.reserveBlockZero.bitmap.scanMaximalRuns harvest 0
          ([], min n (a.available false))).1 ∧
        a.tryAllocRunsUpTo n = (runs, { runs.foldl takeRun a.reserveBlockZero with
          bitmap := { (runs.foldl takeRun a.reserveBlockZero).bitmap with freeCount := count }
          dirty := true }) := by
  unfold tryAllocRunsUpTo
  by_cases havail : a.available false = 0
  · exact .inl ⟨a, if_pos havail, .inl rfl⟩
  rw [if_neg havail]
  by_cases hguard : a.bitmap.blockCount < min n (a.available false)
  · exact .inl ⟨a, if_pos hguard, .inl rfl⟩
  rw [if_neg hguard]
  dsimp only
  generalize (a.reserveBlockZero.bitmap.scanMaximalRuns harvest 0
    ([], min n (a.available false))).1 = runs
  by_cases hnone : runs = []
  · exact .inl ⟨_, if_pos hnone, .inr rfl⟩
  · exact .inr ⟨runs, _, rfl, if_neg hnone⟩

/-- The runs that are handed out were free, lie apart and are taken now. -/
theorem allocRunsUpTo_spec (n : ℕ) :
    (∀ rel, (a.allocRunsUpTo n).2.isFree rel = true → a.isFree rel = true) ∧
      (a.allocRunsUpTo n).2.metaShield = a.metaShield ∧
      (∀ r ∈ (a.allocRunsUpTo n).1, 0 < r.2 ∧ ∀ rel, r.1 ≤ rel → rel < r.1 + r.2 →
        rel ≠ 0 ∧ a.isFree rel = true ∧ (a.allocRunsUpTo n).2.isFree rel = false) ∧
      ((a.allocRunsUpTo n).1.Pairwise fun r s => r.1 + r.2 ≤ s.1) ∧
      ((a.allocRunsUpTo n).1.map Prod.snd).sum ≤ n := by
  have hzero : ∀ rel, a.reserveBlockZero.isFree rel = true → rel ≠ 0 ∧ a.isFree rel = true := by
    intro rel hrel
    rw [isFree_reserveBlockZero, Bool.and_eq_true] at hrel
    exact ⟨by simpa using hrel.2, hrel.1⟩
  have hshield := a.metaShield_reserveBlockZero
  unfold allocRunsUpTo
  by_cases hn : n = 0
  · rw [if_pos hn]
    exact ⟨fun _ => id, rfl, by simp, List.Pairwise.nil, by simp⟩
  rw [if_neg hn]
  rcases a.tryAllocRunsUpTo_cases n with ⟨b, heq, hb⟩ | ⟨runs, count, hruns, heq⟩
  · rw [heq]
    rcases hb with rfl | rfl
    · exact ⟨fun _ => id, rfl, by simp, List.Pairwise.nil, by simp⟩
    · exact ⟨fun rel h => (hzero rel h).2, hshield, by simp, List.Pairwise.nil, by simp⟩
  rw [heq]
  generalize a.reserveBlockZero = b at hzero hshield hruns ⊢
  obtain ⟨hfree, hsorted⟩ := free_of_harvest b.bitmap (min n (a.available false))
  have hsum := (sum_harvest b.bitmap (min n (a.available false))).trans (min_le_left _ _)
  rw [← hruns] at hfree hsorted hsum
  have hbits := b.isFree_takeRuns runs fun r hr => (hfree r hr).1
  refine ⟨?_, (b.metaShield_takeRuns runs).trans hshield, ?_, hsorted, hsum⟩
  · intro rel hrel
    exact (hzero rel ((hbits rel).mp hrel).1).2
  · intro r hr
    refine ⟨(hfree r hr).1, fun rel hlow hhigh => ?_⟩
    obtain ⟨hne, hwas⟩ := hzero rel ((hfree r hr).2 rel hlow hhigh)
    refine ⟨hne, hwas, ?_⟩
    rw [← Bool.not_eq_true]
    exact fun hnow => ((hbits rel).mp hnow).2 r hr ⟨hlow, hhigh⟩

end Allocator

end Briefs.Alloc
