import Briefs.Alloc.Exact
import Briefs.Alloc.Taken

/-!
# Searching for free runs

What the run allocations find, from the maximal runs that the walk shows them.
-/

namespace Briefs.Alloc

open Bitmap Lib

namespace Pyramid

variable (p : Pyramid)

/-- A free block of the pool: bits past the block count do not matter. -/
def isFreeBlock (rel : ℕ) : Bool := decide (rel < p.blockCount) && p.isFree rel

/-- The last level has as many words as the blocks need. -/
structure Sized : Prop where
  pos : 0 < p.blockCount
  length : p.l2.length = (p.blockCount + 63) / 64

variable {p}

theorem isFreeBlock_lt (i : ℕ) (h : p.isFreeBlock i = true) : i < p.blockCount := by
  rw [isFreeBlock, Bool.and_eq_true, decide_eq_true_eq] at h
  exact h.1

theorem Sized.getLsbD_leafWord (h : p.Sized) {w j : ℕ} (hw : w < p.l2.length) (hj : j < 64) :
    (p.leafWord w).getLsbD j = p.isFreeBlock (w * 64 + j) := by
  have hlen := h.length
  have hbit : p.isFree (w * 64 + j) = (p.word2 w).getLsbD j := bitAt_word p.l2 hj
  rw [isFreeBlock, hbit]
  unfold leafWord
  split_ifs with hlast
  · rw [BitVec.getLsbD_and, Word.getLsbD_low _ _ (by omega), Bool.and_comm]
    congr 1
    exact decide_eq_decide.mpr (by omega)
  · rw [decide_eq_true (by omega), Bool.true_and]

/-- The walk shows the visitor the maximal runs of free blocks. -/
theorem Sized.scanMaximalRuns {σ : Type} (hp : p.Sized) (visit : σ → ℕ → ℕ → σ × Bool)
    (minLen : ℕ) (init : σ) : Result p.isFreeBlock p.blockCount visit minLen init
      (p.scanMaximalRuns visit minLen init) := by
  have hlen := hp.length
  exact result_scanMaximalRuns isFreeBlock_lt (fun w j => hp.getLsbD_leafWord) (by omega)
    visit minLen init

end Pyramid

namespace Allocator

open Pyramid

variable {a : Allocator}

theorem reserveBlockZero_size (a : Allocator) :
    a.reserveBlockZero.bitmap.l2.length = a.bitmap.l2.length ∧
      a.reserveBlockZero.bitmap.blockCount = a.bitmap.blockCount := by
  unfold reserveBlockZero
  split_ifs with hzero
  · generalize (a.bitmap.freeCount + 2 ^ 64 - 1) % 2 ^ 64 = count
    obtain ⟨hl2, hcount, -⟩ :=
      emptied_fields ({ a.bitmap.clear2 0 0 with freeCount := count } : Pyramid) 0
    exact ⟨(congrArg List.length hl2).trans List.length_set, hcount⟩
  · exact ⟨rfl, rfl⟩

/-- A free block that may be handed out: block 0 means that there is none. -/
def isOpen (a : Allocator) (rel : ℕ) : Bool := a.bitmap.isFreeBlock rel && decide (rel ≠ 0)

theorem isFreeBlock_reserveBlockZero (a : Allocator) :
    a.reserveBlockZero.bitmap.isFreeBlock = a.isOpen := by
  funext rel
  have hbit : a.reserveBlockZero.bitmap.isFree rel = (a.bitmap.isFree rel && !decide (rel = 0)) :=
    a.isFree_reserveBlockZero rel
  rw [isOpen, isFreeBlock, isFreeBlock, hbit, (reserveBlockZero_size a).2, Bool.and_assoc,
    decide_not]

theorem sized_reserveBlockZero (h : a.bitmap.Sized) : a.reserveBlockZero.bitmap.Sized := by
  obtain ⟨hl2, hcount⟩ := a.reserveBlockZero_size
  refine ⟨?_, ?_⟩
  · rw [hcount]
    exact h.pos
  · rw [hl2, hcount]
    exact h.length

theorem isOpen_lt (rel : ℕ) (h : a.isOpen rel = true) : rel < a.bitmap.blockCount := by
  rw [isOpen, Bool.and_eq_true] at h
  exact isFreeBlock_lt rel h.1

/-! ### The first fit -/

theorem visitAll_firstFit {n : ℕ} {runs : List (ℕ × ℕ)}
    (hsorted : runs.Pairwise fun r s => r.1 + r.2 < s.1) :
    visitAll (firstFit n) (0, 0) runs = ((0, 0), true) ∧ (∀ r ∈ runs, r.2 < n) ∨
      ∃ r ∈ runs, n ≤ r.2 ∧ (∀ s ∈ runs, n ≤ s.2 → r.1 ≤ s.1) ∧
        visitAll (firstFit n) (0, 0) runs = (r, false) := by
  induction runs with
  | nil => exact .inl ⟨rfl, by simp⟩
  | cons r runs ih =>
    obtain ⟨hafter, hsorted⟩ := List.pairwise_cons.mp hsorted
    rw [visitAll]
    by_cases hfit : n ≤ r.2
    · refine .inr ⟨r, List.mem_cons_self, hfit, ?_, ?_⟩
      · rw [List.forall_mem_cons]
        exact ⟨fun _ => le_rfl, fun s hs _ => (Nat.le_add_right _ _).trans (hafter s hs).le⟩
      · rw [firstFit, if_pos hfit]
        rfl
    · rw [firstFit, if_neg hfit]
      rw [if_pos rfl]
      rcases ih hsorted with ⟨heq, hall⟩ | ⟨r', hr', hfits, hfirst, heq⟩
      · exact .inl ⟨heq, List.forall_mem_cons.mpr ⟨Nat.not_le.mp hfit, hall⟩⟩
      · exact .inr ⟨r', List.mem_cons_of_mem r hr', hfits,
          List.forall_mem_cons.mpr ⟨fun h => absurd h hfit, hfirst⟩, heq⟩

theorem firstFit_spec {p : Pyramid} (hp : p.Sized) (n : ℕ) :
    (p.scanMaximalRuns (firstFit n) n (0, 0) = (0, 0) ∧
        ∀ r, MaximalRun p.isFreeBlock r → r.2 < n) ∨
      ∃ r, MaximalRun p.isFreeBlock r ∧ n ≤ r.2 ∧
        (∀ s, MaximalRun p.isFreeBlock s → n ≤ s.2 → r.1 ≤ s.1) ∧
        (p.scanMaximalRuns (firstFit n) n (0, 0)).1 = r.1 ∧
        n ≤ (p.scanMaximalRuns (firstFit n) n (0, 0)).2 := by
  have hF := isFreeBlock_lt (p := p)
  rcases hp.scanMaximalRuns (firstFit n) n (0, 0) with
    hall | ⟨r, l, before, -, hfit, hmax, hle, hseen, heq⟩
  · rw [hall]
    rcases visitAll_firstFit (n := n) (ascending_runsBelow hF p.blockCount) with
      ⟨heq, hshort⟩ | ⟨r, hr, hfit, hfirst, heq⟩
    · rw [heq]
      exact .inl ⟨rfl, fun r hr => hshort r ((mem_runsBelow hF).mpr ⟨hr.lt hF, hr⟩)⟩
    · rw [heq]
      exact .inr ⟨r, ((mem_runsBelow hF).mp hr).2, hfit,
        fun s hs => hfirst s ((mem_runsBelow hF).mpr ⟨hs.lt hF, hs⟩), rfl, hfit⟩
  · -- the walk ended at the first run that reaches the length
    rcases visitAll_firstFit (n := n) (ascending_runsBelow hF r.1) with
      ⟨hnone, hshort⟩ | ⟨_, -, -, -, hstop⟩
    · rw [hnone] at hseen
      cases hseen
      rw [heq, firstFit, if_pos hfit]
      refine .inr ⟨r, hmax, hfit.trans hle, fun s hs hlong => ?_, rfl, hfit⟩
      by_contra hlt
      exact absurd hlong (Nat.not_le.mpr
        (hshort s ((mem_runsBelow hF).mpr ⟨Nat.not_le.mp hlt, hs⟩)))
    · rw [hstop] at hseen
      cases hseen

/-- `tryAllocBlocks` hands out the start of the first run of open blocks that is long enough. -/
theorem tryAllocBlocks_exact (hp : a.bitmap.Sized) {n : ℕ} (hn : 1 ≤ n) :
    (a.tryAllocBlocks n).1 = 0 ∧
        (a.available false < n ∨ ∀ r, MaximalRun a.isOpen r → r.2 < n) ∨
      n ≤ a.available false ∧ ∃ r, (a.tryAllocBlocks n).1 = r.1 ∧ r.1 ≠ 0 ∧
        MaximalRun a.isOpen r ∧ n ≤ r.2 ∧ ∀ s, MaximalRun a.isOpen s → n ≤ s.2 → r.1 ≤ s.1 := by
  unfold tryAllocBlocks
  by_cases havail : a.available false < n
  · rw [if_pos (.inl havail)]
    exact .inl ⟨rfl, .inl havail⟩
  by_cases hguard : a.bitmap.blockCount < n
  · rw [if_pos (.inr hguard)]
    refine .inl ⟨rfl, .inr fun r hr => ?_⟩
    -- a run of blocks is no longer than the pool
    have := isOpen_lt _ (hr.all (r.1 + r.2 - 1) (by have := hr.pos; omega) (by have := hr.pos; omega))
    omega
  rw [if_neg (by omega)]
  dsimp only
  have hfit := firstFit_spec (sized_reserveBlockZero hp) n
  rw [isFreeBlock_reserveBlockZero] at hfit
  rcases hfit with ⟨heq, hshort⟩ | ⟨r, hmax, hfit, hfirst, heq, hlong⟩
  · rw [heq, if_pos (by dsimp only; omega)]
    exact .inl ⟨rfl, .inr hshort⟩
  · rw [if_neg (Nat.not_lt.mpr hlong)]
    refine .inr ⟨Nat.not_lt.mp havail, r, heq, ?_, hmax, hfit, hfirst⟩
    have hopen := hmax.starts.1
    rw [isOpen, Bool.and_eq_true, decide_eq_true_eq] at hopen
    exact hopen.2

/-! ### The harvest -/

/-- The harvest takes the first runs, and all of them unless it has enough. -/
theorem visitAll_harvest (runs taken : List (ℕ × ℕ)) (wanted : ℕ) :
    ∃ more, (visitAll harvest (taken, wanted) runs).1.1 = taken ++ more ∧
      (∀ t ∈ more, ∃ r ∈ runs, t.1 = r.1 ∧ t.2 ≤ r.2) ∧
      (more.map Prod.snd).sum = min wanted (runs.map Prod.snd).sum := by
  induction runs generalizing taken wanted with
  | nil => exact ⟨[], (List.append_nil taken).symm, by simp, by simp⟩
  | cons r runs ih =>
    rw [visitAll, harvest]
    by_cases hnone : wanted = 0
    · rw [if_pos hnone]
      exact ⟨[], (List.append_nil taken).symm, by simp, by simp [hnone]⟩
    · rw [if_neg hnone]
      by_cases henough : 0 < wanted - min r.2 wanted
      · rw [if_pos (decide_eq_true henough)]
        obtain ⟨more, heq, hfrom, hsum⟩ := ih (taken ++ [(r.1, min r.2 wanted)])
          (wanted - min r.2 wanted)
        refine ⟨(r.1, min r.2 wanted) :: more, ?_, ?_, ?_⟩
        · rw [heq, List.append_assoc, List.singleton_append]
        · refine List.forall_mem_cons.mpr ⟨⟨r, List.mem_cons_self, rfl, Nat.min_le_left _ _⟩, ?_⟩
          intro t ht
          obtain ⟨s, hs, hts⟩ := hfrom t ht
          exact ⟨s, List.mem_cons_of_mem r hs, hts⟩
        · rw [List.map_cons, List.sum_cons, hsum, List.map_cons, List.sum_cons]
          omega
      · rw [if_neg (Bool.eq_false_iff.mp (decide_eq_false henough))]
        refine ⟨[(r.1, min r.2 wanted)], rfl, ?_, ?_⟩
        · rintro t ht
          rw [List.mem_singleton.mp ht]
          exact ⟨r, List.mem_cons_self, rfl, Nat.min_le_left _ _⟩
        · rw [List.map_cons, List.sum_cons, List.map_cons, List.sum_cons, List.map_nil, List.sum_nil]
          omega

/-- What a harvest takes are prefixes of maximal runs of open blocks. -/
theorem tryAllocRunsUpTo_open (hp : a.bitmap.Sized) (n : ℕ) :
    ((a.tryAllocRunsUpTo n).1.Pairwise fun r s => r.1 + r.2 ≤ s.1) ∧
      ∀ r ∈ (a.tryAllocRunsUpTo n).1,
        0 < r.2 ∧ ∀ rel, r.1 ≤ rel → rel < r.1 + r.2 → a.isOpen rel = true := by
  rcases a.tryAllocRunsUpTo_cases n with ⟨b, heq, -⟩ | ⟨runs, count, hruns, heq⟩
  · rw [heq]
    exact ⟨.nil, by simp⟩
  · obtain ⟨hfree, hsorted⟩ :=
      free_of_harvest a.reserveBlockZero.bitmap (min n (a.available false))
    rw [heq]
    rw [← hruns] at hfree hsorted
    refine ⟨hsorted, fun r hr => ⟨(hfree r hr).1, fun rel hlow hhigh => ?_⟩⟩
    have hres := (sized_reserveBlockZero hp).scanMaximalRuns harvest 0
      ([], min n (a.available false))
    rw [isFreeBlock_reserveBlockZero] at hres
    rcases hres with hall | ⟨-, -, -, hpos, -⟩
    · obtain ⟨more, hmore, hfrom, -⟩ := visitAll_harvest
        (runsBelow a.isOpen a.reserveBlockZero.bitmap.blockCount
          a.reserveBlockZero.bitmap.blockCount) [] (min n (a.available false))
      rw [hruns, hall, hmore] at hr
      obtain ⟨s, hs, hstart, hlen⟩ := hfrom r hr
      rw [a.reserveBlockZero_size.2] at hs
      have hmax := ((mem_runsBelow isOpen_lt).mp hs).2
      exact hmax.all rel (by omega) (by omega)
    · exact absurd hpos (lt_irrefl 0)

/-- With the first block out of the way a harvest takes what is wanted, as far as there is. -/
theorem sum_tryAllocRunsUpTo (hp : a.bitmap.Sized) (hzero : a.isFree 0 = false)
    (hcount : a.bitmap.freeCount ≤
      ((Finset.range a.bitmap.blockCount).filter fun i => a.isFree i = true).card) (n : ℕ) :
    ((a.tryAllocRunsUpTo n).1.map Prod.snd).sum = min n (a.available false) := by
  have havail := (a.available_le false).trans hcount
  have hopen : ((Finset.range a.bitmap.blockCount).filter fun i => a.isFree i = true).card ≤
      ((runsBelow a.isOpen a.bitmap.blockCount a.bitmap.blockCount).map Prod.snd).sum := by
    refine le_trans (Finset.card_le_card fun i hi => ?_) (card_le_sum_runsBelow isOpen_lt)
    obtain ⟨hlt, hfree⟩ := Finset.mem_filter.mp hi
    refine Finset.mem_filter.mpr ⟨hlt, ?_⟩
    have hne : i ≠ 0 := by
      rintro rfl
      rw [hzero] at hfree
      cases hfree
    have hin : a.bitmap.isFree i = true := hfree
    rw [isOpen, isFreeBlock, hin, decide_eq_true (Finset.mem_range.mp hlt), decide_eq_true hne]
    rfl
  have hsize : ((Finset.range a.bitmap.blockCount).filter fun i => a.isFree i = true).card ≤
      a.bitmap.blockCount := (Finset.card_filter_le _ _).trans_eq (Finset.card_range _)
  unfold tryAllocRunsUpTo
  by_cases hnone : a.available false = 0
  · rw [if_pos hnone, hnone]
    simp
  rw [if_neg hnone, if_neg (by omega)]
  dsimp only
  have hres := (sized_reserveBlockZero hp).scanMaximalRuns harvest 0 ([], min n (a.available false))
  rw [isFreeBlock_reserveBlockZero, a.reserveBlockZero_size.2] at hres
  rcases hres with hall | ⟨-, -, -, hpos, -⟩
  · obtain ⟨more, hmore, -, hsum⟩ := visitAll_harvest
      (runsBelow a.isOpen a.bitmap.blockCount a.bitmap.blockCount) [] (min n (a.available false))
    rw [hall, hmore, List.nil_append]
    rw [Nat.min_eq_left (by omega)] at hsum
    split_ifs with hempty
    · rw [← hsum, hempty]
    · exact hsum
  · exact absurd hpos (lt_irrefl 0)

/-- The collector of the runs of a pool. -/
def collect (acc : List (ℕ × ℕ)) (s l : ℕ) : List (ℕ × ℕ) × Bool := (acc ++ [(s, l)], true)

end Allocator

end Briefs.Alloc
