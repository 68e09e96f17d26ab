import Briefs.Alloc.Free
import Briefs.Alloc.Runs
import Briefs.Lib.Bitmap
import Briefs.Lib.Maximal

/-!
# The walk over the free runs

The walk over the last level shows its visitor the maximal runs of free blocks from left to
right: the words are put together to runs exactly, whatever is set in them.
-/

namespace Briefs.Alloc

open Bitmap Lib

namespace Word

variable {w : Word}

theorem getLsbD_of_lt_trailingZeros {j : ℕ} (h : j < w.trailingZeros) (hj : j < 64) :
    w.getLsbD j = false := by
  unfold trailingZeros at h
  cases hfind : (List.range 64).find? fun i => w.getLsbD i with
  | none =>
    rw [List.find?_eq_none] at hfind
    simpa using hfind j (List.mem_range.mpr hj)
  | some i =>
    rw [hfind, Option.getD_some] at h
    have hfirst := (List.find?_range_eq_some.mp hfind).2.2 j h
    simpa using hfirst

theorem trailingZeros_le (w : Word) : w.trailingZeros ≤ 64 := by
  by_cases hw : w = 0
  · subst hw
    decide
  · exact (exists_bit_of_ne_zero hw).1.le

/-- The bits of the first run of a word: from its first set bit, as many as are set. -/
theorem getLsbD_firstRun {j : ℕ} (hlow : w.trailingZeros ≤ j)
    (hhigh : j < w.trailingZeros + trailingZeros (~~~(w >>> w.trailingZeros))) :
    w.getLsbD j = true := by
  have hlt : j - w.trailingZeros < 64 := by
    have := trailingZeros_le (~~~(w >>> w.trailingZeros))
    omega
  have hbit := getLsbD_of_lt_trailingZeros (w := ~~~(w >>> w.trailingZeros))
    (j := j - w.trailingZeros) (by omega) hlt
  rw [BitVec.getLsbD_not, BitVec.getLsbD_ushiftRight, decide_eq_true hlt, Bool.true_and,
    Nat.add_sub_cancel' hlow] at hbit
  simpa using hbit

theorem firstRun_pos (hw : w ≠ 0) :
    0 < trailingZeros (~~~(w >>> w.trailingZeros)) := by
  obtain ⟨hlt, hbit⟩ := exists_bit_of_ne_zero hw
  by_contra hzero
  have hne : ~~~(w >>> w.trailingZeros) ≠ 0 := by
    intro heq
    rw [heq] at hzero
    exact hzero (by decide)
  obtain ⟨-, hset⟩ := exists_bit_of_ne_zero hne
  rw [Nat.eq_zero_of_not_pos hzero, BitVec.getLsbD_not, BitVec.getLsbD_ushiftRight,
    Nat.add_zero, hbit] at hset
  simp at hset

/-- What is left of a word once its first run is cleared. -/
def rest (w : Word) : Word :=
  let b := w.trailingZeros
  let cnt := trailingZeros (~~~(w >>> b))
  if 64 ≤ cnt then 0 else w &&& ~~~(((1#64 <<< cnt) - 1) <<< b)

theorem getLsbD_rest (j : ℕ) : w.rest.getLsbD j =
    (w.getLsbD j &&
      decide (w.trailingZeros + trailingZeros (~~~(w >>> w.trailingZeros)) ≤ j)) := by
  by_cases hj : j < 64
  · unfold rest
    dsimp only
    split_ifs with hcnt
    · rw [decide_eq_false (by omega), Bool.and_false]
      exact BitVec.getLsbD_zero
    · rw [BitVec.getLsbD_and, BitVec.getLsbD_not, BitVec.getLsbD_shiftLeft,
        Word.getLsbD_low _ _ (by omega), decide_eq_true hj, Bool.true_and, Bool.true_and]
      by_cases hlow : j < w.trailingZeros
      · rw [getLsbD_of_lt_trailingZeros hlow hj, Bool.false_and, Bool.false_and]
      · rw [decide_eq_false hlow, Bool.not_false, Bool.true_and, ← decide_not]
        congr 1
        exact decide_eq_decide.mpr (by omega)
  · rw [BitVec.getLsbD_of_ge _ _ (by omega), BitVec.getLsbD_of_ge _ _ (by omega), Bool.false_and]

theorem firstRun_le (hw : w ≠ 0) :
    w.trailingZeros + trailingZeros (~~~(w >>> w.trailingZeros)) ≤ 64 := by
  by_contra hover
  have hset := BitVec.lt_of_getLsbD (getLsbD_firstRun (w := w) (j := 64) (by
    have := (exists_bit_of_ne_zero hw).1
    omega) (by omega))
  omega

end Word

section Exact

variable {σ : Type} (F : ℕ → Bool) (bound : ℕ) (visit : σ → ℕ → ℕ → σ × Bool) (minLen : ℕ)
  (init : σ)

/-- No run is open before `pos`: the visitor has seen every run that begins below it. -/
structure Scan.Idle (pos : ℕ) (s : Scan σ) : Prop where
  runLen : s.runLen = 0
  seen : visitAll visit init (runsBelow F bound pos) = (s.acc, true)
  left : pos = 0 ∨ F (pos - 1) = false

/-- The gathered run is the last one that begins below `pos`, and it is all of it up to
there. -/
structure Scan.Gathered (pos : ℕ) (s : Scan σ) : Prop where
  runLen : 0 < s.runLen
  seen : visitAll visit init (runsBelow F bound s.runStart) = (s.acc, true)
  all : ∀ i, s.runStart ≤ i → i < s.runStart + s.runLen → F i = true
  left : s.runStart = 0 ∨ F (s.runStart - 1) = false
  le : s.runStart + s.runLen ≤ pos
  gap : ∀ i, s.runStart + s.runLen ≤ i → i < pos → F i = false

/-- What the walk returns: the visitor has seen the maximal runs one after the other, or the
first one that reaches the least length up to there. -/
def Result (acc : σ) : Prop :=
  acc = (visitAll visit init (runsBelow F bound bound)).1 ∨
    ∃ r l before, 0 < minLen ∧ minLen ≤ l ∧ MaximalRun F r ∧ l ≤ r.2 ∧
      visitAll visit init (runsBelow F bound r.1) = (before, true) ∧
      acc = (visit before r.1 l).1

/-- The walk has come to `pos`, or it is over. -/
def Scan.At (pos : ℕ) (s : Scan σ) : Prop :=
  s.stopped = true ∧ Result F bound visit minLen init s.acc ∨
    s.stopped = false ∧ (s.Idle F bound visit init pos ∨ s.Gathered F bound visit init pos)

variable {F bound visit minLen init} {pos pos' : ℕ} {s : Scan σ}

theorem Scan.Gathered.starts (h : s.Gathered F bound visit init pos) : Starts F s.runStart :=
  ⟨h.all _ le_rfl (Nat.lt_add_of_pos_right h.runLen), h.left⟩

theorem Scan.Idle.advance (h : s.Idle F bound visit init pos) (hle : pos ≤ pos')
    (hgap : ∀ i, pos ≤ i → i < pos' → F i = false) : s.Idle F bound visit init pos' := by
  refine ⟨h.runLen, ?_, ?_⟩
  · rw [runsBelow_of_gap hle fun i hi hlt hstart => by
      rw [Starts, hgap i hi hlt] at hstart
      cases hstart.1]
    exact h.seen
  · rcases Nat.eq_or_lt_of_le hle with rfl | hlt
    · exact h.left
    · exact .inr (hgap _ (by omega) (by omega))

theorem Scan.Gathered.advance (h : s.Gathered F bound visit init pos) (hle : pos ≤ pos')
    (hgap : ∀ i, pos ≤ i → i < pos' → F i = false) : s.Gathered F bound visit init pos' := by
  refine { h with le := h.le.trans hle, gap := fun i hi hlt => ?_ }
  by_cases hold : i < pos
  · exact h.gap i hi hold
  · exact hgap i (Nat.not_lt.mp hold) hlt

theorem Scan.At.advance (h : s.At F bound visit minLen init pos) (hle : pos ≤ pos')
    (hgap : ∀ i, pos ≤ i → i < pos' → F i = false) : s.At F bound visit minLen init pos' := by
  rcases h with hdone | ⟨hgo, hidle | hrun⟩
  · exact .inl hdone
  · exact .inr ⟨hgo, .inl (hidle.advance hle hgap)⟩
  · exact .inr ⟨hgo, .inr (hrun.advance hle hgap)⟩

theorem Scan.Idle.closeRun (h : s.Idle F bound visit init pos) : s.closeRun visit = s :=
  if_pos h.runLen

section Bounded

variable (hF : ∀ i, F i = true → i < bound)

include hF

/-- A visitor that stops has stopped for good. -/
theorem result_of_stopped {n : ℕ} {acc : σ}
    (h : visitAll visit init (runsBelow F bound n) = (acc, false)) :
    Result F bound visit minLen init acc := by
  left
  rcases le_total n bound with hle | hle
  · obtain ⟨rest, hrest⟩ : ∃ rest, runsBelow F bound bound = runsBelow F bound n ++ rest :=
      runsBelow_append hle
    rw [hrest, visitAll_append, h]
    rfl
  · rw [runsBelow_of_gap hle fun i hi _ hstart => absurd (hF i hstart.1) (Nat.not_lt.mpr hi)] at h
    rw [h]

/-- A gathered run with a gap after it is a maximal one, and is shown to the visitor. -/
theorem Scan.Gathered.seen_closeRun (h : s.Gathered F bound visit init pos)
    (hend : F (s.runStart + s.runLen) = false) :
    visitAll visit init (runsBelow F bound (s.runStart + 1)) =
      ((s.closeRun visit).acc, !(s.closeRun visit).stopped) := by
  have hmax : MaximalRun F (s.runStart, s.runLen) := ⟨h.runLen, h.all, h.left, hend⟩
  rw [runsBelow_succ_of_maximalRun hF hmax, visitAll_append, h.seen]
  unfold Scan.closeRun
  rw [if_neg h.runLen.ne', if_pos rfl]
  dsimp only [visitAll]
  split_ifs with hgo
  · rw [hgo]
    rfl
  · rw [Bool.eq_false_iff.mpr hgo]
    rfl

variable (minLen) in
theorem Scan.Gathered.closeRun (h : s.Gathered F bound visit init pos)
    (hlt : s.runStart + s.runLen < pos) :
    (s.closeRun visit).stopped = true ∧ Result F bound visit minLen init (s.closeRun visit).acc ∨
      (s.closeRun visit).stopped = false ∧ (s.closeRun visit).Idle F bound visit init pos := by
  have hend := h.gap _ le_rfl hlt
  have hseen := h.seen_closeRun hF hend
  cases hstop : (s.closeRun visit).stopped with
  | true =>
    rw [hstop] at hseen
    exact .inl ⟨rfl, result_of_stopped hF hseen⟩
  | false =>
    rw [hstop] at hseen
    refine .inr ⟨rfl, ?_, ?_, .inr (h.gap _ (by omega) (by omega))⟩
    · unfold Scan.closeRun
      rw [if_neg h.runLen.ne']
    · rw [runsBelow_of_gap (n := s.runStart + 1) (by omega), hseen]
      · rfl
      · -- no run begins inside the gathered one or in the gap after it
        intro i hi hlt hstart
        have hmax : MaximalRun F (s.runStart, s.runLen) := ⟨h.runLen, h.all, h.left, hend⟩
        have := hmax.lt_of_starts hstart (by dsimp only; omega)
        have hfalse := h.gap i (by dsimp only at this; omega) hlt
        rw [hstart.1] at hfalse
        cases hfalse

variable (minLen) in
/-- The set bits from `start` on join the gathered run or begin a new one. -/
theorem Scan.gather_spec {start cnt : ℕ} (hs : s.stopped = false)
    (h : s.Idle F bound visit init start ∨ s.Gathered F bound visit init start) (hcnt : 0 < cnt)
    (hset : ∀ i, start ≤ i → i < start + cnt → F i = true) :
    (s.gather visit start cnt).stopped = true ∧
        Result F bound visit minLen init (s.gather visit start cnt).acc ∨
      (s.gather visit start cnt).stopped = false ∧
        (s.gather visit start cnt).Gathered F bound visit init (start + cnt) := by
  -- a new run after everything before it was shown
  have hbegin : ∀ c : Scan σ, c.Idle F bound visit init start →
      Scan.Gathered F bound visit init (start + cnt) { c with runStart := start, runLen := cnt } :=
    fun c hidle => ⟨hcnt, hidle.seen, hset, hidle.left, le_rfl,
      fun i hi hlt => absurd hlt (Nat.not_lt.mpr hi)⟩
  unfold Scan.gather
  rcases h with hidle | hrun
  · rw [if_neg (by rw [hidle.runLen]; omega), hidle.closeRun]
    rw [if_neg (by rw [hs]; exact Bool.false_ne_true)]
    exact .inr ⟨hs, hbegin s hidle⟩
  · by_cases hjoin : 0 < s.runLen ∧ start = s.runStart + s.runLen
    · rw [if_pos hjoin]
      refine .inr ⟨hs, ?_, hrun.seen, fun i hlow hhigh => ?_, hrun.left, ?_, fun i hlow hhigh => ?_⟩
      · exact Nat.add_pos_left hjoin.1 cnt
      · dsimp only at hlow hhigh
        by_cases hi : i < s.runStart + s.runLen
        · exact hrun.all i hlow hi
        · exact hset i (by omega) (by omega)
      · dsimp only
        omega
      · dsimp only at hlow
        omega
    · rw [if_neg hjoin]
      have hlt : s.runStart + s.runLen < start := by
        have := hrun.le
        have := hrun.runLen
        omega
      rcases hrun.closeRun minLen hF hlt with ⟨hstop, hdone⟩ | ⟨hgo, hidle⟩
      · rw [if_pos hstop]
        exact .inl ⟨hstop, hdone⟩
      · rw [if_neg (Bool.not_eq_true _ ▸ hgo)]
        exact .inr ⟨hgo, hbegin _ hidle⟩

/-- The first run that is long enough is the last one reported. -/
theorem Scan.Gathered.result (h : s.Gathered F bound visit init pos)
    (hfit : 0 < minLen ∧ minLen ≤ s.runLen) :
    Result F bound visit minLen init (s.closeRun visit).acc := by
  have hmax := maximalRun_of_starts hF h.starts
  refine .inr ⟨_, s.runLen, s.acc, hfit.1, hfit.2, hmax, ?_, h.seen, ?_⟩
  · by_contra hlong
    have hin := h.all (s.runStart + runFrom F bound s.runStart) (by omega)
      (by dsimp only at hlong; omega)
    rw [hmax.right] at hin
    cases hin
  · unfold Scan.closeRun
    rw [if_neg h.runLen.ne']

/-- The runs of one word: the fuel suffices, since every run takes a bit. -/
theorem Scan.At.scanBits {base : ℕ} (fuel : ℕ) (wbits : Word) {pos : ℕ} {s : Scan σ}
    (h : s.At F bound visit minLen init pos) (hs : s.stopped = false) (hlow : base ≤ pos)
    (hhigh : pos ≤ base + 64) (hfuel : base + 64 ≤ pos + fuel)
    (hbits : ∀ j < 64, wbits.getLsbD j = (F (base + j) && decide (pos ≤ base + j))) :
    (Alloc.scanBits visit minLen base fuel wbits s).At F bound visit minLen init (base + 64) := by
  induction fuel generalizing wbits pos s with
  | zero =>
    rw [show base + 64 = pos by omega]
    exact h
  | succ fuel ih =>
    have hclear : ∀ i, pos ≤ i → i < base + 64 → wbits.getLsbD (i - base) = false →
        F i = false := by
      intro i hi hlt hbit
      rw [hbits _ (by omega), Nat.add_sub_cancel' (by omega), decide_eq_true hi,
        Bool.and_true] at hbit
      exact hbit
    unfold Alloc.scanBits
    by_cases hzero : wbits = 0
    · rw [if_pos hzero]
      exact h.advance hhigh fun i hi hlt => hclear i hi hlt (by rw [hzero]; simp)
    rw [if_neg hzero]
    obtain ⟨hlt, hbit⟩ := Word.exists_bit_of_ne_zero hzero
    have hpos := Word.firstRun_pos hzero
    have hend := Word.firstRun_le hzero
    have hstart : pos ≤ base + wbits.trailingZeros := by
      rw [hbits _ hlt, Bool.and_eq_true, decide_eq_true_eq] at hbit
      exact hbit.2
    have hrest : ∀ j < 64, wbits.rest.getLsbD j = (F (base + j) && decide (base +
        wbits.trailingZeros + Word.trailingZeros (~~~(wbits >>> wbits.trailingZeros)) ≤
          base + j)) := by
      intro j hj
      rw [Word.getLsbD_rest, hbits j hj, Bool.and_assoc, ← Bool.decide_and]
      congr 1
      exact decide_eq_decide.mpr (by omega)
    have hset : ∀ i, base + wbits.trailingZeros ≤ i → i < base + wbits.trailingZeros +
        Word.trailingZeros (~~~(wbits >>> wbits.trailingZeros)) → F i = true := by
      intro i hlow' hhigh'
      have hin := Word.getLsbD_firstRun (w := wbits) (j := i - base) (by omega) (by omega)
      rw [hbits _ (by omega), Nat.add_sub_cancel' (by omega), Bool.and_eq_true] at hin
      exact hin.1
    have hcome := h.advance hstart fun i hi hlt' => hclear i hi (by omega)
      (Word.getLsbD_of_lt_trailingZeros (by omega) (by omega))
    rcases hcome with ⟨hstop, -⟩ | ⟨-, hcome⟩
    · rw [hs] at hstop
      cases hstop
    rcases Scan.gather_spec minLen hF hs hcome hpos hset with
      ⟨hstop, hdone⟩ | ⟨hgo, hrun⟩
    · rw [if_pos hstop]
      exact .inl ⟨hstop, hdone⟩
    rw [if_neg (by rw [hgo]; exact Bool.false_ne_true)]
    refine iteInduction (fun hfit => .inl ⟨rfl, hrun.result hF hfit⟩) fun _ => ?_
    exact ih wbits.rest (.inr ⟨hgo, .inr hrun⟩) hgo (by omega) (by omega) (by omega) hrest

end Bounded

end Exact

namespace Pyramid

variable {p : Pyramid} {σ : Type} {visit : σ → ℕ → ℕ → σ × Bool} {minLen : ℕ} {init : σ}
  {F : ℕ → Bool} {bound : ℕ}

section Bits

variable (hF : ∀ i, F i = true → i < bound)
  (hleaf : ∀ w j, w < p.l2.length → j < 64 → (p.leafWord w).getLsbD j = F (w * 64 + j))

include hF hleaf

theorem scanWord_at {w : ℕ} (hw : w < p.l2.length) {s : Scan σ}
    (h : s.At F bound visit minLen init (w * 64)) :
    (p.scanWord visit minLen s w).At F bound visit minLen init ((w + 1) * 64) := by
  rw [Nat.succ_mul]
  unfold Pyramid.scanWord
  by_cases hstop : s.stopped = true
  · rw [if_pos hstop]
    rcases h with hdone | ⟨hgo, -⟩
    · exact .inl hdone
    · rw [hgo] at hstop
      cases hstop
  rw [if_neg hstop]
  by_cases hzero : p.leafWord w = 0
  · -- an empty word: whatever was gathered ends before it
    rw [if_pos hzero]
    have hnone : ∀ i, w * 64 ≤ i → i < w * 64 + 64 → F i = false := by
      intro i hi hlt
      have hbit := hleaf w (i - w * 64) hw (by omega)
      rw [hzero, Nat.add_sub_cancel' hi] at hbit
      rw [← hbit]
      simp
    rcases h with ⟨hdone, -⟩ | ⟨hgo, hidle | hrun⟩
    · exact absurd hdone hstop
    · rw [hidle.closeRun]
      exact .inr ⟨hgo, .inl (hidle.advance (by omega) hnone)⟩
    · have hle := hrun.le
      rcases (hrun.advance (by omega) hnone).closeRun _ hF (by omega) with
        hdone | ⟨hgo, hidle⟩
      · exact .inl hdone
      · exact .inr ⟨hgo, .inl hidle⟩
  · rw [if_neg hzero]
    refine h.scanBits hF 64 (p.leafWord w) (Bool.eq_false_iff.mpr hstop) le_rfl
      (by omega) le_rfl fun j hj => ?_
    rw [hleaf w j hw hj, decide_eq_true (Nat.le_add_right _ _), Bool.and_true]

/-- The walk shows the visitor the maximal runs. -/
theorem result_scanMaximalRuns (hbound : bound ≤ p.l2.length * 64) (visit : σ → ℕ → ℕ → σ × Bool) (minLen : ℕ)
    (init : σ) : Result F bound visit minLen init (p.scanMaximalRuns visit minLen init) := by
  have hfold : ∀ n ≤ p.l2.length,
      ((List.range n).foldl (p.scanWord visit minLen) ⟨init, 0, 0, false⟩).At
        F bound visit minLen init (n * 64) := by
    intro n hn
    induction n with
    | zero => exact .inr ⟨rfl, .inl ⟨rfl, by rw [Nat.zero_mul]; rfl, .inl (Nat.zero_mul 64)⟩⟩
    | succ n ih =>
      rw [List.range_succ, List.foldl_append, List.foldl_cons, List.foldl_nil]
      exact scanWord_at hF hleaf hn (ih (by omega))
  have hlast := hfold p.l2.length le_rfl
  unfold Pyramid.scanMaximalRuns
  dsimp only
  generalize (List.range p.l2.length).foldl (p.scanWord visit minLen) ⟨init, 0, 0, false⟩ = s
    at hlast ⊢
  rcases hlast with ⟨hstop, hdone⟩ | ⟨hgo, hrun⟩
  · rw [if_pos hstop]
    exact hdone
  rw [if_neg (by rw [hgo]; exact Bool.false_ne_true)]
  -- past the last word there is a gap, as past every run
  have hnone : ∀ i, p.l2.length * 64 ≤ i → i < p.l2.length * 64 + 1 → F i = false := by
    intro i hi _
    rw [← Bool.not_eq_true]
    intro hin
    have := hF i hin
    omega
  have hidle : (s.closeRun visit).stopped = true ∧
      Result F bound visit minLen init (s.closeRun visit).acc ∨
      (s.closeRun visit).stopped = false ∧ (s.closeRun visit).Idle F bound
        visit init (p.l2.length * 64 + 1) := by
    rcases hrun with hidle | hrun
    · rw [hidle.closeRun]
      exact .inr ⟨hgo, hidle.advance (by omega) hnone⟩
    · have := hrun.le
      exact (hrun.advance (by omega) hnone).closeRun _ hF (by omega)
  rcases hidle with ⟨-, hdone⟩ | ⟨-, hidle⟩
  · exact hdone
  · left
    have hseen := hidle.seen
    rw [runsBelow_of_gap (n := bound) (by omega) fun i hi _ hstart =>
      absurd (hF i hstart.1) (Nat.not_lt.mpr hi)] at hseen
    rw [hseen]

end Bits

variable (visit minLen) in
/-- An invariant of the visitor, over the end of the last run it has seen, holds of what
the walk returns. -/
theorem scanMaximalRuns_rule {P : ℕ → σ → Prop}
    (hvisit : ∀ e acc start len, P e acc → e ≤ start → 0 < len →
      (∀ i, start ≤ i → i < start + len → bitAt p.l2 i = true) →
      P (start + len) (visit acc start len).1) (init : σ) (hinit : P 0 init) :
    ∃ e, P e (p.scanMaximalRuns visit minLen init) := by
  let F i := decide (i < p.l2.length * 64) && (p.leafWord (i / 64)).getLsbD (i % 64)
  have hF : ∀ i, F i = true → i < p.l2.length * 64 := by
    intro i hi
    exact of_decide_eq_true (Bool.and_eq_true _ _ ▸ hi).1
  have hbit : ∀ i, F i = true → bitAt p.l2 i = true := by
    intro i hi
    have hi : (p.leafWord (i / 64)).getLsbD (i % 64) = true := (Bool.and_eq_true _ _ ▸ hi).2
    unfold leafWord at hi
    split_ifs at hi
    · exact (Bool.and_eq_true _ _ ▸ BitVec.getLsbD_and .. ▸ hi).1
    · exact hi
  have hrule := visitAll_rule hF (fun e acc start len hP hle hpos hall =>
    hvisit e acc start len hP hle hpos fun i hlow hhigh => hbit i (hall i hlow hhigh)) hinit
  have hleaf : ∀ w j, w < p.l2.length → j < 64 → (p.leafWord w).getLsbD j = F (w * 64 + j) := by
    intro w j hw hj
    dsimp only [F]
    rw [decide_eq_true (by omega), Bool.true_and, show (w * 64 + j) / 64 = w by omega,
      show (w * 64 + j) % 64 = j by omega]
  rcases result_scanMaximalRuns hF hleaf le_rfl visit minLen init with
    hall | ⟨r, l, before, hpos, hmin, hmax, hl, hseen, hacc⟩
  · obtain ⟨e, hP, -⟩ := hrule (p.l2.length * 64)
    exact ⟨e, hall ▸ hP⟩
  · obtain ⟨e, hP, he⟩ := hrule r.1
    rw [hseen] at hP
    rw [hacc]
    exact ⟨_, hvisit e before r.1 l hP (he r.1 le_rfl hmax.starts) (by omega)
      fun i hlow hhigh => hbit i (hmax.all i hlow (by omega))⟩

end Pyramid

end Briefs.Alloc
