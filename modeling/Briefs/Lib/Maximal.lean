import Mathlib.Tactic

/-!
# Maximal runs

The maximal runs of a set of numbers that is bounded above, from left to right. A visitor
looks at them one after the other until it has seen enough.
-/

namespace Briefs.Lib

/-- A run of `F` that cannot be made longer: its first element and its length. -/
structure MaximalRun (F : ℕ → Bool) (r : ℕ × ℕ) : Prop where
  pos : 0 < r.2
  all : ∀ i, r.1 ≤ i → i < r.1 + r.2 → F i = true
  left : r.1 = 0 ∨ F (r.1 - 1) = false
  right : F (r.1 + r.2) = false

/-- A run begins here. -/
def Starts (F : ℕ → Bool) (i : ℕ) : Prop := F i = true ∧ (i = 0 ∨ F (i - 1) = false)

instance (F : ℕ → Bool) (i : ℕ) : Decidable (Starts F i) := inferInstanceAs (Decidable (_ ∧ _))

/-- The elements from `i` on without a gap, `fuel` of them at most. -/
def runFrom (F : ℕ → Bool) : ℕ → ℕ → ℕ
  | 0, _ => 0
  | fuel + 1, i => if F i then runFrom F fuel (i + 1) + 1 else 0

/-- The maximal runs that begin below `n`, where `F` is bounded by `bound`. -/
def runsBelow (F : ℕ → Bool) (bound : ℕ) : ℕ → List (ℕ × ℕ)
  | 0 => []
  | n + 1 => runsBelow F bound n ++ if Starts F n then [(n, runFrom F bound n)] else []

variable {F : ℕ → Bool} {bound n m : ℕ} {r s : ℕ × ℕ}

theorem runFrom_spec (fuel i : ℕ) : (∀ j, i ≤ j → j < i + runFrom F fuel i → F j = true) ∧
    (runFrom F fuel i < fuel → F (i + runFrom F fuel i) = false) := by
  induction fuel generalizing i with
  | zero => exact ⟨fun j hle hlt => absurd hlt (Nat.not_lt.mpr hle), fun h => absurd h (by simp)⟩
  | succ fuel ih =>
    obtain ⟨hall, hend⟩ := ih (i + 1)
    rw [runFrom]
    split_ifs with hi
    · refine ⟨fun j hle hlt => ?_, fun h => ?_⟩
      · by_cases hj : j = i
        · rw [hj]
          exact hi
        · exact hall j (by omega) (by omega)
      · rw [show i + (runFrom F fuel (i + 1) + 1) = i + 1 + runFrom F fuel (i + 1) by omega]
        exact hend (by omega)
    · exact ⟨fun j hle hlt => absurd hlt (Nat.not_lt.mpr hle), fun _ => Bool.eq_false_iff.mpr hi⟩

/-- Where a maximal run begins, its length is settled. -/
theorem MaximalRun.eq (hr : MaximalRun F r) (hs : MaximalRun F s) (h : r.1 = s.1) : r = s := by
  refine Prod.ext h ?_
  rcases Nat.lt_trichotomy r.2 s.2 with hlt | heq | hlt
  · have := hs.all (r.1 + r.2) (by omega) (by omega)
    rw [hr.right] at this
    cases this
  · exact heq
  · have := hr.all (s.1 + s.2) (by omega) (by omega)
    rw [hs.right] at this
    cases this

theorem MaximalRun.starts (h : MaximalRun F r) : Starts F r.1 :=
  ⟨h.all r.1 le_rfl (Nat.lt_add_of_pos_right h.pos), h.left⟩

/-- The next run begins past the end. -/
theorem MaximalRun.lt_of_starts {i : ℕ} (h : MaximalRun F r) (hi : Starts F i) (hlt : r.1 < i) :
    r.1 + r.2 < i := by
  by_contra hin
  rcases Nat.lt_or_eq_of_le (Nat.not_lt.mp hin) with hin | rfl
  · have := h.all (i - 1) (by omega) (by omega)
    rcases hi.2 with hzero | hgap
    · omega
    · rw [hgap] at this
      cases this
  · have := hi.1
    rw [h.right] at this
    cases this

theorem runsBelow_of_gap (h : n ≤ m) (hgap : ∀ i, n ≤ i → i < m → ¬Starts F i) :
    runsBelow F bound m = runsBelow F bound n := by
  induction m, h using Nat.le_induction with
  | base => rfl
  | succ m hle ih =>
    rw [runsBelow, if_neg (hgap m hle (Nat.lt_succ_self m)), List.append_nil]
    exact ih fun i hi him => hgap i hi (Nat.lt_succ_of_lt him)

theorem runsBelow_append (h : n ≤ m) :
    ∃ rest, runsBelow F bound m = runsBelow F bound n ++ rest := by
  induction m, h using Nat.le_induction with
  | base => exact ⟨[], (List.append_nil _).symm⟩
  | succ m hle ih =>
    obtain ⟨rest, hrest⟩ := ih
    exact ⟨_, by rw [runsBelow, hrest, List.append_assoc]⟩

/-- Runs that cover a set are together as long as it is large. -/
theorem card_le_sum_of_cover (runs : List (ℕ × ℕ)) (S : Finset ℕ)
    (hS : ∀ i ∈ S, ∃ r ∈ runs, r.1 ≤ i ∧ i < r.1 + r.2) : S.card ≤ (runs.map Prod.snd).sum := by
  induction runs generalizing S with
  | nil =>
    have hempty : S = ∅ := Finset.eq_empty_of_forall_notMem fun i hi => by simpa using hS i hi
    simp [hempty]
  | cons r runs ih =>
    have hrest := ih (S \ Finset.Ico r.1 (r.1 + r.2)) fun i hi => by
      obtain ⟨hmem, hout⟩ := Finset.mem_sdiff.mp hi
      obtain ⟨s, hs, hin⟩ := hS i hmem
      rcases List.mem_cons.mp hs with rfl | hs
      · exact absurd (Finset.mem_Ico.mpr hin) hout
      · exact ⟨s, hs, hin⟩
    have hsplit : S.card ≤ (S \ Finset.Ico r.1 (r.1 + r.2)).card +
        (Finset.Ico r.1 (r.1 + r.2)).card := Finset.card_le_card_sdiff_add_card
    rw [Nat.card_Ico] at hsplit
    rw [List.map_cons, List.sum_cons]
    omega

section Bounded

variable (hF : ∀ i, F i = true → i < bound)

include hF

theorem MaximalRun.lt (h : MaximalRun F r) : r.1 < bound := hF _ h.starts.1

/-- The run that begins at a start. -/
theorem maximalRun_of_starts {i : ℕ} (h : Starts F i) : MaximalRun F (i, runFrom F bound i) := by
  obtain ⟨hall, hend⟩ := runFrom_spec (F := F) bound i
  have hright : F (i + runFrom F bound i) = false := by
    by_cases hfull : runFrom F bound i < bound
    · exact hend hfull
    · rw [← Bool.not_eq_true]
      intro hin
      have := hF _ hin
      omega
  refine ⟨?_, hall, h.2, hright⟩
  by_contra hzero
  dsimp only at hzero
  rw [Nat.eq_zero_of_not_pos hzero, Nat.add_zero, h.1] at hright
  cases hright

theorem mem_runsBelow : r ∈ runsBelow F bound n ↔ r.1 < n ∧ MaximalRun F r := by
  induction n with
  | zero => simp [runsBelow]
  | succ n ih =>
    rw [runsBelow, List.mem_append, ih]
    constructor
    · rintro (⟨hlt, hrun⟩ | hr)
      · exact ⟨by omega, hrun⟩
      · split_ifs at hr with hstart
        · rw [List.mem_singleton.mp hr]
          exact ⟨Nat.lt_succ_self n, maximalRun_of_starts hF hstart⟩
        · simp at hr
    · rintro ⟨hlt, hrun⟩
      by_cases hr : r.1 = n
      · right
        have hstart := hrun.starts
        rw [hr] at hstart
        rw [if_pos hstart, List.mem_singleton]
        exact hrun.eq (maximalRun_of_starts hF hstart) hr
      · exact .inl ⟨by omega, hrun⟩

/-- The runs come from left to right, with a gap between any two. -/
theorem ascending_runsBelow (n : ℕ) :
    (runsBelow F bound n).Pairwise fun r s => r.1 + r.2 < s.1 := by
  induction n with
  | zero => exact .nil
  | succ n ih =>
    rw [runsBelow]
    refine List.pairwise_append.mpr ⟨ih, ?_, ?_⟩
    · split_ifs
      · exact List.pairwise_singleton _ _
      · exact .nil
    · intro r hr s hs
      obtain ⟨hlt, hrun⟩ := (mem_runsBelow hF).mp hr
      split_ifs at hs with hstart
      · rw [List.mem_singleton.mp hs]
        exact hrun.lt_of_starts hstart hlt
      · simp at hs

theorem runsBelow_succ_of_maximalRun (h : MaximalRun F r) :
    runsBelow F bound (r.1 + 1) = runsBelow F bound r.1 ++ [r] := by
  rw [runsBelow, if_pos h.starts, h.eq (maximalRun_of_starts hF h.starts) rfl]

/-- Every element lies in a maximal run. -/
theorem exists_maximalRun {i : ℕ} (hi : F i = true) :
    ∃ r ∈ runsBelow F bound bound, r.1 ≤ i ∧ i < r.1 + r.2 := by
  have hstart : ∃ s ≤ i, Starts F s ∧ ∀ j, s ≤ j → j ≤ i → F j = true := by
    induction i with
    | zero => exact ⟨0, le_rfl, ⟨hi, .inl rfl⟩, fun j _ hj => by rwa [Nat.le_zero.mp hj]⟩
    | succ i ih =>
      by_cases hprev : F i = true
      · obtain ⟨s, hs, hstart, hall⟩ := ih hprev
        refine ⟨s, by omega, hstart, fun j hle hj => ?_⟩
        rcases Nat.lt_succ_iff_lt_or_eq.mp (Nat.lt_succ_of_le hj) with hlt | rfl
        · exact hall j hle (by omega)
        · exact hi
      · refine ⟨i + 1, le_rfl, ⟨hi, .inr (Bool.eq_false_iff.mpr hprev)⟩, fun j hle hj => ?_⟩
        rwa [Nat.le_antisymm hj hle]
  obtain ⟨s, hs, hstart, hall⟩ := hstart
  have hrun := maximalRun_of_starts hF hstart
  refine ⟨_, (mem_runsBelow hF).mpr ⟨hF s hstart.1, hrun⟩, hs, ?_⟩
  by_contra hout
  have := hall _ (Nat.le_add_right s (runFrom F bound s)) (Nat.not_lt.mp hout)
  rw [hrun.right] at this
  cases this

/-- There are no more elements than the runs are long together. -/
theorem card_le_sum_runsBelow :
    ((Finset.range bound).filter fun i => F i = true).card ≤
      ((runsBelow F bound bound).map Prod.snd).sum :=
  card_le_sum_of_cover _ _ fun _ hi => exists_maximalRun hF (Finset.mem_filter.mp hi).2

end Bounded

/-! ### Visitors -/

section Visit

variable {σ : Type} (visit : σ → ℕ → ℕ → σ × Bool)

/-- Show a visitor one run after the other until it stops: what it has made, and whether it
wants to see more. -/
def visitAll : σ → List (ℕ × ℕ) → σ × Bool
  | acc, [] => (acc, true)
  | acc, r :: rs =>
    if (visit acc r.1 r.2).2 then visitAll (visit acc r.1 r.2).1 rs
    else ((visit acc r.1 r.2).1, false)

theorem visitAll_append (acc : σ) (as bs : List (ℕ × ℕ)) :
    visitAll visit acc (as ++ bs) =
      if (visitAll visit acc as).2 then visitAll visit (visitAll visit acc as).1 bs
      else visitAll visit acc as := by
  induction as generalizing acc with
  | nil => rfl
  | cons r as ih =>
    rw [List.cons_append, visitAll, visitAll]
    by_cases hgo : (visit acc r.1 r.2).2
    · rw [if_pos hgo, if_pos hgo, ih]
    · rw [if_neg hgo, if_neg hgo]
      rfl

variable {visit}

/-- An invariant of the visitor, over the end of the last run it has seen. -/
theorem visitAll_rule {P : ℕ → σ → Prop} (hF : ∀ i, F i = true → i < bound)
    (hvisit : ∀ e acc start len, P e acc → e ≤ start → 0 < len →
      (∀ i, start ≤ i → i < start + len → F i = true) → P (start + len) (visit acc start len).1)
    {acc : σ} (hacc : P 0 acc) (n : ℕ) :
    ∃ e, P e (visitAll visit acc (runsBelow F bound n)).1 ∧ ∀ i, n ≤ i → Starts F i → e ≤ i := by
  induction n with
  | zero => exact ⟨0, hacc, fun i _ _ => Nat.zero_le i⟩
  | succ n ih =>
    obtain ⟨e, hP, he⟩ := ih
    rw [runsBelow, visitAll_append]
    split_ifs with hgo hstart
    · have hmax := maximalRun_of_starts hF hstart
      refine ⟨n + runFrom F bound n, ?_, fun i hi hnext => (hmax.lt_of_starts hnext hi).le⟩
      have hnew := hvisit e _ n _ hP (he n le_rfl hstart) hmax.pos hmax.all
      dsimp only [visitAll]
      split_ifs <;> exact hnew
    · exact ⟨e, hP, fun i hi => he i (by omega)⟩
    · exact ⟨e, hP, fun i hi => he i (by omega)⟩

end Visit

end Briefs.Lib
