import Mathlib.Tactic

/-!
# Binary search

The search for the first index of a list whose entry passes a test, by halving. On a
list in which a passing entry is followed by passing ones only, the index splits the
list into the entries that fail and those that pass.
-/

namespace Briefs.Lib

/-- The search between `i` and `j`, with the number of halvings that are left. -/
def searchFrom (f : ℕ → Bool) : ℕ → ℕ → ℕ → ℕ
  | 0, i, _ => i
  | fuel + 1, i, j =>
    if i < j then
      if f ((i + j) / 2) then searchFrom f fuel i ((i + j) / 2)
      else searchFrom f fuel ((i + j) / 2 + 1) j
    else i

variable {α : Type}

/-- The first index whose entry passes, or the length. -/
def search (l : List α) (p : α → Bool) : ℕ :=
  searchFrom (fun i => l[i]?.any p) l.length 0 l.length

/-- Whatever passes is followed by passing entries only. -/
def Upward (p : α → Bool) (l : List α) : Prop := l.Pairwise fun a b => p a = true → p b = true

theorem searchFrom_spec {f : ℕ → Bool} {n : ℕ}
    (hf : ∀ i j, i ≤ j → j < n → f i = true → f j = true) (fuel i j : ℕ) (hij : i ≤ j) (hj : j ≤ n)
    (hfuel : j - i ≤ fuel) (hlow : ∀ k < i, f k = false) (hhigh : ∀ k, j ≤ k → k < n → f k = true) :
    searchFrom f fuel i j ≤ n ∧ (∀ k < searchFrom f fuel i j, f k = false) ∧
      ∀ k, searchFrom f fuel i j ≤ k → k < n → f k = true := by
  induction fuel generalizing i j with
  | zero =>
    have heq : i = j := by omega
    subst heq
    exact ⟨hj, hlow, hhigh⟩
  | succ fuel ih =>
    rw [searchFrom]
    by_cases hlt : i < j
    · rw [if_pos hlt]
      cases hpass : f ((i + j) / 2) with
      | true =>
        rw [if_pos rfl]
        refine ih i _ (by omega) (by omega) (by omega) hlow ?_
        intro k hk hkn
        exact hf _ k hk hkn hpass
      | false =>
        rw [if_neg Bool.false_ne_true]
        refine ih _ j (by omega) hj (by omega) ?_ hhigh
        intro k hk
        by_contra hne
        have hmore := hf k ((i + j) / 2) (by omega) (by omega) (Bool.eq_true_of_not_eq_false hne)
        rw [hpass] at hmore
        exact Bool.false_ne_true hmore
    · rw [if_neg hlt]
      have heq : i = j := by omega
      subst heq
      exact ⟨hj, hlow, hhigh⟩

theorem any_getElem? {l : List α} {p : α → Bool} {i : ℕ} (hi : i < l.length) :
    l[i]?.any p = p l[i] := by
  rw [List.getElem?_eq_getElem hi, Option.any_some]

theorem search_spec {l : List α} {p : α → Bool} (h : Upward p l) :
    search l p ≤ l.length ∧ (∀ k < search l p, l[k]?.any p = false) ∧
      ∀ k, search l p ≤ k → k < l.length → l[k]?.any p = true := by
  apply searchFrom_spec
  · intro i j hij hj hi
    rcases hij.eq_or_lt with rfl | hlt
    · exact hi
    · rw [any_getElem? (hlt.trans hj)] at hi
      rw [any_getElem? hj]
      exact List.pairwise_iff_getElem.mp h i j (hlt.trans hj) hj hlt hi
  · exact Nat.zero_le _
  · exact le_rfl
  · omega
  · intro k hk
    exact absurd hk (Nat.not_lt_zero k)
  · intro k hk hlt
    omega

/-- What stands before the index fails. -/
theorem forall_take_search {l : List α} {p : α → Bool} (h : Upward p l) :
    ∀ x ∈ l.take (search l p), p x = false := by
  intro x hx
  obtain ⟨i, hi, rfl⟩ := List.mem_iff_getElem.mp hx
  rw [List.length_take] at hi
  have := (search_spec h).2.1 i (by omega)
  rwa [any_getElem? (by omega), ← List.getElem_take] at this

/-- What stands from the index on passes. -/
theorem forall_drop_search {l : List α} {p : α → Bool} (h : Upward p l) :
    ∀ x ∈ l.drop (search l p), p x = true := by
  intro x hx
  obtain ⟨i, hi, rfl⟩ := List.mem_iff_getElem.mp hx
  rw [List.length_drop] at hi
  have := (search_spec h).2.2 (search l p + i) (by omega) (by omega)
  rwa [any_getElem? (by omega), ← List.getElem_drop] at this

end Briefs.Lib
