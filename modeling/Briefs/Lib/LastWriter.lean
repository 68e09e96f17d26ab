import Mathlib.Tactic

/-!
# The last record counts

A value that each record sets or leaves alone. What it is after all records is settled by the
last one that sets it, so going through them again from any point on the way ends the same.
-/

namespace Briefs.Lib

variable {ρ β : Type} (mark : ρ → Option β)

/-- The value after the records. -/
def told (rs : List ρ) (b : β) : β := rs.foldl (fun b r => (mark r).getD b) b

variable {mark} {rs sub : List ρ} {b : β}

theorem told_cons (r : ρ) (rs : List ρ) (b : β) :
    told mark (r :: rs) b = told mark rs ((mark r).getD b) := rfl

theorem told_append (as bs : List ρ) (b : β) :
    told mark (as ++ bs) b = told mark bs (told mark as b) := List.foldl_append

theorem told_of_silent (h : ∀ r ∈ rs, mark r = none) : told mark rs b = b := by
  induction rs with
  | nil => rfl
  | cons r rs ih =>
    obtain ⟨hr, hrs⟩ := List.forall_mem_cons.mp h
    rw [told_cons, hr, Option.getD_none, ih hrs]

/-- Once a record sets the value, what it was before does not matter. -/
theorem told_congr (h : ∃ r ∈ rs, mark r ≠ none) (b b' : β) :
    told mark rs b = told mark rs b' := by
  induction rs generalizing b b' with
  | nil => simp at h
  | cons r rs ih =>
    rw [told_cons, told_cons]
    cases hr : mark r with
    | some c => rfl
    | none =>
      obtain ⟨r', hr', hset⟩ := h
      rcases List.mem_cons.mp hr' with rfl | hr'
      · exact absurd hr hset
      · exact ih ⟨r', hr', hset⟩ b b'

/-- Some of the records first, and then all of them. -/
theorem told_told (hsub : sub ⊆ rs) : told mark rs (told mark sub b) = told mark rs b := by
  by_cases h : ∃ r ∈ rs, mark r ≠ none
  · exact told_congr h _ _
  · push Not at h
    rw [told_of_silent fun r hr => h r (hsub hr)]

end Briefs.Lib
