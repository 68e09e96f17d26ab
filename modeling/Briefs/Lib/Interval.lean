import Mathlib.Tactic

/-!
# Intervals of natural numbers

An interval is a start and a length. `Tiles a b l` says that the intervals of `l`, in
their order, cut `[a, b)` into pieces.
-/

namespace Briefs.Lib

def Within (x : ℕ) (i : ℕ × ℕ) : Prop := i.1 ≤ x ∧ x < i.1 + i.2

instance (x : ℕ) (i : ℕ × ℕ) : Decidable (Within x i) := inferInstanceAs (Decidable (_ ∧ _))

def Tiles : ℕ → ℕ → List (ℕ × ℕ) → Prop
  | a, b, [] => a = b
  | a, b, i :: l => i.1 = a ∧ 0 < i.2 ∧ Tiles (a + i.2) b l

instance decidableTiles : ∀ a b l, Decidable (Tiles a b l)
  | a, b, [] => inferInstanceAs (Decidable (a = b))
  | a, b, i :: l =>
    have := decidableTiles (a + i.2) b l
    inferInstanceAs (Decidable (_ ∧ _ ∧ _))

end Briefs.Lib
