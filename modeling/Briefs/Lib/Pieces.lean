import Briefs.Lib.Search

/-!
# Maps given piece by piece

A list of pieces, each with the range of positions it holds and a value for every one of
them, stands for a partial map. Pieces that follow one another without overlap give every
position at most one value, and the piece of a position is found by binary search.
-/

namespace Briefs.Lib

/-- How an entry holds the positions from `lo` up to, not including, `hi`. -/
structure Pieces (α β : Type) where
  lo : α → ℕ
  hi : α → ℕ
  val : α → ℕ → β

namespace Pieces

variable {α β : Type} (S : Pieces α β)

def Has (a : α) (k : ℕ) : Prop := S.lo a ≤ k ∧ k < S.hi a

instance (a : α) (k : ℕ) : Decidable (S.Has a k) := inferInstanceAs (Decidable (_ ∧ _))

/-- The pieces stand in the order of their positions, do not overlap and are not empty. -/
structure Ordered (l : List α) : Prop where
  apart : l.Pairwise fun a b => S.hi a ≤ S.lo b
  nonempty : ∀ a ∈ l, S.lo a < S.hi a

def At (l : List α) (k : ℕ) (v : β) : Prop := ∃ a ∈ l, S.Has a k ∧ S.val a k = v

def Gap (l : List α) (k : ℕ) : Prop := ∀ a ∈ l, ¬S.Has a k

/-- `l'` is in order and gives the positions the values they have in `l`. -/
structure Recut (l l' : List α) : Prop where
  ordered : S.Ordered l'
  same : ∀ k v, S.At l' k v ↔ S.At l k v

/-- The piece of a position, by binary search. -/
def locate (l : List α) (k : ℕ) : Option α :=
  match (l.take (search l fun a => k < S.lo a)).getLast? with
  | some a => if k < S.hi a then some a else none
  | none => none

section Lists

variable {S} {l l' : List α} {a : α} {k : ℕ} {v w : β}

theorem at_nil : ¬S.At [] k v := by
  rintro ⟨a, ha, -⟩
  exact List.not_mem_nil ha

theorem at_cons : S.At (a :: l) k v ↔ S.Has a k ∧ S.val a k = v ∨ S.At l k v := by
  simp only [At, List.mem_cons, exists_eq_or_imp]

theorem at_append : S.At (l ++ l') k v ↔ S.At l k v ∨ S.At l' k v := by
  simp only [At, List.mem_append, or_and_right, exists_or]

theorem at_flatMap {f : α → List α} : S.At (l.flatMap f) k v ↔ ∃ a ∈ l, S.At (f a) k v := by
  constructor
  · rintro ⟨x, hx, hval⟩
    obtain ⟨a, ha, hxa⟩ := List.mem_flatMap.mp hx
    exact ⟨a, ha, x, hxa, hval⟩
  · rintro ⟨a, ha, x, hxa, hval⟩
    exact ⟨x, List.mem_flatMap.mpr ⟨a, ha, hxa⟩, hval⟩

theorem ordered_nil : S.Ordered [] := ⟨List.Pairwise.nil, by simp⟩

theorem ordered_cons : S.Ordered (a :: l) ↔
    S.lo a < S.hi a ∧ (∀ b ∈ l, S.hi a ≤ S.lo b) ∧ S.Ordered l := by
  constructor
  · rintro ⟨hapart, hne⟩
    obtain ⟨hfirst, hrest⟩ := List.pairwise_cons.mp hapart
    obtain ⟨ha, hl⟩ := List.forall_mem_cons.mp hne
    exact ⟨ha, hfirst, hrest, hl⟩
  · rintro ⟨ha, hfirst, hrest, hl⟩
    exact ⟨List.pairwise_cons.mpr ⟨hfirst, hrest⟩, List.forall_mem_cons.mpr ⟨ha, hl⟩⟩

theorem ordered_append : S.Ordered (l ++ l') ↔
    S.Ordered l ∧ S.Ordered l' ∧ ∀ a ∈ l, ∀ b ∈ l', S.hi a ≤ S.lo b := by
  constructor
  · rintro ⟨hapart, hne⟩
    obtain ⟨hl, hl', hcross⟩ := List.pairwise_append.mp hapart
    exact ⟨⟨hl, fun a ha => hne a (List.mem_append_left _ ha)⟩,
      ⟨hl', fun a ha => hne a (List.mem_append_right _ ha)⟩, hcross⟩
  · rintro ⟨hl, hl', hcross⟩
    refine ⟨List.pairwise_append.mpr ⟨hl.apart, hl'.apart, hcross⟩, ?_⟩
    intro a ha
    rcases List.mem_append.mp ha with ha | ha
    · exact hl.nonempty a ha
    · exact hl'.nonempty a ha

/-- Pieces cut out of ordered pieces, if the cuts of a piece stay before those of a later one. -/
theorem ordered_flatMap {f : α → List α} (h : S.Ordered l) (hf : ∀ a ∈ l, S.Ordered (f a))
    (hcross : ∀ a ∈ l, ∀ b ∈ l, S.hi a ≤ S.lo b → ∀ x ∈ f a, ∀ y ∈ f b, S.hi x ≤ S.lo y) :
    S.Ordered (l.flatMap f) := by
  refine ⟨?_, ?_⟩
  · apply List.pairwise_flatMap.mpr
    refine ⟨fun a ha => (hf a ha).apart, ?_⟩
    refine h.apart.imp_of_mem ?_
    intro a b ha hb hab
    exact hcross a ha b hb hab
  · intro x hx
    obtain ⟨a, ha, hxa⟩ := List.mem_flatMap.mp hx
    exact (hf a ha).nonempty x hxa

end Lists

namespace Ordered

variable {S} {l l' : List α} {a b : α} {k : ℕ} {v w : β}

/-- Two pieces that hold one position are the same piece. -/
theorem eq_of_has (h : S.Ordered l) (ha : a ∈ l) (hb : b ∈ l) (hak : S.Has a k)
    (hbk : S.Has b k) : a = b := by
  induction l with
  | nil => exact absurd ha List.not_mem_nil
  | cons c l ih =>
    obtain ⟨-, hfirst, hl⟩ := ordered_cons.mp h
    obtain ⟨hlo, hhi⟩ := hak
    obtain ⟨hlo', hhi'⟩ := hbk
    rcases List.mem_cons.mp ha with rfl | ha'
    · rcases List.mem_cons.mp hb with rfl | hb'
      · rfl
      · have := hfirst b hb'
        omega
    · rcases List.mem_cons.mp hb with rfl | hb'
      · have := hfirst a ha'
        omega
      · exact ih hl ha' hb'

theorem unique (h : S.Ordered l) (hv : S.At l k v) (hw : S.At l k w) : v = w := by
  obtain ⟨a, ha, hak, rfl⟩ := hv
  obtain ⟨b, hb, hbk, rfl⟩ := hw
  rw [h.eq_of_has ha hb hak hbk]

theorem recut (h : S.Ordered l) : S.Recut l l := ⟨h, fun _ _ => Iff.rfl⟩

theorem upward (h : S.Ordered l) (k : ℕ) : Upward (fun a => decide (k < S.lo a)) l := by
  refine h.apart.imp_of_mem ?_
  intro a b ha hb hab hk
  have := h.nonempty a ha
  simp only [decide_eq_true_eq] at hk ⊢
  omega

/-- The search finds the piece of a position, if there is one. -/
theorem locate_eq_some (h : S.Ordered l) : S.locate l k = some a ↔ a ∈ l ∧ S.Has a k := by
  set i := search l fun a => decide (k < S.lo a) with hi
  have hbefore := forall_take_search (h.upward k)
  have hafter := forall_drop_search (h.upward k)
  rw [← hi] at hbefore hafter
  simp only [decide_eq_false_iff_not, decide_eq_true_eq, not_lt] at hbefore hafter
  -- the last piece that starts at or before the position is the only candidate
  have hlast : a ∈ l → S.Has a k → (l.take i).getLast? = some a := by
    intro ha hak
    rw [← List.take_append_drop i l] at ha
    rcases List.mem_append.mp ha with ha | ha
    · obtain ⟨s, t, hst⟩ := List.append_of_mem ha
      rw [hst]
      cases t with
      | nil => simp
      | cons b t =>
        exfalso
        have hb : b ∈ l.take i := by simp [hst]
        have hlow := hbefore b hb
        have hord : S.Ordered (l.take i) :=
          ⟨h.apart.sublist (List.take_sublist i l), fun x hx => h.nonempty x (List.mem_of_mem_take hx)⟩
        rw [hst, ordered_append, ordered_cons] at hord
        have := hord.2.1.2.1 b List.mem_cons_self
        have := hak.2
        omega
    · have := hafter a ha
      have := hak.1
      omega
  unfold locate
  rw [← hi]
  constructor
  · intro heq
    cases hget : (l.take i).getLast? with
    | none => simp [hget] at heq
    | some b =>
      simp only [hget] at heq
      split_ifs at heq with hlt
      obtain rfl := Option.some.inj heq
      have hb : b ∈ l.take i := List.mem_of_getLast? hget
      exact ⟨List.mem_of_mem_take hb, hbefore b hb, hlt⟩
  · rintro ⟨ha, hak⟩
    simp only [hlast ha hak]
    rw [if_pos hak.2]

theorem locate_eq_none (h : S.Ordered l) : S.locate l k = none ↔ S.Gap l k := by
  rw [Option.eq_none_iff_forall_ne_some]
  constructor
  · intro hnone a ha hak
    exact hnone a (h.locate_eq_some.mpr ⟨ha, hak⟩)
  · intro hgap a heq
    obtain ⟨ha, hak⟩ := h.locate_eq_some.mp heq
    exact hgap a ha hak

end Ordered

namespace Recut

variable {S} {l m m' m'' : List α}

theorem trans (h : S.Recut m m') (h' : S.Recut m' m'') : S.Recut m m'' :=
  ⟨h'.ordered, fun k v => (h'.same k v).trans (h.same k v)⟩

/-- What stands in front of a list takes no part in a new cut of the list. -/
theorem append_left (h : S.Recut m m') (hlm : S.Ordered (l ++ m)) : S.Recut (l ++ m) (l ++ m') := by
  obtain ⟨hl, hm, hcross⟩ := ordered_append.mp hlm
  refine ⟨ordered_append.mpr ⟨hl, h.ordered, ?_⟩, ?_⟩
  · intro x hx y hy
    have hlt := h.ordered.nonempty y hy
    obtain ⟨z, hz, hzk, -⟩ := (h.same (S.lo y) _).mp ⟨y, hy, ⟨le_rfl, hlt⟩, rfl⟩
    exact (hcross x hx z hz).trans hzk.1
  · intro k v
    rw [at_append, at_append, h.same k v]

end Recut

end Pieces

end Briefs.Lib
