import Mathlib.Tactic

/-!
# Runs of a labelled step relation

`Run step s as t` is a run from `s` to `t` that takes the labels `as` in order.
`Always step P s as` says that every step taken along it meets `P`. The rules at
the end are the ones the rest of the development uses: an invariant of the good
steps holds after every run of good steps, a property that each step has exactly
when it is good holds along a run exactly when all its steps are good, and so
does a property of the reached state that a bad step destroys for good.
-/

namespace Briefs.Lib

variable {σ α : Type} (step : σ → α → σ → Prop) {as : List α} {P : σ → α → σ → Prop}

inductive Run : σ → List α → σ → Prop
  | nil (s : σ) : Run s [] s
  | snoc {s t u : σ} {as : List α} {a : α} : Run s as t → step t a u → Run s (as ++ [a]) u

/-- Every step of the run of `as` from `s` meets `P`. -/
def Always (P : σ → α → σ → Prop) (s : σ) (as : List α) : Prop :=
  ∀ before a after t u, as = before ++ a :: after → Run step s before t → step t a u → P t a u

variable {step}

theorem run_nil {s t : σ} : Run step s [] t ↔ s = t := by
  constructor
  · intro h
    generalize has : ([] : List α) = as at h
    cases h with
    | nil => rfl
    | snoc => simp at has
  · rintro rfl
    exact .nil s

theorem run_snoc {s u : σ} {a : α} :
    Run step s (as ++ [a]) u ↔ ∃ t, Run step s as t ∧ step t a u := by
  constructor
  · intro h
    generalize has : as ++ [a] = bs at h
    cases h with
    | nil => simp at has
    | @snoc t _ as' a' hrun hstep =>
      obtain ⟨rfl, rfl⟩ := by simpa using List.append_inj' has rfl
      exact ⟨t, hrun, hstep⟩
  · rintro ⟨t, hrun, hstep⟩
    exact .snoc hrun hstep

theorem run_append {s u : σ} {as bs : List α} :
    Run step s (as ++ bs) u ↔ ∃ t, Run step s as t ∧ Run step t bs u := by
  induction bs using List.reverseRecOn generalizing u with
  | nil => simp [run_nil]
  | append_singleton bs b ih =>
    rw [← List.append_assoc, run_snoc]
    constructor
    · rintro ⟨t, h, hstep⟩
      obtain ⟨w, hw, hwt⟩ := ih.mp h
      exact ⟨w, hw, .snoc hwt hstep⟩
    · rintro ⟨w, hw, h⟩
      obtain ⟨t, hwt, hstep⟩ := run_snoc.mp h
      exact ⟨t, ih.mpr ⟨w, hw, hwt⟩, hstep⟩

theorem always_nil (P : σ → α → σ → Prop) (s : σ) : Always step P s [] := by
  intro before a after t u h
  simp at h

theorem always_of_mem {s : σ}
    (h : ∀ a ∈ as, ∀ t u, P t a u) : Always step P s as := by
  rintro before a after t u rfl - -
  exact h a (by simp) t u

theorem always_snoc {s : σ} {a : α} :
    Always step P s (as ++ [a]) ↔
      Always step P s as ∧ ∀ t u, Run step s as t → step t a u → P t a u := by
  constructor
  · intro h
    refine ⟨fun before b after t u has => h before b (after ++ [a]) t u (by simp [has]), ?_⟩
    intro t u hrun hstep
    exact h as a [] t u rfl hrun hstep
  · rintro ⟨hinit, hlast⟩ before b after t u has hrun hstep
    rcases List.eq_nil_or_concat' after with rfl | ⟨after', c, rfl⟩
    · obtain ⟨rfl, rfl⟩ := by simpa using List.append_inj' has rfl
      exact hlast t u hrun hstep
    · have hsplit : as ++ [a] = (before ++ b :: after') ++ [c] := by simpa using has
      obtain ⟨rfl, rfl⟩ := by simpa using List.append_inj' hsplit rfl
      exact hinit before b after' t u rfl hrun hstep

theorem run_cons {s u : σ} {a : α} :
    Run step s (a :: as) u ↔ ∃ t, step s a t ∧ Run step t as u := by
  have h := @run_append _ _ step s u [a] as
  rw [List.singleton_append] at h
  rw [h]
  constructor
  · rintro ⟨t, ht, hrun⟩
    obtain ⟨s', hs', hstep⟩ := run_snoc.mp (List.nil_append [a] ▸ ht)
    obtain rfl := run_nil.mp hs'
    exact ⟨t, hstep, hrun⟩
  · rintro ⟨t, hstep, hrun⟩
    exact ⟨t, .snoc (.nil s) hstep, hrun⟩

theorem always_cons {s : σ} {a : α} :
    Always step P s (a :: as) ↔
      ∀ t, step s a t → P s a t ∧ Always step P t as := by
  constructor
  · intro h t hstep
    refine ⟨h [] a as s t rfl (.nil s) hstep, fun before b after u v has hrun => ?_⟩
    exact h (a :: before) b after u v (by simp [has]) (run_cons.mpr ⟨t, hstep, hrun⟩)
  · intro h before b after u v has hrun hstep
    cases before with
    | nil =>
      obtain ⟨rfl, rfl⟩ : a = b ∧ as = after := by simpa using has
      obtain rfl := run_nil.mp hrun
      exact (h v hstep).1
    | cons c before =>
      obtain ⟨rfl, rfl⟩ : a = c ∧ as = before ++ b :: after := by simpa using has
      obtain ⟨t, hfirst, hrest⟩ := run_cons.mp hrun
      exact (h t hfirst).2 before b after u v rfl hrest hstep

theorem run_of_foldlM {f : σ → α → Option σ} {s t : σ}
    (h : as.foldlM f s = some t) : Run (fun s a t => f s a = some t) s as t := by
  induction as generalizing s with
  | nil =>
    obtain rfl : s = t := by simpa using h
    exact .nil s
  | cons a as ih =>
    rw [List.foldlM_cons, Option.bind_eq_bind, Option.bind_eq_some_iff] at h
    obtain ⟨u, hu, hrest⟩ := h
    exact run_append.mpr ⟨u, .snoc (.nil s) hu, ih hrest⟩

/-- The check `g` passes at every step of the run of `as`. -/
def checked (f : σ → α → Option σ) (g : σ → α → Bool) (s : σ) : List α → Bool
  | [] => true
  | a :: as => g s a && ((f s a).map fun t => checked f g t as).getD true

theorem always_of_checked {f : σ → α → Option σ} {g : σ → α → Bool} {s : σ}
    (h : checked f g s as) : Always (fun s a t => f s a = some t) (fun s a _ => g s a = true) s as := by
  induction as generalizing s with
  | nil => exact always_nil _ _
  | cons a as ih =>
    obtain ⟨hfirst, hrest⟩ := by simpa only [checked, Bool.and_eq_true] using h
    refine always_cons.mpr fun t ht => ⟨hfirst, ih ?_⟩
    rw [ht] at hrest
    exact hrest

section Rules

variable {B I : σ → Prop} {G P : σ → α → σ → Prop} {s t : σ} {as : List α}

/-- What every step keeps holds after every run. -/
theorem Run.preserves (hrun : Run step s as t) (h0 : I s)
    (hstep : ∀ t a u, I t → step t a u → I u) : I t := by
  induction hrun with
  | nil => exact h0
  | @snoc t u as a hrun hlast ih => exact hstep t a u ih hlast

/-- What every good step keeps holds after a run of good steps. -/
theorem Run.invariant (hrun : Run step s as t) (hgood : Always step G s as) (h0 : I s)
    (hstep : ∀ t a u, I t → step t a u → G t a u → I u) : I t := by
  induction hrun with
  | nil => exact h0
  | @snoc t u as a hrun hlast ih =>
    obtain ⟨hinit, hfinal⟩ := always_snoc.mp hgood
    exact hstep t a u (ih hinit) hlast (hfinal t u hrun hlast)

/-- The same for what the run did so far and the state it reached. -/
theorem Run.invariant_trace {J : List α → σ → Prop} (hrun : Run step s as t)
    (hgood : Always step G s as) (h0 : J [] s)
    (hstep : ∀ bs t a u, J bs t → step t a u → G t a u → J (bs ++ [a]) u) : J as t := by
  induction hrun with
  | nil => exact h0
  | @snoc t u as a hrun hlast ih =>
    obtain ⟨hinit, hfinal⟩ := always_snoc.mp hgood
    exact hstep as t a u (ih hinit) hlast (hfinal t u hrun hlast)

/-- What every good step from the invariant meets holds along a run of good steps. -/
theorem Always.of_invariant (hgood : Always step G s as) (h0 : I s)
    (hstep : ∀ t a u, I t → step t a u → G t a u → I u)
    (hmeets : ∀ t a u, I t → step t a u → G t a u → P t a u) : Always step P s as := by
  rintro before a after t u rfl hrun hlast
  have hbefore : Always step G s before := fun b c d v w hsplit =>
    hgood b c (d ++ a :: after) v w (by simp [hsplit])
  exact hmeets t a u (hrun.invariant hbefore h0 hstep) hlast
    (hgood before a after t u rfl hrun hlast)

/-- A property that a step from the invariant has exactly when the step is good
holds along a run exactly when all its steps are good. -/
theorem Run.always_iff (hrun : Run step s as t) (h0 : I s)
    (hstep : ∀ t a u, I t → step t a u → G t a u → I u)
    (hiff : ∀ t a u, I t → step t a u → (P t a u ↔ G t a u)) :
    Always step P s as ↔ Always step G s as := by
  induction hrun with
  | nil => simp [always_nil]
  | @snoc t u as a hrun hlast ih =>
    rw [always_snoc, always_snoc, ih]
    refine and_congr_right fun hgood => ?_
    constructor
    · intro h t' u' hrun' hlast'
      exact (hiff t' a u' (hrun'.invariant hgood h0 hstep) hlast').mp (h t' u' hrun' hlast')
    · intro h t' u' hrun' hlast'
      exact (hiff t' a u' (hrun'.invariant hgood h0 hstep) hlast').mpr (h t' u' hrun' hlast')

theorem Run.det {u : σ} (hrun : Run step s as t) (hdet : ∀ t a u v, step t a u → step t a v → u = v)
    (hrun' : Run step s as u) : t = u := by
  induction hrun generalizing u with
  | nil => exact run_nil.mp hrun'
  | @snoc t v as a hrun hlast ih =>
    obtain ⟨t', ht', hlast'⟩ := run_snoc.mp hrun'
    obtain rfl := ih ht'
    exact hdet t a v u hlast hlast'

/-- A property that no step restores, that the invariant implies and that every bad
step destroys, holds after a deterministic run exactly when all its steps are good. -/
theorem Run.holds_iff {Q : σ → Prop} (hrun : Run step s as t)
    (hdet : ∀ t a u v, step t a u → step t a v → u = v) (hbase0 : B s) (h0 : I s)
    (hbase : ∀ t a u, B t → step t a u → B u)
    (hstep : ∀ t a u, I t → step t a u → G t a u → I u)
    (hinv : ∀ t, I t → Q t)
    (hbad : ∀ t a u, I t → step t a u → ¬ G t a u → ¬ Q u)
    (hmono : ∀ t a u, B t → step t a u → Q u → Q t) :
    Q t ↔ Always step G s as := by
  induction hrun with
  | nil => exact ⟨fun _ => always_nil _ _, fun _ => hinv s h0⟩
  | @snoc t u as a hrun hlast ih =>
    have hbaset : B t := hrun.preserves hbase0 hbase
    rw [always_snoc, ← ih]
    constructor
    · intro hu
      have ht : Q t := hmono t a u hbaset hlast hu
      have hinvt : I t := hrun.invariant (ih.mp ht) h0 hstep
      refine ⟨ht, fun t' u' hrun' hlast' => ?_⟩
      obtain rfl := hrun.det hdet hrun'
      obtain rfl := hdet t a u u' hlast hlast'
      by_contra hbad'
      exact hbad t a u hinvt hlast hbad' hu
    · rintro ⟨ht, hgood⟩
      have hinvt : I t := hrun.invariant (ih.mp ht) h0 hstep
      exact hinv u (hstep t a u hinvt hlast (hgood t u hrun hlast))

end Rules

end Briefs.Lib
