import Mathlib.Tactic

/-!
# Calls that keep their state when they fail

A call takes a state and returns a result or an error together with the state
it leaves, so that what a failed call already changed stays visible.

`Triple ε P x Q` says that a call started where `P` holds either returns in a
state where `Q` holds or fails, and that it fails only if `ε`. With `ε := True`
it is partial correctness, with `ε := False` it also says that the call succeeds.
-/

namespace Briefs.Lib

/-- The error numbers the calls of this development return. -/
inductive Errno
  | eperm | enoent | eio | eexist | enotdir | eisdir | einval | enospc | erofs | enametoolong
  | enotempty | efbig | eopnotsupp
  deriving DecidableEq, Repr

/-- An error: an error number, a message, or either with a message in front of it. -/
inductive Err
  | errno (e : Errno)
  | text (msg : String)
  | wrap (context : String) (e : Err)
  | crash
  deriving DecidableEq, Repr

def Call (σ α : Type) : Type := σ → Except Err α × σ

namespace Call

variable {σ α β : Type}

instance : Monad (Call σ) where
  pure a := fun s => (.ok a, s)
  bind x f := fun s =>
    match x s with
    | (.ok a, t) => f a t
    | (.error e, t) => (.error e, t)

def fail (e : Err) : Call σ α := fun s => (.error e, s)

def read : Call σ σ := fun s => (.ok s, s)

def update (f : σ → σ) : Call σ Unit := fun s => (.ok (), f s)

def attempt (x : Call σ α) : Call σ (Except Err α) := fun s => (.ok (x s).1, (x s).2)

/-- Put `context` in front of the error of a failed call. -/
def context (msg : String) (x : Call σ α) : Call σ α := fun s =>
  match x s with
  | (.ok a, t) => (.ok a, t)
  | (.error e, t) => (.error (.wrap msg e), t)

/-- Run `x` and then change the state by `f`, also when `x` fails. -/
def ensuring (x : Call σ α) (f : σ → σ) : Call σ α := fun s => ((x s).1, f (x s).2)

/-- Make a call `n` times and return the results in order. -/
def times (x : Call σ α) : ℕ → Call σ (List α)
  | 0 => pure []
  | n + 1 => do
    let a ← x
    let as ← times x n
    pure (a :: as)

/-- Calls of `x`, one after the other, lead from `s` to `t` with these results. -/
inductive Repeats (x : Call σ α) : σ → List α → σ → Prop
  | nil {s : σ} : Repeats x s [] s
  | cons {s t u : σ} {a : α} {as : List α} : x s = (.ok a, t) → Repeats x t as u →
      Repeats x s (a :: as) u

def when (c : Prop) [Decidable c] (x : Call σ Unit) : Call σ Unit := if c then x else pure ()

/-- A call that starts in `P` returns in `Q` or fails, and fails only if `ε`. -/
def Triple (ε : Prop) (P : σ → Prop) (x : Call σ α) (Q : α → σ → Prop) : Prop :=
  ∀ s, P s →
    match x s with
    | (.ok a, t) => Q a t
    | (.error _, _) => ε

section Rules

variable {ε : Prop} {P : σ → Prop} {Q : α → σ → Prop} {R : β → σ → Prop} {x : Call σ α}
  {x y : Call σ α} {s : σ} {f : σ → σ}

theorem Triple.of_ok {s t : σ} {a : α} (h : Triple ε P x Q) (hP : P s)
    (hx : x s = (.ok a, t)) : Q a t := by
  have hs := h s hP
  rwa [hx] at hs

theorem Triple.succeeds (h : Triple False P x Q) (hP : P s) :
    ∃ a t, x s = (.ok a, t) ∧ Q a t := by
  have hs := h s hP
  rcases hx : x s with ⟨r, t⟩
  rw [hx] at hs
  cases r with
  | ok a => exact ⟨a, t, rfl, hs⟩
  | error e => exact hs.elim

theorem Triple.pure {a : α} (h : ∀ s, P s → Q a s) : Triple ε P (pure a : Call σ α) Q :=
  fun s hP => h s hP

theorem Triple.fail {e : Err} (h : ∀ s, P s → ε) : Triple ε P (fail e : Call σ α) Q :=
  fun s hP => h s hP

theorem Triple.update {Q : Unit → σ → Prop} (h : ∀ s, P s → Q () (f s)) :
    Triple ε P (Call.update f) Q :=
  fun s hP => h s hP

theorem Triple.bind {f : α → Call σ β} (hx : Triple ε P x Q)
    (hf : ∀ a, Triple ε (Q a) (f a) R) : Triple ε P (x >>= f) R := by
  intro s hP
  have hs := hx s hP
  change match (match x s with
    | (.ok a, t) => f a t
    | (.error e, t) => (.error e, t)) with
    | (.ok a, t) => R a t
    | (.error _, _) => ε
  rcases h : x s with ⟨r, t⟩
  rw [h] at hs
  cases r with
  | ok a => exact hf a t hs
  | error e => exact hs

theorem Triple.context {msg : String} (hx : Triple ε P x Q) :
    Triple ε P (Call.context msg x) Q := by
  intro s hP
  have hs := hx s hP
  unfold Call.context
  rcases h : x s with ⟨r, t⟩
  rw [h] at hs
  cases r <;> exact hs

theorem Triple.ensuring (hx : Triple ε P x fun a s => Q a (f s)) :
    Triple ε P (Call.ensuring x f) Q := by
  intro s hP
  have hs := hx s hP
  unfold Call.ensuring
  rcases h : x s with ⟨r, t⟩
  rw [h] at hs
  cases r <;> exact hs

theorem Triple.ite {c : Prop} [Decidable c]
    (hx : c → Triple ε P x Q) (hy : ¬ c → Triple ε P y Q) :
    Triple ε P (if c then x else y) Q := by
  split_ifs with hc
  · exact hx hc
  · exact hy hc

theorem Triple.when {c : Prop} [Decidable c] {x : Call σ Unit} {Q : Unit → σ → Prop}
    (hx : c → Triple ε P x Q) (hskip : ¬ c → ∀ s, P s → Q () s) :
    Triple ε P (Call.when c x) Q :=
  .ite hx fun hc => .pure (hskip hc)

theorem Triple.conseq {P' : σ → Prop} {Q' : α → σ → Prop} (hx : Triple ε P x Q)
    (hP : ∀ s, P' s → P s) (hQ : ∀ a s, Q a s → Q' a s) : Triple ε P' x Q' := by
  intro s hs
  have h := hx s (hP s hs)
  rcases hr : x s with ⟨r, t⟩
  rw [hr] at h
  cases r with
  | ok a => exact hQ a t h
  | error e => exact h

theorem Triple.weaken {δ : Prop} (hx : Triple ε P x Q) (h : ε → δ) :
    Triple δ P x Q := by
  intro s hs
  have hs' := hx s hs
  rcases hr : x s with ⟨r, t⟩
  rw [hr] at hs'
  cases r with
  | ok a => exact hs'
  | error e => exact h hs'

theorem Triple.times (hx : Triple ε (fun _ => True) x fun _ _ => True) (n : ℕ) :
    Triple ε (fun _ => True) (times x n) fun as _ => as.length = n := by
  induction n with
  | zero => exact .pure fun _ _ => rfl
  | succ n ih =>
    refine .bind hx fun a => .bind ih fun as => .pure fun _ hlen => ?_
    rw [List.length_cons, hlen]

theorem Triple.trivial (x : Call σ α) : Triple True (fun _ => True) x fun _ _ => True := by
  intro s _
  rcases x s with ⟨_ | _, _⟩ <;> exact True.intro

theorem context_congr {msg : String} (h : x s = y s) :
    Call.context msg x s = Call.context msg y s := by
  simp only [Call.context, h]

theorem ensuring_congr (h : x s = y s) :
    Call.ensuring x f s = Call.ensuring y f s := by
  simp only [Call.ensuring, h]

theorem when_congr {c : Prop} [Decidable c] {x y : Call σ Unit} (h : c → x s = y s) :
    Call.when c x s = Call.when c y s := by
  by_cases hc : c
  · simpa [Call.when, hc] using h hc
  · simp [Call.when, hc]

theorem bind_congr_left {f : α → Call σ β} (h : x s = y s) :
    (x >>= f) s = (y >>= f) s := by
  change (match x s with
    | (.ok a, t) => f a t
    | (.error e, t) => (.error e, t)) = _
  rw [h]
  rfl

/-- Two continuations that agree on what `x` returns under `P` make equal calls. -/
theorem bind_congr_of_triple {f g : α → Call σ β} (hx : Triple True P x Q)
    (hP : P s) (h : ∀ a t, Q a t → f a t = g a t) : (x >>= f) s = (x >>= g) s := by
  have hs := hx s hP
  change (match x s with
    | (.ok a, t) => f a t
    | (.error e, t) => (.error e, t)) = (match x s with
    | (.ok a, t) => g a t
    | (.error e, t) => (.error e, t))
  rcases hr : x s with ⟨r, t⟩
  rw [hr] at hs
  cases r with
  | ok a => exact h a t hs
  | error e => rfl

end Rules

/-- A call that cannot tell related states apart: it ends the same way from both, in
related states, and what it returns meets `Q`. -/
def Related (r : σ → σ → Prop) (x : Call σ α) (Q : α → Prop) : Prop :=
  ∀ s t, r s t → (x s).1 = (x t).1 ∧ r (x s).2 (x t).2 ∧ ∀ a, (x s).1 = .ok a → Q a

section Relational

variable {r : σ → σ → Prop} {Q : α → Prop} {Q' : β → Prop} {x : Call σ α} {f : α → Call σ β}
  {c : Prop}

theorem Related.pure {a : α} (h : Q a) : Related r (pure a : Call σ α) Q := by
  intro s t hst
  refine ⟨rfl, hst, fun b hb => ?_⟩
  cases hb
  exact h

theorem Related.fail {e : Err} : Related r (Call.fail e : Call σ α) Q :=
  fun _ _ hst => ⟨rfl, hst, fun _ h => by cases h⟩

theorem Related.update {f : σ → σ} {Q : Unit → Prop} (h : ∀ s t, r s t → r (f s) (f t))
    (hQ : Q ()) : Related r (Call.update f) Q :=
  fun s t hst => ⟨rfl, h s t hst, fun _ _ => hQ⟩

theorem bind_run {s : σ} :
    (x >>= f) s = match (x s).1 with
      | .ok a => f a (x s).2
      | .error e => (.error e, (x s).2) := by
  change (match x s with
    | (.ok a, t) => f a t
    | (.error e, t) => (.error e, t)) = _
  rcases x s with ⟨_ | _, _⟩ <;> rfl

theorem Related.bind (hx : Related r x Q)
    (hf : ∀ a, Q a → Related r (f a) Q') : Related r (x >>= f) Q' := by
  intro s t hst
  obtain ⟨hsame, hnext, hQ⟩ := hx s t hst
  rw [bind_run, bind_run, ← hsame]
  cases hres : (x s).1 with
  | ok a => exact hf a (hQ a hres) _ _ hnext
  | error e => exact ⟨rfl, hnext, fun _ h => by cases h⟩

/-- A call that does from two related states what one call would do. -/
theorem Related.of_local
    (h : ∀ s t, r s t → ∃ k, Related r k Q ∧ x s = k s ∧ x t = k t) : Related r x Q := by
  intro s t hst
  obtain ⟨k, hk, hs, ht⟩ := h s t hst
  rw [hs, ht]
  exact hk s t hst

/-- Reading what related states have in common. -/
theorem Related.read_bind {f : σ → Call σ β}
    (h : ∀ s t, r s t → Related r (f s) Q' ∧ f s t = f t t) : Related r (Call.read >>= f) Q' :=
  .of_local fun s t hst => ⟨f s, (h s t hst).1, rfl, (h s t hst).2.symm⟩

theorem Related.ite [Decidable c] {x y : Call σ α} (hx : c → Related r x Q)
    (hy : ¬ c → Related r y Q) : Related r (if c then x else y) Q := by
  split_ifs with h
  · exact hx h
  · exact hy h

theorem Related.when [Decidable c] {x : Call σ Unit} {Q : Unit → Prop}
    (hx : Related r x Q) (hQ : Q ()) : Related r (Call.when c x) Q :=
  .ite (fun _ => hx) fun _ => .pure hQ

theorem Related.attempt (hx : Related r x Q) :
    Related r (Call.attempt x) fun res => ∀ a, res = .ok a → Q a := by
  intro s t hst
  obtain ⟨hsame, hnext, hQ⟩ := hx s t hst
  refine ⟨congrArg Except.ok hsame, hnext, fun res hres a ha => ?_⟩
  cases hres
  exact hQ a ha

theorem Related.context {msg : String} (hx : Related r x Q) :
    Related r (Call.context msg x) Q := by
  intro s t hst
  obtain ⟨hsame, hnext, hQ⟩ := hx s t hst
  unfold Call.context
  rcases hs : x s with ⟨res, u⟩
  rcases ht : x t with ⟨res', v⟩
  rw [hs, ht] at hsame hnext
  rw [hs] at hQ
  obtain rfl : res = res' := hsame
  cases res with
  | ok a => exact ⟨rfl, hnext, hQ⟩
  | error e => exact ⟨rfl, hnext, fun _ h => by cases h⟩

/-- A call that cannot tell related states apart, whatever it returns. -/
def Blind (r : σ → σ → Prop) (x : Call σ α) : Prop := Related r x fun _ => True

theorem Related.blind (hx : Related r x Q) : Blind r x := by
  intro s t hst
  obtain ⟨hsame, hnext, -⟩ := hx s t hst
  exact ⟨hsame, hnext, fun _ _ => trivial⟩

theorem Blind.pure {a : α} : Blind r (pure a : Call σ α) := Related.pure trivial

theorem Blind.fail {e : Err} : Blind r (Call.fail e : Call σ α) := Related.fail

theorem Blind.update {f : σ → σ} (h : ∀ s t, r s t → r (f s) (f t)) : Blind r (Call.update f) :=
  Related.update h trivial

theorem Blind.bind (hx : Blind r x) (hf : ∀ a, Blind r (f a)) :
    Blind r (x >>= f) :=
  Related.bind hx fun a _ => hf a

theorem Blind.read_bind {f : σ → Call σ β}
    (h : ∀ s t, r s t → Blind r (f s) ∧ f s t = f t t) : Blind r (Call.read >>= f) :=
  Related.read_bind h

theorem Blind.ite [Decidable c] {x y : Call σ α} (hx : Blind r x) (hy : Blind r y) :
    Blind r (if c then x else y) :=
  Related.ite (fun _ => hx) fun _ => hy

theorem Blind.when [Decidable c] {x : Call σ Unit} (hx : Blind r x) :
    Blind r (Call.when c x) :=
  Related.when hx trivial

theorem Blind.attempt (hx : Blind r x) : Blind r (Call.attempt x) :=
  (Related.attempt hx).blind

theorem Blind.context {msg : String} (hx : Blind r x) :
    Blind r (Call.context msg x) :=
  Related.context hx

/-- What runs to its end from one state runs to the same end from a related one. -/
theorem Blind.of_ok {s s' t : σ} {a : α} (hx : Blind r x) (hs : r s s')
    (h : x s = (.ok a, t)) : ∃ t', x s' = (.ok a, t') ∧ r t t' := by
  obtain ⟨hsame, hnext, -⟩ := hx s s' hs
  rw [h] at hsame hnext
  exact ⟨(x s').2, Prod.ext hsame.symm rfl, hnext⟩

end Relational

theorem bind_of_ok {x : Call σ α} {f : α → Call σ β} {s t : σ} {a : α} (h : x s = (.ok a, t)) :
    (x >>= f) s = f a t := by
  rw [bind_run, h]

theorem exists_ok {x : Call σ α} {s : σ} (h : (x s).1.isOk = true) : ∃ a t, x s = (.ok a, t) := by
  rcases hx : x s with ⟨r, t⟩
  rw [hx] at h
  cases r with
  | ok a => exact ⟨a, t, rfl⟩
  | error e => exact absurd h Bool.false_ne_true

theorem pure_eq_ok {s t : σ} {a b : α} (h : (pure a : Call σ α) s = (.ok b, t)) : a = b ∧ s = t := by
  obtain ⟨hres, hstate⟩ := Prod.mk.inj h
  exact ⟨Except.ok.inj hres, hstate⟩

theorem check_eq_ok {c : Prop} [Decidable c] {e : Err} {s t : σ} {r : Unit}
    (h : when c (fail e) s = (.ok r, t)) : ¬c ∧ s = t := by
  unfold when at h
  split_ifs at h with hc
  · exact absurd (Prod.mk.inj h).1 (by simp)
  · exact ⟨hc, (pure_eq_ok h).2⟩

theorem context_eq_ok {msg : String} {x : Call σ α} {s t : σ} {a : α}
    (h : Call.context msg x s = (.ok a, t)) : x s = (.ok a, t) := by
  unfold Call.context at h
  rcases hx : x s with ⟨r, u⟩
  rw [hx] at h
  cases r with
  | ok b => exact h
  | error e => exact absurd (Prod.mk.inj h).1 (by simp)

theorem bind_eq_ok {x : Call σ α} {f : α → Call σ β} {s u : σ} {b : β}
    (h : (x >>= f) s = (.ok b, u)) : ∃ a t, x s = (.ok a, t) ∧ f a t = (.ok b, u) := by
  rw [bind_run] at h
  cases hres : (x s).1 with
  | ok a =>
    rw [hres] at h
    exact ⟨a, (x s).2, Prod.ext hres rfl, h⟩
  | error e =>
    rw [hres] at h
    cases h

/-- A call that goes on after a check has passed it. -/
theorem checked {c : Prop} [Decidable c] {e : Err} {f : Unit → Call σ β} {s t : σ} {b : β}
    (h : (when c (fail e) >>= f) s = (.ok b, t)) : ¬c ∧ f () s = (.ok b, t) := by
  obtain ⟨⟨⟩, s', hcheck, h⟩ := bind_eq_ok h
  obtain ⟨hc, rfl⟩ := check_eq_ok hcheck
  exact ⟨hc, h⟩

theorem Repeats.append {x : Call σ α} {s t u : σ} {as bs : List α} (h : Repeats x s as t)
    (h' : Repeats x t bs u) : Repeats x s (as ++ bs) u := by
  induction h with
  | nil => exact h'
  | cons hx _ ih => exact .cons hx (ih h')

theorem Repeats.of_context {msg : String} {x : Call σ α} {s t : σ} {as : List α}
    (h : Repeats (Call.context msg x) s as t) : Repeats x s as t := by
  induction h with
  | nil => exact .nil
  | cons hx _ ih => exact .cons (context_eq_ok hx) ih

theorem repeats_times {x : Call σ α} {n : ℕ} {s t : σ} {as : List α}
    (h : x.times n s = (.ok as, t)) : as.length = n ∧ Repeats x s as t := by
  induction n generalizing s as with
  | zero =>
    obtain ⟨rfl, rfl⟩ := pure_eq_ok h
    exact ⟨rfl, .nil⟩
  | succ n ih =>
    obtain ⟨a, u, ha, h⟩ := bind_eq_ok h
    obtain ⟨rest, v, hrest, h⟩ := bind_eq_ok h
    obtain ⟨rfl, rfl⟩ := pure_eq_ok h
    obtain ⟨hlen, hcalls⟩ := ih hrest
    exact ⟨by rw [List.length_cons, hlen], .cons ha hcalls⟩

end Call

end Briefs.Lib
