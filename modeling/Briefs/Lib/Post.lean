import Briefs.Lib.Program

/-!
# Postconditions of programs

`p.Post exec Q E s` says of the run of `p` from `s` that it returns a value that meets
`Q` or fails with an error that meets `E`, in both cases together with the state it
leaves. A program whose errors meet `never` returns; where errors need only meet `anyway`
nothing is said about a run that fails.
-/

namespace Briefs.Lib.Program

variable {C σ α β : Type} {R : C → Type} {exec : (c : C) → σ → R c × σ} {f : α → Program C R β}

def Post (exec : (c : C) → σ → R c × σ) (p : Program C R α) (Q : α → σ → Prop)
    (E : Err → σ → Prop) (s : σ) : Prop :=
  match p.run exec s with
  | (.ok a, t) => Q a t
  | (.error e, t) => E e t

/-- No error at all. -/
def never (_ : Err) (_ : σ) : Prop := False

variable {Q Q' : α → σ → Prop} {E E' : Err → σ → Prop} {s : σ} {p : Program C R α}

@[simp] theorem post_done {a : α} : Post exec (.done a) Q E s ↔ Q a s := Iff.rfl

@[simp] theorem post_fail {e : Err} : Post exec (.fail e) Q E s ↔ E e s := Iff.rfl

@[simp] theorem post_pure {a : α} : Post exec (pure a) Q E s ↔ Q a s := Iff.rfl

@[simp] theorem post_cmd {c : C} {Q : R c → σ → Prop} :
    Post exec (cmd c) Q E s ↔ Q (exec c s).1 (exec c s).2 := Iff.rfl

theorem post_bind {Q : β → σ → Prop} :
    Post exec (p >>= f) Q E s ↔ Post exec p (fun a => Post exec (f a) Q E) E s := by
  induction p generalizing s with
  | done a => rfl
  | fail e => rfl
  | call c k ih => exact ih _

theorem post_attempt {Q : Except Err α → σ → Prop} :
    Post exec p.attempt Q E s ↔ Post exec p (fun a => Q (.ok a)) (fun e => Q (.error e)) s := by
  induction p generalizing s with
  | done a => rfl
  | fail e => rfl
  | call c k ih => exact ih _

theorem post_context {msg : String} :
    Post exec (p.context msg) Q E s ↔ Post exec p Q (fun e => E (.wrap msg e)) s := by
  induction p generalizing s with
  | done a => rfl
  | fail e => rfl
  | call c k ih => exact ih _

theorem post_ite {c : Prop} [Decidable c] {q : Program C R α} :
    Post exec (if c then p else q) Q E s ↔
      (c → Post exec p Q E s) ∧ (¬ c → Post exec q Q E s) := by
  split_ifs with h <;> simp [h]

theorem post_when {c : Prop} [Decidable c] {p : Program C R Unit} {Q : Unit → σ → Prop} :
    Post exec (Program.when c p) Q E s ↔ (c → Post exec p Q E s) ∧ (¬ c → Q () s) :=
  post_ite

theorem post_require {c : Prop} [Decidable c] {e : Err} {Q : Unit → σ → Prop} :
    Post exec (require c e) Q E s ↔ (c → Q () s) ∧ (¬ c → E e s) :=
  post_ite

theorem Post.cases (h : Post exec p Q E s) :
    (∃ a t, p.run exec s = (.ok a, t) ∧ Q a t) ∨ ∃ e t, p.run exec s = (.error e, t) ∧ E e t := by
  unfold Post at h
  split at h
  · exact .inl ⟨_, _, ‹_›, h⟩
  · exact .inr ⟨_, _, ‹_›, h⟩

theorem Post.mono (h : Post exec p Q E s) (hQ : ∀ a t, Q a t → Q' a t)
    (hE : ∀ e t, E e t → E' e t) : Post exec p Q' E' s := by
  unfold Post at h ⊢
  split at h
  · exact hQ _ _ h
  · exact hE _ _ h

theorem Post.returns (h : Post exec p Q never s) (hQ : ∀ a t, Q a t → Q' a t) :
    Post exec p Q' E s :=
  h.mono hQ fun _ _ h => h.elim

theorem Post.bind {Q' : β → σ → Prop} (h : Post exec p Q E s)
    (hE : ∀ e t, E e t → E' e t) (hf : ∀ a t, Q a t → Post exec (f a) Q' E' t) :
    Post exec (p >>= f) Q' E' s :=
  post_bind.mpr (h.mono hf hE)

theorem Post.andThen {Q' : β → σ → Prop} (h : Post exec p Q never s)
    (hf : ∀ a t, Q a t → Post exec (f a) Q' E t) : Post exec (p >>= f) Q' E s :=
  h.bind (fun _ _ h => h.elim) hf

end Briefs.Lib.Program
