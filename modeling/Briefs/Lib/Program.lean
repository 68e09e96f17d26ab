import Briefs.Lib.Call
import Briefs.Lib.Run

/-!
# Programs over commands

A program is a tree of commands: each is performed by a machine, and what it
returns decides how the program goes on. A program that fails keeps what its
commands have done. `trace` is the list of commands a program performs from a
state, so that a run of programs is a run of the machine's steps, and what holds
of every command holds of every program.
-/

namespace Briefs.Lib

/-- Programs over the commands `C`; the command `c` returns an `R c`. -/
inductive Program (C : Type) (R : C → Type) (α : Type) : Type
  | done (a : α)
  | fail (e : Err)
  | call (c : C) (k : R c → Program C R α)

namespace Program

variable {C D σ τ α β : Type} {R : C → Type} {S : D → Type}

def bind (f : α → Program C R β) : Program C R α → Program C R β
  | .done a => f a
  | .fail e => .fail e
  | .call c k => .call c fun r => bind f (k r)

instance : Monad (Program C R) where
  pure := .done
  bind p f := p.bind f

def cmd (c : C) : Program C R (R c) := .call c .done

def attempt : Program C R α → Program C R (Except Err α)
  | .done a => .done (.ok a)
  | .fail e => .done (.error e)
  | .call c k => .call c fun r => attempt (k r)

/-- Put `msg` in front of the error of a failed program. -/
def context (msg : String) : Program C R α → Program C R α
  | .done a => .done a
  | .fail e => .fail (.wrap msg e)
  | .call c k => .call c fun r => context msg (k r)

def ofExcept : Except Err α → Program C R α
  | .ok a => .done a
  | .error e => .fail e

/-- Fail unless `c` holds. -/
def require (c : Prop) [Decidable c] (e : Err) : Program C R Unit :=
  if c then pure () else .fail e

def when (c : Prop) [Decidable c] (p : Program C R Unit) : Program C R Unit :=
  if c then p else pure ()

/-- The same program over the commands of a larger machine. -/
def embed (f : C → D) (back : ∀ c, S (f c) → R c) : Program C R α → Program D S α
  | .done a => .done a
  | .fail e => .fail e
  | .call c k => .call (f c) fun r => embed f back (k (back c r))

section Semantics

variable (exec : (c : C) → σ → R c × σ)

def run : Program C R α → σ → Except Err α × σ
  | .done a, s => (.ok a, s)
  | .fail e, s => (.error e, s)
  | .call c k, s =>
    match exec c s with
    | (r, t) => run (k r) t

def trace : Program C R α → σ → List C
  | .done _, _ => []
  | .fail _, _ => []
  | .call c k, s =>
    match exec c s with
    | (r, t) => c :: trace (k r) t

/-- The commands of several programs, one after the other, whether or not they fail. -/
def traceAll : List (Program C R Unit) → σ → List C
  | [], _ => []
  | p :: ps, s => p.trace exec s ++ traceAll ps (p.run exec s).2

def runAll : List (Program C R Unit) → σ → σ
  | [], s => s
  | p :: ps, s => runAll ps (p.run exec s).2

/-- One command of the machine, as a step. -/
def Steps (s : σ) (c : C) (t : σ) : Prop := (exec c s).2 = t

variable {exec}

/-- The trace of a program leads to the state the program leaves. -/
theorem run_trace (p : Program C R α) (s : σ) :
    Run (Steps exec) s (p.trace exec s) (p.run exec s).2 := by
  induction p generalizing s with
  | done a => exact .nil s
  | fail e => exact .nil s
  | call c k ih => exact run_cons.mpr ⟨(exec c s).2, rfl, ih (exec c s).1 (exec c s).2⟩

theorem run_traceAll (ps : List (Program C R Unit)) (s : σ) :
    Run (Steps exec) s (traceAll exec ps s) (runAll exec ps s) := by
  induction ps generalizing s with
  | nil => exact .nil s
  | cons p ps ih => exact run_append.mpr ⟨(p.run exec s).2, run_trace p s, ih _⟩

theorem run_bind (p : Program C R α) (f : α → Program C R β) (s : σ) :
    (p >>= f).run exec s =
      match p.run exec s with
      | (.ok a, t) => (f a).run exec t
      | (.error e, t) => (.error e, t) := by
  induction p generalizing s with
  | done a => rfl
  | fail e => rfl
  | call c k ih => exact ih _ _

theorem run_bind_of_ok {p : Program C R α} {f : α → Program C R β} {s t : σ} {a : α}
    (h : p.run exec s = (.ok a, t)) : (p >>= f).run exec s = (f a).run exec t := by
  rw [run_bind, h]

/-- The check `P` passes at every command of `cs`. -/
def checks (exec : (c : C) → σ → R c × σ) (P : σ → C → σ → Bool) : σ → List C → Bool
  | _, [] => true
  | s, c :: cs => P s c (exec c s).2 && checks exec P (exec c s).2 cs

theorem always_of_checks {P : σ → C → σ → Bool} {s : σ} {cs : List C}
    (h : checks exec P s cs) : Always (Steps exec) (fun s c t => P s c t = true) s cs := by
  induction cs generalizing s with
  | nil => exact always_nil _ _
  | cons c cs ih =>
    obtain ⟨hfirst, hrest⟩ := by simpa only [checks, Bool.and_eq_true] using h
    refine always_cons.mpr fun t ht => ?_
    cases ht
    exact ⟨hfirst, ih hrest⟩

/-- An embedded program runs as the program does on the part of the machine it names. -/
theorem run_embed {big : (d : D) → σ → S d × σ} {f : C → D} {back : ∀ c, S (f c) → R c}
    (p : Program C R α) (s : σ) :
    (p.embed f back).run big s = p.run (fun c s => (back c (big (f c) s).1, (big (f c) s).2)) s := by
  induction p generalizing s with
  | done a => rfl
  | fail e => rfl
  | call c k ih => exact ih _ _

/-- Two machines whose commands return the same and keep a relation of the states run
every program to the same end, in related states. -/
theorem run_related {other : (c : C) → τ → R c × τ} {rel : σ → τ → Prop}
    (h : ∀ c s t, rel s t → (exec c s).1 = (other c t).1 ∧ rel (exec c s).2 (other c t).2)
    (p : Program C R α) {s : σ} {t : τ} (hst : rel s t) :
    (p.run exec s).1 = (p.run other t).1 ∧ rel (p.run exec s).2 (p.run other t).2 := by
  induction p generalizing s t with
  | done a => exact ⟨rfl, hst⟩
  | fail e => exact ⟨rfl, hst⟩
  | call c k ih =>
    obtain ⟨hret, hnext⟩ := h c s t hst
    simp only [run]
    rw [hret]
    exact ih _ hnext

end Semantics

end Program

end Briefs.Lib
