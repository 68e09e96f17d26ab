import Briefs.Lib.Post
import Briefs.Trie.Walk

/-!
# The visits of a walk

A walk over a trie only reads blocks, so it goes the same way on every machine that shows it
the same blocks. `Walks` are the visits it makes; what the loops over a walk return is then
a matter of those.
-/

namespace Briefs.Trie

open Lib Lib.Program

variable {σ τ α β : Type} {exec : (c : Cmd) → σ → c.Ret × σ} {other : (c : Cmd) → τ → c.Ret × τ}
  {s : σ} {t : τ} {blocks : ℕ → Content}

section Reads

/-- A program that does nothing but read blocks. -/
inductive Reads {α : Type} : Prog α → Prop
  | done (a : α) : Reads (.done a)
  | fail (e : Err) : Reads (.fail e)
  | call (block : ℕ) {k : Except Err Content → Prog α} (h : ∀ r, Reads (k r)) :
      Reads (.call (.readBlock block) k)

/-- In the state `s` of a machine the blocks read as in `blocks`. -/
def Serves (exec : (c : Cmd) → σ → c.Ret × σ) (blocks : ℕ → Content) (s : σ) : Prop :=
  ∀ block, exec (.readBlock block) s = ((blocks block).readable, s)

variable {p : Prog α}

theorem Reads.state_eq (h : Reads p) (hs : Serves exec blocks s) : (p.run exec s).2 = s := by
  induction h with
  | done a => rfl
  | fail e => rfl
  | call block h ih =>
    simp only [Program.run, hs block]
    exact ih _

/-- Machines that show the same blocks run a reader to the same end. -/
theorem Reads.agree (h : Reads p) (hs : Serves exec blocks s) (ht : Serves other blocks t) :
    (p.run exec s).1 = (p.run other t).1 := by
  induction h with
  | done a => rfl
  | fail e => rfl
  | call block h ih =>
    simp only [Program.run, hs block, ht block]
    exact ih _

theorem Reads.run_eq (h : Reads p) (hs : Serves exec blocks s) (ht : Serves other blocks t)
    {r : Except Err α} (hrun : p.run exec s = (r, s)) : p.run other t = (r, t) :=
  Prod.ext ((h.agree ht hs).trans (congrArg Prod.fst hrun)) (h.state_eq ht)

theorem Reads.bind {f : α → Prog β} (h : Reads p) (hf : ∀ a, Reads (f a)) : Reads (p >>= f) := by
  induction h with
  | done a => exact hf a
  | fail e => exact .fail e
  | call block h ih => exact .call block ih

theorem Reads.attempt (h : Reads p) : Reads p.attempt := by
  induction h with
  | done a => exact .done _
  | fail e => exact .done _
  | call block h ih => exact .call block ih

theorem Reads.ite {c : Prop} [Decidable c] {q : Prog α} (hp : Reads p) (hq : Reads q) :
    Reads (if c then p else q) := by
  split_ifs
  · exact hp
  · exact hq

theorem reads_readBlock (block : ℕ) : Reads (readBlock block) :=
  .call block fun r => match r with
    | .ok c => .done c
    | .error e => .fail e

variable {hook : NoteHook} {w : TrieWalker}

theorem reads_readNode (w : TrieWalker) (ref : Ref) : Reads (w.readNode readBlock hook ref) := by
  unfold TrieWalker.readNode
  split
  · exact .done _
  · refine (reads_readBlock _).attempt.bind fun r => ?_
    cases r with
    | error e => exact .done _
    | ok c => exact .done _

theorem reads_collectChildren (parent : Ref) (hops : ℕ) (child : Ref) (w : TrieWalker) :
    Reads (TrieWalker.collectChildren readBlock hook parent hops child w) := by
  induction hops generalizing child w with
  | zero =>
    unfold TrieWalker.collectChildren
    exact .ite (.done _) (.done _)
  | succ hops ih =>
    unfold TrieWalker.collectChildren
    refine .ite (.done _) ((reads_readBlock _).attempt.bind fun r => ?_)
    cases r with
    | error e => exact .done _
    | ok c =>
      dsimp only
      split
      · exact .done _
      · exact (ih _ _).bind fun r => .done _

theorem reads_next (hook : NoteHook) (fuel : ℕ) (w : TrieWalker) :
    Reads (w.next readBlock hook fuel) := by
  induction fuel generalizing w with
  | zero => exact .done _
  | succ fuel ih =>
    unfold TrieWalker.next
    refine .ite (.done _) ?_
    split
    · exact .done _
    · refine .ite (ih _) ((reads_readNode _ _).bind fun r => ?_)
      obtain ⟨_ | ⟨page, node⟩, w'⟩ := r
      · exact ih _
      · refine Reads.bind ?_ fun w'' => .done _
        unfold TrieWalker.schedule
        exact .ite (.done _) ((reads_collectChildren _ _ _ _).bind fun r => .done _)

theorem reads_walkTrieFrom (v : TrieVisitor α) (fuel : ℕ) (w : TrieWalker) (a : α) :
    Reads (walkTrieFrom readBlock v fuel w a) := by
  induction fuel generalizing w a with
  | zero => exact .done _
  | succ fuel ih =>
    unfold walkTrieFrom
    refine (reads_next _ _ _).bind fun r => ?_
    obtain ⟨_ | visit, w'⟩ := r
    · dsimp only
      split
      · exact .done _
      · exact .fail _
    · dsimp only
      split
      · exact .fail _
      · exact ih _ _
      · refine .ite ?_ (ih _ _)
        split
        · exact .fail _
        · exact ih _ _

end Reads

section Walks

/-- From `w` on the walk makes the visits `vs` and comes to its end. -/
def Walks (exec : (c : Cmd) → σ → c.Ret × σ) (hook : NoteHook) (s : σ) :
    TrieWalker → List Visit → Prop
  | w, [] => ∃ w', (w.next readBlock hook walkFuel).run exec s = (.ok (none, w'), s) ∧
      w'.abort = none
  | w, v :: vs => ∃ w', (w.next readBlock hook walkFuel).run exec s = (.ok (some v, w'), s) ∧
      Walks exec hook s w' vs

variable {hook : NoteHook} {w : TrieWalker} {vs : List Visit}

theorem Walks.of_serves (hs : Serves exec blocks s) (ht : Serves other blocks t)
    (h : Walks exec hook s w vs) : Walks other hook t w vs := by
  induction vs generalizing w with
  | nil =>
    obtain ⟨w', hrun, habort⟩ := h
    exact ⟨w', (reads_next _ _ _).run_eq hs ht hrun, habort⟩
  | cons v vs ih =>
    obtain ⟨w', hrun, hrest⟩ := h
    exact ⟨w', (reads_next _ _ _).run_eq hs ht hrun, ih hrest⟩

/-- The visits of a walk that comes to its end with `fuel` moves. -/
def visitsFrom (hook : NoteHook) : ℕ → TrieWalker → Prog (Option (List Visit))
  | 0, _ => pure none
  | fuel + 1, w => do
    match ← w.next readBlock hook walkFuel with
    | (none, w) => return if w.abort.isNone then some [] else none
    | (some v, w) => return (← visitsFrom hook fuel w).map (v :: ·)

theorem reads_visitsFrom (hook : NoteHook) (fuel : ℕ) (w : TrieWalker) :
    Reads (visitsFrom hook fuel w) := by
  induction fuel generalizing w with
  | zero => exact .done _
  | succ fuel ih =>
    unfold visitsFrom
    refine (reads_next _ _ _).bind fun r => ?_
    obtain ⟨_ | v, w'⟩ := r
    · exact .done _
    · exact (ih w').bind fun _ => .done _

theorem walks_of_visitsFrom (hs : Serves exec blocks s) (fuel : ℕ)
    (h : ((visitsFrom hook fuel w).run exec s).1 = .ok (some vs)) :
    Walks exec hook s w vs ∧ vs.length < fuel := by
  induction fuel generalizing w vs with
  | zero => cases h
  | succ fuel ih =>
    unfold visitsFrom at h
    have hstate := (reads_next hook walkFuel w).state_eq hs
    rcases hrun : (w.next readBlock hook walkFuel).run exec s with ⟨_ | ⟨_ | v, w'⟩, t⟩
    all_goals
      rw [hrun] at hstate
      obtain rfl : t = s := hstate
      rw [run_bind, hrun] at h
      dsimp only at h
    · cases h
    · split_ifs at h with habort
      · obtain rfl : [] = vs := Option.some.inj (Except.ok.inj h)
        exact ⟨⟨w', hrun, by simpa using habort⟩, by simp⟩
      · cases h
    · rw [run_bind] at h
      rcases hlater : (visitsFrom hook fuel w').run exec t with ⟨_ | later, u⟩
      · rw [hlater] at h
        cases h
      · rw [hlater] at h
        obtain ⟨vs', rfl, rfl⟩ : ∃ vs', later = some vs' ∧ v :: vs' = vs :=
          Option.map_eq_some_iff.mp (Except.ok.inj h)
        obtain ⟨hwalks, hlength⟩ := ih (congrArg Prod.fst hlater)
        exact ⟨⟨w', hrun, hwalks⟩, by simpa using hlength⟩

/-- The entry in a node, on the first visit to a leaf whose name can be read. -/
def Visit.entry (v : Visit) : Option (ℕ × ℕ × Bytes) :=
  if v.emitted || !v.node.isLeaf then none
  else
    match v.page.readName v.node.nameLen v.node.nameOffset with
    | .error _ => none
    | .ok name => some (v.node.inode, v.node.ftype, name)

/-- What `TrieIterator.Next` returns: the next entry among the visits ahead. -/
theorem Walks.iteratorNext (h : Walks exec .skip s w vs) (fuel : ℕ) (hfuel : vs.length < fuel) :
    (∃ w', (iteratorNext fuel w).run exec s = (.ok (none, w'), s) ∧
      vs.filterMap Visit.entry = []) ∨
    ∃ e w' vs', (iteratorNext fuel w).run exec s = (.ok (some e, w'), s) ∧
      Walks exec .skip s w' vs' ∧ vs'.length < vs.length ∧
      vs.filterMap Visit.entry = e :: vs'.filterMap Visit.entry := by
  induction vs generalizing fuel w with
  | nil =>
    obtain ⟨fuel, rfl⟩ : ∃ k, fuel = k + 1 := ⟨fuel - 1, by simp at hfuel; omega⟩
    obtain ⟨w', hrun, -⟩ := h
    exact .inl ⟨w', run_bind_of_ok hrun, rfl⟩
  | cons v vs ih =>
    obtain ⟨fuel, rfl⟩ : ∃ k, fuel = k + 1 := ⟨fuel - 1, by simp at hfuel; omega⟩
    obtain ⟨w', hrun, hrest⟩ := h
    have hlater := ih hrest fuel (by simpa using hfuel)
    have hskip : ∀ q : Prog (Option (ℕ × ℕ × Bytes) × TrieWalker), v.entry = none →
        q.run exec s = (Trie.iteratorNext fuel w').run exec s →
        (∃ w', q.run exec s = (.ok (none, w'), s) ∧ (v :: vs).filterMap Visit.entry = []) ∨
        ∃ e w' vs', q.run exec s = (.ok (some e, w'), s) ∧ Walks exec .skip s w' vs' ∧
          vs'.length < (v :: vs).length ∧
          (v :: vs).filterMap Visit.entry = e :: vs'.filterMap Visit.entry := by
      intro q hnone hq
      rw [hq, List.filterMap_cons_none hnone]
      rcases hlater with hend | ⟨e, w'', vs', hnext, hwalks, hlength, hentries⟩
      · exact .inl hend
      · exact .inr ⟨e, w'', vs', hnext, hwalks, by simp only [List.length_cons]; omega, hentries⟩
    unfold Trie.iteratorNext
    rw [run_bind_of_ok hrun]
    dsimp only
    by_cases hleaf : (v.emitted || !v.node.isLeaf) = true
    · rw [if_pos hleaf]
      exact hskip _ (by rw [Visit.entry, if_pos hleaf]) rfl
    · rw [if_neg hleaf]
      cases hname : v.page.readName v.node.nameLen v.node.nameOffset with
      | error e => exact hskip _ (by rw [Visit.entry, if_neg hleaf, hname]) rfl
      | ok name =>
        have hentry : v.entry = some (v.node.inode, v.node.ftype, name) := by
          rw [Visit.entry, if_neg hleaf, hname]
        exact .inr ⟨_, w', vs, rfl, hrest, by simp, List.filterMap_cons_some hentry⟩

/-- The entries `TrieIterator.Next` returns until it reports the end. -/
def listEntries : ℕ → TrieWalker → Prog (List (ℕ × ℕ × Bytes))
  | 0, _ => pure []
  | fuel + 1, w => do
    match ← iteratorNext walkFuel w with
    | (none, _) => return []
    | (some e, w) => return e :: (← listEntries fuel w)

theorem Walks.listEntries (h : Walks exec .skip s w vs) (fuel : ℕ) (hfuel : vs.length < fuel)
    (hvs : vs.length < walkFuel) :
    (listEntries fuel w).run exec s = (.ok (vs.filterMap Visit.entry), s) := by
  induction fuel generalizing w vs with
  | zero => simp at hfuel
  | succ fuel ih =>
    unfold Trie.listEntries
    rcases h.iteratorNext walkFuel hvs with ⟨w', hrun, hentries⟩ |
      ⟨e, w', vs', hrun, hwalks, hlength, hentries⟩
    · rw [run_bind_of_ok hrun, hentries]
      rfl
    · rw [run_bind_of_ok hrun, hentries]
      exact run_bind_of_ok (ih hwalks (by omega) (by omega))

/-- An entry with the inode number 0 ends the loop. -/
theorem Walks.iterateAll (h : Walks exec .skip s w vs) (fuel : ℕ) (hfuel : vs.length < fuel)
    (hvs : vs.length < walkFuel) :
    (iterateAll fuel w).run exec s =
      (.ok (((vs.filterMap Visit.entry).map fun e => (e.1, e.2.1)).takeWhile (·.1 ≠ 0)), s) := by
  induction fuel generalizing w vs with
  | zero => simp at hfuel
  | succ fuel ih =>
    unfold Trie.iterateAll
    rcases h.iteratorNext walkFuel hvs with ⟨w', hrun, hentries⟩ |
      ⟨e, w', vs', hrun, hwalks, hlength, hentries⟩
    · rw [run_bind_of_ok hrun, hentries]
      rfl
    · rw [run_bind_of_ok hrun, hentries]
      dsimp only
      rw [List.map_cons]
      by_cases hino : e.1 = 0
      · rw [if_pos hino, List.takeWhile_cons_of_neg (by simpa using hino)]
        rfl
      · rw [if_neg hino, run_bind_of_ok (ih hwalks (by omega) (by omega)),
          List.takeWhile_cons_of_pos (by simpa using hino)]
        rfl

/-- What a visitor makes of some visits. -/
def TrieVisitor.fold (v : TrieVisitor α) : List Visit → α → Except Err α
  | [], a => .ok a
  | visit :: vs, a =>
    match v.visitNode visit a with
    | .stop e => .error e
    | .skip a => v.fold vs a
    | .visit a =>
      if !visit.emitted && visit.node.isLeaf then
        match v.visitLeaf visit a with
        | .error e => .error e
        | .ok a => v.fold vs a
      else v.fold vs a

theorem Walks.walkTrieFrom {v : TrieVisitor α} (h : Walks exec v.note s w vs) (fuel : ℕ)
    (hfuel : vs.length < fuel) (a : α) :
    (walkTrieFrom readBlock v fuel w a).run exec s = (v.fold vs a, s) := by
  induction vs generalizing fuel w a with
  | nil =>
    obtain ⟨fuel, rfl⟩ : ∃ k, fuel = k + 1 := ⟨fuel - 1, by simp at hfuel; omega⟩
    obtain ⟨w', hrun, habort⟩ := h
    unfold Trie.walkTrieFrom
    rw [run_bind_of_ok hrun]
    dsimp only
    rw [habort]
    rfl
  | cons visit vs ih =>
    obtain ⟨fuel, rfl⟩ : ∃ k, fuel = k + 1 := ⟨fuel - 1, by simp at hfuel; omega⟩
    obtain ⟨w', hrun, hrest⟩ := h
    have hlater := ih hrest fuel (by simpa using hfuel)
    unfold Trie.walkTrieFrom
    rw [run_bind_of_ok hrun]
    dsimp only [TrieVisitor.fold]
    cases v.visitNode visit a with
    | stop e => rfl
    | skip a => exact hlater a
    | visit a =>
      dsimp only
      split_ifs
      · cases v.visitLeaf visit a with
        | error e => rfl
        | ok a => exact hlater a
      · exact hlater a

end Walks

end Briefs.Trie
