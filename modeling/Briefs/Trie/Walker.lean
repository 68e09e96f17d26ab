import Mathlib.Data.Set.Finite.Basic
import Mathlib.Order.Interval.Finset.Nat
import Briefs.Trie.Visits

/-!
# The end of a walk

`TrieWalker` on any device at all: links may form cycles, lead to the same node twice or to
blocks that cannot be read. One round of the loop in `Next` is a `Move`. A weight over the
nodes still to be seen and the stack goes down with every move, and what was returned before
and what the stack holds keep a node from being returned twice.
-/

namespace Briefs.Trie

open Lib Lib.Program

variable {σ : Type} {exec : (c : Cmd) → σ → c.Ret × σ} {s : σ} {blocks : ℕ → Content}
  {hook : NoteHook}

section Rounds

variable {w : TrieWalker}

/-- The pages kept come from blocks that can be read. -/
def TrieWalker.Kept (blocks : ℕ → Content) (w : TrieWalker) : Prop :=
  ∀ e ∈ w.pageCache, blocks e.1 ≠ .unreadable

/-- The walkers differ in what they keep and note only. -/
structure SameWork (w w' : TrieWalker) : Prop where
  stack : w'.stack = w.stack
  visited : w'.visited = w.visited

theorem SameWork.refl (w : TrieWalker) : SameWork w w := ⟨rfl, rfl⟩

theorem sameWork_note (hook : NoteHook) (w : TrieWalker) (ref : Ref) (kind : TrieWalkNote)
    (err : Option Err) :
    SameWork w (w.note hook ref kind err) := by
  unfold TrieWalker.note
  split <;> exact ⟨rfl, rfl⟩

theorem TrieWalker.Kept.note (h : w.Kept blocks) (ref : Ref)
    (kind : TrieWalkNote) (err : Option Err) : (w.note hook ref kind err).Kept blocks := by
  unfold TrieWalker.note
  split <;> exact h

theorem TrieWalker.Kept.forget (h : w.Kept blocks) (block : ℕ) :
    (w.forget block).Kept blocks :=
  fun e he => h e (List.mem_filter.mp he).1

theorem TrieWalker.Kept.keep (h : w.Kept blocks) {block : ℕ} (c : Content)
    (hblock : blocks block ≠ .unreadable) : (w.keep block c).Kept blocks := by
  intro e he
  rcases List.mem_cons.mp he with rfl | he
  · exact hblock
  · exact h.forget block e he

theorem run_attempt_readBlock (hs : Serves exec blocks s) (block : ℕ) :
    (readBlock block).attempt.run exec s = (.ok (blocks block).readable, s) := by
  change (Program.ofExcept (exec (.readBlock block) s).1).attempt.run exec
    (exec (.readBlock block) s).2 = _
  rw [hs block]
  cases (blocks block).readable <;> rfl

theorem ne_unreadable {block : ℕ} {c : Content} (h : (blocks block).readable = .ok c) :
    blocks block ≠ .unreadable := by
  intro hnot
  rw [hnot] at h
  cases h

theorem sameWork_parseNode (hook : NoteHook) (w : TrieWalker) (ref : Ref) (c : Content) :
    SameWork w (w.parseNode hook ref c).2 := by
  unfold TrieWalker.parseNode
  split
  · exact sameWork_note _ _ _ _ _
  · exact .refl w

theorem TrieWalker.Kept.parseNode (h : w.Kept blocks) (ref : Ref)
    (c : Content) : (w.parseNode hook ref c).2.Kept blocks := by
  unfold TrieWalker.parseNode
  split
  · exact h.note _ _ _
  · exact h

/-- `readNode` always comes to an end; it finds a node only in a block that can be read. -/
theorem run_readNode (hs : Serves exec blocks s) (hook : NoteHook)
    (hkept : w.Kept blocks) (ref : Ref) :
    ∃ o w', (w.readNode readBlock hook ref).run exec s = (.ok (o, w'), s) ∧ SameWork w w' ∧
      w'.Kept blocks ∧ (o.isSome → blocks (refBlock ref) ≠ .unreadable) := by
  unfold TrieWalker.readNode
  cases hlookup : w.pageCache.lookup (refBlock ref) with
  | some c =>
    obtain ⟨l, l', hcache, -⟩ := List.lookup_eq_some_iff.mp hlookup
    have hsame := sameWork_parseNode hook (w.forget (refBlock ref)) ref c
    refine ⟨_, _, rfl, ⟨hsame.stack, hsame.visited⟩, (hkept.forget _).parseNode _ _, fun _ => ?_⟩
    exact hkept (refBlock ref, c) (hcache ▸ List.mem_append_cons_self)
  | none =>
    rw [run_bind_of_ok (run_attempt_readBlock hs _)]
    cases hread : (blocks (refBlock ref)).readable with
    | error e =>
      exact ⟨_, _, rfl, sameWork_note _ _ _ _ _, hkept.note _ _ _, fun h => by cases h⟩
    | ok c =>
      exact ⟨_, _, rfl, sameWork_parseNode hook w ref c, hkept.parseNode _ _,
        fun _ => ne_unreadable hread⟩

theorem run_collectChildren (hs : Serves exec blocks s) (hook : NoteHook) (parent : Ref)
    (hops : ℕ) (child : Ref) (hkept : w.Kept blocks) :
    ∃ l w', (TrieWalker.collectChildren readBlock hook parent hops child w).run exec s =
      (.ok (l, w'), s) ∧ l.length ≤ hops ∧ SameWork w w' ∧ w'.Kept blocks := by
  induction hops generalizing child w with
  | zero =>
    unfold TrieWalker.collectChildren
    split_ifs
    · exact ⟨_, _, rfl, le_rfl, .refl w, hkept⟩
    · exact ⟨_, _, rfl, le_rfl, sameWork_note _ _ _ _ _, hkept.note _ _ _⟩
  | succ hops ih =>
    unfold TrieWalker.collectChildren
    split_ifs
    · exact ⟨_, _, rfl, Nat.zero_le _, .refl w, hkept⟩
    rw [run_bind_of_ok (run_attempt_readBlock hs _)]
    cases hread : (blocks (refBlock child)).readable with
    | error e =>
      exact ⟨_, _, rfl, Nat.succ_le_succ (Nat.zero_le _), sameWork_note _ _ _ _ _,
        hkept.note _ _ _⟩
    | ok c =>
      have hkeep : (w.keep (refBlock child) c).Kept blocks := hkept.keep c (ne_unreadable hread)
      dsimp only
      cases readTriePage c with
      | error e =>
        have hsame := sameWork_note hook (w.keep (refBlock child) c) parent .siblingRead
          (some e)
        exact ⟨_, _, rfl, Nat.succ_le_succ (Nat.zero_le _), ⟨hsame.stack, hsame.visited⟩,
          hkeep.note _ _ _⟩
      | ok p =>
        obtain ⟨l, w', hrun, hlen, hsame, hkept'⟩ := ih (p.slot (refSlot child)).nextSibling hkeep
        rw [run_bind_of_ok hrun]
        exact ⟨_, _, rfl, Nat.succ_le_succ hlen, ⟨hsame.stack, hsame.visited⟩, hkept'⟩

/-- What a visit puts on the stack: the node again if it is a leaf that was not returned
before, its children otherwise. -/
def Scheduled (ref : Ref) (emitted : Bool) (node : TrieSlot) (new : List (Ref × Bool)) : Prop :=
  if !emitted && node.isLeaf then new = [] ∨ new = [(ref, true)]
  else ∃ l : List Ref, l.length ≤ trieSiblingMax ∧ new = l.map (·, false)

theorem run_schedule (hs : Serves exec blocks s) (hook : NoteHook)
    (hkept : w.Kept blocks) (ref : Ref) (emitted : Bool) (node : TrieSlot) :
    ∃ w' new, (w.schedule readBlock hook ref emitted node).run exec s = (.ok w', s) ∧
      w'.stack = new ++ w.stack ∧ w'.visited = w.visited ∧ w'.Kept blocks ∧
      Scheduled ref emitted node new := by
  unfold TrieWalker.schedule Scheduled
  by_cases hleaf : (!emitted && node.isLeaf) = true
  · rw [if_pos hleaf]
    simp only [hleaf, if_true]
    by_cases hchild : node.firstChild = 0
    · exact ⟨w, [], by rw [if_pos hchild]; rfl, rfl, rfl, hkept, .inl rfl⟩
    · exact ⟨{ w with stack := (ref, true) :: w.stack }, [(ref, true)],
        by rw [if_neg hchild]; rfl, rfl, rfl, hkept, .inr rfl⟩
  · rw [if_neg hleaf]
    simp only [hleaf]
    obtain ⟨l, w', hrun, hlen, hsame, hkept'⟩ :=
      run_collectChildren hs hook ref trieSiblingMax node.firstChild hkept
    rw [run_bind_of_ok hrun]
    refine ⟨_, l.map (·, false), rfl, ?_, hsame.visited, hkept', l, hlen, rfl⟩
    rw [← hsame.stack]

/-- One round of the loop in `Next`, with the node it returns. -/
inductive Move (blocks : ℕ → Content) (w w' : TrieWalker) : Option Visit → Prop
  /-- A node seen before is dropped. -/
  | cycle {ref : Ref} (stack : w.stack = (ref, false) :: w'.stack)
      (visited : w'.visited = w.visited) : Move blocks w w' none
  /-- So is one that cannot be read. -/
  | unread {ref : Ref} {emitted : Bool} (stack : w.stack = (ref, emitted) :: w'.stack)
      (visited : w'.visited = if emitted then w.visited else ref :: w.visited) :
      Move blocks w w' none
  | visit {v : Visit} {rest new : List (Ref × Bool)} (stack : w.stack = (v.ref, v.emitted) :: rest)
      (fresh : v.emitted = false → v.ref ∉ w.visited)
      (readable : blocks (refBlock v.ref) ≠ .unreadable)
      (visited : w'.visited = if v.emitted then w.visited else v.ref :: w.visited)
      (next : w'.stack = new ++ rest) (scheduled : Scheduled v.ref v.emitted v.node new) :
      Move blocks w w' (some v)

def TrieWalker.Finished (w : TrieWalker) : Prop := w.abort.isSome ∨ w.stack = []

/-- `Next` is finished, or makes a move. -/
theorem run_next_succ (hs : Serves exec blocks s) (hook : NoteHook)
    (hkept : w.Kept blocks) :
    (w.Finished ∧ ∀ fuel, (w.next readBlock hook fuel).run exec s = (.ok (none, w), s)) ∨
    (∃ w', w'.Kept blocks ∧ Move blocks w w' none ∧ ∀ fuel,
      (w.next readBlock hook (fuel + 1)).run exec s = (w'.next readBlock hook fuel).run exec s) ∨
    ∃ v w', w'.Kept blocks ∧ Move blocks w w' (some v) ∧ ∀ fuel,
      (w.next readBlock hook (fuel + 1)).run exec s = (.ok (some v, w'), s) := by
  by_cases habort : w.abort.isSome = true
  · refine .inl ⟨.inl habort, fun fuel => ?_⟩
    cases fuel with
    | zero => rfl
    | succ fuel => rw [TrieWalker.next, if_pos habort]; rfl
  cases hstack : w.stack with
  | nil =>
    refine .inl ⟨.inr hstack, fun fuel => ?_⟩
    cases fuel with
    | zero => rfl
    | succ fuel => rw [TrieWalker.next, if_neg habort, hstack]; rfl
  | cons top rest =>
    obtain ⟨ref, emitted⟩ := top
    right
    by_cases hcycle : ref ∈ w.visited ∧ !emitted
    · left
      have hsame := sameWork_note hook { w with stack := rest } ref .cycle none
      have hpopped : TrieWalker.Kept blocks { w with stack := rest } := hkept
      refine ⟨TrieWalker.note hook { w with stack := rest } ref .cycle none,
        hpopped.note ref .cycle none, ?_, fun fuel => ?_⟩
      · have hfalse : emitted = false := by simpa using hcycle.2
        exact .cycle (by rw [hstack, hsame.stack, hfalse]) hsame.visited
      · rw [TrieWalker.next, if_neg habort, hstack]
        exact congrArg (Program.run exec · s) (if_pos hcycle)
    have hfresh : emitted = false → ref ∉ w.visited := by
      rintro rfl hmem
      exact hcycle ⟨hmem, rfl⟩
    set entered : TrieWalker := if emitted then { w with stack := rest }
      else { w with stack := rest, visited := ref :: w.visited } with hentered
    have hstack' : entered.stack = rest := by rw [hentered]; split_ifs <;> rfl
    have hvisited : entered.visited = if emitted then w.visited else ref :: w.visited := by
      rw [hentered]; split_ifs <;> rfl
    have hkept' : entered.Kept blocks := by rw [hentered]; split_ifs <;> exact hkept
    have hnext : ∀ fuel, ∃ k, w.next readBlock hook (fuel + 1) =
          entered.readNode readBlock hook ref >>= k ∧
        (∀ w, k (none, w) = TrieWalker.next readBlock hook fuel w) ∧
        ∀ page node w, k (some (page, node), w) = do
          let w ← w.schedule readBlock hook ref emitted node
          return (some ⟨ref, emitted, page, node⟩, w) := by
      intro fuel
      refine ⟨?rest, ?next, fun w => ?none, fun page node w => ?some⟩
      case next =>
        rw [TrieWalker.next, if_neg habort, hstack]
        exact if_neg hcycle
      all_goals rfl
    obtain ⟨o, w₁, hread, hsame, hkept₁, hfound⟩ := run_readNode hs hook hkept' ref
    cases o with
    | none =>
      refine .inl ⟨w₁, hkept₁, ?_, fun fuel => ?_⟩
      · exact .unread (by rw [hstack, hsame.stack, hstack']) (hsame.visited.trans hvisited)
      · obtain ⟨k, hnext, hnone, -⟩ := hnext fuel
        rw [hnext, run_bind_of_ok hread, hnone]
    | some found =>
      obtain ⟨page, node⟩ := found
      obtain ⟨w₂, new, hschedule, hnew, hvisited₂, hkept₂, hscheduled⟩ :=
        run_schedule hs hook hkept₁ ref emitted node
      refine .inr ⟨⟨ref, emitted, page, node⟩, w₂, hkept₂, ?_, fun fuel => ?_⟩
      · exact .visit hstack hfresh (hfound rfl)
          (hvisited₂.trans (hsame.visited.trans hvisited))
          (by rw [hnew, hsame.stack, hstack']) hscheduled
      · obtain ⟨k, hnext, -, hsome⟩ := hnext fuel
        rw [hnext, run_bind_of_ok hread, hsome, run_bind_of_ok hschedule]
        rfl

end Rounds

section Weight

variable {w w' : TrieWalker} {o : Option Visit} {F : Finset Ref}

/-- What is left to do: the nodes of `F` that were not seen, and the stack. A node is worth
more than all it can put on the stack. -/
def TrieWalker.weight (F : Finset Ref) (w : TrieWalker) : ℕ :=
  (trieSiblingMax + 2) * (F.filter (· ∉ w.visited)).card +
    (w.stack.map fun e => if e.2 then trieSiblingMax + 1 else 1).sum

theorem card_unseen_le (F : Finset Ref) {xs ys : List Ref} (h : ∀ r ∈ xs, r ∈ ys) :
    (F.filter (· ∉ ys)).card ≤ (F.filter (· ∉ xs)).card :=
  Finset.card_le_card fun r hr => by
    obtain ⟨hF, hys⟩ := Finset.mem_filter.mp hr
    exact Finset.mem_filter.mpr ⟨hF, fun hxs => hys (h r hxs)⟩

theorem card_unseen_cons {F : Finset Ref} {r : Ref} {xs : List Ref} (hr : r ∈ F) (hxs : r ∉ xs) :
    (F.filter (· ∉ r :: xs)).card + 1 = (F.filter (· ∉ xs)).card := by
  have herase : F.filter (· ∉ r :: xs) = (F.filter (· ∉ xs)).erase r := by
    ext x
    simp only [Finset.mem_filter, Finset.mem_erase, List.mem_cons, not_or]
    tauto
  rw [herase]
  exact Finset.card_erase_add_one (Finset.mem_filter.mpr ⟨hr, hxs⟩)

theorem Scheduled.sum_le {ref : Ref} {emitted : Bool} {node : TrieSlot}
    {new : List (Ref × Bool)} (h : Scheduled ref emitted node new) :
    (new.map fun e => if e.2 then trieSiblingMax + 1 else 1).sum ≤
      if emitted then trieSiblingMax else trieSiblingMax + 1 := by
  unfold Scheduled at h
  split_ifs at h with hleaf
  · have hemitted : emitted = false := by
      cases emitted
      · rfl
      · cases hleaf
    rcases h with rfl | rfl <;> simp [hemitted]
  · obtain ⟨l, hlen, rfl⟩ := h
    have hsum : ((l.map (·, false)).map fun e : Ref × Bool =>
        if e.2 then trieSiblingMax + 1 else 1).sum = l.length := by
      simp [Function.comp_def]
    rw [hsum]
    split_ifs <;> omega

/-- Every move takes from the weight. -/
theorem Move.weight_lt (h : Move blocks w w' o)
    (hF : ∀ r, blocks (refBlock r) ≠ .unreadable → r ∈ F) : w'.weight F < w.weight F := by
  unfold TrieWalker.weight
  cases h with
  | cycle stack visited =>
    rw [stack, visited, List.map_cons, List.sum_cons]
    simp
  | @unread ref emitted stack visited =>
    have hcard : (F.filter (· ∉ w'.visited)).card ≤ (F.filter (· ∉ w.visited)).card := by
      refine card_unseen_le F fun r hr => ?_
      rw [visited]
      split_ifs
      · exact hr
      · exact List.mem_cons_of_mem _ hr
    have hmul := Nat.mul_le_mul_left (trieSiblingMax + 2) hcard
    rw [stack, List.map_cons, List.sum_cons]
    have hpos : 0 < if (ref, emitted).2 then trieSiblingMax + 1 else 1 := by
      split_ifs <;> omega
    omega
  | @visit v rest new stack fresh readable visited next scheduled =>
    have hsum := scheduled.sum_le
    rw [stack, next, visited, List.map_append, List.sum_append, List.map_cons, List.sum_cons]
    dsimp only
    cases hemitted : v.emitted with
    | true =>
      rw [hemitted] at hsum
      rw [if_pos rfl] at hsum ⊢
      rw [if_pos rfl]
      omega
    | false =>
      rw [hemitted] at hsum
      have hcard := card_unseen_cons (hF _ readable) (fresh hemitted)
      rw [if_neg (by decide)] at hsum ⊢
      rw [if_neg (by decide), ← hcard, Nat.mul_succ]
      omega

end Weight

section Returned

/-- The visits are made once each, and a second one follows the first, to a leaf. -/
structure Orderly (vs : List Visit) : Prop where
  nodup : (vs.map fun v => (v.ref, v.emitted)).Nodup
  after : ∀ earlier v later, vs = earlier ++ v :: later → v.emitted = true →
    ∃ u ∈ earlier, u.ref = v.ref ∧ u.emitted = false ∧ u.node.isLeaf = true

/-- What holds of a walker after the visits `past`. -/
structure Seen (past : List Visit) (w : TrieWalker) : Prop where
  orderly : Orderly past
  visited : ∀ v ∈ past, v.ref ∈ w.visited
  pending : ∀ r, (r, true) ∈ w.stack →
    (∃ u ∈ past, u.ref = r ∧ u.emitted = false ∧ u.node.isLeaf = true) ∧
      ∀ v ∈ past, v.ref = r → v.emitted = false
  once : (w.stack.filter (·.2)).Nodup

variable {past : List Visit} {w w' : TrieWalker}

theorem Orderly.snoc {v : Visit} (h : Orderly past)
    (hnew : ∀ u ∈ past, u.ref = v.ref → u.emitted ≠ v.emitted)
    (hafter : v.emitted = true →
      ∃ u ∈ past, u.ref = v.ref ∧ u.emitted = false ∧ u.node.isLeaf = true) :
    Orderly (past ++ [v]) := by
  refine ⟨?_, fun earlier u later heq hemitted => ?_⟩
  · rw [List.map_append, List.map_singleton, List.nodup_append]
    refine ⟨h.nodup, List.nodup_singleton _, fun x hx y hy hxy => ?_⟩
    obtain ⟨u, hu, rfl⟩ := List.mem_map.mp hx
    rw [List.mem_singleton.mp hy] at hxy
    obtain ⟨href, hsame⟩ := Prod.mk.inj hxy
    exact hnew u hu href hsame
  · rcases List.eq_nil_or_concat' later with rfl | ⟨later', last, rfl⟩
    · obtain ⟨rfl, hv⟩ := List.append_inj' heq rfl
      obtain rfl := List.singleton_inj.mp hv
      exact hafter hemitted
    · rw [← List.cons_append, ← List.append_assoc] at heq
      exact h.after earlier u later' (List.append_inj' heq rfl).1 hemitted

theorem Move.seen_skip (h : Move blocks w w' none) (hseen : Seen past w) : Seen past w' := by
  have hsub : ∃ top, w.stack = top :: w'.stack := by
    cases h with
    | cycle stack visited => exact ⟨_, stack⟩
    | unread stack visited => exact ⟨_, stack⟩
  have hvisited : ∀ r ∈ w.visited, r ∈ w'.visited := by
    intro r hr
    cases h with
    | cycle stack visited => exact visited ▸ hr
    | unread stack visited =>
      rw [visited]
      split_ifs
      · exact hr
      · exact List.mem_cons_of_mem _ hr
  obtain ⟨top, hstack⟩ := hsub
  refine ⟨hseen.orderly, fun v hv => hvisited _ (hseen.visited v hv), fun r hr => ?_, ?_⟩
  · exact hseen.pending r (hstack ▸ List.mem_cons_of_mem _ hr)
  · have honce := hseen.once
    rw [hstack, List.filter_cons] at honce
    split_ifs at honce
    · exact (List.nodup_cons.mp honce).2
    · exact honce

/-- Of what a visit puts on the stack, only a leaf that is to be returned again counts. -/
theorem Scheduled.again {ref : Ref} {emitted : Bool} {node : TrieSlot} {new : List (Ref × Bool)}
    (h : Scheduled ref emitted node new) :
    new.filter (·.2) = [] ∨
      new.filter (·.2) = [(ref, true)] ∧ emitted = false ∧ node.isLeaf = true := by
  unfold Scheduled at h
  split_ifs at h with hleaf
  · rw [Bool.and_eq_true, Bool.not_eq_true'] at hleaf
    rcases h with rfl | rfl
    · exact .inl rfl
    · exact .inr ⟨rfl, hleaf⟩
  · obtain ⟨l, -, rfl⟩ := h
    exact .inl (by simp)

theorem Move.seen_visit {v : Visit} (h : Move blocks w w' (some v)) (hseen : Seen past w) :
    Seen (past ++ [v]) w' := by
  cases h with
  | @visit _ rest new stack fresh readable visited next scheduled =>
  have hrest : ∀ r, (r, true) ∈ rest → (r, true) ∈ w.stack := fun r hr =>
    stack ▸ List.mem_cons_of_mem _ hr
  have honce := hseen.once
  rw [stack, List.filter_cons] at honce
  have hvisited : ∀ r ∈ w.visited, r ∈ w'.visited := by
    intro r hr
    rw [visited]
    split_ifs
    · exact hr
    · exact List.mem_cons_of_mem _ hr
  -- The node itself: a first visit is new, a second one was pending.
  have hold : v.emitted = true →
      (∃ u ∈ past, u.ref = v.ref ∧ u.emitted = false ∧ u.node.isLeaf = true) ∧
        ∀ u ∈ past, u.ref = v.ref → u.emitted = false := fun hemitted =>
    hseen.pending v.ref (by rw [stack, hemitted]; exact List.mem_cons_self)
  have hfirst : v.emitted = false → ∀ u ∈ past, u.ref ≠ v.ref := fun hemitted u hu href =>
    fresh hemitted (href ▸ hseen.visited u hu)
  have hself : v.ref ∈ w'.visited := by
    cases hemitted : v.emitted with
    | true =>
      obtain ⟨⟨u, hu, href, -⟩, -⟩ := hold hemitted
      exact hvisited _ (href ▸ hseen.visited u hu)
    | false =>
      rw [visited, hemitted]
      exact List.mem_cons_self
  -- What was pending below it is so still, and is another node.
  have hbelow : ∀ r, (r, true) ∈ rest → v.emitted = true → v.ref ≠ r := by
    rintro r hr hemitted rfl
    rw [hemitted, if_pos rfl] at honce
    exact (List.nodup_cons.mp honce).1 (List.mem_filter.mpr ⟨hr, rfl⟩)
  have hfilter : (rest.filter (·.2)).Nodup := by
    split_ifs at honce
    · exact (List.nodup_cons.mp honce).2
    · exact honce
  refine ⟨hseen.orderly.snoc (fun u hu href => ?_) fun hemitted => (hold hemitted).1,
    fun u hu => ?_, fun r hr => ?_, ?_⟩
  · cases hemitted : v.emitted with
    | true => simp [(hold hemitted).2 u hu href]
    | false => exact absurd href (hfirst hemitted u hu)
  · rcases List.mem_append.mp hu with hu | hu
    · exact hvisited _ (hseen.visited u hu)
    · exact List.mem_singleton.mp hu ▸ hself
  · rw [next] at hr
    rcases List.mem_append.mp hr with hr | hr
    · have hmem : (r, true) ∈ new.filter (·.2) := List.mem_filter.mpr ⟨hr, rfl⟩
      rcases scheduled.again with hnone | ⟨hone, hemitted, hleaf⟩
      · rw [hnone] at hmem
        cases hmem
      · rw [hone] at hmem
        obtain rfl : r = v.ref := (Prod.mk.inj (List.mem_singleton.mp hmem)).1
        refine ⟨⟨v, by simp, rfl, hemitted, hleaf⟩, fun u hu href => ?_⟩
        rcases List.mem_append.mp hu with hu | hu
        · exact absurd href (hfirst hemitted u hu)
        · exact List.mem_singleton.mp hu ▸ hemitted
    · obtain ⟨⟨u, hu, hfacts⟩, hnot⟩ := hseen.pending r (hrest r hr)
      refine ⟨⟨u, List.mem_append_left _ hu, hfacts⟩, fun x hx href => ?_⟩
      rcases List.mem_append.mp hx with hx | hx
      · exact hnot x hx href
      · obtain rfl := List.mem_singleton.mp hx
        by_contra hemitted
        exact hbelow r hr (by simpa using hemitted) href
  · rw [next, List.filter_append]
    rcases scheduled.again with hnone | ⟨hone, hemitted, -⟩
    · rw [hnone]
      exact hfilter
    · rw [hone]
      refine List.nodup_cons.mpr ⟨fun hmem => ?_, hfilter⟩
      obtain ⟨⟨u, hu, href, -⟩, -⟩ := hseen.pending v.ref (hrest _ (List.mem_filter.mp hmem).1)
      exact hfirst hemitted u hu href

end Returned

section Finish

variable {w : TrieWalker}

/-- Successive calls of `Next`, each with `fuel` rounds, return the visits `vs`, and the one
after them finds the walk finished. -/
def Returns (exec : (c : Cmd) → σ → c.Ret × σ) (hook : NoteHook) (s : σ) (fuel : ℕ) :
    TrieWalker → List Visit → Prop
  | w, [] => ∃ w', (w.next readBlock hook fuel).run exec s = (.ok (none, w'), s) ∧ w'.Finished
  | w, v :: vs => ∃ w', (w.next readBlock hook fuel).run exec s = (.ok (some v, w'), s) ∧
      Returns exec hook s fuel w' vs

/-- A call of `Next` takes no more rounds than the walker weighs. -/
theorem run_next (hs : Serves exec blocks s) (hook : NoteHook) {F : Finset Ref}
    (hF : ∀ r, blocks (refBlock r) ≠ .unreadable → r ∈ F) (hkept : w.Kept blocks) :
    ∃ o w', (∀ fuel, w.weight F < fuel →
        (w.next readBlock hook fuel).run exec s = (.ok (o, w'), s)) ∧ w'.Kept blocks ∧
      match o with
      | none => w'.Finished
      | some v => w'.weight F < w.weight F ∧ ∀ past, Seen past w → Seen (past ++ [v]) w' := by
  induction hn : w.weight F using Nat.strong_induction_on generalizing w with
  | _ n ih =>
    subst hn
    rcases run_next_succ hs hook hkept with ⟨hfinished, hrun⟩ | ⟨w', hkept', hmove, hrun⟩ |
      ⟨v, w', hkept', hmove, hrun⟩
    · exact ⟨none, w, fun fuel _ => hrun fuel, hkept, hfinished⟩
    · have hlt := hmove.weight_lt hF
      obtain ⟨o, w'', hnext, hkept'', hrest⟩ := ih _ hlt hkept' rfl
      refine ⟨o, w'', fun fuel hfuel => ?_, hkept'', ?_⟩
      · obtain ⟨m, rfl⟩ := Nat.exists_eq_add_one_of_ne_zero (by omega : fuel ≠ 0)
        rw [hrun m]
        exact hnext m (by omega)
      · cases o with
        | none => exact hrest
        | some v =>
          exact ⟨hrest.1.trans hlt, fun past hseen => hrest.2 past (hmove.seen_skip hseen)⟩
    · refine ⟨some v, w', fun fuel hfuel => ?_, hkept', hmove.weight_lt hF,
        fun past hseen => hmove.seen_visit hseen⟩
      obtain ⟨m, rfl⟩ := Nat.exists_eq_add_one_of_ne_zero (by omega : fuel ≠ 0)
      exact hrun m

theorem returns_of_seen (hs : Serves exec blocks s) (hook : NoteHook) {F : Finset Ref}
    (hF : ∀ r, blocks (refBlock r) ≠ .unreadable → r ∈ F) {past : List Visit}
    (hkept : w.Kept blocks) (hseen : Seen past w) :
    ∃ vs, Orderly (past ++ vs) ∧ ∀ fuel, w.weight F < fuel → Returns exec hook s fuel w vs := by
  induction hn : w.weight F using Nat.strong_induction_on generalizing w past with
  | _ n ih =>
    subst hn
    obtain ⟨o, w', hrun, hkept', hrest⟩ := run_next hs hook hF hkept
    cases o with
    | none =>
      exact ⟨[], by simpa using hseen.orderly, fun fuel hfuel => ⟨w', hrun fuel hfuel, hrest⟩⟩
    | some v =>
      obtain ⟨hlt, hnext⟩ := hrest
      obtain ⟨vs, horderly, hreturns⟩ := ih _ hlt hkept' (hnext past hseen) rfl
      exact ⟨v :: vs, by simpa using horderly, fun fuel hfuel =>
        ⟨w', hrun fuel hfuel, hreturns fuel (hlt.trans hfuel)⟩⟩

theorem finite_refs (hfin : {block | blocks block ≠ .unreadable}.Finite) :
    {ref : Ref | blocks (refBlock ref) ≠ .unreadable}.Finite := by
  refine hfin.preimage' (f := refBlock) fun block _ => (Set.finite_Iio (64 * (block + 1))).subset ?_
  intro ref href
  have hdiv : ref / 64 = block := href
  rw [Set.mem_Iio]
  omega

/-- On every device with finitely many blocks that can be read, and from every root, the
walker comes to its end; it returns a node at most once with either flag, and a second time
only after the first, as a leaf. -/
theorem trieWalker_finishes (hs : Serves exec blocks s)
    (hfin : {block | blocks block ≠ .unreadable}.Finite) (hook : NoteHook) (root : Ref) :
    ∃ vs, Orderly vs ∧ ∃ rounds, ∀ fuel, rounds ≤ fuel →
      Returns exec hook s fuel (.start root) vs := by
  have hF : ∀ r, blocks (refBlock r) ≠ .unreadable → r ∈ (finite_refs hfin).toFinset :=
    fun r hr => (Set.Finite.mem_toFinset _).mpr hr
  have hkept : (TrieWalker.start root).Kept blocks := fun e he => by cases he
  have hseen : Seen [] (.start root) := by
    refine ⟨⟨List.nodup_nil, fun earlier v later h => ?_⟩, fun v hv => ?_, fun r hr => ?_, ?_⟩
    · simp at h
    · cases hv
    · unfold TrieWalker.start at hr
      split_ifs at hr <;> simp at hr
    · unfold TrieWalker.start
      split_ifs <;> simp
  obtain ⟨vs, horderly, hreturns⟩ := returns_of_seen hs hook hF hkept hseen
  exact ⟨vs, horderly, (TrieWalker.start root).weight (finite_refs hfin).toFinset + 1,
    fun fuel hfuel => hreturns fuel (by omega)⟩

def readOnly (blocks : ℕ → Content) : (c : Cmd) → Unit → c.Ret × Unit
  | .readBlock block, s => ((blocks block).readable, s)
  | .loadBlock block, s => ((blocks block).readable, s)
  | .saveBlock _ _, s => ((), s)
  | .cacheDrop _, s => ((), s)
  | .allocBlock, s => (0, s)
  | .freeBlock _, s => ((), s)
  | .deferBlockFreeRun _ _, s => ((), s)
  | .writeRecord _, s => (.ok (), s)
  | .partials, s => ([], s)
  | .setPartials _, s => ((), s)
  | .popReplayBlock, s => (none, s)

/-- A single block, with a node that is its own child and its own sibling. -/
def cyclicBlocks (block : ℕ) : Content :=
  if block = 101 then
    .page ((TriePage.init 0 0 nodeTypeInterm).putSlot 0
      { nodeType := 4, firstChild := makeRef 101 0, nextSibling := makeRef 101 0 })
  else .unreadable

theorem trieWalker_finishes_on_cycle :
    ∃ vs, Orderly vs ∧ ∃ rounds, ∀ fuel, rounds ≤ fuel →
      Returns (readOnly cyclicBlocks) .skip () fuel (.start (makeRef 101 0)) vs := by
  refine trieWalker_finishes (fun _ => rfl) ((Set.finite_singleton 101).subset ?_) _ _
  intro block hblock
  by_contra hne
  exact hblock (if_neg hne)

end Finish

end Briefs.Trie
