import Mathlib.Data.List.TakeWhile
import Briefs.Trie.Links
import Briefs.Trie.Visits

/-!
# Listing a directory

The walk of `trie_walk.go` over the trie of a directory at rest. A leaf that also branches is
visited twice, the second time for its children, and pages are kept between the scan of a
chain and the visits of its nodes. The stack holds the roots of the subtrees still to visit,
so the walk visits the nodes of the trie in preorder, and a listing has the stored entries,
each once.
-/

namespace Briefs.Trie

open Lib Lib.Program

variable {g : Geometry} {K : Rest} {F : Forest} {s : Dirs} {m : Maps} {x : Pos} {hook : NoteHook}
  {w : TrieWalker}

section Moves

namespace TrieWalker

variable {s : Store}

/-- A walk under way: every page kept is what its block holds, and no hook has ended the walk. -/
structure Fit (s : Store) (w : TrieWalker) : Prop where
  cache : ∀ block c, (block, c) ∈ w.pageCache → s.blocks.read block = c
  running : w.abort = none

/-- Only the pages kept are others. -/
structure Alike (s : Store) (w w' : TrieWalker) : Prop where
  stack : w'.stack = w.stack
  visited : w'.visited = w.visited
  fit : w'.Fit s

theorem Alike.trans {w w' w'' : TrieWalker} (h : Alike s w w') (h' : Alike s w' w'') :
    Alike s w w'' :=
  ⟨h'.stack.trans h.stack, h'.visited.trans h.visited, h'.fit⟩

theorem Fit.forget (h : w.Fit s) (block : ℕ) : Alike s w (w.forget block) :=
  ⟨rfl, rfl, fun b c hc => h.cache b c (List.mem_filter.mp hc).1, h.running⟩

theorem Fit.keep (h : w.Fit s) {block : ℕ} {c : Content}
    (hc : s.blocks.read block = c) : Alike s w (w.keep block c) := by
  refine ⟨rfl, rfl, fun b c' hc' => ?_, h.running⟩
  rcases List.mem_cons.mp hc' with heq | hc'
  · obtain ⟨rfl, rfl⟩ := Prod.mk.inj heq
    exact hc
  · exact (h.forget block).fit.cache b c' hc'

theorem Fit.lookup (h : w.Fit s) {block : ℕ} {c : Content}
    (hc : w.pageCache.lookup block = some c) : s.blocks.read block = c := by
  obtain ⟨l₁, l₂, hl, -⟩ := List.lookup_eq_some_iff.mp hc
  exact h.cache block c (by simp [hl])

end TrieWalker

theorem post_readBlock {s : Store} {block : ℕ} {p : TriePage} (h : s.blocks.read block = .page p) :
    Post (Store.exec g) (readBlock block) (fun c t => c = .page p ∧ t = s) never s := by
  have hexec : Store.exec g (.readBlock block) s = (.ok (.page p), s) := by
    simp [Store.exec, h, Content.readable]
  unfold readBlock perform
  rw [post_bind, post_cmd, hexec]
  exact ⟨rfl, rfl⟩

/-- `readNode` of a node whose page can be read. -/
theorem post_readNode {s : Store} {ref : Ref} {p : TriePage} (hw : w.Fit s)
    (h : s.blocks.read (refBlock ref) = .page p) :
    Post (Store.exec g) (w.readNode readBlock hook ref)
      (fun r t => t = s ∧ r.1 = some (p, p.slot (refSlot ref)) ∧ w.Alike s r.2) never s := by
  unfold TrieWalker.readNode
  split
  · rename_i c hc
    obtain rfl : .page p = c := h.symm.trans (hw.lookup hc)
    exact ⟨rfl, rfl, hw.forget _⟩
  · rw [post_bind, post_attempt]
    refine (post_readBlock h).returns fun c t hpost => ?_
    obtain ⟨rfl, rfl⟩ := hpost
    exact ⟨rfl, rfl, rfl, rfl, hw⟩

/-- The chain of the children of a node. -/
theorem post_collectChildren (h : Hold g K F s m) (parent : Ref) (rest pre : List UInt8) (hops : ℕ)
    (hkids : F.kids x = pre ++ rest) (hhops : rest.length ≤ hops) (hw : w.Fit s.store) :
    Post (Store.exec g) (TrieWalker.collectChildren readBlock hook parent hops (F.first x rest) w)
      (fun r t => t = s.store ∧ r.1 = rest.map (fun c => F.ref (child x c)) ∧
        w.Alike s.store r.2) never s.store := by
  induction rest generalizing pre hops w with
  | nil =>
    cases hops <;>
    · unfold TrieWalker.collectChildren
      rw [Forest.first_nil, if_pos rfl]
      exact ⟨rfl, rfl, rfl, rfl, hw⟩
  | cons c rest ih =>
    obtain ⟨hops, rfl⟩ : ∃ k, hops = k + 1 := ⟨hops - 1, by simp at hhops; omega⟩
    have hc := h.tries.ok.node_child (show c ∈ F.kids x by simp [hkids])
    obtain ⟨p, n, hread, -, hslot, hfit⟩ := h.node hc.1
    have hnext : (p.slot (refSlot (F.ref (child x c)))).nextSibling = F.first x rest := by
      rw [Store.slotAt, hread] at hslot
      rw [Option.some.inj hslot, (hfit.link c x.2 rfl).2]
      change F.first x (after c (F.kids x)) = _
      rw [hkids, after_append_cons (notMem_of_nodup (hkids ▸ h.tries.ok.nodup x))]
    unfold TrieWalker.collectChildren
    rw [Forest.first_cons, if_neg hc.2, post_bind, post_attempt]
    refine (post_readBlock hread).returns fun content t hpost => ?_
    obtain ⟨rfl, rfl⟩ := hpost
    have hkeep := hw.keep hread
    change Post _ (TrieWalker.collectChildren readBlock hook parent hops _ _ >>= _) _ _ _
    rw [hnext]
    refine (ih (pre ++ [c]) hops (by simpa using hkids) (by simpa using hhops) hkeep.fit).andThen
      fun r t hpost => ?_
    obtain ⟨rfl, hrest, halike⟩ := hpost
    exact ⟨rfl, by rw [hrest]; rfl, hkeep.trans halike⟩

/-- A place on the stack of a walk. -/
def Forest.item (F : Forest) (i : Pos × Bool) : Ref × Bool := (F.ref i.1, i.2)

def Forest.pushed (F : Forest) (i : Pos × Bool) : List (Pos × Bool) :=
  if !i.2 && (F.entry i.1).isSome then if F.kids i.1 = [] then [] else [(i.1, true)]
  else (F.kids i.1).map fun c => (child i.1 c, false)

theorem Forest.first_kids_eq_zero (h : F.Ok) : F.first x (F.kids x) = 0 ↔ F.kids x = [] := by
  cases hkids : F.kids x with
  | nil => simp
  | cons c rest => simpa using (h.node_child (show c ∈ F.kids x by simp [hkids])).2

theorem post_schedule (h : Hold g K F s m) {n : Node} (hfit : F.Fits ∅ x n) (hw : w.Fit s.store)
    (emitted : Bool) :
    Post (Store.exec g) (w.schedule readBlock hook (F.ref x) emitted n.slot)
      (fun w' t => t = s.store ∧ w'.stack = (F.pushed (x, emitted)).map F.item ++ w.stack ∧
        w'.visited = w.visited ∧ w'.Fit s.store) never s.store := by
  have hok := h.tries.ok
  unfold TrieWalker.schedule Forest.pushed
  rw [hfit.isLeaf hok, hfit.firstChild]
  by_cases hleaf : (!emitted && (F.entry x).isSome) = true
  · rw [if_pos hleaf, if_pos hleaf]
    by_cases hkids : F.kids x = []
    · rw [if_pos ((F.first_kids_eq_zero hok).mpr hkids), if_pos hkids]
      exact ⟨rfl, rfl, rfl, hw⟩
    · rw [if_neg (mt (F.first_kids_eq_zero hok).mp hkids), if_neg hkids]
      exact ⟨rfl, rfl, rfl, hw.cache, hw.running⟩
  · rw [if_neg hleaf, if_neg hleaf]
    refine (post_collectChildren h (F.ref x) (F.kids x) [] trieSiblingMax rfl
      ((hok.length_kids_le x).trans (by unfold trieSiblingMax; omega)) hw).andThen fun r t hpost => ?_
    obtain ⟨rfl, hchildren, halike⟩ := hpost
    refine ⟨rfl, ?_, halike.visited, halike.fit.cache, halike.fit.running⟩
    rw [hchildren, halike.stack, List.map_map, List.map_map]
    rfl

/-- What a visit has of the node at a place. -/
structure Shows (F : Forest) (i : Pos × Bool) (v : Visit) : Prop where
  emitted : v.emitted = i.2
  isLeaf : v.node.isLeaf = (F.entry i.1).isSome
  entry : ∀ e, F.entry i.1 = some e → (v.node.inode, v.node.ftype) = e ∧
    v.page.readName v.node.nameLen v.node.nameOffset = .ok i.1.2.reverse

theorem Hold.shows (h : Hold g K F s m) (hx : (F.node x).isSome) (emitted : Bool) :
    ∃ p n, s.store.blocks.read (refBlock (F.ref x)) = .page p ∧
      p.slot (refSlot (F.ref x)) = n.slot ∧ F.Fits ∅ x n ∧
      Shows F (x, emitted) ⟨F.ref x, emitted, p, n.slot⟩ := by
  have hok := h.tries.ok
  obtain ⟨-, pages, H, hh, hin, -⟩ := h.tries.rep
  obtain ⟨-, n, hn, hfit⟩ := hin.self hx
  obtain ⟨-, p, hview, hpage, hlive, hslot, hnode, -⟩ := hh.page_of_node hn
  refine ⟨p, n, h.settled ▸ hview, hslot, hfit, rfl, hfit.isLeaf hok, fun e he => ?_⟩
  refine ⟨hfit.entry e he, hpage.readName (hslot ▸ hpage.name _ hlive) ?_ ?_ ?_⟩
  · intro hnil
    have hroot := h.tries.root x.1
    rw [show (x.1, ([] : Bytes)) = x from Prod.ext rfl (List.reverse_eq_nil_iff.mp hnil).symm, he]
      at hroot
    cases hroot
  · simpa using hok.depth x hx
  · rw [hnode]
    exact hfit.area_of_entry (he ▸ rfl)

/-- `TrieWalker.Next`, with a node at rest on top of the stack. -/
theorem post_next {rest : List (Ref × Bool)} {i : Pos × Bool} (h : Hold g K F s m)
    (hi : (F.node i.1).isSome) (hw : w.Fit s.store) (hstack : w.stack = F.item i :: rest)
    (hfresh : i.2 = false → F.ref i.1 ∉ w.visited) :
    Post (Store.exec g) (w.next readBlock hook walkFuel)
      (fun r t => t = s.store ∧ ∃ v, r.1 = some v ∧ Shows F i v ∧
        r.2.stack = (F.pushed i).map F.item ++ rest ∧
        r.2.visited ⊆ F.ref i.1 :: w.visited ∧
        (i.2 = true → r.2.visited = w.visited) ∧ r.2.Fit s.store) never s.store := by
  obtain ⟨x, emitted⟩ := i
  obtain ⟨n, hn⟩ : ∃ n, walkFuel = n + 1 := ⟨2 ^ 80 - 1, by norm_num [walkFuel]⟩
  obtain ⟨p, node, hread, hslot, hfit, hshows⟩ := h.shows hi emitted
  rw [hn, TrieWalker.next, if_neg (by simp [hw.running]), hstack]
  have hnew : ¬ (F.ref x ∈ w.visited ∧ (!emitted) = true) := by
    rintro ⟨hmem, he⟩
    exact hfresh (by simpa using he) hmem
  dsimp only [Forest.item]
  rw [if_neg hnew]
  refine (post_readNode (w := if emitted then { w with stack := rest }
    else { w with stack := rest, visited := F.ref x :: w.visited }) ?_ hread).andThen
      fun r t hpost => ?_
  · cases emitted <;> exact ⟨hw.cache, hw.running⟩
  · obtain ⟨rfl, hr, halike⟩ := hpost
    obtain ⟨r, w'⟩ := r
    subst hr
    rw [hslot]
    refine (post_schedule h hfit halike.fit emitted).andThen fun w'' t hpost => ?_
    obtain ⟨rfl, hpushed, hvisited, hfit''⟩ := hpost
    refine ⟨rfl, _, rfl, hshows, ?_, ?_, fun he => ?_, hfit''⟩
    · rw [hpushed, halike.stack]
      cases emitted <;> rfl
    · rw [hvisited, halike.visited]
      cases emitted <;> simp
    · rw [hvisited, halike.visited, if_pos he]

end Moves

section Tour

namespace Forest

variable {i : Pos × Bool}

/-- The visits to a subtree of at most `k` levels, in their order. -/
def tour (F : Forest) : ℕ → Pos → List (Pos × Bool)
  | 0, _ => []
  | k + 1, x =>
    (x, false) :: (if (F.entry x).isSome ∧ F.kids x ≠ [] then [(x, true)] else []) ++
      (F.kids x).flatMap fun c => F.tour k (child x c)

def levels (x : Pos) : ℕ := maxNameLen + 1 - x.2.length

/-- The visits that something on the stack leads to. -/
def visits (F : Forest) (i : Pos × Bool) : List (Pos × Bool) :=
  if i.2 then (i.1, true) :: (F.kids i.1).flatMap fun c => F.tour (levels (child i.1 c)) (child i.1 c)
  else F.tour (levels i.1) i.1

theorem Ok.tour_levels (h : F.Ok) (hx : (F.node x).isSome) :
    F.tour (levels x) x =
      (x, false) :: (if (F.entry x).isSome ∧ F.kids x ≠ [] then [(x, true)] else []) ++
        (F.kids x).flatMap fun c => F.tour (levels (child x c)) (child x c) := by
  have hdepth := h.depth x hx
  obtain ⟨k, hk⟩ : ∃ k, levels x = k + 1 := ⟨maxNameLen - x.2.length, by unfold levels; omega⟩
  have hchild : ∀ c, levels (child x c) = k := by
    intro c
    simp only [levels, child, List.length_cons] at hk ⊢
    omega
  simp only [hk, hchild, tour]

/-- A visit comes first, and then those to what it pushes. -/
theorem Ok.visits_eq (h : F.Ok) (hi : (F.node i.1).isSome) :
    F.visits i = i :: (F.pushed i).flatMap F.visits := by
  obtain ⟨x, emitted⟩ := i
  cases emitted with
  | true =>
    simp only [visits, pushed, if_true, Bool.not_true, Bool.false_and, Bool.false_eq_true, if_false,
      List.flatMap_map]
  | false =>
    rw [visits, if_neg (by simp), h.tour_levels hi, List.cons_append]
    congr 1
    unfold pushed
    by_cases hentry : (F.entry x).isSome
    · by_cases hkids : F.kids x = []
      · simp [hentry, hkids]
      · simp [hentry, hkids, visits]
    · simp [hentry, List.flatMap_map, visits]

theorem Ok.pushed_node (h : F.Ok) {i j : Pos × Bool} (hi : (F.node i.1).isSome)
    (hj : j ∈ F.pushed i) : (F.node j.1).isSome := by
  unfold pushed at hj
  split_ifs at hj with hentry hkids
  · cases hj
  · rw [List.mem_singleton.mp hj]
    exact hi
  · obtain ⟨c, hc, rfl⟩ := List.mem_map.mp hj
    exact (h.kids _ _).mp hc

theorem below_of_mem_tour {k : ℕ} (hi : i ∈ F.tour k x) :
    ∃ p, i.1 = (x.1, p ++ x.2) := by
  induction k generalizing x with
  | zero => cases hi
  | succ k ih =>
    rw [tour, List.cons_append, List.mem_cons, List.mem_append, List.mem_flatMap] at hi
    rcases hi with rfl | hi | ⟨c, -, hi⟩
    · exact ⟨[], rfl⟩
    · split_ifs at hi
      · rw [List.mem_singleton.mp hi]
        exact ⟨[], rfl⟩
      · cases hi
    · obtain ⟨p, hp⟩ := ih hi
      exact ⟨p ++ [c], by rw [hp]; simp [child]⟩

theorem Ok.nodup_tour (h : F.Ok) (k : ℕ) (x : Pos) : (F.tour k x).Nodup := by
  induction k generalizing x with
  | zero => exact List.nodup_nil
  | succ k ih =>
    have hbelow : ∀ e, (x, e) ∉ (F.kids x).flatMap fun c => F.tour k (child x c) := by
      intro e hmem
      obtain ⟨c, -, hc⟩ := List.mem_flatMap.mp hmem
      obtain ⟨p, hp⟩ := below_of_mem_tour hc
      have := congrArg (fun y : Pos => y.2.length) hp
      simp [child] at this
      omega
    have hkids : ((F.kids x).flatMap fun c => F.tour k (child x c)).Nodup := by
      refine List.nodup_flatMap.mpr ⟨fun c _ => ih (child x c), (h.nodup x).imp fun {c c'} hne => ?_⟩
      intro i hi hi'
      obtain ⟨p, hp⟩ := below_of_mem_tour hi
      obtain ⟨p', hp'⟩ := below_of_mem_tour hi'
      have := congrArg Prod.snd (hp.symm.trans hp')
      have := (List.append_inj_right' this (by simp [child]))
      simp only [child, List.cons.injEq] at this
      exact hne this.1
    rw [tour, List.cons_append, List.nodup_cons]
    split_ifs
    · simp only [List.singleton_append, List.mem_cons, Prod.mk.injEq, Bool.false_eq_true, and_false,
        false_or, List.nodup_cons]
      exact ⟨hbelow false, hbelow true, hkids⟩
    · exact ⟨by simpa using hbelow false, by simpa using hkids⟩

theorem Ok.mem_tour (h : F.Ok) (k : ℕ) (p : Bytes) (hk : p.length < k)
    (hp : (F.node (x.1, p ++ x.2)).isSome) : ((x.1, p ++ x.2), false) ∈ F.tour k x := by
  induction k generalizing x p with
  | zero => simp at hk
  | succ k ih =>
    rw [tour, List.cons_append, List.mem_cons, List.mem_append, List.mem_flatMap]
    rcases List.eq_nil_or_concat' p with rfl | ⟨p', c, rfl⟩
    · exact .inl rfl
    · rw [List.append_assoc] at hp ⊢
      have hc : c ∈ F.kids x := by
        by_contra hc
        have := h.node_below hc p'
        rw [List.singleton_append, this] at hp
        cases hp
      exact .inr (.inr ⟨c, hc, ih (x := child x c) p' (by simpa using hk) hp⟩)

theorem Ok.node_of_mem_tour (h : F.Ok) {k : ℕ} (hx : (F.node x).isSome)
    (hi : i ∈ F.tour k x) : (F.node i.1).isSome := by
  induction k generalizing x with
  | zero => cases hi
  | succ k ih =>
    rw [tour, List.cons_append, List.mem_cons, List.mem_append, List.mem_flatMap] at hi
    rcases hi with rfl | hi | ⟨c, hc, hi⟩
    · exact hx
    · split_ifs at hi
      · rw [List.mem_singleton.mp hi]
        exact hx
      · cases hi
    · exact ih ((h.kids x c).mp hc) hi

end Forest

end Tour

section Ahead

/-- A walk with the visits `l` ahead: the stack has the roots of the subtrees still to visit,
and none of their nodes was visited. -/
structure Ahead (F : Forest) (s : Store) (l : List (Pos × Bool)) (w : TrieWalker) : Prop where
  stack : ∃ items : List (Pos × Bool), w.stack = items.map F.item ∧
    (∀ i ∈ items, (F.node i.1).isSome) ∧ items.flatMap F.visits = l
  nodup : l.Nodup
  fresh : ∀ x, (x, false) ∈ l → (F.node x).isSome ∧ F.ref x ∉ w.visited
  fit : w.Fit s

variable {l : List (Pos × Bool)} {i : Pos × Bool}

theorem Ahead.next_nil (h : Hold g K F s m) (ha : Ahead F s.store [] w) :
    Post (Store.exec g) (w.next readBlock hook walkFuel)
      (fun r t => t = s.store ∧ r.1 = none ∧ r.2.abort = none) never s.store := by
  obtain ⟨⟨items, hstack, hnodes, hvisits⟩, -, -, hw⟩ := ha
  obtain rfl : items = [] := by
    cases items with
    | nil => rfl
    | cons i items =>
      rw [List.flatMap_cons, h.tries.ok.visits_eq (hnodes i List.mem_cons_self)] at hvisits
      cases hvisits
  obtain ⟨n, hn⟩ : ∃ n, walkFuel = n + 1 := ⟨2 ^ 80 - 1, by norm_num [walkFuel]⟩
  rw [hn, TrieWalker.next, if_neg (by simp [hw.running]), hstack]
  exact ⟨rfl, rfl, hw.running⟩

theorem Ahead.next_cons (h : Hold g K F s m) (ha : Ahead F s.store (i :: l) w) :
    Post (Store.exec g) (w.next readBlock hook walkFuel)
      (fun r t => t = s.store ∧ ∃ v, r.1 = some v ∧ Shows F i v ∧ Ahead F s.store l r.2) never
      s.store := by
  have hok := h.tries.ok
  obtain ⟨⟨items, hstack, hnodes, hvisits⟩, hnodup, hfresh, hw⟩ := ha
  cases items with
  | nil => cases hvisits
  | cons j items =>
    have hj := hnodes j List.mem_cons_self
    rw [List.flatMap_cons, hok.visits_eq hj, List.cons_append] at hvisits
    obtain ⟨rfl, rfl⟩ := List.cons.inj hvisits
    have hself : j.2 = false → F.ref j.1 ∉ w.visited := fun he =>
      (hfresh j.1 (by rw [← he]; exact List.mem_cons_self)).2
    refine (post_next h hj hw hstack hself).mono (fun r t hpost => ?_) fun _ _ he => he
    obtain ⟨ht, v, hv, hshows, hpushed, hvisited, hkept, hfit⟩ := hpost
    refine ⟨ht, v, hv, hshows, ⟨F.pushed j ++ items, ?_, ?_, List.flatMap_append⟩,
      (List.nodup_cons.mp hnodup).2, fun x hx => ?_, hfit⟩
    · rw [hpushed, List.map_append]
    · intro i hi
      rcases List.mem_append.mp hi with hi | hi
      · exact hok.pushed_node hj hi
      · exact hnodes i (List.mem_cons_of_mem _ hi)
    · obtain ⟨hnode, hx'⟩ := hfresh x (List.mem_cons_of_mem _ hx)
      refine ⟨hnode, fun hmem => ?_⟩
      cases he : j.2 with
      | true => exact hx' (hkept he ▸ hmem)
      | false =>
        rcases List.mem_cons.mp (hvisited hmem) with heq | hmem
        · have hxj : (x, false) = j := Prod.ext (hok.ref_inj hnode hj heq) he.symm
          exact (List.nodup_cons.mp hnodup).1 (hxj ▸ hx)
        · exact hx' hmem

def Forest.visitsOf (F : Forest) (d : ℕ) : List (Pos × Bool) :=
  if F.node (d, []) = none then [] else F.tour (Forest.levels (d, [])) (d, [])

theorem Hold.ahead (h : Hold g K F s m) (d : ℕ) :
    Ahead F s.store (F.visitsOf d) (.start (s.root d)) := by
  have hok := h.tries.ok
  rw [h.root]
  unfold Forest.visitsOf TrieWalker.start
  by_cases hnode : F.node (d, []) = none
  · rw [if_pos hnode, if_pos (hok.ref_eq_zero.mpr hnode)]
    exact ⟨⟨[], rfl, by simp, rfl⟩, List.nodup_nil, by simp, by simp, rfl⟩
  · have hsome := Option.isSome_iff_ne_none.mpr hnode
    rw [if_neg hnode, if_neg (mt hok.ref_eq_zero.mp hnode)]
    refine ⟨⟨[((d, []), false)], rfl, by simpa using hsome, ?_⟩, hok.nodup_tour _ _, fun x hx => ?_,
      by simp, rfl⟩
    · simp [Forest.visits]
    · exact ⟨hok.node_of_mem_tour hsome hx, by simp⟩

end Ahead

section Listing

/-- The entries among some visits: a leaf is listed when it is first visited. -/
def Forest.entries (F : Forest) (l : List (Pos × Bool)) : List (ℕ × ℕ × Bytes) :=
  l.filterMap fun i => if i.2 then none
    else (F.entry i.1).map fun e => (e.1, e.2, i.1.2.reverse)

variable {l : List (Pos × Bool)} {i : Pos × Bool}

/-- The visits ahead are those the walk makes. -/
theorem Ahead.walks (h : Hold g K F s m) (hook : NoteHook) (ha : Ahead F s.store l w) :
    ∃ vs, Walks (Store.exec g) hook s.store w vs ∧ List.Forall₂ (Shows F) l vs := by
  induction l generalizing w with
  | nil =>
    rcases (ha.next_nil h).cases with ⟨r, t, hrun, rfl, hr, habort⟩ | ⟨_, _, _, hfalse⟩
    · obtain ⟨r, w'⟩ := r
      subst hr
      exact ⟨[], ⟨w', hrun, habort⟩, .nil⟩
    · exact hfalse.elim
  | cons i l ih =>
    rcases (ha.next_cons h).cases with ⟨r, t, hrun, rfl, v, hr, hshows, hahead⟩ | ⟨_, _, _, hfalse⟩
    · obtain ⟨r, w'⟩ := r
      subst hr
      obtain ⟨vs, hwalks, hall⟩ := ih hahead
      exact ⟨v :: vs, ⟨w', hrun, hwalks⟩, .cons hshows hall⟩
    · exact hfalse.elim

theorem Shows.entry_eq {v : Visit} (h : Shows F i v) : v.entry =
    if i.2 then none else (F.entry i.1).map fun e => (e.1, e.2, i.1.2.reverse) := by
  unfold Visit.entry
  rw [h.emitted, h.isLeaf]
  cases i.2 with
  | true => rfl
  | false =>
    cases he : F.entry i.1 with
    | none => rfl
    | some e =>
      obtain ⟨hnode, hname⟩ := h.entry e he
      simp [hname, ← hnode]

theorem filterMap_entry {vs : List Visit} (h : List.Forall₂ (Shows F) l vs) :
    vs.filterMap Visit.entry = F.entries l := by
  induction h with
  | nil => rfl
  | cons hshows _ ih =>
    simp only [Forest.entries, List.filterMap_cons, hshows.entry_eq] at ih ⊢
    rw [ih]

/-- A visitor of `WalkTrie` that collects the leaves. -/
def leafCollector (hook : NoteHook) : TrieVisitor (List (ℕ × ℕ × Bytes)) where
  visitNode := fun _ l => .visit l
  visitLeaf := fun v l => do
    let name ← v.page.readName v.node.nameLen v.node.nameOffset
    return l ++ [(v.node.inode, v.node.ftype, name)]
  note := hook

theorem fold_leafCollector {vs : List Visit} (h : List.Forall₂ (Shows F) l vs)
    (found : List (ℕ × ℕ × Bytes)) :
    (leafCollector hook).fold vs found = .ok (found ++ vs.filterMap Visit.entry) := by
  induction h generalizing found with
  | nil => simp [TrieVisitor.fold]
  | @cons i v l vs hshows _ ih =>
    dsimp only [TrieVisitor.fold, leafCollector] at ih ⊢
    by_cases hleaf : (!v.emitted && v.node.isLeaf) = true
    · obtain ⟨hfirst, hsome⟩ : v.emitted = false ∧ v.node.isLeaf = true := by simpa using hleaf
      rw [hshows.isLeaf] at hsome
      obtain ⟨e, he⟩ := Option.isSome_iff_exists.mp hsome
      obtain ⟨-, hname⟩ := hshows.entry e he
      have hentry : v.entry = some (v.node.inode, v.node.ftype, i.1.2.reverse) := by
        simp [Visit.entry, hfirst, hshows.isLeaf, he, hname]
      rw [if_pos hleaf, hname, List.filterMap_cons_some hentry]
      exact (ih _).trans (by simp)
    · have hentry : v.entry = none := by
        rw [Visit.entry, if_pos (by simpa [or_iff_not_imp_left] using hleaf)]
      rw [if_neg hleaf, List.filterMap_cons_none hentry]
      exact ih _

end Listing

section Exact

theorem Forest.Ok.mem_entries (h : F.Ok) {d ino ftype : ℕ} {name : Bytes} :
    (ino, ftype, name) ∈ F.entries (F.visitsOf d) ↔ F.entry (d, name.reverse) = some (ino, ftype) := by
  unfold Forest.entries Forest.visitsOf
  rw [List.mem_filterMap]
  constructor
  · rintro ⟨i, hi, hentry⟩
    split_ifs at hi with hroot
    · cases hi
    · obtain ⟨p, hp⟩ := Forest.below_of_mem_tour hi
      split_ifs at hentry
      obtain ⟨e, he, heq⟩ := Option.map_eq_some_iff.mp hentry
      obtain ⟨rfl, rfl, rfl⟩ : e.1 = ino ∧ e.2 = ftype ∧ i.1.2.reverse = name := by simpa using heq
      rw [List.reverse_reverse, show (d, i.1.2) = i.1 by rw [hp], he]
  · intro hentry
    have hnode := h.entry _ (by rw [hentry]; rfl)
    have hroot : F.node (d, []) ≠ none := fun hnone => by
      rw [h.node_of_no_root hnone] at hnode
      cases hnode
    have hdepth := h.depth _ hnode
    rw [if_neg hroot]
    refine ⟨((d, name.reverse), false), ?_, by simp [hentry]⟩
    simpa using h.mem_tour (x := (d, [])) (Forest.levels (d, [])) name.reverse
      (Nat.lt_succ_of_le hdepth) (by simpa using hnode)

theorem Forest.Ok.nodup_entries (h : F.Ok) (d : ℕ) : (F.entries (F.visitsOf d)).Nodup := by
  unfold Forest.entries Forest.visitsOf
  split_ifs with hroot
  · exact List.nodup_nil
  · refine List.pairwise_filterMap.mpr ((h.nodup_tour _ _).imp_of_mem fun {i j} hi hj hne => ?_)
    intro a ha b hb hab
    subst hab
    split_ifs at ha with hi2
    split_ifs at hb with hj2
    obtain ⟨e, he, rfl⟩ := Option.map_eq_some_iff.mp ha
    obtain ⟨e', he', heq⟩ := Option.map_eq_some_iff.mp hb
    obtain ⟨p, hp⟩ := Forest.below_of_mem_tour hi
    obtain ⟨p', hp'⟩ := Forest.below_of_mem_tour hj
    have hpath : j.1.2 = i.1.2 :=
      List.reverse_injective (Prod.mk.inj (Prod.mk.inj heq).2).2
    refine hne (Prod.ext (Prod.ext (by rw [hp, hp']) hpath.symm) ?_)
    rw [Bool.eq_false_of_not_eq_true hi2, Bool.eq_false_of_not_eq_true hj2]

theorem Hold.refBlock_lt (h : Hold g K F s m) (hx : (F.node x).isSome) :
    refBlock (F.ref x) < 2 ^ 64 := by
  obtain ⟨-, pages, H, hh, hin, -⟩ := h.tries.rep
  obtain ⟨-, n, hn, -⟩ := hin.self hx
  obtain ⟨hpage, -⟩ := hh.page_of_node hn
  obtain ⟨rel, hblock, -, hrel, -⟩ := hh.owns.taken _ (.inl hpage)
  have hfits := hh.owns.fits
  omega

/-- A walk takes fewer moves than `walkFuel`: the nodes have refs of their own. -/
theorem Hold.length_visitsOf (h : Hold g K F s m) (d : ℕ) : (F.visitsOf d).length < walkFuel := by
  have hok := h.tries.ok
  obtain ⟨-, hnodup, -, -⟩ := h.ahead d
  have hnode : ∀ i ∈ F.visitsOf d, (F.node i.1).isSome := by
    intro i hi
    unfold Forest.visitsOf at hi
    split_ifs at hi with hroot
    · cases hi
    · exact hok.node_of_mem_tour (Option.isSome_iff_ne_none.mpr hroot) hi
  have hnumbers : ((F.visitsOf d).map fun i => 2 * F.ref i.1 + i.2.toNat).Nodup := by
    refine List.Nodup.map_on (fun i hi j hj heq => ?_) hnodup
    have hi2 := Bool.toNat_lt i.2
    have hj2 := Bool.toNat_lt j.2
    have hparts : ∀ a b : ℕ, 2 * a + i.2.toNat = 2 * b + j.2.toNat →
        a = b ∧ i.2.toNat = j.2.toNat := by omega
    obtain ⟨href, hflag⟩ := hparts _ _ heq
    refine Prod.ext (hok.ref_inj (hnode i hi) (hnode j hj) href) ?_
    revert hflag
    cases i.2 <;> cases j.2 <;> decide
  have hsub : (F.visitsOf d).map (fun i => 2 * F.ref i.1 + i.2.toNat) ⊆ List.range (2 ^ 71) := by
    intro k hk
    obtain ⟨i, hi, rfl⟩ := List.mem_map.mp hk
    have hblock := h.refBlock_lt (hnode i hi)
    unfold refBlock at hblock
    have := Bool.toNat_lt i.2
    exact List.mem_range.mpr (by omega)
  have := (List.subperm_of_subset hnumbers hsub).length_le
  rw [List.length_map, List.length_range] at this
  unfold walkFuel
  omega

/-- What listing the directory `d` returns: through the iterator until it reports the end, through
a loop that takes a zero inode for the end, and as the leaves a walk collects. -/
structure Dirs.Lists (g : Geometry) (s : Dirs) (d : ℕ) (l : List (ℕ × ℕ × Bytes)) : Prop where
  iterated : (listEntries walkFuel (.start (s.root d))).run (Store.exec g) s.store = (.ok l, s.store)
  looped : (∀ e ∈ l, e.1 ≠ 0) → (iterateAll walkFuel (.start (s.root d))).run (Store.exec g) s.store =
    (.ok (l.map fun e => (e.1, e.2.1)), s.store)
  walked : ∀ hook, (walkTrie readBlock (leafCollector hook) (s.root d) []).run (Store.exec g) s.store =
    (.ok l, s.store)

theorem Hold.lists (h : Hold g K F s m) (d : ℕ) : s.Lists g d (F.entries (F.visitsOf d)) := by
  obtain ⟨vs, hwalks, hall⟩ := (h.ahead d).walks h .skip
  have hlength : vs.length < walkFuel := hall.length_eq ▸ h.length_visitsOf d
  rw [← filterMap_entry hall]
  refine ⟨hwalks.listEntries _ hlength hlength, fun hino => ?_, fun hook => ?_⟩
  · rw [hwalks.iterateAll _ hlength hlength, List.takeWhile_eq_self_iff.mpr]
    intro e he
    obtain ⟨e, hmem, rfl⟩ := List.mem_map.mp he
    simpa using hino e hmem
  · obtain ⟨vs', hwalks', hall'⟩ := (h.ahead d).walks h hook
    have hlength' : vs'.length < walkFuel := hall'.length_eq ▸ h.length_visitsOf d
    rw [filterMap_entry hall, ← filterMap_entry hall', walkTrie,
      Walks.walkTrieFrom (v := leafCollector hook) hwalks' _ hlength', fold_leafCollector hall']
    rfl

/-- Whatever was asked of directories that share their trie pages, listing one of them returns
every stored name with its inode number and type, each once, and nothing else. -/
theorem listing_exact {g : Geometry} {s : Store} (h : Fresh g s) (requests : List Request) (d : ℕ) :
    ∃ l, ((Dirs.empty s).run g requests).2.Lists g d l ∧ l.Nodup ∧
      ∀ ino ftype name, (ino, ftype, name) ∈ l ↔
        (Maps.commits (fun _ => ∅) requests ((Dirs.empty s).run g requests).1 d).lookup name =
          some (ino, ftype) := by
  obtain ⟨K, F, -, -, -, hhold⟩ := h.runs False False.elim requests
  have hok := hhold.tries.ok
  refine ⟨_, hhold.lists d, hok.nodup_entries d, fun ino ftype name => ?_⟩
  rw [hhold.entry]
  exact hok.mem_entries

/-- The sample leaves one entry in the directory 1. -/
theorem listing_exact_sample :
    (Maps.commits (fun _ => ∅) sampleRequests
      ((Dirs.empty sampleStore).run sampleGeometry sampleRequests).1 1).lookup [97, 98, 99] =
        some (8, 8) ∧
    ∃ l, ((Dirs.empty sampleStore).run sampleGeometry sampleRequests).2.Lists sampleGeometry 1 l ∧
      l.Nodup ∧ ∀ ino ftype name, (ino, ftype, name) ∈ l ↔
        (Maps.commits (fun _ => ∅) sampleRequests
          ((Dirs.empty sampleStore).run sampleGeometry sampleRequests).1 1).lookup name =
          some (ino, ftype) :=
  ⟨by decide +kernel, listing_exact fresh_sampleStore sampleRequests 1⟩

end Exact

end Briefs.Trie
