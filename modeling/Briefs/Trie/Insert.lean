import Briefs.Trie.Chain
import Briefs.Trie.Mutate

/-!
# Inserting into a trie

`TrieInsert` adds one entry to the forest. The path of a node spells the name of its
entry, so a leaf that is in the way of a longer name is always turned into an inner node
in its place: the branch of `trieSplitLeaf` that puts a node above the leaf is never taken.
-/

namespace Briefs.Trie

open Lib Lib.Program

namespace Forest

/-- The store holds the forest, apart from the names in the hole. -/
def Rep (g : Geometry) (K : Rest) (F : Forest) (hole : Set Pos) (s : Store) : Prop :=
  F.Ok ∧ ∃ pages H, Holds g K pages H s ∧ F.In hole H ∧ F.Covers K.stray H

/-- A node below a root is an entry or leads to one. -/
def Full (F : Forest) (x : Pos) : Prop :=
  x.2 ≠ [] → (F.node x).isSome → F.kids x ≠ [] ∨ (F.entry x).isSome

variable {F : Forest} {g : Geometry} {K : Rest} {pages : Set ℕ} {H H' : Heap} {s : Store}
  {hole : Set Pos} {x : Pos} {b c : UInt8} {r : Ref} {n : Node} {name : Bytes} {ino ftype : ℕ}

theorem Fits.isInterm (hfit : F.Fits hole x n) : n.slot.isInterm = !F.leaf x := by
  rw [TrieSlot.isInterm, hfit.nodeType, Forest.nodeType]
  split_ifs with hleaf <;> simp [hleaf, nodeTypeInterm, nodeStatusLeaf]

theorem Fits.hasLeafBit (hfit : F.Fits hole x n) :
    n.slot.hasLeafBit = (!F.leaf x && (F.entry x).isSome) := by
  rw [TrieSlot.hasLeafBit, hfit.nodeType, Forest.nodeType]
  split_ifs with hleaf hentry <;> simp [*, nodeTypeInterm, nodeStatusLeaf]

theorem Fits.isLeaf (hfit : F.Fits hole x n) (h : F.Ok) : n.slot.isLeaf = (F.entry x).isSome := by
  rw [TrieSlot.isLeaf, hfit.isInterm, hfit.hasLeafBit]
  cases hleaf : F.leaf x
  · simp
  · simp [h.leaf x hleaf]

theorem Fits.area_of_entry (hfit : F.Fits ∅ x n) (hentry : (F.entry x).isSome) :
    n.area = some (storedName x.2.reverse) := by
  rcases hfit.area (by simp) with ⟨-, hnone⟩ | harea
  · rw [hnone] at hentry
    cases hentry
  · exact harea

/-- A node has the nodes above it. -/
theorem Ok.node_of_append (h : F.Ok) {d : ℕ} (p q : Bytes) (hnode : (F.node (d, p ++ q)).isSome) :
    (F.node (d, q)).isSome := by
  induction p with
  | nil => exact hnode
  | cons b p ih => exact ih (h.parent (d, p ++ q) b ((h.kids _ b).mpr hnode)).1

/-- There is no node below one that is not there. -/
theorem Ok.node_below (h : F.Ok) (hb : b ∉ F.kids x) (p : Bytes) :
    F.node (x.1, p ++ b :: x.2) = none := by
  by_contra hne
  exact hb ((h.kids x b).mpr (h.node_of_append p (b :: x.2) (Option.isSome_iff_ne_none.mpr hne)))

theorem Ok.entry_below (h : F.Ok) (hb : b ∉ F.kids x) (p : Bytes) :
    F.entry (x.1, p ++ b :: x.2) = none := h.entry_of_absent (h.node_below hb p)

theorem Ok.node_of_no_root (h : F.Ok) {d : ℕ} (hd : F.node (d, []) = none) (p : Bytes) :
    F.node (d, p) = none := by
  by_contra hne
  have := h.node_of_append (d := d) p [] (by simpa using Option.isSome_iff_ne_none.mpr hne)
  rw [hd] at this
  cases this

theorem Ok.entry_of_no_root (h : F.Ok) {d : ℕ} (hd : F.node (d, []) = none) (p : Bytes) :
    F.entry (d, p) = none := h.entry_of_absent (h.node_of_no_root hd p)

section Create

/-- The child `b` of `x` is there, with room for a name of the given length. -/
structure Created (g : Geometry) (K : Rest) (F : Forest) (x : Pos) (b : UInt8) (leaf : Bool)
    (nameLen : ℕ) (r : Ref) (t : Store) : Prop where
  ne : r ≠ 0
  ok : (F.addChild x b r leaf).Ok
  holds : ∃ pages H, Holds g K pages H t ∧
    (F.addChild x b r leaf).In (if leaf then {child x b} else ∅) H ∧
    (F.addChild x b r leaf).Covers K.stray H ∧
    ∃ n, H r = some n ∧
      (nameLen ≠ 0 → ∃ bytes, n.area = some bytes ∧ bytes.length = nameLen + 2)

/-- `trieCreateChild` of a leaf or of an inner node. -/
theorem post_trieCreateChild (hh : Holds g K pages H s) (hin : F.In ∅ H)
    (hcovers : F.Covers K.stray H) (h : F.Ok)
    (hx : (F.node x).isSome) (hleafx : F.leaf x = false) (hb : b ∉ F.kids x)
    (hdepth : x.2.length < maxNameLen) (depth : ℕ) (leaf : Bool) {nameLen : ℕ}
    (hname : leaf = false → nameLen = 0) (hmax : nameLen ≤ maxNameLen) :
    Post (Store.exec g)
      (trieCreateChild g (F.ref x) depth b (if leaf then 0 else nodeTypeInterm) nameLen)
      (Created g K F x b leaf nameLen) (Stuck g K) s := by
  unfold trieCreateChild
  refine (post_trieAllocNode hh hmax).bind (fun _ _ he => he) fun r t hpost => ?_
  obtain ⟨hr0, hr, pages', n, hblank, ht⟩ := hpost
  obtain ⟨⟨off, hslot⟩, harea, hroom⟩ := hblank
  rw [if_neg hr0, post_bind, post_attempt]
  have hfresh : ∀ y, F.node y ≠ some r := by
    intro y hy
    obtain ⟨m, hm, -⟩ := hin y r hy
    rw [hr] at hm
    cases hm
  have habsent : F.node (child x b) = none := by
    by_contra hne
    exact hb ((h.kids x b).mpr (Option.isSome_iff_ne_none.mpr hne))
  refine (post_trieRead ht (Function.update_self _ _ _)).andThen fun q u hpost => ?_
  obtain ⟨hu, -, -, hq, -⟩ := hpost
  dsimp only
  rw [hq]
  refine (post_putNode hu (Function.update_self _ _ _) (by rfl) (by rfl)).andThen fun _ v hv => ?_
  rw [Function.update_idem] at hv
  have hin' : F.In ∅ (Function.update H r (some ⟨{ n.slot with
      depth := depth
      nodeType := if leaf then 0 else nodeTypeInterm
      byteVal := b }, n.area⟩)) := hin.congr fun y ry hy => by
    refine Function.update_of_ne ?_ _ _
    rintro rfl
    exact hfresh y hy
  refine (post_trieLinkChild hv hin' h hx).returns fun _ w hpost => ?_
  obtain ⟨H', hlinked, hw⟩ := hpost
  refine ⟨hr0, h.addChild hx hleafx hb hr0 hfresh hdepth, pages', H', hw, ?_, ?_, ?_⟩
  · refine hin'.addChild h hx hb hfresh hlinked (Function.update_self _ _ _) ?_
      (Set.empty_subset _) fun htrue => ?_
    · refine ⟨?_, ?_, ?_, ?_, ?_, rfl, rfl, fun hfalse => harea (by simp [hname hfalse])⟩ <;>
        rw [hslot]
    · rw [if_pos htrue]
      exact Set.mem_singleton _
  · exact (hcovers.insert habsent).mono (hlinked.isSome hin' h hx) rfl
  · have hkept := hlinked.others r (by rintro rfl; exact hfresh x (hin.self hx).1)
      (by rintro c hc rfl; exact hfresh _ (h.node_child (List.mem_of_getLast? hc)).1)
    refine ⟨_, hkept.trans (Function.update_self _ _ _), fun hne => ?_⟩
    rw [if_neg hne] at hroom
    exact hroom (by simp)

theorem post_orNoSpace {p : Prog Ref} {Q : Ref → Store → Prop} (hne : ∀ r t, Q r t → r ≠ 0)
    (h : Post (Store.exec g) p Q (Stuck g K) s) :
    Post (Store.exec g) (orNoSpace p) Q (Stuck g K) s := by
  unfold orNoSpace
  rw [post_bind, post_attempt]
  refine h.mono (fun r t hpost => ?_) fun e t he => ⟨rfl, he.2⟩
  dsimp only
  rw [if_neg (hne r t hpost)]
  exact hpost

end Create

section Commit

theorem mem_kids_of_node (h : F.Ok) (hnode : F.node (child x b) = some r) : b ∈ F.kids x :=
  (h.kids x b).mpr (by rw [hnode]; rfl)

/-- `commitLeafSlot` of a node whose name was stored. -/
theorem post_commitLeafSlot (hin : F.In hole H) (h : F.Ok) (hx : F.node x = some r)
    (hcovers : F.Covers K.stray H) (hhole : ∀ y, y ≠ x → y ∉ hole)
    (hrenames : Renames H r x.2.reverse H') (hh : Holds g K pages H' s) (leaf : Bool) (hleaf : leaf = true → F.kids x = []) :
    Post (Store.exec g)
      (commitLeafSlot r (if leaf then 0 else nodeTypeInterm ||| nodeStatusLeaf) ino ftype)
      (fun _ t => Rep g K (F.withEntry x (some (ino, ftype)) leaf) ∅ t) never s := by
  obtain ⟨n, hn, hfit⟩ := hin x r hx
  obtain ⟨off, hself⟩ := hrenames.self n hn
  refine (post_trieRead hh hself).andThen fun q t hpost => ?_
  obtain ⟨ht, -, -, hq, -⟩ := hpost
  dsimp only
  rw [hq]
  refine (post_putNode ht hself (by rfl) (by rfl)).returns fun _ u hu => ?_
  have hothers : ∀ o r', r' ≠ r → Option.Rel Node.Same (H r') (Function.update H' r o r') := by
    intro o r' hr'
    rw [Function.update_of_ne hr']
    exact hrenames.others r' hr'
  refine ⟨h.withEntry (by rw [hx]; rfl) fun htrue => ⟨rfl, hleaf htrue⟩, pages, _, hu, ?_,
    hcovers.withEntry _ _ hin hx (hothers _)⟩
  refine hin.withEntry h hx (fun y hy _ => hhole y hy) (hothers _) (Function.update_self _ _ _) ?_
  have hentry : (F.withEntry x (some (ino, ftype)) leaf).entry x = some (ino, ftype) :=
    Function.update_self _ _ _
  refine ⟨hfit.firstChild, hfit.childCount, ?_, fun e he => ?_, fun _ => .inr rfl, hfit.link⟩
  · rw [Forest.nodeType, hentry,
      show (F.withEntry x (some (ino, ftype)) leaf).leaf x = leaf from Function.update_self _ _ _]
    rfl
  · rw [hentry] at he
    exact Option.some.inj he

end Commit

/-- The forest `F'` is `F` with the entry `e` at `y`. If only `x` may have been a node that
leads nowhere, there is none left. -/
structure Inserted (F F' : Forest) (x y : Pos) (e : ℕ × ℕ) : Prop where
  absent : F.entry y = none
  entry : F'.entry = Function.update F.entry y (some e)
  full : (∀ z, z ≠ x → F.Full z) → ∀ z, F'.Full z
  root : ∀ d, F'.node (d, []) = F.node (d, [])

/-- An insert at `y` failed: there is no block left, the page of the node has no room for the
name, or the entry is there already and nothing was written since `s`. -/
inductive Refused (g : Geometry) (K : Rest) (F : Forest) (y : Pos) (s : Store) : Err → Store → Prop
  | stuck {e : Err} {t : Store} (h : Stuck g K e t) : Refused g K F y s e t
  | full {r : Ref} {t : Store} (hnode : F.node y = some r) (hroom : NoRoom s r y.2.reverse)
    (hholds : ∃ pages H, Holds g K pages H t) : Refused g K F y s (.errno .enospc) t
  | taken {t : Store} (hentry : (F.entry y).isSome) (hrep : Rep g K F ∅ t) (hsame : s.Same t) :
    Refused g K F y s (.errno .eexist) t

section Last

theorem inserted_addLeaf (h : F.Ok) (hb : b ∉ F.kids x) :
    Inserted F ((F.addChild x b r true).withEntry (child x b) (some (ino, ftype)) true) x (child x b)
      (ino, ftype) := by
  have habsent : F.node (child x b) = none := by
    by_contra hne
    exact hb ((h.kids x b).mpr (Option.isSome_iff_ne_none.mpr hne))
  refine ⟨h.entry_of_absent habsent, ?_, fun hfull z => ?_, fun d => ?_⟩
  · simp [Forest.withEntry, Forest.addChild]
  · by_cases hz : z = child x b
    · intro _ _
      right
      rw [hz]
      simp [Forest.withEntry]
    · by_cases hzx : z = x
      · intro _ _
        left
        rw [hzx]
        simp [Forest.withEntry, Forest.addChild]
      · simpa [Full, Forest.withEntry, Forest.addChild, hz, hzx] using hfull z hzx
  · exact Function.update_of_ne (child_ne_root x b d).symm _ _

theorem inserted_setEntry (hb : b ∈ F.kids x) (habsent : F.entry (child x b) = none) :
    Inserted F (F.withEntry (child x b) (some (ino, ftype)) false) x (child x b) (ino, ftype) := by
  refine ⟨habsent, rfl, fun hfull z => ?_, fun d => rfl⟩
  by_cases hz : z = child x b
  · intro _ _
    right
    rw [hz]
    simp [Forest.withEntry]
  · by_cases hzx : z = x
    · intro _ _
      left
      rw [hzx]
      exact List.ne_nil_of_mem hb
    · simpa [Full, Forest.withEntry, hz] using hfull z hzx

theorem path_eq (hname : name.reverse = b :: x.2) : (child x b).2.reverse = name := by
  rw [child, ← hname, List.reverse_reverse]

/-- The last byte of a name that is inserted. -/
theorem post_insertLast (hrep : Rep g K F ∅ s) (hx : (F.node x).isSome) (hleaf : F.leaf x = false)
    (hname : name.reverse = b :: x.2) (hmax : name.length ≤ maxNameLen) (pos : ℕ) :
    Post (Store.exec g) (insertLast g name ino ftype b pos (F.ref x))
      (fun _ t => ∃ F', Rep g K F' ∅ t ∧ Inserted F F' x (child x b) (ino, ftype))
      (Refused g K F (child x b) s) s := by
  obtain ⟨h, pages, H, hh, hin, hcovers⟩ := hrep
  have hpath := path_eq hname
  have hne : name ≠ [] := by
    rintro rfl
    simp at hname
  have hdepth : x.2.length < maxNameLen := by
    have := congrArg List.length hname
    simp at this
    omega
  unfold insertLast
  refine (post_trieFindChild hh hin h hx).andThen fun r t hpost => ?_
  obtain ⟨ht, hsame, hr⟩ := hpost
  rcases hr with ⟨rfl, hb⟩ | ⟨rfl, hb⟩
  · rw [if_neg (by simp)]
    refine (post_orNoSpace (fun _ _ hcreated => hcreated.ne) (post_trieCreateChild ht hin hcovers h hx
      hleaf hb hdepth (pos % 2 ^ 8) true (by simp) hmax)).bind (fun _ _ he => .stuck he)
      fun r u hpost => ?_
    obtain ⟨-, hok, pages', H', hu, hin', hcovers', n, hn, hroom⟩ := hpost
    have hnode : (F.addChild x b r true).node (child x b) = some r := Function.update_self _ _ _
    rw [post_bind, post_attempt]
    refine (post_trieRead hu hn).andThen fun q v hpost => ?_
    obtain ⟨hv, -⟩ := hpost
    refine (post_trieStoreName hv hn hne hmax).mono (fun _ w hpost => ?_) fun e w he => ?_
    · obtain ⟨H'', hrenames, hw⟩ := hpost
      rw [← hpath] at hrenames
      have hempty : (F.addChild x b r true).kids (child x b) = [] := hok.leaf_kids (by simp [addChild])
      refine (post_commitLeafSlot hin' hok hnode hcovers' ?_ hrenames hw true fun _ => hempty).returns
        fun _ z hz => ⟨_, hz, inserted_addLeaf h hb⟩
      intro y hy
      simpa using hy
    · -- the new node was made with room for the name
      obtain ⟨bytes, harea, hlen⟩ := hroom (by simpa using hne)
      exact absurd hlen (he.2.2.1 bytes harea)
  · have hnode := h.node_child hb
    obtain ⟨n, hn, hfit⟩ := hin _ _ hnode.1
    rw [if_pos hnode.2]
    refine (post_trieRead ht hn).andThen fun q u hpost => ?_
    obtain ⟨hu, hpage, hnameOk, hq, hqn, hsame'⟩ := hpost
    have hunwritten := hsame.trans hsame'
    dsimp only
    rw [hq] at hnameOk hqn ⊢
    have hnameOf : (F.entry (child x b)).isSome → q.1.nameOf n.slot = name := by
      intro hentry
      refine hpage.nameOf hnameOk hne hmax ?_
      rw [hqn, hfit.area_of_entry hentry, hpath]
    rw [hfit.isInterm, hfit.hasLeafBit]
    cases hleafb : F.leaf (child x b) with
    | true =>
      have hentry := h.leaf _ hleafb
      simp only [Bool.not_true, Bool.false_eq_true, if_false, if_pos (hnameOf hentry)]
      exact .taken hentry ⟨h, pages, H, hu, hin, hcovers⟩ hunwritten
    | false =>
      simp only [Bool.not_false, if_true, Bool.true_and]
      cases hentry : F.entry (child x b) with
      | some e =>
        rw [if_pos ⟨rfl, hnameOf (by simp [hentry])⟩]
        exact .taken (by simp [hentry]) ⟨h, pages, H, hu, hin, hcovers⟩ hunwritten
      | none =>
        rw [if_neg (by simp)]
        have htype : n.slot.nodeType ||| nodeStatusLeaf = nodeTypeInterm ||| nodeStatusLeaf := by
          simp [hfit.nodeType, Forest.nodeType, hleafb, hentry]
        rw [htype]
        refine (post_trieStoreName hu hn hne hmax).bind (fun e v he => ?_) fun _ v hpost => ?_
        · obtain ⟨rfl, ⟨p, c, hview, halloc⟩, -, hholds⟩ := he
          rw [hunwritten.view] at hview
          exact .full hnode.1 ⟨p, c, hview, hpath ▸ halloc⟩ ⟨pages, hholds⟩
        · obtain ⟨H', hrenames, hv⟩ := hpost
          rw [← hpath] at hrenames
          refine (post_commitLeafSlot hin h hnode.1 hcovers (by simp) hrenames hv false
            (by simp)).returns fun _ w hw => ⟨_, hw, inserted_setEntry hb hentry⟩

end Last

section Path

/-- The forest `F'` is `F` with the way into the child `b` of `x` open. -/
structure Opens (F F' : Forest) (x : Pos) (b : UInt8) : Prop where
  node : (F'.node (child x b)).isSome
  inner : F'.leaf (child x b) = false
  entry : F'.entry = F.entry
  full : (∀ z, z ≠ x → F.Full z) → ∀ z, z ≠ child x b → F'.Full z
  root : ∀ d, F'.node (d, []) = F.node (d, [])
  same : F' = F ∨ ∀ c p, F'.node (x.1, p ++ c :: b :: x.2) = none

theorem opens_self (h : F.Ok) (hb : b ∈ F.kids x) (hleaf : F.leaf (child x b) = false) :
    Opens F F x b := by
  refine ⟨(h.kids x b).mp hb, hleaf, rfl, fun hfull z hz => ?_, fun d => rfl, .inl rfl⟩
  by_cases hzx : z = x
  · intro _ _
    left
    rw [hzx]
    exact List.ne_nil_of_mem hb
  · exact hfull z hzx

theorem opens_addChild (h : F.Ok) (hb : b ∉ F.kids x) : Opens F (F.addChild x b r false) x b := by
  refine ⟨by simp [addChild], by simp [addChild], by simp [addChild], fun hfull z hz => ?_, fun d => ?_,
    .inr fun c p => ?_⟩
  · by_cases hzx : z = x
    · intro _ _
      left
      rw [hzx]
      simp [addChild]
    · simpa [Full, addChild, hz, hzx] using hfull z hzx
  · exact Function.update_of_ne (child_ne_root x b d).symm _ _
  · have hne : (x.1, p ++ c :: b :: x.2) ≠ child x b := by
      intro heq
      have := congrArg (fun y : Pos => y.2.length) heq
      simp [child] at this
      omega
    refine (Function.update_of_ne hne _ _).trans ?_
    simpa using h.node_below hb (p ++ [c])

/-- A leaf that becomes an inner node. -/
theorem opens_promote (h : F.Ok) (hb : b ∈ F.kids x) (hleaf : F.leaf (child x b) = true) :
    Opens F (F.withEntry (child x b) (F.entry (child x b)) false) x b := by
  refine ⟨(h.kids x b).mp hb, by simp [withEntry], by simp [withEntry], fun hfull z hz => ?_,
    fun d => rfl, .inr fun c p => ?_⟩
  · by_cases hzx : z = x
    · intro _ _
      left
      rw [hzx]
      exact List.ne_nil_of_mem hb
    · simpa [Full, withEntry, hz] using hfull z hzx
  · have hc : c ∉ F.kids (child x b) := by simp [h.leaf_kids hleaf]
    exact h.node_below hc p

theorem Opens.inserted {F' F'' : Forest} {y : Pos} {e : ℕ × ℕ} (hopens : Opens F F' x b)
    (h : Inserted F' F'' (child x b) y e) : Inserted F F'' x y e where
  absent := by rw [← hopens.entry, h.absent]
  entry := by rw [h.entry, hopens.entry]
  full hfull := h.full (hopens.full hfull)
  root d := (h.root d).trans (hopens.root d)

/-- If the node of a longer name is there, the way to it was, and nothing was written. -/
theorem Opens.refused {F' : Forest} {e : Err} {t u : Store} {p : Bytes} (hopens : Opens F F' x b)
    (h : F'.Ok) (hsame : F' = F → s.Same t)
    (hrefused : Refused g K F' (x.1, p ++ c :: b :: x.2) t e u) :
    Refused g K F (x.1, p ++ c :: b :: x.2) s e u := by
  cases hrefused with
  | stuck hstuck => exact .stuck hstuck
  | full hnode hroom hholds =>
    rcases hopens.same with rfl | hnone
    · obtain ⟨q, e, hview, halloc⟩ := hroom
      rw [(hsame rfl).view] at hview
      exact .full hnode ⟨q, e, hview, halloc⟩ hholds
    · rw [hnone] at hnode
      cases hnode
  | taken hentry hrep hsame' =>
    rcases hopens.same with rfl | hnone
    · exact .taken hentry hrep ((hsame rfl).trans hsame')
    · rw [h.entry_of_absent (hnone c p)] at hentry
      cases hentry

/-- `trieSplitLeaf` of the leaf that is the child `b` of `x`. -/
theorem post_trieSplitLeaf (hh : Holds g K pages H s) (hin : F.In ∅ H)
    (hcovers : F.Covers K.stray H) (h : F.Ok) (hb : b ∈ F.kids x)
    (hleaf : F.leaf (child x b) = true) (cur : Ref) :
    Post (Store.exec g) (trieSplitLeaf g cur (F.ref (child x b)) x.2.length b name ino ftype)
      (fun r t => r = F.ref (child x b) ∧
        Rep g K (F.withEntry (child x b) (F.entry (child x b)) false) ∅ t) never s := by
  have hnode := h.node_child hb
  have hentry := h.leaf _ hleaf
  obtain ⟨n, hn, hfit⟩ := hin _ _ hnode.1
  refine (post_trieRead hh hn).andThen fun q t hpost => ?_
  obtain ⟨ht, hpage, hnameOk, hq, hqn, -⟩ := hpost
  dsimp only
  rw [hq] at hnameOk hqn ⊢
  -- the name of the leaf is its path
  have hlen : n.slot.nameLen = x.2.length + 3 := by
    have harea := hfit.area_of_entry hentry
    rw [← hqn] at harea
    rw [(hpage.nameOk_node hnameOk harea).2.1, length_storedName]
    simp [child]
  rw [if_pos hlen]
  refine (post_putNode ht hn (by rfl) (by rfl)).andThen fun _ u hu => ⟨rfl, ?_⟩
  have hothers := Node.Same.rel_update H (F.ref (child x b))
  refine ⟨h.withEntry ((h.kids x b).mp hb) (by simp), pages, _, hu, ?_,
    hcovers.withEntry _ _ hin hnode.1 (hothers _)⟩
  refine hin.withEntry h hnode.1 (fun y _ hy => hy) (hothers _) (Function.update_self _ _ _) ?_
  have hsame : (F.withEntry (child x b) (F.entry (child x b)) false).entry = F.entry := by
    simp [withEntry]
  refine ⟨hfit.firstChild, hfit.childCount, ?_, ?_, ?_, hfit.link⟩
  · simp [Forest.nodeType, withEntry, hentry]
  · rw [hsame]
    exact hfit.entry
  · rw [hsame]
    exact hfit.area

theorem post_trieFindOrCreateChild (hrep : Rep g K F ∅ s) (hx : (F.node x).isSome)
    (hleaf : F.leaf x = false) (hdepth : x.2.length < maxNameLen) (depth : ℕ) :
    Post (Store.exec g) (trieFindOrCreateChild g (F.ref x) depth b)
      (fun r t => r ≠ 0 ∧
        (r = F.ref (child x b) ∧ b ∈ F.kids x ∧ Rep g K F ∅ t ∧ s.Same t ∨
          b ∉ F.kids x ∧ Rep g K (F.addChild x b r false) ∅ t)) (Stuck g K) s := by
  obtain ⟨h, pages, H, hh, hin, hcovers⟩ := hrep
  refine (post_trieFindChild hh hin h hx).andThen fun r t hpost => ?_
  obtain ⟨ht, hsame, hr⟩ := hpost
  rcases hr with ⟨rfl, hb⟩ | ⟨rfl, hb⟩
  · rw [if_pos rfl]
    refine (post_trieCreateChild ht hin hcovers h hx hleaf hb hdepth depth false (fun _ => rfl)
      (by simp)).mono (fun r u hpost => ?_) fun _ _ he => he
    obtain ⟨hne, hok, pages', H', hu, hin', hcovers', -⟩ := hpost
    exact ⟨hne, .inr ⟨hb, hok, pages', H', hu, hin', hcovers'⟩⟩
  · rw [if_neg (h.node_child hb).2, post_pure]
    exact ⟨(h.node_child hb).2, .inl ⟨rfl, hb, ⟨h, pages, H, ht, hin, hcovers⟩, hsame⟩⟩

/-- The loop of `TrieInsert`, from the node at `x` on. -/
theorem post_insertAt (hmax : name.length ≤ maxNameLen) (rest : Bytes) (hrest : rest ≠ [])
    (hname : name.reverse = rest.reverse ++ x.2) (hrep : Rep g K F ∅ s) (hx : (F.node x).isSome)
    (hleaf : F.leaf x = false) :
    Post (Store.exec g) (insertAt g name ino ftype rest x.2.length (F.ref x))
      (fun _ t => ∃ F', Rep g K F' ∅ t ∧ Inserted F F' x (x.1, name.reverse) (ino, ftype))
      (Refused g K F (x.1, name.reverse) s) s := by
  induction rest generalizing x F s with
  | nil => exact absurd rfl hrest
  | cons b rest ih =>
    cases rest with
    | nil =>
      rw [show (x.1, name.reverse) = child x b by rw [hname]; rfl]
      exact post_insertLast hrep hx hleaf (by simpa using hname) hmax x.2.length
    | cons c rest =>
      have hname' : name.reverse = (c :: rest).reverse ++ (child x b).2 := by
        rw [hname]
        simp [child]
      have hpath : name.reverse = rest.reverse ++ c :: b :: x.2 := by simpa [child] using hname'
      have hdepth : x.2.length < maxNameLen := by
        have := congrArg List.length hname
        simp at this
        omega
      -- the rest of the name, once the way into the child is open
      have hdown : ∀ F' t, Opens F F' x b → (F' = F → s.Same t) → Rep g K F' ∅ t →
          Post (Store.exec g)
            (insertAt g name ino ftype (c :: rest) (x.2.length + 1) (F'.ref (child x b)))
            (fun _ t => ∃ F', Rep g K F' ∅ t ∧ Inserted F F' x (x.1, name.reverse) (ino, ftype))
            (Refused g K F (x.1, name.reverse) s) t := by
        intro F' t hopens hsame hrep'
        refine (ih (by simp) hname' hrep' hopens.node hopens.inner).mono ?_ fun e u he => ?_
        · rintro _ u ⟨F'', hrep'', hinserted⟩
          exact ⟨F'', hrep'', hopens.inserted hinserted⟩
        · rw [hpath] at he ⊢
          exact hopens.refused hrep'.1 hsame he
      refine (post_orNoSpace (fun _ _ hpost => hpost.1)
        (post_trieFindOrCreateChild hrep hx hleaf hdepth _)).bind (fun _ _ he => .stuck he)
        fun r t hpost => ?_
      obtain ⟨-, hr⟩ := hpost
      rcases hr with ⟨rfl, hb, ⟨h, pages, H, ht, hin, hcovers⟩, hsame⟩ | ⟨hb, hrep'⟩
      · obtain ⟨n, hn, hfit⟩ := hin _ _ (h.node_child hb).1
        refine (post_trieRead ht hn).andThen fun q u hpost => ?_
        obtain ⟨hu, -, -, hq, -, hsame'⟩ := hpost
        dsimp only
        rw [hq, hfit.isInterm]
        cases hleafb : F.leaf (child x b) with
        | false =>
          rw [if_pos (by simp)]
          exact hdown F u (opens_self h hb hleafb) (fun _ => hsame.trans hsame')
            ⟨h, pages, H, hu, hin, hcovers⟩
        | true =>
          rw [if_neg (by simp)]
          refine (post_trieSplitLeaf hu hin hcovers h hb hleafb _).andThen fun r v hpost => ?_
          obtain ⟨hr, hv⟩ := hpost
          rw [hr]
          have hopens := opens_promote h hb hleafb
          refine hdown (F.withEntry (child x b) (F.entry (child x b)) false) v hopens (fun heq => ?_) hv
          rw [← heq, hopens.inner] at hleafb
          cases hleafb
      · have hopens := opens_addChild (r := r) hrep.1 hb
        have hnode : (F.addChild x b r false).node (child x b) = some r := Function.update_self _ _ _
        have href : (F.addChild x b r false).ref (child x b) = r := by rw [ref, hnode]; rfl
        obtain ⟨h', pages, H, ht, hin, hcovers⟩ := hrep'
        obtain ⟨n, hn, hfit⟩ := hin _ _ hnode
        refine (post_trieRead ht hn).andThen fun q u hpost => ?_
        obtain ⟨hu, -, -, hq, -⟩ := hpost
        dsimp only
        rw [hq, hfit.isInterm, hopens.inner, if_pos (by simp)]
        have := hdown _ u hopens (fun heq => ?_) ⟨h', pages, H, hu, hin, hcovers⟩
        · rwa [href] at this
        · rw [heq] at hnode
          exact absurd (mem_kids_of_node hrep.1 hnode) hb

end Path

/-- The store holds the tries of all directories, and no node leads nowhere. -/
structure Tries (g : Geometry) (K : Rest) (F : Forest) (s : Store) : Prop where
  rep : Rep g K F ∅ s
  full : ∀ x, F.Full x
  root : ∀ d, F.entry (d, []) = none

/-- The forest `F'` has the entries of `F` but `e` at `y`, and only the directory of `y` may
have another root. -/
structure Changed (F F' : Forest) (y : Pos) (e : Option (ℕ × ℕ)) : Prop where
  entry : F'.entry = Function.update F.entry y e
  root : ∀ d, d ≠ y.1 → F'.ref (d, []) = F.ref (d, [])

theorem Tries.ok (h : Tries g K F s) : F.Ok := h.rep.1

theorem Tries.leaf_root (h : Tries g K F s) (d : ℕ) : F.leaf (d, []) = false := by
  by_contra hne
  have := h.ok.leaf (d, []) (by simpa using hne)
  rw [h.root d] at this
  cases this

theorem Ok.ref_eq_zero (h : F.Ok) : F.ref x = 0 ↔ F.node x = none := by
  cases hnode : F.node x with
  | none => simp [ref, hnode]
  | some r =>
    have : r ≠ 0 := by
      rintro rfl
      exact h.pos x hnode
    simpa [ref, hnode] using this

/-- The root of a directory that has none yet. -/
theorem post_trieCreateRoot (hrep : Rep g K F ∅ s) {d : ℕ} (hd : F.node (d, []) = none) :
    Post (Store.exec g) (trieCreateRoot g) (fun r t => Rep g K (F.withRoot d (some r)) ∅ t)
      (Stuck g K) s := by
  obtain ⟨h, pages, H, hh, hin, hcovers⟩ := hrep
  refine (post_triePageInit hh 0 0 nodeTypeInterm).mono (fun r t hpost => ?_) fun _ _ he => he
  obtain ⟨hr0, -, hr, ht, -⟩ := hpost
  have hfresh : ∀ y, F.node y ≠ some r := by
    intro y hy
    obtain ⟨m, hm, -⟩ := hin y r hy
    rw [hr] at hm
    cases hm
  refine ⟨h.addRoot hr0 hfresh, _, _, ht, hin.withRoot (fun y ry _ hy => ?_) (fun r' hr' => ?_),
    hcovers.insert hd⟩
  · refine Function.update_of_ne ?_ _ _
    rintro rfl
    exact hfresh y hy
  · obtain rfl := Option.some.inj hr'
    refine ⟨_, Function.update_self _ _ _, ?_⟩
    have hentry := h.entry_of_absent hd
    have hleaf : F.leaf (d, []) = false := by
      by_contra hne
      have := h.leaf (d, []) (by simpa using hne)
      rw [hentry] at this
      cases this
    refine ⟨?_, ?_, ?_, ?_, fun _ => .inl ⟨rfl, hentry⟩, by simp⟩
    · rw [h.kids_of_absent hd]
      rfl
    · rw [h.kids_of_absent hd]
      rfl
    · simp [Forest.nodeType, hentry, hleaf]
    · simp [hentry]

theorem Tries.withRoot {t : Store} (h : Tries g K F s) {d : ℕ} {o : Option Ref}
    (hrep : Rep g K (F.withRoot d o) ∅ t) : Tries g K (F.withRoot d o) t := by
  refine ⟨hrep, fun x hbelow hnode => ?_, h.root⟩
  have hne : x ≠ (d, []) := by
    rintro rfl
    exact hbelow rfl
  exact h.full x hbelow (by simpa [Forest.withRoot, Function.update_of_ne hne] using hnode)

theorem post_trieInsert (h : Tries g K F s) (d ino ftype : ℕ) (hname : name ≠ [])
    (hmax : name.length ≤ maxNameLen) :
    Post (Store.exec g) (trieInsert g (F.ref (d, [])) name ino ftype)
      (fun root t => F.entry (d, name.reverse) = none ∧ ∃ F', Tries g K F' t ∧ F'.ref (d, []) = root ∧
        Changed F F' (d, name.reverse) (some (ino, ftype)))
      (Refused g K F (d, name.reverse) s) s := by
  have hok := h.ok
  have hrev : name.reverse ≠ [] := by simpa using hname
  -- the loop, from the root the call found or made
  have hloop : ∀ F' t, Rep g K F' ∅ t → (F'.node (d, [])).isSome → F'.entry = F.entry →
      F'.leaf (d, []) = false → (∀ x, x ≠ (d, []) → F'.Full x) →
      (∀ d', d' ≠ d → F'.node (d', []) = F.node (d', [])) →
      (F' = F ∧ t = s ∨ F'.node (d, name.reverse) = none) →
      Post (Store.exec g)
        (insertAt g name ino ftype name 0 (F'.ref (d, [])) >>= fun _ => pure (F'.ref (d, [])))
        (fun root t => F.entry (d, name.reverse) = none ∧ ∃ F', Tries g K F' t ∧
          F'.ref (d, []) = root ∧ Changed F F' (d, name.reverse) (some (ino, ftype)))
        (Refused g K F (d, name.reverse) s) t := by
    intro F' t hrep hnode hentry hleaf hfull hroot hsame
    refine (post_insertAt (x := (d, [])) hmax name hname (by simp) hrep hnode hleaf).bind ?_ ?_
    · intro e u hrefused
      rcases hsame with ⟨rfl, rfl⟩ | hnone
      · exact hrefused
      · -- the root is new, so the node of the name cannot have been there
        cases hrefused with
        | stuck hstuck => exact .stuck hstuck
        | full hnode' _ _ => exact absurd hnode' (by simp [hnone])
        | taken hsome _ _ => exact absurd hsome (by simp [hrep.1.entry_of_absent hnone])
    · rintro _ u ⟨F'', hrep'', hinserted⟩
      refine ⟨hentry ▸ hinserted.absent, F'', ⟨hrep'', hinserted.full hfull, fun d' => ?_⟩, ?_, ?_, ?_⟩
      · rw [hinserted.entry, Function.update_of_ne (by simpa using fun _ => hrev.symm), hentry, h.root]
      · rw [ref, hinserted.root, ref]
      · rw [hinserted.entry, hentry]
      · intro d' hd'
        rw [ref, hinserted.root, hroot d' hd', ref]
  unfold trieInsert
  rw [post_bind, post_require]
  refine ⟨fun _ => ?_, fun hlong => absurd hmax hlong⟩
  by_cases hroot : F.ref (d, []) = 0
  · rw [if_pos hroot]
    have hnone := hok.ref_eq_zero.mp hroot
    refine (post_trieCreateRoot h.rep hnone).bind (fun _ _ he => .stuck he) fun r t ht => ?_
    have hnode : (F.withRoot d (some r)).node (d, []) = some r := Function.update_self _ _ _
    have := hloop (F.withRoot d (some r)) t ht (by rw [hnode]; rfl) rfl (h.leaf_root d)
      (fun x hx => ?_) (fun d' hd' => ?_) (.inr ?_)
    · rw [show (F.withRoot d (some r)).ref (d, []) = r by rw [ref, hnode]; rfl] at this
      exact this
    · simpa [Full, withRoot, Function.update_of_ne hx] using h.full x
    · exact Function.update_of_ne (by simpa using hd') _ _
    · refine (Function.update_of_ne ?_ _ _).trans (hok.node_of_no_root hnone _)
      simpa using hname
  · rw [if_neg hroot, post_bind, post_pure]
    refine hloop F s h.rep ?_ rfl (h.leaf_root d) (fun x _ => h.full x) (fun _ _ => rfl)
      (.inl ⟨rfl, rfl⟩)
    exact Option.isSome_iff_ne_none.mpr fun hnone => hroot (hok.ref_eq_zero.mpr hnone)

/-- `TrieInsert` of a name that is too long. -/
theorem post_trieInsert_long (s : Store) (root : Ref) (ino ftype : ℕ)
    (hlong : maxNameLen < name.length) :
    Post (Store.exec g) (trieInsert g root name ino ftype) (fun _ _ => False)
      (fun _ t => t = s) s := by
  unfold trieInsert
  rw [post_bind, post_require]
  exact ⟨fun hmax => absurd hmax (Nat.not_le.mpr hlong), fun _ => rfl⟩

/-- `TrieInsert` of the empty name makes a root at most. -/
theorem post_trieInsert_nil (h : Tries g K F s) (d ino ftype : ℕ) :
    Post (Store.exec g) (trieInsert g (F.ref (d, [])) [] ino ftype)
      (fun root t => ∃ F', Tries g K F' t ∧ F'.ref (d, []) = root ∧ F'.entry = F.entry ∧
        ∀ d', d' ≠ d → F'.ref (d', []) = F.ref (d', []))
      (Stuck g K) s := by
  unfold trieInsert
  rw [post_bind, post_require]
  refine ⟨fun _ => ?_, fun hlong => absurd (Nat.zero_le _) hlong⟩
  by_cases hroot : F.ref (d, []) = 0
  · rw [if_pos hroot]
    refine (post_trieCreateRoot h.rep (h.ok.ref_eq_zero.mp hroot)).bind (fun _ _ he => he)
      fun r t ht => ⟨F.withRoot d (some r), h.withRoot ht, ?_, rfl, fun d' hd' => ?_⟩
    · simp [ref, Forest.withRoot]
    · simp [ref, Forest.withRoot, hd']
  · rw [if_neg hroot]
    exact ⟨F, h, rfl, rfl, fun _ _ => rfl⟩

end Forest

end Briefs.Trie
