import Briefs.Trie.Insert

/-!
# Changing and removing entries

`TrieUpdateEntry` changes one entry of the forest and `TrieRemove` takes one away. A
removal also takes away the nodes above the entry that lead nowhere, so an empty
directory has no root.
-/

namespace Briefs.Trie

open Lib Lib.Program

namespace Forest

variable {F : Forest} {g : Geometry} {K : Rest} {pages : Set ℕ} {H H' : Heap} {s : Store}
  {hole : Set Pos} {x : Pos} {b c : UInt8} {r : Ref} {n : Node} {name : Bytes} {ino ftype : ℕ}

/-- There is no such entry, and nothing has changed. -/
def Missing (g : Geometry) (K : Rest) (F : Forest) (y : Pos) (s : Store) (e : Err) (t : Store) : Prop :=
  e = .errno .enoent ∧ F.entry y = none ∧ Rep g K F ∅ t ∧ s.Same t

/-- There is no such entry in the tries. -/
def NoEntry (g : Geometry) (K : Rest) (F : Forest) (y : Pos) (s : Store) (e : Err) (t : Store) : Prop :=
  e = .errno .enoent ∧ F.entry y = none ∧ Tries g K F t ∧ s.Same t

section Update

theorem rep_setEntry (hin : F.In ∅ H) (hcovers : F.Covers K.stray H) (h : F.Ok) (hx : F.node x = some r)
    (hfit : F.Fits ∅ x n) (hentry : (F.entry x).isSome)
    (hh : Holds g K pages (Function.update H r
      (some ⟨{ n.slot with inode := ino, ftype := ftype }, n.area⟩)) s) :
    Rep g K (F.withEntry x (some (ino, ftype)) (F.leaf x)) ∅ s := by
  have hothers := Node.Same.rel_update H r
  refine ⟨h.withEntry (by rw [hx]; rfl) fun htrue => ⟨rfl, h.leaf_kids htrue⟩, pages, _, hh, ?_,
    hcovers.withEntry _ _ hin hx (hothers _)⟩
  refine hin.withEntry h hx (fun y _ hy => hy) (hothers _) (Function.update_self _ _ _) ?_
  have hself : (F.withEntry x (some (ino, ftype)) (F.leaf x)).entry x = some (ino, ftype) :=
    Function.update_self _ _ _
  refine ⟨hfit.firstChild, hfit.childCount, ?_, fun e he => ?_, fun _ => .inr ?_, hfit.link⟩
  · rw [Forest.nodeType, hself, show (F.withEntry x (some (ino, ftype)) (F.leaf x)).leaf x = F.leaf x
      from Function.update_self _ _ _]
    simpa [Forest.nodeType, hentry] using hfit.nodeType
  · rw [hself] at he
    exact Option.some.inj he
  · exact hfit.area_of_entry hentry

/-- The loop of `TrieUpdateEntry`, from the node at `x` on. -/
theorem post_updateAt (rest : Bytes) (hrest : rest ≠ [])
    (hname : name.reverse = rest.reverse ++ x.2) (hrep : Rep g K F ∅ s) (hx : (F.node x).isSome) :
    Post (Store.exec g) (updateAt name ino ftype rest (F.ref x))
      (fun _ t => (F.entry (x.1, name.reverse)).isSome ∧ Rep g K (F.withEntry (x.1, name.reverse)
        (some (ino, ftype)) (F.leaf (x.1, name.reverse))) ∅ t)
      (Missing g K F (x.1, name.reverse) s) s := by
  induction rest generalizing x s with
  | nil => exact absurd rfl hrest
  | cons b rest ih =>
    obtain ⟨h, pages, H, hh, hin, hcovers⟩ := hrep
    have hname' : name.reverse = rest.reverse ++ b :: x.2 := by simpa using hname
    unfold updateAt
    rw [post_bind, post_attempt]
    refine (post_trieFindChild hh hin h hx).returns fun r t hpost => ?_
    obtain ⟨ht, hsame, hr⟩ := hpost
    dsimp only
    rcases hr with ⟨rfl, hb⟩ | ⟨rfl, hb⟩
    · rw [if_pos rfl]
      exact ⟨rfl, by rw [hname', h.entry_below hb], ⟨h, pages, H, ht, hin, hcovers⟩, hsame⟩
    · have hnode := h.node_child hb
      obtain ⟨n, hn, hfit⟩ := hin _ _ hnode.1
      rw [if_neg hnode.2]
      refine (post_trieRead ht hn).andThen fun q u hpost => ?_
      obtain ⟨hu, hpage, hnameOk, hq, hqn, hsame'⟩ := hpost
      rw [hq] at hnameOk hqn ⊢
      cases rest with
      | nil =>
        have hself : (x.1, name.reverse) = child x b := by rw [hname]; rfl
        have hne : name ≠ [] := by
          rintro rfl
          simp at hname
        have hmax : name.length ≤ maxNameLen := by
          have := h.depth _ ((h.kids x b).mp hb)
          rwa [← hself, List.length_reverse] at this
        rw [hself, if_pos rfl, hfit.isLeaf h]
        by_cases hentry : (F.entry (child x b)).isSome
        · have hnameOf : q.1.nameOf n.slot = name := by
            refine hpage.nameOf hnameOk hne hmax ?_
            rw [hqn, hfit.area_of_entry hentry, path_eq hname']
          rw [if_pos ⟨hentry, hnameOf⟩]
          refine (post_putNode hu hn (by rfl) (by rfl)).returns fun _ v hv => ⟨hentry, ?_⟩
          exact rep_setEntry hin hcovers h hnode.1 hfit hentry hv
        · rw [if_neg fun hand => hentry hand.1]
          exact ⟨rfl, by simpa using hentry, ⟨h, pages, H, hu, hin, hcovers⟩, hsame.trans hsame'⟩
      | cons c rest =>
        rw [if_neg (by simp), hfit.isInterm]
        cases hleafb : F.leaf (child x b) with
        | false =>
          rw [if_pos (by simp)]
          refine (ih (x := child x b) (by simp) (by simpa [child] using hname')
            ⟨h, pages, H, hu, hin, hcovers⟩ ((h.kids x b).mp hb)).mono (fun _ _ hQ => hQ) ?_
          rintro e v ⟨he, hnone, hrep, hsame''⟩
          exact ⟨he, hnone, hrep, (hsame.trans hsame').trans hsame''⟩
        | true =>
          rw [if_neg (by simp)]
          refine ⟨rfl, ?_, ⟨h, pages, H, hu, hin, hcovers⟩, hsame.trans hsame'⟩
          have hc : c ∉ F.kids (child x b) := by simp [h.leaf_kids hleafb]
          have := h.entry_below hc rest.reverse
          simpa [child, hname] using this

theorem post_trieUpdateEntry (h : Tries g K F s) {d : ℕ} :
    Post (Store.exec g) (trieUpdateEntry (F.ref (d, [])) name ino ftype)
      (fun _ t => (F.entry (d, name.reverse)).isSome ∧ ∃ F', Tries g K F' t ∧
        F'.ref (d, []) = F.ref (d, []) ∧ Changed F F' (d, name.reverse) (some (ino, ftype)))
      (NoEntry g K F (d, name.reverse) s) s := by
  unfold trieUpdateEntry
  refine post_ite.mpr ⟨fun hzero => ⟨rfl, ?_, h, .refl s⟩, fun hroot => ?_⟩
  · exact h.ok.entry_of_no_root (h.ok.ref_eq_zero.mp hzero) _
  · have hx : (F.node (d, [])).isSome :=
      Option.isSome_iff_ne_none.mpr fun hnone => hroot (h.ok.ref_eq_zero.mpr hnone)
    by_cases hname : name = []
    · subst hname
      exact ⟨rfl, h.root d, h, .refl s⟩
    refine (post_updateAt (x := (d, [])) name hname (by simp) h.rep hx).mono ?_ ?_
    · rintro _ t ⟨hentry, hrep⟩
      refine ⟨hentry, _, ⟨hrep, fun x hbelow hnode => ?_, fun d' => ?_⟩, rfl, rfl, fun _ _ => rfl⟩
      · by_cases hxe : x = (d, name.reverse)
        · right
          rw [hxe]
          simp [withEntry]
        · simpa [withEntry, hxe] using h.full x hbelow hnode
      · have hne : ((d', []) : Pos) ≠ (d, name.reverse) := by
          simpa using fun _ => Ne.symm hname
        exact (Function.update_of_ne hne _ _).trans (h.root d')
    · rintro e t ⟨he, hentry, hrep, hsame⟩
      exact ⟨he, hentry, ⟨hrep, h.full, h.root⟩, hsame⟩

end Update

section Collapse

theorem Fits.isBare (hfit : F.Fits hole x n) (h : F.Ok) :
    n.slot.isBare = true ↔ F.kids x = [] ∧ F.entry x = none := by
  rw [TrieSlot.isBare, hfit.isInterm, hfit.hasLeafBit, hfit.childCount, hfit.firstChild]
  cases hkids : F.kids x with
  | cons c rest => simp
  | nil =>
    cases hleaf : F.leaf x with
    | false => simp
    | true =>
      have := h.leaf x hleaf
      simp only [Bool.not_true, Bool.false_and, Bool.false_eq_true, true_and, false_iff]
      exact Option.isSome_iff_ne_none.mp this

theorem post_freeUnlinked (hh : Holds g K pages H' s) (hfloor : K.floor = ∅) (hin : F.In ∅ H)
    (hcovers : F.Covers K.stray H) (h : F.Ok) (hb : b ∈ F.kids x) (hempty : F.kids (child x b) = []) (hunlinked : F.Unlinked x b H H') :
    Post (Store.exec g) (trieFreeNode (F.ref (child x b)))
      (fun _ t => Rep g K (F.removeChild x b) ∅ t) never s := by
  have hnode := (h.node_child hb).1
  have hx := (h.parent x b hb).1
  obtain ⟨m, hm, -⟩ := hin _ _ hnode
  -- the child is neither its parent nor its previous sibling
  have hkeep : H' (F.ref (child x b)) = some m := by
    rw [hunlinked.others, hm]
    · exact h.ref_child_ne hx hb
    · intro c hc hhead heq
      obtain ⟨-, rfl⟩ := child_inj (h.inj _ _ _ hnode (heq ▸ (h.node_child hc).1))
      cases hafter : after b (F.kids x) with
      | nil => simp [hafter] at hhead
      | cons d rest =>
        obtain rfl : d = b := by simpa [hafter] using hhead
        obtain ⟨pre, post, hkids⟩ := List.append_of_mem hb
        have hnodup := h.nodup x
        rw [hkids, after_append_cons (notMem_of_nodup (hkids ▸ hnodup))] at hafter
        rw [hkids, hafter] at hnodup
        simp [List.nodup_append] at hnodup
  refine (post_trieFreeNode hh hfloor hkeep).returns fun _ t hpost => ?_
  obtain ⟨pages', ht⟩ := hpost
  refine ⟨h.removeChild hempty, pages', _, ht,
    (hin.removeChild h hb hunlinked).congr fun y r hy => ?_,
    (hcovers.mono (hunlinked.isSome hin h hx) rfl).erase hnode⟩
  refine Function.update_of_ne ?_ _ _
  rintro rfl
  have hyc : y ≠ child x b := by
    rintro rfl
    simp [Forest.removeChild] at hy
  rw [show (F.removeChild x b).node y = F.node y from Function.update_of_ne hyc _ _] at hy
  exact hyc (h.inj _ _ _ hy hnode)

/-- The nodes from `x` up to the root. -/
def spine (F : Forest) (x : Pos) : List Ref := x.2.tails.map fun p => F.ref (x.1, p)

theorem spine_child : F.spine (child x b) = F.ref (child x b) :: F.spine x := by
  simp [spine, child]

theorem spine_eq (F : Forest) (x : Pos) : ∃ rest, F.spine x = F.ref x :: rest := by
  obtain ⟨d, p⟩ := x
  cases p with
  | nil => exact ⟨[], rfl⟩
  | cons b p => exact ⟨F.spine (d, p), spine_child (x := (d, p))⟩

theorem spine_congr {F' : Forest} (h : ∀ p q, x.2 = p ++ q → F'.node (x.1, q) = F.node (x.1, q)) :
    F'.spine x = F.spine x := by
  unfold spine
  refine List.map_congr_left fun q hq => ?_
  obtain ⟨p, hp⟩ := (List.mem_tails _ _).mp hq
  rw [ref, h p q hp.symm, ref]

/-- A child goes away that leads nowhere; its parent may now lead nowhere. -/
structure Pruned (F F' : Forest) (x : Pos) : Prop where
  entry : F'.entry = F.entry
  full : (∀ z, z ≠ x → F.Full z) → ∀ z, z ≠ (x.1, []) → F'.Full z
  root : ∀ d, F'.node (d, []) = F.node (d, [])

theorem removeChild_full (hfull : ∀ z, z ≠ child x b → F.Full z) (z : Pos) (hz : z ≠ x) :
    (F.removeChild x b).Full z := by
  by_cases hzc : z = child x b
  · intro _ hnode
    simp [removeChild, hzc] at hnode
  · simpa [Full, removeChild, hz, hzc] using hfull z hzc

/-- The loop of `collapseAncestry`. -/
theorem post_collapseUp (p : Bytes) {d : ℕ} (hfloor : K.floor = ∅) (hrep : Rep g K F ∅ s)
    (hx : (F.node (d, p)).isSome) :
    Post (Store.exec g) (collapseUp (F.spine (d, p)))
      (fun _ t => ∃ F', Rep g K F' ∅ t ∧ Pruned F F' (d, p)) never s := by
  induction p generalizing F s with
  | nil => exact ⟨F, hrep, rfl, fun hfull z hz => hfull z hz, fun d => rfl⟩
  | cons b p ih =>
    obtain ⟨h, pages, H, hh, hin, hcovers⟩ := hrep
    change Post _ (collapseUp (F.spine (child (d, p) b))) _ _ _
    have hb : b ∈ F.kids (d, p) := (h.kids (d, p) b).mpr hx
    have hparent := (h.parent _ b hb).1
    obtain ⟨pre, post, hkids⟩ := List.append_of_mem hb
    obtain ⟨n, hn, hfit, -, hnext⟩ := hin.kid h hkids
    obtain ⟨-, k, hk, hkfit⟩ := hin.self hparent
    obtain ⟨rest, hspine⟩ := F.spine_eq (d, p)
    rw [spine_child, hspine]
    unfold collapseUp
    rw [post_bind, post_attempt]
    refine (post_trieRead hh hn).returns fun q t hpost => ?_
    obtain ⟨ht, -, -, hq, -⟩ := hpost
    dsimp only
    rw [hq]
    refine post_when.mpr ⟨fun hbare => ?_, fun hbare => ?_⟩
    · obtain ⟨hempty, hnone⟩ := (hfit.isBare h).mp hbare
      rw [post_bind, post_attempt]
      refine (post_trieRead ht hk).returns fun q' u hpost => ?_
      obtain ⟨hu, -, -, hq', -⟩ := hpost
      dsimp only
      rw [hq', hnext]
      refine (post_trieRelinkSibling hu hin h hkids hkfit.firstChild).andThen ?_
      rintro slot v ⟨rfl, H', hskips, hv⟩
      rw [hkfit.childCount_sub_one h hb]
      have hk' : H' (F.ref (d, p)) = some k := by
        rw [hskips.parent h hparent fun c hc => by simp [hkids, hc], hk]
      refine (post_putNode hv hk' (by rfl) (by rfl)).andThen fun _ w hw => ?_
      have hunlinked := hskips.unlinked h hparent hkids hk hkfit.firstChild
      refine (post_freeUnlinked hw hfloor hin hcovers h hb hempty hunlinked).andThen fun _ z hz => ?_
      have hsame : (F.removeChild (d, p) b).spine (d, p) = F.spine (d, p) := by
        refine spine_congr fun p' q' hpq => Function.update_of_ne ?_ _ _
        intro heq
        have hlen := congrArg (fun y : Pos => y.2.length) heq
        have hlen' := congrArg List.length hpq
        simp [child] at hlen hlen'
        omega
      rw [← hspine, ← hsame]
      have hparent' : ((F.removeChild (d, p) b).node (d, p)).isSome := by
        rw [show (F.removeChild (d, p) b).node (d, p) = F.node (d, p) from
          Function.update_of_ne (child_ne (d, p) b).symm _ _]
        exact hparent
      refine (ih hz hparent').returns fun _ y hpost => ?_
      obtain ⟨F', hF', hpruned⟩ := hpost
      refine ⟨F', hF', ?_, ?_, fun d' => ?_⟩
      · rw [hpruned.entry]
        exact Function.update_eq_self_iff.mpr hnone.symm
      · exact fun hfull => hpruned.full (removeChild_full hfull)
      · rw [hpruned.root]
        exact Function.update_of_ne (child_ne_root (d, p) b d').symm _ _
    · refine ⟨F, ⟨h, pages, H, ht, hin, hcovers⟩, rfl, fun hfull z _ => ?_, fun d => rfl⟩
      by_cases hz : z = child (d, p) b
      · intro _ _
        by_contra hboth
        push Not at hboth
        exact hbare ((hfit.isBare h).mpr (hz ▸ ⟨hboth.1, by simpa using hboth.2⟩))
      · exact hfull z hz

theorem post_freeRoot (hfloor : K.floor = ∅) (hrep : Rep g K F ∅ s) {d : ℕ} (hd : (F.node (d, [])).isSome)
    (hkids : F.kids (d, []) = []) (hentry : F.entry (d, []) = none) :
    Post (Store.exec g) (trieFreeNode (F.ref (d, [])))
      (fun _ t => Rep g K (F.withRoot d none) ∅ t) never s := by
  obtain ⟨h, pages, H, hh, hin, hcovers⟩ := hrep
  obtain ⟨hnode, n, hn, -⟩ := hin.self hd
  refine (post_trieFreeNode hh hfloor hn).returns fun _ t hpost => ?_
  obtain ⟨pages', ht⟩ := hpost
  refine ⟨h.removeRoot hkids hentry, pages', _, ht,
    hin.withRoot (fun y ry hy hnodey => Function.update_of_ne ?_ _ _) (by simp),
    hcovers.erase hnode⟩
  rintro rfl
  exact hy (h.inj _ _ _ hnodey hnode)

/-- `collapseAncestry`, with the nodes from `x` up. -/
theorem post_collapseAncestry (hfloor : K.floor = ∅) (hrep : Rep g K F ∅ s) (hx : (F.node x).isSome)
    (hfull : ∀ z, z ≠ x → F.Full z) (hroot : ∀ d, F.entry (d, []) = none) :
    Post (Store.exec g) (collapseAncestry (F.ref (x.1, [])) (F.spine x))
      (fun root t => ∃ F', Tries g K F' t ∧ F'.ref (x.1, []) = root ∧ F'.entry = F.entry ∧
        (∀ d, d ≠ x.1 → F'.ref (d, []) = F.ref (d, [])) ∧ (F'.kids (x.1, []) = [] → root = 0))
      never s := by
  obtain ⟨d, p⟩ := x
  have htop : (F.node (d, [])).isSome := hrep.1.node_of_append p [] (by simpa using hx)
  refine (post_collapseUp p hfloor hrep hx).andThen fun _ t hpost => ?_
  obtain ⟨F', ⟨h, pages, H, ht, hin, hcovers⟩, hpruned⟩ := hpost
  have hentry : ∀ d, F'.entry (d, []) = none := fun d => by rw [hpruned.entry, hroot]
  have href : ∀ d, F'.ref (d, []) = F.ref (d, []) := fun d => by rw [ref, hpruned.root, ref]
  rw [← hpruned.root] at htop
  obtain ⟨hnode, n, hn, hfit⟩ := hin.self htop
  rw [← href d, if_neg fun hzero => by simp [h.ref_eq_zero.mp hzero] at htop, post_bind, post_attempt]
  refine (post_trieRead ht hn).returns fun q u hpost => ?_
  obtain ⟨hu, -, -, hq, -⟩ := hpost
  dsimp only
  rw [hq]
  refine post_ite.mpr ⟨fun hbare => ?_, fun hbare => ?_⟩
  · obtain ⟨hempty, -⟩ := (hfit.isBare h).mp hbare
    refine (post_freeRoot hfloor ⟨h, pages, H, hu, hin, hcovers⟩ htop hempty (hentry d)).andThen fun _ v hv => ?_
    refine ⟨F'.withRoot d none, ⟨hv, fun z hbelow hz => ?_, hentry⟩, ?_, hpruned.entry,
      fun d' hd' => ?_, fun _ => rfl⟩
    · have hzd : z ≠ (d, []) := by
        rintro rfl
        simp [withRoot] at hz
      exact hpruned.full hfull z hzd hbelow (by simpa [withRoot, hzd] using hz)
    · simp [ref, withRoot]
    · rw [← href d']
      simp [ref, withRoot, hd']
  · refine ⟨F', ⟨⟨h, pages, H, hu, hin, hcovers⟩, fun z => ?_, hentry⟩, rfl, hpruned.entry,
      fun d' _ => href d', fun hempty => absurd ((hfit.isBare h).mpr ⟨hempty, hentry d⟩) hbare⟩
    by_cases hzd : z = (d, [])
    · subst hzd
      exact fun hbelow => absurd rfl hbelow
    · exact hpruned.full hfull z hzd

/-- The end of a removal: the node goes away, and what leads nowhere without it. -/
theorem post_removeNode (hh : Holds g K pages H s) (hfloor : K.floor = ∅) (hin : F.In ∅ H)
    (hcovers : F.Covers K.stray H) (h : F.Ok) {pre post : List UInt8}
    (hkids : F.kids x = pre ++ b :: post) (hempty : F.kids (child x b) = [])
    (hfull : ∀ z, z ≠ child x b → F.Full z) (hroot : ∀ d, F.entry (d, []) = none) :
    Post (Store.exec g)
      (do
        trieUnlinkChild (F.ref x) (F.last x pre) (F.ref (child x b))
        trieFreeNode (F.ref (child x b))
        collapseAncestry (F.ref (x.1, [])) (F.spine x))
      (fun root t => ∃ F', Tries g K F' t ∧ F'.ref (x.1, []) = root ∧ Changed F F' (child x b) none ∧
        (F'.kids (x.1, []) = [] → root = 0)) never s := by
  have hb : b ∈ F.kids x := by simp [hkids]
  refine (post_trieUnlinkChild hh hin h hkids).andThen fun _ t hpost => ?_
  obtain ⟨H', hunlinked, ht⟩ := hpost
  refine (post_freeUnlinked ht hfloor hin hcovers h hb hempty hunlinked).andThen fun _ u hu => ?_
  have hnode : ∀ y, y ≠ child x b → (F.removeChild x b).node y = F.node y := fun y hy =>
    Function.update_of_ne hy _ _
  have hnotRoot : ∀ d, ((d, []) : Pos) ≠ child x b := fun d => (child_ne_root x b d).symm
  have href : ∀ d, (F.removeChild x b).ref (d, []) = F.ref (d, []) := fun d => by
    rw [ref, hnode _ (hnotRoot d), ref]
  have hspine : (F.removeChild x b).spine x = F.spine x := by
    refine spine_congr fun p q hpq => hnode _ ?_
    intro heq
    have hlen := congrArg (fun y : Pos => y.2.length) heq
    have hlen' := congrArg List.length hpq
    simp [child] at hlen hlen'
    omega
  rw [← href, ← hspine]
  refine (post_collapseAncestry hfloor hu ?_ (removeChild_full hfull) fun d => ?_).returns ?_
  · rw [hnode _ (child_ne x b).symm]
    exact (h.parent x b hb).1
  · exact (Function.update_of_ne (hnotRoot d) _ _).trans (hroot d)
  · rintro root v ⟨F', hF', hroot', hentry, hrefs, hbare⟩
    exact ⟨F', hF', hroot', ⟨hentry, fun d hd => (hrefs d hd).trans (href d)⟩, hbare⟩

end Collapse

section Remove

/-- The root of a node below it has children. -/
theorem Ok.kids_root_ne (h : F.Ok) (hnode : (F.node x).isSome) (hx : x.2 ≠ []) :
    F.kids (x.1, []) ≠ [] := by
  obtain ⟨p, b, hp⟩ := List.eq_nil_or_concat' x.2 |>.resolve_left hx
  have hb : b ∈ F.kids (x.1, []) := by
    refine (h.kids (x.1, []) b).mpr (h.node_of_append p [b] ?_)
    rw [← hp]
    exact hnode
  exact List.ne_nil_of_mem hb

/-- The entry is gone, and with the last one the root. -/
def Removed (g : Geometry) (K : Rest) (F : Forest) (y : Pos) (root : Ref) (t : Store) : Prop :=
  (F.entry y).isSome ∧ ∃ F', Tries g K F' t ∧ F'.ref (y.1, []) = root ∧ Changed F F' y none ∧
    (F'.kids (y.1, []) = [] → root = 0)

/-- The node of an entry is no entry any more. -/
theorem In.clearEntry (hin : F.In ∅ H) (h : F.Ok) (hx : F.node x = some r) (hfit : F.Fits ∅ x n) :
    (F.withEntry x none false).In ∅
      (Function.update H r (some ⟨{ n.slot with nodeType := nodeTypeInterm }, n.area⟩)) := by
  refine hin.withEntry h hx (fun y _ hy => hy) (fun r' hr' => ?_) (Function.update_self _ _ _) ?_
  · rw [Function.update_of_ne hr']
    exact Node.Same.rel_refl _
  · have hnone : (F.withEntry x none false).entry x = none := Function.update_self _ _ _
    refine ⟨hfit.firstChild, hfit.childCount, ?_, ?_, fun _ => ?_, hfit.link⟩
    · rw [Forest.nodeType, hnone,
        show (F.withEntry x none false).leaf x = false from Function.update_self _ _ _]
      rfl
    · simp [hnone]
    · rcases hfit.area (by simp) with ⟨harea, -⟩ | harea
      · exact .inl ⟨harea, hnone⟩
      · exact .inr harea

/-- The last byte of a name that is removed. -/
theorem post_removeLast (h : Tries g K F s) (hfloor : K.floor = ∅) (hh : Holds g K pages H s)
    (hin : F.In ∅ H) (hcovers : F.Covers K.stray H) {pre post : List UInt8} (hkids : F.kids x = pre ++ b :: post) :
    Post (Store.exec g)
      (removeLast (F.ref (x.1, [])) (F.spine x) (F.ref x) (F.last x pre) (F.ref (child x b)))
      (Removed g K F (child x b)) (NoEntry g K F (child x b) s) s := by
  have hok := h.ok
  have hb : b ∈ F.kids x := by simp [hkids]
  have hnode := (hok.node_child hb).1
  obtain ⟨n, hn, hfit⟩ := hin _ _ hnode
  unfold removeLast
  refine (post_trieRead hh hn).andThen fun q t hpost => ?_
  obtain ⟨ht, -, -, hq, -, hsame⟩ := hpost
  dsimp only
  rw [hq, hfit.isInterm, hfit.hasLeafBit]
  cases hleafb : F.leaf (child x b) with
  | true =>
    refine (post_removeNode ht hfloor hin hcovers hok hkids (hok.leaf_kids hleafb)
      (fun z _ => h.full z) h.root).returns fun root u hu => ⟨hok.leaf _ hleafb, hu⟩
  | false =>
    cases hentry : F.entry (child x b) with
    | none =>
      exact ⟨rfl, hentry, ⟨⟨hok, pages, H, ht, hin, hcovers⟩, h.full, h.root⟩, hsame⟩
    | some e =>
      have hclear : n.slot.nodeType &&& (2 ^ 8 - 1 - nodeStatusLeaf) = nodeTypeInterm := by
        rw [hfit.nodeType]
        simp [Forest.nodeType, hleafb, hentry, nodeTypeInterm, nodeStatusLeaf]
      rw [if_neg (by simp), post_bind, post_when]
      refine ⟨fun _ => ?_, fun hne => absurd rfl hne⟩
      refine (post_putNode ht hn (by rfl) (by rfl)).returns fun _ u hu => ?_
      rw [hclear] at hu
      have hin' := hin.clearEntry hok hnode hfit
      have hcovers' := hcovers.withEntry none false hin hnode
        (Node.Same.rel_update H _ (some ⟨{ n.slot with nodeType := nodeTypeInterm }, n.area⟩))
      have hok' : (F.withEntry (child x b) none false).Ok :=
        hok.withEntry ((hok.kids x b).mp hb) (by simp)
      have hroot' : ∀ d, (F.withEntry (child x b) none false).entry (d, []) = none := fun d =>
        (Function.update_of_ne (child_ne_root x b d).symm _ _).trans (h.root d)
      have hfull' : ∀ z, z ≠ child x b → (F.withEntry (child x b) none false).Full z := fun z hz => by
        simpa [Full, withEntry, hz] using h.full z
      have hkids0 : (decide (n.slot.firstChild ≠ 0) || decide (n.slot.childCount ≠ 0)) =
          decide (F.kids (child x b) ≠ []) := by
        rw [hfit.firstChild, hfit.childCount]
        cases F.kids (child x b) <;> simp
      simp only [hkids0, Bool.not_false, Bool.true_and, decide_eq_true_eq]
      refine post_ite.mpr ⟨fun hhas => ?_, fun hnot => ?_⟩
      · refine ⟨by simp [hentry], F.withEntry (child x b) none false,
          ⟨⟨hok', pages, _, hu, hin', hcovers'⟩, fun z => ?_, hroot'⟩, rfl, ⟨rfl, fun _ _ => rfl⟩,
          fun hempty => absurd hempty (hok.kids_root_ne ((hok.kids x b).mp hb) (by simp [child]))⟩
        by_cases hz : z = child x b
        · subst hz
          exact fun _ _ => .inl hhas
        · exact hfull' z hz
      · refine (post_removeNode (F := F.withEntry (child x b) none false) hu hfloor hin' hcovers' hok'
          hkids (not_not.mp hnot) hfull' hroot').returns fun root v hpost => ?_
        obtain ⟨F', hF', hroot, hchanged, hbare⟩ := hpost
        refine ⟨by simp [hentry], F', hF', hroot, ⟨?_, hchanged.root⟩, hbare⟩
        rw [hchanged.entry, withEntry, Function.update_idem]

/-- The loop of `TrieRemove`, from the node at `x` on. -/
theorem post_removeAt (hfloor : K.floor = ∅) (rest : Bytes) (hrest : rest ≠ [])
    (hname : name.reverse = rest.reverse ++ x.2) (h : Tries g K F s) (hx : (F.node x).isSome) :
    Post (Store.exec g) (removeAt (F.ref (x.1, [])) rest (F.ref x) (F.spine x))
      (Removed g K F (x.1, name.reverse)) (NoEntry g K F (x.1, name.reverse) s) s := by
  induction rest generalizing x s with
  | nil => exact absurd rfl hrest
  | cons b rest ih =>
    have hname' : name.reverse = rest.reverse ++ b :: x.2 := by simpa using hname
    obtain ⟨⟨hok, pages, H, hh, hin, hcovers⟩, hfull, hroot⟩ := h
    unfold removeAt
    refine (post_trieFindChildWithPrev hh hin hok hx).andThen fun r t hpost => ?_
    obtain ⟨hfound, ht, hsame⟩ := hpost
    have htries : Tries g K F t := ⟨⟨hok, pages, H, ht, hin, hcovers⟩, hfull, hroot⟩
    rcases hfound with ⟨hr, hb⟩ | ⟨pre, post, hkids, rfl⟩
    · dsimp only
      rw [if_pos hr]
      exact ⟨rfl, by rw [hname', hok.entry_below hb], htries, hsame⟩
    · have hb : b ∈ F.kids x := by simp [hkids]
      dsimp only
      rw [if_neg (hok.node_child hb).2]
      cases rest with
      | nil =>
        rw [if_pos rfl, show (x.1, name.reverse) = child x b by rw [hname]; rfl]
        refine (post_removeLast htries hfloor ht hin hcovers hkids).mono (fun _ _ hQ => hQ) ?_
        rintro e u ⟨he, hnone, hu, hsame'⟩
        exact ⟨he, hnone, hu, hsame.trans hsame'⟩
      | cons c rest =>
        have hlen : (F.spine x).length < 256 := by
          have := hok.depth _ ((hok.kids x b).mp hb)
          simp [spine, child, maxNameLen] at this ⊢
          omega
        rw [if_neg (by simp), if_pos hlen, ← spine_child]
        refine (ih (x := child x b) (by simp) (by simpa [child] using hname') htries
          ((hok.kids x b).mp hb)).mono (fun _ _ hQ => hQ) ?_
        rintro e u ⟨he, hnone, hu, hsame'⟩
        exact ⟨he, hnone, hu, hsame.trans hsame'⟩

theorem post_trieRemove (h : Tries g K F s) (hfloor : K.floor = ∅) {d : ℕ} :
    Post (Store.exec g) (trieRemove (F.ref (d, [])) name)
      (Removed g K F (d, name.reverse)) (NoEntry g K F (d, name.reverse) s) s := by
  unfold trieRemove
  refine post_ite.mpr ⟨fun hzero => ⟨rfl, ?_, h, .refl s⟩, fun hroot => ?_⟩
  · exact h.ok.entry_of_no_root (h.ok.ref_eq_zero.mp hzero) _
  · by_cases hname : name = []
    · subst hname
      exact ⟨rfl, h.root d, h, .refl s⟩
    exact post_removeAt (x := (d, [])) hfloor name hname (by simp) h
      (Option.isSome_iff_ne_none.mpr fun hnone => hroot (h.ok.ref_eq_zero.mpr hnone))

end Remove

end Forest

end Briefs.Trie
