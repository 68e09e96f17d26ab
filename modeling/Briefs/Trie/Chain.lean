import Briefs.Trie.Forest

/-!
# The lists of children

The functions of `trie_mutate.go` that walk and change the sibling chain of a node, over
a heap that has the nodes of a forest. No node has more than 256 children, so no walk runs
out of hops.
-/

namespace Briefs.Trie

open Lib Lib.Program

namespace Forest

def last (F : Forest) (x : Pos) (l : List UInt8) : Ref :=
  match l.getLast? with
  | none => 0
  | some c => F.ref (child x c)

/-- What the search for the child `b` of `x` finds: the child with its previous sibling. -/
def Found (F : Forest) (x : Pos) (b : UInt8) (r : Ref × Ref) : Prop :=
  r.1 = 0 ∧ b ∉ F.kids x ∨
    ∃ pre post, F.kids x = pre ++ b :: post ∧ r = (F.ref (child x b), F.last x pre)

variable {F : Forest} {g : Geometry} {K : Rest} {pages : Set ℕ} {H H' : Heap} {s : Store} {hole : Set Pos}
  {x : Pos} {b c : UInt8} {r : Ref}

theorem last_append_singleton (l : List UInt8) : F.last x (l ++ [c]) = F.ref (child x c) := by
  simp [last]

theorem In.self (hin : F.In hole H) (hx : (F.node x).isSome) :
    F.node x = some (F.ref x) ∧ ∃ n, H (F.ref x) = some n ∧ F.Fits hole x n := by
  obtain ⟨r, hr⟩ := Option.isSome_iff_exists.mp hx
  have href : F.ref x = r := by simp [ref, hr]
  rw [href]
  exact ⟨hr, hin x r hr⟩

theorem In.kid (hin : F.In hole H) (h : F.Ok) {pre post : List UInt8}
    (hkids : F.kids x = pre ++ c :: post) :
    ∃ n, H (F.ref (child x c)) = some n ∧ F.Fits hole (child x c) n ∧ n.slot.byteVal = c ∧
      n.slot.nextSibling = F.first x post := by
  have hc : c ∈ F.kids x := by simp [hkids]
  obtain ⟨n, hn, hfit⟩ := hin _ _ (h.node_child hc).1
  obtain ⟨hbyte, hnext⟩ := hfit.link c x.2 rfl
  refine ⟨n, hn, hfit, hbyte, ?_⟩
  change n.slot.nextSibling = F.first x (after c (F.kids x)) at hnext
  rw [hnext, hkids, after_append_cons (notMem_of_nodup (hkids ▸ h.nodup x))]

/-- The search for a child, with any way to read a node. -/
theorem post_trieScanSiblings {I : Store → Prop} {readNode : Ref → Prog TrieSlot}
    (hread : ∀ ref n s, H ref = some n → I s →
      Post (Store.exec g) (readNode ref) (fun slot t => slot = n.slot ∧ I t) never s)
    (hin : F.In hole H) (h : F.Ok) (parent : Ref) (rest pre : List UInt8) (hops : ℕ)
    (hkids : F.kids x = pre ++ rest) (hb : b ∉ pre) (hhops : rest.length ≤ hops) (hs : I s) :
    Post (Store.exec g)
      (trieScanSiblings readNode parent b hops (F.first x rest) (F.last x pre))
      (fun r t => F.Found x b r ∧ I t) never s := by
  induction rest generalizing pre hops s with
  | nil =>
    unfold trieScanSiblings
    rw [first_nil, if_pos rfl]
    exact ⟨.inl ⟨rfl, by simpa [hkids] using hb⟩, hs⟩
  | cons c rest ih =>
    obtain ⟨n, hn, -, hbyte, hnext⟩ := hin.kid h hkids
    have hne := (h.node_child (show c ∈ F.kids x by simp [hkids])).2
    obtain ⟨hops, rfl⟩ : ∃ k, hops = k + 1 := ⟨hops - 1, by simp at hhops; omega⟩
    unfold trieScanSiblings
    rw [first_cons, if_neg hne]
    refine (hread _ n s hn hs).andThen fun slot t hpost => ?_
    obtain ⟨hslot, ht⟩ := hpost
    subst hslot
    refine post_ite.mpr ⟨fun heq => ?_, fun hbc => ?_⟩
    · rw [hbyte] at heq
      subst heq
      exact ⟨.inr ⟨pre, rest, hkids, rfl⟩, ht⟩
    · rw [hbyte] at hbc
      rw [hnext, ← last_append_singleton (x := x) pre]
      refine ih (pre ++ [c]) hops (by simpa using hkids) ?_ (by simpa using hhops) ht
      rw [List.mem_append, List.mem_singleton]
      exact fun hmem => hmem.elim hb fun heq => hbc heq.symm

theorem post_trieFindChildWithPrev (hh : Holds g K pages H s) (hin : F.In hole H) (h : F.Ok)
    (hx : (F.node x).isSome) :
    Post (Store.exec g) (trieFindChildWithPrev (F.ref x) b)
      (fun r t => F.Found x b r ∧ Holds g K pages H t ∧ s.Same t) never s := by
  obtain ⟨-, n, hn, hfit⟩ := hin.self hx
  refine (post_trieRead hh hn).andThen fun r t hpost => ?_
  obtain ⟨ht, -, -, hslot, -, hsame⟩ := hpost
  dsimp only
  rw [hslot, hfit.firstChild, show (0 : Ref) = F.last x [] from rfl]
  refine post_trieScanSiblings (I := fun t => Holds g K pages H t ∧ s.Same t)
    (fun ref n s hn hs => ?_) hin h _ _ _ _ rfl (by simp) ?_ ⟨ht, hsame⟩
  · refine (post_trieRead hs.1 hn).andThen fun r t hpost => ?_
    obtain ⟨ht, -, -, hslot, -, hsame⟩ := hpost
    exact ⟨hslot, ht, hs.2.trans hsame⟩
  · exact (h.length_kids_le x).trans (by unfold trieSiblingMax; omega)

theorem post_trieFindChild (hh : Holds g K pages H s) (hin : F.In hole H) (h : F.Ok)
    (hx : (F.node x).isSome) :
    Post (Store.exec g) (trieFindChild (F.ref x) b)
      (fun r t => Holds g K pages H t ∧ s.Same t ∧
        (r = 0 ∧ b ∉ F.kids x ∨ r = F.ref (child x b) ∧ b ∈ F.kids x)) never s := by
  refine (post_trieFindChildWithPrev hh hin h hx).andThen fun r t hpost => ?_
  obtain ⟨hfound, ht, hsame⟩ := hpost
  refine ⟨ht, hsame, ?_⟩
  rcases hfound with ⟨hr, hb⟩ | ⟨pre, post, hkids, rfl⟩
  · exact .inl ⟨hr, hb⟩
  · exact .inr ⟨rfl, by simp [hkids]⟩

section Link

/-- The walk of `trieLinkChild`. -/
theorem post_linkLast (hh : Holds g K pages H s) (hin : F.In hole H) (h : F.Ok) (parent : Ref)
    (rest pre : List UInt8) (c : UInt8) (hops : ℕ) (hkids : F.kids x = pre ++ c :: rest)
    (hhops : rest.length < hops) :
    Post (Store.exec g) (linkLast parent r hops (F.ref (child x c)))
      (fun _ t => ∃ d n, (F.kids x).getLast? = some d ∧ H (F.ref (child x d)) = some n ∧
        Holds g K pages (Function.update H (F.ref (child x d))
          (some ⟨{ n.slot with nextSibling := r }, n.area⟩)) t) never s := by
  induction rest generalizing pre c hops s with
  | nil =>
    obtain ⟨hops, rfl⟩ : ∃ k, hops = k + 1 := ⟨hops - 1, by omega⟩
    obtain ⟨n, hn, -, -, hnext⟩ := hin.kid h hkids
    refine (post_trieRead hh hn).andThen fun q t hpost => ?_
    obtain ⟨ht, -, -, hslot, -⟩ := hpost
    dsimp only
    rw [hslot, hnext, first_nil, if_pos rfl]
    exact (post_putNode ht hn (by rfl) (by rfl)).returns fun _ u hu => ⟨c, n, by simp [hkids], hn, hu⟩
  | cons d rest ih =>
    obtain ⟨hops, rfl⟩ : ∃ k, hops = k + 1 := ⟨hops - 1, by omega⟩
    obtain ⟨n, hn, -, -, hnext⟩ := hin.kid h hkids
    have hne := (h.node_child (show d ∈ F.kids x by simp [hkids])).2
    refine (post_trieRead hh hn).andThen fun q t hpost => ?_
    obtain ⟨ht, -, -, hslot, -⟩ := hpost
    dsimp only
    rw [hslot, hnext, first_cons, if_neg hne]
    exact ih ht (pre ++ [c]) d hops (by simpa using hkids) (by simpa using hhops)

/-- A child is another node than its parent. -/
theorem Ok.ref_child_ne (h : F.Ok) (hx : (F.node x).isSome) (hc : c ∈ F.kids x) :
    F.ref (child x c) ≠ F.ref x := by
  obtain ⟨r, hr⟩ := Option.isSome_iff_exists.mp hx
  intro heq
  exact child_ne x c (h.inj _ _ _ (h.node_child hc).1 (by rw [heq, ref, hr]; rfl))

theorem post_trieLinkChild (hh : Holds g K pages H s) (hin : F.In hole H) (h : F.Ok)
    (hx : (F.node x).isSome) :
    Post (Store.exec g) (trieLinkChild (F.ref x) r)
      (fun _ t => ∃ H', F.Linked x r H H' ∧ Holds g K pages H' t) never s := by
  obtain ⟨-, n, hn, hfit⟩ := hin.self hx
  have hcount : (n.slot.childCount + 1) % 2 ^ 16 = n.slot.childCount + 1 := by
    have := h.length_kids_le x
    rw [← hfit.childCount] at this
    omega
  refine (post_trieRead hh hn).andThen fun q t hpost => ?_
  obtain ⟨ht, -, -, hslot, -⟩ := hpost
  dsimp only
  rw [hslot, hcount, hfit.firstChild]
  cases hkids : F.kids x with
  | nil =>
    rw [first_nil, if_pos rfl]
    refine (post_putNode ht hn (by rfl) (by rfl)).returns fun _ u hu => ⟨_, ?_, hu⟩
    refine ⟨?_, ?_, ?_⟩
    · exact fun r' hr' _ => Function.update_of_ne hr' _ _
    · intro m hm
      obtain rfl : n = m := Option.some.inj (hn.symm.trans hm)
      simp [hkids]
    · intro c m hlast
      simp [hkids] at hlast
  | cons c rest =>
    have hne := (h.node_child (show c ∈ F.kids x by simp [hkids])).2
    rw [first_cons, if_neg hne]
    refine (post_linkLast ht hin h _ rest [] c _ hkids ?_).andThen
      fun _ u hpost => ?_
    · have hlen := h.length_kids_le x
      rw [hkids, List.length_cons] at hlen
      unfold trieSiblingMax
      omega
    · obtain ⟨d, m, hlast, hm, hu⟩ := hpost
      have hd : F.ref (child x d) ≠ F.ref x := h.ref_child_ne hx (List.mem_of_getLast? hlast)
      have hn' : Function.update H (F.ref (child x d))
          (some ⟨{ m.slot with nextSibling := r }, m.area⟩) (F.ref x) = some n := by
        rw [Function.update_of_ne (Ne.symm hd), hn]
      refine (post_putNode hu hn' (by rfl) (by rfl)).returns fun _ v hv => ⟨_, ?_, hv⟩
      refine ⟨?_, ?_, ?_⟩
      · intro r' hr' hr'last
        rw [Function.update_of_ne hr', Function.update_of_ne (hr'last d hlast)]
      · intro k hk
        obtain rfl : n = k := Option.some.inj (hn.symm.trans hk)
        simp [hkids, hfit.firstChild, first]
      · intro e k he hk
        obtain rfl : d = e := Option.some.inj (hlast.symm.trans he)
        obtain rfl : m = k := Option.some.inj (hm.symm.trans hk)
        rw [Function.update_of_ne hd, Function.update_self]

end Link

section Unlink

/-- The heap `H'` is `H` with the last of the children `pre` linked to the first of `post`. -/
def Skips (F : Forest) (x : Pos) (pre post : List UInt8) (H H' : Heap) : Prop :=
  pre = [] ∧ H' = H ∨
    ∃ pre' c m, pre = pre' ++ [c] ∧ H (F.ref (child x c)) = some m ∧
      H' = Function.update H (F.ref (child x c))
        (some ⟨{ m.slot with nextSibling := F.first x post }, m.area⟩)

variable {pre post : List UInt8} {n : Node}

/-- The parent of children that were relinked keeps its node. -/
theorem Skips.parent (hskips : F.Skips x pre post H H') (h : F.Ok) (hx : (F.node x).isSome)
    (hpre : ∀ c ∈ pre, c ∈ F.kids x) : H' (F.ref x) = H (F.ref x) := by
  rcases hskips with ⟨-, rfl⟩ | ⟨pre', c, m, rfl, -, rfl⟩
  · rfl
  · exact Function.update_of_ne (Ne.symm (h.ref_child_ne hx (hpre c (by simp)))) _ _

theorem Skips.unlinked (hskips : F.Skips x pre post H H') (h : F.Ok) (hx : (F.node x).isSome)
    (hkids : F.kids x = pre ++ b :: post) (hn : H (F.ref x) = some n)
    (hfirst : n.slot.firstChild = F.first x (F.kids x)) :
    F.Unlinked x b H (Function.update H' (F.ref x) (some ⟨{ n.slot with
      firstChild := if pre = [] then F.first x post else n.slot.firstChild
      childCount := n.slot.childCount - 1 }, n.area⟩)) := by
  have hnodup := h.nodup x
  rw [hkids] at hnodup
  have hbpre : b ∉ pre := notMem_of_nodup hnodup
  have herase : (F.kids x).erase b = pre ++ post := by
    rw [hkids, List.erase_append_right _ hbpre, List.erase_cons_head]
  have hafter : after b (F.kids x) = post := by rw [hkids, after_append_cons hbpre]
  -- the previous sibling is the last of those before
  have hlast : ∀ c ∈ F.kids x, (after c (F.kids x)).head? = some b → ∃ pre', pre = pre' ++ [c] := by
    intro c hc hhead
    obtain ⟨rest, hrest⟩ : ∃ rest, after c (F.kids x) = b :: rest := by
      cases hcase : after c (F.kids x) with
      | nil => simp [hcase] at hhead
      | cons d rest => exact ⟨rest, by simpa [hcase] using hhead⟩
    obtain ⟨left, right, hsplit⟩ := List.append_of_mem hc
    have hcleft : c ∉ left := notMem_of_nodup (hsplit ▸ h.nodup x)
    have hright : right = b :: rest := by
      rw [hsplit, after_append_cons hcleft] at hrest
      exact hrest
    refine ⟨left, ?_⟩
    subst hright
    have heq : pre ++ b :: post = (left ++ [c]) ++ b :: rest := by
      rw [← hkids, hsplit]
      simp
    have hbleft : b ∉ left ++ [c] := notMem_of_nodup (heq ▸ hnodup)
    have hlen := congrArg (List.idxOf b) heq
    rw [List.idxOf_append_of_notMem hbpre, List.idxOf_append_of_notMem hbleft] at hlen
    exact (List.append_inj heq (by simpa using hlen)).1
  refine ⟨fun r' hr' hprev => ?_, fun k hk => ?_, fun c k hc hhead hk => ?_⟩
  · rw [Function.update_of_ne hr']
    rcases hskips with ⟨-, rfl⟩ | ⟨pre', c, m, rfl, -, rfl⟩
    · rfl
    · refine Function.update_of_ne (hprev c (by simp [hkids]) ?_) _ _
      rw [List.append_assoc, List.singleton_append] at hkids hnodup
      rw [hkids, after_append_cons (notMem_of_nodup hnodup)]
      rfl
  · obtain rfl : n = k := Option.some.inj (hn.symm.trans hk)
    rw [Function.update_self, herase]
    cases pre with
    | nil => simp
    | cons d pre =>
      rw [hkids] at hfirst
      simp [hfirst, first]
  · obtain ⟨left, rfl⟩ := hlast c hc hhead
    rw [Function.update_of_ne (h.ref_child_ne hx hc)]
    rcases hskips with ⟨hnil, -⟩ | ⟨pre', d, m, hpre, hm, rfl⟩
    · simp at hnil
    · obtain ⟨-, rfl⟩ : left = pre' ∧ c = d := by simpa using List.append_inj' hpre rfl
      obtain rfl : m = k := Option.some.inj (hm.symm.trans hk)
      rw [Function.update_self, hafter]

/-- One child less; the counter does not wrap. -/
theorem Fits.childCount_sub_one (hfit : F.Fits hole x n) (h : F.Ok) (hb : b ∈ F.kids x) :
    (n.slot.childCount + 2 ^ 16 - 1) % 2 ^ 16 = n.slot.childCount - 1 := by
  have hpos := List.length_pos_of_mem hb
  have hle := h.length_kids_le x
  rw [← hfit.childCount] at hpos hle
  omega

theorem post_trieUnlinkChild (hh : Holds g K pages H s) (hin : F.In hole H) (h : F.Ok)
    (hkids : F.kids x = pre ++ b :: post) :
    Post (Store.exec g) (trieUnlinkChild (F.ref x) (F.last x pre) (F.ref (child x b)))
      (fun _ t => ∃ H', F.Unlinked x b H H' ∧ Holds g K pages H' t) never s := by
  have hb : b ∈ F.kids x := by simp [hkids]
  have hx := (h.parent x b hb).1
  obtain ⟨-, n, hn, hfit⟩ := hin.self hx
  obtain ⟨m, hm, -, -, hnext⟩ := hin.kid h hkids
  have hunlinked := fun H' (hskips : F.Skips x pre post H H') =>
    hskips.unlinked h hx hkids hn hfit.firstChild
  refine (post_trieRead hh hn).andThen fun q t hpost => ?_
  obtain ⟨ht, -, -, hslot, -⟩ := hpost
  dsimp only
  refine (post_trieRead ht hm).andThen fun q' u hpost => ?_
  obtain ⟨hu, -, -, hslot', -⟩ := hpost
  rw [hslot, hslot', hnext, hfit.childCount_sub_one h hb]
  rcases List.eq_nil_or_concat' pre with rfl | ⟨pre', c, rfl⟩
  · rw [if_pos (show F.last x [] = 0 from rfl)]
    refine (post_putNode hu hn (by rfl) (by rfl)).returns fun _ v hv => ⟨_, ?_, hv⟩
    simpa using hunlinked H (.inl ⟨rfl, rfl⟩)
  · rw [last_append_singleton]
    have hc : c ∈ F.kids x := by simp [hkids]
    rw [List.append_assoc, List.singleton_append] at hkids
    obtain ⟨k, hk, -⟩ := hin.kid h hkids
    rw [if_neg (h.node_child hc).2]
    refine (post_trieRead hu hk).andThen fun q'' v hpost => ?_
    obtain ⟨hv, -, -, hslot'', -⟩ := hpost
    rw [hslot'']
    refine (post_putNode hv hk (by rfl) (by rfl)).andThen fun _ w hw => ?_
    have hn' : Function.update H (F.ref (child x c))
        (some ⟨{ k.slot with nextSibling := F.first x post }, k.area⟩) (F.ref x) = some n := by
      rw [Function.update_of_ne (Ne.symm (h.ref_child_ne hx hc)), hn]
    refine (post_putNode hw hn' (by rfl) (by rfl)).returns fun _ v hv => ⟨_, ?_, hv⟩
    simpa using hunlinked _ (.inr ⟨pre', c, k, rfl, hk, rfl⟩)

/-- The walk of `trieRelinkSibling`. -/
theorem post_relinkAfter (hh : Holds g K pages H s) (hin : F.In hole H) (h : F.Ok)
    (mid pre : List UInt8) (c : UInt8) (hops : ℕ)
    (hkids : F.kids x = pre ++ c :: mid ++ b :: post) (hhops : mid.length < hops) :
    Post (Store.exec g)
      (relinkAfter (F.ref (child x b)) (F.first x post) hops (F.ref (child x c)))
      (fun _ t => ∃ H', F.Skips x (pre ++ c :: mid) post H H' ∧ Holds g K pages H' t) never s := by
  induction mid generalizing pre c hops s with
  | nil =>
    obtain ⟨hops, rfl⟩ : ∃ k, hops = k + 1 := ⟨hops - 1, by omega⟩
    have hc := (h.node_child (show c ∈ F.kids x by simp [hkids])).2
    obtain ⟨m, hm, -, -, hnext⟩ := hin.kid (c := c) h (by simpa using hkids)
    refine post_when.mpr ⟨fun _ => ?_, fun hz => absurd hc hz⟩
    rw [post_bind, post_attempt]
    refine (post_trieRead hh hm).returns fun q t hpost => ?_
    obtain ⟨ht, -, -, hslot, -⟩ := hpost
    dsimp only
    rw [hslot, hnext, first_cons, if_pos rfl]
    exact (post_putNode ht hm (by rfl) (by rfl)).returns fun _ u hu =>
      ⟨_, .inr ⟨pre, c, m, rfl, hm, rfl⟩, hu⟩
  | cons d mid ih =>
    obtain ⟨hops, rfl⟩ : ∃ k, hops = k + 1 := ⟨hops - 1, by omega⟩
    have hc := (h.node_child (show c ∈ F.kids x by simp [hkids])).2
    have hd := h.node_child (show d ∈ F.kids x by simp [hkids])
    have hb := h.node_child (show b ∈ F.kids x by simp [hkids])
    obtain ⟨m, hm, -, -, hnext⟩ := hin.kid (c := c) h (by simpa using hkids)
    have hdb : F.ref (child x d) ≠ F.ref (child x b) := by
      intro heq
      obtain ⟨-, rfl⟩ := child_inj (h.inj _ _ _ hd.1 (heq ▸ hb.1))
      have hnodup := h.nodup x
      rw [hkids] at hnodup
      exact notMem_of_nodup hnodup (by simp)
    refine post_when.mpr ⟨fun _ => ?_, fun hz => absurd hc hz⟩
    rw [post_bind, post_attempt]
    refine (post_trieRead hh hm).returns fun q t hpost => ?_
    obtain ⟨ht, -, -, hslot, -⟩ := hpost
    dsimp only
    rw [hslot, hnext, first_cons, if_neg hdb]
    have := ih ht (pre ++ [c]) d hops (by simpa using hkids) (by simpa using hhops)
    simpa using this

theorem post_trieRelinkSibling (hh : Holds g K pages H s) (hin : F.In hole H) (h : F.Ok)
    (hkids : F.kids x = pre ++ b :: post) {slot : TrieSlot}
    (hfirst : slot.firstChild = F.first x (F.kids x)) :
    Post (Store.exec g) (trieRelinkSibling slot (F.ref (child x b)) (F.first x post))
      (fun slot' t => slot' = { slot with
          firstChild := if pre = [] then F.first x post else slot.firstChild } ∧
        ∃ H', F.Skips x pre post H H' ∧ Holds g K pages H' t) never s := by
  unfold trieRelinkSibling
  cases pre with
  | nil =>
    have hstart : slot.firstChild = F.ref (child x b) := by rw [hfirst, hkids]; rfl
    rw [if_pos hstart, post_pure]
    exact ⟨by simp, H, .inl ⟨rfl, rfl⟩, hh⟩
  | cons c pre =>
    have hstart : slot.firstChild = F.ref (child x c) := by rw [hfirst, hkids]; rfl
    have hcb : slot.firstChild ≠ F.ref (child x b) := by
      rw [hstart]
      intro heq
      have hc := h.node_child (show c ∈ F.kids x by simp [hkids])
      have hb := h.node_child (show b ∈ F.kids x by simp [hkids])
      obtain ⟨-, rfl⟩ := child_inj (h.inj _ _ _ hc.1 (heq ▸ hb.1))
      have hnodup := h.nodup x
      rw [hkids] at hnodup
      exact notMem_of_nodup hnodup (by simp)
    have hlen : pre.length < trieSiblingMax := by
      have := h.length_kids_le x
      rw [hkids] at this
      unfold trieSiblingMax
      simp at this
      omega
    have hwalk := post_relinkAfter hh hin h pre [] c trieSiblingMax (by simpa using hkids) hlen
    rw [if_neg hcb]
    rw [← hstart] at hwalk
    refine hwalk.andThen fun _ t ht => ⟨?_, ht⟩
    rw [if_neg (List.cons_ne_nil c pre)]

end Unlink

end Forest

end Briefs.Trie
