import Briefs.Trie.Heap

/-!
# The shape of the directory tries

A forest is what the tries of all directories look like: which node is at a path, in
which order a node has its children, and which paths are entries. The entries of a
directory are the finite map it stands for. `In` says that a heap has the nodes of a
forest with all their links; a change of the forest and the changes of the links it
takes are related here, before any code is.
-/

namespace Briefs.Trie

open Lib

variable {l : List UInt8}

/-- A directory and a path in its trie, the last byte first. -/
abbrev Pos := ℕ × Bytes

def child (x : Pos) (b : UInt8) : Pos := (x.1, b :: x.2)

theorem child_inj {x y : Pos} {b c : UInt8} (h : child x b = child y c) : x = y ∧ b = c := by
  unfold child at h
  simp only [Prod.mk.injEq, List.cons.injEq] at h
  exact ⟨Prod.ext h.1 h.2.2, h.2.1⟩

theorem child_ne (x : Pos) (b : UInt8) : child x b ≠ x := by
  intro h
  have := congrArg (fun y : Pos => y.2.length) h
  simp [child] at this

theorem notMem_of_nodup {c : UInt8} {pre post : List UInt8} (h : (pre ++ c :: post).Nodup) :
    c ∉ pre := fun hmem => (List.nodup_append.mp h).2.2 c hmem c List.mem_cons_self rfl

/-- What follows `b` in a list. -/
def after (b : UInt8) : List UInt8 → List UInt8
  | [] => []
  | c :: cs => if c = b then cs else after b cs

theorem mem_of_mem_after {a b : UInt8} (h : a ∈ after b l) : a ∈ l := by
  induction l with
  | nil => cases h
  | cons c l ih =>
    unfold after at h
    split_ifs at h
    · exact List.mem_cons_of_mem _ h
    · exact List.mem_cons_of_mem _ (ih h)

theorem after_append_cons {b : UInt8} {pre post : List UInt8} (h : b ∉ pre) :
    after b (pre ++ b :: post) = post := by
  induction pre with
  | nil => simp [after]
  | cons c pre ih =>
    obtain ⟨hne, hmem⟩ := not_or.mp (List.mem_cons.not.mp h)
    rw [List.cons_append, after, if_neg (Ne.symm hne), ih hmem]

theorem after_append_singleton {b c : UInt8} (h : b ∈ l) :
    after b (l ++ [c]) = after b l ++ [c] := by
  induction l with
  | nil => cases h
  | cons d l ih =>
    by_cases hd : d = b
    · simp [after, hd]
    · rw [List.cons_append, after, if_neg hd, after, if_neg hd, ih]
      exact (List.mem_cons.mp h).resolve_left (Ne.symm hd)

theorem after_erase {b c : UInt8} (hl : l.Nodup) (hbc : b ≠ c) :
    after b (l.erase c) = (after b l).erase c := by
  induction l with
  | nil => rfl
  | cons d l ih =>
    obtain ⟨hd, hl⟩ := List.nodup_cons.mp hl
    by_cases hdc : d = c
    · subst hdc
      rw [List.erase_cons_head, after, if_neg (Ne.symm hbc)]
      symm
      exact List.erase_of_not_mem fun hmem => hd (mem_of_mem_after hmem)
    · rw [List.erase_cons_tail (by simpa using hdc)]
      by_cases hdb : d = b
      · simp [after, hdb]
      · simp [after, hdb, ih hl]

structure Forest where
  node : Pos → Option Ref
  kids : Pos → List UInt8
  entry : Pos → Option (ℕ × ℕ)
  /-- An entry in a node that has had no children. -/
  leaf : Pos → Bool

namespace Forest

variable (F : Forest) {x y : Pos} {b c : UInt8}

def ref (x : Pos) : Ref := (F.node x).getD 0

/-- The first of the children with the given bytes. -/
def first (x : Pos) : List UInt8 → Ref
  | [] => 0
  | b :: _ => F.ref (child x b)

def nodeType (x : Pos) : ℕ :=
  if F.leaf x then 0
  else if (F.entry x).isSome then nodeTypeInterm ||| nodeStatusLeaf
  else nodeTypeInterm

/-- The forest is a set of tries. -/
structure Ok (F : Forest) : Prop where
  pos : ∀ x, F.node x ≠ some 0
  inj : ∀ x y r, F.node x = some r → F.node y = some r → x = y
  nodup : ∀ x, (F.kids x).Nodup
  kids : ∀ x b, b ∈ F.kids x ↔ (F.node (child x b)).isSome
  parent : ∀ x b, b ∈ F.kids x → (F.node x).isSome ∧ F.leaf x = false
  entry : ∀ x, (F.entry x).isSome → (F.node x).isSome
  leaf : ∀ x, F.leaf x = true → (F.entry x).isSome
  depth : ∀ x, (F.node x).isSome → x.2.length ≤ maxNameLen

/-- A node has the links and the entry that its place in the forest asks for. The name of
the node in the hole is not stored yet. -/
structure Fits (F : Forest) (hole : Set Pos) (x : Pos) (n : Node) : Prop where
  firstChild : n.slot.firstChild = F.first x (F.kids x)
  childCount : n.slot.childCount = (F.kids x).length
  nodeType : n.slot.nodeType = F.nodeType x
  entry : ∀ e, F.entry x = some e → (n.slot.inode, n.slot.ftype) = e
  area : x ∉ hole → n.area = none ∧ F.entry x = none ∨ n.area = some (storedName x.2.reverse)
  link : ∀ b p, x.2 = b :: p →
    n.slot.byteVal = b ∧ n.slot.nextSibling = F.first (x.1, p) (after b (F.kids (x.1, p)))

/-- The heap has the nodes of the forest. -/
def In (F : Forest) (hole : Set Pos) (H : Heap) : Prop :=
  ∀ x r, F.node x = some r → ∃ n, H r = some n ∧ F.Fits hole x n

variable {F}

@[simp] theorem first_nil (x : Pos) : F.first x [] = 0 := rfl

@[simp] theorem first_cons (x : Pos) (b : UInt8) (l : List UInt8) :
    F.first x (b :: l) = F.ref (child x b) := rfl

theorem first_append_singleton (x : Pos) (l : List UInt8) (b : UInt8) :
    F.first x (l ++ [b]) = if l = [] then F.ref (child x b) else F.first x l := by
  cases l <;> simp [first]

theorem first_congr {F' : Forest} {l : List UInt8}
    (h : ∀ b ∈ l, F'.node (child x b) = F.node (child x b)) : F'.first x l = F.first x l := by
  cases l with
  | nil => rfl
  | cons b l => simp [first, ref, h b List.mem_cons_self]

namespace Ok

theorem ref_inj (h : F.Ok) (hx : (F.node x).isSome) (hy : (F.node y).isSome)
    (heq : F.ref x = F.ref y) : x = y := by
  obtain ⟨r, hr⟩ := Option.isSome_iff_exists.mp hx
  obtain ⟨r', hr'⟩ := Option.isSome_iff_exists.mp hy
  simp only [ref, hr, hr', Option.getD_some] at heq
  exact h.inj x y r hr (heq ▸ hr')

theorem length_kids_le (h : F.Ok) (x : Pos) : (F.kids x).length ≤ 256 := by
  have hnodup : ((F.kids x).map UInt8.toNat).Nodup :=
    (h.nodup x).map fun a b hab => UInt8.toNat_inj.mp hab
  have hsub : (F.kids x).map UInt8.toNat ⊆ List.range 256 := by
    intro k hk
    obtain ⟨b, -, rfl⟩ := List.mem_map.mp hk
    exact List.mem_range.mpr b.toNat_lt
  simpa using (List.subperm_of_subset hnodup hsub).length_le

theorem kids_of_absent (h : F.Ok) (hx : F.node x = none) : F.kids x = [] := by
  apply List.eq_nil_iff_forall_not_mem.mpr
  intro b hb
  have := (h.parent x b hb).1
  rw [hx] at this
  cases this

theorem entry_of_absent (h : F.Ok) (hx : F.node x = none) : F.entry x = none := by
  by_contra hne
  have := h.entry x (Option.isSome_iff_ne_none.mpr hne)
  rw [hx] at this
  cases this

theorem node_child (h : F.Ok) (hb : b ∈ F.kids x) :
    F.node (child x b) = some (F.ref (child x b)) ∧ F.ref (child x b) ≠ 0 := by
  obtain ⟨r, hr⟩ := Option.isSome_iff_exists.mp ((h.kids x b).mp hb)
  have hne : r ≠ 0 := by
    rintro rfl
    exact h.pos _ hr
  simp [ref, hr, hne]

theorem update_node (h : F.Ok) {o : Option Ref} (hpos : o ≠ some 0)
    (ho : ∀ y r, o = some r → F.node y ≠ some r) (z : Pos) :
    (∀ y, Function.update F.node z o y ≠ some 0) ∧
      ∀ y y' r, Function.update F.node z o y = some r → Function.update F.node z o y' = some r →
        y = y' := by
  constructor
  · intro y
    by_cases hy : y = z
    · simpa [hy] using hpos
    · simpa [hy] using h.pos y
  · intro y y' r hy hy'
    by_cases hyz : y = z <;> by_cases hyz' : y' = z <;>
      simp only [Function.update_apply, hyz, hyz', if_true, if_false] at hy hy'
    · rw [hyz, hyz']
    · exact absurd hy' (ho y' r hy)
    · exact absurd hy (ho y r hy')
    · exact h.inj y y' r hy hy'

theorem leaf_kids (h : F.Ok) (hx : F.leaf x = true) : F.kids x = [] := by
  apply List.eq_nil_iff_forall_not_mem.mpr
  intro b hb
  have := (h.parent x b hb).2
  rw [hx] at this
  cases this

end Ok

/-- A node with other links, in a forest that asks for those. -/
theorem Fits.relink {F' : Forest} {hole hole' : Set Pos} {m : Node} {slot : TrieSlot}
    (h : F.Fits hole x m)
    (hkeep : slot.nodeType = m.slot.nodeType ∧ slot.inode = m.slot.inode ∧
      slot.ftype = m.slot.ftype ∧ slot.byteVal = m.slot.byteVal)
    (hleaf : F'.leaf x = F.leaf x) (hentry : F'.entry x = F.entry x) (hhole : x ∉ hole' → x ∉ hole)
    (hfirst : slot.firstChild = F'.first x (F'.kids x))
    (hcount : slot.childCount = (F'.kids x).length)
    (hnext : ∀ b p, x.2 = b :: p →
      slot.nextSibling = F'.first (x.1, p) (after b (F'.kids (x.1, p)))) :
    F'.Fits hole' x ⟨slot, m.area⟩ := by
  obtain ⟨htype, hinode, hftype, hbyte⟩ := hkeep
  refine ⟨hfirst, hcount, ?_, ?_, ?_, fun b p hx => ⟨?_, hnext b p hx⟩⟩
  · rw [Forest.nodeType, hleaf, hentry]
    exact htype.trans h.nodeType
  · rw [hentry]
    exact fun e he => by simpa [hinode, hftype] using h.entry e he
  · rw [hentry]
    exact fun hx => h.area (hhole hx)
  · exact hbyte.trans (h.link b p hx).1

theorem Fits.next {hole : Set Pos} {n : Node} (h : F.Fits hole (child x c) n) :
    n.slot.nextSibling = F.first x (after c (F.kids x)) :=
  (h.link c x.2 rfl).2

theorem Fits.congr {F' : Forest} {hole hole' : Set Pos} {n : Node} (h : F.Fits hole x n)
    (hkids : F'.kids x = F.kids x) (hleaf : F'.leaf x = F.leaf x) (hentry : F'.entry x = F.entry x)
    (hfirst : F'.first x (F.kids x) = F.first x (F.kids x)) (hhole : x ∉ hole' → x ∉ hole)
    (hlink : ∀ b p, x.2 = b :: p → F'.first (x.1, p) (after b (F'.kids (x.1, p))) =
      F.first (x.1, p) (after b (F.kids (x.1, p)))) : F'.Fits hole' x n := by
  change F'.Fits hole' x ⟨n.slot, n.area⟩
  refine h.relink ⟨rfl, rfl, rfl, rfl⟩ hleaf hentry hhole ?_ ?_ fun b p hx => ?_
  · rw [hkids, hfirst, h.firstChild]
  · rw [hkids, h.childCount]
  · rw [hlink b p hx]
    exact (h.link b p hx).2

section Relink

variable {F' : Forest} {hole hole' : Set Pos} {H H' : Heap}

/-- The forests differ in the children of `x` and in its child `b`. -/
structure Relinks (F F' : Forest) (x : Pos) (b : UInt8) : Prop where
  node : ∀ y, y ≠ child x b → F'.node y = F.node y
  entry : ∀ y, y ≠ child x b → F'.entry y = F.entry y
  leaf : ∀ y, y ≠ child x b → F'.leaf y = F.leaf y
  kids : ∀ y, y ≠ x → F'.kids y = F.kids y

theorem Relinks.first (hF : Relinks F F' x b) (hy : y ≠ x) (l : List UInt8) :
    F'.first y l = F.first y l :=
  first_congr fun _ _ => hF.node _ fun heq => hy (child_inj heq).1

theorem Relinks.first_self (hF : Relinks F F' x b) {l : List UInt8} (hl : b ∉ l) :
    F'.first x l = F.first x l :=
  first_congr fun _ hc => hF.node _ fun heq => hl ((child_inj heq).2 ▸ hc)

/-- The nodes of both forests, once `x` and its children have their new links. -/
theorem In.relink (hin : F.In hole H) (h : F.Ok) (hF : Relinks F F' x b)
    (hhole : ∀ y, y ∉ hole' → y ∉ hole)
    (hparent : ∀ n, H (F.ref x) = some n → F.Fits hole x n → H' (F.ref x) = some ⟨{ n.slot with
      firstChild := F'.first x (F'.kids x)
      childCount := (F'.kids x).length }, n.area⟩)
    (hchild : ∀ c n, c ∈ F.kids x → c ≠ b → H (F.ref (child x c)) = some n →
      F.Fits hole (child x c) n → H' (F.ref (child x c)) = some ⟨{ n.slot with
        nextSibling := F'.first x (after c (F'.kids x)) }, n.area⟩)
    (hothers : ∀ y r, F.node y = some r → y ≠ x → (∀ c, y ≠ child x c) → H' r = H r)
    (r : Ref) (hyc : y ≠ child x b) (hy : F'.node y = some r) :
    ∃ n, H' r = some n ∧ F'.Fits hole' y n := by
  rw [hF.node y hyc] at hy
  obtain ⟨m, hm, hfit⟩ := hin y r hy
  have hrefy : F.ref y = r := by simp [ref, hy]
  by_cases hyx : y = x
  · subst hyx
    rw [← hrefy] at hm ⊢
    refine ⟨_, hparent m hm hfit, hfit.relink ⟨rfl, rfl, rfl, rfl⟩ (hF.leaf y hyc) (hF.entry y hyc)
      (hhole y) rfl rfl fun c p hyp => ?_⟩
    have hpne : (y.1, p) ≠ y := by
      intro heq
      have := congrArg (fun z : Pos => z.2.length) heq
      simp [hyp] at this
    rw [hF.kids _ hpne, hF.first hpne]
    exact (hfit.link c p hyp).2
  · by_cases hkid : ∃ c, y = child x c
    · obtain ⟨c, rfl⟩ := hkid
      have hc : c ∈ F.kids x := (h.kids x c).mpr (hy ▸ rfl)
      rw [← hrefy] at hm ⊢
      refine ⟨_, hchild c m hc (by rintro rfl; exact hyc rfl) hm hfit,
        hfit.relink ⟨rfl, rfl, rfl, rfl⟩ (hF.leaf _ hyc) (hF.entry _ hyc) (hhole _) ?_ ?_ ?_⟩
      · rw [hF.kids _ hyx, hF.first hyx]
        exact hfit.firstChild
      · rw [hF.kids _ hyx]
        exact hfit.childCount
      · intro d p hp
        obtain ⟨rfl, rfl⟩ : c = d ∧ x.2 = p := by simpa [child] using hp
        rfl
    · push Not at hkid
      refine ⟨m, (hothers y r hy hyx hkid).trans hm, hfit.congr (hF.kids y hyx) (hF.leaf y hyc)
        (hF.entry y hyc) (hF.first hyx _) (hhole y) fun c p hyp => ?_⟩
      have hpx : (y.1, p) ≠ x := fun hpx => hkid c (hpx ▸ Prod.ext rfl hyp)
      rw [hF.kids _ hpx, hF.first hpx]

end Relink

section AddChild

/-- A new last child of `x`. A new leaf counts as an entry from the start. -/
def addChild (F : Forest) (x : Pos) (b : UInt8) (r : Ref) (leaf : Bool) : Forest where
  node := Function.update F.node (child x b) (some r)
  kids := Function.update F.kids x (F.kids x ++ [b])
  entry := if leaf then Function.update F.entry (child x b) (some (0, 0)) else F.entry
  leaf := Function.update F.leaf (child x b) leaf

variable {r : Ref} {leaf : Bool}

theorem Ok.addChild (h : F.Ok) (hx : (F.node x).isSome) (hleaf : F.leaf x = false)
    (hb : b ∉ F.kids x) (hr0 : r ≠ 0) (hr : ∀ y, F.node y ≠ some r)
    (hdepth : x.2.length < maxNameLen) : (F.addChild x b r leaf).Ok := by
  have habsent : F.node (child x b) = none := by
    by_contra hne
    exact hb ((h.kids x b).mpr (Option.isSome_iff_ne_none.mpr hne))
  have hkids : ∀ y c, c ∈ (F.addChild x b r leaf).kids y ↔ c ∈ F.kids y ∨ y = x ∧ c = b := by
    intro y c
    by_cases hy : y = x
    · subst hy
      simp [Forest.addChild]
    · simp [Forest.addChild, hy]
  have hsome : ∀ y, ((F.addChild x b r leaf).node y).isSome ↔ (F.node y).isSome ∨ y = child x b := by
    intro y
    by_cases hy : y = child x b
    · simp [Forest.addChild, hy]
    · simp [Forest.addChild, hy]
  have hnode := h.update_node (o := some r) (by simpa using hr0)
    (fun y r' hr' => Option.some.inj hr' ▸ hr y) (child x b)
  refine ⟨hnode.1, hnode.2, fun y => ?_, fun y c => ?_, fun y c hc => ?_, fun y hy => ?_,
    fun y hy => ?_, fun y hy => ?_⟩
  · by_cases hy : y = x
    · subst hy
      simpa [Forest.addChild, List.nodup_append, h.nodup y] using fun c hc => by
        rintro rfl
        exact hb hc
    · simpa [Forest.addChild, Function.update_of_ne hy] using h.nodup y
  · rw [hkids, hsome, h.kids]
    constructor
    · rintro (hc | ⟨rfl, rfl⟩)
      · exact .inl hc
      · exact .inr rfl
    · rintro (hc | hc)
      · exact .inl hc
      · exact .inr (child_inj hc)
  · rw [hsome]
    have hyne : y ≠ child x b → (F.addChild x b r leaf).leaf y = F.leaf y := fun hy =>
      Function.update_of_ne hy _ _
    rcases (hkids y c).mp hc with hc | ⟨rfl, rfl⟩
    · have hy : y ≠ child x b := by
        rintro rfl
        rw [h.kids_of_absent habsent] at hc
        cases hc
      rw [hyne hy]
      exact ⟨.inl (h.parent y c hc).1, (h.parent y c hc).2⟩
    · rw [hyne (Ne.symm (child_ne y c))]
      exact ⟨.inl hx, hleaf⟩
  · rw [hsome]
    by_cases hyc : y = child x b
    · exact .inr hyc
    · left
      apply h.entry
      cases leaf <;> simpa [Forest.addChild, Function.update_of_ne hyc] using hy
  · by_cases hyc : y = child x b
    · have : leaf = true := by simpa [Forest.addChild, hyc] using hy
      simp [Forest.addChild, hyc, this]
    · have hy' : F.leaf y = true := by simpa [Forest.addChild, Function.update_of_ne hyc] using hy
      have := h.leaf y hy'
      cases leaf <;> simpa [Forest.addChild, Function.update_of_ne hyc] using this
  · rcases (hsome y).mp hy with hy | rfl
    · exact h.depth y hy
    · simpa [child] using hdepth

/-- The heap `H'` is `H` with a new child `r` of `x` linked behind its last one. -/
structure Linked (F : Forest) (x : Pos) (r : Ref) (H H' : Heap) : Prop where
  others : ∀ r', r' ≠ F.ref x →
    (∀ c, (F.kids x).getLast? = some c → r' ≠ F.ref (child x c)) → H' r' = H r'
  parent : ∀ n, H (F.ref x) = some n → H' (F.ref x) = some ⟨{ n.slot with
    firstChild := if F.kids x = [] then r else n.slot.firstChild
    childCount := n.slot.childCount + 1 }, n.area⟩
  last : ∀ c n, (F.kids x).getLast? = some c → H (F.ref (child x c)) = some n →
    H' (F.ref (child x c)) = some ⟨{ n.slot with nextSibling := r }, n.area⟩

/-- A node that is new in its place. -/
structure IsNew (b : UInt8) (leaf : Bool) (n : Node) : Prop where
  firstChild : n.slot.firstChild = 0
  nextSibling : n.slot.nextSibling = 0
  inode : n.slot.inode = 0
  ftype : n.slot.ftype = 0
  childCount : n.slot.childCount = 0
  byteVal : n.slot.byteVal = b
  nodeType : n.slot.nodeType = if leaf then 0 else nodeTypeInterm
  area : leaf = false → n.area = none

theorem after_eq_nil_iff {c : UInt8} {l : List UInt8} (hl : l.Nodup) (hc : c ∈ l) :
    after c l = [] ↔ l.getLast? = some c := by
  obtain ⟨pre, post, rfl⟩ := List.append_of_mem hc
  rw [after_append_cons (notMem_of_nodup hl)]
  constructor
  · rintro rfl
    simp
  · intro hlast
    by_contra hne
    obtain ⟨post', d, rfl⟩ := (List.eq_nil_or_concat' post).resolve_left hne
    obtain rfl : d = c := by
      rw [← List.cons_append, ← List.append_assoc, List.getLast?_concat] at hlast
      exact Option.some.inj hlast
    have hnodup := ((List.nodup_append.mp hl).2.1)
    rw [List.nodup_cons] at hnodup
    exact hnodup.1 (by simp)

/-- Linking a new node behind the last child of its parent makes it a child. -/
theorem In.addChild {hole hole' : Set Pos} {H H' : Heap} {n : Node} (hin : F.In hole H) (h : F.Ok)
    (hx : (F.node x).isSome) (hb : b ∉ F.kids x)
    (hr : ∀ y, F.node y ≠ some r) (hlinked : F.Linked x r H H') (hn : H r = some n)
    (hnew : IsNew b leaf n) (hhole : hole ⊆ hole')
    (hnewHole : leaf = true → child x b ∈ hole') : (F.addChild x b r leaf).In hole' H' := by
  have habsent : F.node (child x b) = none := by
    by_contra hne
    exact hb ((h.kids x b).mpr (Option.isSome_iff_ne_none.mpr hne))
  obtain ⟨rx, hrx⟩ := Option.isSome_iff_exists.mp hx
  have hrefx : F.ref x = rx := by simp [ref, hrx]
  have hF : Relinks F (F.addChild x b r leaf) x b :=
    { node := fun y hy => Function.update_of_ne hy _ _
      entry := fun y hy => by cases leaf <;> simp [Forest.addChild, Function.update_of_ne hy]
      leaf := fun y hy => Function.update_of_ne hy _ _
      kids := fun y hy => Function.update_of_ne hy _ _ }
  have hself : (F.addChild x b r leaf).ref (child x b) = r := by simp [ref, Forest.addChild]
  have hkidsx : (F.addChild x b r leaf).kids x = F.kids x ++ [b] := Function.update_self _ _ _
  -- the next sibling of an old child, after the new one is behind the last
  have hnext : ∀ c ∈ F.kids x, (F.addChild x b r leaf).first x (after c (F.kids x ++ [b])) =
      if (F.kids x).getLast? = some c then r else F.first x (after c (F.kids x)) := by
    intro c hc
    rw [after_append_singleton hc, first_append_singleton, hself,
      hF.first_self fun ha => hb (mem_of_mem_after ha)]
    by_cases hnil : after c (F.kids x) = []
    · rw [if_pos hnil, if_pos ((after_eq_nil_iff (h.nodup x) hc).mp hnil)]
    · rw [if_neg hnil, if_neg (fun hl => hnil ((after_eq_nil_iff (h.nodup x) hc).mpr hl))]
  intro y ry hy
  by_cases hyc : y = child x b
  · subst hyc
    obtain rfl : r = ry := by simpa [Forest.addChild] using hy
    have hr' : H' r = H r := by
      apply hlinked.others
      · rw [hrefx]
        rintro rfl
        exact hr x hrx
      · rintro c hc rfl
        exact hr _ (h.node_child (List.mem_of_getLast? hc)).1
    refine ⟨n, hr'.trans hn, ?_, ?_, ?_, ?_, ?_, ?_⟩
    · rw [hF.kids _ (child_ne x b), h.kids_of_absent habsent]
      exact hnew.firstChild
    · rw [hF.kids _ (child_ne x b), h.kids_of_absent habsent]
      exact hnew.childCount
    · rw [hnew.nodeType]
      cases leaf <;> simp [Forest.nodeType, Forest.addChild, h.entry_of_absent habsent]
    · intro e he
      cases leaf with
      | true =>
        have : (0, 0) = e := by simpa [Forest.addChild] using he
        rw [← this, hnew.inode, hnew.ftype]
      | false => simp [Forest.addChild, h.entry_of_absent habsent] at he
    · intro hout
      cases leaf with
      | true => exact absurd (hnewHole rfl) hout
      | false => exact .inl ⟨hnew.area rfl, by simp [Forest.addChild, h.entry_of_absent habsent]⟩
    · intro c p hp
      obtain ⟨rfl, rfl⟩ : b = c ∧ x.2 = p := by simpa [child] using hp
      refine ⟨hnew.byteVal, ?_⟩
      change _ = (F.addChild x b r leaf).first x (after b ((F.addChild x b r leaf).kids x))
      rw [hkidsx, after_append_cons hb]
      exact hnew.nextSibling
  · refine hin.relink h hF (fun _ hout hin => hout (hhole hin)) (fun m hm hfit => ?_)
      (fun c m hc _ hm hfit => ?_) (fun z rz hz hzx hkid => ?_) ry hyc hy
    · rw [hlinked.parent m hm, hkidsx, first_append_singleton, hself, hF.first_self hb,
        ← hfit.firstChild, List.length_append, ← hfit.childCount]
      rfl
    · rw [hkidsx, hnext c hc]
      by_cases hlast : (F.kids x).getLast? = some c
      · rw [hlinked.last c m hlast hm, if_pos hlast]
      · have hstays : H' (F.ref (child x c)) = H (F.ref (child x c)) := by
          refine hlinked.others _ (fun heq => child_ne x c ?_) fun d hd heq => hlast ?_
          · exact h.ref_inj ((h.kids x c).mp hc) hx heq
          · have hd' := (h.kids x d).mp (List.mem_of_getLast? hd)
            rwa [(child_inj (h.ref_inj ((h.kids x c).mp hc) hd' heq)).2]
        rw [hstays, hm, if_neg hlast, ← hfit.next]
    · apply hlinked.others
      · rw [hrefx]
        rintro rfl
        exact hzx (h.inj z x rz hz hrx)
      · rintro c hc rfl
        exact hkid c (h.inj _ _ _ hz (h.node_child (List.mem_of_getLast? hc)).1)

end AddChild

section RemoveChild

def removeChild (F : Forest) (x : Pos) (b : UInt8) : Forest where
  node := Function.update F.node (child x b) none
  kids := Function.update F.kids x ((F.kids x).erase b)
  entry := Function.update F.entry (child x b) none
  leaf := Function.update F.leaf (child x b) false

theorem Ok.removeChild (h : F.Ok) (hempty : F.kids (child x b) = []) : (F.removeChild x b).Ok := by
  have hnode : ∀ y, y ≠ child x b → (F.removeChild x b).node y = F.node y := fun y hy =>
    Function.update_of_ne hy _ _
  have hnone : (F.removeChild x b).node (child x b) = none := Function.update_self _ _ _
  have hne : ∀ y r, (F.removeChild x b).node y = some r → y ≠ child x b ∧ F.node y = some r := by
    intro y r hy
    have hyc : y ≠ child x b := by
      rintro rfl
      rw [hnone] at hy
      cases hy
    exact ⟨hyc, hnode y hyc ▸ hy⟩
  have hkids : ∀ y c, c ∈ (F.removeChild x b).kids y ↔ c ∈ F.kids y ∧ child y c ≠ child x b := by
    intro y c
    by_cases hy : y = x
    · subst hy
      rw [show (F.removeChild y b).kids y = (F.kids y).erase b from Function.update_self _ _ _,
        (h.nodup y).mem_erase_iff, and_comm]
      refine and_congr_right fun _ => not_congr ⟨fun hcb => by rw [hcb], fun heq => (child_inj heq).2⟩
    · rw [show (F.removeChild x b).kids y = F.kids y from Function.update_of_ne hy _ _]
      exact ⟨fun hc => ⟨hc, fun heq => hy (child_inj heq).1⟩, fun hc => hc.1⟩
  have hnodes := h.update_node (o := none) nofun nofun (child x b)
  refine ⟨hnodes.1, hnodes.2, fun y => ?_, fun y c => ?_, fun y c hc => ?_, fun y hy => ?_,
    fun y hy => ?_, fun y hy => ?_⟩
  · by_cases hy : y = x
    · subst hy
      rw [show (F.removeChild y b).kids y = (F.kids y).erase b from Function.update_self _ _ _]
      exact (h.nodup y).erase b
    · rw [show (F.removeChild x b).kids y = F.kids y from Function.update_of_ne hy _ _]
      exact h.nodup y
  · rw [hkids, h.kids]
    by_cases hc : child y c = child x b
    · simp [hc, hnone]
    · simp [hc, hnode]
  · obtain ⟨hc, -⟩ := (hkids y c).mp hc
    have hy : y ≠ child x b := by
      rintro rfl
      rw [hempty] at hc
      cases hc
    rw [hnode y hy, show (F.removeChild x b).leaf y = F.leaf y from Function.update_of_ne hy _ _]
    exact h.parent y c hc
  · have hyc : y ≠ child x b := by
      rintro rfl
      simp [Forest.removeChild] at hy
    rw [hnode y hyc]
    exact h.entry y (by simpa [Forest.removeChild, Function.update_of_ne hyc] using hy)
  · have hyc : y ≠ child x b := by
      rintro rfl
      simp [Forest.removeChild] at hy
    have := h.leaf y (by simpa [Forest.removeChild, Function.update_of_ne hyc] using hy)
    simpa [Forest.removeChild, Function.update_of_ne hyc] using this
  · obtain ⟨r, hr⟩ := Option.isSome_iff_exists.mp hy
    exact h.depth y (by rw [(hne y r hr).2]; rfl)

/-- The heap `H'` is `H` with the child `b` of `x` taken out of the list of children. -/
structure Unlinked (F : Forest) (x : Pos) (b : UInt8) (H H' : Heap) : Prop where
  others : ∀ r', r' ≠ F.ref x → (∀ c ∈ F.kids x, (after c (F.kids x)).head? = some b →
    r' ≠ F.ref (child x c)) → H' r' = H r'
  parent : ∀ n, H (F.ref x) = some n → H' (F.ref x) = some ⟨{ n.slot with
    firstChild := F.first x ((F.kids x).erase b)
    childCount := n.slot.childCount - 1 }, n.area⟩
  prev : ∀ c n, c ∈ F.kids x → (after c (F.kids x)).head? = some b →
    H (F.ref (child x c)) = some n →
    H' (F.ref (child x c)) = some ⟨{ n.slot with nextSibling := F.first x (after b (F.kids x)) },
      n.area⟩

theorem after_of_after_cons {c : UInt8} {l rest : List UInt8} (hl : l.Nodup)
    (h : after c l = b :: rest) : after b l = rest := by
  induction l with
  | nil => cases h
  | cons d l ih =>
    obtain ⟨hd, hl⟩ := List.nodup_cons.mp hl
    unfold after at h
    have hbd : d ≠ b := by
      rintro rfl
      split_ifs at h
      · exact hd (h ▸ List.mem_cons_self)
      · exact hd (mem_of_mem_after (h ▸ List.mem_cons_self))
    unfold after
    rw [if_neg hbd]
    split_ifs at h
    · rw [h, after, if_pos rfl]
    · exact ih hl h

/-- Taking a child without children out of the list makes it no child. -/
theorem In.removeChild {hole : Set Pos} {H H' : Heap} (hin : F.In hole H) (h : F.Ok)
    (hb : b ∈ F.kids x) (hunlinked : F.Unlinked x b H H') : (F.removeChild x b).In hole H' := by
  obtain ⟨rx, hrx⟩ := Option.isSome_iff_exists.mp (h.parent x b hb).1
  have hrefx : F.ref x = rx := by simp [ref, hrx]
  have hF : Relinks F (F.removeChild x b) x b :=
    { node := fun y hy => Function.update_of_ne hy _ _
      entry := fun y hy => Function.update_of_ne hy _ _
      leaf := fun y hy => Function.update_of_ne hy _ _
      kids := fun y hy => Function.update_of_ne hy _ _ }
  have hkidsx : (F.removeChild x b).kids x = (F.kids x).erase b := Function.update_self _ _ _
  -- the next sibling of a child that stays
  have hnext : ∀ c ∈ F.kids x, c ≠ b → (F.removeChild x b).first x (after c ((F.kids x).erase b)) =
      if (after c (F.kids x)).head? = some b then F.first x (after b (F.kids x))
      else F.first x (after c (F.kids x)) := by
    intro c _ hcb
    have hnot : b ∉ after c ((F.kids x).erase b) := fun hmem =>
      (h.nodup x).not_mem_erase (mem_of_mem_after hmem)
    rw [hF.first_self hnot, after_erase (h.nodup x) hcb]
    cases hafter : after c (F.kids x) with
    | nil => rfl
    | cons d rest =>
      by_cases hdb : d = b
      · subst hdb
        simp [after_of_after_cons (h.nodup x) hafter]
      · rw [List.erase_cons_tail (by simpa using hdb)]
        simp [hdb, first]
  intro y ry hy
  have hyc : y ≠ child x b := by
    rintro rfl
    simp [Forest.removeChild] at hy
  refine hin.relink h hF (fun _ => id) (fun m hm hfit => ?_) (fun c m hc hcb hm hfit => ?_)
    (fun z rz hz hzx hkid => ?_) ry hyc hy
  · rw [hunlinked.parent m hm, hkidsx, hF.first_self (h.nodup x).not_mem_erase,
      List.length_erase_of_mem hb, ← hfit.childCount]
  · rw [hkidsx, hnext c hc hcb]
    by_cases hhead : (after c (F.kids x)).head? = some b
    · rw [hunlinked.prev c m hc hhead hm, if_pos hhead]
    · have hstays : H' (F.ref (child x c)) = H (F.ref (child x c)) := by
        refine hunlinked.others _ (fun heq => child_ne x c ?_) fun d hd hhead' heq => hhead ?_
        · exact h.ref_inj ((h.kids x c).mp hc) (hrx ▸ rfl) heq
        · rwa [(child_inj (h.ref_inj ((h.kids x c).mp hc) ((h.kids x d).mp hd) heq)).2]
      rw [hstays, hm, if_neg hhead, ← hfit.next]
  · apply hunlinked.others
    · rw [hrefx]
      rintro rfl
      exact hzx (h.inj z x rz hz hrx)
    · rintro c hc - rfl
      exact hkid c (h.inj _ _ _ hz (h.node_child hc).1)

end RemoveChild

section Entries

variable {hole : Set Pos}

/-- Another entry at `x`. -/
def withEntry (F : Forest) (x : Pos) (e : Option (ℕ × ℕ)) (leaf : Bool) : Forest :=
  { F with entry := Function.update F.entry x e, leaf := Function.update F.leaf x leaf }

/-- Another root of the directory `d`. -/
def withRoot (F : Forest) (d : ℕ) (r : Option Ref) : Forest :=
  { F with node := Function.update F.node (d, []) r }

variable {e : Option (ℕ × ℕ)} {leaf : Bool}

theorem Ok.withEntry (h : F.Ok) (hx : (F.node x).isSome)
    (hleaf : leaf = true → e.isSome ∧ F.kids x = []) : (F.withEntry x e leaf).Ok := by
  refine ⟨h.pos, h.inj, h.nodup, h.kids, fun y c hc => ⟨(h.parent y c hc).1, ?_⟩, fun y hy => ?_,
    fun y hy => ?_, h.depth⟩
  · by_cases hy : y = x
    · subst hy
      rw [show (F.withEntry y e leaf).leaf y = leaf from Function.update_self _ _ _]
      by_contra htrue
      have hnil := (hleaf (by simpa using htrue)).2
      rw [show (F.withEntry y e leaf).kids y = F.kids y from rfl, hnil] at hc
      cases hc
    · rw [show (F.withEntry x e leaf).leaf y = F.leaf y from Function.update_of_ne hy _ _]
      exact (h.parent y c hc).2
  · by_cases hyx : y = x
    · exact hyx ▸ hx
    · exact h.entry y (by simpa [Forest.withEntry, Function.update_of_ne hyx] using hy)
  · by_cases hyx : y = x
    · subst hyx
      simpa [Forest.withEntry] using (hleaf (by simpa [Forest.withEntry] using hy)).1
    · simpa [Forest.withEntry, Function.update_of_ne hyx] using
        h.leaf y (by simpa [Forest.withEntry, Function.update_of_ne hyx] using hy)

theorem child_ne_root (x : Pos) (b : UInt8) (d : ℕ) : child x b ≠ (d, []) := by
  simp [child]

theorem Ok.addRoot {d : ℕ} {r : Ref} (h : F.Ok) (hr0 : r ≠ 0)
    (hr : ∀ y, F.node y ≠ some r) : (F.withRoot d (some r)).Ok := by
  have hnode : ∀ y, y ≠ (d, []) → (F.withRoot d (some r)).node y = F.node y := fun y hy =>
    Function.update_of_ne hy _ _
  have hroot : (F.withRoot d (some r)).node (d, []) = some r := Function.update_self _ _ _
  have hkeep : ∀ y, (F.node y).isSome → ((F.withRoot d (some r)).node y).isSome := by
    intro y hy
    by_cases hyd : y = (d, [])
    · rw [hyd, hroot]
      rfl
    · rwa [hnode y hyd]
  have hnodes := h.update_node (o := some r) (by simpa using hr0)
    (fun y r' hr' => Option.some.inj hr' ▸ hr y) (d, [])
  refine ⟨hnodes.1, hnodes.2, h.nodup, fun y c => ?_,
    fun y c hc => ⟨hkeep y (h.parent y c hc).1, (h.parent y c hc).2⟩,
    fun y hy => hkeep y (h.entry y hy), h.leaf, fun y hy => ?_⟩
  · rw [hnode _ (child_ne_root y c d)]
    exact h.kids y c
  · by_cases hyd : y = (d, [])
    · simp [hyd]
    · rw [hnode y hyd] at hy
      exact h.depth y hy

theorem Ok.removeRoot {d : ℕ} (h : F.Ok) (hkids : F.kids (d, []) = [])
    (hentry : F.entry (d, []) = none) : (F.withRoot d none).Ok := by
  have hnode : ∀ y, y ≠ (d, []) → (F.withRoot d none).node y = F.node y := fun y hy =>
    Function.update_of_ne hy _ _
  have hnodes := h.update_node (o := none) nofun nofun (d, [])
  refine ⟨hnodes.1, hnodes.2, h.nodup, fun y c => ?_, fun y c hc => ⟨?_, (h.parent y c hc).2⟩,
    fun y hy => ?_, h.leaf, fun y hy => ?_⟩
  · rw [hnode _ (child_ne_root y c d)]
    exact h.kids y c
  · rw [hnode y]
    · exact (h.parent y c hc).1
    · rintro rfl
      rw [show (F.withRoot d none).kids (d, []) = F.kids (d, []) from rfl, hkids] at hc
      cases hc
  · rw [hnode y]
    · exact h.entry y hy
    · rintro rfl
      rw [show (F.withRoot d none).entry (d, []) = F.entry (d, []) from rfl, hentry] at hy
      cases hy
  · by_cases hyd : y = (d, [])
    · simp [hyd]
    · rw [hnode y hyd] at hy
      exact h.depth y hy

theorem Fits.same {n m : Node} (h : F.Fits hole x n) (hsame : n.Same m) :
    F.Fits hole x m := by
  obtain ⟨harea, hslot⟩ := hsame
  have hfield : ∀ {α : Type} (f : TrieSlot → α),
      (∀ s off, f { s with nameOffset := off } = f s) → f m.slot = f n.slot := by
    intro α f hf
    rw [hslot]
    exact hf n.slot m.slot.nameOffset
  refine ⟨?_, ?_, ?_, fun e he => ?_, fun hx => harea ▸ h.area hx, fun b p hx => ⟨?_, ?_⟩⟩
  · rw [hfield (·.firstChild) fun _ _ => rfl, h.firstChild]
  · rw [hfield (·.childCount) fun _ _ => rfl, h.childCount]
  · rw [hfield (·.nodeType) fun _ _ => rfl, h.nodeType]
  · rw [hfield (·.inode) fun _ _ => rfl, hfield (·.ftype) fun _ _ => rfl, h.entry e he]
  · rw [hfield (·.byteVal) fun _ _ => rfl, (h.link b p hx).1]
  · rw [hfield (·.nextSibling) fun _ _ => rfl, (h.link b p hx).2]

theorem In.congr {H H' : Heap} (hin : F.In hole H)
    (h : ∀ y r, F.node y = some r → H' r = H r) : F.In hole H' := fun y r hy => by
  rw [h y r hy]
  exact hin y r hy

/-- The entry of one node changes, and names may be moved in its page. -/
theorem In.withEntry {hole hole' : Set Pos} {H H' : Heap} {r : Ref} {n : Node} (hin : F.In hole H)
    (h : F.Ok) (hx : F.node x = some r) (hhole : ∀ y, y ≠ x → y ∉ hole' → y ∉ hole)
    (hothers : ∀ r', r' ≠ r → Option.Rel Node.Same (H r') (H' r')) (hself : H' r = some n)
    (hfit : (F.withEntry x e leaf).Fits hole' x n) : (F.withEntry x e leaf).In hole' H' := by
  intro y ry hy
  change F.node y = some ry at hy
  by_cases hyx : y = x
  · subst hyx
    obtain rfl : r = ry := by
      rw [hx] at hy
      exact Option.some.inj hy
    exact ⟨n, hself, hfit⟩
  · obtain ⟨m, hm, hmfit⟩ := hin y ry hy
    have hrel := hothers ry fun heq => hyx (h.inj y x ry hy (heq ▸ hx))
    rw [hm] at hrel
    cases hH' : H' ry with
    | none => rw [hH'] at hrel; cases hrel
    | some m' =>
      rw [hH'] at hrel
      cases hrel with
      | some hsame =>
        refine ⟨m', rfl, (hmfit.same hsame).congr rfl ?_ ?_ rfl (hhole y hyx) fun b p _ => rfl⟩
        · exact Function.update_of_ne hyx _ _
        · exact Function.update_of_ne hyx _ _

theorem In.withRoot {H H' : Heap} {d : ℕ} {r : Option Ref} (hin : F.In hole H)
    (hothers : ∀ y ry, y ≠ (d, []) → F.node y = some ry → H' ry = H ry)
    (hself : ∀ ref, r = some ref → ∃ n, H' ref = some n ∧ F.Fits hole (d, []) n) :
    (F.withRoot d r).In hole H' := by
  have hfirst : ∀ y l, (F.withRoot d r).first y l = F.first y l := fun y l =>
    first_congr fun c _ => Function.update_of_ne (child_ne_root y c d) _ _
  have hfits : ∀ y n, F.Fits hole y n → (F.withRoot d r).Fits hole y n := fun y n hfit =>
    hfit.congr rfl rfl rfl (hfirst _ _) id fun b p _ => hfirst _ _
  intro y ry hy
  by_cases hyd : y = (d, [])
  · subst hyd
    rw [show (F.withRoot d r).node (d, []) = r from Function.update_self _ _ _] at hy
    obtain ⟨n, hn, hfit⟩ := hself ry hy
    exact ⟨n, hn, hfits _ n hfit⟩
  · rw [show (F.withRoot d r).node y = F.node y from Function.update_of_ne hyd _ _] at hy
    obtain ⟨n, hn, hfit⟩ := hin y ry hy
    exact ⟨n, (hothers y ry hyd hy).trans hn, hfits y n hfit⟩

end Entries

section Covers

variable {F' : Forest} {stray : Set Ref} {H H' : Heap} {hole : Set Pos} {r : Ref}

/-- The nodes of the heap are strays or have a place in the forest. -/
def Covers (F : Forest) (stray : Set Ref) (H : Heap) : Prop :=
  ∀ r, (H r).isSome → r ∈ stray ∨ ∃ x, F.node x = some r

/-- No node was added, and those still there keep a place. -/
theorem Covers.congr (h : F.Covers stray H) (hheap : ∀ r, (H' r).isSome → (H r).isSome)
    (hnode : ∀ x r, F.node x = some r → (H' r).isSome → ∃ y, F'.node y = some r) :
    F'.Covers stray H' := by
  intro r hr
  refine (h r (hheap r hr)).imp id ?_
  rintro ⟨x, hx⟩
  exact hnode x r hx hr

theorem Covers.mono (h : F.Covers stray H) (hheap : ∀ r, (H' r).isSome → (H r).isSome)
    (hnode : F'.node = F.node) : F'.Covers stray H' :=
  h.congr hheap fun x _ hx _ => ⟨x, hnode ▸ hx⟩

theorem Covers.insert {o : Option Node} (h : F.Covers stray H) (hx : F.node x = none) :
    { F with node := Function.update F.node x (some r) }.Covers stray (Function.update H r o) := by
  intro r' hr'
  by_cases heq : r' = r
  · exact .inr ⟨x, heq ▸ Function.update_self _ _ _⟩
  · rw [Function.update_of_ne heq] at hr'
    refine (h r' hr').imp id ?_
    rintro ⟨y, hy⟩
    have hne : y ≠ x := by
      rintro rfl
      rw [hx] at hy
      cases hy
    exact ⟨y, (Function.update_of_ne hne _ _).trans hy⟩

theorem Covers.erase (h : F.Covers stray H) (hx : F.node x = some r) :
    { F with node := Function.update F.node x none }.Covers stray (Function.update H r none) := by
  refine h.congr (fun r' hr' => ?_) fun y r' hy hr' => ⟨y, ?_⟩
  · by_cases heq : r' = r
    · simp [heq] at hr'
    · rwa [Function.update_of_ne heq] at hr'
  · refine (Function.update_of_ne ?_ _ _).trans hy
    rintro rfl
    rw [hx] at hy
    simp [Option.some.inj hy] at hr'

theorem In.isSome_of_family (hin : F.In hole H) (h : F.Ok) (hx : (F.node x).isSome)
    (hothers : ∀ r', r' ≠ F.ref x → (∀ c ∈ F.kids x, r' ≠ F.ref (child x c)) → H' r' = H r')
    (r : Ref) (hr : (H' r).isSome) : (H r).isSome := by
  by_cases hself : r = F.ref x
  · obtain ⟨r', hr'⟩ := Option.isSome_iff_exists.mp hx
    obtain ⟨n, hn, -⟩ := hin x r' hr'
    rw [hself, ref, hr']
    simp [hn]
  · by_cases hkid : ∃ c ∈ F.kids x, r = F.ref (child x c)
    · obtain ⟨c, hc, rfl⟩ := hkid
      obtain ⟨n, hn, -⟩ := hin _ _ (h.node_child hc).1
      simp [hn]
    · rwa [hothers r hself fun c hc heq => hkid ⟨c, hc, heq⟩] at hr

theorem Linked.isSome (hlinked : F.Linked x r H H') (hin : F.In hole H) (h : F.Ok)
    (hx : (F.node x).isSome) : ∀ r, (H' r).isSome → (H r).isSome :=
  hin.isSome_of_family h hx fun r' hself hkids =>
    hlinked.others r' hself fun c hc => hkids c (List.mem_of_getLast? hc)

theorem Unlinked.isSome (hunlinked : F.Unlinked x b H H') (hin : F.In hole H) (h : F.Ok)
    (hx : (F.node x).isSome) : ∀ r, (H' r).isSome → (H r).isSome :=
  hin.isSome_of_family h hx fun r' hself hkids =>
    hunlinked.others r' hself fun c hc _ => hkids c hc

/-- The entry of one node changes, and names may be moved in its page. -/
theorem Covers.withEntry (h : F.Covers stray H) (e : Option (ℕ × ℕ)) (leaf : Bool)
    (hin : F.In hole H) (hx : F.node x = some r)
    (hothers : ∀ r', r' ≠ r → Option.Rel Node.Same (H r') (H' r')) :
    (F.withEntry x e leaf).Covers stray H' := by
  refine h.mono (fun r' hr' => ?_) rfl
  by_cases heq : r' = r
  · obtain ⟨n, hn, -⟩ := hin x r hx
    simp [heq, hn]
  · have hrel := hothers r' heq
    generalize H r' = o, H' r' = o' at hrel hr' ⊢
    cases hrel with
    | none => cases hr'
    | some _ => rfl

end Covers

end Forest

end Briefs.Trie
