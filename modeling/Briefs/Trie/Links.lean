import Briefs.Trie.History
import Mathlib.Order.CompletePartialOrder

/-!
# The pages and the links of the directory tries

What the blocks hold after any requests, as others read it: the header, the slots and the
name heap of every trie page agree, and the links from a root lead through live slots, along
chains of siblings as long as the parents say. If every request was done, the live slots
are those the links lead to.
-/

namespace Briefs.Trie

open Lib

namespace Store

variable (s : Store)

def slotAt (ref : Ref) : Option TrieSlot :=
  match s.blocks.read (refBlock ref) with
  | .page p => some (p.slot (refSlot ref))
  | _ => none

/-- The chain of siblings from a ref on. -/
inductive Siblings : Ref → List (Ref × TrieSlot) → Prop
  | nil : Siblings 0 []
  | cons {ref : Ref} {slot : TrieSlot} {rest : List (Ref × TrieSlot)} : ref ≠ 0 →
      s.slotAt ref = some slot → Siblings slot.nextSibling rest → Siblings ref ((ref, slot) :: rest)

/-- The refs the links from a root lead to; a root is nobody's sibling. -/
inductive Reaches (root : Ref) : Ref → Prop
  | root : root ≠ 0 → Reaches root root
  | first {ref : Ref} {slot : TrieSlot} : Reaches root ref → s.slotAt ref = some slot →
      slot.firstChild ≠ 0 → Reaches root slot.firstChild
  | next {ref : Ref} {slot : TrieSlot} : Reaches root ref → ref ≠ root →
      s.slotAt ref = some slot → slot.nextSibling ≠ 0 → Reaches root slot.nextSibling

end Store

section Forest

variable {g : Geometry} {K : Rest} {F : Forest} {s : Dirs} {m : Maps} {x : Pos} {ref : Ref} {d : ℕ}

theorem Hold.node (h : Hold g K F s m) (hx : F.node x = some ref) :
    ∃ p n, s.store.blocks.read (refBlock ref) = .page p ∧ p.Live (refSlot ref) ∧
      s.store.slotAt ref = some n.slot ∧ F.Fits ∅ x n := by
  obtain ⟨-, pages, H, hh, hin, -⟩ := h.tries.rep
  obtain ⟨n, hn, hfit⟩ := hin x ref hx
  obtain ⟨-, p, hview, -, hlive, hslot, -⟩ := hh.page_of_node hn
  rw [← h.settled] at hview
  refine ⟨p, n, hview, hlive, ?_, hfit⟩
  rw [Store.slotAt, hview]
  exact congrArg some hslot

/-- The children of a node are chained in their order. -/
theorem Hold.siblings (h : Hold g K F s m) (rest pre : List UInt8) (hkids : F.kids x = pre ++ rest) :
    ∃ l, s.store.Siblings (F.first x rest) l ∧
      l.map (fun e => (e.1, e.2.byteVal)) = rest.map fun c => (F.ref (child x c), c) := by
  induction rest generalizing pre with
  | nil => exact ⟨[], .nil, rfl⟩
  | cons c rest ih =>
    have hc : c ∈ F.kids x := by simp [hkids]
    obtain ⟨hnode, hne⟩ := h.tries.ok.node_child hc
    obtain ⟨-, n, -, -, hslot, hfit⟩ := h.node hnode
    obtain ⟨hbyte, hnext⟩ := hfit.link c x.2 rfl
    change n.slot.nextSibling = F.first x (after c (F.kids x)) at hnext
    rw [hkids, after_append_cons (notMem_of_nodup (hkids ▸ h.tries.ok.nodup x))] at hnext
    obtain ⟨l, hl, hmap⟩ := ih (pre ++ [c]) (by simpa using hkids)
    refine ⟨(F.ref (child x c), n.slot) :: l, .cons hne hslot (hnext ▸ hl), ?_⟩
    rw [List.map_cons, List.map_cons, hmap, hbyte]

theorem Forest.exists_of_first_ne {l : List UInt8} (h : F.first x l ≠ 0) :
    ∃ c ∈ l, F.first x l = F.ref (child x c) := by
  cases l with
  | nil => exact absurd rfl h
  | cons c l => exact ⟨c, List.mem_cons_self, rfl⟩

/-- The links lead to nodes of the forest. -/
theorem Hold.node_of_reaches (h : Hold g K F s m) (hreach : s.store.Reaches (s.root d) ref) :
    ∃ p, F.node (d, p) = some ref := by
  have hok := h.tries.ok
  induction hreach with
  | root hne =>
    rw [h.root] at hne ⊢
    cases hnode : F.node (d, []) with
    | none => simp [Forest.ref, hnode] at hne
    | some r => exact ⟨[], by simp [Forest.ref, hnode]⟩
  | @first ref slot hreach hslot hne ih =>
    obtain ⟨p, hp⟩ := ih
    obtain ⟨-, n, -, -, hslot', hfit⟩ := h.node hp
    obtain rfl : n.slot = slot := Option.some.inj (hslot'.symm.trans hslot)
    rw [hfit.firstChild] at hne ⊢
    obtain ⟨c, hc, heq⟩ := Forest.exists_of_first_ne hne
    exact ⟨c :: p, heq ▸ (hok.node_child hc).1⟩
  | @next ref slot hreach hroot hslot hne ih =>
    obtain ⟨p, hp⟩ := ih
    obtain ⟨-, n, -, -, hslot', hfit⟩ := h.node hp
    obtain rfl : n.slot = slot := Option.some.inj (hslot'.symm.trans hslot)
    cases p with
    | nil =>
      rw [h.root, Forest.ref, hp] at hroot
      exact absurd rfl hroot
    | cons b p =>
      rw [(hfit.link b p rfl).2] at hne ⊢
      obtain ⟨c, hc, heq⟩ := Forest.exists_of_first_ne hne
      exact ⟨c :: p, heq ▸ (hok.node_child (mem_of_mem_after hc)).1⟩

theorem Hold.reaches_child (h : Hold g K F s m) (hreach : s.store.Reaches (s.root d) ref)
    (hx : F.node x = some ref) (c : UInt8) (post : List UInt8) :
    ∀ pre, F.kids x = pre ++ c :: post → s.store.Reaches (s.root d) (F.ref (child x c)) := by
  intro pre
  have hok := h.tries.ok
  induction pre using List.reverseRecOn generalizing c post with
  | nil =>
    intro hkids
    obtain ⟨-, n, -, -, hslot, hfit⟩ := h.node hx
    have hfirst : n.slot.firstChild = F.ref (child x c) := by rw [hfit.firstChild, hkids]; rfl
    rw [← hfirst]
    refine .first hreach hslot ?_
    rw [hfirst]
    exact (hok.node_child (by simp [hkids])).2
  | append_singleton pre b ih =>
    intro hkids
    rw [List.append_assoc, List.singleton_append] at hkids
    have hb := hok.node_child (show b ∈ F.kids x by simp [hkids])
    obtain ⟨-, n, -, -, hslot, hfit⟩ := h.node hb.1
    have hnext : n.slot.nextSibling = F.ref (child x c) := by
      rw [(hfit.link b x.2 rfl).2]
      change F.first x (after b (F.kids x)) = _
      rw [hkids, after_append_cons (notMem_of_nodup (hkids ▸ hok.nodup x))]
      rfl
    rw [← hnext]
    refine .next (ih b (c :: post) hkids) ?_ hslot ?_
    · intro heq
      have hroot : F.node (d, []) = some (F.ref (child x b)) := by
        rw [heq, h.root]
        cases hnode : F.node (d, []) with
        | some r => simp [Forest.ref, hnode]
        | none =>
          have : s.root d = 0 := by rw [h.root, Forest.ref, hnode]; rfl
          rw [heq, this] at hb
          exact absurd rfl hb.2
      exact Forest.child_ne_root x b d (hok.inj _ _ _ hb.1 hroot)
    · rw [hnext]
      exact (hok.node_child (by simp [hkids])).2

/-- The links lead to every node of the forest. -/
theorem Hold.reaches (h : Hold g K F s m) (p : Bytes) (hp : F.node (d, p) = some ref) :
    s.store.Reaches (s.root d) ref := by
  have hok := h.tries.ok
  induction p generalizing ref with
  | nil =>
    have hroot : s.root d = ref := by rw [h.root, Forest.ref, hp]; rfl
    rw [← hroot]
    refine .root ?_
    rintro hzero
    rw [← hroot, hzero] at hp
    exact hok.pos _ hp
  | cons b p ih =>
    have hb : b ∈ F.kids (d, p) := (hok.kids (d, p) b).mpr (by rw [child, hp]; rfl)
    obtain ⟨r, hr⟩ := Option.isSome_iff_exists.mp (hok.parent _ b hb).1
    obtain ⟨pre, post, hkids⟩ := List.append_of_mem hb
    have hreach := h.reaches_child (ih hr) hr b post pre hkids
    rwa [Forest.ref, child, hp] at hreach

end Forest

section Pages

def triePageSize : ℕ := 4096

/-- Where the slot array of a page ends, behind its header. -/
def slotArrayEnd : ℕ := 20 + 36 * trieSlotsPerBlock

/-- The bytes of the block that the name of a slot takes. -/
def TriePage.nameRange (p : TriePage) (i : ℕ) : Set ℕ :=
  if (p.slot i).nameOffset = 0 then ∅
  else Set.Ico (triePageSize - (p.slot i).nameOffset)
    (triePageSize - (p.slot i).nameOffset + (p.slot i).nameLen)

/-- The header, the slots and the name heap of a page agree. -/
structure TriePage.Sound (p : TriePage) : Prop where
  liveCount : p.liveCount = trieSlotsPerBlock - (List.range trieSlotsPerBlock).countP p.isFree
  heap : slotArrayEnd ≤ triePageSize - p.freeNameOff
  inside : ∀ i, p.Live i → p.nameRange i ⊆ Set.Ico (triePageSize - p.freeNameOff) triePageSize
  disjoint : ∀ i j, p.Live i → p.Live j → i ≠ j → Disjoint (p.nameRange i) (p.nameRange j)

theorem TriePage.Ok.sound {p : TriePage} (h : p.Ok) : p.Sound := by
  have hheap := h.freeNameOff
  unfold nameHeapSize at hheap
  have hname : ∀ i, p.Live i → (p.slot i).nameOffset ≠ 0 →
      (p.slot i).nameLen ≤ (p.slot i).nameOffset ∧ (p.slot i).nameOffset ≤ p.freeNameOff :=
    fun i hi hne => (h.name i hi).elim (fun hnone => absurd hnone.1 hne) And.right
  refine ⟨?_, ?_, fun i hi b hb => ?_, fun i j hi hj hij => ?_⟩
  · have := List.length_eq_countP_add_countP (l := List.range 64) p.isFree
    simp only [List.length_range, Bool.not_eq_true, Bool.decide_eq_false] at this
    rw [h.liveCount, trieSlotsPerBlock]
    omega
  · unfold slotArrayEnd trieSlotsPerBlock triePageSize
    omega
  · unfold TriePage.nameRange at hb
    split_ifs at hb with hnone
    · exact hb.elim
    · have := hname i hi hnone
      simp only [Set.mem_Ico, triePageSize] at hb ⊢
      omega
  · unfold TriePage.nameRange
    split_ifs with hi0 hj0 hj0
    · exact Set.disjoint_empty _
    · exact Set.empty_disjoint _
    · exact Set.disjoint_empty _
    · have hiname := hname i hi hi0
      have hjname := hname j hj hj0
      have hapart := h.apart i j hi hj hij hi0 hj0
      rw [Set.disjoint_left]
      intro b hb hb'
      simp only [Set.mem_Ico, triePageSize] at hb hb'
      unfold TrieSlot.Apart at hapart
      omega

/-- A reachable node is live, and its children are chained, each byte once and as many as it
counts. -/
def Store.NodeSound (s : Store) (ref : Ref) : Prop :=
  ∃ p l, s.blocks.read (refBlock ref) = .page p ∧ p.Live (refSlot ref) ∧
    s.Siblings (p.slot (refSlot ref)).firstChild l ∧ (l.map (·.2.byteVal)).Nodup ∧
    (p.slot (refSlot ref)).childCount = l.length

theorem Hold.nodeSound {g : Geometry} {K : Rest} {F : Forest} {s : Dirs} {m : Maps} {d : ℕ} {ref : Ref}
    (h : Hold g K F s m) (hreach : s.store.Reaches (s.root d) ref) : s.store.NodeSound ref := by
  obtain ⟨p, hp⟩ := h.node_of_reaches hreach
  obtain ⟨page, n, hread, hlive, hslot, hfit⟩ := h.node hp
  obtain ⟨l, hl, hmap⟩ := h.siblings (x := (d, p)) (F.kids (d, p)) [] rfl
  have hbytes : l.map (·.2.byteVal) = F.kids (d, p) := by
    simpa [Function.comp_def] using congrArg (List.map Prod.snd) hmap
  rw [Store.slotAt, hread] at hslot
  have hslot : page.slot (refSlot ref) = n.slot := Option.some.inj hslot
  refine ⟨page, l, hread, hlive, ?_, ?_, ?_⟩
  · rw [hslot, hfit.firstChild]
    exact hl
  · rw [hbytes]
    exact h.tries.ok.nodup _
  · rw [hslot, hfit.childCount, ← hbytes, List.length_map]

/-- Whatever is asked of directories that share their trie pages, from a store without such
pages on, every page is sound, and so is every node the links from a root lead to. -/
theorem directory_pages_sound {g : Geometry} {s : Store} (h : Fresh g s) (requests : List Request) :
    (∀ block p, ((Dirs.empty s).run g requests).2.store.blocks.read block = .page p → p.Sound) ∧
    ∀ d ref, ((Dirs.empty s).run g requests).2.store.Reaches
        (((Dirs.empty s).run g requests).2.root d) ref →
      ((Dirs.empty s).run g requests).2.store.NodeSound ref := by
  obtain ⟨K, F, hK, -, -, hend⟩ := h.runs False False.elim requests
  refine ⟨fun block p hp => ?_, fun d ref hreach => hend.nodeSound hreach⟩
  obtain ⟨-, pages, H, hh, -⟩ := hend.tries.rep
  exact (hh.sound hK.sound block p (.inl hp)).ok.sound

theorem fresh_sampleStore : Fresh sampleGeometry sampleStore :=
  { unused_sampleStore with pages := fun _ _ => by simp [sampleStore, Layered.read] }

/-- The requests of the sample leave a node in the first slot of the block 101. -/
theorem directory_pages_sound_sample :
    (((Dirs.empty sampleStore).run sampleGeometry sampleRequests).2.store.slotAt
      (makeRef 101 0)).isSome = true ∧
    (∀ block p, ((Dirs.empty sampleStore).run sampleGeometry sampleRequests).2.store.blocks.read
      block = .page p → p.Sound) ∧
    ∀ d ref, ((Dirs.empty sampleStore).run sampleGeometry sampleRequests).2.store.Reaches
        (((Dirs.empty sampleStore).run sampleGeometry sampleRequests).2.root d) ref →
      ((Dirs.empty sampleStore).run sampleGeometry sampleRequests).2.store.NodeSound ref :=
  ⟨by decide +kernel, directory_pages_sound fresh_sampleStore sampleRequests⟩

end Pages

section Leaks

variable {g : Geometry} {K : Rest} {F : Forest} {s : Dirs} {m : Maps} {d : ℕ} {name : Bytes}

/-- The blocks the tries have taken since `s` and not given up: allocated, and not queued to be
freed. -/
def Geometry.held (g : Geometry) (s t : Store) : Set ℕ :=
  { block ∈ g.taken t.dataAlloc | block ∉ g.taken s.dataAlloc ∧
    g.rel block ∉ t.pendingFrees.blocks }

/-- With every allocated block accounted for, the pages are the blocks taken. -/
theorem Holds.pages_eq {pages : Set ℕ} {H : Heap} {s t : Store} (h : Holds g K pages H t)
    (hexact : K.exact) (hused : K.used = g.taken s.dataAlloc) : pages = g.held s t := by
  ext block
  constructor
  · intro hblock
    obtain ⟨rel, rfl, hpos, hlt, hfree, hqueue⟩ := h.owns.taken block (.inl hblock)
    refine ⟨⟨rel, rfl, hpos, hlt, hfree⟩, hused ▸ h.apart _ hblock, ?_⟩
    rwa [Geometry.rel_add h.owns.fits hlt]
  · rintro ⟨⟨rel, rfl, hpos, hlt, hfree⟩, hnew, hqueue⟩
    rw [Geometry.rel_add h.owns.fits hlt] at hqueue
    exact (h.owns.all hexact rel hpos hlt hfree hqueue).resolve_right (hused ▸ hnew)

/-- A node below a root leads to an entry. -/
theorem Forest.Tries.exists_entry {t : Store} (h : F.Tries g K t) {x : Pos}
    (hx : (F.node x).isSome) (hne : x.2 ≠ []) : ∃ p, (F.entry (x.1, p ++ x.2)).isSome := by
  -- the depth of a node is bounded
  generalize hk : maxNameLen - x.2.length = k
  induction k generalizing x with
  | zero =>
    refine ⟨[], (h.full x hne hx).resolve_left fun hkids => ?_⟩
    obtain ⟨c, hc⟩ := List.exists_mem_of_ne_nil _ hkids
    have := h.ok.depth _ ((h.ok.kids x c).mp hc)
    simp only [child, List.length_cons] at this
    omega
  | succ k ih =>
    rcases h.full x hne hx with hkids | hentry
    · obtain ⟨c, hc⟩ := List.exists_mem_of_ne_nil _ hkids
      obtain ⟨p, hp⟩ := ih ((h.ok.kids x c).mp hc) (by simp [child])
        (by simp only [child, List.length_cons]; omega)
      exact ⟨p ++ [c], by simpa [child] using hp⟩
    · exact ⟨[], hentry⟩

/-- A removal that takes the last name of a directory takes its root. -/
theorem Hold.root_of_removed (h : Hold g K F s m) (hfloor : K.floor = ∅)
    (hdone : (s.step g (.remove d name)).1 = .done)
    (hempty : (m.commit (.remove d name) .done) d = ∅) :
    (s.step g (.remove d name)).2.root d = 0 := by
  simp only [Dirs.step, Dirs.operation, h.root] at hdone ⊢
  rcases (Forest.post_trieRemove (d := d) h.begun hfloor).cases with
    ⟨root, t, hrun, hsome, F', hF', hroot, hchanged, hbare⟩ | ⟨e, t, hrun, -⟩
  swap
  · rw [hrun] at hdone
    cases hdone
  rw [hrun]
  refine (Function.update_self _ _ _).trans (hbare ?_)
  by_contra hkids
  obtain ⟨c, hc⟩ := List.exists_mem_of_ne_nil _ hkids
  obtain ⟨p, hp⟩ := hF'.exists_entry ((hF'.ok.kids (d, []) c).mp hc) (by simp [child])
  -- the entry below the child is another one that the directory still has
  have hname : name ≠ [] := by
    rintro rfl
    rw [List.reverse_nil, h.tries.root d] at hsome
    cases hsome
  have hne : (d, p ++ [c]) ≠ (d, name.reverse) := by
    intro heq
    rw [child, heq, hchanged.entry, Function.update_self] at hp
    cases hp
  rw [child, hchanged.entry, Function.update_of_ne hne] at hp
  rw [Maps.commit, if_pos ⟨rfl, hname⟩, Maps.step, if_pos (h.mem_iff.mpr hsome)] at hempty
  dsimp only at hempty
  have hlookup : (m d).lookup (p ++ [c]).reverse = F.entry (d, p ++ [c]) := by
    rw [h.entry, List.reverse_reverse]
  have hnone := congrArg (Finmap.lookup (p ++ [c]).reverse) hempty
  rw [Function.update_self, Finmap.lookup_erase_ne, hlookup, Finmap.lookup_empty] at hnone
  · rw [hnone] at hp
    cases hp
  · rintro heq
    exact hne (by rw [← heq, List.reverse_reverse])

/-- If every request was done, each block the tries have taken is a page with a live slot, or was
given up and queued. Its live slots are those the links from the roots lead to, and a directory
has no root after its last name was removed. -/
theorem no_trie_leak {g : Geometry} {s : Store} (h : Ready g s) (requests : List Request)
    (hgood : ∀ a ∈ ((Dirs.empty s).run g requests).1, a.Good) :
    (∀ block ∈ g.held s ((Dirs.empty s).run g requests).2.store, ∃ p,
      ((Dirs.empty s).run g requests).2.store.blocks.read block = .page p ∧ ∃ i, p.Live i) ∧
    (∀ ref, (∃ p, refBlock ref ∈ g.held s ((Dirs.empty s).run g requests).2.store ∧
        ((Dirs.empty s).run g requests).2.store.blocks.read (refBlock ref) = .page p ∧
        p.Live (refSlot ref)) ↔
      ∃ d, ((Dirs.empty s).run g requests).2.store.Reaches
        (((Dirs.empty s).run g requests).2.root d) ref) ∧
    ∀ d name, (((Dirs.empty s).run g requests).2.step g (.remove d name)).1 = .done →
      ((Maps.commits (fun _ => ∅) requests ((Dirs.empty s).run g requests).1).commit
        (.remove d name) .done) d = ∅ →
      (((Dirs.empty s).run g requests).2.step g (.remove d name)).2.root d = 0 := by
  obtain ⟨K, F, hK, -, hinitial, hend⟩ := h.runs True (fun _ => ⟨h.whole, h.reserved⟩)
    requests
  obtain rfl := hinitial hgood
  obtain ⟨-, pages, H, hh, hin, hcovers⟩ := hend.tries.rep
  rw [← hh.pages_eq trivial rfl]
  refine ⟨fun block hblock => ?_, fun ref => ⟨?_, ?_⟩,
    fun d name hdone hempty => hend.root_of_removed rfl hdone hempty⟩
  · obtain ⟨p, hview, hkept, -⟩ := hh.page block hblock
    exact ⟨p, by rw [hend.settled, hview], hkept.live⟩
  · rintro ⟨p, hblock, hread, hlive⟩
    obtain ⟨q, hview, -, hnodes⟩ := hh.page _ hblock
    rw [hend.settled, hview] at hread
    cases hread
    have hat := hnodes (refSlot ref) (refSlot_lt ref)
    rw [makeRef_eq, hlive.nodeAt] at hat
    rcases hcovers ref (by simp [hat]) with hstray | ⟨x, hx⟩
    · exact hstray.elim
    · exact ⟨x.1, hend.reaches x.2 hx⟩
  · rintro ⟨d, hreach⟩
    obtain ⟨path, hpath⟩ := hend.node_of_reaches hreach
    obtain ⟨n, hn, -⟩ := hin _ _ hpath
    obtain ⟨hmem, p, hview, -, hlive, -⟩ := hh.page_of_node hn
    exact ⟨p, hmem, by rw [hend.settled, hview], hlive⟩

theorem ready_sampleStore : Ready sampleGeometry sampleStore where
  toFresh := fresh_sampleStore
  whole := by
    have hpool : sampleStore.dataAlloc.bitmap = .newDataAllocBuilder 8 := by decide +kernel
    rw [hpool]
    exact Alloc.Pyramid.whole_newDataAllocBuilder (by norm_num) (by norm_num)
  reserved := by decide +kernel

/-- Two directories, of which the second loses its only name again. -/
def doneRequests : List Request :=
  [.insert 1 [97, 98] 5 8, .insert 2 [97] 6 4, .insert 1 [97, 98, 99] 7 8, .update 1 [97, 98] 9 8,
    .remove 1 [97, 98], .lookup 1 [97, 98, 99]]

theorem no_trie_leak_sample :
    (∀ block ∈ sampleGeometry.held sampleStore
        ((Dirs.empty sampleStore).run sampleGeometry doneRequests).2.store, ∃ p,
      ((Dirs.empty sampleStore).run sampleGeometry doneRequests).2.store.blocks.read block =
        .page p ∧ ∃ i, p.Live i) ∧
    (((Dirs.empty sampleStore).run sampleGeometry doneRequests).2.step sampleGeometry
      (.remove 2 [97])).2.root 2 = 0 := by
  have h := no_trie_leak ready_sampleStore doneRequests (by decide +kernel)
  exact ⟨h.1, h.2.2 2 [97] (by decide +kernel) (by decide +kernel)⟩

end Leaks

end Briefs.Trie
