import Briefs.Alloc.Exact
import Briefs.Lib.Post
import Briefs.Trie.Names
import Briefs.Trie.Node

/-!
# The heap of trie nodes

The pages of all directory tries together are a heap of nodes: a ref is the address of
one, `trieAllocNode` and `trieFreeNode` allocate and free one, and pages come and go
with them. `Holds` says which heap a store holds. The functions of `Node.lean` that work
on one node are specified over it, so that the code above does not see pages any more.
-/

namespace Briefs.Trie

open Lib Lib.Program Alloc
open Bridge (RunAccum)

abbrev Heap := Ref → Option Node

theorem refBlock_makeRef (block i : ℕ) : refBlock (makeRef block i) = block := by
  unfold refBlock makeRef
  omega

theorem refSlot_makeRef {block i : ℕ} (hi : i < 64) : refSlot (makeRef block i) = i := by
  unfold refSlot makeRef
  omega

theorem makeRef_eq (ref : Ref) : makeRef (refBlock ref) (refSlot ref) = ref := by
  change @Eq ℕ (ref / 64 * 64 + ref % 64 % 64) ref
  omega

theorem refSlot_lt (ref : Ref) : refSlot ref < 64 := Nat.mod_lt _ (by norm_num)

/-- The heap with the nodes of a page in place of those of a block. -/
def Heap.withPage (H : Heap) (block : ℕ) (q : TriePage) : Heap := fun ref =>
  if refBlock ref = block then q.nodeAt (refSlot ref) else H ref

theorem Heap.withPage_eq {H : Heap} {block i : ℕ} {q : TriePage} {o : Option Node} (hi : i < 64)
    (hq : ∀ j, j < 64 → q.nodeAt j = if j = i then o else H (makeRef block j)) :
    H.withPage block q = Function.update H (makeRef block i) o := by
  funext ref
  unfold Heap.withPage
  by_cases href : ref = makeRef block i
  · rw [href, Function.update_self, refBlock_makeRef, if_pos rfl, refSlot_makeRef hi, hq i hi,
      if_pos rfl]
  · rw [Function.update_of_ne href]
    split_ifs with hblock
    · rw [hq _ (refSlot_lt ref), ← hblock, makeRef_eq, if_neg]
      rintro rfl
      exact href (hblock ▸ (makeRef_eq ref).symm)
    · rfl

/-- What the store has besides the tries: the blocks in use elsewhere, the nodes no trie leads to
and the pages that have to stay. With `sound` a page that was given up is well-formed as well, and
with `exact` every allocated block is accounted for. -/
structure Rest where
  used : Set ℕ := ∅
  stray : Set Ref := ∅
  floor : Set ℕ := ∅
  sound : Prop := False
  exact : Prop := False

def Rest.use (K : Rest) (block : ℕ) : Rest := { K with used := insert block K.used }

/-- The blocks are data blocks that are allocated and not queued to be freed, and what is
queued is allocated and queued once. -/
structure Owns (g : Geometry) (exact : Prop) (a : Allocator) (pending : RunAccum)
    (blocks : Set ℕ) : Prop where
  fits : g.dataRegionStart + a.bitmap.blockCount ≤ 2 ^ 64
  once : pending.blocks.Nodup
  queued : ∀ rel ∈ pending.blocks, 0 < rel ∧ a.isFree rel = false
  taken : ∀ block ∈ blocks, ∃ rel, block = g.dataRegionStart + rel ∧ 0 < rel ∧
    rel < a.bitmap.blockCount ∧ a.isFree rel = false ∧ rel ∉ pending.blocks
  whole : exact → a.bitmap.Whole ∧ a.isFree 0 = false
  all : exact → ∀ rel, 0 < rel → rel < a.bitmap.blockCount → a.isFree rel = false →
    rel ∉ pending.blocks → g.dataRegionStart + rel ∈ blocks

/-- A page as it is written: well-formed and with a node. -/
structure TriePage.Kept (p : TriePage) : Prop where
  ok : p.Ok
  live : ∃ i, p.Live i

/-- The page a block is, for the operation or for others. -/
def Shown (blocks : Layered ℕ Content) (block : ℕ) (p : TriePage) : Prop :=
  blocks.read block = .page p ∨ blocks.view block = .page p

/-- What the pool may have: a page of the tries, or a block in use elsewhere that is no page. -/
def Pooled (K : Rest) (pages : Set ℕ) (blocks : Layered ℕ Content) (block : ℕ) : Prop :=
  block ∈ pages ∨ block ∈ K.used ∧ ∀ p, ¬ Shown blocks block p

/-- The pages hold the nodes of the heap. -/
structure Holds (g : Geometry) (K : Rest) (pages : Set ℕ) (H : Heap) (s : Store) : Prop where
  page : ∀ block ∈ pages, ∃ p, s.blocks.view block = .page p ∧ p.Kept ∧
    ∀ i, i < 64 → H (makeRef block i) = p.nodeAt i
  outside : ∀ ref, refBlock ref ∉ pages → H ref = none
  pool : ∀ block ∈ s.triePartials, Pooled K pages s.blocks block
  apart : ∀ block ∈ pages, block ∉ K.used
  floor : K.floor ⊆ pages
  owns : Owns g K.exact s.dataAlloc s.pendingFrees (pages ∪ K.used)
  sound : K.sound → ∀ block p, Shown s.blocks block p → p.Kept
  tidy : s.blocks.Tidy
  running : s.inReplay = false

variable {g : Geometry} {K : Rest} {pages : Set ℕ} {H : Heap} {s : Store} {ref : Ref} {n : Node}

theorem Geometry.rel_add {rel count : ℕ} (hfits : g.dataRegionStart + count ≤ 2 ^ 64)
    (hrel : rel < count) : g.rel (g.dataRegionStart + rel) = rel := by
  unfold Geometry.rel
  rw [show g.dataRegionStart + rel + 2 ^ 64 - g.dataRegionStart = rel + 2 ^ 64 by omega,
    Nat.add_mod_right, Nat.mod_eq_of_lt (by omega)]

theorem Owns.congr {a a' : Allocator} {pending pending' : RunAccum} {blocks : Set ℕ} {exact : Prop}
    (h : Owns g exact a pending blocks) (hbitmap : a'.bitmap = a.bitmap)
    (hpending : pending' = pending) : Owns g exact a' pending' blocks := by
  obtain ⟨hfits, honce, hqueued, htaken, hwhole, hall⟩ := h
  rw [← hpending] at honce hqueued htaken hall
  unfold Allocator.isFree at hqueued htaken hwhole hall
  rw [← hbitmap] at hfits hqueued htaken hwhole hall
  exact ⟨hfits, honce, hqueued, htaken, hwhole, hall⟩

theorem Shown.congr {blocks blocks' : Layered ℕ Content} {block : ℕ} {p : TriePage}
    (h : Shown blocks' block p) (hview : blocks'.view = blocks.view)
    (hread : blocks'.read = blocks.read ∨ blocks'.read = blocks'.view) : Shown blocks block p := by
  unfold Shown at h
  rcases hread with hread | hread
  · rw [hread, hview] at h
    exact h
  · rw [hread, or_self, hview] at h
    exact .inr h

theorem Pooled.congr {blocks blocks' : Layered ℕ Content} {block : ℕ}
    (h : Pooled K pages blocks block) (hview : blocks'.view = blocks.view)
    (hread : blocks'.read = blocks.read ∨ blocks'.read = blocks'.view) :
    Pooled K pages blocks' block :=
  h.imp_right fun hused => ⟨hused.1, fun p hp => hused.2 p (hp.congr hview hread)⟩

/-- What a block is that was not written. -/
theorem Shown.of_save {blocks : Layered ℕ Content} {b block : ℕ} {c : Content} {p : TriePage}
    (h : Shown (blocks.save block c) b p) (hb : b ≠ block) : Shown blocks b p := by
  rcases h with h | h
  · exact .inl h
  · rw [Layered.Calm.view_save, Function.update_of_ne hb] at h
    exact .inr h

namespace Holds

variable {q : TriePage} {block : ℕ}

theorem congr {t : Store} (h : Holds g K pages H s) (hview : t.blocks.view = s.blocks.view)
    (hread : t.blocks.read = s.blocks.read ∨ t.blocks.read = t.blocks.view) (htidy : t.blocks.Tidy)
    (hpool : t.triePartials = s.triePartials)
    (hbitmap : t.dataAlloc.bitmap = s.dataAlloc.bitmap) (hpending : t.pendingFrees = s.pendingFrees)
    (hrun : t.inReplay = s.inReplay) : Holds g K pages H t := by
  refine ⟨?_, h.outside, ?_, h.apart, h.floor, h.owns.congr hbitmap hpending, ?_, htidy,
    hrun ▸ h.running⟩
  · rw [hview]
    exact h.page
  · rw [hpool]
    exact fun b hb => (h.pool b hb).congr hview hread
  · exact fun hsound block p hp => h.sound hsound block p (hp.congr hview hread)

theorem nodeAt_eq (h : Holds g K pages H s) {block i : ℕ} (hblock : block ∈ pages) {p : TriePage}
    (hview : s.blocks.view block = .page p) (hi : i < 64) :
    H (makeRef block i) = p.nodeAt i := by
  obtain ⟨p', hview', -, hnodes⟩ := h.page block hblock
  cases hview.symm.trans hview'
  exact hnodes i hi

theorem page_of_node (h : Holds g K pages H s) (hn : H ref = some n) :
    refBlock ref ∈ pages ∧ ∃ p, s.blocks.view (refBlock ref) = .page p ∧ p.Ok ∧
      p.Live (refSlot ref) ∧ p.slot (refSlot ref) = n.slot ∧ p.node n.slot = n ∧
      ∀ i, i < 64 → H (makeRef (refBlock ref) i) = p.nodeAt i := by
  have hmem : refBlock ref ∈ pages := by
    by_contra hout
    rw [h.outside ref hout] at hn
    cases hn
  obtain ⟨p, hview, hkept, hnodes⟩ := h.page _ hmem
  have hat := hnodes (refSlot ref) (refSlot_lt ref)
  rw [makeRef_eq, hn] at hat
  obtain ⟨hlive, hnode⟩ := TriePage.live_of_nodeAt (refSlot_lt ref) hat.symm
  have hslot : p.slot (refSlot ref) = n.slot := by rw [← hnode]; rfl
  exact ⟨hmem, p, hview, hkept.ok, hlive, hslot, hslot ▸ hnode, hnodes⟩

theorem sound_save (h : Holds g K pages H s) (hq : q.Kept)
    (hsound : K.sound) (b : ℕ) (p : TriePage) (hp : Shown (s.blocks.save block (.page q)) b p) :
    p.Kept := by
  by_cases hb : b = block
  · rcases hp with hp | hp
    · exact h.sound hsound b p (.inl hp)
    · rw [Layered.Calm.view_save, hb, Function.update_self] at hp
      cases hp
      exact hq
  · exact h.sound hsound b p (hp.of_save hb)

theorem pooled_save {block b : ℕ} {c : Content} (h : Holds g K pages H s) (hblock : block ∈ pages)
    (hb : Pooled K pages s.blocks b) : Pooled K pages (s.blocks.save block c) b := by
  refine hb.imp_right fun hused => ⟨hused.1, fun p hp => hused.2 p (hp.of_save ?_)⟩
  rintro rfl
  exact h.apart b hblock hused.1

theorem page_save (h : Holds g K pages H s) (hq : q.Kept) (b : ℕ)
    (hb : b ∈ insert block pages) :
    ∃ p, (s.blocks.save block (.page q)).view b = .page p ∧ p.Kept ∧
      ∀ i, i < 64 → H.withPage block q (makeRef b i) = p.nodeAt i := by
  rw [Layered.Calm.view_save]
  by_cases hbb : b = block
  · subst hbb
    refine ⟨q, Function.update_self _ _ _, hq, fun i hi => ?_⟩
    rw [Heap.withPage, refBlock_makeRef, if_pos rfl, refSlot_makeRef hi]
  · obtain ⟨p, hview, hkept, hnodes⟩ := h.page b (hb.resolve_left hbb)
    refine ⟨p, by rw [Function.update_of_ne hbb]; exact hview, hkept, fun i hi => ?_⟩
    rw [Heap.withPage, refBlock_makeRef, if_neg hbb, hnodes i hi]

theorem outside_save (h : Holds g K pages H s) (r : Ref)
    (hout : refBlock r ∉ insert block pages) : H.withPage block q r = none := by
  rw [Heap.withPage, if_neg fun hb => hout (.inl hb)]
  exact h.outside r fun hin => hout (.inr hin)

theorem replacePage (h : Holds g K pages H s) (hblock : block ∈ pages)
    (hq : q.Kept) :
    Holds g K pages (H.withPage block q) { s with blocks := s.blocks.save block (.page q) } where
  page b hb := h.page_save hq b (.inr hb)
  outside r hout := h.outside_save r (by rwa [Set.insert_eq_of_mem hblock])
  pool b hb := h.pooled_save hblock (h.pool b hb)
  apart := h.apart
  floor := h.floor
  owns := h.owns
  sound := h.sound_save hq
  tidy := h.tidy.save _ _
  running := h.running

/-- A page of the heap is written, with another node in one slot. -/
theorem savePage (h : Holds g K pages H s) {block i : ℕ} (hblock : block ∈ pages) (hi : i < 64)
    {p q : TriePage} (hview : s.blocks.view block = .page p) {o : Option Node} (hsets : p.Sets i o q)
    (hlive : ∃ j, q.Live j) :
    Holds g K pages (Function.update H (makeRef block i) o)
      { s with blocks := s.blocks.save block (.page q) } := by
  have hreplace := h.replacePage hblock (q := q) ⟨hsets.ok, hlive⟩
  rwa [Heap.withPage_eq hi fun j hj => by rw [hsets.nodeAt j hj, h.nodeAt_eq hblock hview hj]]
    at hreplace

end Holds

def Store.abort (s : Store) : Store := { s with blocks := s.blocks.clear }

/-- Nothing was written in between. -/
structure Store.Same (s t : Store) : Prop where
  abort : t.abort = s.abort
  view : t.blocks.view = s.blocks.view

theorem Store.Same.read {s t : Store} (h : s.Same t) : t.blocks.read = s.blocks.read := by
  have := congrArg (fun u : Store => u.blocks.read) h.abort
  exact this

theorem Store.Same.refl (s : Store) : s.Same s := ⟨rfl, rfl⟩

theorem Store.Same.trans {s t u : Store} (h : s.Same t) (h' : t.Same u) : s.Same u :=
  ⟨h'.abort.trans h.abort, h'.view.trans h.view⟩

section Access

theorem post_loadPage (h : Holds g K pages H s) {block : ℕ} {p : TriePage}
    (hview : s.blocks.view block = .page p) :
    Post (Store.exec g) (loadPage block)
      (fun q t => q = p ∧ Holds g K pages H t ∧ s.Same t) never s := by
  have hview' := Layered.Calm.view_load (s := s.blocks) block
  have hexec : Store.exec g (.loadBlock block) s =
      (.ok (.page p), { s with blocks := s.blocks.load block }) := by
    simp [Store.exec, Store.loadBlock, hview, Content.readable]
  unfold loadPage loadBlock perform
  rw [post_bind, post_bind, post_cmd, hexec]
  exact ⟨rfl, h.congr hview' (.inl rfl) (h.tidy.load _) rfl rfl rfl rfl, rfl, hview'⟩

theorem post_loadPage_raw (h : Holds g K pages H s) {block : ℕ}
    (hraw : ∀ p, s.blocks.view block ≠ .page p) :
    Post (Store.exec g) (loadPage block) (fun _ _ => False)
      (fun _ t => Holds g K pages H t ∧ s.Same t) s := by
  have hview' := Layered.Calm.view_load (s := s.blocks) block
  unfold loadPage loadBlock perform
  rw [post_bind, post_bind, post_cmd]
  cases hview : s.blocks.view block with
  | page p => exact absurd hview (hraw p)
  | raw bytes =>
    have hexec : Store.exec g (.loadBlock block) s =
        (.ok (.raw bytes), { s with blocks := s.blocks.load block }) := by
      simp [Store.exec, Store.loadBlock, hview, Content.readable]
    rw [hexec]
    exact ⟨h.congr hview' (.inl rfl) (h.tidy.load _) rfl rfl rfl rfl, rfl, hview'⟩
  | unreadable =>
    have hexec : Store.exec g (.loadBlock block) s = (.error (.errno .eio), s) := by
      simp [Store.exec, Store.loadBlock, hview, Content.readable]
    rw [hexec]
    exact ⟨h, .refl s⟩

theorem post_savePage {block : ℕ} {p : TriePage} {Q : Unit → Store → Prop} {E : Err → Store → Prop} :
    Post (Store.exec g) (savePage block p) Q E s ↔
      Q () { s with blocks := s.blocks.save block (.page p) } := Iff.rfl

theorem post_trieRead (h : Holds g K pages H s) (hn : H ref = some n) :
    Post (Store.exec g) (trieRead ref)
      (fun r t => Holds g K pages H t ∧ r.1.Ok ∧ r.1.NameOk r.2 ∧ r.2 = n.slot ∧ r.1.node r.2 = n ∧
        s.Same t) never s := by
  obtain ⟨-, p, hview, hok, hlive, hslot, hnode, -⟩ := h.page_of_node hn
  refine (post_loadPage h hview).andThen fun q t hpost => ?_
  obtain ⟨hq, ht, hsame⟩ := hpost
  subst hq
  exact ⟨ht, hok, hok.name _ hlive, hslot, by rw [hslot, hnode], hsame⟩

/-- `putNode`, which leaves the name of the node where it is. -/
theorem post_putNode (h : Holds g K pages H s) (hn : H ref = some n) {slot : TrieSlot}
    (hoff : slot.nameOffset = n.slot.nameOffset) (hlen : slot.nameLen = n.slot.nameLen) :
    Post (Store.exec g) (putNode ref slot)
      (fun _ t => Holds g K pages (Function.update H ref (some ⟨slot, n.area⟩)) t) never s := by
  obtain ⟨hmem, p, hview, hok, hlive, hslot, hnode, -⟩ := h.page_of_node hn
  refine (post_loadPage h hview).andThen fun q t hpost => ?_
  obtain ⟨hq, ht, hsame⟩ := hpost
  subst hq
  have hsets := hok.putSlot (s := slot) hlive (by rw [hslot, hoff]) (by rw [hslot, hlen])
  have harea : q.node slot = ⟨slot, n.area⟩ := by
    rw [← hnode]
    unfold TriePage.node
    rw [hoff, hlen]
  rw [harea] at hsets
  have hsave := ht.savePage hmem (refSlot_lt ref) (hsame.view ▸ hview) hsets
    (hsets.live (refSlot_lt ref))
  rw [makeRef_eq] at hsave
  exact post_savePage.mpr hsave

end Access

section Blocks

theorem isFree_foldl_freeRun {rel : ℕ} (runs : List Bridge.BlockRun) (a : Allocator)
    (h : (runs.foldl (fun a run => a.freeRun run.first run.n) a).isFree rel = true) :
    a.isFree rel = true ∨ rel ∈ runs.flatMap Bridge.BlockRun.blocks := by
  induction runs generalizing a with
  | nil => exact .inl h
  | cons run runs ih =>
    rcases ih _ h with hfree | hin
    · rcases a.isFree_freeRun hfree with hfree | ⟨hlow, hhigh⟩
      · exact .inl hfree
      · right
        rw [List.flatMap_cons, List.mem_append]
        exact .inl (List.mem_range'_1.mpr ⟨hlow, hhigh⟩)
    · right
      rw [List.flatMap_cons, List.mem_append]
      exact .inr hin

theorem blockCount_foldl_freeRun (runs : List Bridge.BlockRun) (a : Allocator) :
    (runs.foldl (fun a run => a.freeRun run.first run.n) a).bitmap.blockCount =
      a.bitmap.blockCount := by
  induction runs generalizing a with
  | nil => rfl
  | cons run runs ih => exact (ih _).trans (a.blockCount_freeRun _ _)

/-- The runs of a whole pool are free afterwards. -/
theorem whole_foldl_freeRun (runs : List Bridge.BlockRun) {a : Allocator} (h : a.bitmap.Whole) :
    (runs.foldl (fun a run => a.freeRun run.first run.n) a).bitmap.Whole ∧
      ∀ rel, rel < a.bitmap.blockCount →
        a.isFree rel = true ∨ rel ∈ runs.flatMap Bridge.BlockRun.blocks →
        (runs.foldl (fun a run => a.freeRun run.first run.n) a).isFree rel = true := by
  induction runs generalizing a with
  | nil => exact ⟨h, fun rel _ hrel => by simpa using hrel⟩
  | cons run runs ih =>
    obtain ⟨k, hgained⟩ := Allocator.gained_freeRun h run.first run.n
    obtain ⟨hwhole, hfree⟩ := ih (Allocator.whole_freeRun h run.first run.n)
    refine ⟨hwhole, fun rel hlt hrel => hfree rel (by rw [a.blockCount_freeRun]; exact hlt) ?_⟩
    rw [List.flatMap_cons, List.mem_append] at hrel
    rcases hrel with hrel | hrel | hrel
    · exact .inl ((hgained.free rel).mpr (.inl hrel))
    · obtain ⟨hlow, hhigh⟩ := List.mem_range'_1.mp hrel
      exact .inl ((hgained.free rel).mpr (.inr ⟨hlow, hhigh, hlt⟩))
    · exact .inr hrel

theorem Holds.retirePools (h : Holds g K pages H s) (b : Bool) : Holds g K pages H (s.retirePools b) := by
  unfold Store.retirePools
  split_ifs
  · exact h.congr rfl (.inl rfl) h.tidy rfl rfl rfl rfl
  · exact h

/-- A drain frees what is queued. -/
theorem Owns.drain {blocks : Set ℕ} {exact : Prop}
    (h : Owns g exact s.dataAlloc s.pendingFrees blocks) :
    Owns g exact s.syncMeta.dataAlloc s.syncMeta.pendingFrees blocks := by
  have hcount : s.syncMeta.dataAlloc.bitmap.blockCount = s.dataAlloc.bitmap.blockCount :=
    blockCount_foldl_freeRun _ _
  have hnone : s.syncMeta.pendingFrees.blocks = [] := rfl
  have hkeep : ∀ rel, s.dataAlloc.isFree rel = false → rel ∉ s.pendingFrees.blocks →
      s.syncMeta.dataAlloc.isFree rel = false := by
    intro rel hfree hqueued
    rw [Bool.eq_false_iff]
    intro hnow
    rcases isFree_foldl_freeRun _ _ hnow with hfree' | hin
    · rw [hfree] at hfree'
      cases hfree'
    · exact hqueued hin
  refine ⟨by rw [hcount]; exact h.fits, by rw [hnone]; exact List.nodup_nil, ?_, ?_, ?_, ?_⟩
  · simp [hnone]
  · intro block hblock
    obtain ⟨rel, heq, hpos, hlt, hfree, hqueued⟩ := h.taken block hblock
    exact ⟨rel, heq, hpos, by rw [hcount]; exact hlt, hkeep rel hfree hqueued, by simp [hnone]⟩
  · intro hexact
    obtain ⟨hwhole, hzero⟩ := h.whole hexact
    refine ⟨(whole_foldl_freeRun _ hwhole).1, hkeep 0 hzero fun hin => ?_⟩
    exact absurd (h.queued 0 hin).1 (lt_irrefl 0)
  · intro hexact rel hpos hlt hnow _
    rw [hcount] at hlt
    have hback := (whole_foldl_freeRun s.pendingFrees.runs (h.whole hexact).1).2 rel hlt
    refine h.all hexact rel hpos hlt ?_ fun hin => ?_
    · rw [Bool.eq_false_iff]
      exact fun hfree => Bool.eq_false_iff.mp hnow (hback (.inl hfree))
    · exact Bool.eq_false_iff.mp hnow (hback (.inr hin))

theorem Holds.syncMeta (h : Holds g K pages H s) : Holds g K pages H s.syncMeta := by
  have hview : s.syncMeta.blocks.view = s.blocks.view := Layered.Tidy.view_drain
  have hread : s.syncMeta.blocks.read = s.blocks.read := by
    funext k
    simp [Store.syncMeta, Layered.drain, Layered.read]
  refine ⟨?_, h.outside, ?_, h.apart, h.floor, h.owns.drain, ?_, h.tidy.drain, h.running⟩
  · rw [hview]
    exact h.page
  · exact fun b hb => (h.pool b hb).congr hview (.inl hread)
  · exact fun hsound block p hp => h.sound hsound block p (hp.congr hview (.inl hread))

theorem Holds.sync (h : Holds g K pages H s) (ckpt : Bool) : Holds g K pages H (s.sync ckpt) := by
  unfold Store.sync
  split_ifs
  · have hpools := h.retirePools (decide s.tape.ring.full)
    have hbegin := (hpools.congr (t := { s.retirePools (decide s.tape.ring.full) with
      tape := (s.retirePools (decide s.tape.ring.full)).tape.syncBegin })
      rfl (.inl rfl) hpools.tidy rfl rfl rfl rfl).syncMeta
    exact hbegin.congr rfl (.inl rfl) hbegin.tidy rfl rfl rfl rfl
  · exact h

theorem Owns.tryAllocBlock {blocks : Set ℕ} {exact : Prop}
    (h : Owns g exact s.dataAlloc s.pendingFrees blocks) :
    (s.tryAllocBlock.1 = 0 → Owns g exact s.tryAllocBlock.2.dataAlloc s.pendingFrees blocks) ∧
      (s.tryAllocBlock.1 ≠ 0 → g.dataRegionStart + s.tryAllocBlock.1 ∉ blocks ∧
        Owns g exact s.tryAllocBlock.2.dataAlloc s.pendingFrees
          (insert (g.dataRegionStart + s.tryAllocBlock.1) blocks)) := by
  obtain ⟨hcount, hsub, hnew⟩ := s.dataAlloc.tryAllocBlock_spec false
  have hexact : exact → (s.dataAlloc.tryAllocBlock false).2.bitmap.Whole ∧
      ∀ rel, (s.dataAlloc.tryAllocBlock false).2.isFree rel =
        (s.dataAlloc.isFree rel && decide (rel ≠ (s.dataAlloc.tryAllocBlock false).1)) := by
    intro hexact
    obtain ⟨hwhole, hzero⟩ := h.whole hexact
    exact ⟨Allocator.whole_tryAllocBlock hwhole false,
      ((Allocator.tryAllocBlock_iff hwhole hzero).1 false).2.2.1⟩
  unfold Store.tryAllocBlock
  dsimp only
  generalize (s.dataAlloc.tryAllocBlock false).1 = rel at hnew hexact ⊢
  generalize (s.dataAlloc.tryAllocBlock false).2 = a at hcount hsub hnew hexact ⊢
  have hkeep : ∀ rel, s.dataAlloc.isFree rel = false → a.isFree rel = false := by
    intro rel hfree
    rw [Bool.eq_false_iff] at hfree ⊢
    exact fun hnow => hfree (hsub rel hnow)
  have htaken : ∀ block ∈ blocks, ∃ rel, block = g.dataRegionStart + rel ∧ 0 < rel ∧
      rel < a.bitmap.blockCount ∧ a.isFree rel = false ∧ rel ∉ s.pendingFrees.blocks := by
    intro block hblock
    obtain ⟨rel, heq, hpos, hlt, hfree, hqueued⟩ := h.taken block hblock
    exact ⟨rel, heq, hpos, hcount.symm ▸ hlt, hkeep rel hfree, hqueued⟩
  have hqueued : ∀ rel ∈ s.pendingFrees.blocks, 0 < rel ∧ a.isFree rel = false := fun rel hin =>
    ⟨(h.queued rel hin).1, hkeep rel (h.queued rel hin).2⟩
  have hall : exact → ∀ r, 0 < r → r < a.bitmap.blockCount → a.isFree r = false →
      r ∉ s.pendingFrees.blocks → r = rel ∨ g.dataRegionStart + r ∈ blocks := by
    intro he r hpos hlt hfree hnot
    by_cases hr : r = rel
    · exact .inl hr
    · refine .inr (h.all he r hpos (hcount ▸ hlt) ?_ hnot)
      simpa [(hexact he).2 r, hr] using hfree
  have hwhole : exact → a.bitmap.Whole ∧ a.isFree 0 = false := fun he =>
    ⟨(hexact he).1, hkeep 0 (h.whole he).2⟩
  refine ⟨fun hzero => ?_, fun hne => ?_⟩
  · refine ⟨hcount.symm ▸ h.fits, h.once, hqueued, htaken, hwhole, fun he r hpos hlt hfree hnot => ?_⟩
    exact (hall he r hpos hlt hfree hnot).resolve_left (by omega)
  · obtain ⟨hlt, hfree, hnow⟩ := hnew hne
    have hnotQueued : rel ∉ s.pendingFrees.blocks := by
      intro hin
      rw [(h.queued rel hin).2] at hfree
      cases hfree
    have hnotOwned : g.dataRegionStart + rel ∉ blocks := by
      intro hin
      obtain ⟨r, heq, -, -, hused, -⟩ := h.taken _ hin
      rw [← Nat.add_left_cancel heq, hfree] at hused
      cases hused
    refine ⟨hnotOwned, hcount.symm ▸ h.fits, h.once, hqueued, ?_, hwhole, ?_⟩
    · rintro block (rfl | hblock)
      · exact ⟨rel, rfl, Nat.pos_of_ne_zero hne, hcount.symm ▸ hlt, hnow, hnotQueued⟩
      · exact htaken block hblock
    · intro he r hpos hlt' hfree' hnot
      rcases hall he r hpos hlt' hfree' hnot with rfl | hin
      · exact .inl rfl
      · exact .inr hin

/-- The store after the block `rel` was taken from the allocator. -/
structure Took (g : Geometry) (K : Rest) (pages : Set ℕ) (H : Heap) (rel : ℕ) (t : Store) :
    Prop where
  notPage : g.dataRegionStart + rel ∉ pages
  notUsed : g.dataRegionStart + rel ∉ K.used
  holds : Holds g (K.use (g.dataRegionStart + rel)) pages H t

theorem Holds.tryAllocBlock (h : Holds g K pages H s) :
    (s.tryAllocBlock.1 = 0 → Holds g K pages H s.tryAllocBlock.2) ∧
      (s.tryAllocBlock.1 ≠ 0 → Took g K pages H s.tryAllocBlock.1 s.tryAllocBlock.2) := by
  obtain ⟨hnone, hsome⟩ := h.owns.tryAllocBlock
  refine ⟨fun hzero => ⟨h.page, h.outside, h.pool, h.apart, h.floor, hnone hzero, h.sound, h.tidy,
    h.running⟩, fun hne => ?_⟩
  obtain ⟨hout, howns⟩ := hsome hne
  rw [Set.insert_eq, ← Set.union_assoc, Set.union_comm {_} pages, Set.union_assoc,
    ← Set.insert_eq] at howns
  refine ⟨fun hin => hout (.inl hin), fun hin => hout (.inr hin), h.page, h.outside, ?_, ?_, h.floor,
    howns, h.sound, h.tidy, h.running⟩
  · intro block hblock
    exact (h.pool block hblock).imp_right fun hused => ⟨.inr hused.1, hused.2⟩
  · rintro block hblock (rfl | hused)
    · exact hout (.inl hblock)
    · exact h.apart block hblock hused

theorem Holds.reclaimPendingFrees (h : Holds g K pages H s) :
    Holds g K pages H s.reclaimPendingFrees.2 := by
  unfold Store.reclaimPendingFrees
  split_ifs
  · exact h
  · exact h.sync false

theorem Holds.allocBlock (h : Holds g K pages H s) :
    (s.allocBlock.1 = 0 → Holds g K pages H s.allocBlock.2) ∧
      (s.allocBlock.1 ≠ 0 → Took g K pages H s.allocBlock.1 s.allocBlock.2) := by
  obtain ⟨hnone, hsome⟩ := h.tryAllocBlock
  unfold Store.allocBlock
  split
  · rename_i s' heq
    rw [heq] at hnone
    have hreclaim := (hnone rfl).reclaimPendingFrees
    split
    · rename_i s'' hreclaimed
      rw [hreclaimed] at hreclaim
      exact hreclaim.tryAllocBlock
    · rename_i s'' hreclaimed
      rw [hreclaimed] at hreclaim
      exact ⟨fun _ => hreclaim, fun hne => absurd rfl hne⟩
  · rename_i rel s' hne heq
    rw [heq] at hsome
    exact ⟨fun hzero => absurd hzero (by simpa using hne), hsome⟩

/-- A store that has no block to give has none on a second try either. -/
theorem Holds.allocBlock_again (h : Holds g K pages H s) (hexact : K.exact)
    (hzero : s.allocBlock.1 = 0) : s.allocBlock.2.allocBlock.1 = 0 := by
  have hidle : ∀ {u : Store}, Holds g K pages H u → u.tryAllocBlock.1 = 0 →
      u.tryAllocBlock = (0, u) := by
    intro u hu htry
    obtain ⟨hwhole, hfirst⟩ := hu.owns.whole hexact
    unfold Store.tryAllocBlock at htry ⊢
    rcases Allocator.tryAllocBlock_whole hwhole hfirst false with
      ⟨-, heq⟩ | ⟨-, block, b, heq, hne, -⟩
    · rw [heq]
    · rw [heq] at htry
      exact absurd htry hne
  have hfirst : s.tryAllocBlock.1 = 0 := by
    by_contra hne
    rw [Store.allocBlock] at hzero
    split at hzero
    · rename_i heq
      exact hne (by rw [heq])
    · rename_i heq
      exact hne (by rw [heq]; exact hzero)
  have hstay := hidle h hfirst
  by_cases hcount : s.pendingFrees.count = 0
  · have hsame : s.allocBlock = (0, s) := by
      simp [Store.allocBlock, hstay, Store.reclaimPendingFrees, hcount]
    rw [hsame]
    exact congrArg Prod.fst hsame
  · have hsync : s.allocBlock = (s.sync false).tryAllocBlock := by
      simp [Store.allocBlock, hstay, Store.reclaimPendingFrees, hcount]
    rw [hsync] at hzero ⊢
    have hstay' := hidle (h.sync false) hzero
    rw [hstay']
    by_cases hdirty : s.tape.ring.dirty
    · have hnone : (s.sync false).pendingFrees.count = 0 := by
        rw [Store.sync, if_pos hdirty]
        rfl
      simp [Store.allocBlock, hstay', Store.reclaimPendingFrees, hnone]
    · have hsame : s.sync false = s := by rw [Store.sync, if_neg hdirty]
      rw [hsame, hsync]
      exact hzero

end Blocks

section Pages

/-- The only error of an allocation: the allocator has no block. -/
def Stuck (g : Geometry) (K : Rest) (e : Err) (t : Store) : Prop :=
  e = .errno .enospc ∧ (K.exact → t.allocBlock.1 = 0) ∧ ∃ pages H, Holds g K pages H t

theorem Store.writeRecord_frame (s : Store) (r : Journal.Record) :
    (s.writeRecord r).blocks = s.blocks ∧ (s.writeRecord r).triePartials = s.triePartials ∧
      (s.writeRecord r).dataAlloc.bitmap = s.dataAlloc.bitmap ∧
      (s.writeRecord r).pendingFrees = s.pendingFrees ∧
      (s.writeRecord r).inReplay = s.inReplay := by
  unfold Store.writeRecord
  split_ifs
  · exact ⟨rfl, rfl, rfl, rfl, rfl⟩
  · dsimp only [Store.retirePools]
    split_ifs <;> exact ⟨rfl, rfl, rfl, rfl, rfl⟩

theorem post_writeRecord (h : Holds g K pages H s) (r : Journal.Record) :
    Post (Store.exec g) (writeRecord r)
      (fun _ t => Holds g K pages H t ∧ t.blocks = s.blocks) never s := by
  obtain ⟨hblocks, hpool, hbitmap, hpending, hrun⟩ := s.writeRecord_frame r
  exact ⟨h.congr (by rw [hblocks]) (.inl (by rw [hblocks])) (by rw [hblocks]; exact h.tidy) hpool hbitmap
    hpending hrun, hblocks⟩

theorem post_addPartial (h : Holds g K pages H s) {block : ℕ} (hblock : block ∈ pages) :
    Post (Store.exec g) (addPartial block)
      (fun _ t => Holds g K pages H t ∧ t.blocks = s.blocks) never s := by
  unfold addPartial perform
  rw [post_bind, post_cmd, post_when]
  refine ⟨fun _ => ⟨⟨h.page, h.outside, fun b hb => ?_, h.apart, h.floor, h.owns, h.sound, h.tidy,
    h.running⟩, rfl⟩, fun _ => ⟨h, rfl⟩⟩
  rcases List.mem_append.mp hb with hb | hb
  · exact h.pool b hb
  · rw [List.mem_singleton.mp hb]
    exact .inl hblock

/-- A new block becomes a page with one node. -/
theorem Holds.addPage {block : ℕ} (h : Holds g (K.use block) pages H s) (hout : block ∉ pages)
    (hnew : block ∉ K.used) {p : TriePage} (hok : p.Ok) (hself : p.nodeAt 0 = some n)
    (hothers : ∀ j, j < 64 → j ≠ 0 → p.nodeAt j = none) :
    Holds g K (insert block pages) (Function.update H (makeRef block 0) (some n))
      { s with blocks := s.blocks.save block (.page p) } := by
  have hkept : p.Kept := ⟨hok, 0, (TriePage.live_of_nodeAt (by norm_num) hself).1⟩
  have hheap : H.withPage block p = Function.update H (makeRef block 0) (some n) := by
    refine Heap.withPage_eq (by norm_num) fun j hj => ?_
    split_ifs with hj0
    · rw [hj0, hself]
    · rw [hothers j hj hj0, h.outside _ (by rwa [refBlock_makeRef])]
  rw [← hheap]
  refine ⟨h.page_save hkept, h.outside_save, fun b hb => ?_, ?_,
    h.floor.trans (Set.subset_insert _ _), ?_, h.sound_save hkept, h.tidy.save _ _, h.running⟩
  · by_cases hbb : b = block
    · exact .inl (.inl hbb)
    · exact (h.pool b hb).imp .inr fun hused =>
        ⟨hused.1.resolve_left hbb, fun q hq => hused.2 q (hq.of_save hbb)⟩
  · rintro b (rfl | hb)
    · exact hnew
    · exact fun hused => h.apart b hb (.inr hused)
  · have howns := h.owns
    rw [Rest.use, Set.union_insert] at howns
    rw [Set.insert_union]
    exact howns

theorem post_triePageInit (h : Holds g K pages H s) (depth : ℕ) (byteVal : UInt8) (nodeType : ℕ) :
    Post (Store.exec g) (triePageInit g depth byteVal nodeType)
      (fun ref t => ref ≠ 0 ∧ refSlot ref = 0 ∧ H ref = none ∧
        Holds g K (insert (refBlock ref) pages) (Function.update H ref
          (some ⟨{ depth := depth, byteVal := byteVal, nodeType := nodeType }, none⟩)) t ∧
        t.blocks.view (refBlock ref) = .page (.init depth byteVal nodeType)) (Stuck g K) s := by
  have hpop : Store.exec g .popReplayBlock s = (none, s) := by
    simp [Store.exec, Store.popReplayBlock, h.running]
  obtain ⟨hnone, hsome⟩ := h.allocBlock
  have hagain := h.allocBlock_again
  unfold triePageInit perform
  rw [post_bind, post_cmd, hpop]
  rw [post_bind, post_cmd, show Store.exec g .allocBlock s = s.allocBlock from rfl]
  generalize s.allocBlock.1 = rel at hnone hsome hagain ⊢
  generalize s.allocBlock.2 = t at hnone hsome hagain ⊢
  rw [post_bind, post_require]
  refine ⟨fun hrel => ?_, fun hrel => ?_⟩
  swap
  · have hzero : rel = 0 := not_not.mp hrel
    exact ⟨rfl, fun hexact => hagain hexact hzero, pages, H, hnone hzero⟩
  obtain ⟨hnotPage, hnotUsed, ht⟩ := hsome hrel
  obtain ⟨r, heq, -, hlt, -⟩ := ht.owns.taken (g.dataRegionStart + rel) (.inr (.inl rfl))
  have hfits := ht.owns.fits
  have hblock : (g.dataRegionStart + rel) % 2 ^ 64 = g.dataRegionStart + rel :=
    Nat.mod_eq_of_lt (by omega)
  obtain ⟨hok, hself, hothers⟩ := TriePage.ok_init depth byteVal nodeType
  have hadd := ht.addPage hnotPage hnotUsed hok hself hothers
  rw [hblock, post_bind, post_savePage, post_bind, post_attempt]
  refine (post_writeRecord hadd _).returns fun _ u hpost => ?_
  obtain ⟨hu, hblocks⟩ := hpost
  refine (post_addPartial hu (.inl rfl)).andThen fun _ v hpost => ?_
  obtain ⟨hv, hblocks'⟩ := hpost
  have href : refBlock (makeRef (g.dataRegionStart + rel) 0) = g.dataRegionStart + rel :=
    refBlock_makeRef _ _
  refine ⟨?_, refSlot_makeRef (by norm_num), ?_, ?_, ?_⟩
  · change @Ne ℕ ((g.dataRegionStart + rel) * 64 + 0) 0
    omega
  · apply h.outside
    rw [href]
    exact hnotPage
  · rw [href]
    exact hv
  · rw [href, hblocks', hblocks]
    rw [Layered.Calm.view_save, Function.update_self]

end Pages

section Alloc

/-- A node just allocated, with room for a name of `nameSize` bytes. -/
def IsBlank (nameSize : ℕ) (n : Node) : Prop :=
  (∃ off, n.slot = { nameOffset := off, nameLen := nameSize }) ∧
    (nameSize = 0 → n.area = none) ∧
    (nameSize ≠ 0 → ∃ bytes : Bytes, n.area = some bytes ∧ bytes.length = nameSize)

theorem makeRef_ne_zero (h : Holds g K pages H s) {block i : ℕ} (hblock : block ∈ pages) :
    makeRef block i ≠ 0 := by
  obtain ⟨rel, heq, hpos, -⟩ := h.owns.taken block (.inl hblock)
  change @Ne ℕ (block * 64 + i % 64) 0
  omega

/-- What the search of the pool leaves of it. -/
theorem post_allocFromPartials (nameSize : ℕ) (blocks out : List ℕ) (h : Holds g K pages H s)
    (hblocks : ∀ b ∈ blocks, Pooled K pages s.blocks b)
    (hout : ∀ b ∈ out, Pooled K pages s.blocks b) :
    Post (Store.exec g) (allocFromPartials nameSize blocks out)
      (fun r t => (∀ b ∈ r.2, Pooled K pages t.blocks b) ∧
        match r.1 with
        | none => Holds g K pages H t
        | some ref => ref ≠ 0 ∧ H ref = none ∧ ∃ n, IsBlank nameSize n ∧
            Holds g K pages (Function.update H ref (some n)) t) never s := by
  induction blocks generalizing out s with
  | nil => exact ⟨hout, h⟩
  | cons block rest ih =>
    have hmove : ∀ {t : Store}, s.Same t → ∀ {l : List ℕ},
        (∀ b ∈ l, Pooled K pages s.blocks b) → ∀ b ∈ l, Pooled K pages t.blocks b :=
      fun hsame _ hl b hb => (hl b hb).congr hsame.view (.inl hsame.read)
    have hrest : ∀ b ∈ rest, Pooled K pages s.blocks b :=
      fun b hb => hblocks b (List.mem_cons_of_mem _ hb)
    unfold allocFromPartials
    rw [post_bind, post_attempt]
    rcases hblocks block List.mem_cons_self with hblock | ⟨-, hraw⟩
    swap
    · refine (post_loadPage_raw h fun p hp => hraw p (.inr hp)).mono
        (fun _ _ hfalse => hfalse.elim) fun e t hpost => ?_
      obtain ⟨ht, hsame⟩ := hpost
      exact ih out ht (hmove hsame hrest) (hmove hsame hout)
    obtain ⟨p, hview, hkept, hnodes⟩ := h.page block hblock
    refine (post_loadPage h hview).returns fun q t hpost => ?_
    obtain ⟨rfl, ht, hsame⟩ := hpost
    rw [← hsame.view] at hview
    refine post_ite.mpr ⟨fun hroom => ?_, fun _ => ?_⟩
    · split
      · exact ih out ht (hmove hsame hrest) (hmove hsame hout)
      · rename_i i q' halloc
        generalize hres : (if nameSize = 0 then (q', ({} : TrieSlot))
          else q'.reserveNameHeap {} nameSize) = r
        obtain ⟨hi, hnone, off, area, hsets, hzero, hsize⟩ := hkept.ok.allocSlot halloc hroom hres
        rw [post_bind, post_savePage]
        refine ⟨fun b hb => ht.pooled_save hblock ?_, makeRef_ne_zero ht hblock,
          by rw [hnodes i hi, hnone], _, ⟨⟨off, rfl⟩, hzero, hsize⟩,
          ht.savePage hblock hi hview hsets (hsets.live hi)⟩
        rcases List.mem_append.mp hb with hb | hb
        · rcases List.mem_append.mp hb with hb | hb
          · exact hmove hsame hout b hb
          · split_ifs at hb
            · cases hb
            · rw [List.mem_singleton.mp hb]
              exact .inl hblock
        · exact hmove hsame hrest b hb
    · apply ih (out ++ [block]) ht (hmove hsame hrest)
      intro b hb
      rcases List.mem_append.mp hb with hb | hb
      · exact hmove hsame hout b hb
      · rw [List.mem_singleton.mp hb]
        exact .inl hblock

theorem Holds.withPool (h : Holds g K pages H s) {pool : List ℕ}
    (hpool : ∀ b ∈ pool, Pooled K pages s.blocks b) :
    Holds g K pages H { s with triePartials := pool } :=
  ⟨h.page, h.outside, hpool, h.apart, h.floor, h.owns, h.sound, h.tidy, h.running⟩

theorem post_trieAllocNode (h : Holds g K pages H s) {nameLen : ℕ} (hmax : nameLen ≤ maxNameLen) :
    Post (Store.exec g) (trieAllocNode g nameLen)
      (fun ref t => ref ≠ 0 ∧ H ref = none ∧ ∃ pages' n,
        IsBlank (if nameLen = 0 then 0 else nameLen + 2) n ∧
        Holds g K pages' (Function.update H ref (some n)) t) (Stuck g K) s := by
  unfold trieAllocNode perform
  generalize hsize : (if nameLen = 0 then 0 else nameLen + 2) = nameSize
  rw [post_bind, post_cmd]
  refine (post_allocFromPartials nameSize s.triePartials [] h h.pool (by simp)).andThen
    fun r t hpost => ?_
  obtain ⟨hpool, hfound⟩ := hpost
  obtain ⟨found, out⟩ := r
  rw [post_bind, post_cmd]
  cases found with
  | some ref =>
    obtain ⟨hne, hnone, n, hblank, ht⟩ := hfound
    exact ⟨hne, hnone, pages, n, hblank, ht.withPool hpool⟩
  | none =>
    refine (post_triePageInit (Holds.withPool hfound hpool) 0 0 0).bind (fun _ _ he => he)
      fun ref u hpost => ?_
    obtain ⟨hne, hslot, hnone, hu, hview⟩ := hpost
    rw [post_bind, post_when]
    refine ⟨fun hpos => ?_, fun hzero => ?_⟩
    · obtain ⟨hok, hnode, -⟩ := TriePage.ok_init 0 0 0
      obtain ⟨hlive, -⟩ := TriePage.live_of_nodeAt (by norm_num) hnode
      refine (post_loadPage hu hview).andThen fun q v hpost => ?_
      obtain ⟨hq, hv, hsame⟩ := hpost
      subst hq
      generalize hres : (TriePage.init 0 0 0).reserveNameHeap ((TriePage.init 0 0 0).slot 0)
        nameSize = r
      obtain ⟨hslot', bytes, hlen, hsets⟩ := hok.reserveNameHeap hlive (Nat.pos_of_ne_zero hpos)
        (by
          change 0 + nameSize ≤ nameHeapSize
          unfold maxNameLen at hmax
          unfold nameHeapSize
          split_ifs at hsize <;> omega) hres
      have hsave := hv.savePage (i := 0) (.inl rfl) (by norm_num) (hsame.view ▸ hview) hsets
        (hsets.live (by norm_num))
      rw [show makeRef (refBlock ref) 0 = ref by rw [← hslot, makeRef_eq],
        Function.update_idem] at hsave
      refine ⟨hne, hnone, _, _, ⟨⟨0 + nameSize, ?_⟩, fun h0 => absurd h0 hpos, fun _ => ⟨bytes, rfl, hlen⟩⟩,
        hsave⟩
      rw [hslot']
      rfl
    · have hz : nameSize = 0 := not_not.mp hzero
      exact ⟨hne, hnone, _, _, ⟨⟨0, by rw [hz]⟩, fun _ => rfl, fun h0 => absurd hz h0⟩, hu⟩

end Alloc

section Free

theorem TriePage.Ok.nodeAt_of_empty {p : TriePage} (h : p.Ok) (hzero : p.liveCount = 0) {i : ℕ}
    (hi : i < 64) : p.nodeAt i = none := by
  have hcount := h.liveCount
  rw [hzero, eq_comm, List.countP_eq_zero] at hcount
  have hfree : p.isFree i = true := by simpa using hcount i (List.mem_range.mpr hi)
  simp [TriePage.nodeAt, hfree]

theorem TriePage.Ok.live_of_count {p : TriePage} (h : p.Ok) (hne : p.liveCount ≠ 0) :
    ∃ i, p.Live i := by
  rw [h.liveCount] at hne
  obtain ⟨i, hi, hlive⟩ := List.countP_pos_iff.mp (Nat.pos_of_ne_zero hne)
  exact ⟨i, List.mem_range.mp hi, by simpa using hlive⟩

/-- An owned block is given up and queued. -/
theorem Owns.giveUp {blocks : Set ℕ} {a : Allocator} {pending : RunAccum} {exact : Prop} {block : ℕ}
    (h : Owns g exact a pending blocks) (hblock : block ∈ blocks) :
    Owns g exact a (pending.addRun (g.rel block) 1) (blocks \ {block}) := by
  obtain ⟨rel, rfl, hpos, hlt, hfree, hnot⟩ := h.taken block hblock
  have hqueue : (pending.addRun (g.rel (g.dataRegionStart + rel)) 1).blocks =
      pending.blocks ++ [rel] := by
    rw [RunAccum.blocks_addRun, Geometry.rel_add h.fits hlt]
    rfl
  refine ⟨h.fits, ?_, fun r hr => ?_, fun b hb => ?_, h.whole, fun hexact r hr0 hr hrfree hrnot => ?_⟩
  · rw [hqueue]
    exact h.once.append (List.nodup_singleton rel) (by simpa using hnot)
  · rw [hqueue, List.mem_append, List.mem_singleton] at hr
    rcases hr with hr | rfl
    · exact h.queued r hr
    · exact ⟨hpos, hfree⟩
  · obtain ⟨r, rfl, hr0, hr, hrfree, hrnot⟩ := h.taken b hb.1
    refine ⟨r, rfl, hr0, hr, hrfree, ?_⟩
    rw [hqueue, List.mem_append, List.mem_singleton, not_or]
    exact ⟨hrnot, fun heq => hb.2 (by rw [heq]; rfl)⟩
  · rw [hqueue, List.mem_append, List.mem_singleton, not_or] at hrnot
    refine ⟨h.all hexact r hr0 hr hrfree hrnot.1, fun heq => hrnot.2 ?_⟩
    exact Nat.add_left_cancel heq

/-- A page whose nodes are gone is dropped and queued. -/
theorem Holds.dropPage {block : ℕ} {t : Store} (h : Holds g K pages H s) (hblock : block ∈ pages)
    (hfloor : block ∉ K.floor) (H' : Heap) (hother : ∀ ref, refBlock ref ≠ block → H' ref = H ref)
    (hempty : ∀ i, i < 64 → H' (makeRef block i) = none)
    (hblocks : t.blocks = s.blocks.drop block)
    (hpool : t.triePartials = s.triePartials.filter (· ≠ block))
    (hbitmap : t.dataAlloc.bitmap = s.dataAlloc.bitmap)
    (hpending : t.pendingFrees = s.pendingFrees.addRun (g.rel block) 1)
    (hrun : t.inReplay = s.inReplay) : Holds g K (pages \ {block}) H' t := by
  have hview : t.blocks.view = Function.update s.blocks.view block (s.blocks.read block) := by
    rw [hblocks, Layered.Tidy.view_drop]
  have hread : t.blocks.read = s.blocks.read := by
    rw [hblocks]
    rfl
  have hshown : ∀ b p, Shown t.blocks b p → Shown s.blocks b p := by
    intro b p hp
    unfold Shown at hp
    rw [hread, hview] at hp
    by_cases hb : b = block
    · rw [hb, Function.update_self, or_self] at hp
      exact .inl (hb ▸ hp)
    · rwa [Function.update_of_ne hb] at hp
  refine ⟨fun b hb => ?_, fun ref hout => ?_, fun b hb => ?_, fun b hb => h.apart b hb.1,
    fun b hb => ⟨h.floor hb, ?_⟩, ?_, ?_, ?_, hrun ▸ h.running⟩
  · rw [hview, Function.update_of_ne hb.2]
    obtain ⟨q, hq, hkept, hnodes⟩ := h.page b hb.1
    refine ⟨q, hq, hkept, fun i hi => ?_⟩
    rw [hother _ (by rw [refBlock_makeRef]; exact hb.2), hnodes i hi]
  · by_cases hb : refBlock ref = block
    · have := hempty (refSlot ref) (refSlot_lt ref)
      rwa [← hb, makeRef_eq] at this
    · rw [hother ref hb]
      exact h.outside ref fun hin => hout ⟨hin, hb⟩
  · rw [hpool, List.mem_filter] at hb
    have hne : b ≠ block := by simpa using hb.2
    exact (h.pool b hb.1).imp (fun hin => ⟨hin, hne⟩) fun hused =>
      ⟨hused.1, fun p hp => hused.2 p (hshown b p hp)⟩
  · rintro rfl
    exact hfloor hb
  · have howns := h.owns.giveUp (.inl hblock)
    rw [← hpending] at howns
    have hset : (pages ∪ K.used) \ {block} = pages \ {block} ∪ K.used := by
      rw [Set.union_sdiff_distrib, Set.sdiff_singleton_eq_self (h.apart block hblock)]
    rw [hset] at howns
    exact howns.congr hbitmap rfl
  · exact fun hsound b p hp => h.sound hsound b p (hshown b p hp)
  · rw [hblocks]
    exact h.tidy.drop _

theorem post_trieFreeNode (h : Holds g K pages H s) (hfloor : K.floor = ∅) (hn : H ref = some n) :
    Post (Store.exec g) (trieFreeNode ref)
      (fun _ t => ∃ pages', Holds g K pages' (Function.update H ref none) t) never s := by
  obtain ⟨hmem, p, hview, hok, hlive, hslot, hnode, hnodes⟩ := h.page_of_node hn
  have hne : ref ≠ 0 := by
    have := makeRef_ne_zero (i := refSlot ref) h hmem
    rwa [makeRef_eq] at this
  unfold trieFreeNode
  refine post_when.mpr ⟨fun _ => ?_, fun hz => absurd hne hz⟩
  refine (post_loadPage h hview).andThen fun q t hpost => ?_
  obtain ⟨rfl, ht, hsame⟩ := hpost
  refine post_when.mpr ⟨fun _ => ?_, fun hbusy => absurd hlive.2 (by simpa using hbusy)⟩
  generalize hlc : (q.liveCount + 2 ^ 16 - 1) % 2 ^ 16 = live
  generalize hq' : (({ q with freeSlots := q.freeSlots.setBit (refSlot ref), liveCount := live } :
    TriePage).putSlot (refSlot ref) {}) = q'
  have hsets := hok.freeSlot hlive hlc.symm hq'.symm
  rw [← hsame.view] at hview
  refine post_ite.mpr ⟨fun hzero => ?_, fun hsome => ?_⟩
  · -- the page goes: it is dropped, its free is journaled and queued
    unfold removePartial perform
    rw [post_bind, post_cmd, post_bind, post_bind, post_cmd, post_cmd]
    obtain ⟨hblocks, hpool, hbitmap, hpending, hrun⟩ := Store.writeRecord_frame
      { t with
        blocks := t.blocks.drop (refBlock ref)
        triePartials := t.triePartials.filter (· ≠ refBlock ref) } (.trieAlloc (refBlock ref) 1)
    refine ⟨pages \ {refBlock ref}, ht.dropPage hmem (by rw [hfloor]; exact Set.notMem_empty _)
      (Function.update H ref none) (fun r hr => ?_) (fun i hi => ?_) hblocks hpool hbitmap ?_ hrun⟩
    · exact Function.update_of_ne (by rintro rfl; exact hr rfl) _ _
    · by_cases hir : makeRef (refBlock ref) i = ref
      · rw [hir, Function.update_self]
      · have hne : i ≠ refSlot ref := by
          rintro rfl
          exact hir (makeRef_eq ref)
        rw [Function.update_of_ne hir, hnodes i hi, ← hsets.ok.nodeAt_of_empty hzero hi,
          hsets.nodeAt i hi, if_neg hne]
    · exact congrArg (fun q : RunAccum => q.addRun (g.rel (refBlock ref)) 1) hpending
  · have hsave : ∀ u, Holds g K pages H u → u.blocks = t.blocks →
        ∃ pages', Holds g K pages' (Function.update H ref none)
          { u with blocks := u.blocks.save (refBlock ref) (.page q') } := by
      intro u hu hblocks
      have hsave := hu.savePage hmem (refSlot_lt ref) (hblocks ▸ hview) hsets
        (hsets.ok.live_of_count hsome)
      rw [makeRef_eq] at hsave
      exact ⟨pages, hsave⟩
    rw [post_bind]
    refine post_when.mpr ⟨fun _ => ?_, fun _ => hsave t ht rfl⟩
    exact (post_addPartial ht hmem).returns fun _ u hpost => hsave u hpost.1 hpost.2

end Free

section Names

/-- The heap `H'` is `H` with `name` stored for the node at `ref`; other names may have moved. -/
structure Renames (H : Heap) (ref : Ref) (name : Bytes) (H' : Heap) : Prop where
  others : ∀ r, r ≠ ref → Option.Rel Node.Same (H r) (H' r)
  self : ∀ n, H ref = some n → ∃ off,
    H' ref = some ⟨{ n.slot with nameOffset := off, nameLen := name.length + 2 },
      some (storedName name)⟩

/-- The page of a node cannot make room for a name of the node. -/
def NoRoom (s : Store) (ref : Ref) (name : Bytes) : Prop :=
  ∃ p e, s.blocks.view (refBlock ref) = .page p ∧
    p.allocName (p.slot (refSlot ref)) name.length = .error e

theorem Holds.storePage (h : Holds g K pages H s) {name : Bytes} {p q : TriePage}
    (hblock : refBlock ref ∈ pages) (hview : s.blocks.view (refBlock ref) = .page p)
    (hlive : p.Live (refSlot ref)) (hstores : p.Stores (refSlot ref) name q) :
    ∃ H', Renames H ref name H' ∧
      Holds g K pages H' { s with blocks := s.blocks.save (refBlock ref) (.page q) } := by
  have hnodes := fun r (hr : refBlock r = refBlock ref) => by
    simpa only [← hr, makeRef_eq] using h.nodeAt_eq hblock hview (refSlot_lt r)
  obtain ⟨off, hself⟩ := hstores.self
  refine ⟨_, ⟨fun r hr => ?_, fun n hn => ⟨off, ?_⟩⟩, h.replacePage hblock
    ⟨hstores.ok, _, (TriePage.live_of_nodeAt (refSlot_lt ref) hself).1⟩⟩
  · by_cases hb : refBlock r = refBlock ref
    · have hslot : refSlot r ≠ refSlot ref := by
        intro hs
        apply hr
        rw [← makeRef_eq r, hb, hs, makeRef_eq]
      simp only [Heap.withPage, hb, if_true, hnodes r hb]
      exact hstores.others _ (refSlot_lt r) hslot
    · simp only [Heap.withPage, hb, if_false]
      cases H r with
      | none => exact .none
      | some n => exact .some (.refl n)
  · have hat := hnodes ref rfl
    rw [hn, hlive.nodeAt] at hat
    have hslot : p.slot (refSlot ref) = n.slot := by
      rw [Option.some.inj hat]
      rfl
    simp only [Heap.withPage, if_true, hself, hslot]

/-- `trieStoreName`; it cannot fail for a node that has room for the name. -/
theorem post_trieStoreName (h : Holds g K pages H s) (hn : H ref = some n) {name : Bytes}
    (hname : name ≠ []) (hmax : name.length ≤ maxNameLen) :
    Post (Store.exec g) (trieStoreName ref name)
      (fun _ t => ∃ H', Renames H ref name H' ∧ Holds g K pages H' t)
      (fun e t => e = .errno .enospc ∧ NoRoom s ref name ∧
        (∀ bytes, n.area = some bytes → bytes.length ≠ name.length + 2) ∧
        ∃ H', Holds g K pages H' t)
      s := by
  obtain ⟨hmem, p, hview, hok, hlive, hslot, hnode, -⟩ := h.page_of_node hn
  unfold trieStoreName
  refine Post.andThen (Q := fun r t => r = (p, p.slot (refSlot ref)) ∧ Holds g K pages H t ∧ s.Same t) ?_ ?_
  · refine (post_loadPage h hview).andThen fun q t hpost => ?_
    obtain ⟨rfl, ht, hsame⟩ := hpost
    exact ⟨rfl, ht, hsame⟩
  rintro _ t ⟨rfl, ht, hsame⟩
  dsimp only
  split
  · rename_i e compacted halloc
    have hfail : ∀ bytes, n.area = some bytes → bytes.length ≠ name.length + 2 := by
      intro bytes harea hlen
      have := hok.allocName_reserved hlive hmax (by rw [hslot, hnode]; exact harea) hlen
      rw [halloc] at this
      cases this
    obtain ⟨rfl, hcompact⟩ := TriePage.allocName_error hmax halloc
    cases compacted with
    | none => exact ⟨rfl, ⟨p, _, hview, halloc⟩, hfail, H, ht⟩
    | some q =>
      rw [post_bind, post_savePage]
      obtain ⟨hq, hbits, -⟩ := hok.compactNames (hcompact q rfl)
      refine ⟨rfl, ⟨p, _, hview, halloc⟩, hfail, _, ht.replacePage hmem
        ⟨hq, refSlot ref, hlive.1, ?_⟩⟩
      unfold TriePage.isFree
      rw [hbits]
      exact hlive.2
  · rename_i q slot halloc
    obtain ⟨r, hwrite, hstores⟩ := hok.storeName hlive hname halloc
    rw [if_neg hname, hwrite]
    rw [← hsame.view] at hview
    exact ht.storePage hmem hview hlive hstores

end Names

end Briefs.Trie
