import Briefs.Alloc.Free
import Briefs.Lib.Window
import Briefs.Trie.Page

/-!
# Well-formed trie pages

In a well-formed page the names of the live slots lie apart from each other in the used
part of the heap. `Node` is a slot together with the bytes kept for its name. The
operations on pages keep a page well-formed and the nodes of all slots but their own; a
compaction only moves names.
-/

namespace Briefs.Trie

open Lib Alloc

/-- A slot with the bytes kept for its name. -/
structure Node where
  slot : TrieSlot
  area : Option Bytes
  deriving DecidableEq

/-- The same node, its name perhaps in another place. -/
structure Node.Same (m n : Node) : Prop where
  area : n.area = m.area
  slot : n.slot = { m.slot with nameOffset := n.slot.nameOffset }

theorem Node.Same.refl (n : Node) : n.Same n := ⟨rfl, rfl⟩

theorem Node.Same.rel_refl (o : Option Node) : Option.Rel Node.Same o o := by
  cases o with
  | none => exact .none
  | some n => exact .some (.refl n)

theorem Node.Same.rel_update {α : Type} [DecidableEq α] (f : α → Option Node) (a : α)
    (o : Option Node) (b : α) (hb : b ≠ a) :
    Option.Rel Node.Same (f b) (Function.update f a o b) := by
  rw [Function.update_of_ne hb]
  exact Node.Same.rel_refl _

/-- A name as it is kept in the heap, behind its length. -/
def storedName (name : Bytes) : Bytes := putUint16 (UInt16.ofNat name.length) ++ name

theorem length_storedName (name : Bytes) : (storedName name).length = name.length + 2 := by
  simp only [storedName, putUint16, List.length_append, List.length_cons, List.length_nil]
  omega

theorem getUint16_storedName {name : Bytes} (h : name.length ≤ maxNameLen) :
    (getUint16 (storedName name)).toNat = name.length := by
  have hall : ∀ n ∈ List.range 256,
      (getUint16 (putUint16 (UInt16.ofNat n))).toNat = n := by decide +kernel
  exact hall name.length (List.mem_range.mpr (by unfold maxNameLen at h; omega))

namespace TrieSlot

def Named (s : TrieSlot) : Prop := s.nameOffset ≠ 0

/-- The parts of the heap two slots use for their names do not meet. -/
def Apart (s t : TrieSlot) : Prop :=
  s.nameOffset + t.nameLen ≤ t.nameOffset ∨ t.nameOffset + s.nameLen ≤ s.nameOffset

theorem Apart.symm {s t : TrieSlot} (h : s.Apart t) : t.Apart s := Or.symm h

end TrieSlot

namespace TriePage

variable {p q : TriePage} {i j : ℕ} {s : TrieSlot}

def node (p : TriePage) (s : TrieSlot) : Node where
  slot := s
  area := if s.nameOffset = 0 then none else some (p.heapAt s.nameOffset s.nameLen)

def Live (p : TriePage) (i : ℕ) : Prop := i < 64 ∧ p.isFree i = false

/-- A slot without a name, or with one in the used part of the heap. -/
def NameOk (p : TriePage) (s : TrieSlot) : Prop :=
  s.nameOffset = 0 ∧ s.nameLen = 0 ∨
    0 < s.nameLen ∧ s.nameLen ≤ s.nameOffset ∧ s.nameOffset ≤ p.freeNameOff

structure Ok (p : TriePage) : Prop where
  slots : p.slots.length = 64
  heap : p.heap.length = nameHeapSize
  freeNameOff : p.freeNameOff ≤ nameHeapSize
  liveCount : p.liveCount = (List.range 64).countP fun i => !p.isFree i
  name : ∀ i, p.Live i → p.NameOk (p.slot i)
  apart : ∀ i j, p.Live i → p.Live j → i ≠ j → (p.slot i).Named → (p.slot j).Named →
    (p.slot i).Apart (p.slot j)

def nodeAt (p : TriePage) (i : ℕ) : Option Node :=
  if p.isFree i then none else some (p.node (p.slot i))

/-- The page `q` is well-formed and has the nodes of `p`, but `n` in slot `i`. -/
structure Sets (p : TriePage) (i : ℕ) (n : Option Node) (q : TriePage) : Prop where
  ok : q.Ok
  nodeAt : ∀ j, j < 64 → q.nodeAt j = if j = i then n else p.nodeAt j

theorem Ok.named (h : p.Ok) (hi : p.Live i) (hn : (p.slot i).Named) :
    0 < (p.slot i).nameLen ∧ (p.slot i).nameLen ≤ (p.slot i).nameOffset ∧
      (p.slot i).nameOffset ≤ p.freeNameOff :=
  (h.name i hi).resolve_left fun h0 => hn h0.1

theorem Live.nodeAt (h : p.Live i) : p.nodeAt i = some (p.node (p.slot i)) := by
  simp [TriePage.nodeAt, h.2]

theorem live_of_nodeAt {n : Node} (hi : i < 64) (h : p.nodeAt i = some n) :
    p.Live i ∧ p.node (p.slot i) = n := by
  unfold TriePage.nodeAt at h
  split_ifs at h with hfree
  exact ⟨⟨hi, by simpa using hfree⟩, Option.some.inj h⟩

theorem Sets.live {q : TriePage} {n : Node} (h : Sets p i (some n) q) (hi : i < 64) :
    ∃ j, q.Live j := by
  have hat := h.nodeAt i hi
  rw [if_pos rfl] at hat
  exact ⟨i, (live_of_nodeAt hi hat).1⟩

theorem isFree_congr (h : q.freeSlots = p.freeSlots) (j : ℕ) : q.isFree j = p.isFree j := by
  unfold isFree
  rw [h]

/-- The same slots are live and keep their nodes. -/
theorem Sets.of_live {q : TriePage} {n : Node} (hok : q.Ok) (hbits : q.freeSlots = p.freeSlots)
    (hlive : p.Live i) (hothers : ∀ j, p.Live j → j ≠ i → q.node (q.slot j) = p.node (p.slot j))
    (hself : q.node (q.slot i) = n) : Sets p i (some n) q := by
  refine ⟨hok, fun j hj => ?_⟩
  unfold TriePage.nodeAt
  rw [isFree_congr hbits]
  by_cases hji : j = i
  · subst hji
    simp [hlive.2, hself]
  · cases hfree : p.isFree j
    · simp [hji, hothers j ⟨hj, hfree⟩ hji]
    · simp [hji]

section Slots

theorem slot_putSlot_self (h : i < p.slots.length) : (p.putSlot i s).slot i = s := by
  simp [slot, putSlot, List.getD_eq_getElem?_getD, List.getElem?_set_self h]

theorem slot_putSlot_of_ne (h : j ≠ i) : (p.putSlot i s).slot j = p.slot j := by
  simp [slot, putSlot, List.getD_eq_getElem?_getD, List.getElem?_set_ne (Ne.symm h)]

end Slots

section Heap

variable {noff nlen : ℕ} {bytes : Bytes}

theorem length_heapAt (hheap : p.heap.length = nameHeapSize) (hoff : noff ≤ nameHeapSize)
    (hlen : nlen ≤ noff) : (p.heapAt noff nlen).length = nlen :=
  length_window (by omega)

theorem heapAt_putHeap_self (hheap : p.heap.length = nameHeapSize) (hoff : noff ≤ nameHeapSize)
    (hlen : bytes.length ≤ noff) : (p.putHeap noff bytes).heapAt noff bytes.length = bytes :=
  window_copyAt_self _ _ _ (by omega)

theorem heapAt_putHeap_of_apart {off : ℕ} (hheap : p.heap.length = nameHeapSize)
    (hoff : off ≤ nameHeapSize) (hlen : bytes.length ≤ off) (hnoff : noff ≤ nameHeapSize)
    (hapart : noff + bytes.length ≤ off ∨ off + nlen ≤ noff) :
    (p.putHeap off bytes).heapAt noff nlen = p.heapAt noff nlen :=
  window_copyAt_of_disjoint (by omega) (by omega)

end Heap

section Read

variable {name : Bytes}

theorem Ok.nameOk_node (h : p.Ok) (hs : p.NameOk s) {area : Bytes} (harea : (p.node s).area = some area) :
    s.nameOffset ≠ 0 ∧ s.nameLen = area.length ∧ s.nameLen ≤ s.nameOffset ∧
      s.nameOffset ≤ nameHeapSize ∧ p.heapAt s.nameOffset s.nameLen = area := by
  have hfree := h.freeNameOff
  have hoff : s.nameOffset ≠ 0 := by
    intro h0
    simp [node, h0] at harea
  have hheap : p.heapAt s.nameOffset s.nameLen = area := by simpa [node, hoff] using harea
  rcases hs with ⟨h0, -⟩ | ⟨hpos, hle, hle'⟩
  · exact absurd h0 hoff
  · have hlen := length_heapAt h.heap (le_trans hle' hfree) hle
    exact ⟨hoff, by rw [← hheap, hlen], hle, le_trans hle' hfree, hheap⟩

theorem Ok.readName (h : p.Ok) (hs : p.NameOk s) (hpos : name ≠ []) (hmax : name.length ≤ maxNameLen)
    (harea : (p.node s).area = some (storedName name)) :
    p.readName s.nameLen s.nameOffset = .ok name := by
  obtain ⟨hoff, hlen, hle, hmaxoff, hheap⟩ := h.nameOk_node hs harea
  rw [length_storedName] at hlen
  have hname : 0 < name.length := List.length_pos_iff.mpr hpos
  have hpart : ∀ a b, a + b ≤ s.nameLen →
      p.heapAt (s.nameOffset - a) b = window (storedName name) a b := by
    intro a b hab
    rw [← hheap]
    refine Eq.trans ?_ (window_window hab).symm
    rw [heapAt, ← window, show nameHeapSize - (s.nameOffset - a) = nameHeapSize - s.nameOffset + a by
      omega]
  have hrest : p.heapAt (s.nameOffset - 2) name.length = name :=
    (hpart 2 name.length (by omega)).trans (by simp [window, storedName, putUint16])
  have hstored : (getUint16 (p.heapAt s.nameOffset 2)).toNat = name.length := by
    rw [show p.heapAt s.nameOffset 2 = _ from hpart 0 2 (by omega), ← getUint16_storedName hmax]
    simp [window, storedName, putUint16, getUint16]
  unfold TriePage.readName
  rw [if_neg (by omega), if_neg (by omega)]
  simp only [hstored]
  rw [if_neg (by omega), if_neg (by omega), if_neg (by omega), hrest]

theorem Ok.nameOf (h : p.Ok) (hs : p.NameOk s) (hpos : name ≠ []) (hmax : name.length ≤ maxNameLen)
    (harea : (p.node s).area = some (storedName name)) : p.nameOf s = name := by
  rw [TriePage.nameOf, h.readName hs hpos hmax harea]
  rfl

end Read

section Change

theorem Ok.putSlot (h : p.Ok) (hlive : p.Live i) (hoff : s.nameOffset = (p.slot i).nameOffset)
    (hlen : s.nameLen = (p.slot i).nameLen) : Sets p i (some (p.node s)) (p.putSlot i s) := by
  have hslot : ∀ j, ((p.putSlot i s).slot j).nameOffset = (p.slot j).nameOffset ∧
      ((p.putSlot i s).slot j).nameLen = (p.slot j).nameLen := by
    intro j
    by_cases hj : j = i
    · subst hj
      by_cases hlt : j < p.slots.length
      · rw [slot_putSlot_self hlt]
        exact ⟨hoff, hlen⟩
      · simp [slot, TriePage.putSlot, List.set_eq_of_length_le (Nat.le_of_not_lt hlt)]
    · rw [slot_putSlot_of_ne hj]
      exact ⟨rfl, rfl⟩
  refine Sets.of_live ?_ rfl hlive (fun j _ hj => by rw [slot_putSlot_of_ne hj]; rfl)
    (by rw [slot_putSlot_self (by rw [h.slots]; exact hlive.1)]; rfl)
  refine ⟨by simp [TriePage.putSlot, h.slots], h.heap, h.freeNameOff, h.liveCount, ?_, ?_⟩
  · intro j hj
    unfold NameOk
    rw [(hslot j).1, (hslot j).2]
    exact h.name j hj
  · intro j k hj hk hjk
    unfold TrieSlot.Named TrieSlot.Apart
    rw [(hslot j).1, (hslot j).2, (hslot k).1, (hslot k).2]
    exact h.apart j k hj hk hjk

/-- The slots `i` and those of `p` are what the page `q` consists of. -/
theorem Ok.extend (h : p.Ok) (hi : i < 64) (hslots : q.slots.length = 64)
    (hheap : q.heap.length = nameHeapSize) (hfree : q.freeNameOff ≤ nameHeapSize)
    (hgrow : p.freeNameOff ≤ q.freeNameOff)
    (hcount : q.liveCount = (List.range 64).countP fun i => !q.isFree i)
    (hlive : ∀ j, j ≠ i → q.Live j → p.Live j) (hsame : ∀ j, j ≠ i → q.slot j = p.slot j)
    (hname : q.NameOk (q.slot i))
    (hapart : (q.slot i).Named → ∀ j, j ≠ i → p.Live j → (p.slot j).Named →
      (q.slot i).Apart (p.slot j)) : q.Ok := by
  refine ⟨hslots, hheap, hfree, hcount, ?_, ?_⟩
  · intro j hj
    by_cases hji : j = i
    · subst hji
      exact hname
    · rw [hsame j hji]
      rcases h.name j (hlive j hji hj) with h0 | ⟨h1, h2, h3⟩
      · exact .inl h0
      · exact .inr ⟨h1, h2, le_trans h3 hgrow⟩
  · intro j k hj hk hjk hnj hnk
    by_cases hji : j = i
    · subst hji
      rw [hsame k (Ne.symm hjk)] at hnk ⊢
      exact hapart hnj k (Ne.symm hjk) (hlive k (Ne.symm hjk) hk) hnk
    · rw [hsame j hji] at hnj ⊢
      by_cases hki : k = i
      · subst hki
        exact (hapart hnk j hji (hlive j hji hj) hnj).symm
      · rw [hsame k hki] at hnk ⊢
        exact h.apart j k (hlive j hji hj) (hlive k hki hk) hjk hnj hnk

end Change

section Alloc

variable {q : TriePage}

theorem countP_add_one {α : Type} {l : List α} (hl : l.Nodup) {f g : α → Bool} {a : α}
    (ha : a ∈ l) (hf : f a = false) (hg : g a = true) (hfg : ∀ b, b ≠ a → g b = f b) :
    l.countP g = l.countP f + 1 := by
  induction l with
  | nil => cases ha
  | cons b l ih =>
    obtain ⟨hb, hl⟩ := List.nodup_cons.mp hl
    by_cases hba : b = a
    · subst hba
      have hrest : l.countP g = l.countP f := by
        apply List.countP_congr
        intro c hc
        rw [hfg c (by rintro rfl; exact hb hc)]
      simp [hf, hg, hrest]
    · have hmem : a ∈ l := (List.mem_cons.mp ha).resolve_left (Ne.symm hba)
      rw [List.countP_cons, List.countP_cons, ih hl hmem, hfg b hba]
      omega

theorem allocSlot_spec (h : p.allocSlot = some (i, q)) :
    i < 64 ∧ p.isFree i = true ∧ (∀ j, q.isFree j = (p.isFree j && decide (j ≠ i))) ∧
      q.slots = p.slots ∧ q.heap = p.heap ∧ q.freeNameOff = p.freeNameOff ∧
      q.liveCount = (p.liveCount + 1) % 2 ^ 16 := by
  unfold allocSlot at h
  split at h
  · cases h
  · rename_i k hk
    cases h
    refine ⟨List.mem_range.mp (List.mem_of_find?_eq_some hk), List.find?_some hk, fun j => ?_, rfl,
      rfl, rfl, rfl⟩
    exact Word.getLsbD_clearBit _ _ _

theorem Ok.liveCount_le (h : p.Ok) : p.liveCount ≤ 64 := by
  rw [h.liveCount]
  exact le_trans List.countP_le_length (by simp)

theorem Ok.allocSlot {nameSize : ℕ} (h : p.Ok) (halloc : p.allocSlot = some (i, q))
    (hroom : p.hasNameHeap nameSize = true) {q' : TriePage}
    (hq' : (if nameSize = 0 then (q, {}) else q.reserveNameHeap {} nameSize) = (q', s)) :
    i < 64 ∧ p.nodeAt i = none ∧ ∃ off area,
      Sets p i (some ⟨{ nameOffset := off, nameLen := nameSize }, area⟩) (q'.putSlot i s) ∧
      (nameSize = 0 → area = none) ∧
      (nameSize ≠ 0 → ∃ bytes, area = some bytes ∧ bytes.length = nameSize) := by
  obtain ⟨hi, hfree, hbits, hslots, hheap, hoff, hcount⟩ := allocSlot_spec halloc
  have hlen : q.slots.length = 64 := hslots ▸ h.slots
  have hroom' : nameSize ≠ 0 → p.freeNameOff + nameSize ≤ nameHeapSize := by
    intro hne
    simpa [hasNameHeap, hne] using hroom
  have hq : q'.slots = q.slots ∧ q'.heap = q.heap ∧ q'.freeSlots = q.freeSlots ∧
      q'.liveCount = q.liveCount ∧ q'.freeNameOff = p.freeNameOff + nameSize ∧
      s = { nameOffset := if nameSize = 0 then 0 else p.freeNameOff + nameSize
            nameLen := nameSize } := by
    split_ifs at hq' with h0
    · cases hq'
      simp [h0, hoff]
    · cases hq'
      simp [h0, hoff]
  obtain ⟨hslots', hheap', hbits', hcount', hoff', rfl⟩ := hq
  set r := q'.putSlot i { nameOffset := if nameSize = 0 then 0 else p.freeNameOff + nameSize
                          nameLen := nameSize } with hr
  have hself : r.slot i = { nameOffset := if nameSize = 0 then 0 else p.freeNameOff + nameSize
                            nameLen := nameSize } := by
    rw [hr, slot_putSlot_self (by rw [hslots', hlen]; exact hi)]
  have hothers : ∀ j, j ≠ i → r.slot j = p.slot j := by
    intro j hj
    rw [hr, slot_putSlot_of_ne hj]
    simp [slot, hslots', hslots]
  have hisFree : ∀ j, r.isFree j = (p.isFree j && decide (j ≠ i)) := by
    intro j
    rw [← hbits j]
    simp [hr, TriePage.putSlot, isFree, hbits']
  have hrheap : r.heap = p.heap := hheap'.trans hheap
  have hroff : r.freeNameOff = p.freeNameOff + nameSize := hoff'
  have hok : r.Ok := by
    refine h.extend hi ?_ (hrheap ▸ h.heap) ?_ (by omega) ?_ ?_ hothers ?_ ?_
    · simp [hr, TriePage.putSlot, hslots', hlen]
    · rw [hroff]
      by_cases h0 : nameSize = 0
      · simpa [h0] using h.freeNameOff
      · exact hroom' h0
    · have hle := h.liveCount_le
      have hr' : r.liveCount = (p.liveCount + 1) % 2 ^ 16 := hcount'.trans hcount
      rw [hr', Nat.mod_eq_of_lt (by omega), h.liveCount]
      refine (countP_add_one List.nodup_range (List.mem_range.mpr hi) ?_ ?_ ?_).symm
      · simp [hfree]
      · simp [hisFree]
      · intro j hj
        simp [hisFree, hj]
    · intro j hj hlive
      refine ⟨hlive.1, ?_⟩
      have := hlive.2
      rw [hisFree j] at this
      simpa [hj] using this
    · rw [hself]
      unfold NameOk
      by_cases h0 : nameSize = 0
      · simp [h0]
      · simp only [h0, if_false, hroff]
        omega
    · intro hnamed j hj hlive hnj
      rw [hself] at hnamed ⊢
      have h0 : nameSize ≠ 0 := by
        rintro rfl
        simp [TrieSlot.Named] at hnamed
      have := h.named hlive hnj
      right
      simp only [h0, if_false]
      omega
  refine ⟨hi, by simp [TriePage.nodeAt, hfree], (r.slot i).nameOffset, (r.node (r.slot i)).area,
    ⟨hok, fun j hj => ?_⟩, ?_, ?_⟩
  · unfold TriePage.nodeAt
    rw [hisFree]
    by_cases hji : j = i
    · subst hji
      simp [hself, node]
    · simp [hji, hothers j hji, node, heapAt, hrheap]
  · intro h0
    rw [hself]
    simp [node, h0]
  · intro h0
    have hlen' : (r.heapAt (p.freeNameOff + nameSize) nameSize).length = nameSize :=
      length_heapAt hok.heap (hroff ▸ hok.freeNameOff) (by omega)
    rw [hself]
    exact ⟨_, by simp [node, h0], hlen'⟩

theorem ok_init (depth : ℕ) (byteVal : UInt8) (nodeType : ℕ) :
    (init depth byteVal nodeType).Ok ∧
      (init depth byteVal nodeType).nodeAt 0 =
        some ⟨{ depth := depth, byteVal := byteVal, nodeType := nodeType }, none⟩ ∧
      ∀ j, j < 64 → j ≠ 0 → (init depth byteVal nodeType).nodeAt j = none := by
  have hfree : ∀ j, j < 64 → (init depth byteVal nodeType).isFree j = decide (j ≠ 0) := by
    intro j hj
    have hall : ∀ j ∈ List.range 64, (~~~(1#64)).getLsbD j = decide (j ≠ 0) := by decide
    exact hall j (List.mem_range.mpr hj)
  have hlive : ∀ j, (init depth byteVal nodeType).Live j → j = 0 := by
    intro j hj
    by_contra hne
    have := hfree j hj.1
    rw [hj.2] at this
    simp [hne] at this
  have hslot : (init depth byteVal nodeType).slot 0 =
      { depth := depth, byteVal := byteVal, nodeType := nodeType } := rfl
  refine ⟨⟨by simp [init], by simp [init], Nat.zero_le _, ?_, ?_, ?_⟩, ?_, ?_⟩
  · have hcount : (List.range 64).countP (fun j => !(~~~(1#64)).getLsbD j) = 1 := by decide
    exact hcount.symm
  · intro j hj
    rw [hlive j hj, hslot]
    exact .inl ⟨rfl, rfl⟩
  · intro i j hi hj hij
    rw [hlive i hi, hlive j hj] at hij
    exact absurd rfl hij
  · have h0 : (init depth byteVal nodeType).isFree 0 = false := by simpa using hfree 0 (by norm_num)
    simp [TriePage.nodeAt, h0, hslot, node]
  · intro j hj hne
    simp [TriePage.nodeAt, hfree j hj, hne]

theorem Ok.reserveNameHeap {nameSize : ℕ} (h : p.Ok) (hlive : p.Live i) (hpos : 0 < nameSize)
    (hfit : p.freeNameOff + nameSize ≤ nameHeapSize)
    (hq : p.reserveNameHeap (p.slot i) nameSize = (q, s)) :
    s = { p.slot i with nameOffset := p.freeNameOff + nameSize, nameLen := nameSize } ∧
      ∃ bytes : Bytes, bytes.length = nameSize ∧ Sets p i (some ⟨s, some bytes⟩) (q.putSlot i s) := by
  cases hq
  refine ⟨rfl, p.heapAt (p.freeNameOff + nameSize) nameSize,
    length_heapAt h.heap hfit (by omega), ?_⟩
  have hself := slot_putSlot_self (p := { p with freeNameOff := p.freeNameOff + nameSize }) (i := i)
    (s := { p.slot i with nameOffset := p.freeNameOff + nameSize, nameLen := nameSize })
    (by simpa [h.slots] using hlive.1)
  refine Sets.of_live ?_ rfl hlive (fun j _ hj => by rw [slot_putSlot_of_ne hj]; rfl) ?_
  · refine h.extend hlive.1 (by simp [TriePage.putSlot, h.slots]) h.heap hfit (Nat.le_add_right _ _)
      h.liveCount (fun j _ hj => hj) (fun j hj => slot_putSlot_of_ne hj) ?_ ?_
    · rw [hself]
      exact .inr ⟨hpos, Nat.le_add_left _ _, le_refl _⟩
    · intro _ j _ hj hnj
      rw [hself]
      have := h.named hj hnj
      right
      change (p.slot j).nameOffset + nameSize ≤ p.freeNameOff + nameSize
      omega
  · rw [hself]
    have hne : nameSize ≠ 0 := by omega
    simp [node, hne, heapAt, TriePage.putSlot]

theorem Ok.freeSlot (h : p.Ok) (hlive : p.Live i) {live : ℕ}
    (hcount : live = (p.liveCount + 2 ^ 16 - 1) % 2 ^ 16)
    (hq : q = ({ p with freeSlots := p.freeSlots.setBit i, liveCount := live }).putSlot i {}) :
    Sets p i none q := by
  obtain ⟨hi, hbit⟩ := hlive
  have hisFree : ∀ j, j < 64 → q.isFree j = (p.isFree j || decide (j = i)) := by
    intro j hj
    rw [hq]
    exact Word.getLsbD_setBit _ _ _ hj
  have hothers : ∀ j, j ≠ i → q.slot j = p.slot j := by
    intro j hj
    rw [hq, slot_putSlot_of_ne hj]
    rfl
  have hself : q.slot i = {} := by
    rw [hq, slot_putSlot_self (by simp [h.slots, hi])]
  have hlive : p.liveCount = (List.range 64).countP (fun j => !q.isFree j) + 1 := by
    rw [h.liveCount]
    have hcongr : (List.range 64).countP (fun j => !q.isFree j) =
        (List.range 64).countP (fun j => !p.isFree j && decide (j ≠ i)) := by
      apply List.countP_congr
      intro j hj
      rw [hisFree j (List.mem_range.mp hj)]
      simp
    rw [hcongr]
    refine countP_add_one List.nodup_range (List.mem_range.mpr hi) (by simp) (by simp [hbit]) ?_
    intro j hj
    simp [hj]
  have hheap : q.heap = p.heap := by
    rw [hq]
    rfl
  refine ⟨?_, fun j hj => ?_⟩
  rotate_left
  · unfold TriePage.nodeAt
    rw [hisFree j hj]
    by_cases hji : j = i
    · simp [hji]
    · simp [hji, hothers j hji, node, heapAt, hheap]
  refine h.extend hi (by simp [hq, TriePage.putSlot, h.slots]) (by rw [hq]; exact h.heap)
    (by rw [hq]; exact h.freeNameOff) (by rw [hq]; exact le_refl _) ?_ ?_ hothers ?_ ?_
  · have hle := h.liveCount_le
    have hq' : q.liveCount = live := by rw [hq]; rfl
    omega
  · intro j hj hlive
    refine ⟨hlive.1, ?_⟩
    have hbit := hlive.2
    rw [hisFree j hlive.1] at hbit
    exact (Bool.or_eq_false_iff.mp hbit).1
  · rw [hself]
    exact .inl ⟨rfl, rfl⟩
  · intro hnamed
    rw [hself] at hnamed
    exact absurd rfl hnamed

end Alloc

section Compact

variable {names : List (ℕ × Bytes)} {off : ℕ}

def totalLength (names : List (ℕ × Bytes)) : ℕ := (names.map fun x => x.2.length).sum

/-- What the second pass of the compaction has done with the names from `off` on. -/
structure Packed (p : TriePage) (names : List (ℕ × Bytes)) (off : ℕ) (r : TriePage) : Prop where
  slots : r.slots.length = p.slots.length
  heap : r.heap.length = p.heap.length
  freeSlots : r.freeSlots = p.freeSlots
  liveCount : r.liveCount = p.liveCount
  others : ∀ j, j ∉ names.map Prod.fst → r.slot j = p.slot j
  named : ∀ i name, (i, name) ∈ names →
    r.slot i = { p.slot i with nameOffset := (r.slot i).nameOffset } ∧
    off + name.length ≤ (r.slot i).nameOffset ∧
    (r.slot i).nameOffset ≤ off + totalLength names ∧
    r.heapAt (r.slot i).nameOffset name.length = name
  apart : ∀ i m j n, (i, m) ∈ names → (j, n) ∈ names → i ≠ j →
    (r.slot i).nameOffset + n.length ≤ (r.slot j).nameOffset ∨
      (r.slot j).nameOffset + m.length ≤ (r.slot i).nameOffset
  below : ∀ noff nlen, noff ≤ off → nlen ≤ noff → r.heapAt noff nlen = p.heapAt noff nlen

theorem packNames_spec (hslots : p.slots.length = 64) (hheap : p.heap.length = nameHeapSize)
    (hnames : ∀ x ∈ names, x.1 < 64) (hnodup : (names.map Prod.fst).Nodup)
    (hfit : off + totalLength names ≤ nameHeapSize) :
    (p.packNames names off).2 = off + totalLength names ∧
      Packed p names off (p.packNames names off).1 := by
  induction names generalizing p off with
  | nil => exact ⟨rfl, rfl, rfl, rfl, rfl, fun _ _ => rfl, by simp, by simp, fun _ _ _ _ => rfl⟩
  | cons x names ih =>
    obtain ⟨i, name⟩ := x
    have htotal : totalLength ((i, name) :: names) = name.length + totalLength names := rfl
    rw [htotal] at hfit ⊢
    obtain ⟨hi, hrest⟩ := List.nodup_cons.mp hnodup
    have hlt : i < 64 := hnames (i, name) List.mem_cons_self
    set q := (p.putSlot i { p.slot i with nameOffset := off + name.length }).putHeap
      (off + name.length) name with hq
    have hqslots : q.slots.length = p.slots.length := by simp [hq, putHeap, putSlot]
    have hqheap : q.heap.length = p.heap.length :=
      length_copyAt_of_le (by change _ ≤ p.heap.length; omega)
    have hqself : q.slot i = { p.slot i with nameOffset := off + name.length } := by
      have hput := slot_putSlot_self (p := p) (i := i)
        (s := { p.slot i with nameOffset := off + name.length }) (by omega)
      exact hput
    have hqothers : ∀ j, j ≠ i → q.slot j = p.slot j := fun j hj => slot_putSlot_of_ne hj
    obtain ⟨hend, hpacked⟩ : (q.packNames names (off + name.length)).2 = _ ∧
        Packed q names (off + name.length) (q.packNames names (off + name.length)).1 :=
      ih (hqslots.trans hslots) (hqheap.trans hheap) (fun x hx => hnames x (List.mem_cons_of_mem _ hx)) hrest (by omega)
    have hself : (q.packNames names (off + name.length)).1.slot i =
        { p.slot i with nameOffset := off + name.length } := (hpacked.others i hi).trans hqself
    rw [show p.packNames ((i, name) :: names) off = q.packNames names (off + name.length) from rfl]
    refine ⟨by omega, ?_⟩
    have hne : ∀ j n, (j, n) ∈ names → j ≠ i := by
      rintro j n hj rfl
      exact hi (List.mem_map.mpr ⟨(j, n), hj, rfl⟩)
    refine ⟨hpacked.slots.trans hqslots, hpacked.heap.trans hqheap, hpacked.freeSlots,
      hpacked.liveCount, ?_, ?_, ?_, ?_⟩
    · intro j hj
      rw [List.map_cons, List.mem_cons, not_or] at hj
      exact (hpacked.others j hj.2).trans (hqothers j hj.1)
    · intro j n hj
      rcases List.mem_cons.mp hj with heq | hj
      · cases heq
        rw [hself, htotal]
        refine ⟨rfl, le_refl _, by dsimp only; omega, ?_⟩
        refine (hpacked.below _ _ (le_refl _) (by omega)).trans ?_
        exact heapAt_putHeap_self (p := p.putSlot i _) hheap (by omega) (by omega)
      · obtain ⟨h₁, h₂, h₃, h₄⟩ := hpacked.named j n hj
        rw [hqothers j (hne j n hj)] at h₁
        rw [htotal]
        exact ⟨h₁, by omega, by omega, h₄⟩
    · intro j m k n hj hk hjk
      rcases List.mem_cons.mp hj with heq | hj
      · cases heq
        rcases List.mem_cons.mp hk with heq | hk
        · cases heq
          exact absurd rfl hjk
        · obtain ⟨-, h₂, -, -⟩ := hpacked.named k n hk
          left
          rw [hself]
          exact h₂
      · rcases List.mem_cons.mp hk with heq | hk
        · cases heq
          obtain ⟨-, h₂, -, -⟩ := hpacked.named j m hj
          right
          rw [hself]
          exact h₂
        · exact hpacked.apart j m k n hj hk hjk
    · intro noff nlen hnoff hnlen
      refine (hpacked.below noff nlen (by omega) hnlen).trans ?_
      exact heapAt_putHeap_of_apart (p := p.putSlot i _) hheap (by omega) (by omega) (by omega)
        (.inl (by omega))

/-- What the first pass of the compaction collects. -/
theorem collectNames_spec {is : List ℕ} {used : ℕ} (h : p.collectNames is used = some names) :
    names.map Prod.fst = is.filter (fun i => (p.liveName i).isSome) ∧
      (∀ i name, (i, name) ∈ names → ∃ noff nlen, p.liveName i = some (noff, nlen) ∧
        name = p.heapAt noff nlen ∧ noff ≤ p.freeNameOff ∧ nlen ≤ noff) ∧
      (names ≠ [] → used + (names.map fun x => ((p.liveName x.1).getD (0, 0)).2).sum ≤
        p.freeNameOff) := by
  induction is generalizing used names with
  | nil =>
    cases h
    simp
  | cons i is ih =>
    unfold collectNames at h
    split at h
    · rename_i hnone
      simpa [hnone] using ih h
    · rename_i noff nlen hsome
      split_ifs at h with hbad
      push Not at hbad
      obtain ⟨rest, hrest, rfl⟩ := Option.map_eq_some_iff.mp h
      obtain ⟨hmap, hmem, hsum⟩ := ih hrest
      refine ⟨by simp [hsome, hmap], ?_, fun _ => ?_⟩
      · intro j name hj
        rcases List.mem_cons.mp hj with heq | hj
        · cases heq
          exact ⟨noff, nlen, hsome, rfl, hbad.1, hbad.2.1⟩
        · exact hmem j name hj
      · by_cases hnil : rest = []
        · simpa [hnil, hsome] using hbad.2.2
        · have := hsum hnil
          simp only [List.map_cons, List.sum_cons, hsome, Option.getD_some]
          omega

theorem liveName_eq_some {noff nlen : ℕ} :
    p.liveName i = some (noff, nlen) ↔ p.isFree i = false ∧ (p.slot i).nameOffset ≠ 0 ∧
      (p.slot i).nameLen ≠ 0 ∧ (p.slot i).nameOffset = noff ∧ (p.slot i).nameLen = nlen := by
  unfold liveName
  cases p.isFree i
  · by_cases h0 : (p.slot i).nameOffset = 0 ∨ (p.slot i).nameLen = 0
    · rcases h0 with h0 | h0 <;> simp [h0]
    · push Not at h0
      simp [h0]
  · simp

/-- The names a compaction collects are those of the live slots. -/
theorem Ok.collected (h : p.Ok) (hnames : p.collectNames (List.range 64) 0 = some names) :
    (∀ i name, (i, name) ∈ names → p.Live i ∧ (p.slot i).Named ∧
      name = p.heapAt (p.slot i).nameOffset (p.slot i).nameLen ∧
      name.length = (p.slot i).nameLen) ∧
    (∀ i, p.Live i → (p.slot i).Named → ∃ name, (i, name) ∈ names) ∧
    (names.map Prod.fst).Nodup ∧ totalLength names ≤ p.freeNameOff := by
  obtain ⟨hmap, hmem, hsum⟩ := collectNames_spec hnames
  have hlt : ∀ i name, (i, name) ∈ names → i < 64 := by
    intro i name hi
    have : i ∈ names.map Prod.fst := List.mem_map.mpr ⟨(i, name), hi, rfl⟩
    rw [hmap] at this
    exact List.mem_range.mp (List.mem_filter.mp this).1
  have hlen : ∀ i name, (i, name) ∈ names → ∃ noff nlen, p.liveName i = some (noff, nlen) ∧
      name = p.heapAt noff nlen ∧ name.length = nlen := by
    intro i name hi
    obtain ⟨noff, nlen, hlive, hname, hoff, hle⟩ := hmem i name hi
    refine ⟨noff, nlen, hlive, hname, ?_⟩
    rw [hname, length_heapAt h.heap (le_trans hoff h.freeNameOff) hle]
  refine ⟨?_, ?_, ?_, ?_⟩
  · intro i name hi
    obtain ⟨noff, nlen, hlive, hname, hl⟩ := hlen i name hi
    obtain ⟨hbit, hnamed, -, rfl, rfl⟩ := liveName_eq_some.mp hlive
    exact ⟨⟨hlt i name hi, hbit⟩, hnamed, hname, hl⟩
  · intro i hlive hnamed
    have hpos : (p.slot i).nameLen ≠ 0 := (h.named hlive hnamed).1.ne'
    have : i ∈ names.map Prod.fst := by
      rw [hmap, List.mem_filter]
      refine ⟨List.mem_range.mpr hlive.1, ?_⟩
      rw [liveName_eq_some.mpr ⟨hlive.2, hnamed, hpos, rfl, rfl⟩]
      rfl
    obtain ⟨⟨j, name⟩, hj, rfl⟩ := List.mem_map.mp this
    exact ⟨name, hj⟩
  · rw [hmap]
    exact List.nodup_range.filter _
  · by_cases hnil : names = []
    · simp [hnil, totalLength]
    · have hsame : (names.map fun x => x.2.length) =
          names.map fun x => ((p.liveName x.1).getD (0, 0)).2 := by
        apply List.map_congr_left
        rintro ⟨i, name⟩ hi
        obtain ⟨noff, nlen, hlive, -, hl⟩ := hlen i name hi
        simp [hlive, hl]
      have := hsum hnil
      rw [← hsame] at this
      simpa [totalLength] using this

/-- A compaction moves names and changes nothing else. -/
theorem Ok.compactNames (h : p.Ok) {r : TriePage} (hr : p.compactNames = some r) :
    r.Ok ∧ r.freeSlots = p.freeSlots ∧
      (∀ j, r.slot j = { p.slot j with nameOffset := (r.slot j).nameOffset }) ∧
      (∀ j, p.Live j → ((r.slot j).Named ↔ (p.slot j).Named)) ∧
      ∀ j, p.Live j → (p.node (p.slot j)).Same (r.node (r.slot j)) := by
  unfold TriePage.compactNames at hr
  split_ifs at hr with h0
  obtain ⟨names, hnames, rfl⟩ := Option.map_eq_some_iff.mp hr
  obtain ⟨hmem, hcover, hnodup, htotal⟩ := h.collected hnames
  obtain ⟨hend, hpacked⟩ : (p.packNames names 0).2 = 0 + totalLength names ∧
      Packed p names 0 (p.packNames names 0).1 := packNames_spec h.slots h.heap
    (fun x hx => (hmem x.1 x.2 hx).1.1) hnodup (by have := h.freeNameOff; omega)
  set q := p.packNames names 0 with hq
  set r : TriePage := { q.1 with freeNameOff := q.2 } with hr
  have hslot : ∀ j, r.slot j = q.1.slot j := fun _ => rfl
  have hisFree : ∀ j, r.isFree j = p.isFree j := isFree_congr hpacked.freeSlots
  have hlive : ∀ j, r.Live j ↔ p.Live j := by
    intro j
    unfold Live
    rw [hisFree]
  have hunnamed : ∀ j, (∀ name, (j, name) ∉ names) → r.slot j = p.slot j := by
    intro j hj
    apply hpacked.others
    intro hin
    obtain ⟨⟨k, name⟩, hk, rfl⟩ := List.mem_map.mp hin
    exact hj name hk
  have hnamed : ∀ j, p.Live j → (r.slot j).Named → (p.slot j).Named := by
    intro j _ hn
    by_cases hj : ∃ name, (j, name) ∈ names
    · obtain ⟨name, hj⟩ := hj
      exact (hmem j name hj).2.1
    · rw [hunnamed j fun name hname => hj ⟨name, hname⟩] at hn
      exact hn
  have hplace : ∀ j name, (j, name) ∈ names →
      (r.slot j).nameLen = name.length ∧ 0 < name.length ∧
      name.length ≤ (r.slot j).nameOffset ∧ (r.slot j).nameOffset ≤ r.freeNameOff := by
    intro j name hj
    obtain ⟨hself, hlow, hhigh, -⟩ := hpacked.named j name hj
    obtain ⟨hl, hn, -, hlen⟩ := hmem j name hj
    have hpos : 0 < name.length := hlen.symm ▸ (h.named hl hn).1
    refine ⟨?_, hpos, by rw [hslot]; omega, ?_⟩
    · rw [hslot, hself]
      exact hlen.symm
    · change _ ≤ q.2
      rw [hend]
      exact hhigh
  refine ⟨⟨hpacked.slots.trans h.slots, hpacked.heap.trans h.heap, ?_, ?_, ?_, ?_⟩, hpacked.freeSlots,
    ?_, ?_, ?_⟩
  · change q.2 ≤ _
    have := h.freeNameOff
    omega
  · simp only [show r.liveCount = p.liveCount from hpacked.liveCount, h.liveCount, hisFree]
  · intro j hj
    rw [hlive] at hj
    by_cases hn : (p.slot j).Named
    · obtain ⟨name, hname⟩ := hcover j hj hn
      obtain ⟨h₁, h₂, h₃, h₄⟩ := hplace j name hname
      exact .inr ⟨by omega, by omega, h₄⟩
    · rw [hunnamed j fun name hname => hn (hmem j name hname).2.1]
      rcases h.name j hj with hz | ⟨h₁, h₂, -⟩
      · exact .inl hz
      · exact absurd (show (p.slot j).Named from by unfold TrieSlot.Named; omega) hn
  · intro i j hi hj hij hni hnj
    rw [hlive] at hi hj
    obtain ⟨m, hm⟩ := hcover i hi (hnamed i hi hni)
    obtain ⟨n, hn⟩ := hcover j hj (hnamed j hj hnj)
    have hlm := (hplace i m hm).1
    have hln := (hplace j n hn).1
    unfold TrieSlot.Apart
    rw [hlm, hln]
    exact hpacked.apart i m j n hm hn hij
  · intro j
    by_cases hj : ∃ name, (j, name) ∈ names
    · obtain ⟨name, hj⟩ := hj
      exact (hpacked.named j name hj).1
    · rw [hunnamed j fun name hname => hj ⟨name, hname⟩]
  · intro j hj
    refine ⟨hnamed j hj, fun hn => ?_⟩
    obtain ⟨name, hname⟩ := hcover j hj hn
    have := hplace j name hname
    unfold TrieSlot.Named
    omega
  · intro j hj
    by_cases hn : (p.slot j).Named
    · obtain ⟨name, hname⟩ := hcover j hj hn
      obtain ⟨hself, -, -, hheap⟩ := hpacked.named j name hname
      obtain ⟨-, -, hbytes, hlen⟩ := hmem j name hname
      have hoff : (r.slot j).nameOffset ≠ 0 := by
        have := hplace j name hname
        omega
      have harea : r.heapAt (r.slot j).nameOffset (r.slot j).nameLen =
          p.heapAt (p.slot j).nameOffset (p.slot j).nameLen := by
        rw [(hplace j name hname).1, ← hbytes]
        exact hheap
      refine ⟨?_, hself⟩
      unfold node
      rw [if_neg hoff, if_neg hn, harea]
    · rw [hunnamed j fun name hname => hn (hmem j name hname).2.1]
      have h0 : (p.slot j).nameOffset = 0 := not_not.mp hn
      exact ⟨by simp [node, h0], rfl⟩

end Compact

section Store

variable {bytes name : Bytes} {off free : ℕ} {q : TriePage}

/-- Bytes are written for a slot where no other slot has its name. -/
theorem Ok.writeArea (h : p.Ok) (hlive : p.Live i) (hpos : bytes ≠ []) (hlen : bytes.length ≤ off)
    (hoff : off ≤ free) (hgrow : p.freeNameOff ≤ free) (hfree : free ≤ nameHeapSize)
    (hapart : ∀ j, p.Live j → j ≠ i → (p.slot j).Named →
      off + (p.slot j).nameLen ≤ (p.slot j).nameOffset ∨
        (p.slot j).nameOffset + bytes.length ≤ off)
    (hq : q = (({ p with freeNameOff := free } : TriePage).putHeap off bytes).putSlot i
      { s with nameOffset := off, nameLen := bytes.length }) :
    Sets p i (some ⟨{ s with nameOffset := off, nameLen := bytes.length }, some bytes⟩) q := by
  have hbytes : 0 < bytes.length := List.length_pos_iff.mpr hpos
  have hself : q.slot i = { s with nameOffset := off, nameLen := bytes.length } := by
    rw [hq, slot_putSlot_self (by simpa [putHeap, h.slots] using hlive.1)]
  have hothers : ∀ j, j ≠ i → q.slot j = p.slot j := by
    intro j hj
    rw [hq, slot_putSlot_of_ne hj]
    rfl
  have hheap : q.heap.length = nameHeapSize := by
    rw [hq]
    exact (length_copyAt_of_le (by rw [← h.heap]; exact Nat.sub_le _ _)).trans h.heap
  have hqfree : q.freeNameOff = free := by rw [hq]; rfl
  refine Sets.of_live ?_ (by rw [hq]; rfl) hlive (fun j hj hji => ?_) ?_
  · refine h.extend hlive.1 (by simp [hq, TriePage.putSlot, putHeap, h.slots]) hheap (by omega)
      (by omega) (by rw [hq]; exact h.liveCount) ?_ hothers ?_ ?_
    · intro j _ hj
      rw [hq] at hj
      exact hj
    · rw [hself]
      exact .inr ⟨hbytes, hlen, hqfree ▸ hoff⟩
    · intro _ j hji hj hnj
      rw [hself]
      exact hapart j hj hji hnj
  · rw [hothers j hji]
    unfold node
    by_cases hnj : (p.slot j).nameOffset = 0
    · simp [hnj]
    · have hheapAt : q.heapAt (p.slot j).nameOffset (p.slot j).nameLen =
          p.heapAt (p.slot j).nameOffset (p.slot j).nameLen := by
        rw [hq]
        have := h.named hj hnj
        exact heapAt_putHeap_of_apart (p := p) h.heap (by omega) hlen (by omega)
          ((hapart j hj hji hnj).symm)
      rw [hheapAt]
  · rw [hself]
    unfold node
    have hne : off ≠ 0 := by omega
    have hheapAt : q.heapAt off bytes.length = bytes := by
      rw [hq]
      exact heapAt_putHeap_self (p := p) h.heap (by omega) hlen
    simp only [hne, if_false, hheapAt]

/-- A name of a node that keeps none yet goes above the used part of the heap. -/
theorem Ok.writeAbove (h : p.Ok) (hlive : p.Live i) (hpos : bytes ≠ [])
    (hfit : p.freeNameOff + bytes.length ≤ nameHeapSize)
    (hq : q = (({ p with freeNameOff := p.freeNameOff + bytes.length } : TriePage).putHeap
      (p.freeNameOff + bytes.length) bytes).putSlot i
      { s with nameOffset := p.freeNameOff + bytes.length, nameLen := bytes.length }) :
    Sets p i (some ⟨{ s with nameOffset := p.freeNameOff + bytes.length, nameLen := bytes.length },
      some bytes⟩) q := by
  refine h.writeArea hlive hpos (by omega) (le_refl _) (by omega) hfit ?_ hq
  intro j hj _ hnj
  have := h.named hj hnj
  right
  omega

theorem writeName_eq (hname : name ≠ []) (hlen : name.length + 2 ≤ off) (hoff : off ≤ nameHeapSize) :
    p.writeName off name = .ok (p.putHeap off (storedName name), name.length + 2) := by
  unfold writeName
  rw [if_neg hname, if_neg (by omega), if_neg (by omega)]
  rfl

/-- The page `q` is well-formed and has the nodes of `p`, some of them with their names in
other places, and `name` is stored for slot `i`. -/
structure Stores (p : TriePage) (i : ℕ) (name : Bytes) (q : TriePage) : Prop where
  ok : q.Ok
  others : ∀ j, j < 64 → j ≠ i → Option.Rel Node.Same (p.nodeAt j) (q.nodeAt j)
  self : ∃ off, q.nodeAt i = some ⟨{ p.slot i with nameOffset := off, nameLen := name.length + 2 },
    some (storedName name)⟩

theorem Stores.of_sets (hi : i < 64) (h : Sets p i (some
    ⟨{ p.slot i with nameOffset := off, nameLen := name.length + 2 }, some (storedName name)⟩) q) :
    Stores p i name q := by
  refine ⟨h.ok, fun j hj hji => ?_, off, by rw [h.nodeAt i hi, if_pos rfl]⟩
  rw [h.nodeAt j hj, if_neg hji]
  exact Node.Same.rel_refl _

theorem Ok.storeName (h : p.Ok) (hlive : p.Live i) (hname : name ≠ []) {s' : TrieSlot}
    (halloc : p.allocName (p.slot i) name.length = .ok (q, s')) :
    ∃ r, q.writeName s'.nameOffset name = .ok (r, name.length + 2) ∧
      Stores p i name (r.putSlot i { s' with nameLen := name.length + 2 }) := by
  have hstored : (storedName name).length = name.length + 2 := length_storedName name
  have hne : storedName name ≠ [] := by
    intro h0
    rw [h0] at hstored
    simp at hstored
  unfold allocName at halloc
  have hlen0 : name.length ≠ 0 := fun h0 => hname (List.length_eq_zero_iff.mp h0)
  rw [if_neg hlen0] at halloc
  split_ifs at halloc with hmax hreuse hroom
  · -- the node keeps the room it has
    cases halloc
    rcases h.name i hlive with ⟨h0, -⟩ | ⟨-, h₂, h₃⟩
    · omega
    · have hfree := h.freeNameOff
      have hwrite := h.writeArea (s := p.slot i) hlive hne (by omega) h₃ (le_refl _) hfree
        (fun j hj hji hnj => by
          have := h.apart i j hlive hj (Ne.symm hji) (by unfold TrieSlot.Named; omega) hnj
          unfold TrieSlot.Apart at this
          omega) rfl
      rw [hstored] at hwrite
      exact ⟨_, writeName_eq hname (by omega) (by omega), .of_sets hlive.1 hwrite⟩
  · cases halloc
    have hwrite := h.writeAbove (s := p.slot i) hlive hne (by omega) rfl
    rw [hstored] at hwrite
    exact ⟨_, writeName_eq hname (Nat.le_add_left _ _) hroom, .of_sets hlive.1 hwrite⟩
  · split at halloc
    · cases halloc
    · rename_i p' hcompact
      split_ifs at halloc with hroom'
      cases halloc
      obtain ⟨hok, hbits, -, -, hnodes⟩ := h.compactNames hcompact
      have hisFree := isFree_congr hbits
      have hwrite := hok.writeAbove (s := p.slot i) ⟨hlive.1, (hisFree i).trans hlive.2⟩ hne
        (by omega) rfl
      rw [hstored] at hwrite
      refine ⟨_, writeName_eq hname (Nat.le_add_left _ _) hroom', hwrite.ok, fun j hj hji => ?_,
        _, by rw [hwrite.nodeAt i hlive.1, if_pos rfl]⟩
      rw [hwrite.nodeAt j hj, if_neg hji]
      unfold TriePage.nodeAt
      rw [hisFree]
      cases hfree : p.isFree j
      · exact .some (hnodes j ⟨hj, hfree⟩)
      · exact .none

/-- A failed call found no room, also in the compacted page. -/
theorem allocName_error {e : Err} {c : Option TriePage} (hmax : name.length ≤ maxNameLen)
    (h : p.allocName s name.length = .error (e, c)) :
    e = .errno .enospc ∧ ∀ q, c = some q → p.compactNames = some q := by
  unfold allocName at h
  dsimp only at h
  split_ifs at h with h₁ h₂
  · omega
  · split at h
    · cases h
      exact ⟨rfl, fun q hq => nomatch hq⟩
    · split_ifs at h
      cases h
      exact ⟨rfl, fun q hq => Option.some.inj hq ▸ ‹_›⟩

/-- The room kept for a name is enough for it. -/
theorem Ok.allocName_reserved (h : p.Ok) (hlive : p.Live i) (hmax : name.length ≤ maxNameLen)
    {bytes : Bytes} (harea : (p.node (p.slot i)).area = some bytes)
    (hlen : bytes.length = name.length + 2) :
    p.allocName (p.slot i) name.length = .ok (p, p.slot i) := by
  obtain ⟨hoff, hnl, -, -, -⟩ := h.nameOk_node (h.name i hlive) harea
  unfold allocName
  by_cases h0 : name.length = 0
  · rw [if_pos h0]
  · rw [if_neg h0, if_neg (by omega), if_pos (by omega)]

end Store

end TriePage

end Briefs.Trie
