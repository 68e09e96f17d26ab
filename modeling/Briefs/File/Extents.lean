import Briefs.Bridge.RunList
import Briefs.Disk.Inode
import Briefs.Lib.Pieces

/-!
# Extent lists

The list operations of `file_ops.go` and `extent_ops.go`: look up a block, insert an
extent and join it with its neighbours, split an unwritten extent, remove a range, shift
what lies behind a point. An extent list is a map from blocks of the file to device
blocks with flags; each operation is described by what it does to that map. Offsets and
lengths are 64-bit numbers in the source; no list of a file reaches a sum that wraps.
-/

namespace Briefs

open Lib
open Bridge (BlockRun)

def extentFlagUnwritten : ℕ := 1

namespace Extent

variable (e : Extent)

/-- The first block of the file past the extent. -/
def stop : ℕ := e.offset + e.len

def place (k : ℕ) : ℕ := e.phys + (k - e.offset)

def unwritten : Bool := e.flags &&& extentFlagUnwritten != 0

/-- `b` goes on where the extent ends, in the file and on the device. -/
def Adjoins (b : Extent) : Prop :=
  e.offset + e.len = b.offset ∧ e.phys + e.len = b.phys ∧ e.flags = b.flags

instance (b : Extent) : Decidable (e.Adjoins b) := inferInstanceAs (Decidable (_ ∧ _))

def grow (n : ℕ) : Extent := { e with len := e.len + n }

end Extent

namespace File

variable {x : Extent}

/-- Extents as a map: the device block and the flags of a block of the file. -/
def blockMap : Pieces Extent (ℕ × ℕ) := ⟨Extent.offset, Extent.stop, fun e k => (e.place k, e.flags)⟩

def lookupExtent (exts : List Extent) (iblock : ℕ) : Option Extent := blockMap.locate exts iblock

/-- The end of `insertExtentSorted`: join with what follows, or put the extent in between. -/
def insertBefore (l : List Extent) (ext : Extent) : List Extent → List Extent
  | right :: r =>
    if ext.Adjoins right then
      l ++ { right with offset := ext.offset, phys := ext.phys, len := right.len + ext.len } :: r
    else l ++ ext :: right :: r
  | [] => l ++ [ext]

/-- `insertExtentSorted`, with the extents before the place of the new one and those behind it. -/
def insertBetween (l : List Extent) (ext : Extent) (r : List Extent) : List Extent :=
  match l.getLast?, r with
  | some left, right :: r =>
    if left.Adjoins ext then
      if (left.grow ext.len).Adjoins right then
        l.dropLast ++ (left.grow ext.len).grow right.len :: r
      else l.dropLast ++ left.grow ext.len :: right :: r
    else insertBefore l ext (right :: r)
  | some left, [] =>
    if left.Adjoins ext then l.dropLast ++ [left.grow ext.len] else insertBefore l ext []
  | none, r => insertBefore l ext r

def insertIndex (exts : List Extent) (ext : Extent) : ℕ :=
  search exts fun e => decide (ext.offset ≤ e.offset)

def insertExtentSorted (exts : List Extent) (ext : Extent) : List Extent :=
  insertBetween (exts.take (insertIndex exts ext)) ext (exts.drop (insertIndex exts ext))

/-- `insertExtentSorted` for one extent after the other. -/
def insertAll (exts raw : List Extent) : List Extent := raw.foldl insertExtentSorted exts

/-- The part of an extent before the block `k`, if there is one. -/
def beforeBlock (e : Extent) (k flags : ℕ) : List Extent :=
  if e.offset < k then [⟨e.offset, e.phys, k - e.offset, flags⟩] else []

/-- The part of an extent from the block `k` on, put at `offset`, if there is one. -/
def fromBlock (e : Extent) (k offset flags : ℕ) : List Extent :=
  if k < e.stop then [⟨offset, e.phys + (k - e.offset), e.stop - k, flags⟩] else []

/-- The parts of an unwritten extent one block of which is written. -/
def splitParts (e : Extent) (iblock : ℕ) : List Extent :=
  beforeBlock e iblock extentFlagUnwritten ++
    [⟨iblock, e.phys + (iblock - e.offset), 1, 0⟩] ++
    fromBlock e (iblock + 1) (iblock + 1) extentFlagUnwritten

def sameStart (ext e : Extent) : Bool := decide (e.offset = ext.offset ∧ e.phys = ext.phys)

def splitUnwrittenAt (exts : List Extent) (ext : Extent) (iblock : ℕ) : List Extent :=
  match exts.find? (sameStart ext) with
  | none => exts
  | some e => insertAll (exts.eraseP (sameStart ext)) (splitParts e iblock)

/-- The run of device blocks an extent has between two blocks of the file. -/
def runBetween (e : Extent) (first last : ℕ) : List BlockRun :=
  if e.phys ≠ 0 ∧ first < last then [⟨e.phys + (first - e.offset), last - first⟩] else []

/-- One round of `freeExtentRange`: what stays of an extent. -/
def keepOutside (startBlk endBlk : ℕ) (e : Extent) : List Extent :=
  if e.stop ≤ startBlk ∨ endBlk ≤ e.offset then [e]
  else
    beforeBlock e (max e.offset startBlk) e.flags ++
      fromBlock e (min e.stop endBlk) (min e.stop endBlk) e.flags

/-- One round of `freeExtentRange`: what is freed of an extent. -/
def freeInside (startBlk endBlk : ℕ) (e : Extent) : List BlockRun :=
  if e.stop ≤ startBlk ∨ endBlk ≤ e.offset then []
  else runBetween e (max e.offset startBlk) (min e.stop endBlk)

def freeExtentRange (exts : List Extent) (startBlk endBlk : ℕ) : List Extent × List BlockRun :=
  (exts.flatMap (keepOutside startBlk endBlk), exts.flatMap (freeInside startBlk endBlk))

/-- One round of `shiftExtents` towards the front. -/
def collapseExtent (S L : ℕ) (e : Extent) : List Extent :=
  if e.stop ≤ S then [e]
  else if S + L ≤ e.offset then [{ e with offset := e.offset - L }]
  else if S ≤ e.offset ∧ e.stop ≤ S + L then []
  else beforeBlock e S e.flags ++ fromBlock e (S + L) S e.flags

/-- What that round frees. -/
def collapseFreed (S L : ℕ) (e : Extent) : List BlockRun :=
  if e.stop ≤ S then []
  else if S + L ≤ e.offset then []
  else if S ≤ e.offset ∧ e.stop ≤ S + L then
    if e.phys ≠ 0 then [⟨e.phys, e.stop - e.offset⟩] else []
  else runBetween e (max e.offset S) (min e.stop (S + L))

/-- One round of `shiftExtents` towards the end. -/
def spreadExtent (S L : ℕ) (e : Extent) : List Extent :=
  if e.stop ≤ S then [e]
  else if S ≤ e.offset then [{ e with offset := e.offset + L }]
  else [⟨e.offset, e.phys, S - e.offset, e.flags⟩,
    ⟨S + L, e.phys + (S - e.offset), e.stop - S, e.flags⟩]

/-- `shiftExtents` with `dir < 0`. -/
def shiftDown (exts : List Extent) (S L : ℕ) : List Extent × List BlockRun :=
  (insertAll [] (exts.flatMap (collapseExtent S L)), exts.flatMap (collapseFreed S L))

/-- `shiftExtents` with `dir > 0`, which frees nothing. -/
def shiftUp (exts : List Extent) (S L : ℕ) : List Extent :=
  insertAll [] (exts.flatMap (spreadExtent S L))

def countUnwrittenBlocks (exts : List Extent) : ℕ :=
  ((exts.filter Extent.unwritten).map Extent.len).sum

/-- The extents of a file are sorted, do not overlap and are not empty. -/
abbrev Sorted (exts : List Extent) : Prop := blockMap.Ordered exts

/-- The list puts block `k` of the file at the device block `p`, with the flags `f`. -/
abbrev Maps (exts : List Extent) (k p f : ℕ) : Prop := blockMap.At exts k (p, f)

variable {exts l r raw : List Extent} {e ext a b : Extent} {k p f : ℕ}

theorem has_iff : blockMap.Has e k ↔ e.offset ≤ k ∧ k < e.stop := Iff.rfl

theorem val_eq_iff : blockMap.val e k = (p, f) ↔ e.place k = p ∧ e.flags = f := Prod.mk.injEq .. ▸ Iff.rfl

theorem maps_cons : Maps (e :: exts) k p f ↔
    (e.offset ≤ k ∧ k < e.stop) ∧ (e.place k = p ∧ e.flags = f) ∨ Maps exts k p f := by
  rw [Maps, Pieces.at_cons, has_iff, val_eq_iff]

theorem maps_single : Maps [e] k p f ↔
    (e.offset ≤ k ∧ k < e.stop) ∧ e.place k = p ∧ e.flags = f := by
  rw [maps_cons, or_iff_left Pieces.at_nil]

theorem maps_append : Maps (l ++ r) k p f ↔ Maps l k p f ∨ Maps r k p f := Pieces.at_append

theorem sorted_single (h : 0 < e.len) : Sorted [e] := by
  refine Pieces.ordered_cons.mpr ⟨?_, by simp, Pieces.ordered_nil⟩
  change e.offset < e.stop
  rw [Extent.stop]
  omega

/-! ### Joining neighbours -/

theorem recut_grow (h : a.Adjoins b) (hs : Sorted (a :: b :: r)) :
    blockMap.Recut (a :: b :: r) (a.grow b.len :: r) := by
  have ha : a.offset < a.stop := hs.nonempty a (by simp)
  have hb : b.offset < b.stop := hs.nonempty b (by simp)
  obtain ⟨hoff, hphys, hflags⟩ := h
  refine ⟨?_, ?_⟩
  · rw [Sorted, Pieces.ordered_cons, Pieces.ordered_cons] at hs
    obtain ⟨-, -, -, hbr, hr⟩ := hs
    refine Pieces.ordered_cons.mpr ⟨?_, ?_, hr⟩
    · change a.offset < a.offset + (a.len + b.len)
      rw [Extent.stop] at ha
      omega
    · intro x hx
      have hbx : b.offset + b.len ≤ x.offset := hbr x hx
      change a.offset + (a.len + b.len) ≤ x.offset
      omega
  · rintro k ⟨p, f⟩
    simp only [maps_cons, Extent.grow, Extent.stop, Extent.place, ← hoff, ← hphys, ← hflags,
      ← or_assoc] at ha hb ⊢
    apply or_congr_left
    omega

/-- The list with the extent put in its place, before any joining. -/
theorem sorted_put (hs : Sorted exts) (hext : 0 < ext.len)
    (hfree : ∀ k, ext.offset ≤ k → k < ext.stop → blockMap.Gap exts k) :
    Sorted (exts.take (insertIndex exts ext) ++ ext :: exts.drop (insertIndex exts ext)) := by
  have hup : Upward (fun e : Extent => decide (ext.offset ≤ e.offset)) exts := by
    refine hs.apart.imp_of_mem ?_
    intro x y hx hy hxy hle
    have hx' : x.offset < x.stop := hs.nonempty x hx
    have hxy' : x.stop ≤ y.offset := hxy
    simp only [decide_eq_true_eq] at hle ⊢
    omega
  set i := insertIndex exts ext
  have hbefore : ∀ x ∈ exts.take i, x.offset < ext.offset := by
    intro x hx
    simpa using forall_take_search hup x hx
  have hafter : ∀ x ∈ exts.drop i, ext.offset ≤ x.offset := by
    intro x hx
    simpa using forall_drop_search hup x hx
  have hstop : ext.offset < ext.stop := by
    rw [Extent.stop]
    omega
  have hsplit := hs
  rw [← List.take_append_drop i exts] at hsplit
  obtain ⟨hl, hr, hcross⟩ := Pieces.ordered_append.mp hsplit
  refine Pieces.ordered_append.mpr ⟨hl, Pieces.ordered_cons.mpr ⟨hstop, ?_, hr⟩, ?_⟩
  · intro x hx
    by_contra hlt
    have hx' : x.offset < x.stop := hs.nonempty x (List.mem_of_mem_drop hx)
    have hle := hafter x hx
    change ¬ext.stop ≤ x.offset at hlt
    exact hfree x.offset hle (by omega) x (List.mem_of_mem_drop hx) ⟨le_rfl, hx'⟩
  · intro x hx y hy
    rcases List.mem_cons.mp hy with rfl | hy
    · by_contra hlt
      have hlow := hbefore x hx
      change ¬x.stop ≤ y.offset at hlt
      exact hfree y.offset le_rfl hstop x (List.mem_of_mem_take hx) ⟨hlow.le, by
        change y.offset < x.stop
        omega⟩
    · exact hcross x hx y hy

theorem recut_insertBefore (hs : Sorted (l ++ ext :: r)) :
    blockMap.Recut (l ++ ext :: r) (insertBefore l ext r) := by
  cases r with
  | nil => exact hs.recut
  | cons right r =>
    rw [insertBefore]
    split_ifs with hjoin
    · have heq : ({ right with offset := ext.offset, phys := ext.phys, len := right.len + ext.len } :
          Extent) = ext.grow right.len := by
        simp only [Extent.grow, hjoin.2.2, Nat.add_comm]
      rw [heq]
      exact (recut_grow hjoin (Pieces.ordered_append.mp hs).2.1).append_left hs
    · exact hs.recut

/-- Whatever is joined, the list says what it says with the extent put in its place. -/
theorem recut_insertBetween (hs : Sorted (l ++ ext :: r)) :
    blockMap.Recut (l ++ ext :: r) (insertBetween l ext r) := by
  unfold insertBetween
  cases hleft : l.getLast? with
  | none => exact recut_insertBefore hs
  | some left =>
    obtain ⟨init, rfl⟩ := List.getLast?_eq_some_iff.mp hleft
    by_cases hjoin : left.Adjoins ext
    · have hassoc : init ++ [left] ++ ext :: r = init ++ left :: ext :: r := by
        rw [List.append_assoc, List.singleton_append]
      rw [hassoc] at hs ⊢
      have hgrown := (recut_grow hjoin (Pieces.ordered_append.mp hs).2.1).append_left hs
      cases r with
      | nil => simpa only [hjoin, if_true, List.dropLast_concat] using hgrown
      | cons right r =>
        by_cases hboth : (left.grow ext.len).Adjoins right
        · simp only [hjoin, if_true, List.dropLast_concat, hboth]
          have htail := (Pieces.ordered_append.mp hgrown.ordered).2.1
          exact hgrown.trans ((recut_grow hboth htail).append_left hgrown.ordered)
        · simpa only [hjoin, if_true, List.dropLast_concat, hboth, if_false] using hgrown
    · cases r with
      | nil =>
        simp only [hjoin, if_false]
        exact recut_insertBefore hs
      | cons right r =>
        simp only [hjoin, if_false]
        exact recut_insertBefore hs

/-- An extent put where nothing is mapped adds its blocks to the map. -/
theorem insertExtentSorted_spec (hs : Sorted exts) (hext : 0 < ext.len)
    (hfree : ∀ k, ext.offset ≤ k → k < ext.stop → blockMap.Gap exts k) :
    Sorted (insertExtentSorted exts ext) ∧ ∀ k p f, Maps (insertExtentSorted exts ext) k p f ↔
      Maps exts k p f ∨ Maps [ext] k p f := by
  have hrecut := recut_insertBetween (sorted_put hs hext hfree)
  refine ⟨hrecut.ordered, ?_⟩
  intro k p f
  have hcons : Maps (ext :: exts.drop (insertIndex exts ext)) k p f ↔
      Maps [ext] k p f ∨ Maps (exts.drop (insertIndex exts ext)) k p f := maps_append (l := [ext])
  have hsplit : Maps exts k p f ↔ Maps (exts.take (insertIndex exts ext)) k p f ∨
      Maps (exts.drop (insertIndex exts ext)) k p f := by
    rw [← maps_append, List.take_append_drop]
  refine (hrecut.same k (p, f)).trans (maps_append.trans ?_)
  rw [hcons, hsplit]
  tauto

theorem insertAll_spec (raw : List Extent) (hs : Sorted exts) (hraw : Sorted raw)
    (hfree : ∀ e ∈ raw, ∀ k, e.offset ≤ k → k < e.stop → blockMap.Gap exts k) :
    Sorted (insertAll exts raw) ∧ ∀ k p f, Maps (insertAll exts raw) k p f ↔
      Maps exts k p f ∨ Maps raw k p f := by
  induction raw generalizing exts with
  | nil => exact ⟨hs, fun k p f => (or_iff_left Pieces.at_nil).symm⟩
  | cons e raw ih =>
    obtain ⟨hlt, hfirst, hrest⟩ := Pieces.ordered_cons.mp hraw
    have hlen : 0 < e.len := by
      change e.offset < e.offset + e.len at hlt
      omega
    obtain ⟨hsorted, hmaps⟩ := insertExtentSorted_spec hs hlen (hfree e List.mem_cons_self)
    have hfree' : ∀ x ∈ raw, ∀ k, x.offset ≤ k → k < x.stop →
        blockMap.Gap (insertExtentSorted exts e) k := by
      intro x hx k hlo hhi y hy hyk
      rcases (hmaps k _ _).mp ⟨y, hy, hyk, rfl⟩ with hold | hnew
      · obtain ⟨z, hz, hzk, -⟩ := hold
        exact hfree x (List.mem_cons_of_mem _ hx) k hlo hhi z hz hzk
      · have hk := (maps_single.mp hnew).1.2
        have hle : e.stop ≤ x.offset := hfirst x hx
        omega
    obtain ⟨hsorted', hmaps'⟩ := ih hsorted hrest hfree'
    refine ⟨hsorted', ?_⟩
    intro k p f
    rw [insertAll, List.foldl_cons, ← insertAll, hmaps', hmaps, or_assoc, ← maps_append]
    exact Iff.rfl

/-- A list that is in order is only joined. -/
theorem insertAll_nil_spec (hraw : Sorted raw) :
    Sorted (insertAll [] raw) ∧ ∀ k p f, Maps (insertAll [] raw) k p f ↔ Maps raw k p f := by
  obtain ⟨hsorted, hmaps⟩ := insertAll_spec raw Pieces.ordered_nil hraw (by simp [Pieces.Gap])
  exact ⟨hsorted, fun k p f => (hmaps k p f).trans (or_iff_right Pieces.at_nil)⟩

/-! ### Cutting -/

variable {m n g S L : ℕ}

theorem maps_beforeBlock : Maps (beforeBlock e m g) k p f ↔
    (e.offset ≤ k ∧ k < m) ∧ e.place k = p ∧ g = f := by
  unfold beforeBlock
  split_ifs with hlt
  · rw [maps_single]
    simp only [Extent.stop, Extent.place]
    omega
  · refine iff_of_false Pieces.at_nil ?_
    omega

theorem maps_fromBlock (hm : e.offset ≤ m) : Maps (fromBlock e m n g) k p f ↔
    (n ≤ k ∧ k + m < e.stop + n) ∧ e.place (k - n + m) = p ∧ g = f := by
  unfold fromBlock
  split_ifs with hlt
  · rw [maps_single]
    simp only [Extent.stop, Extent.place] at hlt ⊢
    omega
  · refine iff_of_false Pieces.at_nil ?_
    omega

theorem sorted_beforeBlock : Sorted (beforeBlock e m g) := by
  unfold beforeBlock
  split_ifs with hlt
  · exact sorted_single (Nat.sub_pos_of_lt hlt)
  · exact Pieces.ordered_nil

theorem sorted_fromBlock : Sorted (fromBlock e m n g) := by
  unfold fromBlock
  split_ifs with hlt
  · exact sorted_single (Nat.sub_pos_of_lt hlt)
  · exact Pieces.ordered_nil

/-- Both parts of a cut, the second one put no earlier than where the first one ends. -/
theorem sorted_cut {g' : ℕ} (hmn : m ≤ n) {i : ℕ} :
    Sorted (beforeBlock e m g ++ fromBlock e i n g') := by
  refine Pieces.ordered_append.mpr ⟨sorted_beforeBlock, sorted_fromBlock, ?_⟩
  intro x hx y hy
  unfold beforeBlock at hx
  unfold fromBlock at hy
  split_ifs at hx hy with hlt hlt'
  · rw [List.mem_singleton] at hx hy
    subst hx hy
    change e.offset + (m - e.offset) ≤ n
    omega
  all_goals simp at hx hy

/-- A list cut extent by extent says what the cuts of its extents say. -/
theorem maps_flatMap {cut : Extent → List Extent} {P : Prop} {k' : ℕ}
    (h : ∀ e ∈ exts, (Maps (cut e) k p f ↔ P ∧ Maps [e] k' p f)) :
    Maps (exts.flatMap cut) k p f ↔ P ∧ Maps exts k' p f := by
  rw [Maps, Pieces.at_flatMap]
  constructor
  · rintro ⟨e, he, hcut⟩
    obtain ⟨hP, hmaps⟩ := (h e he).mp hcut
    obtain ⟨hk, hval⟩ := maps_single.mp hmaps
    exact ⟨hP, e, he, hk, val_eq_iff.mpr hval⟩
  · rintro ⟨hP, e, he, hk, hval⟩
    exact ⟨e, he, (h e he).mpr ⟨hP, maps_single.mpr ⟨hk, val_eq_iff.mp hval⟩⟩⟩

theorem maps_keepOutside :
    Maps (keepOutside m n e) k p f ↔ ¬(m ≤ k ∧ k < n) ∧ Maps [e] k p f := by
  unfold keepOutside
  split_ifs with hout
  · rw [maps_single]
    omega
  · rw [maps_append, maps_beforeBlock, maps_fromBlock (by rw [Extent.stop]; omega), maps_single,
      Nat.sub_add_eq_max]
    simp only [Extent.place]
    omega

theorem mem_beforeBlock (hx : x ∈ beforeBlock e m g) :
    x.offset = e.offset ∧ x.stop = m ∧ x.phys = e.phys ∧ x.flags = g := by
  unfold beforeBlock at hx
  split_ifs at hx with hlt
  · rw [List.mem_singleton] at hx
    subst hx
    refine ⟨rfl, ?_, rfl, rfl⟩
    simp only [Extent.stop]
    omega
  · exact absurd hx List.not_mem_nil

theorem mem_fromBlock (hx : x ∈ fromBlock e m n g) :
    x.offset = n ∧ x.stop + m = n + e.stop ∧ x.phys = e.phys + (m - e.offset) ∧ x.flags = g := by
  unfold fromBlock at hx
  split_ifs at hx with hlt
  · rw [List.mem_singleton] at hx
    subst hx
    refine ⟨rfl, ?_, rfl, rfl⟩
    simp only [Extent.stop] at hlt ⊢
    omega
  · exact absurd hx List.not_mem_nil

theorem sorted_keepOutside (hmn : m ≤ n) (he : e.offset < e.stop) : Sorted (keepOutside m n e) := by
  unfold keepOutside
  split_ifs with hout
  · refine sorted_single ?_
    rw [Extent.stop] at he
    omega
  · apply sorted_cut
    omega

theorem within_keepOutside (hx : x ∈ keepOutside m n e) (he : e.offset < e.stop) :
    e.offset ≤ x.offset ∧ x.stop ≤ e.stop := by
  unfold keepOutside at hx
  split_ifs at hx with hout
  · rw [List.mem_singleton.mp hx]
    exact ⟨le_rfl, le_rfl⟩
  · rcases List.mem_append.mp hx with hx | hx
    · have := mem_beforeBlock hx
      omega
    · have := mem_fromBlock hx
      omega

theorem freeExtentRange_spec (hs : Sorted exts) (hmn : m ≤ n) :
    Sorted (freeExtentRange exts m n).1 ∧
      ∀ k p f, Maps (freeExtentRange exts m n).1 k p f ↔ ¬(m ≤ k ∧ k < n) ∧ Maps exts k p f := by
  refine ⟨?_, fun k p f => maps_flatMap fun e _ => maps_keepOutside⟩
  apply Pieces.ordered_flatMap hs
  · intro e he
    exact sorted_keepOutside hmn (hs.nonempty e he)
  · intro a ha b hb hab x hx y hy
    have hxa := within_keepOutside hx (hs.nonempty a ha)
    have hyb := within_keepOutside hy (hs.nonempty b hb)
    change a.stop ≤ b.offset at hab
    change x.stop ≤ y.offset
    omega

/-- The blocks a list of runs stands for. -/
abbrev runBlocks (runs : List BlockRun) : List ℕ := runs.flatMap BlockRun.blocks

theorem mem_runBetween (hm : e.offset ≤ m) (hphys : e.phys ≠ 0) {b : ℕ} :
    b ∈ runBlocks (runBetween e m n) ↔ ∃ k, (m ≤ k ∧ k < n) ∧ e.place k = b := by
  unfold runBetween
  simp only [Extent.place]
  split_ifs with hlt
  · simp only [runBlocks, List.flatMap_cons, List.flatMap_nil, List.append_nil, BlockRun.blocks,
      List.mem_range'_1]
    constructor
    · intro hb
      exact ⟨b + e.offset - e.phys, by omega, by omega⟩
    · rintro ⟨k, hk, rfl⟩
      omega
  · simp only [runBlocks, List.flatMap_nil, List.not_mem_nil, false_iff]
    rintro ⟨k, hk, -⟩
    omega

theorem runBlocks_flatMap {cut : Extent → List BlockRun} :
    runBlocks (exts.flatMap cut) = exts.flatMap fun e => runBlocks (cut e) := by
  rw [runBlocks, List.flatMap_assoc]

theorem mem_runBlocks_flatMap {cut : Extent → List BlockRun} {P : ℕ → Prop} {b : ℕ}
    (h : ∀ e ∈ exts, (b ∈ runBlocks (cut e) ↔ ∃ k, (e.offset ≤ k ∧ k < e.stop) ∧ P k ∧ e.place k = b)) :
    b ∈ runBlocks (exts.flatMap cut) ↔ ∃ k f, P k ∧ Maps exts k b f := by
  rw [runBlocks_flatMap, List.mem_flatMap]
  constructor
  · rintro ⟨e, he, hb⟩
    obtain ⟨k, hk, hP, hval⟩ := (h e he).mp hb
    exact ⟨k, e.flags, hP, e, he, hk, val_eq_iff.mpr ⟨hval, rfl⟩⟩
  · rintro ⟨k, f, hP, e, he, hk, hval⟩
    exact ⟨e, he, (h e he).mpr ⟨k, hk, hP, (val_eq_iff.mp hval).1⟩⟩

theorem mem_freed_freeExtentRange (hphys : ∀ e ∈ exts, e.phys ≠ 0) {b : ℕ} :
    b ∈ runBlocks (freeExtentRange exts m n).2 ↔ ∃ k f, (m ≤ k ∧ k < n) ∧ Maps exts k b f := by
  apply mem_runBlocks_flatMap
  intro e he
  unfold freeInside
  split_ifs with hout
  · simp only [runBlocks, List.flatMap_nil, List.not_mem_nil, false_iff]
    rintro ⟨k, hk, hin, -⟩
    omega
  · rw [mem_runBetween (le_max_left _ _) (hphys e he)]
    refine exists_congr fun k => ?_
    rw [← and_assoc]
    refine and_congr_left fun _ => ?_
    omega

/-! ### Splitting an unwritten extent -/

theorem eraseP_find? {hit : Extent → Bool} (hs : Sorted exts) (hfind : exts.find? hit = some e) :
    Sorted (exts.eraseP hit) ∧ ∀ k p f, Maps (exts.eraseP hit) k p f ↔
      ¬(e.offset ≤ k ∧ k < e.stop) ∧ Maps exts k p f := by
  obtain ⟨hhit, s, t, rfl, hnone⟩ := List.find?_eq_some_iff_append.mp hfind
  have herase : (s ++ e :: t).eraseP hit = s ++ t := by
    rw [List.eraseP_append_right _ (by simpa using hnone), List.eraseP_cons_of_pos hhit]
  rw [herase]
  obtain ⟨hsl, htl, hcross⟩ := Pieces.ordered_append.mp hs
  obtain ⟨-, hfirst, ht⟩ := Pieces.ordered_cons.mp htl
  refine ⟨Pieces.ordered_append.mpr ⟨hsl, ht, fun a ha b hb =>
    hcross a ha b (List.mem_cons_of_mem _ hb)⟩, ?_⟩
  intro k p f
  rw [maps_append, maps_append, maps_cons]
  constructor
  · rintro (⟨x, hx, hxk, hval⟩ | ⟨x, hx, hxk, hval⟩)
    · have hle : x.stop ≤ e.offset := hcross x hx e List.mem_cons_self
      have hlt : k < x.stop := hxk.2
      exact ⟨by omega, .inl ⟨x, hx, hxk, hval⟩⟩
    · have hle : e.stop ≤ x.offset := hfirst x hx
      have hlt : x.offset ≤ k := hxk.1
      exact ⟨by omega, .inr (.inr ⟨x, hx, hxk, hval⟩)⟩
  · rintro ⟨hout, h | ⟨hin, -⟩ | h⟩
    · exact .inl h
    · exact absurd hin hout
    · exact .inr h

theorem maps_splitParts (hm : e.offset ≤ m ∧ m < e.stop) : Maps (splitParts e m) k p f ↔
    (e.offset ≤ k ∧ k < e.stop) ∧ e.place k = p ∧
      (if k = m then 0 else extentFlagUnwritten) = f := by
  rw [splitParts, maps_append, maps_append, maps_beforeBlock, maps_single,
    maps_fromBlock (by omega)]
  simp only [Extent.place, Extent.stop] at hm ⊢
  split_ifs with heq
  · subst heq
    omega
  · have hsame : k - (m + 1) + (m + 1) = max k (m + 1) := by omega
    rw [hsame]
    omega

theorem sorted_splitParts : Sorted (splitParts e m) := by
  refine Pieces.ordered_append.mpr ⟨Pieces.ordered_append.mpr ⟨sorted_beforeBlock,
    sorted_single Nat.one_pos, ?_⟩, sorted_fromBlock, ?_⟩
  · intro x hx y hy
    rw [List.mem_singleton] at hy
    subst hy
    exact (mem_beforeBlock hx).2.1.le
  · intro x hx y hy
    change x.stop ≤ y.offset
    rw [(mem_fromBlock hy).1]
    rcases List.mem_append.mp hx with hx | hx
    · have := mem_beforeBlock hx
      omega
    · rw [List.mem_singleton] at hx
      subst hx
      exact le_rfl

theorem find?_sameStart (hs : Sorted exts) (hext : ext ∈ exts) :
    exts.find? (sameStart ext) = some ext := by
  have hlt : ext.offset < ext.stop := hs.nonempty ext hext
  cases hfind : exts.find? (sameStart ext) with
  | none =>
    have := List.find?_eq_none.mp hfind ext hext
    simp [sameStart] at this
  | some x =>
    have hhit := List.find?_some hfind
    simp only [sameStart, decide_eq_true_eq] at hhit
    have hoff : x.offset = ext.offset := hhit.1
    have hx : x ∈ exts := List.mem_of_find?_eq_some hfind
    have hxlt : x.offset < x.stop := hs.nonempty x hx
    have hhas : blockMap.Has x ext.offset := has_iff.mpr ⟨hoff.le, by omega⟩
    rw [hs.eq_of_has hx hext hhas ⟨le_rfl, hlt⟩]

/-- The write of one block of an unwritten extent: that block is written now, the others
of the extent stay where they are and unwritten. -/
theorem splitUnwrittenAt_spec (hs : Sorted exts) (hext : ext ∈ exts)
    (hm : ext.offset ≤ m ∧ m < ext.stop) (hflags : ext.flags = extentFlagUnwritten) :
    Sorted (splitUnwrittenAt exts ext m) ∧ ∀ k p f, Maps (splitUnwrittenAt exts ext m) k p f ↔
      k = m ∧ p = ext.place m ∧ f = 0 ∨ k ≠ m ∧ Maps exts k p f := by
  have hfind := find?_sameStart hs hext
  obtain ⟨hrest, hrestMaps⟩ := eraseP_find? hs hfind
  unfold splitUnwrittenAt
  simp only [hfind]
  set rest := exts.eraseP (sameStart ext)
  have hfree : ∀ e ∈ splitParts ext m, ∀ k, e.offset ≤ k → k < e.stop → blockMap.Gap rest k := by
    intro e he k hlo hhi x hx hxk
    have hin := ((maps_splitParts hm).mp ⟨e, he, ⟨hlo, hhi⟩, rfl⟩).1
    exact ((hrestMaps k _ _).mp ⟨x, hx, hxk, rfl⟩).1 hin
  obtain ⟨hsorted, hmaps⟩ := insertAll_spec _ hrest sorted_splitParts hfree
  refine ⟨hsorted, ?_⟩
  intro k p f
  rw [hmaps, hrestMaps, maps_splitParts hm]
  by_cases hin : ext.offset ≤ k ∧ k < ext.stop
  · -- inside the extent the list had its blocks, unwritten
    have hold : Maps exts k p f ↔ ext.place k = p ∧ extentFlagUnwritten = f := by
      constructor
      · rintro ⟨x, hx, hxk, hval⟩
        obtain rfl := hs.eq_of_has hx hext hxk hin
        rw [← hflags]
        exact val_eq_iff.mp hval
      · intro hval
        exact ⟨ext, hext, hin, val_eq_iff.mpr (hflags ▸ hval)⟩
    rw [hold]
    by_cases heq : k = m
    · subst heq
      simp only [hin, not_true_eq_false, false_and, false_or, true_and, if_true, ne_eq,
        or_false, eq_comm]
    · simp only [hin, not_true_eq_false, false_and, false_or, true_and, heq, if_false, ne_eq,
        not_false_eq_true]
  · have hne : k ≠ m := by
      rintro rfl
      exact hin hm
    simp only [hin, not_false_eq_true, true_and, false_and, or_false, hne, false_or, ne_eq]

/-! ### Shifting -/

theorem maps_collapseExtent : Maps (collapseExtent S L e) k p f ↔
    k < S ∧ Maps [e] k p f ∨ S ≤ k ∧ Maps [e] (k + L) p f := by
  unfold collapseExtent
  simp only [maps_single]
  split_ifs with hleft hright hin
  · rw [maps_single]
    omega
  · rw [maps_single]
    simp only [Extent.stop, Extent.place] at *
    omega
  · refine iff_of_false Pieces.at_nil ?_
    omega
  · rw [maps_append, maps_beforeBlock, maps_fromBlock (by omega)]
    have hbefore : (e.offset ≤ k ∧ k < S) ↔ k < S ∧ (e.offset ≤ k ∧ k < e.stop) := by omega
    have hfrom : (S ≤ k ∧ k + (S + L) < e.stop + S) ↔
        S ≤ k ∧ (e.offset ≤ k + L ∧ k + L < e.stop) := by omega
    rw [hbefore, hfrom, and_assoc, and_assoc (a := S ≤ k)]
    refine or_congr_right (and_congr_right fun hk => ?_)
    rw [show k - S + (S + L) = k + L by omega]

theorem sorted_collapseExtent (he : e.offset < e.stop) : Sorted (collapseExtent S L e) := by
  have hlen : 0 < e.len := by
    rw [Extent.stop] at he
    omega
  unfold collapseExtent
  split_ifs with hleft hright hin
  · exact sorted_single hlen
  · exact sorted_single hlen
  · exact Pieces.ordered_nil
  · exact sorted_cut le_rfl

theorem within_collapseExtent (hx : x ∈ collapseExtent S L e) :
    min e.offset (max S (e.offset - L)) ≤ x.offset ∧ x.stop ≤ max (min e.stop S) (e.stop - L) := by
  unfold collapseExtent at hx
  split_ifs at hx with hleft hright hin
  · rw [List.mem_singleton.mp hx]
    omega
  · rw [List.mem_singleton.mp hx]
    simp only [Extent.stop] at *
    omega
  · exact absurd hx List.not_mem_nil
  · rcases List.mem_append.mp hx with hx | hx
    · have := mem_beforeBlock hx
      omega
    · have := mem_fromBlock hx
      omega

/-- A collapse cuts the range out of the map. -/
theorem shiftDown_spec (hs : Sorted exts) :
    Sorted (shiftDown exts S L).1 ∧ ∀ k p f, Maps (shiftDown exts S L).1 k p f ↔
      k < S ∧ Maps exts k p f ∨ S ≤ k ∧ Maps exts (k + L) p f := by
  have hraw : Sorted (exts.flatMap (collapseExtent S L)) := by
    apply Pieces.ordered_flatMap hs
    · intro e he
      exact sorted_collapseExtent (hs.nonempty e he)
    · intro a ha b hb hab x hx y hy
      have hcut : max (min a.stop S) (a.stop - L) ≤ min b.offset (max S (b.offset - L)) := by
        refine le_min (max_le ?_ ?_) (max_le ?_ ?_)
        · exact (min_le_left _ _).trans hab
        · exact (Nat.sub_le _ _).trans hab
        · exact (min_le_right _ _).trans (le_max_left _ _)
        · exact (Nat.sub_le_sub_right hab L).trans (le_max_right _ _)
      exact (within_collapseExtent hx).2.trans (hcut.trans (within_collapseExtent hy).1)
  obtain ⟨hsorted, hmaps⟩ := insertAll_nil_spec hraw
  refine ⟨hsorted, ?_⟩
  intro k p f
  refine (hmaps k p f).trans ?_
  by_cases hk : k < S
  · have hcut : Maps (exts.flatMap (collapseExtent S L)) k p f ↔ k < S ∧ Maps exts k p f :=
      maps_flatMap fun e _ => maps_collapseExtent.trans (or_iff_left fun h => by omega)
    rw [hcut, or_iff_left fun h => by omega]
  · have hcut : Maps (exts.flatMap (collapseExtent S L)) k p f ↔ S ≤ k ∧ Maps exts (k + L) p f :=
      maps_flatMap fun e _ => maps_collapseExtent.trans (or_iff_right fun h => hk h.1)
    rw [hcut, or_iff_right fun h => hk h.1]

/-- A collapse frees what the removal of the range would free. -/
theorem collapseFreed_eq (he : e.offset < e.stop) :
    collapseFreed S L e = freeInside S (S + L) e := by
  unfold collapseFreed freeInside
  by_cases hleft : e.stop ≤ S
  · rw [if_pos hleft, if_pos (.inl hleft)]
  rw [if_neg hleft]
  by_cases hright : S + L ≤ e.offset
  · rw [if_pos hright, if_pos (.inr hright)]
  have hover : ¬(e.stop ≤ S ∨ S + L ≤ e.offset) := by omega
  rw [if_neg hright, if_neg hover]
  by_cases hin : S ≤ e.offset ∧ e.stop ≤ S + L
  · rw [if_pos hin, max_eq_left hin.1, min_eq_left hin.2, runBetween]
    by_cases hphys : e.phys ≠ 0
    · rw [if_pos hphys, if_pos ⟨hphys, he⟩, Nat.sub_self, Nat.add_zero]
    · rw [if_neg hphys, if_neg fun h => hphys h.1]
  · rw [if_neg hin]

theorem freed_shiftDown (hs : Sorted exts) :
    (shiftDown exts S L).2 = (freeExtentRange exts S (S + L)).2 :=
  List.flatMap_congr fun e he => collapseFreed_eq (hs.nonempty e he)

theorem maps_spreadExtent : Maps (spreadExtent S L e) k p f ↔
    k < S ∧ Maps [e] k p f ∨ S + L ≤ k ∧ Maps [e] (k - L) p f := by
  unfold spreadExtent
  simp only [maps_single]
  split_ifs with hleft hright
  · rw [maps_single]
    omega
  · rw [maps_single]
    simp only [Extent.stop, Extent.place] at *
    omega
  · rw [maps_cons, maps_single]
    simp only [Extent.stop, Extent.place] at *
    omega

theorem sorted_spreadExtent (he : e.offset < e.stop) : Sorted (spreadExtent S L e) := by
  have hlen : 0 < e.len := by
    rw [Extent.stop] at he
    omega
  unfold spreadExtent
  split_ifs with hleft hright
  · exact sorted_single hlen
  · exact sorted_single hlen
  · refine Pieces.ordered_cons.mpr ⟨?_, ?_, sorted_single (Nat.sub_pos_of_lt (by omega))⟩
    · change e.offset < e.offset + (S - e.offset)
      omega
    · intro x hx
      rw [List.mem_singleton.mp hx]
      change e.offset + (S - e.offset) ≤ S + L
      omega

theorem within_spreadExtent (hx : x ∈ spreadExtent S L e) :
    (e.offset ≤ x.offset ∧ (S ≤ e.offset → e.stop ≤ S ∨ e.offset + L ≤ x.offset)) ∧
      x.stop ≤ e.stop + L ∧ (e.stop ≤ S → x.stop ≤ e.stop) := by
  unfold spreadExtent at hx
  split_ifs at hx with hleft hright
  · rw [List.mem_singleton.mp hx]
    omega
  · rw [List.mem_singleton.mp hx]
    simp only [Extent.stop] at *
    omega
  · rcases List.mem_cons.mp hx with rfl | hx
    · simp only [Extent.stop] at *
      omega
    · rw [List.mem_singleton.mp hx]
      simp only [Extent.stop] at *
      omega

/-- An insertion moves what lies at or behind the point. -/
theorem shiftUp_spec (hs : Sorted exts) :
    Sorted (shiftUp exts S L) ∧ ∀ k p f, Maps (shiftUp exts S L) k p f ↔
      k < S ∧ Maps exts k p f ∨ S + L ≤ k ∧ Maps exts (k - L) p f := by
  have hraw : Sorted (exts.flatMap (spreadExtent S L)) := by
    apply Pieces.ordered_flatMap hs
    · intro e he
      exact sorted_spreadExtent (hs.nonempty e he)
    · intro a ha b hb hab x hx y hy
      have hxa := within_spreadExtent hx
      have hyb := within_spreadExtent hy
      have hlt : b.offset < b.stop := hs.nonempty b hb
      change a.stop ≤ b.offset at hab
      change x.stop ≤ y.offset
      omega
  obtain ⟨hsorted, hmaps⟩ := insertAll_nil_spec hraw
  refine ⟨hsorted, ?_⟩
  intro k p f
  refine (hmaps k p f).trans ?_
  by_cases hk : k < S
  · have hcut : Maps (exts.flatMap (spreadExtent S L)) k p f ↔ k < S ∧ Maps exts k p f :=
      maps_flatMap fun e _ => maps_spreadExtent.trans (or_iff_left fun h => by omega)
    rw [hcut, or_iff_left fun h => by omega]
  · have hcut : Maps (exts.flatMap (spreadExtent S L)) k p f ↔
        S + L ≤ k ∧ Maps exts (k - L) p f :=
      maps_flatMap fun e _ => maps_spreadExtent.trans (or_iff_right fun h => hk h.1)
    rw [hcut, or_iff_right fun h => hk h.1]

/-! ### Looking up -/

theorem lookupExtent_eq_none (hs : Sorted exts) :
    lookupExtent exts k = none ↔ ∀ p f, ¬Maps exts k p f := by
  rw [lookupExtent, hs.locate_eq_none]
  constructor
  · rintro hgap p f ⟨x, hx, hxk, -⟩
    exact hgap x hx hxk
  · intro hnone x hx hxk
    exact hnone _ _ ⟨x, hx, hxk, rfl⟩

theorem maps_of_mem (he : e ∈ exts) (hk : e.offset ≤ k ∧ k < e.stop) :
    Maps exts k (e.place k) e.flags := ⟨e, he, hk, rfl⟩

end File

end Briefs
