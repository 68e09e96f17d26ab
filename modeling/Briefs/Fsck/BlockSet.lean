import Briefs.Lib.Maximal
import Briefs.Lib.Search

/-!
# The set of used blocks

`cmd/fsck/blockset.go`: ranges of blocks are collected and, before the set is read, sorted
and joined. Ends and counts are 64-bit numbers. `sort.Slice` may leave ranges with one start
in any order, so it is any function that sorts.
-/

namespace Briefs.Fsck

open Lib

/-- `blockInterval`: the blocks from `start` up to, not including, `stop`. -/
structure BlockInterval where
  start : ℕ
  stop : ℕ
  deriving DecidableEq

structure BlockSet where
  pending : List BlockInterval := []
  merged : List BlockInterval := []
  blocks : ℕ := 0

/-- `sort.Slice` by the start. -/
structure SliceSort where
  sort : List BlockInterval → List BlockInterval
  perm : ∀ l, (sort l).Perm l
  sorted : ∀ l, (sort l).Pairwise fun i j => i.start ≤ j.start

/-- The loop of `fold` over the ranges left; `cur` is the last one of `dst`. -/
def coalesceFrom (cur : BlockInterval) : List BlockInterval → List BlockInterval
  | [] => [cur]
  | iv :: rest =>
    if iv.start ≤ cur.stop then
      coalesceFrom (if cur.stop < iv.stop then { cur with stop := iv.stop } else cur) rest
    else cur :: coalesceFrom iv rest

def coalesce : List BlockInterval → List BlockInterval
  | [] => []
  | iv :: rest => coalesceFrom iv rest

namespace BlockSet

variable (σ : SliceSort) (s : BlockSet)

def mark (b : ℕ) : BlockSet := { s with pending := s.pending ++ [⟨b, (b + 1) % 2 ^ 64⟩] }

def markRange (start n : ℕ) : BlockSet :=
  if n = 0 then s else { s with pending := s.pending ++ [⟨start, (start + n) % 2 ^ 64⟩] }

def fold : BlockSet :=
  if s.pending = [] then s
  else
    let dst := coalesce (σ.sort (s.merged ++ s.pending))
    { pending := []
      merged := dst
      blocks := (dst.map fun iv => iv.stop + 2 ^ 64 - iv.start).sum % 2 ^ 64 }

/-- `has`, once the set is folded. -/
def member (b : ℕ) : Bool :=
  match s.merged[search s.merged fun iv => decide (b < iv.stop)]? with
  | some iv => decide (iv.start ≤ b)
  | none => false

/-- `each`, once the set is folded: the blocks it is called with. -/
def elements : List ℕ := s.merged.flatMap fun iv => List.range' iv.start (iv.stop - iv.start)

end BlockSet

inductive SetCall
  | mark (b : ℕ)
  | markRange (start n : ℕ)
  | has (b : ℕ)
  | count
  | each
  | eachRange

inductive SetAnswer
  | nothing
  | found (b : Bool)
  | number (n : ℕ)
  | blocks (l : List ℕ)
  | ranges (l : List BlockInterval)

def BlockSet.call (σ : SliceSort) (s : BlockSet) : SetCall → SetAnswer × BlockSet
  | .mark b => (.nothing, s.mark b)
  | .markRange start n => (.nothing, s.markRange start n)
  | .has b => (.found ((s.fold σ).member b), s.fold σ)
  | .count => (.number (s.fold σ).blocks, s.fold σ)
  | .each => (.blocks (s.fold σ).elements, s.fold σ)
  | .eachRange => (.ranges (s.fold σ).merged, s.fold σ)

def BlockSet.after (σ : SliceSort) (calls : List SetCall) : BlockSet :=
  calls.foldl (fun s c => (s.call σ c).2) {}

namespace SetCall

/-- The end of the range does not overflow. -/
def Fits : SetCall → Prop
  | .mark b => b + 1 < 2 ^ 64
  | .markRange start n => start + n < 2 ^ 64
  | _ => True

def marked : SetCall → Finset ℕ
  | .mark b => {b}
  | .markRange start n => Finset.Ico start (start + n)
  | _ => ∅

def allMarked (calls : List SetCall) : Finset ℕ := calls.foldl (fun S c => S ∪ c.marked) ∅

end SetCall

/-- The answer of a set of blocks. -/
def SetAnswer.Right (S : Finset ℕ) : SetCall → SetAnswer → Prop
  | .mark _, .nothing => True
  | .markRange _ _, .nothing => True
  | .has b, .found r => r = decide (b ∈ S)
  | .count, .number n => n = S.card
  | .each, .blocks l => l.Pairwise (· < ·) ∧ ∀ b, b ∈ l ↔ b ∈ S
  | .eachRange, .ranges l => l.Pairwise (fun i j => i.stop < j.start) ∧
      ∀ iv, iv ∈ l ↔ iv.start < iv.stop ∧
        MaximalRun (fun b => decide (b ∈ S)) (iv.start, iv.stop - iv.start)
  | _, _ => False

section Fold

variable {σ : SliceSort} {s : BlockSet} {S : Finset ℕ} {l : List BlockInterval}
  {cur : BlockInterval} {b : ℕ}

def Covers (l : List BlockInterval) (b : ℕ) : Prop := ∃ iv ∈ l, iv.start ≤ b ∧ b < iv.stop

theorem covers_cons : Covers (cur :: l) b ↔ (cur.start ≤ b ∧ b < cur.stop) ∨ Covers l b := by
  simp only [Covers, List.exists_mem_cons_iff]

/-- The ranges have gaps between them and hold the blocks of `S`. -/
structure Joined (S : Finset ℕ) (l : List BlockInterval) : Prop where
  nonempty : ∀ iv ∈ l, iv.start < iv.stop
  apart : l.Pairwise fun i j => i.stop < j.start
  mem : ∀ b, b ∈ S ↔ Covers l b

/-- Order, bounds and blocks of what the loop leaves, by one induction over the ranges. -/
theorem coalesceFrom_spec (hcur : cur.start < cur.stop)
    (hl : ∀ iv ∈ l, cur.start ≤ iv.start ∧ iv.start < iv.stop)
    (hsorted : l.Pairwise fun i j => i.start ≤ j.start) :
    (coalesceFrom cur l).Pairwise (fun i j => i.stop < j.start) ∧
      (∀ iv ∈ coalesceFrom cur l, cur.start ≤ iv.start ∧ iv.start < iv.stop) ∧
      ∀ b, Covers (coalesceFrom cur l) b ↔ Covers (cur :: l) b := by
  induction l generalizing cur with
  | nil => exact ⟨List.pairwise_singleton _ _, by simpa [coalesceFrom] using hcur, fun b => Iff.rfl⟩
  | cons iv rest ih =>
    obtain ⟨hiv, hrest⟩ := List.forall_mem_cons.mp hl
    obtain ⟨hfirst, hsorted⟩ := List.pairwise_cons.mp hsorted
    rw [coalesceFrom]
    by_cases hjoin : iv.start ≤ cur.stop
    · rw [if_pos hjoin]
      set grown := if cur.stop < iv.stop then { cur with stop := iv.stop } else cur with hgrown
      have hstart : grown.start = cur.start := by rw [hgrown]; split_ifs <;> rfl
      have hstop : grown.stop = max cur.stop iv.stop := by
        rw [hgrown]
        split_ifs with hlt
        · exact (max_eq_right hlt.le).symm
        · exact (max_eq_left (Nat.le_of_not_lt hlt)).symm
      have hgrow : grown.start < grown.stop := by omega
      obtain ⟨hapart, hbounds, hmem⟩ := ih hgrow (fun j hj => hstart.symm ▸ hrest j hj) hsorted
      refine ⟨hapart, fun j hj => hstart ▸ hbounds j hj, fun b => (hmem b).trans ?_⟩
      rw [covers_cons, covers_cons, covers_cons, hstart, hstop, ← or_assoc]
      refine or_congr_left ?_
      omega
    · rw [if_neg hjoin]
      obtain ⟨hapart, hbounds, hmem⟩ := ih hiv.2
        (fun j hj => ⟨hfirst j hj, (hrest j hj).2⟩) hsorted
      refine ⟨List.pairwise_cons.mpr ⟨fun j hj => ?_, hapart⟩,
        List.forall_mem_cons.mpr ⟨⟨le_rfl, hcur⟩, fun j hj => ?_⟩, fun b => ?_⟩
      · have := (hbounds j hj).1
        omega
      · have := hbounds j hj
        omega
      · rw [covers_cons, hmem b, covers_cons (l := iv :: rest)]

theorem joined_coalesce (hl : ∀ iv ∈ l, iv.start < iv.stop)
    (hsorted : l.Pairwise fun i j => i.start ≤ j.start)
    (hmem : ∀ b, b ∈ S ↔ Covers l b) : Joined S (coalesce l) := by
  cases l with
  | nil => exact ⟨hl, List.Pairwise.nil, hmem⟩
  | cons iv rest =>
    obtain ⟨hiv, hrest⟩ := List.forall_mem_cons.mp hl
    obtain ⟨hfirst, hsorted⟩ := List.pairwise_cons.mp hsorted
    obtain ⟨hapart, hbounds, hsame⟩ := coalesceFrom_spec hiv
      (fun j hj => ⟨hfirst j hj, hrest j hj⟩) hsorted
    exact ⟨fun j hj => (hbounds j hj).2, hapart, fun b => (hmem b).trans (hsame b).symm⟩

/-- The set stands for the blocks of `S`. -/
structure Holds (S : Finset ℕ) (s : BlockSet) : Prop where
  below : ∀ b ∈ S, b < 2 ^ 64 - 1
  nonempty : ∀ iv ∈ s.merged ++ s.pending, iv.start < iv.stop
  apart : s.merged.Pairwise fun i j => i.stop < j.start
  blocks : s.blocks = (s.merged.map fun iv => iv.stop + 2 ^ 64 - iv.start).sum % 2 ^ 64
  mem : ∀ b, b ∈ S ↔ Covers (s.merged ++ s.pending) b

theorem Holds.fold (h : Holds S s) : Holds S (s.fold σ) ∧ Joined S (s.fold σ).merged := by
  unfold BlockSet.fold
  split_ifs with hpending
  · have hnonempty := h.nonempty
    have hmem := h.mem
    rw [hpending, List.append_nil] at hnonempty hmem
    exact ⟨h, hnonempty, h.apart, hmem⟩
  · have hjoined : Joined S (coalesce (σ.sort (s.merged ++ s.pending))) := by
      refine joined_coalesce (fun iv hiv => ?_) (σ.sorted _) fun b => ?_
      · exact h.nonempty iv ((σ.perm _).mem_iff.mp hiv)
      · simp only [h.mem b, Covers, (σ.perm _).mem_iff]
    refine ⟨⟨h.below, ?_, hjoined.apart, rfl, ?_⟩, hjoined⟩
    · rw [List.append_nil]
      exact hjoined.nonempty
    · rw [List.append_nil]
      exact hjoined.mem

/-- A range is added. -/
theorem Holds.add {start stop : ℕ} (h : Holds S s) (hlt : start < stop) (hstop : stop < 2 ^ 64) :
    Holds (S ∪ Finset.Ico start stop) { s with pending := s.pending ++ [⟨start, stop⟩] } := by
  refine ⟨fun b hb => ?_, ?_, h.apart, h.blocks, fun b => ?_⟩
  · rcases Finset.mem_union.mp hb with hb | hb
    · exact h.below b hb
    · have := Finset.mem_Ico.mp hb
      omega
  · rw [← List.append_assoc]
    exact List.forall_mem_append.mpr ⟨h.nonempty, by simpa using hlt⟩
  · rw [← List.append_assoc, Finset.mem_union, Finset.mem_Ico, h.mem]
    simp only [Covers, List.mem_append, List.mem_singleton, or_and_right, exists_or, exists_eq_left]

theorem Holds.call (h : Holds S s) {c : SetCall} (hc : c.Fits) :
    Holds (S ∪ c.marked) (s.call σ c).2 := by
  cases c with
  | mark b =>
    have hadd := h.add (Nat.lt_succ_self b) hc
    rw [Nat.Ico_succ_singleton] at hadd
    rw [BlockSet.call, BlockSet.mark, Nat.mod_eq_of_lt hc]
    exact hadd
  | markRange start n =>
    rw [BlockSet.call, BlockSet.markRange, Nat.mod_eq_of_lt hc]
    split_ifs with hn
    · rw [hn, SetCall.marked, Nat.add_zero, Finset.Ico_self, Finset.union_empty]
      exact h
    · exact h.add (by omega) hc
  | _ => exact (Finset.union_empty S).symm ▸ h.fold.1

theorem holds_after {calls : List SetCall} (h : ∀ c ∈ calls, c.Fits) :
    Holds (SetCall.allMarked calls) (BlockSet.after σ calls) := by
  induction calls using List.reverseRecOn with
  | nil => exact ⟨by simp [SetCall.allMarked], by simp [BlockSet.after], List.Pairwise.nil, rfl,
      by simp [SetCall.allMarked, BlockSet.after, Covers]⟩
  | append_singleton calls c ih =>
    obtain ⟨hcalls, hc⟩ := List.forall_mem_append.mp h
    rw [SetCall.allMarked, BlockSet.after, List.foldl_concat, List.foldl_concat]
    exact (ih hcalls).call (hc c (List.mem_singleton_self c))

end Fold

section Answers

variable {σ : SliceSort} {s : BlockSet} {S : Finset ℕ}

theorem Joined.member_eq (h : Joined S s.merged) (b : ℕ) : s.member b = decide (b ∈ S) := by
  have hup : Upward (fun iv : BlockInterval => decide (b < iv.stop)) s.merged := by
    refine h.apart.imp_of_mem ?_
    intro i j _ hj hij hb
    have := h.nonempty j hj
    simp only [decide_eq_true_eq] at hb ⊢
    omega
  have hbefore := forall_take_search hup
  have hbehind := forall_drop_search hup
  unfold BlockSet.member
  set k := search s.merged fun iv => decide (b < iv.stop)
  have hsplit := List.take_append_drop k s.merged
  have hhead : s.merged[k]? = (s.merged.drop k).head? := List.head?_drop.symm
  have hmem : b ∈ S ↔ Covers (s.merged.drop k) b := by
    rw [h.mem b]
    conv_lhs => rw [← hsplit]
    refine ⟨?_, fun ⟨iv, hiv, hb⟩ => ⟨iv, List.mem_append_right _ hiv, hb⟩⟩
    rintro ⟨iv, hiv, hb⟩
    rcases List.mem_append.mp hiv with hiv | hiv
    · have := hbefore iv hiv
      simp only [decide_eq_false_iff_not] at this
      omega
    · exact ⟨iv, hiv, hb⟩
  have hapart := h.apart.sublist (List.drop_sublist k s.merged)
  rw [hhead]
  cases hdrop : s.merged.drop k with
  | nil =>
    rw [hdrop] at hmem
    simpa [Covers] using hmem
  | cons iv rest =>
    rw [hdrop] at hmem hbehind hapart
    have hiv := of_decide_eq_true (hbehind iv List.mem_cons_self)
    refine decide_eq_decide.mpr ⟨fun hle => hmem.mpr ⟨iv, List.mem_cons_self, hle, hiv⟩, fun hb => ?_⟩
    obtain ⟨j, hj, hjb⟩ := hmem.mp hb
    rcases List.mem_cons.mp hj with rfl | hj
    · exact hjb.1
    · have := (List.pairwise_cons.mp hapart).1 j hj
      omega

theorem Joined.elements_spec (h : Joined S s.merged) :
    s.elements.Pairwise (· < ·) ∧ ∀ b, b ∈ s.elements ↔ b ∈ S := by
  constructor
  · refine List.pairwise_flatMap.mpr ⟨fun iv _ => List.pairwise_lt_range', ?_⟩
    refine h.apart.imp ?_
    intro i j hij x hx y hy
    have hx := List.mem_range'_1.mp hx
    have hy := List.mem_range'_1.mp hy
    omega
  · intro b
    rw [h.mem b, BlockSet.elements, List.mem_flatMap, Covers]
    simp only [List.mem_range'_1]
    refine exists_congr fun iv => and_congr_right fun _ => ?_
    omega

theorem sum_sizes {l : List BlockInterval} (h : ∀ iv ∈ l, iv.start < iv.stop) :
    (l.map fun iv => iv.stop + 2 ^ 64 - iv.start).sum % 2 ^ 64 =
      (l.flatMap fun iv => List.range' iv.start (iv.stop - iv.start)).length % 2 ^ 64 := by
  induction l with
  | nil => rfl
  | cons iv l ih =>
    obtain ⟨hiv, hl⟩ := List.forall_mem_cons.mp h
    have := ih hl
    rw [List.map_cons, List.sum_cons, List.flatMap_cons, List.length_append, List.length_range']
    omega

theorem Holds.blocks_eq (h : Holds S s) (hjoined : Joined S s.merged) : s.blocks = S.card := by
  obtain ⟨hsorted, hmem⟩ := hjoined.elements_spec
  have hcard : S.card = s.elements.length := by
    rw [← List.toFinset_card_of_nodup (hsorted.imp fun hlt => Nat.ne_of_lt hlt)]
    congr 1
    ext b
    rw [List.mem_toFinset, hmem]
  have hle : S.card ≤ 2 ^ 64 - 1 :=
    (Finset.card_le_card fun b hb => Finset.mem_range.mpr (h.below b hb)).trans_eq
      (Finset.card_range _)
  rw [h.blocks, sum_sizes hjoined.nonempty, ← BlockSet.elements, ← hcard]
  exact Nat.mod_eq_of_lt (by omega)

theorem Joined.maximalRun {l : List BlockInterval} (h : Joined S l) {iv : BlockInterval}
    (hiv : iv ∈ l) : MaximalRun (fun b => decide (b ∈ S)) (iv.start, iv.stop - iv.start) := by
  have hlt := h.nonempty iv hiv
  have hnot : ∀ b, b + 1 = iv.start ∨ b = iv.stop → b ∉ S := by
    intro b hb hmem
    obtain ⟨j, hj, hjb⟩ := (h.mem b).mp hmem
    obtain ⟨front, back, rfl⟩ := List.append_of_mem hiv
    obtain ⟨-, hback, hfront⟩ := List.pairwise_append.mp h.apart
    rcases List.mem_append.mp hj with hj | hj
    · have := hfront j hj iv List.mem_cons_self
      omega
    · rcases List.mem_cons.mp hj with rfl | hj
      · omega
      · have := (List.pairwise_cons.mp hback).1 j hj
        omega
  refine ⟨Nat.sub_pos_of_lt hlt, fun b hlow hhigh => ?_, ?_, ?_⟩
  · refine decide_eq_true ((h.mem b).mpr ⟨iv, hiv, hlow, ?_⟩)
    omega
  · refine (Nat.eq_zero_or_pos iv.start).imp_right fun hpos => decide_eq_false (hnot _ ?_)
    exact .inl (Nat.sub_add_cancel hpos)
  · refine decide_eq_false (hnot _ (.inr ?_))
    omega

theorem Joined.ranges_spec {l : List BlockInterval} (h : Joined S l) (iv : BlockInterval) :
    iv ∈ l ↔ iv.start < iv.stop ∧
      MaximalRun (fun b => decide (b ∈ S)) (iv.start, iv.stop - iv.start) := by
  refine ⟨fun hiv => ⟨h.nonempty iv hiv, h.maximalRun hiv⟩, ?_⟩
  rintro ⟨hlt, hrun⟩
  obtain ⟨j, hj, hlow, hhigh⟩ := (h.mem iv.start).mp (of_decide_eq_true hrun.starts.1)
  have hstart : j.start = iv.start := by
    by_contra hne
    have hpred : iv.start - 1 ∈ S := (h.mem _).mpr ⟨j, hj, by omega, by omega⟩
    rcases hrun.left with hzero | hleft
    · omega
    · exact of_decide_eq_false hleft hpred
  have hsame := congrArg Prod.snd ((h.maximalRun hj).eq hrun hstart)
  have hstop : j.stop = iv.stop := by
    omega
  obtain ⟨a, b⟩ := iv
  obtain ⟨c, d⟩ := j
  obtain ⟨rfl, rfl⟩ : c = a ∧ d = b := ⟨hstart, hstop⟩
  exact hj

/-- After calls whose ranges do not overflow the set answers as the set of the blocks that they
marked, in whatever order equal starts are sorted. -/
theorem blockSet_answers (σ : SliceSort) (calls : List SetCall) (h : ∀ c ∈ calls, c.Fits)
    (c : SetCall) : SetAnswer.Right (SetCall.allMarked calls) c
      ((BlockSet.after σ calls).call σ c).1 := by
  obtain ⟨hfold, hjoined⟩ := (holds_after (σ := σ) h).fold (σ := σ)
  cases c with
  | mark b => trivial
  | markRange start n => trivial
  | has b => exact hjoined.member_eq b
  | count => exact hfold.blocks_eq hjoined
  | each => exact hjoined.elements_spec
  | eachRange => exact ⟨hjoined.apart, hjoined.ranges_spec⟩

def insertionSlice : SliceSort where
  sort l := l.insertionSort fun i j => i.start ≤ j.start
  perm := List.perm_insertionSort _
  sorted l := by
    have : Std.Total fun i j : BlockInterval => i.start ≤ j.start :=
      ⟨fun i j => le_total i.start j.start⟩
    have : IsTrans BlockInterval fun i j => i.start ≤ j.start := ⟨fun i j k => le_trans⟩
    exact List.pairwise_insertionSort _ l

theorem blockSet_answers_sample : SetAnswer.Right {5, 6, 7} .count
    ((BlockSet.after insertionSlice [.markRange 6 2, .each, .mark 5]).call insertionSlice .count).1 :=
  blockSet_answers insertionSlice [.markRange 6 2, .each, .mark 5]
    (by simp [SetCall.Fits]) .count

end Answers

end Briefs.Fsck
