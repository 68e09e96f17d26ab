import Briefs.Journal.Refine
import Briefs.Lib.Run
import Briefs.Lib.Cyclic

/-!
# The live window

A record block is live from the commit that covers it to the checkpoint that
retires it. The window is read off the writes that reached the device, so it
does not depend on what the journal believes. `Filled r d l` is the invariant of
the ring: `d` blocks were written since the last retire and the first `l` of
them are committed.
-/

namespace Briefs.Journal

open Lib

/-- Blocks written since the last checkpoint: those a commit covers, and those
no commit covers yet. -/
structure Window where
  live : List ℕ
  pending : List ℕ
  deriving DecidableEq

def Window.step (w : Window) : Event → Window
  | .record block => { w with pending := w.pending ++ [block] }
  | .superblock .commit _ _ => ⟨w.live ++ w.pending, []⟩
  | .superblock .checkpoint _ _ => ⟨[], []⟩
  | .superblock .allocators _ _ => w
  | .checkpointBlock _ => w

def window (es : List Event) : Window := es.foldl Window.step ⟨[], []⟩

/-- No record-block write hits a block that is live at that moment. -/
def NeverOverwritten (es : List Event) : Prop :=
  ∀ before block after, es = before ++ .record block :: after → block ∉ (window before).live

theorem window_append (es fs : List Event) :
    window (es ++ fs) = fs.foldl Window.step (window es) := by
  simp [window]

@[simp] theorem window_record (es : List Event) (block : ℕ) :
    window (es ++ [.record block]) =
      { window es with pending := (window es).pending ++ [block] } := by
  simp [window_append, Window.step]

theorem neverOverwritten_nil : NeverOverwritten [] := by
  intro before block after h
  simp at h

theorem neverOverwritten_snoc {es : List Event} {e : Event} :
    NeverOverwritten (es ++ [e]) ↔
      NeverOverwritten es ∧ ∀ block, e = .record block → block ∉ (window es).live := by
  constructor
  · intro h
    refine ⟨fun before block after hes => h before block (after ++ [e]) (by simp [hes]), ?_⟩
    rintro block rfl
    exact h es block [] rfl
  · rintro ⟨hinit, hlast⟩ before block after hes
    rcases List.eq_nil_or_concat' after with rfl | ⟨after', e', rfl⟩
    · obtain ⟨rfl, rfl⟩ := by simpa using List.append_inj' hes rfl
      exact hlast block rfl
    · have hsplit : es ++ [e] = (before ++ .record block :: after') ++ [e'] := by simpa using hes
      obtain ⟨rfl, rfl⟩ := by simpa using List.append_inj' hsplit rfl
      exact hinit before block after' rfl

/-- Writes other than record blocks overwrite nothing. -/
theorem neverOverwritten_append {es fs : List Event} (hfs : ∀ block, .record block ∉ fs) :
    NeverOverwritten (es ++ fs) ↔ NeverOverwritten es := by
  induction fs using List.reverseRecOn with
  | nil => simp
  | append_singleton fs e ih =>
    rw [← List.append_assoc, neverOverwritten_snoc, ih fun block h => hfs block (by simp [h])]
    constructor
    · exact fun h => h.1
    · refine fun h => ⟨h, ?_⟩
      rintro block rfl
      exact absurd (by simp) (hfs block)

namespace Ring

/-- Usable blocks of the ring: all but the checkpoint block. -/
def slots (r : Ring) : ℕ := r.stop - r.start - 1

/-- The block reached from `logStart` after `k` record-block writes. -/
def nth (r : Ring) (k : ℕ) : ℕ := r.start + slot r.slots (r.logStart - r.start) k

/-- `d` blocks were written since the last retire, the first `l` are committed. -/
structure Filled (r : Ring) (d l : ℕ) : Prop where
  minSize : journalMinBlocks ≤ r.stop - r.start
  maxSize : r.stop - r.start ≤ journalMaxBlocks
  lo : r.start ≤ r.logStart
  hi : r.logStart + 1 < r.stop
  order : l ≤ d
  lap : d ≤ r.slots
  writePos : r.writePos = r.nth d
  logEnd : r.logEnd = r.nth l
  blocks : r.blocks = d + (r.logStart - r.start + d) / r.slots
  live : (window r.events).live = (List.range l).map r.nth
  pending : (window r.events).pending = (List.range' l (d - l)).map r.nth

variable {r : Ring} {d l : ℕ}

theorem Filled.base_lt (h : r.Filled d l) : r.logStart - r.start < r.slots := by
  have := h.lo
  have := h.hi
  unfold slots
  omega

theorem Filled.nth_zero (h : r.Filled d l) : r.nth 0 = r.logStart := by
  have := h.lo
  rw [nth, slot_zero h.base_lt]
  omega

theorem Filled.usable (h : r.Filled d l) : r.Usable := by
  have hslot : slot r.slots (r.logStart - r.start) d < r.slots :=
    slot_lt (Nat.zero_lt_of_lt h.base_lt)
  have := h.writePos
  unfold nth slots at *
  constructor <;> omega

/-- The write position is back at `logStart` before the first write and after a lap. -/
theorem Filled.writePos_eq_logStart (h : r.Filled d l) :
    r.writePos = r.logStart ↔ d = 0 ∨ d = r.slots := by
  have := h.lo
  rw [← slot_eq_base h.base_lt h.lap, h.writePos]
  unfold nth
  omega

theorem Filled.blocks_pos (h : r.Filled d l) : 0 < r.blocks ↔ 0 < d := by
  rw [h.blocks]
  constructor
  · intro hpos
    by_contra hd
    have hd0 : d = 0 := by omega
    rw [hd0, Nat.add_zero, Nat.div_eq_of_lt h.base_lt] at hpos
    omega
  · exact fun hd => Nat.add_pos_left hd _

theorem Filled.full_iff (h : r.Filled d l) : r.full ↔ d = r.slots := by
  have hpos := Nat.zero_lt_of_lt h.base_lt
  rw [full, h.writePos_eq_logStart, h.blocks_pos]
  omega

/-- The counter moves by two exactly when the move crosses the checkpoint block. -/
theorem Filled.flush_blocks (h : r.Filled d l) :
    r.flush.blocks = d + 1 + (r.logStart - r.start + (d + 1)) / r.slots := by
  have hbase := h.base_lt
  have hpos : 0 < r.slots := Nat.zero_lt_of_lt hbase
  have hcross : r.next r.writePos = r.stop - 1 ↔ r.slots ∣ r.logStart - r.start + d + 1 := by
    have hslot : slot r.slots (r.logStart - r.start) (d + 1) = _ := slot_succ hpos
    have hwp := h.writePos
    rw [h.usable.next_eq, Nat.dvd_iff_mod_eq_zero]
    change _ ↔ slot r.slots (r.logStart - r.start) (d + 1) = 0
    unfold nth slots at *
    split_ifs at hslot <;> omega
  have hsmall : (r.logStart - r.start + d) / r.slots < 2 :=
    Nat.div_lt_of_lt_mul (by have := h.lap; omega)
  have hlap := h.lap
  have hmax := h.maxSize
  have hblocks := h.blocks
  change (if r.next r.writePos = r.stop - 1 then _ else _) = _
  rw [← Nat.add_assoc, Nat.succ_div]
  unfold slots journalMaxBlocks at *
  split_ifs <;> omega

theorem Filled.flush (h : r.Filled d l) (hroom : d < r.slots) : r.flush.Filled (d + 1) l := by
  have hpos : 0 < r.slots := Nat.zero_lt_of_lt h.base_lt
  have horder := h.order
  have hwindow : window r.flush.events =
      { window r.events with pending := (window r.events).pending ++ [r.writePos] } :=
    window_record _ _
  refine ⟨h.minSize, h.maxSize, h.lo, h.hi, by omega, hroom, ?_, h.logEnd, h.flush_blocks, ?_, ?_⟩
  · change r.nextUsable = r.nth (d + 1)
    rw [h.usable.nextUsable_eq, nth, slot_succ hpos]
    have hwp := h.writePos
    unfold nth slots at *
    split_ifs <;> omega
  · rw [hwindow]
    exact h.live
  · rw [hwindow]
    rw [h.pending, h.writePos, Nat.sub_add_comm horder, List.range'_1_concat, List.map_append,
      Nat.add_sub_cancel' horder]
    rfl

/-- A write after a full lap hits the oldest live block. -/
theorem Filled.flush_full (h : r.Filled r.slots l) (hl : 0 < l) :
    ¬ NeverOverwritten r.flush.events := by
  change ¬ NeverOverwritten (r.events ++ [.record r.writePos])
  rw [neverOverwritten_snoc]
  rintro ⟨-, hlast⟩
  refine hlast r.writePos rfl ?_
  rw [h.live, List.mem_map]
  refine ⟨0, List.mem_range.mpr hl, ?_⟩
  rw [h.nth_zero, h.writePos_eq_logStart.mpr (.inr rfl)]

/-- A write before the lap is complete hits no live block. -/
theorem Filled.flush_neverOverwritten (h : r.Filled d l) (hroom : d < r.slots)
    (hno : NeverOverwritten r.events) : NeverOverwritten r.flush.events := by
  refine neverOverwritten_snoc.mpr ⟨hno, ?_⟩
  rintro block hblock
  cases hblock
  rw [h.live, List.mem_map]
  rintro ⟨i, hi, heq⟩
  have hil := List.mem_range.mp hi
  have hle := h.order
  rw [h.writePos] at heq
  have hslot : slot r.slots (r.logStart - r.start) i = slot r.slots (r.logStart - r.start) d := by
    unfold nth at heq
    omega
  have := (slot_inj (by omega) (by omega)).mp hslot
  omega

@[simp] theorem foldl_allocEvents (r : Ring) (w : Window) :
    r.allocEvents.foldl Window.step w = w := by
  unfold allocEvents
  split_ifs <;> rfl

theorem Filled.commit (h : r.Filled d l) : r.commit.Filled d d := by
  have hwindow : window r.commit.events =
      ⟨(window r.events).live ++ (window r.events).pending, []⟩ := by
    simp [Ring.commit, persistAllocs, window_append, Window.step]
  refine ⟨h.minSize, h.maxSize, h.lo, h.hi, le_rfl, h.lap, h.writePos, h.writePos, h.blocks, ?_, ?_⟩
  · rw [hwindow]
    change (window r.events).live ++ (window r.events).pending = (List.range d).map r.nth
    rw [h.live, h.pending, ← List.map_append, List.range_eq_range', List.range_eq_range']
    congr 1
    have := List.range'_append_1 (s := 0) (m := l) (n := d - l)
    have hle := h.order
    rw [show l + (d - l) = d by omega, Nat.zero_add] at this
    exact this
  · rw [hwindow, Nat.sub_self]
    rfl

theorem Usable.retire_filled (h : r.Usable) (hmin : journalMinBlocks ≤ r.stop - r.start)
    (hmax : r.stop - r.start ≤ journalMaxBlocks) : r.retire.Filled 0 0 := by
  have hlo := h.lo
  have hhi := h.hi
  have hwindow : window r.retire.events = ⟨[], []⟩ := by
    simp [Ring.retire, window_append, Window.step]
  have hbase : r.writePos - r.start < r.slots := by
    unfold slots
    omega
  have hzero : r.retire.nth 0 = r.writePos := by
    change r.start + slot r.slots (r.writePos - r.start) 0 = r.writePos
    rw [slot_zero hbase]
    omega
  refine ⟨hmin, hmax, hlo, hhi, le_rfl, Nat.zero_le _, hzero.symm, hzero.symm, ?_, ?_, ?_⟩
  · change 0 = 0 + (r.writePos - r.start + 0) / r.slots
    rw [Nat.add_zero, Nat.div_eq_of_lt hbase]
  · rw [hwindow]
    rfl
  · rw [hwindow]
    rfl

theorem Filled.retire (h : r.Filled d l) : r.retire.Filled 0 0 :=
  h.usable.retire_filled h.minSize h.maxSize

theorem Filled.append (h : r.Filled d l) (size : ℕ) : (r.append size).Filled d l :=
  ⟨h.minSize, h.maxSize, h.lo, h.hi, h.order, h.lap, h.writePos, h.logEnd, h.blocks, h.live,
    h.pending⟩

/-- After the entry back-pressure a block is free. -/
theorem Filled.syncEntry (h : r.Filled d l) :
    ∃ d' l', r.syncEntry.Filled d' l' ∧ d' < r.syncEntry.slots := by
  unfold Ring.syncEntry
  split_ifs with hfull
  · exact ⟨0, 0, h.retire, Nat.zero_lt_of_lt h.retire.base_lt⟩
  · exact ⟨d, l, h, lt_of_le_of_ne h.lap fun hlap => hfull (h.full_iff.mpr hlap)⟩

theorem Filled.sync (h : r.Filled d l) (ckpt : Bool) : ∃ d' l', (r.sync ckpt).Filled d' l' := by
  obtain ⟨d', l', hentry, hroom⟩ := h.syncEntry
  have hcommit := (hentry.flush hroom).commit
  unfold Ring.sync backPressure periodic
  split_ifs
  · exact ⟨0, 0, hcommit.retire.retire⟩
  · exact ⟨0, 0, hcommit.retire⟩
  · exact ⟨0, 0, hcommit.retire⟩
  · exact ⟨_, _, hcommit⟩
  · exact ⟨d, l, h⟩

end Ring

end Briefs.Journal
