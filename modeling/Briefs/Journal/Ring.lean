import Briefs.Journal.Write

/-!
# The journal as a ring of positions

The journal calls with bytes, checksums, counters of the pools and I/O errors
taken away: what is left is where blocks are written and which log boundaries
are persisted. `Rep` relates a journal state to its ring, and every call of
`Briefs.Journal.Write` that returns has the effect of the ring function of the
same name. Over a bridge that never fails the calls do return.
-/

namespace Briefs.Journal

open Lib Lib.Call

/-- What a device write says about the ring. -/
inductive Event
  | record (block : ℕ)
  | checkpointBlock (block : ℕ)
  | superblock (site : SuperSite) (logStart logEnd : ℕ)
  deriving DecidableEq, Repr

def DevWrite.event : DevWrite → Event
  | .recordBlock block _ => .record block
  | .checkpointBlock block _ => .checkpointBlock block
  | .superblock site sb => .superblock site sb.journalLogStart sb.journalLogEnd

@[ext]
structure Ring where
  start : ℕ
  stop : ℕ
  /-- Whether an allocator syncer is wired. -/
  allocs : Bool
  writePos : ℕ
  logStart : ℕ
  logEnd : ℕ
  offset : ℕ
  records : ℕ
  blocks : ℕ
  dirty : Bool
  events : List Event
  deriving DecidableEq

namespace Ring

variable {r : Ring}

def next (r : Ring) (block : ℕ) : ℕ := nextRingBlock block r.start (r.stop - r.start)

/-- The block a record-block write moves on to, over the checkpoint block. -/
def nextUsable (r : Ring) : ℕ :=
  if r.next r.writePos = r.stop - 1 then r.next (r.stop - 1) else r.next r.writePos

def note (r : Ring) (e : Event) : Ring := { r with events := r.events ++ [e] }

/-- Write the current block and move on. -/
def flush (r : Ring) : Ring :=
  { r with
    writePos := r.nextUsable
    blocks :=
      if r.next r.writePos = r.stop - 1 then ((r.blocks + 1) % 2 ^ 32 + 1) % 2 ^ 32
      else (r.blocks + 1) % 2 ^ 32
    offset := journalBlockHdrSize
    dirty := false
    events := r.events ++ [.record r.writePos] }

/-- The superblock write that follows the pools, when an allocator syncer is wired. -/
def allocEvents (r : Ring) : List Event :=
  if r.allocs then [.superblock .allocators r.logStart r.logEnd] else []

def persistAllocs (r : Ring) : Ring := { r with events := r.events ++ r.allocEvents }

def commit (r : Ring) : Ring :=
  ({ r with
    logEnd := r.writePos
    events := r.events ++ [.superblock .commit r.logStart r.writePos] } : Ring).persistAllocs

def retire (r : Ring) : Ring :=
  { r with
    logStart := r.writePos
    logEnd := r.writePos
    records := 0
    blocks := 0
    events := r.events ++ r.allocEvents ++
      [.checkpointBlock (r.stop - 1), .superblock .checkpoint r.writePos r.writePos] }

theorem retire_eq (r : Ring) :
    r.retire =
      let q := r.persistAllocs.note (.checkpointBlock (r.stop - 1))
      ({ q with logStart := q.writePos, logEnd := q.writePos, records := 0, blocks := 0 } :
        Ring).note (.superblock .checkpoint q.writePos q.writePos) := by
  simp [retire, persistAllocs, note]

def append (r : Ring) (size : ℕ) : Ring :=
  { r with
    offset := r.offset + size
    dirty := true
    records := (r.records + 1) % 2 ^ 32 }

def overflows (r : Ring) (size : ℕ) : Bool := journalBlockSize < r.offset + size

/-- The write position is back at `logStart` and blocks were written since. -/
def full (r : Ring) : Prop := r.writePos = r.logStart ∧ 0 < r.blocks

instance (r : Ring) : Decidable r.full := inferInstanceAs (Decidable (_ ∧ _))

def makeRoom (r : Ring) : Ring :=
  if r.flush.writePos = r.logStart then r.flush.retire else r.flush

def writeRecord (r : Ring) (size : ℕ) : Ring :=
  if r.overflows size then r.makeRoom.append size else r.append size

def syncEntry (r : Ring) : Ring := if r.full then r.retire else r

def periodic (r : Ring) (checkpoint : Bool) : Ring :=
  if checkpoint ∧ jrnCheckpointInterval ≤ r.records then r.retire else r

def backPressure (r : Ring) : Ring := if r.next r.writePos = r.logStart then r.retire else r

def sync (r : Ring) (checkpoint : Bool) : Ring :=
  if r.dirty then ((r.syncEntry.flush.commit).periodic checkpoint).backPressure else r

def checkpoint (r : Ring) : Ring := (r.sync true).retire

theorem checkpoint_clean (h : r.dirty = false) : r.checkpoint = r.retire := by
  simp [checkpoint, sync, h]

/-- The write position is a block of the ring other than the checkpoint block. -/
structure Usable (r : Ring) : Prop where
  lo : r.start ≤ r.writePos
  hi : r.writePos + 1 < r.stop

theorem Usable.next_eq (h : r.Usable) : r.next r.writePos = r.writePos + 1 := by
  have := h.hi
  unfold next nextRingBlock
  split_ifs <;> omega

theorem Usable.nextUsable_eq (h : r.Usable) :
    r.nextUsable = if r.writePos + 2 = r.stop then r.start else r.writePos + 1 := by
  have := h.lo
  unfold nextUsable
  rw [h.next_eq]
  unfold next nextRingBlock
  split_ifs <;> omega

theorem Usable.flush (h : r.Usable) : r.flush.Usable := by
  have := h.lo
  have := h.hi
  have hpos : r.flush.writePos = r.nextUsable := rfl
  rw [h.nextUsable_eq] at hpos
  constructor
  · change r.start ≤ r.flush.writePos
    split_ifs at hpos <;> omega
  · change r.flush.writePos + 1 < r.stop
    split_ifs at hpos <;> omega

theorem Usable.retire (h : r.Usable) : r.retire.Usable := ⟨h.lo, h.hi⟩

theorem Usable.commit (h : r.Usable) : r.commit.Usable := ⟨h.lo, h.hi⟩

theorem Usable.append (h : r.Usable) (size : ℕ) : (r.append size).Usable :=
  ⟨h.lo, h.hi⟩

theorem syncEntry_dirty (r : Ring) : r.syncEntry.dirty = r.dirty := by
  unfold syncEntry
  split_ifs <;> rfl

theorem syncEntry_start (r : Ring) : r.syncEntry.start = r.start := by
  unfold syncEntry
  split_ifs <;> rfl

theorem syncEntry_stop (r : Ring) : r.syncEntry.stop = r.stop := by
  unfold syncEntry
  split_ifs <;> rfl

@[simp] theorem flush_start (r : Ring) : r.flush.start = r.start := rfl
@[simp] theorem flush_stop (r : Ring) : r.flush.stop = r.stop := rfl
@[simp] theorem commit_start (r : Ring) : r.commit.start = r.start := rfl
@[simp] theorem commit_stop (r : Ring) : r.commit.stop = r.stop := rfl
@[simp] theorem retire_start (r : Ring) : r.retire.start = r.start := rfl
@[simp] theorem retire_stop (r : Ring) : r.retire.stop = r.stop := rfl

theorem sync_start (r : Ring) (ckpt : Bool) : (r.sync ckpt).start = r.start := by
  unfold sync backPressure periodic
  split_ifs <;> simp only [retire_start, commit_start, flush_start, syncEntry_start]

theorem sync_stop (r : Ring) (ckpt : Bool) : (r.sync ckpt).stop = r.stop := by
  unfold sync backPressure periodic
  split_ifs <;> simp only [retire_stop, commit_stop, flush_stop, syncEntry_stop]

theorem Usable.syncEntry (h : r.Usable) : r.syncEntry.Usable := by
  unfold Ring.syncEntry
  split_ifs
  · exact h.retire
  · exact h

theorem Usable.sync (h : r.Usable) (ckpt : Bool) : (r.sync ckpt).Usable := by
  have hcommit := h.syncEntry.flush.commit
  unfold Ring.sync backPressure periodic
  split_ifs
  · exact hcommit.retire.retire
  · exact hcommit.retire
  · exact hcommit.retire
  · exact hcommit
  · exact h

theorem Usable.writeRecord (h : r.Usable) (size : ℕ) :
    (r.writeRecord size).Usable := by
  unfold Ring.writeRecord makeRoom
  split_ifs
  · exact h.flush.retire.append size
  · exact h.flush.append size
  · exact h.append size

theorem events_flush (r : Ring) : r.events <+: r.flush.events := List.prefix_append _ _

theorem events_commit (r : Ring) : r.events <+: r.commit.events := by
  simp [commit, persistAllocs, List.append_assoc]

theorem events_retire (r : Ring) : r.events <+: r.retire.events := by
  simp [retire, List.append_assoc]

theorem events_syncEntry (r : Ring) : r.events <+: r.syncEntry.events := by
  unfold syncEntry
  split_ifs
  · exact r.events_retire
  · exact List.prefix_rfl

theorem events_sync (r : Ring) (ckpt : Bool) : r.events <+: (r.sync ckpt).events := by
  have hcommit := (r.events_syncEntry.trans (events_flush _)).trans (events_commit _)
  unfold sync backPressure periodic
  split_ifs
  · exact (hcommit.trans (events_retire _)).trans (events_retire _)
  · exact hcommit.trans (events_retire _)
  · exact hcommit.trans (events_retire _)
  · exact hcommit
  · exact List.prefix_rfl

theorem events_writeRecord (r : Ring) (size : ℕ) :
    r.events <+: (r.writeRecord size).events := by
  unfold writeRecord makeRoom
  split_ifs
  · exact r.events_flush.trans (events_retire _)
  · exact r.events_flush
  · exact List.prefix_rfl

end Ring

end Briefs.Journal
