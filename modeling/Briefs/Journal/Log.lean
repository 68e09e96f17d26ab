import Briefs.Journal.Ring

/-!
# How far the records have got

The ring together with four counters over the records in the order they were
appended: how many there are, how many are in record blocks on the device, how
many a persisted `log_end` covers, and how many `log_start` has passed. A sync is
cut where the source runs the metadata drain: `syncBegin` ends at the commit
point, `syncEnd` is what follows the drain.
-/

namespace Briefs.Journal

structure Log where
  ring : Ring
  total : ℕ
  flushed : ℕ
  committed : ℕ
  retired : ℕ

namespace Log

def append (l : Log) (size : ℕ) : Log :=
  { l with ring := l.ring.append size, total := l.total + 1 }

def flush (l : Log) : Log := { l with ring := l.ring.flush, flushed := l.total }

def commit (l : Log) : Log := { l with ring := l.ring.commit, committed := l.flushed }

/-- Both boundaries move to the write position, past every flushed block. -/
def retire (l : Log) : Log :=
  { l with ring := l.ring.retire, committed := l.flushed, retired := l.flushed }

def makeRoom (l : Log) : Log :=
  if l.ring.flush.writePos = l.ring.logStart then l.flush.retire else l.flush

def writeRecord (l : Log) (size : ℕ) : Log :=
  if l.ring.overflows size then l.makeRoom.append size else l.append size

def syncEntry (l : Log) : Log := if l.ring.full then l.retire else l

def syncBegin (l : Log) : Log := l.syncEntry.flush.commit

def periodic (l : Log) (ckpt : Bool) : Log :=
  if ckpt ∧ jrnCheckpointInterval ≤ l.ring.records then l.retire else l

def backPressure (l : Log) : Log :=
  if l.ring.next l.ring.writePos = l.ring.logStart then l.retire else l

def syncEnd (l : Log) (ckpt : Bool) : Log := (l.periodic ckpt).backPressure

/-- Whether the part of a sync after the drain retires the ring. -/
def RetiresAtEnd (r : Ring) (ckpt : Bool) : Prop :=
  (ckpt ∧ jrnCheckpointInterval ≤ r.records) ∨ r.next r.writePos = r.logStart

variable (l : Log)

theorem ring_syncEntry : l.syncEntry.ring = l.ring.syncEntry := by
  unfold syncEntry Ring.syncEntry
  split_ifs <;> rfl

/-- The counters are in order and the last flush is complete. -/
structure Ordered (l : Log) : Prop where
  retired_le : l.retired ≤ l.committed
  committed_le : l.committed ≤ l.flushed
  flushed_le : l.flushed ≤ l.total

variable {l}

theorem Ordered.append (h : l.Ordered) (size : ℕ) : (l.append size).Ordered :=
  ⟨h.retired_le, h.committed_le, Nat.le_succ_of_le h.flushed_le⟩

theorem Ordered.flush (h : l.Ordered) : l.flush.Ordered :=
  ⟨h.retired_le, h.committed_le.trans h.flushed_le, le_rfl⟩

theorem Ordered.commit (h : l.Ordered) : l.commit.Ordered :=
  ⟨h.retired_le.trans h.committed_le, le_rfl, h.flushed_le⟩

theorem Ordered.retire (h : l.Ordered) : l.retire.Ordered := ⟨le_rfl, le_rfl, h.flushed_le⟩

theorem Ordered.makeRoom (h : l.Ordered) : l.makeRoom.Ordered := by
  unfold Log.makeRoom
  split_ifs
  · exact h.flush.retire
  · exact h.flush

theorem Ordered.writeRecord (h : l.Ordered) (size : ℕ) : (l.writeRecord size).Ordered := by
  unfold Log.writeRecord
  split_ifs
  · exact h.makeRoom.append size
  · exact h.append size

theorem Ordered.syncEntry (h : l.Ordered) : l.syncEntry.Ordered := by
  unfold Log.syncEntry
  split_ifs
  · exact h.retire
  · exact h

theorem Ordered.syncBegin (h : l.Ordered) : l.syncBegin.Ordered := h.syncEntry.flush.commit

theorem Ordered.syncEnd (h : l.Ordered) (ckpt : Bool) : (l.syncEnd ckpt).Ordered := by
  unfold Log.syncEnd backPressure periodic
  split_ifs
  · exact h.retire.retire
  · exact h.retire
  · exact h.retire
  · exact h

end Log

end Briefs.Journal
