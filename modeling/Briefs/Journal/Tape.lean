import Briefs.Disk.Inode
import Briefs.Journal.Ring

/-!
# The journal with its records

The ring of `Briefs.Journal.Ring` together with what its blocks hold. A record is
kept as its fields (`journal_record.go`), a record block as the list of its records.
`writes` are the ring blocks written since the mount, the latest first.
-/

namespace Briefs.Journal

open Lib

structure DirUpdate where
  parentIno : ℕ
  childIno : ℕ
  name : Bytes
  /-- Op 0 adds the entry, any other deletes it. -/
  op : ℕ
  ftype : ℕ
  deriving DecidableEq

structure InodeUpdate where
  ino : ℕ
  mode : ℕ
  nlink : ℕ
  uid : ℕ
  gid : ℕ
  fileSize : ℕ
  atime : Time
  mtime : Time
  ctime : Time
  flags : ℕ
  /-- Absent from the 88-byte records of older versions. -/
  generation : Option ℕ
  deriving DecidableEq

inductive Record
  | extentAlloc (ino offset length physStart : ℕ)
  | extentFree (ino physStart length : ℕ)
  | inodeUpdate (u : InodeUpdate)
  | inodeAlloc (ino mode nlink uid gid : ℕ)
  | inodeFree (ino : ℕ)
  /-- Op 0 allocates the page, any other frees it. -/
  | trieAlloc (block op : ℕ)
  | dirUpdate (d : DirUpdate)
  | checkpoint
  | inodeFull (ino : ℕ) (snapshot : Inode)
  | symlinkData (ino phys : ℕ) (target : Bytes)
  | xattrData (ino physBlk : ℕ) (data : Bytes)
  | triePage
  deriving DecidableEq

def Record.payload : Record → ℕ
  | .extentAlloc .. => 80
  | .extentFree .. => 80
  | .inodeUpdate u => if u.generation.isSome then 96 else 88
  | .inodeAlloc .. => 40
  | .inodeFree _ => 32
  | .trieAlloc .. => 16
  | .dirUpdate _ => 280
  | .checkpoint => 48
  | .inodeFull .. => 560
  | .symlinkData _ _ target => 20 + target.length
  | .xattrData _ _ data => 20 + data.length
  | .triePage => 0

def Record.size (r : Record) : ℕ := journalRecordHdrSize + r.payload

/-- A ring block as the replay finds it: its records, or no journal block at all. -/
inductive RingBlock
  | records (rs : List Record)
  | foreign
  deriving DecidableEq

structure Tape where
  ring : Ring
  /-- The records of the current block. -/
  cur : List Record
  writes : List (ℕ × List Record)
  /-- How often the log boundaries were persisted. -/
  commits : ℕ

namespace Tape

variable (t : Tape)

def append (r : Record) : Tape :=
  { t with ring := t.ring.append r.size, cur := t.cur ++ [r] }

def flush : Tape :=
  { t with
    ring := t.ring.flush
    cur := []
    writes := (t.ring.writePos, t.cur) :: t.writes }

def commit : Tape := { t with ring := t.ring.commit, commits := t.commits + 1 }

def retire : Tape :=
  { t with
    ring := t.ring.retire
    writes := (t.ring.stop - 1, [.checkpoint]) :: t.writes
    commits := t.commits + 1 }

/-- Whether the flush in front of a record fills the ring, so that it is retired. -/
def retires (r : Record) : Bool :=
  t.ring.overflows r.size && decide (t.ring.flush.writePos = t.ring.logStart)

def writeRecord (r : Record) : Tape :=
  if t.ring.overflows r.size then
    if t.ring.flush.writePos = t.ring.logStart then t.flush.retire.append r
    else t.flush.append r
  else t.append r

def syncEntry : Tape := if t.ring.full then t.retire else t

/-- The first part of a sync, up to the commit point. -/
def syncBegin : Tape := t.syncEntry.flush.commit

def periodic (ckpt : Bool) : Tape :=
  if ckpt ∧ jrnCheckpointInterval ≤ t.ring.records then t.retire else t

def backPressure : Tape :=
  if t.ring.next t.ring.writePos = t.ring.logStart then t.retire else t

/-- What follows the drain of the metadata. -/
def syncEnd (ckpt : Bool) : Tape := (t.periodic ckpt).backPressure

theorem commits_le_syncEnd (ckpt : Bool) : t.commits ≤ (t.syncEnd ckpt).commits := by
  unfold syncEnd backPressure periodic
  split_ifs
  · exact Nat.le_add_right _ 2
  · exact Nat.le_add_right _ 1
  · exact Nat.le_add_right _ 1
  · exact le_rfl

theorem commits_lt_syncBegin : t.commits < t.syncBegin.commits := by
  unfold syncBegin syncEntry
  split_ifs <;> simp [commit, flush, retire]

end Tape

namespace Ring

/-- How many moves a block of the ring is from `logStart`. -/
def dist (r : Ring) (pos : ℕ) : ℕ :=
  if r.logStart ≤ pos then pos - r.logStart else pos + (r.stop - r.start) - r.logStart

def Live (r : Ring) (pos : ℕ) : Prop := r.dist pos < r.dist r.logEnd

/-- The log boundaries are blocks that record blocks are written to. -/
structure Bounded (r : Ring) : Prop where
  startLo : r.start ≤ r.logStart
  startHi : r.logStart + 1 < r.stop
  stopLo : r.start ≤ r.logEnd
  stopHi : r.logEnd + 1 < r.stop

/-- Moving on from a block brings the write position away from `logStart`, until it
gets there again. -/
theorem Bounded.dist_nextUsable {r : Ring} (hb : r.Bounded) (hu : r.Usable)
    (h : r.nextUsable ≠ r.logStart) : r.dist r.writePos < r.dist r.nextUsable := by
  have hlo := hb.startLo
  have hhi := hb.startHi
  have hlo' := hu.lo
  rw [hu.nextUsable_eq] at h ⊢
  unfold dist
  split_ifs at h ⊢ <;> omega

end Ring

namespace Tape

/-- `u` is `t` after records were written and the log boundaries have stayed. -/
structure Since (t u : Tape) : Prop where
  start : u.ring.start = t.ring.start
  stop : u.ring.stop = t.ring.stop
  logStart : u.ring.logStart = t.ring.logStart
  logEnd : u.ring.logEnd = t.ring.logEnd
  usable : u.ring.Usable
  /-- The write position is past the live window. -/
  ahead : t.ring.dist t.ring.logEnd ≤ t.ring.dist u.ring.writePos
  /-- No block of the live window was written. -/
  writes : ∀ pos, t.ring.Live pos → u.writes.lookup pos = t.writes.lookup pos

variable {t u : Tape}

theorem Since.refl (hu : t.ring.Usable) (h : t.ring.writePos = t.ring.logEnd) : Since t t where
  start := rfl
  stop := rfl
  logStart := rfl
  logEnd := rfl
  usable := hu
  ahead := by rw [h]
  writes := fun _ _ => rfl

theorem Since.append (h : Since t u) (r : Record) : Since t (u.append r) where
  start := h.start
  stop := h.stop
  logStart := h.logStart
  logEnd := h.logEnd
  usable := h.usable.append _
  ahead := h.ahead
  writes := h.writes

theorem Since.flush (h : Since t u) (hb : t.ring.Bounded)
    (hne : u.ring.flush.writePos ≠ u.ring.logStart) : Since t u.flush where
  start := h.start
  stop := h.stop
  logStart := h.logStart
  logEnd := h.logEnd
  usable := h.usable.flush
  ahead := by
    have hdist : ∀ pos, u.ring.dist pos = t.ring.dist pos := fun pos => by
      simp [Ring.dist, h.logStart, h.start, h.stop]
    have hbu : u.ring.Bounded := by
      constructor
      · rw [h.start, h.logStart]
        exact hb.startLo
      · rw [h.stop, h.logStart]
        exact hb.startHi
      · rw [h.start, h.logEnd]
        exact hb.stopLo
      · rw [h.stop, h.logEnd]
        exact hb.stopHi
    have hnext := hbu.dist_nextUsable h.usable hne
    rw [hdist, hdist] at hnext
    exact h.ahead.trans hnext.le
  writes := by
    intro pos hpos
    have hne' : pos ≠ u.ring.writePos := by
      rintro rfl
      exact absurd h.ahead (Nat.not_le.mpr hpos)
    change ((u.ring.writePos, u.cur) :: u.writes).lookup pos = _
    rw [List.lookup_cons, beq_eq_false_iff_ne.mpr hne']
    exact h.writes pos hpos

/-- A record written without a retire stays clear of the live window. -/
theorem Since.writeRecord (h : Since t u) (hb : t.ring.Bounded) (r : Record)
    (hquiet : (u.writeRecord r).commits = u.commits) : Since t (u.writeRecord r) := by
  unfold Tape.writeRecord at hquiet ⊢
  split_ifs at hquiet ⊢ with hover hfull
  · simp [Tape.append, Tape.retire, Tape.flush] at hquiet
  · exact (h.flush hb hfull).append r
  · exact h.append r

end Tape

end Briefs.Journal
