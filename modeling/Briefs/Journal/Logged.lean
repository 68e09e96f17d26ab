import Briefs.Journal.Kept

/-!
# The log since a checkpoint

After a checkpoint the log is empty and starts at the write position. `Logged` says
which records the blocks of the log and the block being filled hold; as long as no
checkpoint is taken and the ring does not fill up, every call appends its records.
-/

namespace Briefs.Journal

open Lib Lib.Call

def Event.isRecord : Event → Bool
  | .record _ => true
  | .checkpointBlock _ => false
  | .superblock _ _ _ => false

def Event.isCheckpoint : Event → Bool
  | .superblock .checkpoint _ _ => true
  | .superblock .commit _ _ => false
  | .superblock .allocators _ _ => false
  | .record _ => false
  | .checkpointBlock _ => false

def recordBlocks (es : List Event) : ℕ := es.countP Event.isRecord

def checkpoints (es : List Event) : ℕ := es.countP Event.isCheckpoint

/-- Nothing was written since the last checkpoint. -/
def EndsInCheckpoint (es : List Event) : Prop := ∀ e ∈ es.getLast?, e.isCheckpoint

theorem endsInCheckpoint_snoc {es : List Event} {e : Event} :
    EndsInCheckpoint (es ++ [e]) ↔ e.isCheckpoint := by
  simp [EndsInCheckpoint]

namespace Ring

variable {r : Ring} {d l : ℕ}

/-- A ring of an accepted size whose log is empty right after a checkpoint. -/
structure Restartable (r : Ring) : Prop where
  minSize : journalMinBlocks ≤ r.stop - r.start
  maxSize : r.stop - r.start ≤ journalMaxBlocks
  usable : r.Usable
  empty : EndsInCheckpoint r.events → r.Filled 0 0

theorem Restartable.retire (h : r.Restartable) : r.retire.Restartable :=
  ⟨h.minSize, h.maxSize, h.usable.retire, fun _ => h.usable.retire_filled h.minSize h.maxSize⟩

theorem Restartable.flush (h : r.Restartable) : r.flush.Restartable := by
  refine ⟨h.minSize, h.maxSize, h.usable.flush, fun hend => ?_⟩
  have : Event.isCheckpoint (.record r.writePos) := endsInCheckpoint_snoc.mp hend
  cases this

theorem Restartable.commit (h : r.Restartable) : r.commit.Restartable := by
  refine ⟨h.minSize, h.maxSize, h.usable.commit, fun hend => ?_⟩
  simp only [Ring.commit, persistAllocs, allocEvents] at hend
  split_ifs at hend
  · have := endsInCheckpoint_snoc.mp hend
    cases this
  · rw [List.append_nil] at hend
    have := endsInCheckpoint_snoc.mp hend
    cases this

theorem Restartable.append (h : r.Restartable) (size : ℕ) : (r.append size).Restartable :=
  ⟨h.minSize, h.maxSize, h.usable.append size, fun hend => (h.empty hend).append size⟩

theorem Restartable.writeRecord (h : r.Restartable) (size : ℕ) :
    (r.writeRecord size).Restartable := by
  unfold Ring.writeRecord makeRoom
  split_ifs
  · exact h.flush.retire.append size
  · exact h.flush.append size
  · exact h.append size

theorem Restartable.sync (h : r.Restartable) (ckpt : Bool) : (r.sync ckpt).Restartable := by
  have hentry : r.syncEntry.Restartable := by
    unfold Ring.syncEntry
    split_ifs
    · exact h.retire
    · exact h
  have hcommit := hentry.flush.commit
  unfold Ring.sync backPressure periodic
  split_ifs
  · exact hcommit.retire.retire
  · exact hcommit.retire
  · exact hcommit.retire
  · exact hcommit
  · exact h

theorem Restartable.call (h : r.Restartable) (c : JournalCall) : (r.call c).Restartable := by
  cases c with
  | writeRecord typ data => exact h.writeRecord _
  | sync ckpt => exact h.sync ckpt
  | checkpoint => exact (h.sync true).retire

theorem call_start (r : Ring) (c : JournalCall) : (r.call c).start = r.start := by
  cases c with
  | writeRecord typ data =>
    change (r.writeRecord _).start = _
    unfold Ring.writeRecord makeRoom
    split_ifs <;> rfl
  | sync ckpt => exact r.sync_start ckpt
  | checkpoint => exact r.sync_start true

theorem call_stop (r : Ring) (c : JournalCall) : (r.call c).stop = r.stop := by
  cases c with
  | writeRecord typ data =>
    change (r.writeRecord _).stop = _
    unfold Ring.writeRecord makeRoom
    split_ifs <;> rfl
  | sync ckpt => exact r.sync_stop ckpt
  | checkpoint => exact r.sync_stop true

theorem checkpoints_allocEvents (r : Ring) : checkpoints r.allocEvents = 0 := by
  unfold allocEvents
  split_ifs <;> rfl

theorem checkpoints_retire (r : Ring) : checkpoints r.retire.events = checkpoints r.events + 1 := by
  have hallocs := r.checkpoints_allocEvents
  unfold checkpoints at *
  change List.countP _ (r.events ++ r.allocEvents ++ _) = _
  rw [List.countP_append, List.countP_append, hallocs]
  rfl

theorem checkpoints_mono {es fs : List Event} (h : es <+: fs) : checkpoints es ≤ checkpoints fs :=
  h.sublist.countP_le

theorem recordBlocks_mono {es fs : List Event} (h : es <+: fs) :
    recordBlocks es ≤ recordBlocks fs :=
  h.sublist.countP_le

theorem recordBlocks_flush (r : Ring) : recordBlocks r.flush.events = recordBlocks r.events + 1 := by
  change List.countP _ (r.events ++ _) = _
  rw [List.countP_append]
  rfl

theorem recordBlocks_commit (r : Ring) : recordBlocks r.commit.events = recordBlocks r.events := by
  have hallocs : ∀ q : Ring, recordBlocks q.allocEvents = 0 := by
    intro q
    unfold allocEvents
    split_ifs <;> rfl
  unfold recordBlocks at *
  change List.countP _ (r.events ++ _ ++ allocEvents _) = _
  rw [List.countP_append, List.countP_append, hallocs]
  rfl

theorem events_backPressure (r : Ring) : r.events <+: r.backPressure.events := by
  unfold backPressure
  split_ifs
  · exact r.events_retire
  · exact List.prefix_rfl

theorem events_tail (r : Ring) (ckpt : Bool) :
    r.events <+: ((r.periodic ckpt).backPressure).events := by
  refine List.IsPrefix.trans ?_ (events_backPressure _)
  unfold periodic
  split_ifs
  · exact r.events_retire
  · exact List.prefix_rfl

/-- Two blocks before the lap is complete there is no back-pressure. -/
theorem Filled.next_ne_logStart (h : r.Filled d l) (hroom : d + 1 < r.slots) :
    r.next r.writePos ≠ r.logStart := by
  have hbase := h.base_lt
  have hpos := h.writePos
  rw [h.usable.next_eq]
  intro hnext
  have hslot : slot r.slots (r.logStart - r.start) d + 1 = r.logStart - r.start := by
    unfold nth at hpos
    omega
  have hsucc : slot r.slots (r.logStart - r.start) (d + 1) = r.logStart - r.start := by
    rw [slot_succ (Nat.zero_lt_of_lt hbase), if_neg (by omega), hslot]
  have := (slot_eq_base hbase (by omega)).mp hsucc
  omega

theorem Filled.flush_ne_logStart (h : r.Filled d l) (hroom : d + 1 < r.slots) :
    r.flush.writePos ≠ r.logStart := by
  have hflush := h.flush (by omega)
  intro hlap
  have : d + 1 = 0 ∨ d + 1 = r.slots := hflush.writePos_eq_logStart.mp hlap
  omega

theorem Filled.nth_lt (h : r.Filled d l) (i : ℕ) : r.start ≤ r.nth i ∧ r.nth i + 1 < r.stop := by
  have hslot : slot r.slots (r.logStart - r.start) i < r.slots :=
    slot_lt (Nat.zero_lt_of_lt h.base_lt)
  unfold nth slots at *
  omega

theorem Filled.nth_ne_writePos (h : r.Filled d l) {i : ℕ} (hi : i < d) (hlap : d < r.slots) :
    r.nth i ≠ r.writePos := by
  rw [h.writePos]
  intro heq
  have hslot : slot r.slots (r.logStart - r.start) i = slot r.slots (r.logStart - r.start) d := by
    unfold nth at heq
    omega
  have := (slot_inj (by omega) (by omega)).mp hslot
  omega

/-- The blocks of the log hold the given records, and the checkpoint block is one. -/
structure Holds (r : Ring) (blocks : List (List Entry)) (disk : ℕ → Bytes) : Prop where
  marker : Marker (disk (r.stop - 1))
  block : ∀ i es, blocks[i]? = some es →
    FitsBlock es ∧ ∃ seq, disk (r.nth i) = encodeBlock seq es

theorem Holds.flush {blocks : List (List Entry)} {es : List Entry} {disk : ℕ → Bytes}
    (h : r.Holds blocks disk) (hfill : r.Filled blocks.length l) (hlap : blocks.length < r.slots)
    (hfit : FitsBlock es) (seq : UInt32) :
    r.flush.Holds (blocks ++ [es]) (Function.update disk r.writePos (encodeBlock seq es)) := by
  refine ⟨?_, fun i fs hi => ?_⟩
  · have hhi := hfill.usable.hi
    change Marker (Function.update disk r.writePos _ (r.stop - 1))
    rw [Function.update_of_ne (by omega)]
    exact h.marker
  · change FitsBlock fs ∧ ∃ seq', Function.update disk r.writePos _ (r.nth i) = _
    by_cases hold : i < blocks.length
    · rw [List.getElem?_append_left hold] at hi
      rw [Function.update_of_ne (hfill.nth_ne_writePos hold hlap)]
      exact h.block i fs hi
    · rw [List.getElem?_append_right (by omega), List.getElem?_singleton] at hi
      split_ifs at hi with hlast
      · cases hi
        obtain rfl : i = blocks.length := by omega
        rw [hfill.writePos, Function.update_self]
        exact ⟨hfit, seq, rfl⟩

end Ring

variable {σ : Type}

/-- The log holds the records of `blocks`, the block being filled those of `es`, and
`base` record blocks were written before the log began. -/
structure Logged (H : Hooks σ) (dev : ℕ → Bytes) (base : ℕ) (blocks : List (List Entry))
    (es : List Entry) (s : State σ) : Prop where
  found : ∃ r seq disk l, At H dev r seq es disk s ∧ r.Filled blocks.length l ∧
    (es = [] → l = blocks.length) ∧ r.Holds blocks disk
  count : recordBlocks s.events = base + blocks.length

def JournalCall.entries : JournalCall → List Entry
  | .writeRecord typ data => [(typ, data)]
  | .sync _ => []
  | .checkpoint => []

/-- A record the claim of a round trip is about: its payload fits one block. -/
def JournalCall.Short : JournalCall → Prop
  | .writeRecord _ data => data.length ≤ 4064
  | .sync _ => True
  | .checkpoint => True

section Steps

variable {H : Hooks σ} {dev : ℕ → Bytes} {base : ℕ} {blocks : List (List Entry)} {es : List Entry}
  {s t : State σ} {r : Ring}

theorem Rep.events {c : Bool} (h : Rep H c r s) : s.events = r.events := by
  rw [← h.ring]
  rfl

theorem Rep.size {c : Bool} (h : Rep H c r s) :
    s.journal.journalEnd - s.journal.journalStart = r.stop - r.start := by
  rw [← h.ring]
  rfl

theorem Logged.writeRecord (h : Logged H dev base blocks es s) {typ : UInt32} {data : Bytes}
    (hshort : data.length ≤ 4064) (hp : Performed H s (.writeRecord typ data) t)
    (hfew : recordBlocks t.events + 2 <
      base + (s.journal.journalEnd - s.journal.journalStart)) :
    ∃ blocks' es', Logged H dev base blocks' es' t ∧
      blocks'.flatten ++ es' = blocks.flatten ++ es ++ [(typ, data)] := by
  obtain ⟨r, seq, disk, l, hat, hfill, -, hholds⟩ := h.found
  have hrep : Rep H false (r.writeRecord (recordSize data)) t := hp.rep hat.1 hfill.usable
  have hcount : recordBlocks r.events = base + blocks.length := by
    rw [← hat.1.events]
    exact h.count
  rw [hat.1.size, hrep.events] at hfew
  by_cases hover : r.overflows (recordSize data) = true
  · -- the block is written, and the record is the first of the next one
    have hmore : recordBlocks r.flush.events ≤
        recordBlocks (r.writeRecord (recordSize data)).events := by
      unfold Ring.writeRecord Ring.makeRoom
      rw [if_pos hover]
      split_ifs
      · exact Ring.recordBlocks_mono r.flush.events_retire
      · exact le_rfl
    rw [r.recordBlocks_flush] at hmore
    have hroom : blocks.length + 1 < r.slots := by
      unfold Ring.slots
      omega
    have hpost := (writeRecord_at hfill.usable hshort fun _ => hfill.flush_ne_logStart hroom).of_ok
      hat hp
    rw [if_pos hover] at hpost
    refine ⟨blocks ++ [es], [(typ, data)], ⟨⟨_, _, _, l, hpost, ?_, ?_, ?_⟩, ?_⟩, ?_⟩
    · rw [List.length_append]
      exact (hfill.flush (by omega)).append _
    · intro hnil
      cases hnil
    · obtain ⟨hmarker, hblock⟩ := hholds.flush hfill (by omega) hat.2.packs.fits seq
      exact ⟨hmarker, hblock⟩
    · rw [hpost.1.events, List.length_append]
      change recordBlocks r.flush.events = _
      rw [r.recordBlocks_flush, hcount]
      rfl
    · simp
  · have hpost := (writeRecord_at hfill.usable hshort fun ho => absurd ho hover).of_ok hat hp
    rw [if_neg hover] at hpost
    refine ⟨blocks, es ++ [(typ, data)], ⟨⟨_, _, _, l, hpost, hfill.append _, ?_, ?_⟩, ?_⟩, ?_⟩
    · intro hnil
      simp at hnil
    · exact ⟨hholds.marker, hholds.block⟩
    · rw [hpost.1.events]
      exact hcount
    · rw [List.append_assoc]

theorem Logged.sync (h : Logged H dev base blocks es s) {ckpt : Bool}
    (hp : Performed H s (.sync ckpt) t)
    (hfew : recordBlocks t.events + 2 <
      base + (s.journal.journalEnd - s.journal.journalStart))
    (hsince : checkpoints t.events = checkpoints s.events) :
    ∃ blocks' es', Logged H dev base blocks' es' t ∧
      blocks'.flatten ++ es' = blocks.flatten ++ es := by
  obtain ⟨r, seq, disk, l, hat, hfill, hl, hholds⟩ := h.found
  have hrep : Rep H false (r.sync ckpt) t := hp.rep hat.1 hfill.usable
  have hcount : recordBlocks r.events = base + blocks.length := by
    rw [← hat.1.events]
    exact h.count
  rw [hat.1.size, hrep.events] at hfew
  rw [hrep.events, hat.1.events] at hsince
  by_cases hes : es = []
  · subst hes
    have hpost := syncLocked_at_clean.of_ok hat hp
    refine ⟨blocks, [], ⟨⟨r, seq, disk, l, hpost, hfill, hl, hholds⟩, ?_⟩, rfl⟩
    rw [hpost.1.events]
    exact hcount
  · have hdirty : r.dirty = true := by
      rw [← hat.1.ring]
      exact hat.2.packs.dirty.mpr hes
    have hearly : blocks.length < r.slots := by
      have := Ring.recordBlocks_mono (r.events_sync ckpt)
      unfold Ring.slots
      omega
    have hroom : ¬r.full := fun hfull => by
      have := hfill.full_iff.mp hfull
      omega
    have hsync : r.sync ckpt = (r.flush.commit.periodic ckpt).backPressure := by
      unfold Ring.sync Ring.syncEntry
      rw [if_pos hdirty, if_neg hroom]
    have hcommit := (hfill.flush hearly).commit
    have hlonger := r.flush.commit.events_tail ckpt
    have hwritten := Ring.recordBlocks_mono hlonger
    rw [← hsync, Ring.recordBlocks_commit, Ring.recordBlocks_flush] at hwritten
    have hquiet : Quiet r.flush.commit ckpt := by
      refine ⟨fun hck => ?_, hcommit.next_ne_logStart ?_⟩
      · -- a periodic checkpoint would show in the counter
        by_contra hdue
        have hbefore := Ring.checkpoints_mono (r.events_flush.trans r.flush.events_commit)
        have hafter := Ring.checkpoints_mono r.flush.commit.retire.events_backPressure
        have hfired : r.flush.commit.periodic ckpt = r.flush.commit.retire := if_pos ⟨hck, by omega⟩
        rw [Ring.checkpoints_retire, ← hfired, ← hsync] at hafter
        omega
      · change blocks.length + 1 + 1 < r.stop - r.start - 1
        omega
    have hpost := (syncLocked_at hfill.usable hroom hes hquiet).of_ok hat hp
    refine ⟨blocks ++ [es], [], ⟨⟨_, _, _, blocks.length + 1, hpost, ?_, ?_, ?_⟩, ?_⟩, ?_⟩
    · rw [List.length_append]
      exact hcommit
    · intro _
      rw [List.length_append]
      rfl
    · obtain ⟨hmarker, hblock⟩ := hholds.flush hfill hearly hat.2.packs.fits seq
      exact ⟨hmarker, hblock⟩
    · rw [hpost.1.events, Ring.recordBlocks_commit, Ring.recordBlocks_flush, hcount,
        List.length_append]
      rfl
    · simp

theorem Logged.call (h : Logged H dev base blocks es s) {c : JournalCall} (hc : c.Short)
    (hp : Performed H s c t)
    (hfew : recordBlocks t.events + 2 <
      base + (s.journal.journalEnd - s.journal.journalStart))
    (hsince : checkpoints t.events = checkpoints s.events) :
    ∃ blocks' es', Logged H dev base blocks' es' t ∧
      blocks'.flatten ++ es' = blocks.flatten ++ es ++ c.entries := by
  cases c with
  | writeRecord typ data => exact h.writeRecord hc hp hfew
  | sync ckpt =>
    obtain ⟨blocks', es', hlogged, hsame⟩ := h.sync hp hfew hsince
    exact ⟨blocks', es', hlogged, hsame.trans (List.append_nil _).symm⟩
  | checkpoint =>
    obtain ⟨r, seq, disk, l, hat, hfill, -, -⟩ := h.found
    have hrep : Rep H false r.checkpoint t := hp.rep hat.1 hfill.usable
    have hmore := Ring.checkpoints_mono (r.events_sync true)
    rw [hrep.events, hat.1.events] at hsince
    change checkpoints (r.sync true).retire.events = _ at hsince
    rw [Ring.checkpoints_retire] at hsince
    omega

/-- The ring keeps its size, and the counters only grow. -/
structure Extends (s t : State σ) : Prop where
  size : t.journal.journalEnd - t.journal.journalStart =
    s.journal.journalEnd - s.journal.journalStart
  records : recordBlocks s.events ≤ recordBlocks t.events
  checkpoints : checkpoints s.events ≤ checkpoints t.events

theorem Extends.trans {u : State σ} (hst : Extends s t) (htu : Extends t u) : Extends s u :=
  ⟨htu.size.trans hst.size, hst.records.trans htu.records, hst.checkpoints.trans htu.checkpoints⟩

theorem Performed.extends {c : JournalCall} (hp : Performed H s c t)
    (hs : Rep H false r s) (h : r.Usable) : Extends s t := by
  have ht := hp.rep hs h
  refine ⟨?_, ?_, ?_⟩
  · rw [ht.size, hs.size, r.call_start, r.call_stop]
  · rw [ht.events, hs.events]
    exact Ring.recordBlocks_mono (r.events_call c)
  · rw [ht.events, hs.events]
    exact Ring.checkpoints_mono (r.events_call c)

theorem run_extends {cs : List JournalCall} (hrun : Run (Performed H) s cs t)
    (hs : Rep H false r s) (h : r.Usable) :
    Extends s t ∧ ∃ q, Rep H false q t ∧ q.Usable := by
  refine hrun.preserves (I := fun t => Extends s t ∧ ∃ q, Rep H false q t ∧ q.Usable)
    ⟨⟨rfl, le_rfl, le_rfl⟩, r, hs, h⟩ fun u c v hu hp => ?_
  obtain ⟨hext, q, hq, husable⟩ := hu
  exact ⟨hext.trans (hp.extends hq husable), q.call c, hp.rep hq husable, husable.call c⟩

/-- A run that takes no checkpoint and stays two blocks short of a lap. -/
theorem Logged.run {cs : List JournalCall} (h : Logged H dev base blocks es s)
    (hrun : Run (Performed H) s cs t) (hcs : ∀ c ∈ cs, c.Short)
    (hfew : recordBlocks t.events + 2 <
      base + (s.journal.journalEnd - s.journal.journalStart))
    (hsince : Journal.checkpoints t.events = Journal.checkpoints s.events) :
    ∃ blocks' es', Logged H dev base blocks' es' t ∧
      blocks'.flatten ++ es' = blocks.flatten ++ es ++ cs.flatMap JournalCall.entries := by
  obtain ⟨r, seq, disk, l, hat, hfill, -, -⟩ := h.found
  induction hrun with
  | nil => exact ⟨blocks, es, h, (List.append_nil _).symm⟩
  | @snoc t u cs c hrun hlast ih =>
    obtain ⟨hext, q, hq, husable⟩ := run_extends hrun hat.1 hfill.usable
    have hstep := hlast.extends hq husable
    have hmore := hstep.records
    have hckpt := hstep.checkpoints
    have hckpt' := hext.checkpoints
    obtain ⟨blocks', es', hlogged, hsame⟩ := ih (fun c' hc' => hcs c' (by simp [hc']))
      (by omega) (by omega)
    rw [← hext.size] at hfew
    obtain ⟨blocks'', es'', hlogged', hsame'⟩ := hlogged.call (hcs c (by simp)) hlast hfew (by omega)
    refine ⟨blocks'', es'', hlogged', ?_⟩
    rw [hsame', hsame, List.flatMap_append, List.flatMap_singleton]
    simp only [List.append_assoc]

end Steps

end Briefs.Journal
