import Briefs.Journal.Window

/-!
# Runs of journal calls

A run is a sequence of `WriteRecord`, `Sync` and `Checkpoint` calls that all
return success, from a journal opened on an empty log. Each call has the effect
of the ring function of the same name, and over a bridge that does not fail
every call with acceptable arguments returns.
-/

namespace Briefs.Journal

open Lib Lib.Call

variable {r : Ring}

inductive JournalCall
  | writeRecord (typ : UInt32) (data : Bytes)
  | sync (checkpoint : Bool)
  | checkpoint

variable {σ : Type}

def JournalCall.perform (H : Hooks σ) : JournalCall → Call (State σ) Unit
  | .writeRecord typ data => Journal.writeRecord H typ data
  | .sync ckpt => Journal.sync H ckpt
  | .checkpoint => Journal.checkpoint H

def JournalCall.Accepted : JournalCall → Prop
  | .writeRecord typ data => Writable typ data
  | .sync _ => True
  | .checkpoint => True

def Ring.call (r : Ring) : JournalCall → Ring
  | .writeRecord _ data => r.writeRecord (recordSize data)
  | .sync ckpt => r.sync ckpt
  | .checkpoint => r.checkpoint

theorem Ring.Usable.call (h : r.Usable) (c : JournalCall) : (r.call c).Usable := by
  cases c with
  | writeRecord typ data => exact h.writeRecord _
  | sync ckpt => exact h.sync ckpt
  | checkpoint => exact (h.sync true).retire

theorem Ring.events_call (r : Ring) (c : JournalCall) : r.events <+: (r.call c).events := by
  cases c with
  | writeRecord typ data => exact r.events_writeRecord _
  | sync ckpt => exact r.events_sync ckpt
  | checkpoint => exact (r.events_sync true).trans (events_retire _)

def Performed (H : Hooks σ) (s : State σ) (c : JournalCall) (t : State σ) : Prop :=
  c.perform H s = (.ok (), t)

def State.events (s : State σ) : List Event := s.writes.map DevWrite.event

/-- `log_start = log_end`, at a block of the ring other than the checkpoint block. -/
structure EmptyLog (sb : SuperblockLayout) : Prop where
  lo : sb.journalOffset ≤ sb.journalLogStart
  hi : sb.journalLogStart + 1 < sb.journalOffset + sb.journalBlocks
  empty : sb.journalLogEnd = sb.journalLogStart

/-- A journal just opened on an empty log. -/
structure Opened (s : State σ) : Prop where
  opened : newJournal s.journal.sb = .ok s.journal
  emptyLog : EmptyLog s.journal.sb
  noWrites : s.writes = []

theorem perform_triple {H : Hooks σ} (h : r.Usable) (c : JournalCall) :
    Triple (¬ H.Reliable ∨ ¬ c.Accepted) (Rep H false r) (c.perform H)
      fun _ => Rep H false (r.call c) := by
  cases c with
  | writeRecord typ data => exact writeRecord_triple h typ data
  | sync ckpt => exact Triple.weaken (syncLocked_steps h) Or.inl
  | checkpoint => exact Triple.weaken (checkpointLocked_steps h) Or.inl

theorem Performed.rep {H : Hooks σ} {s t : State σ} {c : JournalCall}
    (hp : Performed H s c t) (hs : Rep H false r s) (h : r.Usable) : Rep H false (r.call c) t :=
  (perform_triple h c).of_ok hs hp

theorem performed_of_reliable {H : Hooks σ} {s : State σ} {c : JournalCall}
    (hH : H.Reliable) (hc : c.Accepted) (hs : Rep H false r s) (h : r.Usable) :
    ∃ t, Performed H s c t ∧ Rep H false (r.call c) t := by
  have htriple := (perform_triple h c).weaken (δ := False) fun hbad =>
    hbad.elim (fun hn => hn hH) fun hn => hn hc
  obtain ⟨_, t, ht, hrep⟩ := htriple.succeeds hs
  exact ⟨t, ht, hrep⟩

/-- Over a reliable bridge every sequence of acceptable calls is a run. -/
theorem run_of_reliable {H : Hooks σ} {s : State σ} {cs : List JournalCall}
    (hH : H.Reliable) (hcs : ∀ c ∈ cs, c.Accepted) (hs : Rep H false r s) (h : r.Usable) :
    ∃ t, Run (Performed H) s cs t ∧ Rep H false (cs.foldl Ring.call r) t := by
  induction cs generalizing r s with
  | nil => exact ⟨s, .nil s, hs⟩
  | cons c cs ih =>
    obtain ⟨u, hu, hrep⟩ := performed_of_reliable hH (hcs c (by simp)) hs h
    obtain ⟨t, hrun, ht⟩ := ih (fun c' hc' => hcs c' (by simp [hc'])) hrep (h.call c)
    refine ⟨t, ?_, ht⟩
    exact run_append.mpr ⟨u, .snoc (.nil s) hu, hrun⟩

theorem performed_det (H : Hooks σ) (s : State σ) (c : JournalCall) (t u : State σ)
    (ht : Performed H s c t) (hu : Performed H s c u) : t = u := by
  unfold Performed at ht hu
  simpa [ht] using hu

theorem newJournal_ok {sb : SuperblockLayout} {j : Journal} (h : newJournal sb = .ok j) :
    journalMinBlocks ≤ sb.journalBlocks ∧ sb.journalBlocks ≤ journalMaxBlocks ∧
      j.journalStart = sb.journalOffset ∧ j.journalEnd = sb.journalOffset + sb.journalBlocks ∧
      j.checkpointBlk = j.journalEnd - 1 ∧ j.writePos = sb.journalLogStart ∧ j.sb = sb ∧
      j.blocksSinceCheckpoint = 0 ∧ j.inCheckpoint = false ∧ j.inReplay = false := by
  unfold newJournal validate at h
  dsimp only at h
  split_ifs at h with hgeom hmin hmax
  · cases h
  · cases h
  · cases h
  · injection h with h
    subst h
    have hsize : (ofSuperblock sb).journalEnd - (ofSuperblock sb).journalStart =
        sb.journalBlocks := Nat.add_sub_cancel_left _ _
    refine ⟨?_, ?_, rfl, rfl, rfl, rfl, rfl, rfl, rfl, rfl⟩
    · omega
    · omega

theorem Opened.rep {s : State σ} (h : Opened s) (H : Hooks σ) : Rep H false (ringOf H s) s := by
  obtain ⟨-, -, -, -, hck, -, -, -, hflag, hreplay⟩ := newJournal_ok h.opened
  exact ⟨rfl, hck, hflag, hreplay⟩

theorem Opened.filled {s : State σ} (h : Opened s) (H : Hooks σ) : (ringOf H s).Filled 0 0 := by
  obtain ⟨hmin, hmax, hstart, hstop, -, hpos, -, hblocks, -, -⟩ := newJournal_ok h.opened
  have hlo := h.emptyLog.lo
  have hhi := h.emptyLog.hi
  have hnil : (ringOf H s).events = [] := by simp [ringOf, h.noWrites]
  have hbase : (ringOf H s).logStart - (ringOf H s).start < (ringOf H s).slots := by
    simp only [ringOf, Ring.slots]
    omega
  have hzero : (ringOf H s).nth 0 = s.journal.sb.journalLogStart := by
    rw [Ring.nth, slot_zero hbase]
    simp only [ringOf]
    omega
  refine ⟨?_, ?_, ?_, ?_, le_rfl, Nat.zero_le _, ?_, ?_, ?_, ?_, ?_⟩
  · simp only [ringOf]
    omega
  · simp only [ringOf]
    omega
  · simpa [ringOf, hstart] using hlo
  · simpa [ringOf, hstop] using hhi
  · rw [hzero]
    exact hpos
  · rw [hzero]
    exact h.emptyLog.empty
  · rw [Nat.add_zero, Nat.div_eq_of_lt hbase]
    exact hblocks
  · rw [hnil]
    rfl
  · rw [hnil]
    rfl

section Sample

/-- A bridge that does nothing and never fails. -/
def idleHooks : Hooks Unit where
  write _ := pure ()
  drainPendingData := pure ()
  syncMeta := pure ()
  hasAllocSyncer := false
  syncAllocators := pure ()
  freeCounts _ := (0, 0)
  flushWB := pure ()
  kickWB := pure ()

theorem idleHooks_reliable : idleHooks.Reliable :=
  ⟨fun _ _ => rfl, fun _ => rfl, fun _ => rfl, fun _ => rfl, fun _ => rfl, fun _ => rfl⟩

/-- The superblock of an empty ring of `n` blocks from block 1 on. -/
def emptySuperblock (n : ℕ) : SuperblockLayout where
  journalOffset := 1
  journalBlocks := n
  checkpointSeq := 0
  journalLogStart := 1
  journalLogEnd := 1
  trieRootBlock := 0
  freeDataBlks := 0
  freeInodes := 0

def openedRing (n : ℕ) : State Unit where
  journal := (ofSuperblock (emptySuperblock n)).initCurBlock 0
  writes := []
  bridge := ()

theorem openedRing_opened {n : ℕ} (hmin : journalMinBlocks ≤ n) (hmax : n ≤ journalMaxBlocks) :
    Opened (openedRing n) := by
  have hmin' : 4 ≤ n := hmin
  refine ⟨?_, ⟨le_rfl, ?_, rfl⟩, rfl⟩
  · change newJournal (emptySuperblock n) = .ok ((ofSuperblock (emptySuperblock n)).initCurBlock 0)
    have hstart : (ofSuperblock (emptySuperblock n)).journalStart = 1 := rfl
    have hstop : (ofSuperblock (emptySuperblock n)).journalEnd = 1 + n := rfl
    have hok : (ofSuperblock (emptySuperblock n)).validate = .ok () := by
      unfold validate
      rw [if_neg (by omega), if_neg (by omega), if_neg (by omega)]
    unfold newJournal
    rw [hok]
    rfl
  · change 1 + 1 < 1 + n
    omega

end Sample

end Briefs.Journal
