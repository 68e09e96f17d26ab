import Briefs.Journal.Overwrite

/-!
# What the persisted superblock says after a sync

Replay treats a log with `log_start = log_end` as clean. A sync whose advance
lands on `log_start` persists exactly that with a whole lap of committed blocks
behind it, unless a periodic checkpoint retires them in the same call; no other
sync leaves committed work behind a clean superblock.
-/

namespace Briefs.Journal

open Lib Lib.Call

variable {σ : Type}

/-- The log boundaries on the device, from those at the start and the writes since. -/
def persisted (log : ℕ × ℕ) (es : List Event) : ℕ × ℕ :=
  es.foldl (fun log e =>
    match e with
    | .superblock _ logStart logEnd => (logStart, logEnd)
    | .record _ => log
    | .checkpointBlock _ => log) log

theorem persisted_append (log : ℕ × ℕ) (es fs : List Event) :
    persisted log (es ++ fs) = persisted (persisted log es) fs := by
  simp [persisted]

def logRange (s : State σ) : ℕ × ℕ := (s.journal.sb.journalLogStart, s.journal.sb.journalLogEnd)

/-- The usable block after the write position. -/
def nextUsable (j : Journal) : ℕ :=
  if j.nextBlock j.writePos = j.checkpointBlk then j.nextBlock j.checkpointBlk
  else j.nextBlock j.writePos

/-- A sync that writes the last free block of the ring and is not followed by the
periodic checkpoint. -/
def CompletesLap (s : State σ) (ckpt : Bool) : Prop :=
  s.journal.dirty ∧ nextUsable s.journal = s.journal.sb.journalLogStart ∧
    ¬ (ckpt ∧ jrnCheckpointInterval ≤ s.journal.recordsSinceCheckpoint)

/-- After a sync, committed work that is not retired shows in the superblock. -/
def SyncVisible (log : ℕ × ℕ) (c : JournalCall) (t : State σ) : Prop :=
  ∀ ckpt, c = .sync ckpt → (window t.events).live ≠ [] →
    (persisted log t.events).1 ≠ (persisted log t.events).2

namespace Ring

def CompletesLap (r : Ring) (ckpt : Bool) : Prop :=
  r.dirty ∧ r.nextUsable = r.logStart ∧ ¬ (ckpt ∧ jrnCheckpointInterval ≤ r.records)

/-- The boundaries on the device are those in memory. -/
def Tracked (log : ℕ × ℕ) (r : Ring) : Prop := persisted log r.events = (r.logStart, r.logEnd)

/-- The invariant at call boundaries: the boundaries are on the device and a
block is free. -/
def Open (log : ℕ × ℕ) (r : Ring) : Prop :=
  r.Tracked log ∧ ∃ d l, r.Filled d l ∧ d < r.slots

variable {log : ℕ × ℕ} {r : Ring}

theorem Tracked.flush (h : r.Tracked log) : r.flush.Tracked log := by
  unfold Tracked
  change persisted log (r.events ++ [.record r.writePos]) = (r.logStart, r.logEnd)
  rw [persisted_append, h]
  rfl

theorem persisted_allocEvents (r : Ring) :
    persisted (r.logStart, r.logEnd) r.allocEvents = (r.logStart, r.logEnd) := by
  unfold allocEvents
  split_ifs <;> rfl

theorem tracked_commit (log : ℕ × ℕ) (r : Ring) : r.commit.Tracked log := by
  unfold Tracked commit persistAllocs
  rw [persisted_append, persisted_append]
  exact persisted_allocEvents
    ({ r with
      logEnd := r.writePos
      events := r.events ++ [.superblock .commit r.logStart r.writePos] } : Ring)

theorem tracked_retire (log : ℕ × ℕ) (r : Ring) : r.retire.Tracked log := by
  unfold Tracked retire
  rw [persisted_append]
  rfl

theorem Open.usable (h : r.Open log) : r.Usable := by
  obtain ⟨-, d, l, hfill, -⟩ := h
  exact hfill.usable

theorem Open.not_full (h : r.Open log) : ¬ r.full := by
  obtain ⟨-, d, l, hfill, hd⟩ := h
  rw [hfill.full_iff]
  omega

theorem open_retire {d l : ℕ} (h : r.Filled d l) : r.retire.Open log :=
  ⟨tracked_retire log r, 0, 0, h.retire, Nat.zero_lt_of_lt h.retire.base_lt⟩

theorem Open.makeRoom (h : r.Open log) : r.makeRoom.Open log := by
  obtain ⟨htrack, d, l, hfill, hd⟩ := h
  have hflush := hfill.flush hd
  unfold Ring.makeRoom
  split_ifs with hwrap
  · exact open_retire hflush
  · refine ⟨htrack.flush, d + 1, l, hflush, lt_of_le_of_ne hflush.lap fun hlap => ?_⟩
    exact hwrap (hflush.writePos_eq_logStart.mpr (.inr hlap))

theorem Open.writeRecord (h : r.Open log) (size : ℕ) : (r.writeRecord size).Open log := by
  have happend : ∀ q : Ring, q.Open log → (q.append size).Open log := by
    rintro q ⟨htrack, d, l, hfill, hd⟩
    exact ⟨htrack, d, l, hfill.append size, hd⟩
  unfold Ring.writeRecord
  split_ifs
  · exact happend _ h.makeRoom
  · exact happend _ h

/-- The move of a sync comes back to `logStart` when it uses up the last free block. -/
theorem Filled.nextUsable_eq_logStart {d l : ℕ} (h : r.Filled d l) (hd : d < r.slots) :
    r.nextUsable = r.logStart ↔ d + 1 = r.slots := by
  have hiff := (h.flush hd).writePos_eq_logStart
  change r.nextUsable = r.logStart ↔ d + 1 = 0 ∨ d + 1 = r.slots at hiff
  rw [hiff]
  omega

/-- An open ring is dirty-marked exactly when it holds committed work. -/
theorem Open.visible (h : r.Open log) (hlive : (window r.events).live ≠ []) :
    (persisted log r.events).1 ≠ (persisted log r.events).2 := by
  obtain ⟨htrack, d, l, hfill, hd⟩ := h
  have hl : 0 < l := by
    by_contra hzero
    obtain rfl : l = 0 := by omega
    exact hlive hfill.live
  have horder := hfill.order
  rw [htrack]
  rw [hfill.logEnd, ← hfill.nth_zero]
  intro heq
  unfold nth at heq
  have := (slot_inj (Nat.zero_le l) (by omega)).mp (Nat.add_left_cancel heq)
  omega

theorem Open.sync_eq (h : r.Open log) (ckpt : Bool) (hdirty : r.dirty) :
    r.sync ckpt = (r.flush.commit.periodic ckpt).backPressure := by
  rw [Ring.sync, if_pos hdirty, syncEntry, if_neg h.not_full]

theorem Open.sync (h : r.Open log) {ckpt : Bool} (hgood : ¬ r.CompletesLap ckpt) :
    (r.sync ckpt).Open log := by
  by_cases hdirty : r.dirty
  · rw [h.sync_eq ckpt hdirty]
    obtain ⟨htrack, d, l, hfill, hd⟩ := h
    have hcommit := (hfill.flush hd).commit
    unfold backPressure periodic
    split_ifs with hper hnext hnext
    · exact open_retire hcommit.retire
    · exact open_retire hcommit
    · exact open_retire hcommit
    · refine ⟨tracked_commit log _, d + 1, d + 1, hcommit, lt_of_le_of_ne hd fun hlap => ?_⟩
      exact hgood ⟨hdirty, (hfill.nextUsable_eq_logStart hd).mpr hlap, hper⟩
  · rw [Ring.sync, if_neg hdirty]
    exact h

theorem Open.call (h : r.Open log) {c : JournalCall}
    (hgood : ∀ ckpt, c = .sync ckpt → ¬ r.CompletesLap ckpt) : (r.call c).Open log := by
  cases c with
  | writeRecord typ data => exact h.writeRecord _
  | sync ckpt => exact h.sync (hgood ckpt rfl)
  | checkpoint =>
    obtain ⟨-, d, l, hfill, -⟩ := h
    obtain ⟨d', l', hsync⟩ := hfill.sync true
    exact open_retire hsync

/-- The sync that completes a lap persists equal boundaries over committed blocks. -/
theorem Open.completesLap (h : r.Open log) {ckpt : Bool} (hbad : r.CompletesLap ckpt) :
    (window (r.sync ckpt).events).live ≠ [] ∧
      (persisted log (r.sync ckpt).events).1 = (persisted log (r.sync ckpt).events).2 := by
  obtain ⟨hdirty, hlap, hper⟩ := hbad
  rw [h.sync_eq ckpt hdirty]
  obtain ⟨htrack, d, l, hfill, hd⟩ := h
  have hcommit := (hfill.flush hd).commit
  have hpos : r.flush.commit.writePos = r.flush.commit.logStart := hlap
  have hnext : r.flush.commit.next r.flush.commit.writePos ≠ r.flush.commit.logStart := by
    rw [hcommit.usable.next_eq, hpos]
    omega
  have hstay : (r.flush.commit.periodic ckpt).backPressure = r.flush.commit := by
    have hnoper : r.flush.commit.periodic ckpt = r.flush.commit := if_neg hper
    rw [hnoper]
    exact if_neg hnext
  rw [hstay]
  refine ⟨?_, ?_⟩
  · rw [hcommit.live]
    simp
  · rw [tracked_commit log r.flush]
    exact hpos.symm

end Ring

theorem Rep.completesLap_iff {H : Hooks σ} {b : Bool} {r : Ring} {s : State σ} (hs : Rep H b r s)
    (ckpt : Bool) : r.CompletesLap ckpt ↔ CompletesLap s ckpt := by
  have hnext : r.nextUsable = nextUsable s.journal := by
    rw [← hs.ring, nextUsable, hs.checkpointBlk]
    rfl
  unfold Ring.CompletesLap CompletesLap
  rw [hnext, ← hs.ring]
  rfl

/-- Along a run of successful calls from an empty ring every sync that leaves
committed, unretired work persists different boundaries, exactly when no sync of
the run completes a lap of the ring. -/
theorem syncVisible_iff {H : Hooks σ} {s t : State σ} {cs : List JournalCall} (h0 : Opened s)
    (hrun : Run (Performed H) s cs t) :
    Always (Performed H) (fun _ c u => SyncVisible (logRange s) c u) s cs ↔
      Always (Performed H) (fun u c _ => ∀ ckpt, c = .sync ckpt → ¬ CompletesLap u ckpt) s cs := by
  have hopen : (ringOf H s).Open (logRange s) := by
    have hfill := h0.filled H
    refine ⟨?_, 0, 0, hfill, Nat.zero_lt_of_lt hfill.base_lt⟩
    simp [Ring.Tracked, ringOf, h0.noWrites, persisted, logRange]
  refine hrun.always_iff (I := fun u => ∃ r, Rep H false r u ∧ r.Open (logRange s))
    ⟨_, h0.rep H, hopen⟩ ?_ ?_
  · rintro u c v ⟨r, hrep, hr⟩ hstep hgood
    refine ⟨r.call c, hstep.rep hrep hr.usable, hr.call fun ckpt hc => ?_⟩
    exact mt (hrep.completesLap_iff ckpt).mp (hgood ckpt hc)
  · rintro u c v ⟨r, hrep, hr⟩ hstep
    have hev : v.events = (r.call c).events := by
      rw [← (hstep.rep hrep hr.usable).ring]
      rfl
    unfold SyncVisible
    rw [hev]
    constructor
    · rintro hvisible ckpt rfl hlap
      obtain ⟨hlive, heq⟩ := hr.completesLap ((hrep.completesLap_iff ckpt).mpr hlap)
      exact hvisible ckpt rfl hlive heq
    · rintro hgood ckpt rfl hlive
      have hgood' := mt (hrep.completesLap_iff ckpt).mp (hgood ckpt rfl)
      exact (hr.sync hgood').visible hlive

section Sample

/-- Three synced blocks: the third sync completes the lap of a ring of four. -/
def syncThreeBlocks : List JournalCall :=
  [blockRecord, .sync false, blockRecord, .sync false, blockRecord, .sync false]

theorem syncThreeBlocks_run :
    ∃ t, Run (Performed idleHooks) (openedRing 4) syncThreeBlocks t ∧
      Rep idleHooks false (syncThreeBlocks.foldl Ring.call (ringOf idleHooks (openedRing 4))) t := by
  have hopen := openedRing_opened (n := 4) (by decide) (by decide)
  refine run_of_reliable idleHooks_reliable ?_ (hopen.rep idleHooks) (hopen.filled idleHooks).usable
  intro c hc
  simp only [syncThreeBlocks, List.mem_cons, List.not_mem_nil, or_false] at hc
  rcases hc with rfl | rfl | rfl | rfl | rfl | rfl <;>
    first | exact blockRecord_accepted | trivial

theorem clean_superblock_over_committed_work :
    Opened (openedRing 4) ∧ ∃ t, Run (Performed idleHooks) (openedRing 4) syncThreeBlocks t ∧
      ¬ SyncVisible (logRange (openedRing 4)) (.sync false) t := by
  obtain ⟨t, hrun, hrep⟩ := syncThreeBlocks_run
  refine ⟨openedRing_opened (by decide) (by decide), t, hrun, fun hvisible => ?_⟩
  have hev : t.events = [.record 1, .superblock .commit 1 2, .record 2, .superblock .commit 1 3,
      .record 3, .superblock .commit 1 1] := by
    change (ringOf idleHooks t).events = _
    rw [hrep.ring, ringOf_openedRing]
    decide +kernel
  have hne := hvisible false rfl
  rw [hev] at hne
  exact hne (by decide) (by decide)

theorem syncVisible_iff_ring_of_four :
    ∃ t, Run (Performed idleHooks) (openedRing 4) syncThreeBlocks t ∧
      (Always (Performed idleHooks) (fun _ c u => SyncVisible (logRange (openedRing 4)) c u)
          (openedRing 4) syncThreeBlocks ↔
        Always (Performed idleHooks) (fun u c _ => ∀ ckpt, c = .sync ckpt → ¬ CompletesLap u ckpt)
          (openedRing 4) syncThreeBlocks) := by
  obtain ⟨t, hrun, -⟩ := syncThreeBlocks_run
  exact ⟨t, hrun, syncVisible_iff (openedRing_opened (by decide) (by decide)) hrun⟩

end Sample

end Briefs.Journal
