import Briefs.Journal.Calls

/-!
# Live blocks and the writes that hit them

`Sync` retires a full ring before it writes, `WriteRecord` looks at the ring
only after it has written. So a live block is overwritten exactly when a record
that does not fit the current block arrives while the ring is full.
-/

namespace Briefs.Journal

open Lib Lib.Call

variable {σ : Type}

/-- The call is a record that does not fit the current block of a full ring. -/
def OverflowsFull (s : State σ) : JournalCall → Prop
  | .writeRecord _ data =>
      s.journal.overflows data ∧ s.journal.writePos = s.journal.sb.journalLogStart ∧
        0 < s.journal.blocksSinceCheckpoint
  | .sync _ => False
  | .checkpoint => False

namespace Ring

def OverflowsFull (r : Ring) : JournalCall → Prop
  | .writeRecord _ data => r.overflows (recordSize data) ∧ r.full
  | .sync _ => False
  | .checkpoint => False

def Sound (r : Ring) : Prop :=
  NeverOverwritten r.events ∧ ∃ d l, r.Filled d l ∧ (d = r.slots → 0 < l)

variable {r : Ring}

theorem Sound.usable (h : r.Sound) : r.Usable := by
  obtain ⟨-, d, l, hfill, -⟩ := h
  exact hfill.usable

theorem record_notMem_allocEvents (r : Ring) (block : ℕ) : .record block ∉ r.allocEvents := by
  unfold allocEvents
  split_ifs <;> simp

theorem neverOverwritten_retire : NeverOverwritten r.retire.events ↔ NeverOverwritten r.events := by
  have hev : r.retire.events = r.events ++ (r.allocEvents ++
      [.checkpointBlock (r.stop - 1), .superblock .checkpoint r.writePos r.writePos]) := by
    simp [retire]
  rw [hev]
  exact neverOverwritten_append fun block => by simp [record_notMem_allocEvents]

theorem neverOverwritten_commit : NeverOverwritten r.commit.events ↔ NeverOverwritten r.events := by
  have hev : r.commit.events = r.events ++ (.superblock .commit r.logStart r.writePos ::
      ({ r with
        logEnd := r.writePos
        events := r.events ++ [.superblock .commit r.logStart r.writePos] } : Ring).allocEvents) := by
    simp [commit, persistAllocs]
  rw [hev]
  exact neverOverwritten_append fun block => by simp [record_notMem_allocEvents]

theorem Sound.retire (h : r.Sound) : r.retire.Sound := by
  obtain ⟨hno, d, l, hfill, -⟩ := h
  refine ⟨neverOverwritten_retire.mpr hno, 0, 0, hfill.retire, fun hzero => ?_⟩
  exact absurd hzero (Nat.ne_of_lt (Nat.zero_lt_of_lt hfill.retire.base_lt))

theorem Sound.append (h : r.Sound) (size : ℕ) : (r.append size).Sound := by
  obtain ⟨hno, d, l, hfill, hl⟩ := h
  exact ⟨hno, d, l, hfill.append size, hl⟩

/-- A record that does not fit is sound as long as the ring is not full. -/
theorem Sound.makeRoom (h : r.Sound) (hroom : ¬ r.full) : r.makeRoom.Sound := by
  obtain ⟨hno, d, l, hfill, -⟩ := h
  have hd : d < r.slots := by
    have := hfill.lap
    have := mt hfill.full_iff.mpr hroom
    omega
  have hflush := hfill.flush hd
  have hnof := hfill.flush_neverOverwritten hd hno
  unfold Ring.makeRoom
  split_ifs with hwrap
  · refine ⟨neverOverwritten_retire.mpr hnof, 0, 0, hflush.retire, fun hzero => ?_⟩
    exact absurd hzero (Nat.ne_of_lt (Nat.zero_lt_of_lt hflush.retire.base_lt))
  · refine ⟨hnof, d + 1, l, hflush, fun hlap => ?_⟩
    exact absurd (hflush.writePos_eq_logStart.mpr (.inr hlap)) hwrap

theorem Sound.syncEntry (h : r.Sound) : r.syncEntry.Sound ∧ ¬ r.syncEntry.full := by
  unfold Ring.syncEntry
  split_ifs with hfull
  · refine ⟨h.retire, fun hf => ?_⟩
    exact absurd hf.2 (Nat.lt_irrefl 0)
  · exact ⟨h, hfull⟩

theorem Sound.flush_commit (h : r.Sound) (hroom : ¬ r.full) : r.flush.commit.Sound := by
  obtain ⟨hno, d, l, hfill, -⟩ := h
  have hd : d < r.slots := by
    have := hfill.lap
    have := mt hfill.full_iff.mpr hroom
    omega
  refine ⟨neverOverwritten_commit.mpr (hfill.flush_neverOverwritten hd hno), d + 1, d + 1,
    (hfill.flush hd).commit, fun _ => Nat.succ_pos d⟩

theorem Sound.sync (h : r.Sound) (ckpt : Bool) : (r.sync ckpt).Sound := by
  obtain ⟨hentry, hroom⟩ := h.syncEntry
  have hcommit := hentry.flush_commit hroom
  have hperiodic : (r.syncEntry.flush.commit.periodic ckpt).Sound := by
    unfold periodic
    split_ifs
    · exact hcommit.retire
    · exact hcommit
  unfold Ring.sync
  split_ifs
  · unfold backPressure
    split_ifs
    · exact hperiodic.retire
    · exact hperiodic
  · exact h

theorem Sound.call (h : r.Sound) {c : JournalCall} (hc : ¬ r.OverflowsFull c) :
    (r.call c).Sound := by
  cases c with
  | writeRecord typ data =>
    change (r.writeRecord (recordSize data)).Sound
    unfold Ring.writeRecord
    split_ifs with ho
    · exact (h.makeRoom fun hf => hc ⟨ho, hf⟩).append _
    · exact h.append _
  | sync ckpt => exact h.sync ckpt
  | checkpoint => exact (h.sync true).retire

/-- A record that does not fit a full ring goes over the oldest live block. -/
theorem Sound.overwrites (h : r.Sound) {c : JournalCall} (hc : r.OverflowsFull c) :
    ¬ NeverOverwritten (r.call c).events := by
  cases c with
  | writeRecord typ data =>
    obtain ⟨-, d, l, hfill, hl⟩ := h
    obtain ⟨ho, hfull⟩ := hc
    obtain rfl := hfill.full_iff.mp hfull
    have hflush := hfill.flush_full (hl rfl)
    have hroom : ¬ NeverOverwritten r.makeRoom.events := by
      unfold Ring.makeRoom
      split_ifs
      · rwa [neverOverwritten_retire]
      · exact hflush
    change ¬ NeverOverwritten (r.writeRecord (recordSize data)).events
    unfold Ring.writeRecord
    rw [if_pos ho]
    exact hroom
  | sync ckpt => exact hc.elim
  | checkpoint => exact hc.elim

end Ring

theorem Rep.overflowsFull_iff {H : Hooks σ} {b : Bool} {r : Ring} {s : State σ} (hs : Rep H b r s)
    (c : JournalCall) : r.OverflowsFull c ↔ OverflowsFull s c := by
  rw [← hs.ring]
  cases c <;> rfl

theorem NeverOverwritten.mono {es fs : List Event} (h : NeverOverwritten fs) (hes : es <+: fs) :
    NeverOverwritten es := by
  obtain ⟨tail, rfl⟩ := hes
  intro before block after hsplit
  exact h before block (after ++ tail) (by simp [hsplit])

/-- In a run of successful calls from an empty ring no live block is ever
overwritten, exactly when no record of the run arrives at a full ring without
fitting the current block. -/
theorem neverOverwritten_iff {H : Hooks σ} {s t : State σ} {cs : List JournalCall}
    (h0 : Opened s) (hrun : Run (Performed H) s cs t) :
    NeverOverwritten t.events ↔
      Always (Performed H) (fun u c _ => ¬ OverflowsFull u c) s cs := by
  have hsound : (ringOf H s).Sound := by
    refine ⟨?_, 0, 0, h0.filled H, fun hzero => ?_⟩
    · simpa [ringOf, h0.noWrites] using neverOverwritten_nil
    · exact absurd hzero (Nat.ne_of_lt (Nat.zero_lt_of_lt (h0.filled H).base_lt))
  refine hrun.holds_iff (B := fun u => ∃ r, Rep H false r u ∧ r.Usable)
    (I := fun u => ∃ r, Rep H false r u ∧ r.Sound) (Q := fun u => NeverOverwritten u.events)
    (performed_det H)
    ⟨_, h0.rep H, hsound.usable⟩ ⟨_, h0.rep H, hsound⟩ ?_ ?_ ?_ ?_ ?_
  · rintro u c v ⟨r, hrep, husable⟩ hstep
    exact ⟨r.call c, hstep.rep hrep husable, husable.call c⟩
  · rintro u c v ⟨r, hrep, hs⟩ hstep hgood
    exact ⟨r.call c, hstep.rep hrep hs.usable, hs.call (mt (hrep.overflowsFull_iff c).mp hgood)⟩
  · rintro u ⟨r, hrep, hs⟩
    have hev : u.events = r.events := by rw [← hrep.ring]; rfl
    rw [hev]
    exact hs.1
  · rintro u c v ⟨r, hrep, hs⟩ hstep hbad
    have hev : v.events = (r.call c).events := by
      rw [← (hstep.rep hrep hs.usable).ring]
      rfl
    rw [hev]
    exact hs.overwrites ((hrep.overflowsFull_iff c).mpr (not_not.mp hbad))
  · rintro u c v ⟨r, hrep, husable⟩ hstep hno
    have hu : u.events = r.events := by rw [← hrep.ring]; rfl
    have hv : v.events = (r.call c).events := by
      rw [← (hstep.rep hrep husable).ring]
      rfl
    rw [hv] at hno
    rw [hu]
    exact hno.mono (r.events_call c)

section Sample

def blockPayload : Bytes := List.replicate 4064 0

theorem blockPayload_length : blockPayload.length = 4064 := List.length_replicate

def blockRecord : JournalCall := .writeRecord jrnInodeFull blockPayload

theorem blockRecord_accepted : blockRecord.Accepted := by
  refine ⟨by decide, by decide, ?_, ?_⟩
  · rw [blockPayload_length]
    decide
  · rw [blockPayload_length]
    decide

theorem ringOf_openedRing (n : ℕ) :
    ringOf idleHooks (openedRing n) =
      { start := 1, stop := 1 + n, allocs := false, writePos := 1, logStart := 1, logEnd := 1
        offset := 16, records := 0, blocks := 0, dirty := false, events := [] } := rfl

/-- Three synced blocks fill a ring of four; the fifth record does not fit the fourth block. -/
def fillThenOverflow : List JournalCall :=
  [blockRecord, .sync false, blockRecord, .sync false, blockRecord, .sync false, blockRecord,
    blockRecord]

theorem fillThenOverflow_run :
    ∃ t, Run (Performed idleHooks) (openedRing 4) fillThenOverflow t ∧
      Rep idleHooks false (fillThenOverflow.foldl Ring.call (ringOf idleHooks (openedRing 4))) t := by
  have hopen := openedRing_opened (n := 4) (by decide) (by decide)
  refine run_of_reliable idleHooks_reliable ?_ (hopen.rep idleHooks) (hopen.filled idleHooks).usable
  intro c hc
  simp only [fillThenOverflow, List.mem_cons, List.not_mem_nil, or_false] at hc
  rcases hc with rfl | rfl | rfl | rfl | rfl | rfl | rfl | rfl <;>
    first | exact blockRecord_accepted | trivial

theorem overwritten_ring_of_four :
    Opened (openedRing 4) ∧ ∃ t, Run (Performed idleHooks) (openedRing 4) fillThenOverflow t ∧
      ¬ NeverOverwritten t.events := by
  obtain ⟨t, hrun, hrep⟩ := fillThenOverflow_run
  refine ⟨openedRing_opened (by decide) (by decide), t, hrun, fun hno => ?_⟩
  have hev : t.events = [.record 1, .superblock .commit 1 2, .record 2, .superblock .commit 1 3,
      .record 3, .superblock .commit 1 1] ++ .record 1 :: [] := by
    change (ringOf idleHooks t).events = _
    rw [hrep.ring, ringOf_openedRing]
    decide +kernel
  exact hno _ 1 [] hev (by decide)

theorem neverOverwritten_iff_ring_of_four :
    ∃ t, Run (Performed idleHooks) (openedRing 4) fillThenOverflow t ∧
      (NeverOverwritten t.events ↔ Always (Performed idleHooks)
        (fun u c _ => ¬ OverflowsFull u c) (openedRing 4) fillThenOverflow) := by
  obtain ⟨t, hrun, -⟩ := fillThenOverflow_run
  exact ⟨t, hrun, neverOverwritten_iff (openedRing_opened (by decide) (by decide)) hrun⟩

end Sample

end Briefs.Journal
