import Briefs.Journal.Ring

/-!
# The journal calls refine the ring

`Steps H x r r'` says that the call `x`, from any journal state that `r`
describes, returns in a state that `r'` describes or fails, and that it fails
only if the bridge does. Each function of the write path gets one such
statement; callers use it and never look inside the function again.
-/

namespace Briefs.Journal

open Lib Lib.Call

variable {σ : Type}

/-- A bridge none of whose calls fails. -/
structure Hooks.Reliable (H : Hooks σ) : Prop where
  write : ∀ w b, (H.write w b).1 = .ok ()
  drainPendingData : ∀ b, (H.drainPendingData b).1 = .ok ()
  syncMeta : ∀ b, (H.syncMeta b).1 = .ok ()
  syncAllocators : ∀ b, (H.syncAllocators b).1 = .ok ()
  flushWB : ∀ b, (H.flushWB b).1 = .ok ()
  kickWB : ∀ b, (H.kickWB b).1 = .ok ()

def ringOf (H : Hooks σ) (s : State σ) : Ring where
  start := s.journal.journalStart
  stop := s.journal.journalEnd
  allocs := H.hasAllocSyncer
  writePos := s.journal.writePos
  logStart := s.journal.sb.journalLogStart
  logEnd := s.journal.sb.journalLogEnd
  offset := s.journal.writeOffset
  records := s.journal.recordsSinceCheckpoint
  blocks := s.journal.blocksSinceCheckpoint
  dirty := s.journal.dirty
  events := s.writes.map DevWrite.event

/-- The journal state is described by `r`, with `inCheckpoint` as given. -/
structure Rep (H : Hooks σ) (inCheckpoint : Bool) (r : Ring) (s : State σ) : Prop where
  ring : ringOf H s = r
  checkpointBlk : s.journal.checkpointBlk = s.journal.journalEnd - 1
  flag : s.journal.inCheckpoint = inCheckpoint
  inReplay : s.journal.inReplay = false

def Steps (H : Hooks σ) (x : Call (State σ) Unit) (c : Bool) (r r' : Ring) : Prop :=
  Triple (¬ H.Reliable) (Rep H c r) x fun _ => Rep H c r'

section Rules

variable {H : Hooks σ} {c : Bool} {r q w : Ring} {x y : Call (State σ) Unit}

theorem Steps.seq (hx : Steps H x c r q) (hy : Steps H y c q w) :
    Steps H (x >>= fun _ => y) c r w :=
  Triple.bind hx fun _ => hy

theorem Steps.context {msg : String} (hx : Steps H x c r q) : Steps H (context msg x) c r q :=
  Triple.context hx

theorem Steps.when_pos {p : Prop} [Decidable p] (hp : p) (hx : Steps H x c r q) :
    Steps H (when p x) c r q :=
  .when (fun _ => hx) fun h => absurd hp h

theorem Steps.when_neg {p : Prop} [Decidable p] (hp : ¬ p) : Steps H (when p x) c r r :=
  .when (fun h => absurd h hp) fun _ _ h => h

/-- A call that first reads the journal may use what its ring says about it. -/
theorem Steps.readJournal {f : Journal → Call (State σ) Unit}
    (hf : ∀ s, Rep H c r s → Steps H (f s.journal) c r q) :
    Steps H (readJournal >>= f) c r q := by
  intro s hs
  exact hf s hs s hs

theorem Steps.update {f : State σ → State σ} (hf : ∀ s, Rep H c r s → Rep H c q (f s)) :
    Steps H (update f) c r q :=
  Triple.update hf

theorem Steps.hook {x : Call σ Unit} (hx : H.Reliable → ∀ b, (x b).1 = .ok ()) :
    Steps H (hook x) c r r := by
  intro s hs
  unfold Journal.hook
  rcases h : x s.bridge with ⟨res, b⟩
  cases res with
  | ok u => exact ⟨hs.ring, hs.checkpointBlk, hs.flag, hs.inReplay⟩
  | error e =>
    intro hH
    have := hx hH s.bridge
    simp [h] at this

theorem Steps.inCheckpointDo (hx : Steps H x true r q) :
    Steps H (inCheckpointDo x) false r q := by
  refine Triple.bind (Q := fun _ => Rep H true r) ?_ fun _ => ?_
  · exact .update fun s hs => ⟨hs.ring, hs.checkpointBlk, rfl, hs.inReplay⟩
  · exact .ensuring (hx.conseq (fun _ h => h)
      fun _ s hs => ⟨hs.ring, hs.checkpointBlk, rfl, hs.inReplay⟩)

end Rules

section Calls

variable {H : Hooks σ} {c : Bool} {r : Ring} {s : State σ}

theorem writeThrough_steps (w : DevWrite) :
    Steps H (writeThrough H w) c r (r.note w.event) := by
  refine (Steps.hook fun hH => hH.write w).seq (.update fun s hs => ?_)
  refine ⟨?_, hs.checkpointBlk, hs.flag, hs.inReplay⟩
  rw [← hs.ring]
  simp [ringOf, Ring.note]

theorem writeBlock_steps {block : ℕ} (w : DevWrite) (hlo : r.start ≤ block)
    (hhi : block < r.stop) : Steps H (writeBlock H block w) c r (r.note w.event) := by
  refine .readJournal fun s hs => .ite (fun hout => ?_) fun _ => (writeThrough_steps w).context
  rw [← hs.ring] at hlo hhi
  simp only [ringOf] at hlo hhi
  omega

theorem refreshFreeCounts_steps : Steps H (refreshFreeCounts H) c r r := by
  refine .when (fun _ => ?_) fun _ _ hs => hs
  exact .update fun s hs => ⟨hs.ring, hs.checkpointBlk, hs.flag, hs.inReplay⟩

theorem syncSuperblock_steps (site : SuperSite) :
    Steps H (syncSuperblock H site) c r
      (r.note (.superblock site r.logStart r.logEnd)) := by
  refine refreshFreeCounts_steps.seq (.readJournal fun s hs => ?_)
  have hw := (writeThrough_steps (H := H) (c := c) (r := r) (.superblock site s.journal.sb))
  have hev : DevWrite.event (.superblock site s.journal.sb) =
      .superblock site r.logStart r.logEnd := by
    rw [← hs.ring]
    rfl
  rw [hev] at hw
  exact hw.context

theorem syncAllocators_steps : Steps H (syncAllocators H) c r r.persistAllocs := by
  intro s hs
  have hallocs : r.allocs = H.hasAllocSyncer := by
    rw [← hs.ring]
    rfl
  have hsteps : Steps H (syncAllocators H) c r r.persistAllocs := by
    by_cases h : H.hasAllocSyncer
    · have heq : r.persistAllocs = r.note (.superblock .allocators r.logStart r.logEnd) := by
        simp [Ring.persistAllocs, Ring.allocEvents, Ring.note, hallocs, h]
      rw [heq]
      exact .when_pos h
        ((Steps.hook fun hH => hH.syncAllocators).seq (syncSuperblock_steps .allocators)).context
    · have hnone : r.allocEvents = [] := by
        simp [Ring.allocEvents, hallocs, h]
      have heq : r.persistAllocs = r := by
        simp [Ring.persistAllocs, hnone]
      rw [heq]
      exact .when_neg h
  exact hsteps s hs

@[simp] theorem advance_checkpointBlk (j : Journal) :
    j.advance.checkpointBlk = j.checkpointBlk := by
  simp only [advance]
  split_ifs <;> simp only [bump, initCurBlock]

@[simp] theorem advance_journalEnd (j : Journal) : j.advance.journalEnd = j.journalEnd := by
  simp only [advance]
  split_ifs <;> simp only [bump, initCurBlock]

@[simp] theorem advance_inCheckpoint (j : Journal) :
    j.advance.inCheckpoint = j.inCheckpoint := by
  simp only [advance]
  split_ifs <;> simp only [bump, initCurBlock]

@[simp] theorem advance_inReplay (j : Journal) : j.advance.inReplay = j.inReplay := by
  simp only [advance]
  split_ifs <;> simp only [bump, initCurBlock]

theorem rep_advance (hs : Rep H c r s) :
    Rep H c { r.flush with events := r.events } { s with journal := s.journal.advance } := by
  have hck := hs.checkpointBlk
  refine ⟨?_, ?_, ?_, ?_⟩
  · rw [← hs.ring]
    by_cases h : s.journal.nextBlock s.journal.writePos = s.journal.journalEnd - 1
    · simp only [nextBlock] at h
      simp [ringOf, Ring.flush, Ring.nextUsable, Ring.next, advance, bump, initCurBlock, nextBlock,
        hck, h]
    · simp only [nextBlock] at h
      simp [ringOf, Ring.flush, Ring.nextUsable, Ring.next, advance, bump, initCurBlock, nextBlock,
        hck, h]
  · simpa using hck
  · simpa using hs.flag
  · simpa using hs.inReplay

theorem flushCurBlock_steps (hlo : r.start ≤ r.writePos) (hhi : r.writePos < r.stop) :
    Steps H (flushCurBlock H) c r r.flush := by
  refine .readJournal fun s hs => ?_
  have hpos : s.journal.writePos = r.writePos := by
    rw [← hs.ring]
    rfl
  rw [hpos]
  refine (writeBlock_steps (.recordBlock r.writePos s.journal.curBlock) hlo hhi).seq ?_
  exact .update fun t ht => rep_advance ht

theorem rep_retire (hs : Rep H c r s) :
    Rep H c { r with logStart := r.writePos, logEnd := r.writePos, records := 0, blocks := 0 }
      { s with journal := s.journal.retire } := by
  refine ⟨?_, hs.checkpointBlk, hs.flag, hs.inReplay⟩
  rw [← hs.ring]
  rfl

theorem retireLive_steps (hgeom : r.start < r.stop) : Steps H (retireLive H) c r r.retire := by
  refine ((Steps.hook fun hH => hH.kickWB).context).seq (syncAllocators_steps.seq ?_)
  have hflush : Steps H (when H.hasAllocSyncer
      (context "briefs: checkpoint allocator flush" (hook H.flushWB))) c
      r.persistAllocs r.persistAllocs :=
    .when (fun _ => (Steps.hook fun hH => hH.flushWB).context) fun _ _ h => h
  refine hflush.seq (refreshFreeCounts_steps.seq (.readJournal fun t ht => ?_))
  have hck : t.journal.checkpointBlk = r.stop - 1 := by
    rw [ht.checkpointBlk]
    have hstop : (ringOf H t).stop = r.stop := by
      rw [ht.ring]
      rfl
    exact congrArg (· - 1) hstop
  rw [hck]
  have hstart : r.persistAllocs.start = r.start := rfl
  have hstop : r.persistAllocs.stop = r.stop := rfl
  refine ((writeBlock_steps _ (by omega) (by omega)).context).seq ?_
  have hretire := (Steps.update (H := H) (c := c) (r := r.persistAllocs.note
    (.checkpointBlock (r.stop - 1))) fun s hs => rep_retire hs).seq
    (syncSuperblock_steps .checkpoint)
  rw [r.retire_eq]
  exact hretire

variable {sync : Call (State σ) Unit} {checkpoint : Bool}

/-- A checkpoint with nothing pending, or told not to flush it, only retires. -/
theorem checkpointWith_steps {flushPending : Bool} (hpend : ¬ (flushPending ∧ r.dirty))
    (hgeom : r.start < r.stop) :
    Steps H (checkpointWith H sync flushPending) c r r.retire := by
  refine .readJournal fun s hs => (Steps.when_neg ?_).seq (retireLive_steps hgeom)
  rw [← hs.ring] at hpend
  exact hpend

theorem syncEntry_steps (hgeom : r.start < r.stop) :
    Steps H (syncEntry H sync) false r r.syncEntry := by
  refine .readJournal fun s hs => ?_
  unfold Ring.syncEntry
  have hfull : r.full ↔ s.journal.writePos = s.journal.sb.journalLogStart ∧
      0 < s.journal.blocksSinceCheckpoint := by
    rw [← hs.ring]
    rfl
  split_ifs with h
  · refine .when_pos ⟨by simp [hs.flag], hfull.mp h⟩ (.inCheckpointDo ?_)
    exact checkpointWith_steps (by simp) hgeom
  · exact .when_neg fun hc => h (hfull.mpr hc.2)

theorem rep_commitLogEnd (hs : Rep H c r s) :
    Rep H c { r with logEnd := r.writePos } { s with journal := s.journal.commitLogEnd } := by
  refine ⟨?_, hs.checkpointBlk, hs.flag, hs.inReplay⟩
  rw [← hs.ring]
  rfl

theorem syncCommit_steps (h : r.Usable) : Steps H (syncCommit H) c r r.flush.commit := by
  have hhi := h.hi
  refine (flushCurBlock_steps h.lo (by omega)).seq ?_
  refine ((Steps.hook fun hH => hH.drainPendingData).context).seq ?_
  refine (Steps.update fun s hs => rep_commitLogEnd hs).seq ?_
  refine ((syncSuperblock_steps .commit).context).seq ?_
  refine ((Steps.hook fun hH => hH.syncMeta).context).seq ?_
  refine syncAllocators_steps.seq ?_
  refine ((Steps.hook fun hH => hH.flushWB).context).seq ?_
  exact .update fun s hs => ⟨hs.ring, hs.checkpointBlk, hs.flag, hs.inReplay⟩

theorem syncTail_steps (hclean : r.dirty = false) (hgeom : r.start < r.stop) :
    Steps H (syncTail H sync checkpoint) false r (r.periodic checkpoint).backPressure := by
  have hper : (r.periodic checkpoint).dirty = false ∧
      (r.periodic checkpoint).start < (r.periodic checkpoint).stop := by
    unfold Ring.periodic
    split_ifs
    · exact ⟨hclean, hgeom⟩
    · exact ⟨hclean, hgeom⟩
  refine .readJournal fun s hs => ?_
  have hrec : s.journal.recordsSinceCheckpoint = r.records := by
    rw [← hs.ring]
    rfl
  refine Steps.seq (q := r.periodic checkpoint) ?_ (.readJournal fun t ht => ?_)
  · unfold Ring.periodic
    rw [hrec]
    split_ifs with h
    · exact .when_pos h (checkpointWith_steps (by simp [hclean]) hgeom).context
    · exact .when_neg h
  · have hnext : t.journal.nextBlock t.journal.writePos = t.journal.sb.journalLogStart ↔
        (r.periodic checkpoint).next (r.periodic checkpoint).writePos =
          (r.periodic checkpoint).logStart := by
      rw [← ht.ring]
      rfl
    unfold Ring.backPressure
    split_ifs with h
    · refine .when_pos ⟨by simp [ht.flag], hnext.mpr h⟩ (Steps.context (.inCheckpointDo ?_))
      exact checkpointWith_steps (by simp [hper.1]) hper.2
    · exact .when_neg fun hc => h (hnext.mp hc.2)

/-- Whatever the inner sync is, it is never run. -/
theorem syncWith_steps (h : r.Usable) :
    Steps H (syncWith H sync checkpoint) false r (r.sync checkpoint) := by
  have hlo := h.lo
  have hhi := h.hi
  refine .readJournal fun s hs => ?_
  have hdirty : s.journal.dirty = r.dirty := by
    rw [← hs.ring]
    rfl
  unfold Ring.sync
  rw [hdirty]
  split_ifs with hd
  · refine .when_pos hd ((syncEntry_steps (by omega)).seq (.readJournal fun t ht => ?_))
    have hdt : t.journal.dirty = true := by
      have hring : t.journal.dirty = (ringOf H t).dirty := rfl
      rw [hring, ht.ring, Ring.syncEntry_dirty, hd]
    refine .when_pos hdt ((syncCommit_steps h.syncEntry).seq (syncTail_steps ?_ ?_))
    · rfl
    · change r.syncEntry.start < r.syncEntry.stop
      rw [Ring.syncEntry_start, Ring.syncEntry_stop]
      omega
  · exact .when_neg hd

theorem syncLocked_steps (h : r.Usable) :
    Steps H (syncLocked H checkpoint) false r (r.sync checkpoint) :=
  syncWith_steps h

theorem checkpointLocked_steps (h : r.Usable) :
    Steps H (checkpointLocked H true) false r r.checkpoint := by
  have hlo := h.lo
  have hhi := h.hi
  refine .readJournal fun s hs => ?_
  have hdirty : s.journal.dirty = r.dirty := by
    rw [← hs.ring]
    rfl
  refine Steps.seq (q := r.sync true) ?_ (retireLive_steps ?_)
  · by_cases hd : r.dirty
    · exact .when_pos ⟨rfl, by rw [hdirty, hd]⟩ (syncLocked_steps h)
    · have hsame : r.sync true = r := by simp [Ring.sync, hd]
      rw [hsame]
      exact .when_neg fun hc => hd (by rw [← hdirty, hc.2])
  · rw [Ring.sync_start, Ring.sync_stop]
    omega

theorem makeRoom_steps (h : r.Usable) : Steps H (makeRoom H) false r r.makeRoom := by
  have hlo := h.lo
  have hhi := h.hi
  refine (flushCurBlock_steps hlo (by omega)).seq (.readJournal fun s hs => ?_)
  have hfull : s.journal.writePos = s.journal.sb.journalLogStart ↔
      r.flush.writePos = r.logStart := by
    change (ringOf H s).writePos = (ringOf H s).logStart ↔ _
    rw [hs.ring]
    rfl
  unfold Ring.makeRoom
  split_ifs with hwrap
  · refine .when_pos (hfull.mpr hwrap) (Steps.seq (q := r.flush.retire) ?_ ?_)
    · have hck := checkpointLocked_steps (H := H) h.flush
      rw [Ring.checkpoint_clean rfl] at hck
      exact hck.context
    · refine .readJournal fun t ht => .when_neg ?_
      change (ringOf H t).next (ringOf H t).writePos ≠ (ringOf H t).logStart
      rw [ht.ring, h.flush.retire.next_eq]
      change r.flush.writePos + 1 ≠ r.flush.writePos
      omega
  · exact .when_neg fun hc => hwrap (hfull.mp hc)

/-- The arguments `writeRecord` accepts. -/
def Writable (typ : UInt32) (data : Bytes) : Prop :=
  jrnNone < typ ∧ typ < jrnEnd ∧ 0 < data.length ∧ data.length + journalRecordHdrSize < 2 ^ 32

theorem rep_appendRecord (hs : Rep H c r s) (typ : UInt32) (data : Bytes) :
    Rep H c (r.append (recordSize data))
      { s with journal := s.journal.appendRecord typ data } := by
  refine ⟨?_, hs.checkpointBlk, hs.flag, hs.inReplay⟩
  rw [← hs.ring]
  rfl

/-- The ring after the flush a record that does not fit forces. -/
theorem when_makeRoom_steps (h : r.Usable) (hs : Rep H false r s) (data : Bytes) :
    Steps H (when (s.journal.overflows data) (makeRoom H)) false r
      (if r.overflows (recordSize data) then r.makeRoom else r) := by
  have hover : s.journal.overflows data = r.overflows (recordSize data) := by
    rw [← hs.ring]
    rfl
  rw [hover]
  split_ifs with ho
  · exact .when_pos ho (makeRoom_steps h)
  · exact .when_neg ho

theorem Writable.fits {typ : UInt32} {data : Bytes} (h : Writable typ data) (r : Ring) :
    (if r.overflows (recordSize data) then r.makeRoom else r).offset + journalRecordHdrSize ≤
      journalBlockSize := by
  obtain ⟨-, -, hpos, hlt⟩ := h
  have hsize : recordSize data = journalRecordHdrSize + data.length :=
    Nat.mod_eq_of_lt (by omega)
  split_ifs with ho
  · have hhdr : r.makeRoom.offset = journalBlockHdrSize := by
      unfold Ring.makeRoom
      split_ifs <;> rfl
    rw [hhdr]
    decide
  · simp only [Ring.overflows, decide_eq_true_eq, not_lt, hsize] at ho
    omega

theorem writeRecord_triple (h : r.Usable) (typ : UInt32) (data : Bytes) :
    Triple (¬ H.Reliable ∨ ¬ Writable typ data) (Rep H false r) (writeRecord H typ data)
      fun _ => Rep H false (r.writeRecord (recordSize data)) := by
  intro s hs
  have hlog : !s.journal.inReplay := by simp [hs.inReplay]
  refine Triple.when (P := Rep H false r) (fun _ => ?_) (fun hc => absurd hlog hc) s hs
  refine .ite (fun hbad => .fail fun _ _ => .inr fun hw => ?_) fun _ => .ite (fun hempty => ?_) ?_
  · rcases hbad with hbad | hbad
    · exact absurd hbad (UInt32.not_le.mpr hw.1)
    · exact absurd hbad (UInt32.not_le.mpr hw.2.1)
  · exact .fail fun _ _ => .inr fun hw => by have := hw.2.2.1; omega
  · intro _ t ht
    have hroom := (when_makeRoom_steps h ht data).weaken
      (δ := ¬ H.Reliable ∨ ¬ Writable typ data) .inl
    refine Triple.bind hroom (fun _ => ?_) t ht
    intro u hu
    have hoff : u.journal.writeOffset =
        (if r.overflows (recordSize data) then r.makeRoom else r).offset := by
      rw [← hu.ring]
      rfl
    have happend := rep_appendRecord hu typ data
    refine Triple.ite (P := (· = u)) (fun hcrash => .fail ?_) (fun _ => .update ?_) u rfl
    · intro _ _
      right
      intro hw
      have hfits := hw.fits r
      omega
    · rintro _ rfl
      unfold Ring.writeRecord
      split_ifs at happend ⊢ <;> exact happend

end Calls

/-! ## The mutual recursion of the source

`syncLocked` calls `checkpointLocked`, which calls `syncLocked(true)` when records
are pending. At every inner checkpoint the block has been written or is not to be
flushed, so the inner call never happens. -/

section Recursion

variable {H : Hooks σ} {b : Bool} {s : State σ}

/-- The call leaves `dirty` at `b`. -/
def LeavesDirty (x : Call (State σ) Unit) (b : Bool) : Prop :=
  Triple True (fun s => s.journal.dirty = b) x fun _ s => s.journal.dirty = b

variable {x y : Call (State σ) Unit}

theorem LeavesDirty.seq (hx : LeavesDirty x b) (hy : LeavesDirty y b) :
    LeavesDirty (x >>= fun _ => y) b :=
  Triple.bind hx fun _ => hy

theorem LeavesDirty.context {msg : String} (hx : LeavesDirty x b) :
    LeavesDirty (context msg x) b :=
  Triple.context hx

theorem LeavesDirty.when {p : Prop} [Decidable p] (hx : LeavesDirty x b) :
    LeavesDirty (when p x) b :=
  Triple.when (fun _ => hx) fun _ _ hs => hs

theorem LeavesDirty.update {f : State σ → State σ}
    (hf : ∀ s, (f s).journal.dirty = s.journal.dirty) : LeavesDirty (update f) b :=
  Triple.update fun s hs => (hf s).trans hs

theorem LeavesDirty.readJournal {f : Journal → Call (State σ) Unit}
    (hf : ∀ j, LeavesDirty (f j) b) : LeavesDirty (readJournal >>= f) b :=
  fun s hs => hf s.journal s hs

theorem LeavesDirty.hook (x : Call σ Unit) : LeavesDirty (hook x) b := by
  intro s hs
  unfold Journal.hook
  rcases h : x s.bridge with ⟨r, t⟩
  cases r with
  | ok a => exact hs
  | error e => trivial

theorem LeavesDirty.writeThrough (w : DevWrite) : LeavesDirty (writeThrough H w) b :=
  .seq (.hook _) (.update fun _ => rfl)

theorem LeavesDirty.writeBlock (block : ℕ) (w : DevWrite) : LeavesDirty (writeBlock H block w) b :=
  .readJournal fun _ => Triple.ite (fun _ => .fail fun _ _ => trivial) fun _ =>
    (LeavesDirty.writeThrough w).context

theorem LeavesDirty.refreshFreeCounts : LeavesDirty (refreshFreeCounts H) b :=
  .when (.update fun _ => rfl)

theorem LeavesDirty.syncSuperblock (site : SuperSite) : LeavesDirty (syncSuperblock H site) b :=
  .seq .refreshFreeCounts (.readJournal fun _ => .context (.writeThrough _))

theorem LeavesDirty.syncAllocators : LeavesDirty (syncAllocators H) b :=
  .when (.context (.seq (.hook _) (.syncSuperblock _)))

theorem LeavesDirty.retireLive : LeavesDirty (retireLive H) b := by
  refine .seq (.context (.hook _)) (.seq .syncAllocators ?_)
  refine .seq (.when (.context (.hook _))) (.seq .refreshFreeCounts ?_)
  refine .readJournal fun j => .seq (.context (.writeBlock _ _)) ?_
  exact .seq (.update fun _ => rfl) (.syncSuperblock _)

theorem syncCommit_clean :
    Triple True (fun _ => True) (syncCommit H) fun _ s => s.journal.dirty = false := by
  have hflush : Triple True (fun _ => True) (flushCurBlock H)
      fun _ s => s.journal.dirty = false := by
    intro s _
    have hwrite : LeavesDirty (Journal.writeBlock H s.journal.writePos
        (.recordBlock s.journal.writePos s.journal.curBlock)) s.journal.dirty := .writeBlock _ _
    exact Triple.bind hwrite (fun _ => Triple.update fun t _ => rfl) s rfl
  have hrest : LeavesDirty (context "briefs: drain pending data" (Journal.hook H.drainPendingData)
      >>= fun _ => updateJournal commitLogEnd
      >>= fun _ => context "briefs: persist journal tail" (Journal.syncSuperblock H .commit)
      >>= fun _ => context "briefs: sync deferred metadata" (Journal.hook H.syncMeta)
      >>= fun _ => Journal.syncAllocators H
      >>= fun _ => context "briefs: metadata flush" (Journal.hook H.flushWB)
      >>= fun _ => updateJournal fun j => { j with syncedPos := j.writePos }) false := by
    refine .seq (.context (.hook _)) (.seq (.update fun _ => rfl) ?_)
    refine .seq (.context (.syncSuperblock _)) (.seq (.context (.hook _)) ?_)
    exact .seq .syncAllocators (.seq (.context (.hook _)) (.update fun _ => rfl))
  exact Triple.bind hflush fun _ => hrest

theorem checkpointWith_skip {flushPending : Bool}
    (h : ¬ (flushPending ∧ s.journal.dirty)) :
    checkpointWith H x flushPending s = retireLive H s := by
  change (when (flushPending ∧ s.journal.dirty) x >>= fun _ => retireLive H) s = _
  unfold when
  rw [if_neg h]
  rfl

theorem checkpointWith_clean (flushPending : Bool) :
    LeavesDirty (checkpointWith H x flushPending) false := by
  intro s hs
  rw [checkpointWith_skip (by simp [hs])]
  exact LeavesDirty.retireLive s hs

theorem inCheckpointDo_congr {x y : Call (State σ) Unit}
    (h : ∀ t : State σ, t.journal.dirty = s.journal.dirty → x t = y t) :
    inCheckpointDo x s = inCheckpointDo y s := by
  have hin : ∀ z : Call (State σ) Unit, inCheckpointDo z s =
      ensuring z (fun t => { t with journal := { t.journal with inCheckpoint := false } })
        { s with journal := { s.journal with inCheckpoint := true } } := fun _ => rfl
  rw [hin, hin]
  exact ensuring_congr (h _ rfl)

theorem syncEntry_congr : syncEntry H x = syncEntry H y := by
  funext s
  refine when_congr fun _ => inCheckpointDo_congr fun t _ => ?_
  rw [checkpointWith_skip (by simp), checkpointWith_skip (by simp)]

theorem syncTail_congr {checkpoint : Bool} (h : s.journal.dirty = false) :
    syncTail H x checkpoint s = syncTail H y checkpoint s := by
  -- the periodic checkpoint first, then the back-pressure, both with nothing pending
  let periodic (z : Call (State σ) Unit) : Call (State σ) Unit :=
    when (checkpoint ∧ jrnCheckpointInterval ≤ s.journal.recordsSinceCheckpoint)
      (context "briefs: periodic checkpoint" (checkpointWith H z true))
  let rest (z : Call (State σ) Unit) : Call (State σ) Unit := readJournal >>= fun j =>
    when (!j.inCheckpoint ∧ j.nextBlock j.writePos = j.sb.journalLogStart)
      (context "briefs: back-pressure checkpoint" (inCheckpointDo (checkpointWith H z true)))
  have hskip : ∀ t : State σ, t.journal.dirty = false →
      checkpointWith H x true t = checkpointWith H y true t := by
    intro t ht
    rw [checkpointWith_skip (by simp [ht]), checkpointWith_skip (by simp [ht])]
  have hfirst : periodic x s = periodic y s :=
    when_congr fun _ => context_congr (hskip s h)
  have hleaves : LeavesDirty (periodic y) false := .when (.context (checkpointWith_clean true))
  change (periodic x >>= fun _ => rest x) s = (periodic y >>= fun _ => rest y) s
  rw [bind_congr_left hfirst]
  refine bind_congr_of_triple hleaves h fun _ t ht => when_congr fun _ => context_congr ?_
  exact inCheckpointDo_congr fun u hu => hskip u (hu.trans ht)

/-- The equation of the source: inside `syncLocked` the inner checkpoints may
call `syncLocked(true)`. -/
theorem syncWith_syncLocked (checkpoint : Bool) :
    syncWith H (syncLocked H true) checkpoint = syncLocked H checkpoint := by
  funext s
  unfold syncLocked syncWith
  rw [syncEntry_congr (y := fail .crash)]
  refine when_congr fun _ => bind_congr_of_triple (Triple.trivial _) trivial fun _ t _ => ?_
  refine when_congr fun _ => bind_congr_of_triple syncCommit_clean trivial fun _ u hu => ?_
  exact syncTail_congr hu

end Recursion

end Briefs.Journal
