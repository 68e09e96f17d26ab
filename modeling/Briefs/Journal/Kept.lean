import Briefs.Journal.Content

/-!
# What every journal call keeps

Whatever the calls do, the checkpoint block stays a checkpoint block, the write
position stays off it, and a journal with nothing pending has an empty block to fill.
-/

namespace Briefs.Journal

open Lib Lib.Call

variable {σ : Type}

/-- The block carries the checkpoint magic. -/
def Marker (buf : Bytes) : Prop := (parseJournalBlockHeader buf).magic = magicCheckpoint

theorem header_copyAt (h : JournalBlockHeader) (rest src : Bytes) {off : ℕ} (hoff : 16 ≤ off) :
    ∃ rest', copyAt (h.marshalBinary ++ rest) off src = h.marshalBinary ++ rest' :=
  copyAt_past (by rw [length_blockHeader]; exact hoff)

theorem marshalJournalBlockHeader_eq {buf : Bytes} (hbuf : 16 ≤ buf.length)
    (h : JournalBlockHeader) :
    marshalJournalBlockHeader buf h = h.marshalBinary ++ buf.drop 16 := by
  have hcopy := copyAt_append (a := []) (b := buf) (c := h.marshalBinary)
    (by rw [length_blockHeader]; exact hbuf)
  rw [List.nil_append, List.length_nil, List.nil_append, length_blockHeader] at hcopy
  exact hcopy

theorem marker_writeCheckpointBlock {buf : Bytes} (hbuf : 16 ≤ buf.length) (seq : UInt32)
    (cp : Checkpoint) : Marker (writeCheckpointBlock buf seq cp) := by
  unfold Marker writeCheckpointBlock
  extract_lets header payload record body
  clear_value record payload
  have hheader := marshalJournalBlockHeader_eq hbuf ⟨magicCheckpoint, seq, 1, 0⟩
  -- both copies start behind the block header
  obtain ⟨rest, hbody⟩ := header_copyAt ⟨magicCheckpoint, seq, 1, 0⟩ (buf.drop 16)
    record.marshalBinary (show 16 ≤ journalBlockHdrSize from le_rfl)
  obtain ⟨rest', hpayload⟩ := header_copyAt ⟨magicCheckpoint, seq, 1, 0⟩ rest payload
    (show 16 ≤ journalBlockHdrSize + journalRecordHdrSize by decide)
  have hb : body = (⟨magicCheckpoint, seq, 1, 0⟩ : JournalBlockHeader).marshalBinary ++ rest := by
    unfold body header
    rw [hheader, hbody]
  rw [hb, hpayload, parseJournalBlockHeader_append]

structure Kept (dev : ℕ → Bytes) (s : State σ) : Prop where
  checkpointBlk : s.journal.checkpointBlk = s.journal.journalEnd - 1
  lo : s.journal.journalStart ≤ s.journal.writePos
  hi : s.journal.writePos + 1 < s.journal.journalEnd
  clean : s.journal.dirty = false → Packs s.journal []
  marker : Marker (device dev s.writes s.journal.checkpointBlk)

/-- The call keeps it. -/
def Keeps (dev : ℕ → Bytes) (x : Call (State σ) Unit) : Prop :=
  Triple True (Kept dev) x fun _ => Kept dev

section Calls

variable {H : Hooks σ} {dev : ℕ → Bytes} {x : Call (State σ) Unit} {s : State σ}

theorem Packs.congr {i j : Journal} {es : List Entry} (h : Packs i es)
    (hcur : j.curBlock = i.curBlock) (hseq : j.blockSeq = i.blockSeq)
    (hoff : j.writeOffset = i.writeOffset) (hdirty : j.dirty = i.dirty) : Packs j es := by
  refine ⟨?_, ?_, h.fits, ?_⟩
  · rw [hcur, hseq]
    exact h.curBlock
  · rw [hoff]
    exact h.writeOffset
  · rw [hdirty]
    exact h.dirty

theorem Kept.congr {s t : State σ} (h : Kept dev s)
    (hckpt : t.journal.checkpointBlk = s.journal.checkpointBlk)
    (hstart : t.journal.journalStart = s.journal.journalStart)
    (hstop : t.journal.journalEnd = s.journal.journalEnd)
    (hpos : t.journal.writePos = s.journal.writePos)
    (hcur : t.journal.curBlock = s.journal.curBlock) (hseq : t.journal.blockSeq = s.journal.blockSeq)
    (hoff : t.journal.writeOffset = s.journal.writeOffset) (hdirty : t.journal.dirty = s.journal.dirty)
    (hwrites : t.writes = s.writes) : Kept dev t := by
  refine ⟨?_, ?_, ?_, fun hclean => ?_, ?_⟩
  · rw [hckpt, hstop]
    exact h.checkpointBlk
  · rw [hstart, hpos]
    exact h.lo
  · rw [hstop, hpos]
    exact h.hi
  · exact (h.clean (hdirty.symm.trans hclean)).congr hcur hseq hoff hdirty
  · rw [hckpt, hwrites]
    exact h.marker

theorem hook_kept (y : Call σ Unit) : Keeps dev (hook y) := by
  intro s hs
  unfold hook
  rcases y s.bridge with ⟨res, b⟩
  cases res with
  | ok u => exact hs.congr rfl rfl rfl rfl rfl rfl rfl rfl rfl
  | error e => exact True.intro

theorem context_kept {msg : String} (h : Keeps dev x) : Keeps dev (Call.context msg x) := h.context

theorem when_kept {c : Prop} [Decidable c] (h : Keeps dev x) : Keeps dev (Call.when c x) :=
  .when (fun _ => h) fun _ _ hs => hs

/-- A write that leaves a marker at the checkpoint block. -/
theorem writeThrough_kept (hs : Kept dev s) {w : DevWrite}
    (hw : ∀ disk : ℕ → Bytes, Marker (disk s.journal.checkpointBlk) →
      Marker (w.onto disk s.journal.checkpointBlk)) :
    Triple True (fun t => t = s) (writeThrough H w) fun _ => Kept dev := by
  have hhook : Triple True (fun t => t = s) (hook (H.write w)) fun _ t =>
      Kept dev t ∧ t.journal = s.journal := by
    rintro t rfl
    unfold hook
    rcases H.write w t.bridge with ⟨res, b⟩
    cases res with
    | ok u => exact ⟨hs.congr rfl rfl rfl rfl rfl rfl rfl rfl rfl, rfl⟩
    | error e => exact True.intro
  refine Triple.bind hhook fun _ => .update fun t ht => ?_
  obtain ⟨ht, hsame⟩ := ht
  refine ⟨ht.checkpointBlk, ht.lo, ht.hi, ht.clean, ?_⟩
  rw [device_snoc, hsame]
  refine hw _ ?_
  rw [← hsame]
  exact ht.marker

theorem writeBlock_kept (hs : Kept dev s) (block : ℕ) {w : DevWrite}
    (hw : ∀ disk : ℕ → Bytes, Marker (disk s.journal.checkpointBlk) →
      Marker (w.onto disk s.journal.checkpointBlk)) :
    Triple True (fun t => t = s) (writeBlock H block w) fun _ => Kept dev := by
  rintro t rfl
  refine Triple.ite (P := fun u => u = t) (fun _ => ?_) (fun _ => ?_) t rfl
  · exact .fail fun _ _ => True.intro
  · exact (writeThrough_kept hs hw).context

theorem refreshFreeCounts_kept : Keeps dev (refreshFreeCounts H) := by
  refine .when (fun _ => .update fun s hs => ?_) fun _ _ hs => hs
  exact hs.congr rfl rfl rfl rfl rfl rfl rfl rfl rfl

theorem syncSuperblock_kept (site : SuperSite) : Keeps dev (syncSuperblock H site) := by
  refine Triple.bind refreshFreeCounts_kept fun _ => ?_
  intro s hs
  exact (writeThrough_kept (w := .superblock site s.journal.sb) hs fun _ h => h).context s rfl

theorem syncAllocators_kept : Keeps dev (syncAllocators H) :=
  when_kept (context_kept (Triple.bind (hook_kept _) fun _ => syncSuperblock_kept _))

theorem advance_kept (h : Kept dev s) :
    Kept dev { s with journal := s.journal.advance } := by
  have hck := h.checkpointBlk
  have hlo := h.lo
  have hhi := h.hi
  have hnext : s.journal.nextBlock s.journal.writePos = s.journal.writePos + 1 := by
    unfold nextBlock nextRingBlock
    split_ifs <;> omega
  have hwrap : s.journal.nextBlock s.journal.checkpointBlk = s.journal.journalStart := by
    unfold nextBlock nextRingBlock
    split_ifs <;> omega
  have hpos : s.journal.advance.writePos =
      if s.journal.writePos + 1 = s.journal.checkpointBlk then s.journal.journalStart
      else s.journal.writePos + 1 := by
    rw [← hnext]
    by_cases hskip : s.journal.nextBlock s.journal.writePos = s.journal.checkpointBlk
    · rw [if_pos hskip, ← hwrap]
      simp only [nextBlock] at hskip
      simp [advance, bump, initCurBlock, nextBlock, hskip]
    · rw [if_neg hskip]
      simp [advance, bump, initCurBlock, hskip]
  have hblk := advance_checkpointBlk s.journal
  have hstop := advance_journalEnd s.journal
  have hstart : s.journal.advance.journalStart = s.journal.journalStart := by
    simp only [advance]
    split_ifs <;> simp only [bump, initCurBlock]
  refine ⟨?_, ?_, ?_, fun _ => (advance_packs s.journal).1, ?_⟩
  · exact hblk.trans (hck.trans (congrArg (· - 1) hstop.symm))
  · rw [hstart, hpos]
    split_ifs <;> omega
  · rw [hstop, hpos]
    split_ifs <;> omega
  · rw [hblk]
    exact h.marker

theorem flushCurBlock_kept : Keeps dev (flushCurBlock H) := by
  intro s hs
  have hmiss : s.journal.writePos ≠ s.journal.checkpointBlk := by
    have := hs.hi
    have := hs.checkpointBlk
    omega
  have hwrite := writeBlock_kept (H := H)
    (w := .recordBlock s.journal.writePos s.journal.curBlock) hs s.journal.writePos fun disk h => by
      change Marker (Function.update disk _ _ _)
      rwa [Function.update_of_ne hmiss.symm]
  exact Triple.bind hwrite (fun _ => .update fun t ht => advance_kept ht) s rfl

theorem updateJournal_kept {f : Journal → Journal}
    (hf : ∀ s : State σ, Kept dev s → Kept dev { s with journal := f s.journal }) :
    Keeps dev (updateJournal (σ := σ) f) :=
  .update hf

theorem retireLive_kept : Keeps dev (retireLive H) := by
  refine Triple.bind (context_kept (hook_kept _)) fun _ => ?_
  refine Triple.bind syncAllocators_kept fun _ => ?_
  refine Triple.bind (when_kept (context_kept (hook_kept _))) fun _ => ?_
  refine Triple.bind refreshFreeCounts_kept fun _ => ?_
  intro s hs
  have hwrite := writeBlock_kept (H := H)
    (w := .checkpointBlock s.journal.checkpointBlk
      (writeCheckpointBlock (List.replicate journalBlockSize 0) s.journal.blockSeq
        s.journal.checkpointRecord)) hs s.journal.checkpointBlk fun disk _ => by
      change Marker (Function.update disk _ _ _)
      rw [Function.update_self]
      exact marker_writeCheckpointBlock (by rw [List.length_replicate]; decide) _ _
  refine Triple.bind hwrite.context (fun _ => ?_) s rfl
  refine Triple.bind (updateJournal_kept fun t ht => ?_) fun _ => syncSuperblock_kept _
  exact ht.congr rfl rfl rfl rfl rfl rfl rfl rfl rfl

theorem checkpointWith_kept (h : Keeps dev x) (flushPending : Bool) :
    Keeps dev (checkpointWith H x flushPending) := by
  intro s hs
  exact Triple.bind (when_kept h) (fun _ => retireLive_kept) s hs

theorem inCheckpointDo_kept (h : Keeps dev x) : Keeps dev (inCheckpointDo x) := by
  refine Triple.bind (updateJournal_kept fun t ht => ?_) fun _ => ?_
  · exact ht.congr rfl rfl rfl rfl rfl rfl rfl rfl rfl
  · refine Triple.ensuring (h.conseq (fun _ hs => hs) fun _ t ht => ?_)
    exact ht.congr rfl rfl rfl rfl rfl rfl rfl rfl rfl

theorem syncCommit_kept : Keeps dev (syncCommit H) := by
  refine Triple.bind flushCurBlock_kept fun _ => ?_
  refine Triple.bind (context_kept (hook_kept _)) fun _ => ?_
  refine Triple.bind (updateJournal_kept fun t ht => ?_) fun _ => ?_
  · exact ht.congr rfl rfl rfl rfl rfl rfl rfl rfl rfl
  refine Triple.bind (context_kept (syncSuperblock_kept _)) fun _ => ?_
  refine Triple.bind (context_kept (hook_kept _)) fun _ => ?_
  refine Triple.bind syncAllocators_kept fun _ => ?_
  refine Triple.bind (context_kept (hook_kept _)) fun _ => ?_
  refine updateJournal_kept fun t ht => ?_
  exact ht.congr rfl rfl rfl rfl rfl rfl rfl rfl rfl

theorem syncEntry_kept (h : Keeps dev x) : Keeps dev (syncEntry H x) :=
  fun s hs => when_kept (inCheckpointDo_kept (checkpointWith_kept h false)) s hs

theorem syncTail_kept (h : Keeps dev x) (checkpoint : Bool) : Keeps dev (syncTail H x checkpoint) := by
  intro s hs
  refine Triple.bind (when_kept (context_kept (checkpointWith_kept h true))) (fun _ t ht => ?_) s hs
  exact when_kept (context_kept (inCheckpointDo_kept (checkpointWith_kept h true))) t ht

theorem syncWith_kept (h : Keeps dev x) (checkpoint : Bool) :
    Keeps dev (syncWith H x checkpoint) := by
  intro s hs
  refine when_kept (x := _) ?_ s hs
  refine Triple.bind (syncEntry_kept h) fun _ t ht => ?_
  refine when_kept (x := _) ?_ t ht
  exact Triple.bind syncCommit_kept fun _ => syncTail_kept h checkpoint

theorem syncLocked_kept (checkpoint : Bool) : Keeps dev (syncLocked H checkpoint) :=
  syncWith_kept (.fail fun _ _ => True.intro) checkpoint

theorem checkpointLocked_kept (flushPending : Bool) : Keeps dev (checkpointLocked H flushPending) :=
  checkpointWith_kept (syncLocked_kept true) flushPending

theorem makeRoom_kept : Keeps dev (makeRoom H) := by
  refine Triple.bind flushCurBlock_kept fun _ s hs => ?_
  refine when_kept (x := _) ?_ s hs
  refine Triple.bind (context_kept (checkpointLocked_kept true)) fun _ t ht => ?_
  exact when_kept (.fail fun _ _ => True.intro) t ht

theorem writeRecord_kept (typ : UInt32) (data : Bytes) : Keeps dev (writeRecord H typ data) := by
  intro s hs
  refine when_kept (x := _) ?_ s hs
  refine .ite (fun _ => .fail fun _ _ => True.intro) fun _ =>
    .ite (fun _ => .fail fun _ _ => True.intro) fun _ t ht => ?_
  refine Triple.bind (when_kept makeRoom_kept) (fun _ u hu => ?_) t ht
  refine Triple.ite (P := Kept dev) (fun _ => .fail fun _ _ => True.intro) (fun _ => ?_) u hu
  refine updateJournal_kept fun v hv => ⟨hv.checkpointBlk, hv.lo, hv.hi, fun hclean => ?_, hv.marker⟩
  cases hclean

theorem perform_kept (c : JournalCall) : Keeps dev (c.perform H) := by
  cases c with
  | writeRecord typ data => exact writeRecord_kept typ data
  | sync ckpt => exact syncLocked_kept ckpt
  | checkpoint => exact checkpointLocked_kept true

end Calls

/-- Every run of calls keeps it. -/
theorem run_kept {H : Hooks σ} {dev : ℕ → Bytes} {s t : State σ} {cs : List JournalCall}
    (hrun : Run (Performed H) s cs t) (hs : Kept dev s) : Kept dev t :=
  hrun.preserves hs fun _ c _ ht hstep => (perform_kept c).of_ok ht hstep

end Briefs.Journal
