import Briefs.Journal.Pack
import Briefs.Journal.Calls

/-!
# What the journal calls leave on the device

`Content` follows the block that is being filled and the blocks of the device through
the calls. Only a flush writes a record block, and it writes the records that were
packed; every other write leaves the record blocks alone.
-/

namespace Briefs.Journal

open Lib Lib.Call

variable {σ : Type}

/-- The device after a write. The superblock lies outside the ring. -/
def DevWrite.onto (dev : ℕ → Bytes) : DevWrite → ℕ → Bytes
  | .recordBlock block data => Function.update dev block data
  | .checkpointBlock block data => Function.update dev block data
  | .superblock _ _ => dev

def device (dev : ℕ → Bytes) (ws : List DevWrite) : ℕ → Bytes := ws.foldl DevWrite.onto dev

theorem device_snoc (dev : ℕ → Bytes) (ws : List DevWrite) (w : DevWrite) :
    device dev (ws ++ [w]) = w.onto (device dev ws) := by
  simp [device]

/-- The records being packed under sequence number `seq`, and the device. -/
structure Content (dev : ℕ → Bytes) (seq : UInt32) (es : List Entry) (disk : ℕ → Bytes)
    (s : State σ) : Prop where
  packs : Packs s.journal es
  blockSeq : s.journal.blockSeq = seq
  disk : device dev s.writes = disk

section Calls

variable {H : Hooks σ} {dev disk : ℕ → Bytes} {seq : UInt32} {es : List Entry} {r : Ring}
  {c : Bool} {sync : Call (State σ) Unit} {checkpoint : Bool} {data : Bytes} {typ : UInt32}

theorem Triple.and {α β : Type} {ε : Prop} {x : Call α β} {P P' : α → Prop} {Q Q' : β → α → Prop}
    (h : Triple ε P x Q) (h' : Triple ε P' x Q') :
    Triple ε (fun s => P s ∧ P' s) x fun a s => Q a s ∧ Q' a s := by
  intro s hs
  have hx := h s hs.1
  have hx' := h' s hs.2
  rcases hr : x s with ⟨res, t⟩
  rw [hr] at hx hx'
  cases res with
  | ok a => exact ⟨hx, hx'⟩
  | error e => exact hx

theorem Content.congr {s t : State σ} (h : Content dev seq es disk s)
    (hcur : t.journal.curBlock = s.journal.curBlock) (hseq : t.journal.blockSeq = s.journal.blockSeq)
    (hoff : t.journal.writeOffset = s.journal.writeOffset) (hdirty : t.journal.dirty = s.journal.dirty)
    (hwrites : device dev t.writes = device dev s.writes) : Content dev seq es disk t := by
  refine ⟨⟨?_, ?_, h.packs.fits, ?_⟩, hseq.trans h.blockSeq, hwrites.trans h.disk⟩
  · rw [hcur, hseq]
    exact h.packs.curBlock
  · rw [hoff]
    exact h.packs.writeOffset
  · rw [hdirty]
    exact h.packs.dirty

theorem hook_content (x : Call σ Unit) :
    Triple True (Content dev seq es disk) (hook x) fun _ => Content dev seq es disk := by
  intro s hs
  unfold hook
  rcases x s.bridge with ⟨res, b⟩
  cases res with
  | ok u => exact hs.congr rfl rfl rfl rfl rfl
  | error e => exact True.intro

theorem updateJournal_content {f : Journal → Journal}
    (hf : ∀ j, (f j).curBlock = j.curBlock ∧ (f j).blockSeq = j.blockSeq ∧
      (f j).writeOffset = j.writeOffset ∧ (f j).dirty = j.dirty) :
    Triple True (Content dev seq es disk) (updateJournal (σ := σ) f)
      fun _ => Content dev seq es disk := by
  refine .update fun s hs => ?_
  obtain ⟨hcur, hseq, hoff, hdirty⟩ := hf s.journal
  exact hs.congr hcur hseq hoff hdirty rfl

theorem writeThrough_content (w : DevWrite) :
    Triple True (Content dev seq es disk) (writeThrough H w)
      fun _ => Content dev seq es (w.onto disk) := by
  refine Triple.bind (hook_content _) fun _ => .update fun s hs => ?_
  refine ⟨⟨hs.packs.curBlock, hs.packs.writeOffset, hs.packs.fits, hs.packs.dirty⟩, hs.blockSeq, ?_⟩
  rw [device_snoc, hs.disk]

theorem writeBlock_content (block : ℕ) (w : DevWrite) :
    Triple True (Content dev seq es disk) (writeBlock H block w)
      fun _ => Content dev seq es (w.onto disk) := by
  intro s hs
  refine Triple.ite (P := Content dev seq es disk) (fun _ => ?_) (fun _ => ?_) s hs
  · exact .fail fun _ _ => True.intro
  · exact (writeThrough_content w).context

theorem refreshFreeCounts_content :
    Triple True (Content dev seq es disk) (refreshFreeCounts H)
      fun _ => Content dev seq es disk := by
  refine .when (fun _ => .update fun s hs => ?_) fun _ _ hs => hs
  exact hs.congr rfl rfl rfl rfl rfl

theorem syncSuperblock_content (site : SuperSite) :
    Triple True (Content dev seq es disk) (syncSuperblock H site)
      fun _ => Content dev seq es disk := by
  refine Triple.bind refreshFreeCounts_content fun _ => ?_
  intro s hs
  exact (writeThrough_content (.superblock site s.journal.sb)).context s hs

theorem syncAllocators_content :
    Triple True (Content dev seq es disk) (syncAllocators H)
      fun _ => Content dev seq es disk := by
  refine .when (fun _ => Triple.context ?_) fun _ _ hs => hs
  exact Triple.bind (hook_content _) fun _ => syncSuperblock_content _

theorem advance_packs (j : Journal) :
    Packs j.advance [] ∧ j.advance.blockSeq = j.blockSeq + 1 := by
  have hseq : j.advance.blockSeq = j.blockSeq + 1 := by
    simp only [advance]
    split_ifs <;> rfl
  refine ⟨⟨?_, ?_, fitsBlock_nil, ?_⟩, hseq⟩
  · have hcur : j.advance.curBlock = encodeBlock (j.blockSeq + 1) [] := by
      simp only [advance]
      split_ifs
      · exact initCurBlock_curBlock _ _
      · exact initCurBlock_curBlock _ _
    rw [hcur, hseq]
  · simp only [advance]
    split_ifs <;> rfl
  · have hclean : j.advance.dirty = false := by
      simp only [advance]
    simp [hclean]

/-- A flush writes the packed records at the write position. -/
theorem flushCurBlock_content :
    Triple True (fun s => Content dev seq es disk s ∧ s.journal.writePos = r.writePos)
      (flushCurBlock H) fun _ => Content dev (seq + 1) []
        (Function.update disk r.writePos (encodeBlock seq es)) := by
  intro s hs
  obtain ⟨hs, hpos⟩ := hs
  have hwrite : Triple True (Content dev seq es disk) (writeBlock H s.journal.writePos _) _ :=
    writeBlock_content s.journal.writePos (.recordBlock s.journal.writePos s.journal.curBlock)
  refine Triple.bind hwrite (fun _ => .update fun t ht => ?_) s hs
  obtain ⟨hpacks, hseq⟩ := advance_packs t.journal
  refine ⟨hpacks, hseq.trans (congrArg (· + 1) ht.blockSeq), ?_⟩
  refine ht.disk.trans ?_
  rw [hpos, hs.packs.curBlock, hs.blockSeq]
  rfl

/-- The ring and the content together. -/
def At (H : Hooks σ) (dev : ℕ → Bytes) (r : Ring) (seq : UInt32) (es : List Entry)
    (disk : ℕ → Bytes) (s : State σ) : Prop :=
  Rep H false r s ∧ Content dev seq es disk s

/-- The effect on the ring is known; what is left is the content. -/
theorem at_of_steps {x : Call (State σ) Unit} {q : Ring} {seq' : UInt32} {es' : List Entry}
    {disk' : ℕ → Bytes} (hring : Steps H x false r q)
    (hcontent : Triple True (At H dev r seq es disk) x fun _ => Content dev seq' es' disk') :
    Triple True (At H dev r seq es disk) x fun _ => At H dev q seq' es' disk' := by
  have hboth := Triple.and (hring.weaken (δ := True) fun _ => True.intro) hcontent
  exact hboth.conseq (fun s hs => ⟨hs.1, hs⟩) fun _ _ hs => hs

theorem At.writePos {s : State σ} (h : At H dev r seq es disk s) :
    s.journal.writePos = r.writePos := by
  rw [← h.1.ring]
  rfl

theorem flushCurBlock_at (h : r.Usable) :
    Triple True (At H dev r seq es disk) (flushCurBlock H) fun _ =>
      At H dev r.flush (seq + 1) [] (Function.update disk r.writePos (encodeBlock seq es)) := by
  have hhi := h.hi
  refine at_of_steps (flushCurBlock_steps h.lo (by omega)) ?_
  exact flushCurBlock_content.conseq (fun s hs => ⟨hs.2, hs.writePos⟩) fun _ _ hs => hs

/-- A sync that goes through without a checkpoint. -/
theorem syncCommit_content (h : r.Usable) :
    Triple True (At H dev r seq es disk) (syncCommit H) fun _ => Content dev (seq + 1) []
      (Function.update disk r.writePos (encodeBlock seq es)) := by
  refine Triple.bind ((flushCurBlock_at h).conseq (fun _ hs => hs) fun _ _ hs => hs.2) fun _ => ?_
  refine Triple.bind (hook_content _).context fun _ => ?_
  refine Triple.bind (updateJournal_content fun _ => ⟨rfl, rfl, rfl, rfl⟩) fun _ => ?_
  refine Triple.bind (syncSuperblock_content _).context fun _ => ?_
  refine Triple.bind (hook_content _).context fun _ => ?_
  refine Triple.bind syncAllocators_content fun _ => ?_
  refine Triple.bind (hook_content _).context fun _ => ?_
  exact updateJournal_content fun _ => ⟨rfl, rfl, rfl, rfl⟩

theorem syncEntry_at (hroom : ¬r.full) (hgeom : r.start < r.stop) :
    Triple True (At H dev r seq es disk) (syncEntry H sync) fun _ => At H dev r seq es disk := by
  have hsteps : Steps H (syncEntry H sync) false r r.syncEntry := syncEntry_steps hgeom
  have hsame : r.syncEntry = r := if_neg hroom
  rw [hsame] at hsteps
  refine at_of_steps hsteps ?_
  intro s hs
  refine Triple.when (P := At H dev r seq es disk) (fun hfull => ?_) (fun _ t ht => ht.2) s hs
  refine absurd ?_ hroom
  rw [← hs.1.ring]
  exact hfull.2

/-- No checkpoint is due after the commit. -/
def Quiet (r : Ring) (checkpoint : Bool) : Prop :=
  (checkpoint = true → r.records < jrnCheckpointInterval) ∧ r.next r.writePos ≠ r.logStart

theorem syncTail_at (hclean : r.dirty = false) (hgeom : r.start < r.stop)
    (hquiet : Quiet r checkpoint) :
    Triple True (At H dev r seq es disk) (syncTail H sync checkpoint)
      fun _ => At H dev r seq es disk := by
  have hsteps : Steps H (syncTail H sync checkpoint) false r
      (r.periodic checkpoint).backPressure := syncTail_steps hclean hgeom
  have hnone : ¬(checkpoint = true ∧ jrnCheckpointInterval ≤ r.records) := fun hboth => by
    have := hquiet.1 hboth.1
    omega
  have hsame : (r.periodic checkpoint).backPressure = r := by
    unfold Ring.periodic Ring.backPressure
    rw [if_neg hnone, if_neg hquiet.2]
  rw [hsame] at hsteps
  refine at_of_steps hsteps ?_
  intro s hs
  have hperiodic : ¬(checkpoint = true ∧
      jrnCheckpointInterval ≤ s.journal.recordsSinceCheckpoint) := by
    rw [← hs.1.ring] at hnone
    exact hnone
  have hlap : ¬(!s.journal.inCheckpoint ∧
      s.journal.nextBlock s.journal.writePos = s.journal.sb.journalLogStart) := by
    rintro ⟨-, hnext⟩
    apply hquiet.2
    rw [← hs.1.ring]
    exact hnext
  have hread : readJournal s = (.ok s.journal, s) := rfl
  have hskip : ∀ (p : Prop) [Decidable p] (x : Call (State σ) Unit), ¬p →
      Call.when p x s = (.ok (), s) := by
    intro p _ x hp
    unfold Call.when
    rw [if_neg hp]
    rfl
  have hrun : syncTail H sync checkpoint s = (.ok (), s) := by
    unfold syncTail
    rw [bind_of_ok hread, bind_of_ok (hskip _ _ hperiodic), bind_of_ok hread, hskip _ _ hlap]
  rw [hrun]
  exact hs.2

theorem syncLocked_at_clean :
    Triple True (At H dev r seq [] disk) (syncLocked H checkpoint)
      fun _ => At H dev r seq [] disk := by
  intro s hs
  refine Triple.when (P := At H dev r seq [] disk) (fun hdirty => ?_) (fun _ t ht => ht) s hs
  exact absurd rfl (hs.2.packs.dirty.mp hdirty)

/-- A sync with records pending: they are written, and the boundary moves past them. -/
theorem syncLocked_at (h : r.Usable) (hroom : ¬r.full) (hes : es ≠ [])
    (hquiet : Quiet r.flush.commit checkpoint) :
    Triple True (At H dev r seq es disk) (syncLocked H checkpoint) fun _ =>
      At H dev r.flush.commit (seq + 1) []
        (Function.update disk r.writePos (encodeBlock seq es)) := by
  have hlo := h.lo
  have hhi := h.hi
  intro s hs
  refine Triple.when (P := At H dev r seq es disk) (fun _ => ?_) (fun hclean => ?_) s hs
  · refine Triple.bind (syncEntry_at hroom (by omega)) fun _ => ?_
    intro t ht
    refine Triple.when (P := At H dev r seq es disk) (fun _ => ?_) (fun hclean => ?_) t ht
    · refine Triple.bind (at_of_steps (syncCommit_steps h) (syncCommit_content h)) fun _ => ?_
      refine syncTail_at rfl ?_ hquiet
      change r.start < r.stop
      omega
    · exact absurd (ht.2.packs.dirty.mpr hes) hclean
  · exact absurd (hs.2.packs.dirty.mpr hes) hclean

theorem makeRoom_at (h : r.Usable) (hlap : r.flush.writePos ≠ r.logStart) :
    Triple True (At H dev r seq es disk) (makeRoom H) fun _ =>
      At H dev r.flush (seq + 1) [] (Function.update disk r.writePos (encodeBlock seq es)) := by
  refine Triple.bind (flushCurBlock_at h) fun _ => ?_
  intro s hs
  refine Triple.when (P := At H dev r.flush (seq + 1) []
    (Function.update disk r.writePos (encodeBlock seq es))) (fun hfull => ?_) (fun _ t ht => ht) s hs
  refine absurd ?_ hlap
  have hring : (ringOf H s).writePos = (ringOf H s).logStart := hfull
  rw [hs.1.ring] at hring
  exact hring

theorem append_at (hfit : FitsBlock (es ++ [(typ, data)])) :
    Triple True (At H dev r seq es disk)
      (updateJournal (σ := σ) fun j => j.appendRecord typ data) fun _ =>
      At H dev (r.append (recordSize data)) seq (es ++ [(typ, data)]) disk := by
  refine .update fun s hs => ⟨rep_appendRecord hs.1 typ data, ?_⟩
  exact ⟨hs.2.packs.appendRecord hfit, hs.2.blockSeq, hs.2.disk⟩

theorem recordSize_eq (h : data.length ≤ 4064) :
    recordSize data = journalRecordHdrSize + data.length := by
  unfold recordSize journalRecordHdrSize
  exact Nat.mod_eq_of_lt (by omega)

/-- Whether a record fits next to the ones already packed. -/
theorem At.overflows_iff {s : State σ} (h : At H dev r seq es disk s)
    (hlen : data.length ≤ 4064) :
    r.overflows (recordSize data) = false ↔ FitsBlock (es ++ [(typ, data)]) := by
  have hoff : r.offset = journalBlockHdrSize + (encodeEntries es).length := by
    rw [← h.1.ring]
    exact h.2.packs.writeOffset
  rw [fitsBlock_snoc]
  unfold Ring.overflows
  rw [decide_eq_false_iff_not, hoff, recordSize_eq hlen]
  dsimp only
  omega

theorem fitsBlock_single (h : data.length ≤ 4064) :
    FitsBlock ([] ++ [(typ, data)]) := by
  rw [fitsBlock_snoc]
  change 16 + 0 + (16 + data.length) ≤ 4096
  omega

theorem writeRecord_at (h : r.Usable)
    (hlen : data.length ≤ 4064) (hlap : r.overflows (recordSize data) = true →
      r.flush.writePos ≠ r.logStart) :
    Triple True (At H dev r seq es disk) (writeRecord H typ data) fun _ =>
      if r.overflows (recordSize data) then
        At H dev (r.flush.append (recordSize data)) (seq + 1) [(typ, data)]
          (Function.update disk r.writePos (encodeBlock seq es))
      else At H dev (r.append (recordSize data)) seq (es ++ [(typ, data)]) disk := by
  intro s hs
  have hlog : !s.journal.inReplay := by simp [hs.1.inReplay]
  refine Triple.when (P := At H dev r seq es disk) (fun _ => ?_) (fun hc => absurd hlog hc) s hs
  refine .ite (fun _ => .fail fun _ _ => True.intro) fun _ =>
    .ite (fun _ => .fail fun _ _ => True.intro) fun _ => ?_
  intro t ht
  have hover : t.journal.overflows data = r.overflows (recordSize data) := by
    rw [← ht.1.ring]
    rfl
  by_cases hfull : r.overflows (recordSize data) = true
  · rw [if_pos hfull]
    have hmake : Triple True (At H dev r seq es disk)
        (Call.when (t.journal.overflows data) (makeRoom H)) fun _ => At H dev r.flush (seq + 1) []
          (Function.update disk r.writePos (encodeBlock seq es)) :=
      .when (fun _ => makeRoom_at h (hlap hfull)) fun hno => absurd (hover.trans hfull) hno
    refine Triple.bind hmake (fun _ => ?_) t ht
    intro u hu
    refine Triple.ite (P := At H dev r.flush (seq + 1) []
      (Function.update disk r.writePos (encodeBlock seq es)))
      (fun _ => .fail fun _ _ => True.intro) (fun _ => ?_) u hu
    exact append_at (fitsBlock_single hlen)
  · rw [if_neg hfull]
    have hskip : Triple True (At H dev r seq es disk)
        (Call.when (t.journal.overflows data) (makeRoom H)) fun _ => At H dev r seq es disk :=
      .when (fun hyes => absurd (hover.symm.trans hyes) hfull) fun _ _ hu => hu
    refine Triple.bind hskip (fun _ => ?_) t ht
    intro u hu
    refine Triple.ite (P := At H dev r seq es disk)
      (fun _ => .fail fun _ _ => True.intro) (fun _ => ?_) u hu
    exact append_at ((hu.overflows_iff hlen).mp (by simpa using hfull))

end Calls

end Briefs.Journal
