import Briefs.Journal.Logged

/-!
# The journal round trip

Records appended and synced since a checkpoint are what a walk of the ring reads back,
in order, wherever the log starts and however the syncs group them.
-/

namespace Briefs.Journal

open Lib Lib.Call

section Walk

variable {r : Ring} {d l : ℕ} {disk : ℕ → Bytes} {blocks : List (List Entry)}

/-- What `walkJournal` does at a block of the ring. -/
def visitBlock (r : Ring) (cur : ℕ) (buf : Bytes) (a : List Yield) : List Yield × Option WalkError :=
  if cur = r.stop - 1 ∨ r.logStart = r.logEnd then (a, none)
  else iterateJournalBlockRecords buf (parseJournalBlockHeader buf).recordCount (collect cur) a

/-- The walk of the ring from `cur` on. -/
def walkFrom (r : Ring) (read : ℕ → Except Err Bytes) (fuel cur : ℕ) (a : List Yield) :
    List Yield × Option WalkError :=
  walkRing read r.start (r.stop - r.start) r.logStart r.logEnd (visitBlock r) fuel cur a

/-- The block after the `i`-th of the log: the next one, or the checkpoint block at the
end of the ring. -/
theorem Ring.Filled.next_nth (h : r.Filled d l) (i : ℕ) :
    r.next (r.nth i) = r.nth i + 1 := by
  have := h.nth_lt i
  unfold Ring.next nextRingBlock
  split_ifs <;> omega

theorem Ring.Filled.next_checkpoint (h : r.Filled d l) : r.next (r.stop - 1) = r.start := by
  have := h.hi
  have := h.lo
  unfold Ring.next nextRingBlock
  split_ifs <;> omega

/-- The next block of the log is behind the checkpoint block exactly when a lap ends. -/
theorem Ring.Filled.nth_succ (h : r.Filled d l) (i : ℕ) :
    r.nth (i + 1) = if r.nth i + 1 = r.stop - 1 then r.start else r.nth i + 1 := by
  have hbase := h.base_lt
  have hslot := @slot_succ r.slots (r.logStart - r.start) i (Nat.zero_lt_of_lt hbase)
  unfold Ring.nth Ring.slots at *
  split_ifs at hslot ⊢ <;> omega

theorem walkFrom_succ {read : ℕ → Except Err Bytes} {cur : ℕ} {buf : Bytes} {a b : List Yield}
    (hread : read cur = .ok buf) (hmagic : (parseJournalBlockHeader buf).magic = magicJournal ∨
      (parseJournalBlockHeader buf).magic = magicCheckpoint)
    (hvisit : visitBlock r cur buf a = (b, none)) (hne : r.logStart ≠ r.logEnd) (fuel : ℕ) :
    walkFrom r read (fuel + 1) cur a =
      if r.next cur = r.logEnd then (b, none) else walkFrom r read fuel (r.next cur) b := by
  have hok : ¬((parseJournalBlockHeader buf).magic ≠ magicJournal ∧
      (parseJournalBlockHeader buf).magic ≠ magicCheckpoint) := by
    rintro ⟨hj, hc⟩
    exact hmagic.elim hj hc
  unfold walkFrom
  rw [walkRing, hread]
  dsimp only
  rw [if_neg hok, hvisit]
  dsimp only
  rw [if_neg hne]
  rfl

/-- Raw moves from `logStart` to the `i`-th block of the log. -/
def Ring.moves (r : Ring) (i : ℕ) : ℕ := i + (r.logStart - r.start + i) / r.slots

theorem Ring.Filled.moves_succ (h : r.Filled d l) (i : ℕ) :
    r.moves (i + 1) = if r.nth i + 1 = r.stop - 1 then r.moves i + 2 else r.moves i + 1 := by
  have hbase := h.base_lt
  have hcross : r.nth i + 1 = r.stop - 1 ↔ r.slots ∣ r.logStart - r.start + i + 1 := by
    have hslot := @slot_succ r.slots (r.logStart - r.start) i (Nat.zero_lt_of_lt hbase)
    rw [Nat.dvd_iff_mod_eq_zero]
    change _ ↔ slot r.slots (r.logStart - r.start) (i + 1) = 0
    unfold Ring.nth Ring.slots at *
    split_ifs at hslot <;> omega
  unfold Ring.moves
  rw [← Nat.add_assoc, Nat.succ_div]
  simp only [hcross]
  split_ifs <;> omega

theorem Ring.moves_mono (r : Ring) {i k : ℕ} (h : i ≤ k) : r.moves i ≤ r.moves k :=
  Nat.add_le_add h (Nat.div_le_div_right (Nat.add_le_add_left h _))

theorem Ring.Filled.nth_ne_logEnd (h : r.Filled d d) (hlap : d < r.slots) {i : ℕ} (hi : i < d) :
    r.nth i ≠ r.logEnd := by
  rw [h.logEnd, ← h.writePos]
  exact h.nth_ne_writePos hi hlap

/-- The walk at the `i`-th block goes on to the next one, over the checkpoint block. -/
theorem walkFrom_step {read : ℕ → Except Err Bytes} (hfill : r.Filled d d) (hlap : d < r.slots)
    (hholds : r.Holds blocks disk)
    (hread : ∀ b, r.start ≤ b → b < r.stop → read b = .ok (disk b)) {i fuel : ℕ} {es : List Entry}
    (hi : i < d) (hes : blocks[i]? = some es) (hfuel : r.moves d ≤ fuel + r.moves i)
    (a : List Yield) :
    ∃ fuel', r.moves d ≤ fuel' + r.moves (i + 1) ∧ walkFrom r read fuel (r.nth i) a =
      if r.nth (i + 1) = r.logEnd then (a ++ es.map Yield.ofEntry, none)
      else walkFrom r read fuel' (r.nth (i + 1)) (a ++ es.map Yield.ofEntry) := by
  obtain ⟨hlo, hhi⟩ := hfill.nth_lt i
  obtain ⟨hfit, seq, hdisk⟩ := hholds.block i es hes
  have hne : r.logStart ≠ r.logEnd := by
    rw [← hfill.nth_zero]
    exact hfill.nth_ne_logEnd hlap (by omega)
  have hvisit : visitBlock r (r.nth i) (encodeBlock seq es) a =
      (a ++ es.map Yield.ofEntry, none) := by
    unfold visitBlock
    rw [if_neg (by rintro (h | h); omega; exact hne h), iterate_encodeBlock _ _ hfit]
  have hstep := fun fuel => walkFrom_succ (r := r) ((hread _ hlo (by omega)).trans
    (congrArg Except.ok hdisk)) (.inl (magic_encodeBlock seq es)) hvisit hne fuel
  have hnext := hfill.nth_succ i
  have hmoves := hfill.moves_succ i
  have hlast := r.moves_mono (Nat.succ_le_of_lt hi)
  rw [Nat.succ_eq_add_one] at hlast
  by_cases hcross : r.nth i + 1 = r.stop - 1
  · rw [if_pos hcross] at hnext hmoves
    obtain ⟨f, rfl⟩ : ∃ f, fuel = f + 2 := ⟨fuel - 2, by omega⟩
    refine ⟨f, by omega, ?_⟩
    have hskip : visitBlock r (r.stop - 1) (disk (r.stop - 1)) (a ++ es.map Yield.ofEntry) =
        (a ++ es.map Yield.ofEntry, none) := if_pos (.inl rfl)
    have hcheckpoint : r.stop - 1 ≠ r.logEnd := by
      have := hfill.nth_lt d
      rw [hfill.logEnd]
      omega
    rw [hstep, hfill.next_nth, hcross, if_neg hcheckpoint,
      walkFrom_succ (hread _ (by omega) (by omega)) (.inr hholds.marker) hskip hne,
      hfill.next_checkpoint, ← hnext]
  · rw [if_neg hcross] at hnext hmoves
    obtain ⟨f, rfl⟩ : ∃ f, fuel = f + 1 := ⟨fuel - 1, by omega⟩
    refine ⟨f, by omega, ?_⟩
    rw [hstep, hfill.next_nth, ← hnext]

/-- The walk from the `i`-th block on hands over the records of the blocks from there on. -/
theorem walkFrom_nth {read : ℕ → Except Err Bytes} (hfill : r.Filled d d) (hlen : blocks.length = d)
    (hlap : d < r.slots) (hholds : r.Holds blocks disk)
    (hread : ∀ b, r.start ≤ b → b < r.stop → read b = .ok (disk b)) {i fuel : ℕ} (hi : i < d)
    (hfuel : r.moves d ≤ fuel + r.moves i) (a : List Yield) :
    walkFrom r read fuel (r.nth i) a =
      (a ++ (blocks.drop i).flatten.map Yield.ofEntry, none) := by
  induction hk : d - i generalizing i fuel a with
  | zero => omega
  | succ k ih =>
    have hes : blocks[i]? = some (blocks.get ⟨i, by omega⟩) := List.getElem?_eq_getElem _
    obtain ⟨fuel', hfuel', hstep⟩ := walkFrom_step hfill hlap hholds hread hi hes hfuel a
    have hdrop : blocks.drop i = blocks.get ⟨i, by omega⟩ :: blocks.drop (i + 1) :=
      List.drop_eq_getElem_cons _
    rw [hstep, hdrop, List.flatten_cons, List.map_append, ← List.append_assoc]
    by_cases hlast : i + 1 = d
    · rw [if_pos (by rw [hlast, hfill.logEnd]), List.drop_eq_nil_of_le (by omega)]
      simp
    · rw [if_neg (hfill.nth_ne_logEnd hlap (by omega))]
      exact ih (by omega) hfuel' _ (by omega)

/-- `walkJournal` is the walk of the ring that the journal describes. -/
theorem walkJournal_eq {σ : Type} {H : Hooks σ} {s : State σ} (hs : Rep H false r s)
    (dev : ℕ → Bytes) (a : List Yield) :
    walkJournal s.journal dev collect a = endAtForeign
      (walkFrom r (readJournalBlock s.journal dev) (r.stop - r.start) r.logStart a) := by
  unfold walkJournal walkFrom visitBlock
  rw [← hs.ring, hs.checkpointBlk]
  rfl

theorem readJournalBlock_eq {σ : Type} {H : Hooks σ} {s : State σ} (hs : Rep H false r s)
    (dev : ℕ → Bytes) {b : ℕ} (hlo : r.start ≤ b) (hhi : b < r.stop) :
    readJournalBlock s.journal dev b = .ok (dev b) := by
  rw [← hs.ring] at hlo hhi
  refine if_neg fun hout => ?_
  rcases hout with hlow | hhigh
  · exact absurd hlo (by change ¬s.journal.journalStart ≤ b; omega)
  · exact absurd hhi (by change ¬b < s.journal.journalEnd; omega)

/-- An empty log yields nothing, whatever its block holds. -/
theorem walkJournal_empty {σ : Type} {H : Hooks σ} {s : State σ} (hs : Rep H false r s)
    (hfill : r.Filled 0 l) (hempty : r.logStart = r.logEnd) (dev : ℕ → Bytes) :
    walkJournal s.journal dev collect [] = ([], none) := by
  have hlo := hfill.lo
  have hhi := hfill.hi
  have hread := readJournalBlock_eq hs dev hlo (by omega)
  have hvisit : visitBlock r r.logStart (dev r.logStart) [] = ([], none) := if_pos (.inr hempty)
  obtain ⟨fuel, hfuel⟩ : ∃ fuel, r.stop - r.start = fuel + 1 := ⟨r.stop - r.start - 1, by omega⟩
  rw [walkJournal_eq hs, hfuel]
  unfold walkFrom
  rw [walkRing, hread]
  dsimp only
  split_ifs
  · rfl
  · rw [hvisit]
    rfl

theorem Ring.Filled.moves_lt (h : r.Filled d l) (hroom : d + 1 < r.slots) :
    r.moves d ≤ r.stop - r.start := by
  have hbase := h.base_lt
  have hlap : (r.logStart - r.start + d) / r.slots < 2 := Nat.div_lt_of_lt_mul (by omega)
  unfold Ring.moves Ring.slots at *
  omega

end Walk

variable {σ : Type}

/-- Nothing is pending and nothing was written since the last checkpoint. -/
def Settled (s : State σ) : Prop := s.journal.dirty = false ∧ EndsInCheckpoint s.events

theorem Opened.packs {s : State σ} (h : Opened s) : Packs s.journal [] := by
  have hopened := h.opened
  unfold newJournal at hopened
  cases hok : (ofSuperblock s.journal.sb).validate with
  | error e =>
    rw [hok] at hopened
    cases hopened
  | ok u =>
    rw [hok] at hopened
    injection hopened with hj
    rw [← hj]
    exact ⟨initCurBlock_curBlock _ _, rfl, fitsBlock_nil, by simp [initCurBlock, ofSuperblock]⟩

theorem Opened.kept {s : State σ} (h : Opened s) {dev : ℕ → Bytes}
    (hdev : Marker (dev s.journal.checkpointBlk)) : Kept dev s := by
  obtain ⟨hmin, -, hstart, hstop, hck, hpos, -, -, -, -⟩ := newJournal_ok h.opened
  have hlo := h.emptyLog.lo
  have hhi := h.emptyLog.hi
  refine ⟨hck, by omega, by omega, fun _ => h.packs, ?_⟩
  rw [h.noWrites]
  exact hdev

theorem Opened.restartable {s : State σ} (h : Opened s) (H : Hooks σ) :
    (ringOf H s).Restartable := by
  have hfill := h.filled H
  exact ⟨hfill.minSize, hfill.maxSize, hfill.usable, fun _ => hfill⟩

theorem Settled.logged {H : Hooks σ} {dev : ℕ → Bytes} {o s : State σ} {before : List JournalCall}
    (hs : Settled s) (ho : Opened o) (hdev : Marker (dev o.journal.checkpointBlk))
    (hbefore : Run (Performed H) o before s) :
    Logged H dev (recordBlocks s.events) [] [] s := by
  have hkept := run_kept hbefore (ho.kept hdev)
  obtain ⟨r, hrep, hr⟩ : ∃ r, Rep H false r s ∧ r.Restartable := by
    refine hbefore.preserves (I := fun s => ∃ r, Rep H false r s ∧ r.Restartable)
      ⟨_, ho.rep H, ho.restartable H⟩ fun t c u ht hp => ?_
    obtain ⟨q, hq, hrest⟩ := ht
    exact ⟨q.call c, hp.rep hq hrest.usable, hrest.call c⟩
  have hempty : r.Filled 0 0 := hr.empty (hrep.events ▸ hs.2)
  have hmarker := hkept.marker
  refine ⟨⟨r, s.journal.blockSeq, device dev s.writes, 0,
    ⟨hrep, hkept.clean hs.1, rfl, rfl⟩, hempty, fun _ => rfl, ?_, fun i es hi => ?_⟩, rfl⟩
  · rw [hrep.checkpointBlk] at hmarker
    rw [← hrep.ring]
    exact hmarker
  · simp at hi

/-- A device whose blocks all carry the checkpoint magic. -/
def markedDevice (_ : ℕ) : Bytes := (⟨magicCheckpoint, 0, 0, 0⟩ : JournalBlockHeader).marshalBinary

theorem marker_markedDevice (block : ℕ) : Marker (markedDevice block) := by
  unfold Marker markedDevice
  rw [← List.append_nil (JournalBlockHeader.marshalBinary _), parseJournalBlockHeader_append]

/-- A journal opened on an empty log that starts at the checkpoint block. -/
def openedAtCheckpoint : State Unit where
  journal := (ofSuperblock
    { emptySuperblock 6 with journalLogStart := 6, journalLogEnd := 6 }).initCurBlock 0
  writes := []
  bridge := ()

/-- A walk whose only block is the checkpoint block. -/
theorem walkJournal_checkpoint_only {j : Journal} (hgeom : j.journalStart < j.journalEnd)
    (hck : j.checkpointBlk = j.journalEnd - 1) (hstart : j.sb.journalLogStart = j.checkpointBlk)
    (hstop : j.sb.journalLogEnd = j.journalStart) (dev : ℕ → Bytes) :
    walkJournal j dev collect [] = ([], none) := by
  obtain ⟨fuel, hfuel⟩ : ∃ fuel, j.journalEnd - j.journalStart = fuel + 1 :=
    ⟨j.journalEnd - j.journalStart - 1, by omega⟩
  have hread : readJournalBlock j dev j.sb.journalLogStart = .ok (dev j.sb.journalLogStart) :=
    if_neg (by omega)
  have hnext : nextRingBlock j.sb.journalLogStart j.journalStart (fuel + 1) = j.journalStart :=
    if_pos (by omega)
  unfold walkJournal
  dsimp only
  rw [hfuel, walkRing, hread]
  dsimp only
  have hskip : j.sb.journalLogStart = j.checkpointBlk ∨
      j.sb.journalLogStart = j.sb.journalLogEnd := .inl hstart
  rw [if_pos hskip]
  split_ifs with hmagic hempty hlast
  · rfl
  · rfl
  · rfl
  · exact absurd (hnext.trans hstop.symm) hlast

/-- The state a call leaves. -/
def JournalCall.leave (H : Hooks σ) (s : State σ) (c : JournalCall) : State σ := (c.perform H s).2

theorem performed_leave {H : Hooks σ} {s : State σ} {c : JournalCall}
    (h : (c.perform H s).1.isOk = true) : Performed H s c (c.leave H s) := by
  refine Prod.ext ?_ rfl
  cases hres : (c.perform H s).1 with
  | ok u => rfl
  | error e =>
    rw [hres] at h
    cases h

end Briefs.Journal
