import Briefs.Journal.Log
import Briefs.Lib.Run

/-!
# Data before commit

An extent-changing operation writes its data and node blocks, marks a pending drain
(`markDataDrain`) and appends its records. A sync claims the mark before its commit
point, flushes if it was set, and puts it back if the flush fails (`DrainPendingData`).
Operations write and mark without the journal lock; what the calls that hold it do is a
list of tasks, performed one by one. Every task that reaches the device may fail, and
the call then ends there.

`written` and `flushed` only remember: how many blocks an operation has written, and
how many of them the successful flushes were started after.
-/

namespace Briefs.Bridge

open Lib Journal

namespace DataDrain

/-- One step of a call that holds the journal lock. -/
inductive Task
  /-- The back-pressure test of `syncLocked`. -/
  | entry
  | writeBlock
  /-- `DrainPendingData` claims the mark. -/
  | claim
  | flushStart
  | flushEnd
  | setLogEnd
  /-- The superblock is written. -/
  | persist
  /-- Work of the bridge or the device that none of these fields depends on. -/
  | hook
  | periodic (ckpt : Bool)
  | backPressure
  | retire
  /-- The flush in front of a record of this size that does not fit. -/
  | room (size : ℕ)
  deriving DecidableEq

/-- The tasks that can fail. -/
def Task.fallible : Task → Bool
  | .writeBlock | .flushEnd | .persist | .hook | .room _ => true
  | .entry | .claim | .flushStart | .setLogEnd | .periodic _ | .backPressure | .retire => false

/-- `checkpointLocked` with nothing pending: kick, allocators and their superblock write,
flush, checkpoint block, new boundaries, superblock. -/
def checkpointTasks : List Task := [.hook, .persist, .hook, .hook, .retire, .persist]

/-- `syncLocked` of pending records. -/
def syncTasks (ckpt : Bool) : List Task :=
  [.entry, .writeBlock, .claim, .setLogEnd, .persist, .hook, .persist, .hook, .periodic ckpt,
    .backPressure]

end DataDrain

open DataDrain in
structure DataDrain where
  log : Log
  /-- The log boundaries on the device, as numbers of records. -/
  logStart : ℕ
  logEnd : ℕ
  /-- The extent-changing operation of each record; other operations append records too. -/
  owners : List (Option ℕ)
  dataDrainPending : Bool
  marked : ℕ → Bool
  /-- What the call that holds the journal lock has still to do, and the record it appends. -/
  todo : List Task
  appending : Option (Option ℕ × ℕ)
  /-- The blocks written when the running flush was started. -/
  flushing : Option (ℕ → ℕ)
  written : ℕ → ℕ
  flushed : ℕ → ℕ

namespace DataDrain

inductive Act
  | write (op : ℕ)
  | mark (op : ℕ)
  | record (op : Option ℕ) (size : ℕ)
  | sync (ckpt : Bool)
  | checkpoint
  | updateLabel
  | work
  | fail

variable (s : DataDrain)

def unlocked : Bool := s.todo.isEmpty && s.appending.isNone

/-- `WriteBlock` of a data or node block. -/
def write (op : ℕ) : Option DataDrain :=
  if s.marked op then none
  else some { s with written := Function.update s.written op (s.written op + 1) }

/-- `markDataDrain`. -/
def mark (op : ℕ) : Option DataDrain :=
  if s.marked op then none
  else some { s with marked := Function.update s.marked op true, dataDrainPending := true }

def record (op : Option ℕ) (size : ℕ) : Option DataDrain :=
  if s.unlocked ∧ ∀ o, op = some o → s.marked o then
    some { s with todo := [.room size], appending := some (op, size) }
  else none

def sync (ckpt : Bool) : Option DataDrain :=
  if s.unlocked then some { s with todo := if s.log.ring.dirty then syncTasks ckpt else [] }
  else none

def checkpoint : Option DataDrain :=
  if s.unlocked then
    some { s with
      todo := (if s.log.ring.dirty then syncTasks true else []) ++ checkpointTasks }
  else none

def updateLabel : Option DataDrain :=
  if s.unlocked then some { s with todo := [.persist] } else none

/-- What a task does; `rest` are the tasks behind it. -/
def perform (rest : List Task) : Task → DataDrain
  | .entry => { s with todo := if s.log.ring.full then checkpointTasks ++ rest else rest }
  | .writeBlock => { s with log := s.log.flush, todo := rest }
  | .claim =>
    { s with
      dataDrainPending := false
      todo := if s.dataDrainPending then .flushStart :: .flushEnd :: rest else rest }
  | .flushStart => { s with flushing := some s.written, todo := rest }
  | .flushEnd =>
    { s with
      flushing := none
      flushed := fun o => max (s.flushed o) ((s.flushing.getD fun _ => 0) o)
      todo := rest }
  | .setLogEnd => { s with log := s.log.commit, todo := rest }
  | .persist => { s with logStart := s.log.retired, logEnd := s.log.committed, todo := rest }
  | .hook => { s with todo := rest }
  | .periodic ckpt =>
    { s with todo :=
        if ckpt ∧ jrnCheckpointInterval ≤ s.log.ring.records then checkpointTasks ++ rest else rest }
  | .backPressure =>
    { s with todo :=
        if s.log.ring.next s.log.ring.writePos = s.log.ring.logStart then checkpointTasks ++ rest
        else rest }
  | .retire => { s with log := s.log.retire, todo := rest }
  | .room size =>
    if s.log.ring.overflows size then
      { s with
        log := s.log.flush
        todo := if s.log.flush.ring.writePos = s.log.ring.logStart then checkpointTasks ++ rest
          else rest }
    else { s with todo := rest }

/-- The next task of the call that holds the lock, or the record it was called for. -/
def work : Option DataDrain :=
  match s.todo, s.appending with
  | task :: rest, _ => some (s.perform rest task)
  | [], some (op, size) =>
    some { s with
      log := s.log.append size
      owners := s.owners ++ [op]
      appending := none }
  | [], none => none

/-- The next task fails and the call returns; a failed flush puts the mark back. -/
def fail : Option DataDrain :=
  match s.todo with
  | [] => none
  | task :: _ =>
    if task.fallible then
      some { s with
        todo := []
        appending := none
        flushing := none
        dataDrainPending := s.dataDrainPending || task = .flushEnd }
    else none

def step : Act → Option DataDrain
  | .write op => s.write op
  | .mark op => s.mark op
  | .record op size => s.record op size
  | .sync ckpt => s.sync ckpt
  | .checkpoint => s.checkpoint
  | .updateLabel => s.updateLabel
  | .work => s.work
  | .fail => s.fail

def Steps (s : DataDrain) (a : Act) (t : DataDrain) : Prop := s.step a = some t

/-- After a mount with a clean log. -/
def mounted (ring : Ring) : DataDrain where
  log := { ring := ring, total := 0, flushed := 0, committed := 0, retired := 0 }
  logStart := 0
  logEnd := 0
  owners := []
  dataDrainPending := false
  marked := fun _ => false
  todo := []
  appending := none
  flushing := none
  written := fun _ => 0
  flushed := fun _ => 0

/-- The log on the device covers a record of the operation: a replay would apply it. -/
def Covers (o : ℕ) : Prop :=
  ∃ i, s.logStart ≤ i ∧ i < s.logEnd ∧ s.owners[i]? = some (some o)

/-- The operations the log on the device covers had all their blocks written before a flush
that was successful was started. -/
def DataFlushed : Prop := ∀ o, s.Covers o → s.flushed o = s.written o

section Invariant

variable {s} {t : DataDrain} {rest : List Task} {todo : List Task}

/-- Tasks that are no part of a flush under way. -/
def Plain (todo : List Task) : Prop := ∀ task ∈ todo, task ≠ .flushStart ∧ task ≠ .flushEnd

/-- Every operation with a record has its blocks flushed. -/
def AllFlushed (s : DataDrain) : Prop := ∀ o, some o ∈ s.owners → s.flushed o = s.written o

/-- The running flush was started after all blocks of the operation. -/
def FlushSees (s : DataDrain) (o : ℕ) : Prop := ∃ f, s.flushing = some f ∧ f o = s.written o

/-- `log_end` moves only when everything that has a record is flushed. -/
def Ready (s : DataDrain) : List Task → Prop
  | [] => True
  | .claim :: rest => Plain rest
  | .flushStart :: rest => ∃ rest', rest = .flushEnd :: rest' ∧ Plain rest'
  | .flushEnd :: rest => (∀ o, some o ∈ s.owners → s.FlushSees o) ∧ Plain rest
  | .setLogEnd :: rest => s.AllFlushed ∧ Ready s rest
  | _ :: rest => Ready s rest

/-- A flush under way takes care of the operation. -/
def InFlight (s : DataDrain) (o : ℕ) : Prop :=
  (∃ rest, s.todo = .flushStart :: rest) ∨ ((∃ rest, s.todo = .flushEnd :: rest) ∧ s.FlushSees o)

structure Ok (s : DataDrain) : Prop where
  ordered : s.log.Ordered
  total : s.owners.length = s.log.total
  logEnd : s.logEnd ≤ s.owners.length
  marked : ∀ o, some o ∈ s.owners → s.marked o
  appending : ∀ o size, s.appending = some (some o, size) → s.marked o
  flushed : ∀ o, s.flushed o ≤ s.written o
  flushing : ∀ f, s.flushing = some f → ∀ o, f o ≤ s.written o
  drain : ∀ o, s.marked o → s.flushed o = s.written o ∨ s.dataDrainPending ∨ s.InFlight o
  ready : s.Ready s.todo
  committed : ∀ i o, s.log.retired ≤ i → i < s.log.committed → s.owners[i]? = some (some o) →
    s.flushed o = s.written o
  persisted : s.DataFlushed

theorem ready_of_allFlushed (h : s.AllFlushed) (hplain : Plain todo) :
    s.Ready todo := by
  induction todo with
  | nil => trivial
  | cons task rest ih =>
    have hrest : Plain rest := fun t ht => hplain t (List.mem_cons_of_mem _ ht)
    have htask := hplain task List.mem_cons_self
    cases task with
    | claim => exact hrest
    | flushStart => exact absurd rfl htask.1
    | flushEnd => exact absurd rfl htask.2
    | setLogEnd => exact ⟨h, ih hrest⟩
    | _ => exact ih hrest

theorem ready_checkpoint : s.Ready (checkpointTasks ++ rest) ↔ s.Ready rest := by
  simp [checkpointTasks, Ready]

theorem Ready.mono (hflushed : s.AllFlushed → t.AllFlushed)
    (hsees : (∀ o, some o ∈ s.owners → s.FlushSees o) → ∀ o, some o ∈ t.owners → t.FlushSees o)
    (h : s.Ready todo) : t.Ready todo := by
  induction todo with
  | nil => trivial
  | cons task rest ih =>
    cases task with
    | claim => exact h
    | flushStart => exact h
    | flushEnd => exact ⟨hsees h.1, h.2⟩
    | setLogEnd => exact ⟨hflushed h.1, ih h.2⟩
    | _ => exact ih h

theorem Ok.write {op : ℕ} (h : Ok s) (hstep : s.write op = some t) : Ok t := by
  unfold DataDrain.write at hstep
  split_ifs at hstep with hmarked
  cases hstep
  have hle : ∀ o, s.written o ≤ Function.update s.written op (s.written op + 1) o := by
    intro o
    by_cases ho : o = op
    · simp [ho]
    · simp [Function.update_of_ne ho]
  -- an operation that is marked writes no blocks
  have hsame : ∀ o, s.marked o → Function.update s.written op (s.written op + 1) o = s.written o := by
    intro o ho
    have hne : o ≠ op := fun heq => hmarked (heq ▸ ho)
    rw [Function.update_of_ne hne]
  have hrecord : ∀ i o, s.owners[i]? = some (some o) → s.marked o :=
    fun i o hi => h.marked o (List.mem_of_getElem? hi)
  refine { h with flushed := ?_, flushing := ?_, drain := ?_, ready := ?_, committed := ?_,
                  persisted := ?_ }
  · exact fun o => (h.flushed o).trans (hle o)
  · exact fun f hf o => (h.flushing f hf o).trans (hle o)
  · intro o ho
    rcases h.drain o ho with hd | hd | hstart | ⟨hend, f, hf, hsees⟩
    · exact .inl (hd.trans (hsame o ho).symm)
    · exact .inr (.inl hd)
    · exact .inr (.inr (.inl hstart))
    · exact .inr (.inr (.inr ⟨hend, f, hf, hsees.trans (hsame o ho).symm⟩))
  · refine h.ready.mono (fun hall o ho => ?_) fun hall o ho => ?_
    · exact (hall o ho).trans (hsame o (h.marked o ho)).symm
    · obtain ⟨f, hf, hsees⟩ := hall o ho
      exact ⟨f, hf, hsees.trans (hsame o (h.marked o ho)).symm⟩
  · intro i o hlo hhi hi
    exact (h.committed i o hlo hhi hi).trans (hsame o (hrecord i o hi)).symm
  · rintro o ⟨i, hlo, hhi, hi⟩
    exact (h.persisted o ⟨i, hlo, hhi, hi⟩).trans (hsame o (hrecord i o hi)).symm

theorem Ok.mark {op : ℕ} (h : Ok s) (hstep : s.mark op = some t) : Ok t := by
  unfold DataDrain.mark at hstep
  split_ifs at hstep
  cases hstep
  have hle : ∀ o, s.marked o → Function.update s.marked op true o := by
    intro o ho
    by_cases hop : o = op
    · simp [hop]
    · simpa [Function.update_of_ne hop] using ho
  refine { h with marked := ?_, appending := ?_, drain := ?_, ready := ?_ }
  · exact fun o ho => hle o (h.marked o ho)
  · exact fun o size ha => hle o (h.appending o size ha)
  · exact fun o _ => .inr (.inl rfl)
  · exact Ready.mono (s := s) (fun hall => hall) (fun hall => hall) h.ready

def Calm (s : DataDrain) : Prop := ∀ rest, s.todo ≠ .flushStart :: rest ∧ s.todo ≠ .flushEnd :: rest

theorem Ok.pending_of_calm (h : Ok s) (hcalm : s.Calm) {o : ℕ} (ho : s.marked o) :
    s.flushed o = s.written o ∨ s.dataDrainPending := by
  rcases h.drain o ho with hd | hd | ⟨rest, hstart⟩ | ⟨⟨rest, hend⟩, -⟩
  · exact .inl hd
  · exact .inr hd
  · exact absurd hstart (hcalm rest).1
  · exact absurd hend (hcalm rest).2

/-- New tasks for the holder of the lock, and a new log, while no flush is under way. -/
theorem Ok.proceed {log : Log} {appending : Option (Option ℕ × ℕ)} (h : Ok s)
    (hcalm : s.Calm) (hordered : log.Ordered) (htotal : log.total = s.log.total)
    (hcommitted : ∀ i o, log.retired ≤ i → i < log.committed → s.owners[i]? = some (some o) →
      s.flushed o = s.written o)
    (hready : s.Ready todo)
    (happending : ∀ o size, appending = some (some o, size) → s.marked o) :
    Ok { s with log := log, todo := todo, appending := appending } := by
  refine { h with ordered := hordered, total := h.total.trans htotal.symm, drain := ?_, ready := ?_,
                  committed := hcommitted, appending := happending }
  · intro o ho
    exact (h.pending_of_calm hcalm ho).imp_right .inl
  · exact Ready.mono (s := s) (fun hall => hall) (fun hall => hall) hready

theorem Ok.retask (h : Ok s) (hcalm : s.Calm) (hready : s.Ready todo) :
    Ok { s with todo := todo } :=
  h.proceed hcalm h.ordered rfl h.committed hready h.appending

theorem calm_of_unlocked (h : s.unlocked) : s.Calm := by
  have htodo : s.todo = [] := by simpa using (Bool.and_eq_true_iff.mp h).1
  simp [Calm, htodo]

theorem ready_syncTasks (ckpt : Bool) (rest : List Task) (hrest : Plain rest) :
    s.Ready (syncTasks ckpt ++ rest) := by
  simp only [syncTasks, Ready, Plain, List.cons_append, List.nil_append, List.mem_cons]
  rintro task (rfl | rfl | rfl | rfl | rfl | rfl | rfl | htask)
  all_goals first | exact hrest task htask | simp

theorem Ok.sync {ckpt : Bool} (h : Ok s) (hstep : s.sync ckpt = some t) : Ok t := by
  unfold DataDrain.sync at hstep
  split_ifs at hstep with hfree hdirty <;> cases hstep
  · refine h.retask (calm_of_unlocked hfree) ?_
    simpa using ready_syncTasks ckpt [] (by simp [Plain])
  · exact h.retask (calm_of_unlocked hfree) trivial

theorem Ok.checkpoint (h : Ok s) (hstep : s.checkpoint = some t) : Ok t := by
  unfold DataDrain.checkpoint at hstep
  split_ifs at hstep with hfree hdirty <;> cases hstep
  · exact h.retask (calm_of_unlocked hfree)
      (ready_syncTasks true checkpointTasks (by simp [Plain, checkpointTasks]))
  · refine h.retask (calm_of_unlocked hfree) ?_
    simp [checkpointTasks, Ready]

theorem Ok.record {op : Option ℕ} {size : ℕ} (h : Ok s) (hstep : s.record op size = some t) :
    Ok t := by
  unfold DataDrain.record at hstep
  split_ifs at hstep with hguard
  cases hstep
  refine h.proceed (calm_of_unlocked hguard.1) h.ordered rfl h.committed trivial ?_
  rintro o n ⟨⟩
  exact hguard.2 o rfl

/-- The tasks in front of which no flush is under way. -/
theorem calm_of_head {task : Task} (htodo : s.todo = task :: rest)
    (hstart : task ≠ .flushStart) (hend : task ≠ .flushEnd) : s.Calm := by
  intro rest'
  rw [htodo]
  simp [hstart, hend]

theorem Ok.claim (h : Ok s) (htodo : s.todo = .claim :: rest) :
    Ok (s.perform rest .claim) := by
  have hready : Plain rest := by
    have hr := h.ready
    rw [htodo] at hr
    exact hr
  have hcalm := calm_of_head htodo (by simp) (by simp)
  by_cases hpending : s.dataDrainPending
  · simp only [perform, hpending, if_true]
    refine { h with drain := fun o _ => .inr (.inr (.inl ⟨_, rfl⟩)), ready := ⟨rest, rfl, hready⟩ }
  · have hall : s.AllFlushed := fun o ho =>
      (h.pending_of_calm hcalm (h.marked o ho)).resolve_right hpending
    simp only [perform, hpending]
    refine { h with drain := ?_, ready := ?_ }
    · exact fun o ho => .inl ((h.pending_of_calm hcalm ho).resolve_right hpending)
    · exact Ready.mono (s := s) (fun hall => hall) (fun hall => hall)
        (ready_of_allFlushed hall hready)

theorem Ok.flushStart (h : Ok s) (htodo : s.todo = .flushStart :: rest) :
    Ok (s.perform rest .flushStart) := by
  obtain ⟨rest', rfl, hplain⟩ : ∃ rest', rest = .flushEnd :: rest' ∧ Plain rest' := by
    have hr := h.ready
    rw [htodo] at hr
    exact hr
  refine { h with flushing := ?_, drain := ?_, ready := ⟨fun o _ => ⟨_, rfl, rfl⟩, hplain⟩ }
  · rintro f ⟨⟩ o
    exact le_rfl
  · exact fun o _ => .inr (.inr (.inr ⟨⟨_, rfl⟩, _, rfl, rfl⟩))

theorem Ok.flushEnd (h : Ok s) (htodo : s.todo = .flushEnd :: rest) :
    Ok (s.perform rest .flushEnd) := by
  obtain ⟨hsees, hplain⟩ : (∀ o, some o ∈ s.owners → s.FlushSees o) ∧ Plain rest := by
    have hr := h.ready
    rw [htodo] at hr
    exact hr
  have hseen : ∀ o, (s.flushing.getD fun _ => 0) o ≤ s.written o := by
    intro o
    cases hf : s.flushing with
    | none => exact Nat.zero_le _
    | some f => exact h.flushing f hf o
  have hkeep : ∀ o, s.flushed o = s.written o →
      max (s.flushed o) ((s.flushing.getD fun _ => 0) o) = s.written o := by
    intro o ho
    rw [ho]
    exact max_eq_left (hseen o)
  have hdone : ∀ o, s.FlushSees o →
      max (s.flushed o) ((s.flushing.getD fun _ => 0) o) = s.written o := by
    rintro o ⟨f, hf, hfo⟩
    rw [hf, Option.getD_some, hfo]
    exact max_eq_right (h.flushed o)
  refine { h with flushed := ?_, flushing := ?_, drain := ?_, ready := ?_, committed := ?_,
                  persisted := ?_ }
  · exact fun o => max_le (h.flushed o) (hseen o)
  · rintro f ⟨⟩
  · intro o ho
    rcases h.drain o ho with hd | hd | ⟨rest', hstart⟩ | ⟨-, hd⟩
    · exact .inl (hkeep o hd)
    · exact .inr (.inl hd)
    · rw [htodo] at hstart
      cases hstart
    · exact .inl (hdone o hd)
  · exact ready_of_allFlushed (fun o ho => hdone o (hsees o ho)) hplain
  · exact fun i o hlo hhi hi => hkeep o (h.committed i o hlo hhi hi)
  · exact fun o hcovers => hkeep o (h.persisted o hcovers)

/-- A task behind which the rest is as ready as before. -/
theorem Ok.ready_rest {task : Task} (h : Ok s) (htodo : s.todo = task :: rest)
    (hpass : s.Ready (task :: rest) → s.Ready rest) : s.Ready rest := by
  have hr := h.ready
  rw [htodo] at hr
  exact hpass hr

theorem Ok.perform {task : Task} (h : Ok s) (htodo : s.todo = task :: rest) :
    Ok (s.perform rest task) := by
  cases task with
  | claim => exact h.claim htodo
  | flushStart => exact h.flushStart htodo
  | flushEnd => exact h.flushEnd htodo
  | entry =>
    refine h.retask (calm_of_head htodo (by simp) (by simp)) ?_
    have hrest := h.ready_rest htodo id
    split_ifs
    · exact ready_checkpoint.mpr hrest
    · exact hrest
  | periodic ckpt =>
    refine h.retask (calm_of_head htodo (by simp) (by simp)) ?_
    have hrest := h.ready_rest htodo id
    split_ifs
    · exact ready_checkpoint.mpr hrest
    · exact hrest
  | backPressure =>
    refine h.retask (calm_of_head htodo (by simp) (by simp)) ?_
    have hrest := h.ready_rest htodo id
    split_ifs
    · exact ready_checkpoint.mpr hrest
    · exact hrest
  | hook => exact h.retask (calm_of_head htodo (by simp) (by simp)) (h.ready_rest htodo id)
  | writeBlock =>
    exact h.proceed (calm_of_head htodo (by simp) (by simp)) h.ordered.flush rfl h.committed
      (h.ready_rest htodo id) h.appending
  | retire =>
    refine h.proceed (calm_of_head htodo (by simp) (by simp)) h.ordered.retire rfl ?_
      (h.ready_rest htodo id) h.appending
    intro i o hlo hhi
    exact absurd hlo (Nat.not_le.mpr hhi)
  | setLogEnd =>
    obtain ⟨hall, hrest⟩ : s.AllFlushed ∧ s.Ready rest := by
      have hr := h.ready
      rw [htodo] at hr
      exact hr
    refine h.proceed (calm_of_head htodo (by simp) (by simp)) h.ordered.commit rfl ?_ hrest
      h.appending
    exact fun i o _ _ hi => hall o (List.mem_of_getElem? hi)
  | persist =>
    have hnext := h.retask (calm_of_head htodo (by simp) (by simp)) (h.ready_rest htodo id)
    have hle : s.log.committed ≤ s.owners.length := by
      rw [h.total]
      exact h.ordered.committed_le.trans h.ordered.flushed_le
    refine { hnext with logEnd := hle, ready := ?_, persisted := ?_ }
    · exact Ready.mono (s := s) (fun hall => hall) (fun hall => hall) (h.ready_rest htodo id)
    · rintro o ⟨i, hlo, hhi, hi⟩
      exact h.committed i o hlo hhi hi
  | room size =>
    have hrest := h.ready_rest htodo id
    have hcalm := calm_of_head htodo (by simp) (by simp)
    unfold DataDrain.perform
    dsimp only
    split_ifs
    · exact h.proceed hcalm h.ordered.flush rfl h.committed (ready_checkpoint.mpr hrest) h.appending
    · exact h.proceed hcalm h.ordered.flush rfl h.committed hrest h.appending
    · exact h.retask hcalm hrest

theorem Ok.append {op : Option ℕ} {size : ℕ} (h : Ok s) (htodo : s.todo = [])
    (happending : s.appending = some (op, size)) :
    Ok { s with log := s.log.append size, owners := s.owners ++ [op], appending := none } := by
  have hold : ∀ i o, i < s.owners.length → (s.owners ++ [op])[i]? = some (some o) →
      s.owners[i]? = some (some o) := by
    intro i o hi
    rw [List.getElem?_append_left hi]
    exact id
  have hcommitted : s.log.committed ≤ s.owners.length := by
    rw [h.total]
    exact h.ordered.committed_le.trans h.ordered.flushed_le
  refine { h with ordered := h.ordered.append size, total := ?_, logEnd := ?_, marked := ?_,
                  appending := ?_, ready := ?_, committed := ?_, persisted := ?_ }
  · simpa [Log.append] using h.total
  · simpa using Nat.le_succ_of_le h.logEnd
  · intro o ho
    rcases List.mem_append.mp ho with ho | ho
    · exact h.marked o ho
    · rw [List.mem_singleton] at ho
      exact h.appending o size (by rw [happending, ho])
  · rintro o n ⟨⟩
  · rw [htodo]
    trivial
  · intro i o hlo hhi hi
    exact h.committed i o hlo hhi (hold i o (lt_of_lt_of_le hhi hcommitted) hi)
  · rintro o ⟨i, hlo, hhi, hi⟩
    exact h.persisted o ⟨i, hlo, hhi, hold i o (lt_of_lt_of_le hhi h.logEnd) hi⟩

theorem Ok.work (h : Ok s) (hstep : s.work = some t) : Ok t := by
  unfold DataDrain.work at hstep
  split at hstep
  · rename_i task rest _ htodo
    cases hstep
    exact h.perform htodo
  · rename_i op size htodo happending
    cases hstep
    exact h.append htodo happending
  · cases hstep

theorem Ok.fail (h : Ok s) (hstep : s.fail = some t) : Ok t := by
  unfold DataDrain.fail at hstep
  split at hstep
  · cases hstep
  · rename_i task rest htodo
    split_ifs at hstep with hfallible
    cases hstep
    refine { h with appending := ?_, flushing := ?_, drain := ?_, ready := trivial }
    · rintro o size ⟨⟩
    · rintro f ⟨⟩
    · intro o ho
      rcases h.drain o ho with hd | hd | ⟨rest', hstart⟩ | ⟨⟨rest', hend⟩, -⟩
      · exact .inl hd
      · exact .inr (.inl (by simp [hd]))
      · rw [htodo] at hstart
        cases hstart
        cases hfallible
      · rw [htodo] at hend
        cases hend
        exact .inr (.inl (by simp))

theorem Ok.step {a : Act} (h : Ok s) (hstep : Steps s a t) : Ok t := by
  cases a with
  | write op => exact h.write hstep
  | mark op => exact h.mark hstep
  | record op size => exact h.record hstep
  | sync ckpt => exact h.sync hstep
  | checkpoint => exact h.checkpoint hstep
  | work => exact h.work hstep
  | fail => exact h.fail hstep
  | updateLabel =>
    change s.updateLabel = some t at hstep
    unfold updateLabel at hstep
    split_ifs at hstep with hfree
    cases hstep
    exact h.retask (calm_of_unlocked hfree) trivial

end Invariant

theorem ok_mounted (ring : Ring) : Ok (mounted ring) where
  ordered := ⟨le_rfl, le_rfl, le_rfl⟩
  total := rfl
  logEnd := le_rfl
  marked := by simp [mounted]
  appending := by simp [mounted]
  flushed := fun _ => le_rfl
  flushing := by simp [mounted]
  drain := by simp [mounted]
  ready := trivial
  committed := by simp [mounted]
  persisted := by simp [mounted, DataFlushed, Covers]

/-- A ring of eight blocks after a mount. -/
def smallRing : Ring where
  start := 200
  stop := 208
  allocs := true
  writePos := 200
  logStart := 200
  logEnd := 200
  offset := journalBlockHdrSize
  records := 0
  blocks := 0
  dirty := false
  events := []

/-- Operation 1 writes a block and its record, and a sync runs up to its commit point. -/
def writeThenSync : List Act :=
  [.write 1, .mark 1, .record (some 1) 100, .work, .work, .sync false] ++ List.replicate 7 .work

end DataDrain

end Briefs.Bridge
