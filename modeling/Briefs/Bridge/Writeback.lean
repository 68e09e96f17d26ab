import Briefs.Lib.Run

/-!
# Waiting for writeback

`device.go` keeps the set `pendingWB` of blocks written since the last flush.
`FlushPendingWB` takes the set and waits for the writeback of its blocks; a kick
(`noteWB` over the cap, or the journal's checkpoint) takes the set too, but only
starts the writeback. Threads interleave at the steps between which the source holds
no lock, and the kernel may complete writeback at any time.
-/

namespace Briefs.Bridge

open Lib

def pendingWritebackCap : ℕ := 8192

/-- The maximal runs `forEachWBRun` makes of a sorted list; the run so far is `[first, last]`. -/
def wbRunsFrom (first last : ℕ) : List ℕ → List (ℕ × ℕ)
  | [] => [(first, last)]
  | b :: rest => if b = last + 1 then wbRunsFrom first b rest else (first, last) :: wbRunsFrom b b rest

def wbRuns : List ℕ → List (ℕ × ℕ)
  | [] => []
  | b :: rest => wbRunsFrom b b rest

def InRun (run : ℕ × ℕ) (n : ℕ) : Prop := run.1 ≤ n ∧ n ≤ run.2

instance (run : ℕ × ℕ) (n : ℕ) : Decidable (InRun run n) :=
  inferInstanceAs (Decidable (_ ∧ _))

def Covers (runs : List (ℕ × ℕ)) (n : ℕ) : Prop := ∃ run ∈ runs, InRun run n

theorem covers_wbRunsFrom {first last n : ℕ} {blocks : List ℕ} (hle : first ≤ last) :
    Covers (wbRunsFrom first last blocks) n ↔ InRun (first, last) n ∨ n ∈ blocks := by
  induction blocks generalizing first last with
  | nil => simp [wbRunsFrom, Covers]
  | cons b rest ih =>
    unfold wbRunsFrom
    split_ifs with hb
    · rw [ih (by omega)]
      simp only [InRun, List.mem_cons]
      constructor
      · rintro (h | h)
        · omega
        · exact .inr (.inr h)
      · rintro (h | h | h)
        · exact .inl (by omega)
        · exact .inl (by omega)
        · exact .inr h
    · have hrest : Covers ((first, last) :: wbRunsFrom b b rest) n ↔
          InRun (first, last) n ∨ Covers (wbRunsFrom b b rest) n := by
        simp [Covers]
      rw [hrest, ih le_rfl]
      simp only [InRun, List.mem_cons]
      refine or_congr_right (or_congr_left ?_)
      omega

theorem covers_wbRuns {n : ℕ} {blocks : List ℕ} : Covers (wbRuns blocks) n ↔ n ∈ blocks := by
  cases blocks with
  | nil => simp [wbRuns, Covers]
  | cons b rest =>
    rw [wbRuns, covers_wbRunsFrom le_rfl, List.mem_cons]
    refine or_congr_left ?_
    simp only [InRun]
    omega

/-- What a thread is doing. A kick that a write runs into carries the write along. -/
inductive Phase
  | idle
  | wrote (block version : ℕ)
  | kick (writer : Option (ℕ × ℕ))
  | kicking (writer : Option (ℕ × ℕ)) (runs : List (ℕ × ℕ))
  /-- A flush before its `takePendingWB`; `owed` are the writes that had returned. -/
  | begun (owed : ℕ → ℕ)
  | flushing (owed : ℕ → ℕ) (runs : List (ℕ × ℕ))
  /-- In `sync_file_range` for `run`; `goal` are the writes made when it was called. -/
  | waiting (owed goal : ℕ → ℕ) (run : ℕ × ℕ) (runs : List (ℕ × ℕ))

structure Writeback where
  pendingWB : List ℕ
  /-- How many writes of a block were made, how many of the first returned and how many
  of the first have their writeback completed. -/
  latest : ℕ → ℕ
  returned : ℕ → ℕ
  stable : ℕ → ℕ
  threads : ℕ → Phase

namespace Writeback

inductive Act
  /-- The `WriteAt` of `WriteBlock` or `WriteBlockSlot`. -/
  | writeAt (thread block : ℕ)
  | noteWB (thread : ℕ)
  | kickWB (thread : ℕ)
  | kickTake (thread : ℕ)
  | kickRange (thread : ℕ)
  | kickFail (thread : ℕ)
  | flush (thread : ℕ)
  | flushTake (thread : ℕ)
  | waitStart (thread : ℕ)
  | waitDone (thread : ℕ)
  | waitFail (thread : ℕ)
  /-- The kernel completes the writeback of the first `version` writes of a block. -/
  | complete (block version : ℕ)

variable (s : Writeback)

def setPhase (thread : ℕ) (p : Phase) : Writeback :=
  { s with threads := Function.update s.threads thread p }

/-- The write a thread has under way, if any, returns. -/
def finishWrite (thread : ℕ) (writer : Option (ℕ × ℕ)) : Writeback :=
  match writer with
  | none => s.setPhase thread .idle
  | some (block, version) =>
    { s with returned := Function.update s.returned block (max (s.returned block) version) }.setPhase
      thread .idle

/-- `takePendingWB`. -/
def takePendingWB : Writeback × List ℕ :=
  ({ s with pendingWB := [] }, s.pendingWB.insertionSort (· ≤ ·))

def writeAt (thread block : ℕ) : Option Writeback :=
  match s.threads thread with
  | .idle =>
    some ({ s with latest := Function.update s.latest block (s.latest block + 1) }.setPhase thread
      (.wrote block (s.latest block + 1)))
  | _ => none

def noteWB (thread : ℕ) : Option Writeback :=
  match s.threads thread with
  | .wrote block version =>
    let s' := { s with pendingWB := s.pendingWB.insert block }
    if pendingWritebackCap < s'.pendingWB.length then
      some (s'.setPhase thread (.kick (some (block, version))))
    else some (s'.finishWrite thread (some (block, version)))
  | _ => none

def kickWB (thread : ℕ) : Option Writeback :=
  match s.threads thread with
  | .idle => some (s.setPhase thread (.kick none))
  | _ => none

def kickTake (thread : ℕ) : Option Writeback :=
  match s.threads thread with
  | .kick writer =>
    if s.pendingWB = [] then some (s.finishWrite thread writer)
    else some (s.takePendingWB.1.setPhase thread (.kicking writer (wbRuns s.takePendingWB.2)))
  | _ => none

/-- Writeback of the next run is started. -/
def kickRange (thread : ℕ) : Option Writeback :=
  match s.threads thread with
  | .kicking writer [_] => some (s.finishWrite thread writer)
  | .kicking writer (_ :: run :: runs) => some (s.setPhase thread (.kicking writer (run :: runs)))
  | _ => none

/-- An error ends a kick, and the write that ran into it does not see it. -/
def kickFail (thread : ℕ) : Option Writeback :=
  match s.threads thread with
  | .kicking writer _ => some (s.finishWrite thread writer)
  | _ => none

def flush (thread : ℕ) : Option Writeback :=
  match s.threads thread with
  | .idle => some (s.setPhase thread (.begun s.returned))
  | _ => none

def flushTake (thread : ℕ) : Option Writeback :=
  match s.threads thread with
  | .begun owed =>
    if s.pendingWB = [] then some (s.setPhase thread .idle)
    else some (s.takePendingWB.1.setPhase thread (.flushing owed (wbRuns s.takePendingWB.2)))
  | _ => none

def waitStart (thread : ℕ) : Option Writeback :=
  match s.threads thread with
  | .flushing owed (run :: runs) => some (s.setPhase thread (.waiting owed s.latest run runs))
  | _ => none

/-- `sync_file_range` with the wait flags returns: the writes made before it was called
have their writeback completed. So they have when it falls back to a sync of the device. -/
def waitDone (thread : ℕ) : Option Writeback :=
  match s.threads thread with
  | .waiting owed goal run runs =>
    if (List.range' run.1 (run.2 + 1 - run.1)).all fun n => goal n ≤ s.stable n then
      some (s.setPhase thread (if runs = [] then .idle else .flushing owed runs))
    else none
  | _ => none

def waitFail (thread : ℕ) : Option Writeback :=
  match s.threads thread with
  | .waiting .. => some (s.setPhase thread .idle)
  | _ => none

def complete (block version : ℕ) : Option Writeback :=
  if version ≤ s.latest block then
    some { s with stable := Function.update s.stable block (max (s.stable block) version) }
  else none

def step : Act → Option Writeback
  | .writeAt thread block => s.writeAt thread block
  | .noteWB thread => s.noteWB thread
  | .kickWB thread => s.kickWB thread
  | .kickTake thread => s.kickTake thread
  | .kickRange thread => s.kickRange thread
  | .kickFail thread => s.kickFail thread
  | .flush thread => s.flush thread
  | .flushTake thread => s.flushTake thread
  | .waitStart thread => s.waitStart thread
  | .waitDone thread => s.waitDone thread
  | .waitFail thread => s.waitFail thread
  | .complete block version => s.complete block version

def Steps (s : Writeback) (a : Act) (t : Writeback) : Prop := s.step a = some t

def opened : Writeback where
  pendingWB := []
  latest := fun _ => 0
  returned := fun _ => 0
  stable := fun _ => 0
  threads := fun _ => .idle

def returning : Act → Option (ℕ → ℕ)
  | .flushTake thread =>
    match s.threads thread with
    | .begun owed => if s.pendingWB = [] then some owed else none
    | _ => none
  | .waitDone thread =>
    match s.threads thread with
    | .waiting owed _ _ [] => some owed
    | _ => none
  | _ => none

/-- A flush call that returns success leaves no write behind that had returned when it began. -/
def FlushComplete (s : Writeback) (a : Act) (t : Writeback) : Prop :=
  ∀ owed, s.returning a = some owed → ∀ n, owed n ≤ t.stable n

/-- A flush takes the set while every block it owes is done or still in the set: no kick,
and no flush that failed or is still waiting, has taken such a block out of it. -/
def TakesTracked (s : Writeback) (a : Act) : Prop :=
  ∀ thread owed, a = .flushTake thread → s.threads thread = .begun owed →
    ∀ n, s.stable n < owed n → n ∈ s.pendingWB

section Invariant

variable {s} {t : Writeback} {a : Act} {thread : ℕ}

/-- Counters only go up. -/
structure Grows (s t : Writeback) : Prop where
  latest : ∀ n, s.latest n ≤ t.latest n
  returned : ∀ n, s.returned n ≤ t.returned n
  stable : ∀ n, s.stable n ≤ t.stable n

/-- The write a thread has under way was made. -/
def Made (s : Writeback) (writer : Option (ℕ × ℕ)) : Prop :=
  ∀ block version, writer = some (block, version) → version ≤ s.latest block

/-- What a flush call still has to wait for: `left` says which blocks it comes to. -/
def Waits (s : Writeback) (owed : ℕ → ℕ) (left : ℕ → Prop) : Prop :=
  ∀ n, owed n ≤ s.latest n ∧ (s.stable n < owed n → left n)

def PhaseOk (s : Writeback) : Phase → Prop
  | .idle => True
  | .wrote block version => version ≤ s.latest block
  | .kick writer => s.Made writer
  | .kicking writer _ => s.Made writer
  | .begun owed => ∀ n, owed n ≤ s.returned n
  | .flushing owed runs => s.Waits owed (Covers runs)
  | .waiting owed goal run runs => s.Waits owed fun n => InRun run n ∧ owed n ≤ goal n ∨ Covers runs n

structure Ok (s : Writeback) : Prop where
  returned : ∀ n, s.returned n ≤ s.latest n
  phase : ∀ thread, s.PhaseOk (s.threads thread)

theorem Made.grows {writer : Option (ℕ × ℕ)} (h : s.Made writer) (hg : Grows s t) : t.Made writer :=
  fun block version hw => (h block version hw).trans (hg.latest block)

theorem Waits.grows {owed : ℕ → ℕ} {left : ℕ → Prop} (h : s.Waits owed left) (hg : Grows s t) :
    t.Waits owed left :=
  fun n => ⟨(h n).1.trans (hg.latest n), fun hn => (h n).2 ((hg.stable n).trans_lt hn)⟩

theorem PhaseOk.grows {p : Phase} (h : s.PhaseOk p) (hg : Grows s t) : t.PhaseOk p := by
  cases p with
  | idle => trivial
  | wrote block version => exact le_trans h (hg.latest block)
  | kick writer => exact Made.grows h hg
  | kicking writer runs => exact Made.grows h hg
  | begun owed => exact fun n => (h n).trans (hg.returned n)
  | flushing owed runs => exact Waits.grows h hg
  | waiting owed goal run runs => exact Waits.grows h hg

theorem Ok.move {p : Phase} (h : Ok s) (hg : Grows s t)
    (hthreads : t.threads = Function.update s.threads thread p) (hp : t.PhaseOk p)
    (hreturned : ∀ n, t.returned n ≤ t.latest n) : Ok t := by
  refine ⟨hreturned, fun other => ?_⟩
  rw [hthreads]
  by_cases ho : other = thread
  · subst ho
    rw [Function.update_self]
    exact hp
  · rw [Function.update_of_ne ho]
    exact (h.phase other).grows hg

theorem Ok.setPhase {p : Phase} (h : Ok s) (hp : s.PhaseOk p) :
    Ok (s.setPhase thread p) :=
  h.move (t := s.setPhase thread p) ⟨fun _ => le_rfl, fun _ => le_rfl, fun _ => le_rfl⟩ rfl
    (hp.grows ⟨fun _ => le_rfl, fun _ => le_rfl, fun _ => le_rfl⟩) h.returned

theorem Ok.withPending {blocks : List ℕ} (h : Ok s) : Ok { s with pendingWB := blocks } :=
  ⟨h.returned, fun thread =>
    (h.phase thread).grows ⟨fun _ => le_rfl, fun _ => le_rfl, fun _ => le_rfl⟩⟩

theorem Ok.finishWrite {writer : Option (ℕ × ℕ)} (h : Ok s) (hw : s.Made writer) :
    Ok (s.finishWrite thread writer) := by
  cases writer with
  | none => exact h.setPhase trivial
  | some w =>
    obtain ⟨block, version⟩ := w
    have hmade := hw block version rfl
    have hle : ∀ n, s.returned n ≤
        Function.update s.returned block (max (s.returned block) version) n := by
      intro n
      by_cases hn : n = block
      · simp [hn]
      · simp [Function.update_of_ne hn]
    refine h.move ⟨fun _ => le_rfl, hle, fun _ => le_rfl⟩ rfl trivial fun n => ?_
    change Function.update s.returned block (max (s.returned block) version) n ≤ s.latest n
    by_cases hn : n = block
    · subst hn
      simpa using ⟨h.returned n, hmade⟩
    · rw [Function.update_of_ne hn]
      exact h.returned n

theorem covers_take {n : ℕ} : Covers (wbRuns s.takePendingWB.2) n ↔ n ∈ s.pendingWB := by
  simp [covers_wbRuns, takePendingWB]

theorem Ok.writeAt {thread block : ℕ} (h : Ok s) (hstep : s.writeAt thread block = some t) : Ok t := by
  unfold Writeback.writeAt at hstep
  split at hstep <;> cases hstep
  have hle : ∀ n, s.latest n ≤ Function.update s.latest block (s.latest block + 1) n := by
    intro n
    by_cases hn : n = block
    · simp [hn]
    · simp [Function.update_of_ne hn]
  refine h.move ⟨hle, fun _ => le_rfl, fun _ => le_rfl⟩ rfl ?_ fun n => (h.returned n).trans (hle n)
  change _ ≤ Function.update s.latest block (s.latest block + 1) block
  rw [Function.update_self]

theorem Ok.noteWB (h : Ok s) (hstep : s.noteWB thread = some t) : Ok t := by
  unfold Writeback.noteWB at hstep
  split at hstep
  · rename_i block version hphase
    have hmade : s.Made (some (block, version)) := by
      have hwrote := h.phase thread
      rw [hphase] at hwrote
      rintro _ _ ⟨⟩
      exact hwrote
    dsimp only at hstep
    split_ifs at hstep <;> cases hstep
    · exact h.withPending.setPhase hmade
    · exact h.withPending.finishWrite hmade
  · cases hstep

theorem Ok.kickTake (h : Ok s) (hstep : s.kickTake thread = some t) : Ok t := by
  unfold Writeback.kickTake at hstep
  have hphase := h.phase thread
  split at hstep
  · rename_i writer heq
    rw [heq] at hphase
    split_ifs at hstep <;> cases hstep
    · exact h.finishWrite hphase
    · exact h.withPending.setPhase hphase
  · cases hstep

theorem Ok.kickRange (h : Ok s) (hstep : s.kickRange thread = some t) : Ok t := by
  unfold Writeback.kickRange at hstep
  have hphase := h.phase thread
  split at hstep <;> rename_i heq
  · rw [heq] at hphase
    cases hstep
    exact h.finishWrite hphase
  · rw [heq] at hphase
    cases hstep
    exact h.setPhase hphase
  · cases hstep

theorem Ok.kickFail (h : Ok s) (hstep : s.kickFail thread = some t) : Ok t := by
  unfold Writeback.kickFail at hstep
  have hphase := h.phase thread
  split at hstep <;> rename_i heq
  · rw [heq] at hphase
    cases hstep
    exact h.finishWrite hphase
  · cases hstep

theorem Ok.flushTake (h : Ok s) (hstep : s.flushTake thread = some t)
    (htakes : TakesTracked s (.flushTake thread)) : Ok t := by
  unfold Writeback.flushTake at hstep
  have hphase := h.phase thread
  split at hstep
  · rename_i owed heq
    rw [heq] at hphase
    split_ifs at hstep <;> cases hstep
    · exact h.setPhase trivial
    · refine h.withPending.setPhase fun n => ⟨(hphase n).trans (h.returned n), fun hn => ?_⟩
      exact covers_take.mpr (htakes thread owed rfl heq n hn)
  · cases hstep

theorem Ok.waitStart (h : Ok s) (hstep : s.waitStart thread = some t) : Ok t := by
  unfold Writeback.waitStart at hstep
  have hphase := h.phase thread
  split at hstep <;> rename_i heq
  · rw [heq] at hphase
    cases hstep
    refine h.setPhase fun n => ⟨(hphase n).1, fun hn => ?_⟩
    obtain ⟨run, hrun, hin⟩ := (hphase n).2 hn
    rcases List.mem_cons.mp hrun with rfl | hrun
    · exact .inl ⟨hin, (hphase n).1⟩
    · exact .inr ⟨run, hrun, hin⟩
  · cases hstep

/-- When `sync_file_range` has returned, only the other runs are left. -/
theorem waits_done {owed goal : ℕ → ℕ} {run : ℕ × ℕ} {runs : List (ℕ × ℕ)}
    (h : s.PhaseOk (.waiting owed goal run runs))
    (hdone : (List.range' run.1 (run.2 + 1 - run.1)).all fun n => goal n ≤ s.stable n) :
    s.Waits owed (Covers runs) := by
  refine fun n => ⟨(h n).1, fun hn => ?_⟩
  rcases (h n).2 hn with ⟨⟨hlo, hhi⟩, hgoal⟩ | hcovers
  · have hstable : goal n ≤ s.stable n := by
      simp only [List.all_eq_true, decide_eq_true_eq] at hdone
      exact hdone n (by rw [List.mem_range'_1]; omega)
    omega
  · exact hcovers

theorem Ok.waitDone (h : Ok s) (hstep : s.waitDone thread = some t) : Ok t := by
  unfold Writeback.waitDone at hstep
  have hphase := h.phase thread
  split at hstep
  · rename_i owed goal run runs heq
    rw [heq] at hphase
    split_ifs at hstep with hdone hruns <;> cases hstep
    · exact h.setPhase trivial
    · exact h.setPhase (waits_done hphase hdone)
  · cases hstep

theorem Ok.complete {block version : ℕ} (h : Ok s) (hstep : s.complete block version = some t) :
    Ok t := by
  unfold Writeback.complete at hstep
  split_ifs at hstep
  cases hstep
  refine ⟨h.returned, fun thread => (h.phase thread).grows ⟨fun _ => le_rfl, fun _ => le_rfl, ?_⟩⟩
  intro n
  by_cases hn : n = block
  · simp [hn]
  · simp [Function.update_of_ne hn]

theorem Ok.step (h : Ok s) (hstep : Steps s a t) (htakes : TakesTracked s a) : Ok t := by
  cases a with
  | writeAt thread block => exact h.writeAt hstep
  | noteWB thread => exact h.noteWB hstep
  | kickTake thread => exact h.kickTake hstep
  | kickRange thread => exact h.kickRange hstep
  | kickFail thread => exact h.kickFail hstep
  | flushTake thread => exact h.flushTake hstep htakes
  | waitStart thread => exact h.waitStart hstep
  | waitDone thread => exact h.waitDone hstep
  | complete block version => exact h.complete hstep
  | kickWB thread =>
    change s.kickWB thread = some t at hstep
    unfold kickWB at hstep
    split at hstep <;> cases hstep
    exact h.setPhase fun _ _ hw => by cases hw
  | flush thread =>
    change s.flush thread = some t at hstep
    unfold flush at hstep
    split at hstep <;> cases hstep
    exact h.setPhase fun n => le_rfl
  | waitFail thread =>
    change s.waitFail thread = some t at hstep
    unfold waitFail at hstep
    split at hstep <;> cases hstep
    exact h.setPhase trivial

/-- A flush that returns has waited for all it owed. -/
theorem Ok.flushComplete (h : Ok s) (hstep : Steps s a t) (htakes : TakesTracked s a) :
    FlushComplete s a t := by
  intro owed hreturning n
  cases a with
  | flushTake thread =>
    have hphase := h.phase thread
    change s.flushTake thread = some t at hstep
    dsimp only [returning] at hreturning
    unfold Writeback.flushTake at hstep
    split at hreturning
    · rename_i heq
      rw [heq] at hphase hstep
      split_ifs at hreturning with hempty
      cases hreturning
      simp only [if_pos hempty] at hstep
      cases hstep
      have htracked := htakes thread _ rfl heq n
      rw [hempty] at htracked
      by_contra hn
      exact List.not_mem_nil (htracked (not_le.mp hn))
    · cases hreturning
  | waitDone thread =>
    have hphase := h.phase thread
    change s.waitDone thread = some t at hstep
    dsimp only [returning] at hreturning
    unfold Writeback.waitDone at hstep
    split at hreturning
    · rename_i heq
      rw [heq] at hphase hstep
      cases hreturning
      dsimp only at hstep
      split_ifs at hstep with hdone <;> cases hstep
      all_goals
        by_contra hn
        obtain ⟨run, hrun, -⟩ := (waits_done hphase hdone n).2 (not_le.mp hn)
        exact List.not_mem_nil hrun
    · cases hreturning
  | _ => cases hreturning

end Invariant

theorem ok_opened : Ok opened := ⟨fun _ => le_rfl, fun _ => trivial⟩

/-- A `FlushPendingWB` call that returns success has waited for every write that returned
before it began, if each call takes the set while the unfinished blocks it owes are in it. -/
theorem flush_completes_writeback {as : List Act}
    (htakes : Always Steps (fun s a _ => TakesTracked s a) opened as) :
    Always Steps FlushComplete opened as :=
  htakes.of_invariant ok_opened (fun _ _ _ h hstep hta => h.step hstep hta)
    fun _ _ _ h hstep hta => h.flushComplete hstep hta

/-- A block is written, a checkpoint kicks it out of the set, and a flush begins. -/
def kickedBlock : List Act :=
  [.writeAt 0 5, .noteWB 0, .kickWB 1, .kickTake 1, .kickRange 1, .flush 2]

/-- The flush then finds the set empty and returns, with the writeback only started. -/
theorem kicked_block_not_waited_for :
    ∃ as t, Run Steps opened as t ∧ ¬ Always Steps FlushComplete opened as := by
  have hstate : (kickedBlock.foldlM step opened).map (fun u =>
      ((u.returning (.flushTake 2)).map (· 5), (u.step (.flushTake 2)).map (·.stable 5))) =
      some (some 1, some 0) := by decide
  obtain ⟨u, hu, hpair⟩ := Option.map_eq_some_iff.mp hstate
  obtain ⟨hreturning, hstable⟩ := Prod.mk.inj hpair
  obtain ⟨owed, howed, hfive⟩ := Option.map_eq_some_iff.mp hreturning
  obtain ⟨v, hstep, hzero⟩ := Option.map_eq_some_iff.mp hstable
  have hrun : Run Steps opened kickedBlock u := run_of_foldlM hu
  have hv : Steps u (.flushTake 2) v := hstep
  refine ⟨kickedBlock ++ [.flushTake 2], v, .snoc hrun hv, fun hall => ?_⟩
  have hle := hall kickedBlock (.flushTake 2) [] u v rfl hrun hv owed howed 5
  omega

/-- A block is written and a flush waits for it. -/
def waitedBlock : List Act :=
  [.writeAt 0 5, .noteWB 0, .flush 2, .flushTake 2, .waitStart 2, .complete 5 1, .waitDone 2]

theorem flush_completes_waited_block : Always Steps FlushComplete opened waitedBlock := by
  refine flush_completes_writeback ?_
  have hother : ∀ a, (∀ thread, a ≠ .flushTake thread) → ∀ s, TakesTracked s a :=
    fun a ha s thread owed hta => absurd hta (ha thread)
  refine always_cons.mpr fun s₁ h₁ => ⟨hother _ (by simp) _, ?_⟩
  refine always_cons.mpr fun s₂ h₂ => ⟨hother _ (by simp) _, ?_⟩
  refine always_cons.mpr fun s₃ h₃ => ⟨hother _ (by simp) _, ?_⟩
  refine always_cons.mpr fun s₄ _ => ⟨?_, always_of_mem fun a ha _ _ => hother a ?_ _⟩
  · cases h₁
    cases h₂
    cases h₃
    rintro _ owed ⟨⟩ hphase n hn
    cases hphase
    change 0 < Function.update (fun _ => 0) 5 1 n at hn
    change n ∈ [5]
    by_contra hne
    rw [Function.update_of_ne (by simpa using hne)] at hn
    exact lt_irrefl 0 hn
  · rintro thread rfl
    simp at ha

end Writeback

end Briefs.Bridge
