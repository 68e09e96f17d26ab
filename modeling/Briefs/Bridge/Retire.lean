import Briefs.Bridge.World
import Briefs.Journal.Overwrite

/-!
# Retiring records and the blocks behind them

A record may leave the log only when the blocks its operation changed are on the
device. The journal retires in four places, and only one of them comes after a
drain; the drain covers the operations that had merged when it took its snapshot.
The conditions below are about the state in which a call is made.
-/

namespace Briefs.Bridge

open Lib Journal

namespace World

/-- A change of `o` to the block is only in its cache or in the deferred map. -/
def Undrained (w : World) (o : OpId) (block : ℕ) : Prop :=
  (∃ op, w.ops o = some op ∧ (op.cache.lookup block).isSome) ∨
    ((w.shared.cache.dirtyView block).isSome ∧ o ∈ w.carried block ∧ (o, block) ∉ w.written)

/-- The records that this step retires belong to operations with no undrained block. -/
def RetiresDrained (w u : World) : Prop :=
  ∀ i o, w.log.retired ≤ i → i < u.log.retired → u.owners[i]? = some o →
    ∀ block, ¬ Undrained u o block

/-- No running operation has written a record. -/
def NoRecorder (w : World) : Prop := ∀ o, (w.ops o).isSome → o ∉ w.owners

/-- Nothing is deferred and no running operation has written a record. -/
def Settled (w : World) : Prop := (∀ block, w.shared.cache.dirtyView block = none) ∧ w.NoRecorder

/-- The state a retiring call is made in: settled if it retires before any drain,
with no recorder running if it retires after its own drain. -/
def RetireReady (w : World) : WorldAct → Prop
  | .record _ size =>
      w.log.ring.overflows size → w.log.ring.nextUsable = w.log.ring.logStart → w.Settled
  | .syncBegin ckpt _ =>
      (w.log.ring.full → w.Settled) ∧
        (Log.RetiresAtEnd w.log.ring.syncEntry.flush.commit ckpt → w.NoRecorder)
  | .checkpointBegin _ => (w.log.ring.full → w.Settled) ∧ w.NoRecorder
  | .checkpointClean => w.Settled
  | _ => True

/-- Facts that every step keeps. -/
structure Basic (w : World) : Prop where
  ordered : w.log.Ordered
  count : w.owners.length = w.log.total
  running : ∀ o op, w.ops o = some op → o ∈ w.started
  recorded : ∀ o ∈ w.owners, o ∈ w.started
  held : ∀ h, w.holder = some h → w.log.committed = w.log.total

section Basic

variable {w u : World}

/-- Steps that touch neither the journal nor the set of operations. -/
theorem Basic.frame (h : w.Basic) (hlog : u.log = w.log) (howners : u.owners = w.owners)
    (hholder : u.holder = w.holder) (hstarted : u.started = w.started)
    (hops : ∀ o op, u.ops o = some op → ∃ op', w.ops o = some op') : u.Basic := by
  refine ⟨hlog ▸ h.ordered, ?_, ?_, ?_, ?_⟩
  · rw [howners, hlog]
    exact h.count
  · intro o op hop
    obtain ⟨op', hop'⟩ := hops o op hop
    rw [hstarted]
    exact h.running o op' hop'
  · rw [howners, hstarted]
    exact h.recorded
  · rw [hholder, hlog]
    exact h.held

theorem setOp_running {o o' : OpId} {op op' : Op} (hop : w.ops o = some op) {new : Option Op}
    (h : (w.setOp o new).ops o' = some op') : ∃ op'', w.ops o' = some op'' := by
  by_cases ho : o' = o
  · subst ho
    exact ⟨op, hop⟩
  · exact ⟨op', setOp_ne new ho ▸ h⟩

theorem total_writeRecord (l : Log) (size : ℕ) : (l.writeRecord size).total = l.total + 1 := by
  unfold Log.writeRecord Log.makeRoom
  split_ifs <;> rfl

theorem total_syncBegin (l : Log) : l.syncBegin.total = l.total := by
  unfold Log.syncBegin Log.syncEntry
  split_ifs <;> rfl

theorem committed_syncBegin (l : Log) : l.syncBegin.committed = l.total := by
  unfold Log.syncBegin Log.syncEntry
  split_ifs <;> rfl

theorem total_endLog (h : Holder) (l : Log) : (h.endLog l).total = l.total := by
  unfold Holder.endLog Log.syncEnd Log.backPressure Log.periodic
  split_ifs <;> rfl

theorem ordered_endLog {l : Log} (hl : l.Ordered) (h : Holder) : (h.endLog l).Ordered := by
  unfold Holder.endLog
  split_ifs
  · exact (hl.syncEnd _).retire
  · exact hl.syncEnd _

theorem Basic.step (h : w.Basic) {a : WorldAct} (hstep : w.Steps a u) : u.Basic := by
  cases hstep.move with
  | @begin o hfresh =>
    refine ⟨h.ordered, h.count, fun o' op hop => ?_, fun o' ho' => ?_, h.held⟩
    · by_cases ho : o' = o
      · exact ho ▸ List.mem_cons_self
      · rw [setOp_ne _ ho] at hop
        exact List.mem_cons_of_mem _ (h.running o' op hop)
    · exact List.mem_cons_of_mem _ (h.recorded o' ho')
  | @record o op size hop _ hfree =>
    refine ⟨h.ordered.writeRecord size, ?_, h.running, ?_, fun hd hhd => ?_⟩
    · simp [total_writeRecord, h.count]
    · intro o' ho'
      rcases List.mem_append.mp ho' with hold | hnew
      · exact h.recorded o' hold
      · rw [List.mem_singleton.mp hnew]
        exact h.running o op hop
    · rw [hfree] at hhd
      cases hhd
  | change hop | startMerge hop | merge hop | finish hop | abort hop =>
    exact h.frame rfl rfl rfl rfl fun o' op' h' => setOp_running (w := w) hop h'
  | lockBegin =>
    refine ⟨h.ordered.syncBegin, ?_, h.running, h.recorded, fun _ _ => ?_⟩
    · exact h.count.trans (total_syncBegin _).symm
    · exact (committed_syncBegin _).trans (total_syncBegin _).symm
  | checkpointClean hfree =>
    refine ⟨h.ordered.retire, h.count, h.running, h.recorded, fun hd hhd => ?_⟩
    rw [hfree] at hhd
    cases hhd
  | syncSnapshot hhd =>
    exact ⟨h.ordered, h.count, h.running, h.recorded, fun _ _ => h.held _ hhd⟩
  | @syncEnd hd =>
    refine ⟨ordered_endLog h.ordered hd, ?_, h.running, h.recorded, fun _ hnone => by cases hnone⟩
    exact h.count.trans (total_endLog hd _).symm
  | _ => exact h.frame rfl rfl rfl rfl fun o op hop => ⟨op, hop⟩

end Basic

/-! ## The drain of a retiring call -/

/-- Whether the call retires after its drain. -/
def WillRetire (h : Holder) (l : Log) : Prop :=
  h.checkpoint = true ∨ Log.RetiresAtEnd l.ring h.ckpt

/-- Every deferred change of an operation with a record reached the device or is
still to be written by the call's drain. -/
def DrainCovers (w : World) (drain : ℕ) : Prop :=
  ∀ block o, o ∈ w.owners → (w.shared.cache.dirtyView block).isSome → o ∈ w.carried block →
    (o, block) ∈ w.written ∨
      ∃ d, w.shared.drains drain = some d ∧ block ∈ d.todo ∧ o ∈ w.snapCarried drain block

def Retiring (w : World) : Prop :=
  ∀ h, w.holder = some h → WillRetire h w.log →
    w.NoRecorder ∧ (h.draining = true → w.DrainCovers h.drain)

section Retiring

variable {w u : World} {drain i : ℕ}

theorem Retiring.frame (h : w.Retiring) (hholder : u.holder = w.holder) (hlog : u.log = w.log)
    (howners : u.owners = w.owners)
    (hops : ∀ o, (u.ops o).isSome → (w.ops o).isSome ∨ o ∉ w.owners)
    (hcovers : ∀ hd, w.holder = some hd → w.NoRecorder → w.DrainCovers hd.drain →
      u.DrainCovers hd.drain) : u.Retiring := by
  intro hd hhd hwill
  rw [hholder] at hhd
  rw [hlog] at hwill
  obtain ⟨hno, hdrain⟩ := h hd hhd hwill
  refine ⟨fun o ho => ?_, fun hdraining => hcovers hd hhd hno (hdrain hdraining)⟩
  rw [howners]
  rcases hops o ho with hold | hnew
  · exact hno o hold
  · exact hnew

theorem setOp_isSome {o o' : OpId} {op : Op} (hop : w.ops o = some op) {new : Option Op}
    (h : ((w.setOp o new).ops o').isSome) : (w.ops o').isSome ∨ o' ∉ w.owners := by
  obtain ⟨op', hop'⟩ := Option.isSome_iff_exists.mp h
  obtain ⟨op'', hop''⟩ := setOp_running hop hop'
  exact .inl (by rw [hop'']; rfl)

/-- A step that defers nothing new, if the drain goes on. -/
theorem DrainCovers.frame {i : ℕ} (h : w.DrainCovers i) (howners : u.owners = w.owners)
    (hcarried : u.carried = w.carried) (hwritten : ∀ p ∈ w.written, p ∈ u.written)
    (hview : ∀ b, (u.shared.cache.dirtyView b).isSome → (w.shared.cache.dirtyView b).isSome)
    (hdrain : ∀ b o d, w.shared.drains i = some d → b ∈ d.todo → o ∈ w.snapCarried i b →
      (o, b) ∈ u.written ∨
        ∃ d', u.shared.drains i = some d' ∧ b ∈ d'.todo ∧ o ∈ u.snapCarried i b) :
    u.DrainCovers i := by
  intro b o howner hb hcarry
  rw [howners] at howner
  rw [hcarried] at hcarry
  rcases h b o howner (hview b hb) hcarry with hw | ⟨d, hd, hbd, ho⟩
  · exact .inl (hwritten _ hw)
  · exact hdrain b o d hd hbd ho

theorem DrainCovers.merge {o : OpId} {op : Op} {block drain : ℕ} {buf : Bytes}
    (hop : w.ops o = some op) (hno : w.NoRecorder) (h : w.DrainCovers drain) (new : Option Op) :
    (({ w with
      shared := { w.shared with cache := w.shared.cache.setDirtyBlock block buf }
      carried := Function.update w.carried block (w.carriedBy o block) } : World).setOp o
        new).DrainCovers drain := by
  intro b o' howner hview hcarried
  change ((w.shared.cache.setDirtyBlock block buf).dirtyView b).isSome at hview
  change o' ∈ Function.update w.carried block (w.carriedBy o block) b at hcarried
  by_cases hb : b = block
  · subst hb
    rw [Function.update_self] at hcarried
    -- the merging operation has no record, so the change is an older one of the entry
    rcases List.mem_cons.mp hcarried with rfl | hold
    · exact absurd howner (hno o' (by rw [hop]; rfl))
    · split_ifs at hold with hsome
      · exact h b o' howner hsome hold
      · cases hold
  · rw [Deferred.dirtyView_setDirtyBlock, if_neg hb] at hview
    rw [Function.update_of_ne hb] at hcarried
    exact h b o' howner hview hcarried

theorem DrainCovers.drainWrite {drain block i : ℕ} {d : Drain} {buf : Bytes} {exposed : List OpId}
    (h : w.DrainCovers i) (hd : w.shared.drains drain = some d) :
    ({ w with
      shared := { w.shared with cache := w.shared.cache.writeBlock block buf }.setDrain drain
        (some { d with todo := d.todo.filter (· ≠ block) })
      written := (w.snapCarried drain block).map (·, block) ++ w.written
      exposed := exposed } : World).DrainCovers i := by
  refine h.frame rfl rfl (fun p hp => List.mem_append_right _ hp) (fun _ hb => hb)
    fun b o e he hbe hoe => ?_
  by_cases hi : i = drain
  · subst hi
    obtain rfl : d = e := Option.some.inj (hd.symm.trans he)
    by_cases hb : b = block
    · subst hb
      exact .inl (List.mem_append_left _ (List.mem_map_of_mem hoe))
    · exact .inr ⟨_, Function.update_self _ _ _, by simp [hbe, hb], hoe⟩
  · exact .inr ⟨e, (Function.update_of_ne hi _ _).trans he, hbe, hoe⟩

theorem DrainCovers.applyFrees {d : Drain} {exposed : List OpId}
    (h : w.DrainCovers i) (hd : w.shared.drains drain = some d) :
    ({ w with
      shared := { w.shared with cache := w.shared.cache.applyFrees d.frees }.setDrain drain
        (some { d with freed := true })
      exposed := exposed } : World).DrainCovers i := by
  refine h.frame rfl rfl (fun _ hp => hp) (fun b hb => ?_) fun b o e he hbe hoe => .inr ?_
  · change ((w.shared.cache.applyFrees d.frees).dirtyBlocks.lookup b).isSome at hb
    rwa [(w.shared.cache.applyFrees_device d.frees).2] at hb
  · by_cases hi : i = drain
    · subst hi
      obtain rfl : d = e := Option.some.inj (hd.symm.trans he)
      exact ⟨_, Function.update_self _ _ _, hbe, hoe⟩
    · exact ⟨e, (Function.update_of_ne hi _ _).trans he, hbe, hoe⟩

theorem DrainCovers.deleteDrained {d : Drain} (h : w.DrainCovers i)
    (hd : w.shared.drains drain = some d) (htodo : d.todo = []) :
    ({ w with
      shared := { w.shared with cache := w.shared.cache.deleteDrained d.snap }.setDrain drain
        none } : World).DrainCovers i := by
  refine h.frame rfl rfl (fun _ hp => hp) (fun b hb => ?_) fun b o e he hbe hoe => .inr ?_
  · change ((w.shared.cache.deleteDrained d.snap).dirtyBlocks.lookup b).isSome at hb
    rw [Deferred.lookup_deleteDrained] at hb
    split_ifs at hb with hgone
    · cases hb
    · exact hb
  · by_cases hi : i = drain
    · subst hi
      obtain rfl : d = e := Option.some.inj (hd.symm.trans he)
      rw [htodo] at hbe
      cases hbe
    · exact ⟨e, (Function.update_of_ne hi _ _).trans he, hbe, hoe⟩

theorem DrainCovers.snapshotted (h : w.DrainCovers i) (hi : i ≠ drain) :
    (w.snapshotted drain).DrainCovers i := by
  refine h.frame rfl rfl (fun _ hp => hp) (fun _ hb => hb) fun b o e he hbe hoe =>
    .inr ⟨e, (Function.update_of_ne hi _ _).trans he, hbe, ?_⟩
  change o ∈ Function.update w.snapCarried drain w.carried i b
  rwa [Function.update_of_ne hi]

theorem drainCovers_snapshotted (w : World) (drain : ℕ) :
    (w.snapshotted drain).DrainCovers drain := by
  intro b o howner hview hcarried
  refine .inr ⟨w.shared.cache.takeSnapshot.2, Function.update_self _ _ _, ?_, ?_⟩
  · change b ∈ w.shared.cache.dirtyBlocks.keys
    rw [← AList.mem_keys, ← AList.lookup_isSome]
    exact hview
  · change o ∈ Function.update w.snapCarried drain w.carried drain b
    rwa [Function.update_self]

theorem Retiring.step (h : w.Retiring) (hb : w.Basic) {a : WorldAct} (hstep : w.Steps a u)
    (hready : w.RetireReady a) : u.Retiring := by
  have hsame : ∀ o, (w.ops o).isSome → (w.ops o).isSome ∨ o ∉ w.owners := fun _ => .inl
  cases hstep.move with
  | @begin o hfresh =>
    refine h.frame rfl rfl rfl (fun o' ho' => ?_) fun _ _ _ hc => hc
    by_cases ho : o' = o
    · subst ho
      exact .inr fun hmem => hfresh (hb.recorded o' hmem)
    · rw [setOp_ne _ ho] at ho'
      exact .inl ho'
  | record _ _ hfree | checkpointClean hfree =>
    intro hd hhd
    rw [hfree] at hhd
    cases hhd
  | change hop | startMerge hop | finish hop | abort hop =>
    exact h.frame rfl rfl rfl (fun o' ho' => setOp_isSome (w := w) hop ho') fun _ _ _ hc => hc
  | merge hop =>
    exact h.frame rfl rfl rfl (fun o' ho' => setOp_isSome (w := w) hop ho')
      fun hd _ hno hc => hc.merge hop hno _
  | @lockBegin _ hd _ ha hdraining =>
    intro h hh hwill
    obtain rfl : hd = h := Option.some.inj hh
    refine ⟨?_, fun hd' => absurd (hdraining.symm.trans hd') Bool.false_ne_true⟩
    rcases ha with ⟨rfl, hck⟩ | rfl
    · refine hready.2 ?_
      rw [← Log.ring_syncEntry]
      exact hwill.resolve_left (by simp [hck])
    · exact hready.2
  | @syncSnapshot hd hhd =>
    intro h' hh' hwill
    obtain rfl := Option.some.inj hh'
    exact ⟨(h _ hhd hwill).1, fun _ => drainCovers_snapshotted w hd.drain⟩
  | syncEnd =>
    intro h' hh'
    cases hh'
  | fsyncSnapshot hother =>
    exact h.frame rfl rfl rfl hsame fun hd hhd _ hc => hc.snapshotted (hother hd hhd)
  | queueFree => exact h.frame rfl rfl rfl hsame fun _ _ _ hc => hc
  | drainWrite hd => exact h.frame rfl rfl rfl hsame fun _ _ _ hc => hc.drainWrite hd
  | applyFrees hd => exact h.frame rfl rfl rfl hsame fun _ _ _ hc => hc.applyFrees hd
  | deleteDrained hd hdone =>
    exact h.frame rfl rfl rfl hsame fun _ _ _ hc => hc.deleteDrained hd hdone

end Retiring

/-! ## The steps that retire -/

section Property

variable {w u : World}

/-- A settled state has no undrained change of an operation with a record. -/
theorem Settled.drained (h : w.Settled) {o : OpId} (ho : o ∈ w.owners) (block : ℕ) :
    ¬ w.Undrained o block := by
  rintro (⟨op, hop, -⟩ | ⟨hview, -, -⟩)
  · exact h.2 o (by rw [hop]; rfl) ho
  · rw [h.1 block] at hview
    cases hview

theorem retiresDrained_of_eq (h : u.log.retired = w.log.retired) : RetiresDrained w u := by
  intro i o hlo hhi
  omega

theorem retired_writeRecord (l : Log) (size : ℕ) :
    (l.writeRecord size).retired = l.retired ∨
      (l.ring.overflows size ∧ l.ring.nextUsable = l.ring.logStart ∧
        (l.writeRecord size).retired = l.total) := by
  unfold Log.writeRecord Log.makeRoom
  split_ifs with ho hwrap
  · exact .inr ⟨ho, hwrap, rfl⟩
  · exact .inl rfl
  · exact .inl rfl

theorem retired_syncBegin (l : Log) :
    l.syncBegin.retired = l.retired ∨ (l.ring.full ∧ l.syncBegin.retired = l.flushed) := by
  unfold Log.syncBegin Log.syncEntry
  split_ifs with hfull
  · exact .inr ⟨hfull, rfl⟩
  · exact .inl rfl

theorem retired_endLog (hd : Holder) (l : Log) :
    (hd.endLog l).retired = l.retired ∨ WillRetire hd l := by
  unfold Holder.endLog Log.syncEnd Log.backPressure Log.periodic WillRetire Log.RetiresAtEnd
  split_ifs with hck hper hnext hnext <;> tauto

theorem mem_owners_of_lt {i : ℕ} {o : OpId} (h : w.owners[i]? = some o) : o ∈ w.owners :=
  List.mem_of_getElem? h

theorem retiresDrained_step (h : w.Retiring) (hb : w.Basic) {a : WorldAct} (hstep : w.Steps a u)
    (hready : w.RetireReady a) : RetiresDrained w u := by
  cases hstep.move with
  | @record o op size =>
    rcases retired_writeRecord w.log size with heq | ⟨ho, hwrap, hall⟩
    · exact retiresDrained_of_eq heq
    · intro i o' hlo hhi howner block
      rw [hall, ← hb.count] at hhi
      rw [List.getElem?_append_left hhi] at howner
      exact (hready ho hwrap).drained (mem_owners_of_lt howner) block
  | lockBegin _ ha =>
    rcases retired_syncBegin w.log with heq | ⟨hf, -⟩
    · exact retiresDrained_of_eq heq
    · intro i o _ _ howner block
      have hsettled : w.Settled := by
        rcases ha with ⟨rfl, -⟩ | rfl <;> exact hready.1 hf
      exact hsettled.drained (mem_owners_of_lt (w := w) howner) block
  | checkpointClean =>
    intro i o _ _ howner block
    exact Settled.drained (w := w) hready (mem_owners_of_lt (w := w) howner) block
  | @syncEnd hd hhd hdraining hdone =>
    rcases retired_endLog hd w.log with heq | hwill
    · exact retiresDrained_of_eq heq
    · obtain ⟨hno, hcovers⟩ := h hd hhd hwill
      intro i o _ _ howner block
      have hmem : o ∈ w.owners := mem_owners_of_lt (w := w) howner
      rintro (⟨op, hop, -⟩ | ⟨hview, hcarried, hnot⟩)
      · exact hno o (by rw [show w.ops o = some op from hop]; rfl) hmem
      · rcases hcovers hdraining block o hmem hview hcarried with hw | ⟨d, hd', -, -⟩
        · exact hnot hw
        · rw [hdone] at hd'
          cases hd'
  | _ => exact retiresDrained_of_eq rfl

end Property

/-! ## Every run -/

theorem mounted_basic (device : ℕ → Bytes) (allocated : ℕ → Bool) (ring : Ring) :
    (mounted device allocated ring).Basic := by
  refine ⟨⟨le_rfl, le_rfl, le_rfl⟩, rfl, fun _ _ h => ?_, fun _ h => ?_, fun _ h => ?_⟩ <;> cases h

theorem mounted_retiring (device : ℕ → Bytes) (allocated : ℕ → Bool) (ring : Ring) :
    (mounted device allocated ring).Retiring := fun _ h => by cases h

theorem retiresDrained_of_retireReady {device : ℕ → Bytes} {allocated : ℕ → Bool} {ring : Ring}
    {as : List WorldAct}
    (hready : Always Steps (fun w a _ => RetireReady w a) (mounted device allocated ring) as) :
    Always Steps (fun w _ u => RetiresDrained w u) (mounted device allocated ring) as := by
  refine hready.of_invariant (I := fun w => w.Basic ∧ w.Retiring)
    ⟨mounted_basic .., mounted_retiring _ _ _⟩ ?_ ?_
  · rintro w a u ⟨hb, hr⟩ hstep hok
    exact ⟨hb.step hstep, hr.step hb hstep hok⟩
  · rintro w a u ⟨hb, hr⟩ hstep hok
    exact retiresDrained_step hr hb hstep hok

section Sample

/-- A ring of four blocks, as the mount of an empty journal leaves it. -/
def mountedFour : World := mounted (fun _ => []) (fun _ => false) (ringOf idleHooks (openedRing 4))

/-- An operation that changes one block and writes a record that fills a journal block. -/
def oneBlockOp (o : OpId) : List WorldAct :=
  [.begin o, .record o 4080, .change o o [1], .startMerge o, .merge o o, .finish o]

/-- Four such operations with no sync between them. -/
def fourOps : List WorldAct := (List.range' 1 4).flatMap oneBlockOp

/-- Up to the fourth record, which does not fit the third block. -/
def beforeFourthRecord : List WorldAct := (List.range' 1 3).flatMap oneBlockOp ++ [.begin 4]

theorem four_ops_retire_undrained_blocks :
    (∃ t, Run Steps mountedFour fourOps t) ∧
      ¬ Always Steps (fun w _ u => RetiresDrained w u) mountedFour fourOps := by
  constructor
  · have hsome : (fourOps.foldlM World.step mountedFour).isSome := by
      unfold mountedFour
      rw [ringOf_openedRing]
      decide
    obtain ⟨t, ht⟩ := Option.isSome_iff_exists.mp hsome
    exact ⟨t, run_of_foldlM ht⟩
  · intro h
    have hrun : (beforeFourthRecord.foldlM World.step mountedFour).bind (fun t =>
        (t.step (.record 4 4080)).map fun u : World => ((t.log.retired, u.log.retired, u.owners),
          (u.shared.cache.dirtyView 1).isSome, u.carried 1, u.written)) =
        some ((0, 3, [1, 2, 3, 4]), true, [1], []) := by
      unfold mountedFour
      rw [ringOf_openedRing]
      decide
    obtain ⟨t, ht, hrest⟩ := Option.bind_eq_some_iff.mp hrun
    obtain ⟨u, hu, heq⟩ := Option.map_eq_some_iff.mp hrest
    simp only [Prod.mk.injEq] at heq
    obtain ⟨⟨hlo, hhi, howners⟩, hview, hcarried, hwritten⟩ := heq
    refine h beforeFourthRecord (.record 4 4080) _ t u rfl (run_of_foldlM ht) hu 0 1
      (by omega) (by omega) ?_ 1 (.inr ?_)
    · rw [howners]
      rfl
    · rw [hview, hcarried, hwritten]
      decide

/-- One operation, a sync that drains its block, and a checkpoint. -/
def syncedOp : List WorldAct :=
  oneBlockOp 1 ++ [.syncBegin false 9, .syncSnapshot, .drainWrite 9 1, .applyFrees 9,
    .deleteDrained 9, .syncEnd, .checkpointClean]

/-- A check that implies `RetireReady` in a reachable state. -/
def readyCheck (w : World) : WorldAct → Bool
  | .record _ size => !decide (w.log.ring.overflows size)
  | .syncBegin _ _ | .checkpointBegin _ =>
      !decide w.log.ring.full && w.started.all fun o => (w.ops o).isNone
  | .checkpointClean =>
      w.shared.cache.dirtyBlocks.keys.isEmpty && w.started.all fun o => (w.ops o).isNone
  | _ => true

theorem Basic.noRecorder {w : World} (hb : w.Basic)
    (h : (w.started.all fun o => (w.ops o).isNone) = true) : w.NoRecorder := by
  intro o ho
  obtain ⟨op, hop⟩ := Option.isSome_iff_exists.mp ho
  have hnone := List.all_eq_true.mp h o (hb.running o op hop)
  rw [hop] at hnone
  cases hnone

theorem Basic.retireReady {w : World} (hb : w.Basic) {a : WorldAct} (h : readyCheck w a = true) :
    w.RetireReady a := by
  cases a with
  | record o size =>
    intro ho
    simp [readyCheck, ho] at h
  | syncBegin ckpt drain =>
    simp only [readyCheck, Bool.and_eq_true, Bool.not_eq_true', decide_eq_false_iff_not] at h
    exact ⟨fun hfull => absurd hfull h.1, fun _ => hb.noRecorder h.2⟩
  | checkpointBegin drain =>
    simp only [readyCheck, Bool.and_eq_true, Bool.not_eq_true', decide_eq_false_iff_not] at h
    exact ⟨fun hfull => absurd hfull h.1, hb.noRecorder h.2⟩
  | checkpointClean =>
    obtain ⟨hempty, hidle⟩ := Bool.and_eq_true_iff.mp h
    refine ⟨fun block => ?_, hb.noRecorder hidle⟩
    refine AList.lookup_eq_none.mpr fun hmem => ?_
    rw [AList.mem_keys, List.isEmpty_iff.mp hempty] at hmem
    cases hmem
  | _ => trivial

theorem syncedOp_ready : Always Steps (fun w a _ => RetireReady w a) mountedFour syncedOp := by
  have hcheck : checked World.step readyCheck mountedFour syncedOp = true := by
    unfold mountedFour
    rw [ringOf_openedRing]
    decide
  refine (always_of_checked hcheck).of_invariant (I := World.Basic) (mounted_basic ..) ?_ ?_
  · exact fun w a u hb hstep _ => hb.step hstep
  · exact fun w a u hb _ hok => hb.retireReady hok

theorem synced_op_retires_drained :
    (∃ t, Run Steps mountedFour syncedOp t ∧ t.log.retired = 1) ∧
      Always Steps (fun w _ u => RetiresDrained w u) mountedFour syncedOp := by
  refine ⟨?_, retiresDrained_of_retireReady syncedOp_ready⟩
  have hsome : (syncedOp.foldlM World.step mountedFour).map (·.log.retired) = some 1 := by
    unfold mountedFour
    rw [ringOf_openedRing]
    decide
  obtain ⟨t, ht, hretired⟩ := Option.map_eq_some_iff.mp hsome
  exact ⟨t, run_of_foldlM ht, hretired⟩

end Sample

end World

end Briefs.Bridge
