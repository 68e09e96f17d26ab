import Briefs.Bridge.Retire

/-!
# Write-ahead order

What an operation changed may reach the device, and what it freed may reach the
allocator, only after all its records are behind a persisted `log_end`. A drain
that runs inside `Sync` comes after the commit point of that call; the drain of
`Fsync` runs outside the journal lock, and a free can be queued before the record
that announces it.
-/

namespace Briefs.Bridge

open Lib Journal

namespace World

/-- The operation may still append records. -/
def Recording (w : World) (o : OpId) : Prop := ∃ op, w.ops o = some op ∧ op.merging = false

/-- Every record of the operation so far is behind the persisted `log_end`. -/
def Covered (w : World) (o : OpId) : Prop := ∀ i, w.owners[i]? = some o → i < w.log.committed

/-- A drain writes a block only when the records of the operations behind its content
are covered, likewise for frees; no operation appends a record after that. -/
def WriteAhead (w : World) : WorldAct → Prop
  | .drainWrite drain block => ∀ o ∈ w.snapCarried drain block, w.Covered o
  | .applyFrees drain => ∀ o ∈ w.snapQueued drain, w.Covered o
  | .record o _ => o ∉ w.exposed
  | _ => True

/-- The state a drain starts in: no queued free belongs to an operation that is still
appending records, and outside the journal lock every record behind the deferred
blocks and the queued frees is covered. -/
def DrainReady (w : World) : WorldAct → Prop
  | .syncSnapshot => ∀ o ∈ w.queued, ¬ w.Recording o
  | .fsyncSnapshot _ =>
      (∀ o ∈ w.queued, ¬ w.Recording o ∧ w.Covered o) ∧
        ∀ block, (w.shared.cache.dirtyView block).isSome → ∀ o ∈ w.carried block, w.Covered o
  | _ => True

/-! ## Operations only move forward -/

/-- What every step does to the operations and to the committed records. -/
structure Advance (w u : World) : Prop where
  started : ∀ o ∈ w.started, o ∈ u.started
  recording : ∀ o ∈ w.started, u.Recording o → w.Recording o
  owners : u.owners = w.owners ∨ ∃ o, w.Recording o ∧ u.owners = w.owners ++ [o]
  committed : w.log.committed ≤ u.log.committed

section Advance

variable {w u : World}

theorem Advance.of_eq (hstarted : u.started = w.started) (hops : u.ops = w.ops)
    (howners : u.owners = w.owners) (hlog : w.log.committed ≤ u.log.committed) : w.Advance u where
  started o ho := hstarted ▸ ho
  recording o _ := by
    unfold Recording
    rw [hops]
    exact id
  owners := .inl howners
  committed := hlog

/-- A step that only replaces a running operation by one that is no earlier. -/
theorem Advance.of_setOp {o : OpId} {op : Op} {new : Option Op} (hop : w.ops o = some op)
    (hnew : ∀ op', new = some op' → op'.merging = false → op.merging = false)
    (hstarted : u.started = w.started) (hops : u.ops = Function.update w.ops o new)
    (howners : u.owners = w.owners) (hlog : u.log = w.log) : w.Advance u where
  started o ho := hstarted ▸ ho
  recording := by
    rintro o' - ⟨op', hop', hm⟩
    rw [hops] at hop'
    by_cases ho : o' = o
    · subst ho
      rw [Function.update_self] at hop'
      exact ⟨op, hop, hnew op' hop' hm⟩
    · rw [Function.update_of_ne ho] at hop'
      exact ⟨op', hop', hm⟩
  owners := .inl howners
  committed := hlog ▸ le_rfl

theorem committed_writeRecord {l : Log} (h : l.Ordered) (size : ℕ) :
    l.committed ≤ (l.writeRecord size).committed := by
  have hle : l.committed ≤ l.total := h.committed_le.trans h.flushed_le
  unfold Log.writeRecord Log.makeRoom
  split_ifs
  · exact hle
  · exact le_rfl
  · exact le_rfl

theorem committed_endLog {l : Log} (h : l.Ordered) (hd : Holder) :
    l.committed ≤ (hd.endLog l).committed := by
  have hle := h.committed_le
  unfold Holder.endLog Log.syncEnd Log.backPressure Log.periodic
  split_ifs <;> first | exact hle | exact le_rfl

theorem Steps.advance (hb : w.Basic) {a : WorldAct} (hstep : w.Steps a u) : w.Advance u := by
  cases hstep.move with
  | @begin o hfresh =>
    refine ⟨fun o' ho' => List.mem_cons_of_mem _ ho', ?_, .inl rfl, le_rfl⟩
    rintro o' ho' ⟨op, hop, hm⟩
    have hne : o' ≠ o := fun heq => hfresh (heq ▸ ho')
    rw [setOp_ne _ hne] at hop
    exact ⟨op, hop, hm⟩
  | @record o op size hop hm =>
    exact ⟨fun _ h => h, fun _ _ h => h, .inr ⟨o, ⟨op, hop, hm⟩, rfl⟩,
      committed_writeRecord hb.ordered size⟩
  | change hop hm => exact .of_setOp hop (fun _ _ _ => hm) rfl rfl rfl rfl
  | startMerge hop =>
    refine .of_setOp hop (fun op' hop' hm => ?_) rfl rfl rfl rfl
    cases hop'
    cases hm
  | merge hop =>
    refine .of_setOp hop (fun op' hop' hm' => ?_) rfl rfl rfl rfl
    cases hop'
    exact hm'
  | finish hop | abort hop => exact .of_setOp hop (fun _ hnone => by cases hnone) rfl rfl rfl rfl
  | lockBegin =>
    refine .of_eq rfl rfl rfl ?_
    rw [committed_syncBegin]
    exact hb.ordered.committed_le.trans hb.ordered.flushed_le
  | checkpointClean => exact .of_eq rfl rfl rfl hb.ordered.committed_le
  | @syncEnd hd => exact .of_eq rfl rfl rfl (committed_endLog hb.ordered hd)
  | _ => exact .of_eq rfl rfl rfl le_rfl

/-- The operation appends no more records. -/
def Closed (w : World) (o : OpId) : Prop := o ∈ w.started ∧ ¬ w.Recording o

/-- Closed, with every record covered. -/
def Sealed (w : World) (o : OpId) : Prop := w.Closed o ∧ w.Covered o

theorem Closed.advance {o : OpId} (h : w.Closed o) (hadv : w.Advance u) : u.Closed o :=
  ⟨hadv.started o h.1, fun hrec => h.2 (hadv.recording o h.1 hrec)⟩

theorem Sealed.advance {o : OpId} (h : w.Sealed o) (hadv : w.Advance u) : u.Sealed o := by
  refine ⟨h.1.advance hadv, fun i hi => ?_⟩
  rcases hadv.owners with howners | ⟨o', hrec, howners⟩
  · rw [howners] at hi
    exact (h.2 i hi).trans_le hadv.committed
  · -- the new record belongs to another operation: a closed one appends nothing
    have hne : o' ≠ o := fun heq => h.1.2 (heq ▸ hrec)
    rw [howners] at hi
    have hlt : i < w.owners.length := by
      by_contra hge
      rw [List.getElem?_append_right (Nat.le_of_not_lt hge)] at hi
      have hmem := List.mem_of_getElem? hi
      exact hne (List.mem_singleton.mp hmem).symm
    rw [List.getElem?_append_left hlt] at hi
    exact (h.2 i hi).trans_le hadv.committed

end Advance

/-! ## What the running drains carry -/

structure Ahead (w : World) : Prop where
  carried : ∀ block, ∀ o ∈ w.carried block, w.Closed o
  queued : ∀ o ∈ w.queued, o ∈ w.started
  snapCarried : ∀ drain d, w.shared.drains drain = some d → ∀ block, (d.snap.lookup block).isSome →
    ∀ o ∈ w.snapCarried drain block, w.Sealed o
  snapQueued : ∀ drain d, w.shared.drains drain = some d → ∀ o ∈ w.snapQueued drain, w.Sealed o
  exposed : ∀ o ∈ w.exposed, w.Sealed o

section Ahead

variable {w u : World}

/-- Steps that start no drain, given that what they merge is closed and what they
expose is sealed. -/
theorem Ahead.frame (h : w.Ahead) (hadv : w.Advance u)
    (hcarried : ∀ block, ∀ o ∈ u.carried block, w.Closed o)
    (hqueued : ∀ o ∈ u.queued, o ∈ w.started) (hexposed : ∀ o ∈ u.exposed, w.Sealed o)
    (hdrains : ∀ drain d, u.shared.drains drain = some d →
      ∃ d', w.shared.drains drain = some d' ∧ d.snap = d'.snap)
    (hsnapCarried : u.snapCarried = w.snapCarried) (hsnapQueued : u.snapQueued = w.snapQueued) :
    u.Ahead where
  carried block o ho := (hcarried block o ho).advance hadv
  queued o ho := hadv.started o (hqueued o ho)
  snapCarried drain d hd block hsome o ho := by
    obtain ⟨d', hd', hsnap⟩ := hdrains drain d hd
    rw [hsnap] at hsome
    rw [hsnapCarried] at ho
    exact (h.snapCarried drain d' hd' block hsome o ho).advance hadv
  snapQueued drain d hd o ho := by
    obtain ⟨d', hd', -⟩ := hdrains drain d hd
    rw [hsnapQueued] at ho
    exact (h.snapQueued drain d' hd' o ho).advance hadv
  exposed o ho := (hexposed o ho).advance hadv

theorem setDrain_some {s : Shared} {drain drain' : ℕ} {new : Option Drain} {d : Drain}
    (h : (s.setDrain drain new).drains drain' = some d) :
    (drain' = drain ∧ new = some d) ∨ (drain' ≠ drain ∧ s.drains drain' = some d) := by
  change Function.update s.drains drain new drain' = some d at h
  by_cases hd : drain' = drain
  · subst hd
    rw [Function.update_self] at h
    exact .inl ⟨rfl, h⟩
  · rw [Function.update_of_ne hd] at h
    exact .inr ⟨hd, h⟩

/-- A drain starts: what it takes has to be sealed. -/
theorem Ahead.snapshotted (h : w.Ahead) (drain : ℕ) (hqueued : ∀ o ∈ w.queued, w.Sealed o)
    (hcarried : ∀ block, (w.shared.cache.dirtyView block).isSome →
      ∀ o ∈ w.carried block, w.Sealed o) : (w.snapshotted drain).Ahead := by
  have hadv : w.Advance (w.snapshotted drain) := .of_eq rfl rfl rfl le_rfl
  refine ⟨fun block o ho => (h.carried block o ho).advance hadv, nofun, ?_, ?_,
    fun o ho => (h.exposed o ho).advance hadv⟩
  · intro drain' d hd block hsome o ho
    refine Sealed.advance ?_ hadv
    change o ∈ Function.update w.snapCarried drain w.carried drain' block at ho
    rcases setDrain_some hd with ⟨rfl, hnew⟩ | ⟨hne, hold⟩
    · obtain rfl := Option.some.inj hnew
      rw [Function.update_self] at ho
      exact hcarried block hsome o ho
    · rw [Function.update_of_ne hne] at ho
      exact h.snapCarried drain' d hold block hsome o ho
  · intro drain' d hd o ho
    refine Sealed.advance ?_ hadv
    change o ∈ Function.update w.snapQueued drain w.queued drain' at ho
    rcases setDrain_some hd with ⟨rfl, -⟩ | ⟨hne, hold⟩
    · rw [Function.update_self] at ho
      exact hqueued o ho
    · rw [Function.update_of_ne hne] at ho
      exact h.snapQueued drain' d hold o ho

/-- Inside the journal lock every record is committed. -/
theorem Closed.sealed_of_held {o : OpId} (h : w.Closed o) (hb : w.Basic) {hd : Holder}
    (hhd : w.holder = some hd) : w.Sealed o := by
  refine ⟨h, fun i hi => ?_⟩
  rw [hb.held hd hhd, ← hb.count]
  exact (List.getElem?_eq_some_iff.mp hi).1

theorem mem_carriedBy {o o' : OpId} {block : ℕ} (h : o' ∈ w.carriedBy o block) :
    o' = o ∨ o' ∈ w.carried block := by
  unfold carriedBy at h
  split_ifs at h
  · exact List.mem_cons.mp h
  · exact .inl (List.mem_singleton.mp h)

theorem Ahead.step (h : w.Ahead) (hb : w.Basic) {a : WorldAct} (hstep : w.Steps a u)
    (hready : w.DrainReady a) : u.Ahead := by
  have hadv := hstep.advance hb
  have hdrains : ∀ drain d, w.shared.drains drain = some d →
      ∃ d', w.shared.drains drain = some d' ∧ d.snap = d'.snap := fun _ d hd => ⟨d, hd, rfl⟩
  -- a drain that goes on keeps its snapshot
  have hset : ∀ {drain : ℕ} {d new : Drain} {c : Deferred}, w.shared.drains drain = some d →
      new.snap = d.snap → ∀ drain' d', (({ w.shared with cache := c } : Shared).setDrain drain
        (some new)).drains drain' = some d' →
        ∃ d'', w.shared.drains drain' = some d'' ∧ d'.snap = d''.snap := by
    intro drain d new c hd hsnap drain' d' hd'
    rcases setDrain_some hd' with ⟨rfl, hnew⟩ | ⟨-, hold⟩
    · exact ⟨d, hd, by rw [← Option.some.inj hnew, hsnap]⟩
    · exact ⟨d', hold, rfl⟩
  cases hstep.move with
  | queueFree hop =>
    refine h.frame hadv h.carried (fun o' ho' => ?_) h.exposed hdrains rfl rfl
    rcases List.mem_cons.mp ho' with rfl | hold
    · exact hb.running _ _ hop
    · exact h.queued o' hold
  | @merge o op block _ hop hm =>
    refine h.frame hadv (fun block' o' ho' => ?_) h.queued h.exposed hdrains rfl rfl
    have hclosed : w.Closed o := by
      refine ⟨hb.running o op hop, ?_⟩
      rintro ⟨op', hop', hm'⟩
      rw [hop, Option.some.injEq] at hop'
      rw [← hop', hm] at hm'
      cases hm'
    change o' ∈ Function.update w.carried block (w.carriedBy o block) block' at ho'
    by_cases hblock : block' = block
    · subst hblock
      rw [Function.update_self] at ho'
      rcases mem_carriedBy ho' with rfl | hold
      · exact hclosed
      · exact h.carried block' o' hold
    · rw [Function.update_of_ne hblock] at ho'
      exact h.carried block' o' ho'
  | @syncSnapshot hd hhd =>
    have hv := h.snapshotted hd.drain
      (fun o ho => Closed.sealed_of_held ⟨h.queued o ho, hready o ho⟩ hb hhd)
      (fun block _ o ho => (h.carried block o ho).sealed_of_held hb hhd)
    exact hv.frame (.of_eq rfl rfl rfl le_rfl) hv.carried hv.queued hv.exposed
      (fun _ d hd => ⟨d, hd, rfl⟩) rfl rfl
  | @fsyncSnapshot drain =>
    exact h.snapshotted drain
      (fun o ho => ⟨⟨h.queued o ho, (hready.1 o ho).1⟩, (hready.1 o ho).2⟩)
      (fun block hsome o ho => ⟨h.carried block o ho, hready.2 block hsome o ho⟩)
  | @drainWrite drain block d _ hd hbuf =>
    refine h.frame hadv h.carried h.queued (fun o ho => ?_) (hset hd rfl) rfl rfl
    rcases List.mem_append.mp ho with hnew | hold
    · exact h.snapCarried drain d hd block (by rw [hbuf]; rfl) o hnew
    · exact h.exposed o hold
  | @applyFrees drain d hd =>
    refine h.frame hadv h.carried h.queued (fun o ho => ?_) (hset hd rfl) rfl rfl
    rcases List.mem_append.mp ho with hnew | hold
    · exact h.snapQueued drain d hd o hnew
    · exact h.exposed o hold
  | deleteDrained =>
    refine h.frame hadv h.carried h.queued h.exposed (fun drain' d' hd' => ?_) rfl rfl
    rcases setDrain_some hd' with ⟨-, hnew⟩ | ⟨-, hold⟩
    · cases hnew
    · exact ⟨d', hold, rfl⟩
  | _ => exact h.frame hadv h.carried h.queued h.exposed hdrains rfl rfl

/-- The order that a step from such a state keeps. -/
theorem Ahead.writeAhead (h : w.Ahead) {a : WorldAct} (hstep : w.Steps a u) : w.WriteAhead a := by
  cases hstep.move with
  | drainWrite hd hbuf =>
    exact fun o ho => (h.snapCarried _ _ hd _ (by rw [hbuf]; rfl) o ho).2
  | applyFrees hd => exact fun o ho => (h.snapQueued _ _ hd o ho).2
  | record hop hm => exact fun hexp => (h.exposed _ hexp).1.2 ⟨_, hop, hm⟩
  | lockBegin _ ha => rcases ha with ⟨rfl, -⟩ | rfl <;> trivial
  | _ => trivial

end Ahead

/-! ## Every run -/

theorem mounted_ahead (device : ℕ → Bytes) (allocated : ℕ → Bool) (ring : Ring) :
    (mounted device allocated ring).Ahead := by
  refine ⟨fun _ _ h => ?_, fun _ h => ?_, fun _ _ h => ?_, fun _ _ h => ?_, fun _ h => ?_⟩ <;>
    cases h

section Sample

/-- The sync of an `Fsync` found nothing pending; an operation runs, and then the
drain of that `Fsync`. -/
def fsyncAfterOp : List WorldAct := oneBlockOp 1 ++ [.fsyncSnapshot 9, .drainWrite 9 1]

/-- A check that implies `DrainReady`. -/
def drainCheck (w : World) : WorldAct → Bool
  | .syncSnapshot => w.queued.isEmpty
  | .fsyncSnapshot _ => w.queued.isEmpty && w.log.committed == w.log.total
  | _ => true

theorem Basic.drainReady {w : World} (hb : w.Basic) {a : WorldAct} (h : drainCheck w a = true) :
    w.DrainReady a := by
  cases a with
  | syncSnapshot =>
    intro o ho
    rw [List.isEmpty_iff.mp h] at ho
    cases ho
  | fsyncSnapshot drain =>
    obtain ⟨hempty, hcommitted⟩ := Bool.and_eq_true_iff.mp h
    refine ⟨fun o ho => ?_, fun _ _ o _ i hi => ?_⟩
    · rw [List.isEmpty_iff.mp hempty] at ho
      cases ho
    · rw [beq_iff_eq.mp hcommitted, ← hb.count]
      exact (List.getElem?_eq_some_iff.mp hi).1
  | _ => trivial

/-- A sync drains one operation; `Fsync` then drains what it finds. -/
def syncThenFsync : List WorldAct :=
  oneBlockOp 1 ++ [.syncBegin false 9, .syncSnapshot, .drainWrite 9 1, .applyFrees 9,
    .deleteDrained 9, .syncEnd, .fsyncSnapshot 9]

theorem syncThenFsync_ready :
    Always Steps (fun w a _ => DrainReady w a) mountedFour syncThenFsync := by
  have hcheck : checked World.step drainCheck mountedFour syncThenFsync = true := by
    unfold mountedFour
    rw [ringOf_openedRing]
    decide
  refine (always_of_checked hcheck).of_invariant (I := World.Basic) (mounted_basic ..) ?_ ?_
  · exact fun w a u hb hstep _ => hb.step hstep
  · exact fun w a u hb _ hok => hb.drainReady hok

end Sample

end World

end Briefs.Bridge
