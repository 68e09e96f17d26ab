import Briefs.Bridge.Deferred
import Briefs.Lib.Run

/-!
# What readers see while drains and write-throughs run

Threads share the deferred map and the device. Stores, slot write-throughs and
drains interleave at the steps between which the source holds no lock; a store
and a write-through of one block exclude each other by the block's lock. The
result is about the view of a reader, `readBlock`.
-/

namespace Briefs.Bridge

open Lib

/-- A slot write-through between its device write and its map patch. -/
structure SlotWrite where
  off : ℕ
  data : Bytes
  deriving DecidableEq

structure Shared where
  cache : Deferred
  /-- Running `SyncMeta` calls. -/
  drains : ℕ → Option Drain
  /-- The write-through in flight on a block; it holds the block's lock. -/
  slotWrites : ℕ → Option SlotWrite

inductive Act
  | store (block : ℕ) (buf : Bytes)
  | slotWrite (block off : ℕ) (data : Bytes)
  | slotPatch (block off : ℕ) (data : Bytes)
  | read (block : ℕ)
  | snapshot (drain : ℕ)
  | drainWrite (drain block : ℕ)
  | applyFrees (drain : ℕ)
  | deleteDrained (drain : ℕ)

namespace Shared

def setDrain (s : Shared) (drain : ℕ) (d : Option Drain) : Shared :=
  { s with drains := Function.update s.drains drain d }

def setSlotWrite (s : Shared) (block : ℕ) (w : Option SlotWrite) : Shared :=
  { s with slotWrites := Function.update s.slotWrites block w }

def store (s : Shared) (block : ℕ) (buf : Bytes) : Option Shared :=
  if s.slotWrites block = none then some { s with cache := s.cache.setDirtyBlock block buf }
  else none

def slotWrite (s : Shared) (block off : ℕ) (data : Bytes) : Option Shared :=
  if s.slotWrites block = none then
    some ({ s with cache := s.cache.writeBlockSlot block off data }.setSlotWrite block
      (some ⟨off, data⟩))
  else none

def slotPatch (s : Shared) (block off : ℕ) (data : Bytes) : Option Shared :=
  if s.slotWrites block = some ⟨off, data⟩ then
    some ({ s with cache := s.cache.patchSlot block off data }.setSlotWrite block none)
  else none

def snapshot (s : Shared) (drain : ℕ) : Option Shared :=
  match s.drains drain with
  | some _ => none
  | none =>
    some ({ s with cache := s.cache.takeSnapshot.1 }.setDrain drain (some s.cache.takeSnapshot.2))

/-- Write one block of the snapshot, in any order. -/
def drainWrite (s : Shared) (drain block : ℕ) : Option Shared :=
  match s.drains drain with
  | none => none
  | some d =>
    match d.snap.lookup block with
    | none => none
    | some buf =>
      if block ∈ d.todo then
        some ({ s with cache := s.cache.writeBlock block buf }.setDrain drain
          (some { d with todo := d.todo.filter (· ≠ block) }))
      else none

def applyFrees (s : Shared) (drain : ℕ) : Option Shared :=
  match s.drains drain with
  | none => none
  | some d =>
    if d.todo = [] ∧ d.freed = false then
      some ({ s with cache := s.cache.applyFrees d.frees }.setDrain drain
        (some { d with freed := true }))
    else none

def deleteDrained (s : Shared) (drain : ℕ) : Option Shared :=
  match s.drains drain with
  | none => none
  | some d =>
    if d.todo = [] ∧ d.freed = true then
      some ({ s with cache := s.cache.deleteDrained d.snap }.setDrain drain none)
    else none

def step (s : Shared) : Act → Option Shared
  | .store block buf => s.store block buf
  | .slotWrite block off data => s.slotWrite block off data
  | .slotPatch block off data => s.slotPatch block off data
  | .read _ => some s
  | .snapshot drain => s.snapshot drain
  | .drainWrite drain block => s.drainWrite drain block
  | .applyFrees drain => s.applyFrees drain
  | .deleteDrained drain => s.deleteDrained drain

def Steps (s : Shared) (a : Act) (t : Shared) : Prop := s.step a = some t

section Inversion

variable {s t : Shared} {drain block off : ℕ} {buf data : Bytes}

theorem store_eq_some :
    s.store block buf = some t ↔
      s.slotWrites block = none ∧ t = { s with cache := s.cache.setDirtyBlock block buf } := by
  unfold store
  split_ifs with h <;> simp [h, eq_comm]

theorem slotWrite_eq_some :
    s.slotWrite block off data = some t ↔
      s.slotWrites block = none ∧
        t = { s with cache := s.cache.writeBlockSlot block off data }.setSlotWrite block
          (some ⟨off, data⟩) := by
  unfold slotWrite
  split_ifs with h <;> simp [h, eq_comm]

theorem slotPatch_eq_some :
    s.slotPatch block off data = some t ↔
      s.slotWrites block = some ⟨off, data⟩ ∧
        t = { s with cache := s.cache.patchSlot block off data }.setSlotWrite block none := by
  unfold slotPatch
  split_ifs with h <;> simp [h, eq_comm]

theorem snapshot_eq_some :
    s.snapshot drain = some t ↔
      s.drains drain = none ∧
        t = { s with cache := s.cache.takeSnapshot.1 }.setDrain drain
          (some s.cache.takeSnapshot.2) := by
  unfold snapshot
  split <;> rename_i h <;> simp [h, eq_comm]

theorem drainWrite_eq_some :
    s.drainWrite drain block = some t ↔
      ∃ d buf, s.drains drain = some d ∧ d.snap.lookup block = some buf ∧ block ∈ d.todo ∧
        t = { s with cache := s.cache.writeBlock block buf }.setDrain drain
          (some { d with todo := d.todo.filter (· ≠ block) }) := by
  unfold drainWrite
  constructor
  · intro h
    split at h
    · cases h
    · rename_i d hd
      split at h
      · cases h
      · rename_i buf hbuf
        split_ifs at h with htodo
        exact ⟨d, buf, hd, hbuf, htodo, (Option.some.inj h).symm⟩
  · rintro ⟨d, buf, hd, hbuf, htodo, rfl⟩
    simp [hd, hbuf, htodo]

theorem applyFrees_eq_some :
    s.applyFrees drain = some t ↔
      ∃ d, s.drains drain = some d ∧ (d.todo = [] ∧ d.freed = false) ∧
        t = { s with cache := s.cache.applyFrees d.frees }.setDrain drain
          (some { d with freed := true }) := by
  unfold applyFrees
  constructor
  · intro h
    split at h
    · cases h
    · rename_i d hd
      split_ifs at h with hdone
      exact ⟨d, hd, hdone, (Option.some.inj h).symm⟩
  · rintro ⟨d, hd, hdone, rfl⟩
    simp [hd, hdone]

theorem deleteDrained_eq_some :
    s.deleteDrained drain = some t ↔
      ∃ d, s.drains drain = some d ∧ (d.todo = [] ∧ d.freed = true) ∧
        t = { s with cache := s.cache.deleteDrained d.snap }.setDrain drain none := by
  unfold deleteDrained
  constructor
  · intro h
    split at h
    · cases h
    · rename_i d hd
      split_ifs at h with hdone
      exact ⟨d, hd, hdone, (Option.some.inj h).symm⟩
  · rintro ⟨d, hd, hdone, rfl⟩
    simp [hd, hdone]

end Inversion

end Shared

/-- The latest content of every block: the last store, with the write-throughs
completed since. -/
def latestStep (content : ℕ → Bytes) : Act → ℕ → Bytes
  | .store block buf => Function.update content block buf
  | .slotPatch block off data => Function.update content block (copyAt (content block) off data)
  | _ => content

def latest (content : ℕ → Bytes) (as : List Act) : ℕ → Bytes := as.foldl latestStep content

/-- A read returns the latest content; a write-through still in flight may show. -/
def ShowsLatest (s : Shared) (content : ℕ → Bytes) : Prop :=
  ∀ block, s.cache.readBlock block = content block ∨
    ∃ w, s.slotWrites block = some w ∧
      s.cache.readBlock block = copyAt (content block) w.off w.data

def Idle (s : Shared) : Prop := (∀ drain, s.drains drain = none) ∧ ∀ block, s.slotWrites block = none

def Drained (s : Shared) (block : ℕ) : Prop :=
  ∃ drain d, s.drains drain = some d ∧ (d.snap.lookup block).isSome

/-- The windows of a block do not overlap: a drain starts only while no block of
the map is being drained or written through, and a write-through starts only
while its block is not being drained. -/
def WindowsApart (s : Shared) : Act → Prop
  | .snapshot _ =>
      ∀ block, (s.cache.dirtyView block).isSome → s.slotWrites block = none ∧ ¬ Drained s block
  | .slotWrite block _ _ => ¬ Drained s block
  | _ => True

/-! ## One block at a time

The steps of different blocks do not interfere, so the invariant is stated for
what the shared state holds about one block. -/

/-- What the shared state holds about one block: the map entry, the device
content, the write-through in flight, and for each drain that has the block in
its snapshot the content and whether it is still to be written. -/
@[ext]
structure OneBlock where
  view : Option Bytes
  device : Bytes
  slot : Option SlotWrite
  draining : ℕ → Option (Bytes × Bool)

/-- The part of a drain that concerns a block. -/
def Drain.part (d : Drain) (block : ℕ) : Option (Bytes × Bool) :=
  (d.snap.lookup block).map fun buf => (buf, decide (block ∈ d.todo))

def draining (drains : ℕ → Option Drain) (block drain : ℕ) : Option (Bytes × Bool) :=
  (drains drain).bind fun d => d.part block

theorem draining_update (drains : ℕ → Option Drain) (block drain : ℕ) (d : Option Drain) :
    draining (Function.update drains drain d) block =
      Function.update (draining drains block) drain (d.bind fun d => d.part block) := by
  funext i
  by_cases hi : i = drain
  · subst hi
    simp [draining]
  · simp [draining, hi]

def Shared.oneBlock (s : Shared) (block : ℕ) : OneBlock where
  view := s.cache.dirtyView block
  device := s.cache.device block
  slot := s.slotWrites block
  draining := draining s.drains block

namespace OneBlock

def read (o : OneBlock) : Bytes := o.view.getD o.device

/-- At most one window is open on the block, and it hides nothing. -/
inductive Ok (content : Bytes) : OneBlock → Prop
  | quiet {view device} : view.getD device = content → Ok content ⟨view, device, none, fun _ => none⟩
  | slot {view device w} : (∀ cur, view = some cur → cur = content) →
      (view = none → device = copyAt content w.off w.data) →
      Ok content ⟨view, device, some w, fun _ => none⟩
  | drain {device i buf todo} : (todo = false → device = buf) →
      Ok content ⟨some content, device, none, Function.update (fun _ => none) i (some (buf, todo))⟩

theorem Ok.shows {content : Bytes} {o : OneBlock} (h : Ok content o) :
    o.read = content ∨ ∃ w, o.slot = some w ∧ o.read = copyAt content w.off w.data := by
  cases h with
  | quiet hview => exact .inl hview
  | @slot view device w hentry hslot =>
    cases view with
    | none => exact .inr ⟨w, rfl, hslot rfl⟩
    | some cur => exact .inl (hentry cur rfl)
  | drain _ => exact .inl rfl

def compareDelete (o : OneBlock) (drain : ℕ) : OneBlock :=
  { o with
    view := match o.draining drain with
      | some (buf, _) => if o.view = some buf then none else o.view
      | none => o.view
    draining := Function.update o.draining drain none }

variable {content : Bytes} {o : OneBlock}

theorem Ok.store (h : Ok content o) (hlock : o.slot = none) (buf : Bytes) :
    Ok buf { o with view := some buf } := by
  cases h with
  | quiet => exact .quiet rfl
  | slot => cases hlock
  | drain hdev => exact .drain hdev

theorem Ok.slotWrite (h : Ok content o) (hlock : o.slot = none) (hapart : ∀ i, o.draining i = none)
    (off : ℕ) (data : Bytes) :
    Ok content { o with device := copyAt o.device off data, slot := some ⟨off, data⟩ } := by
  cases h with
  | @quiet view device hview =>
    subst hview
    refine .slot ?_ ?_
    · rintro cur rfl
      rfl
    · rintro rfl
      rfl
  | slot => cases hlock
  | @drain device i buf todo hdev => simpa using hapart i

theorem Ok.slotPatch (h : Ok content o) {off : ℕ} {data : Bytes}
    (hslot : o.slot = some ⟨off, data⟩) :
    Ok (copyAt content off data)
      { o with view := o.view.map fun cur => copyAt cur off data, slot := none } := by
  cases h with
  | quiet => cases hslot
  | @slot view device w hentry hdev =>
    obtain rfl : w = ⟨off, data⟩ := Option.some.inj hslot
    cases view with
    | none => exact .quiet (hdev rfl)
    | some cur =>
      obtain rfl := hentry cur rfl
      exact .quiet rfl
  | drain => cases hslot

theorem Ok.snapshot (h : Ok content o) {drain : ℕ} (hdrain : o.draining drain = none)
    (hapart : o.view.isSome → o.slot = none ∧ ∀ i, o.draining i = none) :
    Ok content { o with
      draining := Function.update o.draining drain (o.view.map fun buf => (buf, true)) } := by
  cases h with
  | @quiet view device hview =>
    cases view with
    | none => simpa using Ok.quiet hview
    | some cur =>
      obtain rfl : cur = content := hview
      exact .drain (by simp)
  | @slot view device w hentry hdev =>
    cases view with
    | none => simpa using Ok.slot hentry hdev
    | some cur => exact absurd (hapart rfl).1 (by simp)
  | @drain device i buf todo hdev => simpa using (hapart rfl).2 i

theorem Ok.drainWrite (h : Ok content o) {drain : ℕ} {buf : Bytes} {todo : Bool}
    (hdrain : o.draining drain = some (buf, todo)) :
    Ok content { o with
      device := buf
      draining := Function.update o.draining drain (some (buf, false)) } := by
  cases h with
  | quiet => cases hdrain
  | slot => cases hdrain
  | @drain device i buf' todo' hdev =>
    by_cases hi : drain = i
    · subst hi
      simpa using Ok.drain fun _ => rfl
    · simp [hi] at hdrain

theorem Ok.compareDelete (h : Ok content o) {drain : ℕ}
    (hdone : ∀ buf todo, o.draining drain = some (buf, todo) → todo = false) :
    Ok content (o.compareDelete drain) := by
  cases h with
  | quiet hview => simpa [OneBlock.compareDelete] using Ok.quiet hview
  | slot hentry hdev => simpa [OneBlock.compareDelete] using Ok.slot hentry hdev
  | @drain device i buf todo hdev =>
    by_cases hi : drain = i
    · subst hi
      have htodo := hdone buf todo (by simp)
      by_cases hsame : content = buf
      · subst hsame
        have hquiet : Ok content ⟨none, device, none, fun _ => none⟩ := .quiet (hdev htodo)
        simpa [OneBlock.compareDelete] using hquiet
      · have hquiet : Ok content ⟨some content, device, none, fun _ => none⟩ := .quiet rfl
        simpa [OneBlock.compareDelete, hsame] using hquiet
    · have hsame : Function.update (Function.update (fun _ => none) i (some (buf, todo))) drain none =
          Function.update (fun _ => none) i (some (buf, todo)) := by
        rw [Function.update_eq_self_iff]
        simp [hi]
      have hdrain := @Ok.drain content device i buf todo hdev
      simpa [OneBlock.compareDelete, hi, hsame] using hdrain

end OneBlock

namespace Shared

variable {s t : Shared} {content : ℕ → Bytes}

def AllOk (s : Shared) (content : ℕ → Bytes) : Prop :=
  ∀ block, OneBlock.Ok (content block) (s.oneBlock block)

theorem not_drained {block : ℕ} (h : ¬ Drained s block) (i : ℕ) :
    draining s.drains block i = none := by
  by_contra hi
  obtain ⟨p, hp⟩ := Option.ne_none_iff_exists'.mp hi
  obtain ⟨d, hd, hpart⟩ := Option.bind_eq_some_iff.mp hp
  obtain ⟨buf, hbuf, -⟩ := Option.map_eq_some_iff.mp hpart
  exact h ⟨i, d, hd, by simp [hbuf]⟩

theorem AllOk.store (h : s.AllOk content) {block : ℕ} {buf : Bytes}
    (hstep : s.store block buf = some t) :
    t.AllOk (Function.update content block buf) := by
  obtain ⟨hlock, rfl⟩ := store_eq_some.mp hstep
  intro b
  change OneBlock.Ok _ ⟨(s.cache.setDirtyBlock block buf).dirtyView b, s.cache.device b,
    s.slotWrites b, draining s.drains b⟩
  rw [Deferred.dirtyView_setDirtyBlock]
  by_cases hb : b = block
  · subst hb
    rw [if_pos rfl, Function.update_self]
    exact (h b).store hlock buf
  · rw [if_neg hb, Function.update_of_ne hb]
    exact h b

theorem AllOk.slotWrite (h : s.AllOk content) {block off : ℕ} {data : Bytes}
    (hstep : s.slotWrite block off data = some t) (hapart : ¬ Drained s block) :
    t.AllOk content := by
  obtain ⟨hlock, rfl⟩ := slotWrite_eq_some.mp hstep
  intro b
  change OneBlock.Ok _ ⟨s.cache.dirtyView b,
    Function.update s.cache.device block (copyAt (s.cache.device block) off data) b,
    Function.update s.slotWrites block (some ⟨off, data⟩) b, draining s.drains b⟩
  by_cases hb : b = block
  · subst hb
    rw [Function.update_self, Function.update_self]
    exact (h b).slotWrite hlock (not_drained hapart) off data
  · rw [Function.update_of_ne hb, Function.update_of_ne hb]
    exact h b

theorem AllOk.slotPatch (h : s.AllOk content) {block off : ℕ} {data : Bytes}
    (hstep : s.slotPatch block off data = some t) :
    t.AllOk (Function.update content block (copyAt (content block) off data)) := by
  obtain ⟨hlock, rfl⟩ := slotPatch_eq_some.mp hstep
  intro b
  change OneBlock.Ok _ ⟨(s.cache.patchSlot block off data).dirtyView b,
    (s.cache.patchSlot block off data).device b, Function.update s.slotWrites block none b,
    draining s.drains b⟩
  rw [Deferred.dirtyView_patchSlot, Deferred.device_patchSlot]
  by_cases hb : b = block
  · subst hb
    rw [if_pos rfl, Function.update_self, Function.update_self]
    exact (h b).slotPatch hlock
  · rw [if_neg hb, Function.update_of_ne hb, Function.update_of_ne hb]
    exact h b

theorem AllOk.snapshot (h : s.AllOk content) {drain : ℕ} (hstep : s.snapshot drain = some t)
    (hapart : WindowsApart s (.snapshot drain)) : t.AllOk content := by
  obtain ⟨hidle, rfl⟩ := snapshot_eq_some.mp hstep
  intro b
  have hpart : s.cache.takeSnapshot.2.part b = (s.cache.dirtyView b).map fun buf => (buf, true) := by
    change (s.cache.dirtyBlocks.lookup b).map _ = (s.cache.dirtyBlocks.lookup b).map _
    rcases hb : s.cache.dirtyBlocks.lookup b with _ | buf
    · rfl
    · have hkey : b ∈ s.cache.dirtyBlocks.keys := by
        rw [← AList.mem_keys, ← AList.lookup_isSome, hb]
        rfl
      simp [Deferred.takeSnapshot, hkey]
  change OneBlock.Ok _ ⟨s.cache.dirtyView b, s.cache.device b, s.slotWrites b,
    draining (Function.update s.drains drain (some s.cache.takeSnapshot.2)) b⟩
  rw [draining_update, Option.bind_some, hpart]
  refine (h b).snapshot (by simp [oneBlock, draining, hidle]) fun hview => ?_
  obtain ⟨hslot, hfree⟩ := hapart b hview
  exact ⟨hslot, not_drained hfree⟩

/-- Replacing a drain by one with the same part of a block changes nothing for it. -/
theorem update_part {drain b : ℕ} {d : Drain} (hd : s.drains drain = some d) :
    Function.update (draining s.drains b) drain (d.part b) = draining s.drains b := by
  rw [Function.update_eq_self_iff]
  simp [draining, hd]

theorem AllOk.drainWrite (h : s.AllOk content) {drain block : ℕ}
    (hstep : s.drainWrite drain block = some t) : t.AllOk content := by
  obtain ⟨d, buf, hd, hbuf, htodo, rfl⟩ := drainWrite_eq_some.mp hstep
  intro b
  change OneBlock.Ok _ ⟨s.cache.dirtyView b, Function.update s.cache.device block buf b,
    s.slotWrites b, draining (Function.update s.drains drain (some _)) b⟩
  rw [draining_update, Option.bind_some]
  by_cases hb : b = block
  · subst hb
    have hpart : ({ d with todo := d.todo.filter (· ≠ b) } : Drain).part b = some (buf, false) := by
      simp [Drain.part, hbuf]
    have hdrain : (s.oneBlock b).draining drain = some (buf, true) := by
      simp [oneBlock, draining, hd, Drain.part, hbuf, htodo]
    rw [hpart, Function.update_self]
    exact (h b).drainWrite hdrain
  · have hpart : ({ d with todo := d.todo.filter (· ≠ block) } : Drain).part b = d.part b := by
      simp [Drain.part, hb]
    rw [hpart, Function.update_of_ne hb, update_part hd]
    exact h b

theorem AllOk.applyFrees (h : s.AllOk content) {drain : ℕ}
    (hstep : s.applyFrees drain = some t) : t.AllOk content := by
  obtain ⟨d, hd, -, rfl⟩ := applyFrees_eq_some.mp hstep
  intro b
  obtain ⟨hdev, hmap⟩ := s.cache.applyFrees_device d.frees
  change OneBlock.Ok _ ⟨(s.cache.applyFrees d.frees).dirtyBlocks.lookup b,
    (s.cache.applyFrees d.frees).device b, s.slotWrites b,
    draining (Function.update s.drains drain (some { d with freed := true })) b⟩
  have hpart : ({ d with freed := true } : Drain).part b = d.part b := rfl
  rw [hdev, hmap, draining_update, Option.bind_some, hpart, update_part hd]
  exact h b

theorem AllOk.deleteDrained (h : s.AllOk content) {drain : ℕ}
    (hstep : s.deleteDrained drain = some t) : t.AllOk content := by
  obtain ⟨d, hd, hdone, rfl⟩ := deleteDrained_eq_some.mp hstep
  intro b
  have hdrain : (s.oneBlock b).draining drain = d.part b := by simp [oneBlock, draining, hd]
  have hall : ∀ buf todo, (s.oneBlock b).draining drain = some (buf, todo) → todo = false := by
    intro buf todo heq
    rw [hdrain] at heq
    obtain ⟨buf', -, hpair⟩ := Option.map_eq_some_iff.mp heq
    rw [hdone.1] at hpair
    simpa using (congrArg Prod.snd hpair).symm
  have hone : (({ s with cache := s.cache.deleteDrained d.snap } : Shared).setDrain drain none).oneBlock b =
      (s.oneBlock b).compareDelete drain := by
    ext1
    · change (s.cache.deleteDrained d.snap).dirtyBlocks.lookup b = _
      rw [Deferred.lookup_deleteDrained]
      unfold OneBlock.compareDelete
      rw [hdrain]
      unfold Drain.part
      rcases hsnap : d.snap.lookup b with _ | buf
      · simp [oneBlock, Deferred.dirtyView]
      · by_cases hcur : s.cache.dirtyBlocks.lookup b = some buf <;>
          simp [oneBlock, Deferred.dirtyView, hcur]
    · rfl
    · rfl
    · exact draining_update s.drains b drain none
  rw [hone]
  exact (h b).compareDelete hall

/-- One step keeps every block in order and follows the latest content. -/
theorem AllOk.step (h : s.AllOk content) {a : Act} (hstep : s.Steps a t) (hapart : WindowsApart s a) :
    t.AllOk (latestStep content a) := by
  cases a with
  | store block buf => exact h.store hstep
  | slotWrite block off data => exact h.slotWrite hstep hapart
  | slotPatch block off data => exact h.slotPatch hstep
  | read block =>
    obtain rfl : s = t := Option.some.inj hstep
    exact h
  | snapshot drain => exact h.snapshot hstep hapart
  | drainWrite drain block => exact h.drainWrite hstep
  | applyFrees drain => exact h.applyFrees hstep
  | deleteDrained drain => exact h.deleteDrained hstep

end Shared

/-- In every run whose drain and write-through windows on a block stay apart, every
read returns the latest content. -/
theorem showsLatest_of_windowsApart {s t : Shared} {as : List Act} (h0 : Idle s)
    (hrun : Run Shared.Steps s as t)
    (hapart : Always Shared.Steps (fun u a _ => WindowsApart u a) s as) :
    ShowsLatest t (latest s.cache.readBlock as) := by
  have hok : t.AllOk (latest s.cache.readBlock as) := by
    refine hrun.invariant_trace (J := fun bs u => u.AllOk (latest s.cache.readBlock bs)) hapart ?_ ?_
    · intro b
      have hone : s.oneBlock b =
          ⟨s.cache.dirtyView b, s.cache.device b, none, fun _ => none⟩ := by
        ext1
        · rfl
        · rfl
        · exact h0.2 b
        · funext i
          simp [Shared.oneBlock, draining, h0.1 i]
      rw [hone]
      exact .quiet rfl
    · intro bs u a v hu hstep hgood
      have hlatest : latest s.cache.readBlock (bs ++ [a]) =
          latestStep (latest s.cache.readBlock bs) a := by
        simp [latest]
      rw [hlatest]
      exact hu.step hstep hgood
  intro block
  exact (hok block).shows

section Sample

/-- Nothing deferred, nothing running, every block empty. -/
def idleShared : Shared where
  cache :=
    { device := fun _ => [], dirtyBlocks := ∅, pendingFrees := {}, allocated := fun _ => false }
  drains _ := none
  slotWrites _ := none

theorem idleShared_idle : Idle idleShared := ⟨fun _ => rfl, fun _ => rfl⟩

/-- Drain 1 takes the first content of block 7 and writes it after drain 2 has written
and deleted the second. -/
def overlappingDrains : List Act :=
  [.store 7 [1], .snapshot 1, .store 7 [2], .snapshot 2, .drainWrite 2 7, .applyFrees 2,
    .deleteDrained 2, .drainWrite 1 7]

theorem overlapping_drains_show_old_content :
    Idle idleShared ∧ ∃ t, Run Shared.Steps idleShared overlappingDrains t ∧
      ¬ ShowsLatest t (latest idleShared.cache.readBlock overlappingDrains) := by
  have hread : (overlappingDrains.foldlM Shared.step idleShared).map
      (fun t => (t.cache.readBlock 7, t.slotWrites 7)) = some ([1], none) := by decide
  obtain ⟨t, ht, hpair⟩ := Option.map_eq_some_iff.mp hread
  refine ⟨idleShared_idle, t, run_of_foldlM ht, fun hshows => ?_⟩
  have hcontent : latest idleShared.cache.readBlock overlappingDrains 7 = [2] := rfl
  obtain ⟨hview, hslot⟩ := Prod.mk.inj hpair
  rcases hshows 7 with hok | ⟨w, hw, -⟩
  · rw [hview, hcontent] at hok
    exact absurd hok (by decide)
  · rw [hslot] at hw
    cases hw

/-- A store and then a drain that nothing overlaps. -/
def drainAfterStore : List Act :=
  [.store 7 [1], .snapshot 1, .drainWrite 1 7, .applyFrees 1, .deleteDrained 1]

theorem drainAfterStore_apart :
    Always Shared.Steps (fun u a _ => WindowsApart u a) idleShared drainAfterStore := by
  refine always_cons.mpr fun t ht => ⟨trivial, always_cons.mpr fun u hu => ⟨?_, ?_⟩⟩
  · cases ht
    refine fun block _ => ⟨rfl, ?_⟩
    rintro ⟨i, d, hd, -⟩
    cases hd
  · refine always_cons.mpr fun v hv => ⟨trivial, always_cons.mpr fun w hw => ⟨trivial, ?_⟩⟩
    exact always_cons.mpr fun x hx => ⟨trivial, always_nil _ _⟩

theorem showsLatest_after_drain :
    ∃ t, Run Shared.Steps idleShared drainAfterStore t ∧
      ShowsLatest t (latest idleShared.cache.readBlock drainAfterStore) := by
  have hsome : (drainAfterStore.foldlM Shared.step idleShared).isSome := by decide
  obtain ⟨t, ht⟩ := Option.isSome_iff_exists.mp hsome
  exact ⟨t, run_of_foldlM ht,
    showsLatest_of_windowsApart idleShared_idle (run_of_foldlM ht) drainAfterStore_apart⟩

end Sample

end Briefs.Bridge
