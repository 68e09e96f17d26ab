import Briefs.Disk.Inode
import Briefs.Lib.Run

/-!
# The slots of fresh inodes

A create or a whiteout writes the slot of its fresh inode straight to the device before
it journals the inode (`writeThroughFreshInodeSlot`), so that replay finds the record's
generation in the slot. Drains write whole table blocks from a snapshot of the deferred
map meanwhile. Operations hold the lock of a table block while they have a copy of it;
drains hold no lock. A drain that takes a new snapshot before it has written all blocks
of the last one is a drain that failed in between.
-/

namespace Briefs.Bridge

open Lib

/-- The generation of a slot that carries the inode magic. -/
def genOf (inode : Inode) : Option ℕ :=
  if inode.magic = magicInode then some inode.generation else none

/-- A fresh inode: its slot, and what is written into it and journaled. -/
structure Fresh (n : ℕ) where
  block : ℕ
  idx : Fin n
  inode : Inode

/-- A copy of its block carries the generation of `r`. -/
def Fresh.In {n : ℕ} (r : Fresh n) (c : Fin n → Inode) : Prop := genOf (c r.idx) = genOf r.inode

theorem Fresh.In.update {n : ℕ} {r : Fresh n} {c : Fin n → Inode} {idx : Fin n} {inode : Inode} (h : r.In c)
    (hidx : idx = r.idx → genOf inode = genOf (c r.idx)) : r.In (Function.update c idx inode) := by
  unfold Fresh.In at h ⊢
  by_cases hi : r.idx = idx
  · subst hi
    rw [Function.update_self, hidx rfl]
    exact h
  · rw [Function.update_of_ne hi]
    exact h

theorem Fresh.in_update {n : ℕ} (r : Fresh n) (c : Fin n → Inode) :
    r.In (Function.update c r.idx r.inode) := by
  simp [Fresh.In]

/-- How far an operation has got with its fresh inode. -/
inductive Arm
  | allocated
  | cached
  | written
  | patched
  deriving DecidableEq

/-- An inode number: free, allocated by a running operation, or in use. -/
inductive Bit
  | free
  | fresh (op : ℕ)
  | used
  deriving DecidableEq

/-- The inode table, with `n` slots in a block. -/
structure Table (n : ℕ) where
  device : ℕ → Fin n → Inode
  dirtyBlocks : ℕ → Option (Fin n → Inode)
  /-- The copy of a block that a drain took, and whether it has written it. -/
  drains : ℕ → ℕ → Option ((Fin n → Inode) × Bool)
  /-- The operation that holds the lock of a block, with its copy of the block. -/
  held : ℕ → Option (ℕ × (Fin n → Inode))
  fresh : ℕ → Option (Fresh n × Arm)
  bits : ℕ → Fin n → Bit
  /-- The fresh inodes that were journaled and not freed since. -/
  live : List (Fresh n)

namespace Table

variable {n : ℕ}

inductive Act (n : ℕ)
  | alloc (op block : ℕ) (idx : Fin n) (inode : Inode)
  | lock (op block : ℕ)
  /-- Rewrite an inode; its generation stays. -/
  | edit (op block : ℕ) (idx : Fin n) (inode : Inode)
  | freeInode (op block : ℕ) (idx : Fin n)
  | cacheFresh (op : ℕ)
  | slotWrite (op : ℕ)
  | slotPatch (op : ℕ)
  | record (op : ℕ)
  | merge (op block : ℕ)
  | abort (op : ℕ)
  | snapshot (drain : ℕ)
  | drainWrite (drain block : ℕ)
  | drainDelete (drain block : ℕ)
  | commit

variable (s : Table n)

/-- What an operation loads: the deferred copy, or the block on the device. -/
def view (block : ℕ) : Fin n → Inode := (s.dirtyBlocks block).getD (s.device block)

def setBit (block : ℕ) (idx : Fin n) (bit : Bit) : Table n :=
  { s with bits := Function.update s.bits block (Function.update (s.bits block) idx bit) }

def setHeld (block : ℕ) (h : Option (ℕ × (Fin n → Inode))) : Table n :=
  { s with held := Function.update s.held block h }

def setDevice (block : ℕ) (c : Fin n → Inode) : Table n :=
  { s with device := Function.update s.device block c }

def setDirty (block : ℕ) (c : Option (Fin n → Inode)) : Table n :=
  { s with dirtyBlocks := Function.update s.dirtyBlocks block c }

def setFresh (op : ℕ) (f : Option (Fresh n × Arm)) : Table n :=
  { s with fresh := Function.update s.fresh op f }

/-- `AllocInode`. -/
def alloc (op block : ℕ) (idx : Fin n) (inode : Inode) : Option (Table n) :=
  if s.bits block idx = .free ∧ (s.fresh op).isNone ∧ inode.magic = magicInode then
    some ((s.setBit block idx (.fresh op)).setFresh op (some (⟨block, idx, inode⟩, .allocated)))
  else none

def lock (op block : ℕ) : Option (Table n) :=
  if (s.held block).isNone then some (s.setHeld block (some (op, s.view block))) else none

def edit (op block : ℕ) (idx : Fin n) (inode : Inode) : Option (Table n) :=
  match s.held block with
  | some (holder, copy) =>
    if holder = op ∧ genOf inode = genOf (copy idx) then
      some (s.setHeld block (some (op, Function.update copy idx inode)))
    else none
  | none => none

/-- `FreeInode` of an inode in use, or of the operation's own fresh inode. -/
def freeInode (op block : ℕ) (idx : Fin n) : Option (Table n) :=
  match s.held block with
  | some (holder, copy) =>
    if holder = op ∧ (s.bits block idx = .used ∨ s.bits block idx = .fresh op) then
      some { (s.setBit block idx .free).setHeld block
          (some (op, Function.update copy idx .zero)) with
        fresh := if s.bits block idx = .fresh op then Function.update s.fresh op none else s.fresh
        live := s.live.filter fun r => ¬ (r.block = block ∧ r.idx = idx) }
    else none
  | none => none

/-- `writeInodeCached` of the fresh inode. -/
def cacheFresh (op : ℕ) : Option (Table n) :=
  match s.fresh op with
  | some (r, .allocated) =>
    match s.held r.block with
    | some (holder, copy) =>
      if holder = op then
        some ((s.setHeld r.block (some (op, Function.update copy r.idx r.inode))).setFresh op
          (some (r, .cached)))
      else none
    | none => none
  | _ => none

/-- `WriteBlockSlot`. -/
def slotWrite (op : ℕ) : Option (Table n) :=
  match s.fresh op with
  | some (r, .cached) =>
    some ((s.setDevice r.block (Function.update (s.device r.block) r.idx r.inode)).setFresh op
      (some (r, .written)))
  | _ => none

/-- The slot in the deferred copy, if there is one. -/
def slotPatch (op : ℕ) : Option (Table n) :=
  match s.fresh op with
  | some (r, .written) =>
    some ((s.setDirty r.block ((s.dirtyBlocks r.block).map fun c =>
      Function.update c r.idx r.inode)).setFresh op (some (r, .patched)))
  | _ => none

/-- `journalInodeFull`. -/
def record (op : ℕ) : Option (Table n) :=
  match s.fresh op with
  | some (r, .patched) =>
    some ({ (s.setBit r.block r.idx .used) with live := r :: s.live }.setFresh op none)
  | _ => none

/-- The end of an operation, for one block. -/
def merge (op block : ℕ) : Option (Table n) :=
  match s.held block with
  | some (holder, copy) =>
    if holder = op ∧ (s.fresh op).isNone then
      some ((s.setDirty block (some copy)).setHeld block none)
    else none
  | none => none

/-- `cacheAbort`. -/
def abort (op : ℕ) : Table n :=
  { s with
    held := fun block => (s.held block).filter fun h => h.1 ≠ op
    fresh := Function.update s.fresh op none }

/-- `SyncMeta` copies the deferred map. -/
def snapshot (drain : ℕ) : Table n :=
  { s with drains := Function.update s.drains drain fun block =>
      (s.dirtyBlocks block).map fun c => (c, false) }

def setDrain (drain block : ℕ) (d : Option ((Fin n → Inode) × Bool)) : Table n :=
  { s with drains := Function.update s.drains drain (Function.update (s.drains drain) block d) }

def drainWrite (drain block : ℕ) : Option (Table n) :=
  match s.drains drain block with
  | some (c, false) =>
    some ((s.setDevice block c).setDrain drain block (some (c, true)))
  | _ => none

/-- A written copy is deleted from the map unless a newer one is there. -/
def drainDelete (drain block : ℕ) : Option (Table n) :=
  match s.drains drain block with
  | some (c, true) =>
    some ((if s.dirtyBlocks block = some c then s.setDirty block none else s).setDrain drain block
      none)
  | _ => none

def step : Act n → Option (Table n)
  | .alloc op block idx inode => s.alloc op block idx inode
  | .lock op block => s.lock op block
  | .edit op block idx inode => s.edit op block idx inode
  | .freeInode op block idx => s.freeInode op block idx
  | .cacheFresh op => s.cacheFresh op
  | .slotWrite op => s.slotWrite op
  | .slotPatch op => s.slotPatch op
  | .record op => s.record op
  | .merge op block => s.merge op block
  | .abort op => some (s.abort op)
  | .snapshot drain => some (s.snapshot drain)
  | .drainWrite drain block => s.drainWrite drain block
  | .drainDelete drain block => s.drainDelete drain block
  | .commit => some s

def Steps (s : Table n) (a : Act n) (t : Table n) : Prop := s.step a = some t

/-- After a mount: the table is on the device. -/
def mounted (device : ℕ → Fin n → Inode) (used : ℕ → Fin n → Bool) : Table n where
  device := device
  dirtyBlocks := fun _ => none
  drains := fun _ _ => none
  held := fun _ => none
  fresh := fun _ => none
  bits := fun block idx => if used block idx then .used else .free
  live := []

/-- At a commit point every journaled fresh inode has its generation in its slot on the device. -/
def CommitsArmed (s : Table n) (a : Act n) (_ : Table n) : Prop :=
  a = .commit → ∀ r ∈ s.live,
    (s.device r.block r.idx).magic = magicInode ∧
      (s.device r.block r.idx).generation = r.inode.generation

/-- No drain overlaps a write-through of a block it writes: none has a copy of the block still
to write when the slot is written, and none takes one before the copy is patched. -/
def DrainsApart (s : Table n) (a : Act n) : Prop :=
  (∀ op r arm, a = .slotWrite op → s.fresh op = some (r, arm) →
    ∀ drain c, s.drains drain r.block ≠ some (c, false)) ∧
  ∀ drain op r, a = .snapshot drain → s.fresh op = some (r, .written) →
    s.dirtyBlocks r.block = none

section Content

variable {s} {t : Table n} {block : ℕ} {P : (Fin n → Inode) → Prop}

/-- Every copy of the block that can reach the device or an operation meets `P`. -/
structure At (s : Table n) (block : ℕ) (P : (Fin n → Inode) → Prop) : Prop where
  device : P (s.device block)
  dirty : ∀ c, s.dirtyBlocks block = some c → P c
  drains : ∀ drain c, s.drains drain block = some (c, false) → P c
  held : ∀ op c, s.held block = some (op, c) → P c

theorem At.view (h : s.At block P) : P (s.view block) := by
  unfold Table.view
  cases hd : s.dirtyBlocks block with
  | none => exact h.device
  | some c => exact h.dirty c hd

theorem At.congr (h : s.At block P) (hdevice : t.device block = s.device block)
    (hdirty : t.dirtyBlocks block = s.dirtyBlocks block)
    (hdrains : ∀ drain, t.drains drain block = s.drains drain block)
    (hheld : t.held block = s.held block) : t.At block P := by
  constructor
  · rw [hdevice]
    exact h.device
  · rw [hdirty]
    exact h.dirty
  · intro drain c hc
    exact h.drains drain c (hdrains drain ▸ hc)
  · rw [hheld]
    exact h.held

theorem At.setDevice (h : s.At block P) {b : ℕ} {c : Fin n → Inode} (hc : b = block → P c) :
    (s.setDevice b c).At block P := by
  refine ⟨?_, h.dirty, h.drains, h.held⟩
  by_cases hb : block = b
  · simpa [Table.setDevice, hb] using hc hb.symm
  · simpa [Table.setDevice, Function.update_of_ne hb] using h.device

theorem At.setDirty (h : s.At block P) {b : ℕ} {d : Option (Fin n → Inode)}
    (hd : b = block → ∀ c, d = some c → P c) : (s.setDirty b d).At block P := by
  refine ⟨h.device, fun c hc => ?_, h.drains, h.held⟩
  by_cases hb : block = b
  · exact hd hb.symm c (by simpa [Table.setDirty, hb] using hc)
  · exact h.dirty c (by simpa [Table.setDirty, Function.update_of_ne hb] using hc)

theorem At.setHeld (h : s.At block P) {b : ℕ} {held : Option (ℕ × (Fin n → Inode))}
    (hh : b = block → ∀ op c, held = some (op, c) → P c) : (s.setHeld b held).At block P := by
  refine ⟨h.device, h.dirty, h.drains, fun op c hc => ?_⟩
  by_cases hb : block = b
  · exact hh hb.symm op c (by simpa [Table.setHeld, hb] using hc)
  · exact h.held op c (by simpa [Table.setHeld, Function.update_of_ne hb] using hc)

theorem At.setDrain (h : s.At block P) {drain b : ℕ} {d : Option ((Fin n → Inode) × Bool)}
    (hd : ∀ c, d ≠ some (c, false)) : (s.setDrain drain b d).At block P := by
  refine ⟨h.device, h.dirty, fun other c hc => ?_, h.held⟩
  by_cases ho : other = drain
  · subst ho
    by_cases hb : block = b
    · subst hb
      exact absurd (by simpa [Table.setDrain] using hc) (hd c)
    · exact h.drains other c (by simpa [Table.setDrain, Function.update_of_ne hb] using hc)
  · exact h.drains other c (by simpa [Table.setDrain, Function.update_of_ne ho] using hc)

theorem At.snapshot (h : s.At block P) (drain : ℕ) : (s.snapshot drain).At block P := by
  refine ⟨h.device, h.dirty, fun other c hc => ?_, h.held⟩
  by_cases ho : other = drain
  · subst ho
    exact h.dirty c (by simpa [Table.snapshot] using hc)
  · exact h.drains other c (by simpa [Table.snapshot, Function.update_of_ne ho] using hc)

theorem At.abort (h : s.At block P) (op : ℕ) : (s.abort op).At block P := by
  refine ⟨h.device, h.dirty, h.drains, fun other c hc => h.held other c ?_⟩
  exact (Option.filter_eq_some_iff.mp hc).1

end Content

section Invariant

variable {s} {t : Table n} {a : Act n} {op : ℕ} {r : Fresh n} {block : ℕ}
  {fresh : ℕ → Option (Fresh n × Arm)} {idx : Fin n} {arm : Arm} {live : List (Fresh n)}
  {inode : Inode}

/-- The operation has the block of `r` locked, with the fresh inode in its copy. -/
def Own (s : Table n) (op : ℕ) (r : Fresh n) : Prop :=
  ∃ c, s.held r.block = some (op, c) ∧ r.In c

def ArmOk (s : Table n) (op : ℕ) (r : Fresh n) : Arm → Prop
  | .allocated => True
  | .cached => s.Own op r
  | .written => s.Own op r ∧ r.In (s.device r.block) ∧
      ∀ drain c, s.drains drain r.block ≠ some (c, false)
  | .patched => s.Own op r ∧ s.At r.block r.In

structure Ok (s : Table n) : Prop where
  live : ∀ r ∈ s.live, s.bits r.block r.idx = .used ∧ r.inode.magic = magicInode ∧
    s.At r.block r.In
  fresh : ∀ op r arm, s.fresh op = some (r, arm) →
    s.bits r.block r.idx = .fresh op ∧ r.inode.magic = magicInode ∧ s.ArmOk op r arm

theorem bits_setBit {block b : ℕ} {idx i : Fin n} {bit : Bit}
    (h : ¬ (b = block ∧ i = idx)) : (s.setBit block idx bit).bits b i = s.bits b i := by
  unfold setBit
  by_cases hb : b = block
  · subst hb
    have hi : i ≠ idx := fun hi => h ⟨rfl, hi⟩
    simp [Function.update_of_ne hi]
  · simp [Function.update_of_ne hb]

theorem bits_setBit_self {bit : Bit} :
    (s.setBit block idx bit).bits block idx = bit := by
  simp [setBit]

theorem slot_ne {block b : ℕ} {idx i : Fin n} (h : s.bits b i ≠ s.bits block idx) :
    ¬ (b = block ∧ i = idx) := by
  rintro ⟨rfl, rfl⟩
  exact h rfl

/-- A step that leaves the block of `r` alone. -/
theorem ArmOk.congr (h : s.ArmOk op r arm)
    (hdevice : t.device r.block = s.device r.block)
    (hdirty : t.dirtyBlocks r.block = s.dirtyBlocks r.block)
    (hdrains : ∀ drain, t.drains drain r.block = s.drains drain r.block)
    (hheld : t.held r.block = s.held r.block) : t.ArmOk op r arm := by
  have hown : s.Own op r → t.Own op r := by
    rintro ⟨c, hc, hin⟩
    exact ⟨c, hheld.trans hc, hin⟩
  cases arm with
  | allocated => trivial
  | cached => exact hown h
  | written =>
    refine ⟨hown h.1, ?_, fun drain c => ?_⟩
    · rw [hdevice]
      exact h.2.1
    · rw [hdrains]
      exact h.2.2 drain c
  | patched => exact ⟨hown h.1, h.2.congr hdevice hdirty hdrains hheld⟩

/-- Once the fresh inode is in its copy the operation holds the block. -/
theorem ArmOk.own (h : s.ArmOk op r arm) (harm : arm ≠ .allocated) : s.Own op r := by
  cases arm with
  | allocated => exact absurd rfl harm
  | cached => exact h
  | written => exact h.1
  | patched => exact h.1

/-- A step that keeps the copy of the operation, and the other copies where they matter. -/
theorem ArmOk.map (h : s.ArmOk op r arm) (hown : s.Own op r → t.Own op r)
    (hwritten : arm = .written → r.In (s.device r.block) →
      (∀ drain c, s.drains drain r.block ≠ some (c, false)) →
        r.In (t.device r.block) ∧ ∀ drain c, t.drains drain r.block ≠ some (c, false))
    (hat : s.At r.block r.In → t.At r.block r.In) : t.ArmOk op r arm := by
  cases arm with
  | allocated => trivial
  | cached => exact hown h
  | written => exact ⟨hown h.1, hwritten rfl h.2.1 h.2.2⟩
  | patched => exact ⟨hown h.1, hat h.2⟩

/-- A step that keeps the bits of the inodes it keeps track of. -/
theorem Ok.map (h : Ok s)
    (hlive : ∀ r ∈ t.live, r ∈ s.live ∧ t.bits r.block r.idx = s.bits r.block r.idx ∧
      (s.At r.block r.In → t.At r.block r.In))
    (hfresh : ∀ op r arm, t.fresh op = some (r, arm) → s.fresh op = some (r, arm) ∧
      t.bits r.block r.idx = s.bits r.block r.idx ∧ (s.ArmOk op r arm → t.ArmOk op r arm)) :
    Ok t := by
  constructor
  · intro r hr
    obtain ⟨hr, hbits, hat⟩ := hlive r hr
    obtain ⟨hbit, hm, hold⟩ := h.live r hr
    exact ⟨hbits.trans hbit, hm, hat hold⟩
  · intro op r arm hr
    obtain ⟨hr, hbits, harm⟩ := hfresh op r arm hr
    obtain ⟨hbit, hm, hold⟩ := h.fresh op r arm hr
    exact ⟨hbits.trans hbit, hm, harm hold⟩

theorem At.same (h : s.At r.block r.In) {bits : ℕ → Fin n → Bit}
    :
    ({ s with bits := bits, fresh := fresh, live := live } : Table n).At r.block r.In :=
  h.congr rfl rfl (fun _ => rfl) rfl

theorem ArmOk.same (h : s.ArmOk op r arm) {bits : ℕ → Fin n → Bit}
    :
    ({ s with bits := bits, fresh := fresh, live := live } : Table n).ArmOk op r arm :=
  h.congr rfl rfl (fun _ => rfl) rfl

theorem Ok.alloc (h : Ok s)
    (hstep : s.alloc op block idx inode = some t) : Ok t := by
  unfold Table.alloc at hstep
  split_ifs at hstep with hguard
  cases hstep
  obtain ⟨hfree, -, hmagic⟩ := hguard
  constructor
  · intro r hr
    obtain ⟨hbit, hm, hat⟩ := h.live r hr
    refine ⟨(bits_setBit (slot_ne (s := s) ?_)).trans hbit, hm, hat.same⟩
    simp [hbit, hfree]
  · intro other r arm hr
    by_cases ho : other = op
    · subst ho
      obtain ⟨rfl, rfl⟩ : (⟨block, idx, inode⟩ : Fresh n) = r ∧ Arm.allocated = arm := by
        simpa [setFresh] using hr
      exact ⟨bits_setBit_self, hmagic, trivial⟩
    · have hr' : s.fresh other = some (r, arm) := by
        simpa [setFresh, Function.update_of_ne ho, setBit] using hr
      obtain ⟨hbit, hm, harm⟩ := h.fresh other r arm hr'
      refine ⟨(bits_setBit (slot_ne (s := s) ?_)).trans hbit, hm, harm.same⟩
      simp [hbit, hfree]

theorem Ok.lock (h : Ok s) (hstep : s.lock op block = some t) : Ok t := by
  unfold Table.lock at hstep
  split_ifs at hstep with hfree
  cases hstep
  rw [Option.isNone_iff_eq_none] at hfree
  refine h.map (fun r hr => ⟨hr, rfl, fun hat => hat.setHeld ?_⟩) fun other r arm hr =>
    ⟨hr, rfl, fun harm => ?_⟩
  · rintro rfl _ _ ⟨⟩
    exact hat.view
  · by_cases hb : r.block = block
    · by_cases ha : arm = .allocated
      · subst ha
        trivial
      · obtain ⟨c, hc, -⟩ := harm.own ha
        rw [hb, hfree] at hc
        cases hc
    · exact harm.congr rfl rfl (fun _ => rfl) (by simp [setHeld, Function.update_of_ne hb])

/-- A change of the copy the operation holds, away from the slots of others. -/
theorem Ok.setCopy {copy : Fin n → Inode} (h : Ok s)
    (hheld : s.held block = some (op, copy))
    (hlive : ∀ r ∈ s.live, r.block = block → idx = r.idx → genOf inode = genOf (copy r.idx))
    (hfresh : ∀ r arm, s.fresh op = some (r, arm) → r.block = block → idx = r.idx →
      genOf inode = genOf (copy r.idx)) :
    Ok (s.setHeld block (some (op, Function.update copy idx inode))) := by
  refine h.map (fun r hr => ⟨hr, rfl, fun hat => hat.setHeld ?_⟩) fun other r arm hr =>
    ⟨hr, rfl, fun harm => ?_⟩
  · rintro hb _ _ ⟨⟩
    exact (hat.held op copy (hb ▸ hheld)).update fun hi => hlive r hr hb.symm hi
  · by_cases hb : r.block = block
    · subst hb
      by_cases ha : arm = .allocated
      · subst ha
        trivial
      · obtain ⟨c, hc, hin⟩ := harm.own ha
        rw [hheld] at hc
        cases hc
        have hnew : r.In (Function.update copy idx inode) := hin.update fun hi => hfresh r arm hr rfl hi
        refine harm.map (fun _ => ⟨_, by simp [setHeld], hnew⟩) (fun _ hin hnone => ⟨hin, hnone⟩)
          fun hat => hat.setHeld ?_
        rintro - _ _ ⟨⟩
        exact hnew
    · exact harm.congr rfl rfl (fun _ => rfl) (by simp [setHeld, Function.update_of_ne hb])

theorem Ok.edit (h : Ok s)
    (hstep : s.edit op block idx inode = some t) : Ok t := by
  unfold Table.edit at hstep
  split at hstep
  · rename_i holder copy hheld
    split_ifs at hstep with hguard
    cases hstep
    obtain ⟨rfl, hgen⟩ := hguard
    refine h.setCopy hheld (fun r _ _ hi => ?_) fun r arm _ _ hi => ?_
    · rw [hgen, hi]
    · rw [hgen, hi]
  · cases hstep

theorem Ok.restrict (h : Ok s)
    (hfresh : ∀ op r arm, fresh op = some (r, arm) → s.fresh op = some (r, arm))
    (hlive : ∀ r ∈ live, r ∈ s.live) : Ok { s with fresh := fresh, live := live } :=
  h.map (fun r hr => ⟨hlive r hr, rfl, fun hat => hat.same⟩) fun op r arm hr =>
    ⟨hfresh op r arm hr, rfl, fun harm => harm.same⟩

/-- A bit of a slot that is no longer anyone's. -/
theorem Ok.setBit {bit : Bit} (h : Ok s)
    (hlive : ∀ r ∈ s.live, ¬ (r.block = block ∧ r.idx = idx))
    (hfresh : ∀ op r arm, s.fresh op = some (r, arm) → ¬ (r.block = block ∧ r.idx = idx)) :
    Ok (s.setBit block idx bit) :=
  h.map (fun r hr => ⟨hr, bits_setBit (hlive r hr), fun hat => hat.same⟩) fun op r arm hr =>
    ⟨hr, bits_setBit (hfresh op r arm hr), fun harm => harm.same⟩

theorem Ok.freeInode (h : Ok s)
    (hstep : s.freeInode op block idx = some t) : Ok t := by
  unfold Table.freeInode at hstep
  split at hstep
  · rename_i holder copy hheld
    split at hstep
    · rename_i hguard
      cases hstep
      obtain ⟨rfl, hbits⟩ := hguard
      set fresh := if s.bits block idx = .fresh holder then Function.update s.fresh holder none
        else s.fresh with hdef
      set live := s.live.filter fun r => ¬ (r.block = block ∧ r.idx = idx) with hfilter
      have hfresh : ∀ other r arm, fresh other = some (r, arm) →
          s.fresh other = some (r, arm) ∧ ¬ (r.block = block ∧ r.idx = idx) := by
        intro other r arm hr
        rw [hdef] at hr
        split_ifs at hr with hown
        · have ho : other ≠ holder := by
            rintro rfl
            simp at hr
          rw [Function.update_of_ne ho] at hr
          refine ⟨hr, slot_ne (s := s) ?_⟩
          simp [(h.fresh other r arm hr).1, hown, ho]
        · refine ⟨hr, slot_ne (s := s) ?_⟩
          simp [(h.fresh other r arm hr).1, hbits.resolve_right hown]
      have hlive : ∀ r ∈ live, r ∈ s.live ∧ ¬ (r.block = block ∧ r.idx = idx) := by
        intro r hr
        rw [hfilter, List.mem_filter] at hr
        exact ⟨hr.1, of_decide_eq_true hr.2⟩
      have hless : Ok { s with fresh := fresh, live := live } :=
        h.restrict (fun other r arm hr => (hfresh other r arm hr).1) fun r hr => (hlive r hr).1
      have hcopy : Ok (({ s with fresh := fresh, live := live } : Table n).setHeld block
          (some (holder, Function.update copy idx .zero))) :=
        hless.setCopy hheld (fun r hr hb hi => absurd ⟨hb, hi.symm⟩ (hlive r hr).2)
          fun r arm hr hb hi => absurd ⟨hb, hi.symm⟩ (hfresh holder r arm hr).2
      exact hcopy.setBit (fun r hr => (hlive r hr).2) fun other r arm hr => (hfresh other r arm hr).2
    · cases hstep
  · cases hstep

theorem Ok.drop (h : Ok s) : Ok (s.setFresh op none) := by
  refine h.restrict (fun other r arm hr => ?_) fun r hr => hr
  by_cases ho : other = op
  · simp [ho] at hr
  · simpa [Function.update_of_ne ho] using hr

/-- The operation has got on with its fresh inode. -/
theorem Ok.putFresh (h : Ok (s.setFresh op none))
    (hbit : s.bits r.block r.idx = .fresh op) (hm : r.inode.magic = magicInode)
    (harm : s.ArmOk op r arm) : Ok (s.setFresh op (some (r, arm))) := by
  constructor
  · intro r' hr'
    obtain ⟨hbit', hm', hat⟩ := h.live r' hr'
    exact ⟨hbit', hm', hat.same⟩
  · intro other r' arm' hr'
    by_cases ho : other = op
    · subst ho
      obtain ⟨rfl, rfl⟩ : r = r' ∧ arm = arm' := by simpa [setFresh] using hr'
      exact ⟨hbit, hm, harm.same⟩
    · have hother : (s.setFresh op none).fresh other = some (r', arm') := by
        simpa [setFresh, Function.update_of_ne ho] using hr'
      obtain ⟨hbit', hm', harm'⟩ := h.fresh other r' arm' hother
      exact ⟨hbit', hm', harm'.same⟩

/-- A change of one block by the operation that holds it and has no fresh inode in work. -/
theorem Ok.change {c : Fin n → Inode} (h : Ok s)
    (hheld : s.held block = some (op, c)) (hnone : s.fresh op = none) (hbits : t.bits = s.bits)
    (hlive : t.live = s.live) (hfresh : t.fresh = s.fresh)
    (hother : ∀ b, b ≠ block → t.device b = s.device b ∧ t.dirtyBlocks b = s.dirtyBlocks b ∧
      (∀ drain, t.drains drain b = s.drains drain b) ∧ t.held b = s.held b)
    (hat : ∀ r ∈ s.live, r.block = block → s.At r.block r.In → t.At r.block r.In) : Ok t := by
  refine h.map (fun r hr => ⟨hlive ▸ hr, by rw [hbits], fun hold => ?_⟩) fun other r arm hr =>
    ⟨hfresh ▸ hr, by rw [hbits], fun harm => ?_⟩
  · by_cases hb : r.block = block
    · exact hat r (hlive ▸ hr) hb hold
    · obtain ⟨h₁, h₂, h₃, h₄⟩ := hother _ hb
      exact hold.congr h₁ h₂ h₃ h₄
  · by_cases hb : r.block = block
    · by_cases ha : arm = .allocated
      · subst ha
        trivial
      · obtain ⟨c', hc', -⟩ := harm.own ha
        rw [hb, hheld] at hc'
        cases hc'
        rw [hfresh, hnone] at hr
        cases hr
    · obtain ⟨h₁, h₂, h₃, h₄⟩ := hother _ hb
      exact harm.congr h₁ h₂ h₃ h₄

theorem Ok.idx_ne (h : Ok s) (hr : s.fresh op = some (r, arm)) {r' : Fresh n}
    (hr' : r' ∈ s.live) (hb : r'.block = r.block) : r.idx ≠ r'.idx := by
  intro hi
  refine absurd ⟨hb, hi.symm⟩ (slot_ne (s := s) ?_)
  simp [(h.fresh op r arm hr).1, (h.live r' hr').1]

theorem Ok.cacheFresh (h : Ok s) (hstep : s.cacheFresh op = some t) : Ok t := by
  unfold Table.cacheFresh at hstep
  split at hstep
  · rename_i r hr
    split at hstep
    · rename_i holder copy hheld
      split_ifs at hstep with hholder
      cases hstep
      subst hholder
      obtain ⟨hbit, hm, -⟩ := h.fresh holder r _ hr
      have hdrop : Ok (s.setFresh holder none) := h.drop
      have hcopy : Ok ((s.setFresh holder none).setHeld r.block
          (some (holder, Function.update copy r.idx r.inode))) := by
        refine hdrop.setCopy hheld (fun r' hr' hb hi => ?_) fun r' arm hr' => ?_
        · exact absurd hi (h.idx_ne hr hr' hb)
        · simp [setFresh] at hr'
      exact Ok.putFresh (s := s.setHeld r.block _) hcopy hbit hm
        ⟨_, by simp [setHeld], r.in_update copy⟩
    · cases hstep
  · cases hstep

theorem Ok.slotWrite (h : Ok s) (hstep : s.slotWrite op = some t)
    (hapart : DrainsApart s (.slotWrite op)) : Ok t := by
  unfold Table.slotWrite at hstep
  split at hstep
  · rename_i r hr
    cases hstep
    obtain ⟨hbit, hm, harm⟩ := h.fresh op r _ hr
    obtain ⟨c, hheld, hin⟩ := harm
    have hdrop : Ok (s.setFresh op none) := h.drop
    have hchange : Ok ((s.setFresh op none).setDevice r.block
        (Function.update (s.device r.block) r.idx r.inode)) := by
      refine hdrop.change hheld (by simp [setFresh]) rfl rfl rfl (fun b hb => ?_) ?_
      · exact ⟨Function.update_of_ne hb _ _, rfl, fun _ => rfl, rfl⟩
      · intro r' hr' hb hat
        exact hat.setDevice fun _ => (hb ▸ hat.device : r'.In (s.device r.block)).update fun hi =>
          absurd hi (h.idx_ne hr hr' hb)
    refine Ok.putFresh (s := s.setDevice r.block _) hchange hbit hm ⟨⟨c, hheld, hin⟩, ?_, ?_⟩
    · simpa [setDevice] using r.in_update _
    · exact hapart.1 op r _ rfl hr
  · cases hstep

theorem Ok.slotPatch (h : Ok s) (hstep : s.slotPatch op = some t) : Ok t := by
  unfold Table.slotPatch at hstep
  split at hstep
  · rename_i r hr
    cases hstep
    obtain ⟨hbit, hm, ⟨c, hheld, hin⟩, hdevice, hdrains⟩ := h.fresh op r _ hr
    have hdrop : Ok (s.setFresh op none) := h.drop
    have hchange : Ok ((s.setFresh op none).setDirty r.block
        ((s.dirtyBlocks r.block).map fun c => Function.update c r.idx r.inode)) := by
      refine hdrop.change hheld (by simp [setFresh]) rfl rfl rfl (fun b hb => ?_) ?_
      · exact ⟨rfl, Function.update_of_ne hb _ _, fun _ => rfl, rfl⟩
      · intro r' hr' hb hat
        refine hat.setDirty fun _ c' hc' => ?_
        obtain ⟨d, hd, rfl⟩ := Option.map_eq_some_iff.mp hc'
        exact (hat.dirty d (hb ▸ hd)).update fun hi => absurd hi (h.idx_ne hr hr' hb)
    refine Ok.putFresh (s := s.setDirty r.block _) hchange hbit hm ⟨⟨c, hheld, hin⟩, ?_⟩
    refine ⟨hdevice, fun c' hc' => ?_, fun drain c' hc' => absurd hc' (hdrains drain c'), ?_⟩
    · obtain ⟨d, -, rfl⟩ := Option.map_eq_some_iff.mp (by simpa [setDirty] using hc')
      exact r.in_update d
    · intro other c' hc'
      rw [show (s.setDirty r.block _).held r.block = s.held r.block from rfl, hheld] at hc'
      cases hc'
      exact hin
  · cases hstep

theorem Ok.record (h : Ok s) (hstep : s.record op = some t) : Ok t := by
  unfold Table.record at hstep
  split at hstep
  · rename_i r hr
    cases hstep
    obtain ⟨hbit, hm, -, hat⟩ := h.fresh op r _ hr
    have hdrop : Ok (s.setFresh op none) := h.drop
    have hbits : Ok ((s.setFresh op none).setBit r.block r.idx .used) := by
      refine hdrop.setBit (fun r' hr' => ?_) fun other r' arm hr' => ?_
      · apply slot_ne (s := s)
        simp [hbit, (h.live r' hr').1]
      · have ho : other ≠ op := by
          rintro rfl
          simp [setFresh] at hr'
        have hr'' : s.fresh other = some (r', arm) := by
          simpa [setFresh, Function.update_of_ne ho] using hr'
        apply slot_ne (s := s)
        simp [hbit, (h.fresh other r' arm hr'').1, ho]
    constructor
    · intro r' hr'
      rcases List.mem_cons.mp hr' with rfl | hr'
      · exact ⟨bits_setBit_self, hm, hat.same⟩
      · obtain ⟨hbit', hm', hat'⟩ := hbits.live r' hr'
        exact ⟨hbit', hm', hat'.same⟩
    · intro other r' arm hr'
      obtain ⟨hbit', hm', harm'⟩ := hbits.fresh other r' arm hr'
      exact ⟨hbit', hm', harm'.same⟩
  · cases hstep

theorem Ok.merge (h : Ok s) (hstep : s.merge op block = some t) : Ok t := by
  unfold Table.merge at hstep
  split at hstep
  · rename_i holder copy hheld
    split_ifs at hstep with hguard
    cases hstep
    obtain ⟨rfl, hnone⟩ := hguard
    rw [Option.isNone_iff_eq_none] at hnone
    refine h.change hheld hnone rfl rfl rfl (fun b hb => ?_) ?_
    · exact ⟨rfl, Function.update_of_ne hb _ _, fun _ => rfl, Function.update_of_ne hb _ _⟩
    · intro r hr hb hat
      apply At.setHeld
      · apply hat.setDirty
        rintro - c ⟨⟩
        exact hat.held holder copy (hb ▸ hheld)
      · rintro - _ _ ⟨⟩
  · cases hstep

theorem Ok.abort (h : Ok s) (op : ℕ) : Ok (s.abort op) := by
  refine h.map (fun r hr => ⟨hr, rfl, fun hat => hat.abort op⟩) fun other r arm hr => ?_
  have ho : other ≠ op := by
    rintro rfl
    simp [Table.abort] at hr
  refine ⟨by simpa [Table.abort, Function.update_of_ne ho] using hr, rfl, fun harm => harm.map ?_
    (fun _ hin hnone => ⟨hin, hnone⟩) fun hat => hat.abort op⟩
  rintro ⟨c, hc, hin⟩
  exact ⟨c, by simp [Table.abort, hc, ho], hin⟩

theorem Ok.snapshot {drain : ℕ} (h : Ok s) (hapart : DrainsApart s (.snapshot drain)) :
    Ok (s.snapshot drain) := by
  refine h.map (fun r hr => ⟨hr, rfl, fun hat => hat.snapshot drain⟩) fun op r arm hr =>
    ⟨hr, rfl, fun harm => harm.map id ?_ fun hat => hat.snapshot drain⟩
  rintro rfl hin hnone
  refine ⟨hin, fun other c hc => ?_⟩
  by_cases ho : other = drain
  · have hnone := hapart.2 drain op r rfl hr
    subst ho
    simp [Table.snapshot, hnone] at hc
  · exact hnone other c (by simpa [Table.snapshot, Function.update_of_ne ho] using hc)

/-- No copy of the block is still to be written, if there was none. -/
theorem setDrain_ne {drain b block : ℕ} {d : Option ((Fin n → Inode) × Bool)}
    (hd : ∀ c, d ≠ some (c, false)) (h : ∀ drain c, s.drains drain block ≠ some (c, false))
    (other : ℕ) (c : Fin n → Inode) : (s.setDrain drain b d).drains other block ≠ some (c, false) := by
  intro hc
  by_cases ho : other = drain
  · subst ho
    by_cases hb : block = b
    · subst hb
      exact hd c (by simpa [setDrain] using hc)
    · exact h other c (by simpa [setDrain, Function.update_of_ne hb] using hc)
  · exact h other c (by simpa [setDrain, Function.update_of_ne ho] using hc)

/-- What a drain writes is a copy it has taken. -/
theorem Ok.drainWrite {drain block : ℕ} (h : Ok s) (hstep : s.drainWrite drain block = some t) :
    Ok t := by
  unfold Table.drainWrite at hstep
  split at hstep
  · rename_i c hc
    cases hstep
    have hat' : ∀ {r : Fresh n}, s.At r.block r.In →
        ((s.setDevice block c).setDrain drain block (some (c, true))).At r.block r.In := by
      intro r hat
      apply At.setDrain
      · apply hat.setDevice
        intro hb
        exact hat.drains drain c (hb ▸ hc)
      · simp
    refine h.map (fun r hr => ⟨hr, rfl, hat'⟩) fun op r arm hr =>
      ⟨hr, rfl, fun harm => harm.map id (fun _ hin hnone => ⟨?_, ?_⟩) hat'⟩
    · have hb : r.block ≠ block := by
        rintro rfl
        exact hnone drain c hc
      rwa [show ((s.setDevice block c).setDrain drain block (some (c, true))).device r.block = _ from
        Function.update_of_ne hb _ _]
    · exact setDrain_ne (by simp) hnone
  · cases hstep

theorem Ok.drainDelete {drain block : ℕ} (h : Ok s) (hstep : s.drainDelete drain block = some t) :
    Ok t := by
  unfold Table.drainDelete at hstep
  split at hstep
  · cases hstep
    split_ifs
    · have hat' : ∀ {r : Fresh n}, s.At r.block r.In →
          ((s.setDirty block none).setDrain drain block none).At r.block r.In := fun hat =>
        (hat.setDirty (by simp)).setDrain (by simp)
      exact h.map (fun r hr => ⟨hr, rfl, hat'⟩) fun op r arm hr => ⟨hr, rfl, fun harm =>
        harm.map id (fun _ hin hnone => ⟨hin, setDrain_ne (by simp) hnone⟩) hat'⟩
    · have hat' : ∀ {r : Fresh n}, s.At r.block r.In → (s.setDrain drain block none).At r.block r.In :=
        fun hat => hat.setDrain (by simp)
      exact h.map (fun r hr => ⟨hr, rfl, hat'⟩) fun op r arm hr => ⟨hr, rfl, fun harm =>
        harm.map id (fun _ hin hnone => ⟨hin, setDrain_ne (by simp) hnone⟩) hat'⟩
  · cases hstep

theorem Ok.step (h : Ok s) (hapart : DrainsApart s a) (hstep : Steps s a t) : Ok t := by
  cases a with
  | alloc op block idx inode => exact h.alloc hstep
  | lock op block => exact h.lock hstep
  | edit op block idx inode => exact h.edit hstep
  | freeInode op block idx => exact h.freeInode hstep
  | cacheFresh op => exact h.cacheFresh hstep
  | slotWrite op => exact h.slotWrite hstep hapart
  | slotPatch op => exact h.slotPatch hstep
  | record op => exact h.record hstep
  | merge op block => exact h.merge hstep
  | abort op =>
    cases hstep
    exact h.abort op
  | snapshot drain =>
    cases hstep
    exact h.snapshot hapart
  | drainWrite drain block => exact h.drainWrite hstep
  | drainDelete drain block => exact h.drainDelete hstep
  | commit =>
    cases hstep
    exact h

theorem Ok.mounted (device : ℕ → Fin n → Inode) (used : ℕ → Fin n → Bool) :
    Ok (mounted device used) := by
  constructor
  · rintro r ⟨⟩
  · rintro op r arm ⟨⟩

theorem Ok.commitsArmed (h : Ok s) : CommitsArmed s a t := by
  rintro rfl r hr
  obtain ⟨-, hm, hat⟩ := h.live r hr
  have hin : genOf (s.device r.block r.idx) = some r.inode.generation := by
    rw [show genOf (s.device r.block r.idx) = genOf r.inode from hat.device]
    simp [genOf, hm]
  unfold genOf at hin
  split_ifs at hin with hmagic
  exact ⟨hmagic, Option.some.inj hin⟩

/-- Fresh inode slots are armed in every run whose drains keep apart from write-throughs. -/
theorem fresh_slots_armed {device : ℕ → Fin n → Inode} {used : ℕ → Fin n → Bool}
    {as : List (Act n)}
    (hapart : Always Steps (fun s a _ => DrainsApart s a) (mounted device used) as) :
    Always Steps CommitsArmed (mounted device used) as :=
  hapart.of_invariant (Ok.mounted device used) (fun _ _ _ h hstep hgood => h.step hgood hstep)
    fun _ _ _ h _ _ => h.commitsArmed

end Invariant

section Unarmed

variable {s} {t : Table n} {op : ℕ} {r : Fresh n}

/-- A patched slot that the device lost is journaled and committed all the same. -/
theorem unarmed_of_patched (hr : s.fresh op = some (r, .patched))
    (hlost : genOf (s.device r.block r.idx) ≠ some r.inode.generation) :
    ∃ t, Run Steps s [.record op] t ∧ ¬ CommitsArmed t .commit t := by
  have hrecord : Steps s (.record op)
      ({ (s.setBit r.block r.idx .used) with live := r :: s.live }.setFresh op none) := by
    simp only [Steps, step, record, hr]
  refine ⟨_, run_cons.mpr ⟨_, hrecord, .nil _⟩, fun harmed => hlost ?_⟩
  obtain ⟨hmagic, hgen⟩ := harmed rfl r (by simp [setFresh])
  rw [← hgen]
  exact if_pos hmagic

/-- The condition cannot be weakened: with an older copy of the block in a drain when the slot is
written, or taken before the map is patched, the slot may be lost. -/
theorem unarmed_of_overlap {a : Act n} {c : Fin n → Inode}
    (hold : genOf (c r.idx) ≠ some r.inode.generation)
    (hoverlap : (a = .slotWrite op ∧ s.fresh op = some (r, .cached) ∧
        ∃ drain, s.drains drain r.block = some (c, false)) ∨
      (∃ drain, a = .snapshot drain) ∧ s.fresh op = some (r, .written) ∧
        s.dirtyBlocks r.block = some c) :
    ∃ as t, Run Steps s (a :: as) t ∧ ¬ CommitsArmed t .commit t := by
  -- in both cases a drain holds the old copy once the slot is written
  obtain ⟨drain, u, hu, hr, hdrain⟩ : ∃ drain u, Steps s a u ∧ u.fresh op = some (r, .written) ∧
      u.drains drain r.block = some (c, false) := by
    rcases hoverlap with ⟨rfl, hr, drain, hd⟩ | ⟨⟨drain, rfl⟩, hr, hd⟩
    · exact ⟨drain, (s.setDevice r.block (Function.update (s.device r.block) r.idx
        r.inode)).setFresh op (some (r, .written)), by simp only [Steps, step, slotWrite, hr],
        by simp [setFresh], hd⟩
    · exact ⟨drain, s.snapshot drain, rfl, hr, by simp [snapshot, hd]⟩
  obtain ⟨v, hv, hvr, hvd⟩ : ∃ v, Steps u (.slotPatch op) v ∧ v.fresh op = some (r, .patched) ∧
      v.drains drain r.block = some (c, false) := by
    simp only [Steps, step, slotPatch, hr]
    exact ⟨_, rfl, by simp [setFresh], hdrain⟩
  obtain ⟨w, hw, hwr, hwc⟩ : ∃ w, Steps v (.drainWrite drain r.block) w ∧
      w.fresh op = some (r, .patched) ∧ w.device r.block = c := by
    simp only [Steps, step, drainWrite, hvd]
    exact ⟨_, rfl, hvr, by simp [setDrain, setDevice]⟩
  obtain ⟨t, ht, hunarmed⟩ := unarmed_of_patched hwr (hwc ▸ hold)
  exact ⟨_, t, run_cons.mpr ⟨u, hu, run_cons.mpr ⟨v, hv, run_cons.mpr ⟨w, hw, ht⟩⟩⟩, hunarmed⟩

end Unarmed

/-- An inode of generation 7. -/
def freshInode : Inode := { Inode.zero with magic := magicInode, generation := 7 }

theorem unarmed_of_overlap_drain : ∃ as t, Run Steps (((mounted (n := 2) (fun _ _ => .zero)
      fun _ _ => false).setFresh 2 (some (⟨0, 1, freshInode⟩, .cached))).setDrain 9 0
        (some (fun _ => .zero, false))) (.slotWrite 2 :: as) t ∧ ¬ CommitsArmed t .commit t :=
  unarmed_of_overlap (c := fun _ => .zero) (r := ⟨0, 1, freshInode⟩) (by decide)
    (.inl ⟨rfl, rfl, 9, rfl⟩)

/-- Operation 1 has changed table block 0, and a sync's drain takes its copy. A create writes the
slot through, the drain writes its old copy of the block over it, and the create journals the
inode. -/
def drainOverSlot : List (Act 2) :=
  [.lock 1 0, .merge 1 0, .snapshot 9,
    .alloc 2 0 1 freshInode, .lock 2 0, .cacheFresh 2, .slotWrite 2, .slotPatch 2,
    .drainWrite 9 0, .drainDelete 9 0, .record 2]

/-- The next sync commits the record while the slot on the device is empty. -/
theorem drain_over_fresh_slot : ∃ as t, Run Steps (mounted (fun _ _ => .zero) fun _ _ => false) as t ∧
    ¬ Always Steps CommitsArmed (mounted (n := 2) (fun _ _ => .zero) fun _ _ => false) as := by
  have hstate : (drainOverSlot.foldlM step (mounted (fun _ _ => .zero) fun _ _ => false)).map (fun u =>
      (u.live.map fun r => (r.block, r.idx), (u.device 0 1).magic)) = some ([(0, 1)], 0) := by decide
  obtain ⟨u, hu, hpair⟩ := Option.map_eq_some_iff.mp hstate
  obtain ⟨hlive, hmagic⟩ := Prod.mk.inj hpair
  have hrun : Run Steps (mounted (fun _ _ => .zero) fun _ _ => false) drainOverSlot u :=
    run_of_foldlM hu
  have hcommit : Steps u .commit u := rfl
  refine ⟨drainOverSlot ++ [.commit], u, .snoc hrun hcommit, fun hall => ?_⟩
  obtain ⟨r, hr, hslot⟩ := List.mem_map.mp (hlive ▸ List.mem_singleton_self (0, 1))
  obtain ⟨hblock, hidx⟩ := Prod.mk.inj hslot
  have harmed := (hall drainOverSlot .commit [] u u rfl hrun hcommit rfl r hr).1
  rw [hblock, hidx, hmagic] at harmed
  exact absurd harmed (by decide)

/-- A create, a drain after it, and the syncs around them. -/
def slotThenDrain : List (Act 2) :=
  [.alloc 2 0 1 freshInode, .lock 2 0, .cacheFresh 2, .slotWrite 2, .slotPatch 2, .record 2, .commit,
    .merge 2 0, .snapshot 9, .drainWrite 9 0, .drainDelete 9 0, .commit]

theorem fresh_slots_armed_create : Always Steps CommitsArmed
    (mounted (n := 2) (fun _ _ => .zero) fun _ _ => false) slotThenDrain := by
  apply fresh_slots_armed
  have hother : ∀ (s : Table 2) a, (∀ op, a ≠ .slotWrite op) → (∀ drain, a ≠ .snapshot drain) →
      DrainsApart s a :=
    fun s a hw hs => ⟨fun op _ _ ha => absurd ha (hw op), fun drain _ _ ha => absurd ha (hs drain)⟩
  refine always_cons.mpr fun s₁ h₁ => ⟨hother _ _ (by simp) (by simp), ?_⟩
  refine always_cons.mpr fun s₂ h₂ => ⟨hother _ _ (by simp) (by simp), ?_⟩
  refine always_cons.mpr fun s₃ h₃ => ⟨hother _ _ (by simp) (by simp), ?_⟩
  cases h₁
  cases h₂
  cases h₃
  refine always_cons.mpr fun s₄ h₄ => ⟨?_, ?_⟩
  · refine ⟨fun _ _ _ _ _ _ _ => ?_, fun _ _ _ h => nomatch h⟩
    rintro ⟨⟩
  refine always_cons.mpr fun s₅ h₅ => ⟨hother _ _ (by simp) (by simp), ?_⟩
  refine always_cons.mpr fun s₆ h₆ => ⟨hother _ _ (by simp) (by simp), ?_⟩
  refine always_cons.mpr fun s₇ h₇ => ⟨hother _ _ (by simp) (by simp), ?_⟩
  refine always_cons.mpr fun s₈ h₈ => ⟨hother _ _ (by simp) (by simp), ?_⟩
  cases h₄
  cases h₅
  cases h₆
  cases h₇
  cases h₈
  refine always_cons.mpr fun s₉ _ => ⟨⟨fun _ _ _ h => (nomatch h), fun drain op r _ hr => ?_⟩, ?_⟩
  · simp [setFresh, setDirty, setHeld, setBit, setDevice, mounted] at hr
  · exact always_of_mem fun a ha _ _ => hother _ _ (by rintro op rfl; simp at ha)
      (by rintro drain rfl; simp at ha)

end Table

end Briefs.Bridge
