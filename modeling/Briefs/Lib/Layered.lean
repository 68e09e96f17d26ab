import Mathlib.Tactic

/-!
# A store with a write-back map and an operation cache

Reads of a running operation go through its cache; between operations reads see
the deferred value of a key, or what is stored. An operation ends by merging the
entries it marked dirty into the deferred map, or by dropping its cache. Only
`patch`, `drain` and `flush` change what is stored.
-/

namespace Briefs.Lib

structure Layered (κ ν : Type) where
  device : κ → ν
  deferred : κ → Option ν
  cache : κ → Option ν
  cacheDirty : κ → Bool

namespace Layered

variable {κ ν : Type} [DecidableEq κ] (s : Layered κ ν)

/-- What a reader outside an operation sees. -/
def read (k : κ) : ν := (s.deferred k).getD (s.device k)

/-- What the running operation sees. -/
def view (k : κ) : ν := (s.cache k).getD (s.read k)

/-- Keep a copy of what is read in the cache. -/
def load (k : κ) : Layered κ ν := { s with cache := Function.update s.cache k (some (s.view k)) }

def save (k : κ) (v : ν) : Layered κ ν :=
  { s with
    cache := Function.update s.cache k (some v)
    cacheDirty := Function.update s.cacheDirty k true }

/-- Forget the entry without writing it. -/
def drop (k : κ) : Layered κ ν :=
  { s with
    cache := Function.update s.cache k none
    cacheDirty := Function.update s.cacheDirty k false }

/-- Start an operation, or abort one: the cache is empty. -/
def clear : Layered κ ν := { s with cache := fun _ => none, cacheDirty := fun _ => false }

/-- End an operation: its dirty entries become deferred. -/
def merge : Layered κ ν :=
  { s.clear with deferred := fun k => if s.cacheDirty k then s.cache k else s.deferred k }

/-- Change a stored value at once, and a deferred copy the same way. -/
def patch (k : κ) (f : ν → ν) : Layered κ ν :=
  { s with
    device := Function.update s.device k (f (s.device k))
    deferred := Function.update s.deferred k ((s.deferred k).map f) }

/-- Store every deferred value and empty the map. -/
def drain : Layered κ ν := { s with device := s.read, deferred := fun _ => none }

/-- Store the dirty entries of the cache and drop it. -/
def flush : Layered κ ν :=
  { s.clear with device := fun k => if s.cacheDirty k then s.view k else s.device k }

/-- Nothing is deferred, and what the operation has not marked dirty is what is stored. -/
structure Calm (s : Layered κ ν) : Prop where
  deferred : ∀ k, s.deferred k = none
  clean : ∀ k, s.cacheDirty k = false → s.view k = s.device k

namespace Calm

variable {s}

omit [DecidableEq κ] in
theorem read_eq (h : s.Calm) : s.read = s.device := by
  funext k
  simp [read, h.deferred k]

theorem view_load (k : κ) : (s.load k).view = s.view := by
  funext j
  by_cases hj : j = k
  · subst hj
    simp [load, view]
  · simp [load, view, read, Function.update_of_ne hj]

theorem load (h : s.Calm) (k : κ) : (s.load k).Calm := by
  refine ⟨h.deferred, fun j hj => ?_⟩
  rw [view_load]
  exact h.clean j hj

theorem view_save (k : κ) (v : ν) : (s.save k v).view = Function.update s.view k v := by
  funext j
  by_cases hj : j = k
  · subst hj
    simp [save, view]
  · simp [save, view, read, Function.update_of_ne hj]

theorem save (h : s.Calm) (k : κ) (v : ν) : (s.save k v).Calm := by
  refine ⟨h.deferred, fun j hj => ?_⟩
  have hne : j ≠ k := by
    rintro rfl
    simp [Layered.save] at hj
  rw [view_save, Function.update_of_ne hne]
  exact h.clean j (by simpa [Layered.save, Function.update_of_ne hne] using hj)

omit [DecidableEq κ] in
theorem drain_eq (h : s.Calm) : s.drain = s := by
  have hdeferred : s.deferred = fun _ => none := funext h.deferred
  unfold drain
  rw [h.read_eq, ← hdeferred]

omit [DecidableEq κ] in
theorem device_flush (h : s.Calm) : s.flush.device = s.view := by
  funext k
  by_cases hk : s.cacheDirty k = true
  · simp [flush, hk]
  · simp [flush, hk, h.clean k (by simpa using hk)]

end Calm

/-- What the operation has not marked dirty is what a reader sees, and what it has marked is in
its cache. -/
structure Tidy (s : Layered κ ν) : Prop where
  clean : ∀ k, s.cacheDirty k = false → s.view k = s.read k
  cached : ∀ k, s.cacheDirty k = true → (s.cache k).isSome

namespace Tidy

variable {s}

omit [DecidableEq κ] in
theorem clear (s : Layered κ ν) : s.clear.Tidy := ⟨fun _ _ => rfl, fun _ h => by cases h⟩

theorem load (h : s.Tidy) (k : κ) : (s.load k).Tidy := by
  refine ⟨fun j hj => ?_, fun j hj => ?_⟩
  · rw [Calm.view_load]
    exact h.clean j hj
  · by_cases hjk : j = k
    · simp [Layered.load, hjk]
    · simpa [Layered.load, Function.update_of_ne hjk] using h.cached j hj

theorem save (h : s.Tidy) (k : κ) (v : ν) : (s.save k v).Tidy := by
  refine ⟨fun j hj => ?_, fun j hj => ?_⟩
  · have hjk : j ≠ k := by
      rintro rfl
      simp [Layered.save] at hj
    rw [Calm.view_save, Function.update_of_ne hjk]
    exact h.clean j (by simpa [Layered.save, Function.update_of_ne hjk] using hj)
  · by_cases hjk : j = k
    · simp [Layered.save, hjk]
    · simpa [Layered.save, Function.update_of_ne hjk] using
        h.cached j (by simpa [Layered.save, Function.update_of_ne hjk] using hj)

theorem view_drop (k : κ) : (s.drop k).view = Function.update s.view k (s.read k) := by
  funext j
  by_cases hjk : j = k
  · subst hjk
    simp [Layered.drop, view, read]
  · simp [Layered.drop, view, read, Function.update_of_ne hjk]

theorem drop (h : s.Tidy) (k : κ) : (s.drop k).Tidy := by
  refine ⟨fun j hj => ?_, fun j hj => ?_⟩
  · by_cases hjk : j = k
    · subst hjk
      rw [view_drop, Function.update_self]
      rfl
    · rw [view_drop, Function.update_of_ne hjk]
      exact h.clean j (by simpa [Layered.drop, Function.update_of_ne hjk] using hj)
  · have hjk : j ≠ k := by
      rintro rfl
      simp [Layered.drop] at hj
    simpa [Layered.drop, Function.update_of_ne hjk] using
      h.cached j (by simpa [Layered.drop, Function.update_of_ne hjk] using hj)

omit [DecidableEq κ] in
theorem view_drain : s.drain.view = s.view := by
  funext k
  simp [drain, view, read]

omit [DecidableEq κ] in
theorem drain (h : s.Tidy) : s.drain.Tidy := by
  refine ⟨fun k hk => ?_, h.cached⟩
  rw [view_drain, h.clean k hk]
  simp [Layered.drain, read]

omit [DecidableEq κ] in
/-- A merge shows to every reader what the operation saw. -/
theorem read_merge (h : s.Tidy) : s.merge.read = s.view := by
  funext k
  by_cases hk : s.cacheDirty k = true
  · obtain ⟨v, hv⟩ := Option.isSome_iff_exists.mp (h.cached k hk)
    simp [merge, Layered.clear, read, view, hk, hv]
  · rw [h.clean k (by simpa using hk)]
    simp [merge, Layered.clear, read, hk]

omit [DecidableEq κ] in
theorem view_merge (h : s.Tidy) : s.merge.view = s.view := h.read_merge

omit [DecidableEq κ] in
theorem merge (s : Layered κ ν) : s.merge.Tidy := ⟨fun _ _ => rfl, fun _ h => by cases h⟩

end Tidy

/-- No operation is under way and nothing is deferred. -/
structure Still (s : Layered κ ν) : Prop where
  deferred : ∀ k, s.deferred k = none
  cache : ∀ k, s.cache k = none

namespace Still

variable {s}

omit [DecidableEq κ] in
theorem calm (h : s.Still) : s.Calm :=
  ⟨h.deferred, fun k _ => by simp [view, read, h.cache k, h.deferred k]⟩

omit [DecidableEq κ] in
theorem view_eq (h : s.Still) : s.view = s.device := by
  funext k
  simp [view, read, h.cache k, h.deferred k]

end Still

omit [DecidableEq κ] in
theorem Calm.still_flush {s : Layered κ ν} (h : s.Calm) : s.flush.Still :=
  ⟨h.deferred, fun _ => rfl⟩

end Layered

end Briefs.Lib
