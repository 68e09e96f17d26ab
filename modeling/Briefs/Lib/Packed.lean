import Briefs.Lib.Codec

/-!
# Values packed into blocks

Values of a fixed size, so many to a block, on a device of numbered blocks. The last block is
filled up with zeros. What is packed is read back, and a block that is packed anew replaces its
values only.
-/

namespace Briefs.Lib

variable {dev : ℕ → Bytes}

/-- Values of a fixed size. -/
structure Fixed (α : Type) where
  size : ℕ
  put : α → Bytes
  get : Bytes → α
  length_put : ∀ v, (put v).length = size
  get_put : ∀ v rest, get (put v ++ rest) = v

def writeFrom (dev : ℕ → Bytes) (pos : ℕ) : List Bytes → ℕ → Bytes
  | [] => dev
  | buf :: bufs => writeFrom (Function.update dev pos buf) (pos + 1) bufs

theorem writeFrom_of_lt {pos b : ℕ} (bufs : List Bytes) (h : b < pos) :
    writeFrom dev pos bufs b = dev b := by
  induction bufs generalizing dev pos with
  | nil => rfl
  | cons buf bufs ih => rw [writeFrom, ih (by omega), Function.update_of_ne (by omega)]

theorem writeFrom_of_le {pos b : ℕ} (bufs : List Bytes)
    (h : pos + bufs.length ≤ b) : writeFrom dev pos bufs b = dev b := by
  induction bufs generalizing dev pos with
  | nil => rfl
  | cons buf bufs ih =>
    rw [List.length_cons] at h
    rw [writeFrom, ih (by omega), Function.update_of_ne (by omega)]

theorem writeFrom_add {pos i : ℕ} (bufs : List Bytes) (h : i < bufs.length) :
    writeFrom dev pos bufs (pos + i) = bufs[i] := by
  induction bufs generalizing dev pos i with
  | nil => simp at h
  | cons buf bufs ih =>
    rw [writeFrom]
    cases i with
    | zero => rw [writeFrom_of_lt _ (by omega), Nat.add_zero, Function.update_self]; rfl
    | succ i =>
      rw [show pos + (i + 1) = pos + 1 + i by omega, ih (by simpa using h)]
      rfl

theorem writeFrom_append {pos : ℕ} (as bs : List Bytes) :
    writeFrom dev pos (as ++ bs) = writeFrom (writeFrom dev pos as) (pos + as.length) bs := by
  induction as generalizing dev pos with
  | nil => rfl
  | cons buf as ih =>
    rw [List.cons_append, writeFrom, writeFrom, ih, List.length_cons, Nat.add_right_comm]
    rfl

namespace Fixed

variable {α : Type} (c : Fixed α) (per : ℕ)

/-- The values that go into block `i`. -/
def chunk (i : ℕ) (vs : List α) : List α := (vs.drop (i * per)).take per

/-- One block: its values and zeros up to the end. -/
def packBlock (vs : List α) : Bytes :=
  vs.flatMap c.put ++ List.replicate ((per - vs.length) * c.size) 0

def blocks (n : ℕ) : ℕ := (n + per - 1) / per

def pack (vs : List α) : List Bytes :=
  (List.range (blocks per vs.length)).map fun i => c.packBlock per (chunk per i vs)

/-- Read so many values from the blocks at `pos` on. -/
def unpack (dev : ℕ → Bytes) (pos n : ℕ) : List α :=
  (List.range (blocks per n)).flatMap fun i =>
    (List.range (min per (n - i * per))).map fun j => c.get ((dev (pos + i)).drop (j * c.size))

/-- The values stand in the blocks from `pos` on. -/
def Stored (dev : ℕ → Bytes) (pos : ℕ) (vs : List α) : Prop :=
  ∀ i, i * per < vs.length → dev (pos + i) = c.packBlock per (chunk per i vs)

variable {c per} {dev : ℕ → Bytes} {pos : ℕ} {vs : List α}

theorem lt_blocks (hper : 0 < per) {n i : ℕ} : i < blocks per n ↔ i * per < n := by
  rw [blocks, Nat.lt_div_iff_mul_lt hper]
  omega

theorem length_pack (vs : List α) : (c.pack per vs).length = blocks per vs.length := by
  rw [pack, List.length_map, List.length_range]

theorem pack_of_length_le (hvs : 0 < vs.length) (hle : vs.length ≤ per) :
    c.pack per vs = [c.packBlock per vs] := by
  have hone : blocks per vs.length = 1 := by
    rw [blocks, Nat.div_eq_of_lt_le] <;> omega
  rw [pack, hone, List.range_one, List.map_singleton, chunk, Nat.zero_mul, List.drop_zero,
    List.take_of_length_le hle]

theorem length_chunk (i : ℕ) (vs : List α) :
    (chunk per i vs).length = min per (vs.length - i * per) := by
  rw [chunk, List.length_take, List.length_drop]

theorem drop_flatMap_put (vs : List α) (j : ℕ) :
    (vs.flatMap c.put).drop (j * c.size) = (vs.drop j).flatMap c.put := by
  induction j generalizing vs with
  | zero => simp
  | succ j ih =>
    cases vs with
    | nil => simp
    | cons v vs =>
      rw [List.flatMap_cons, List.drop_succ_cons, ← ih vs, Nat.succ_mul, Nat.add_comm,
        ← List.drop_drop, ← c.length_put v, List.drop_left]

theorem length_flatMap_put (vs : List α) : (vs.flatMap c.put).length = vs.length * c.size := by
  induction vs with
  | nil => simp
  | cons v vs ih => rw [List.flatMap_cons, List.length_append, c.length_put, ih, List.length_cons,
      Nat.succ_mul, Nat.add_comm]

theorem map_get_packBlock (vs : List α) : (List.range vs.length).map
    (fun j => c.get ((c.packBlock per vs).drop (j * c.size))) = vs := by
  apply List.ext_getElem
  · simp
  · intro j hj hj'
    have hle : j * c.size ≤ (vs.flatMap c.put).length := by
      rw [length_flatMap_put]
      exact Nat.mul_le_mul_right _ hj'.le
    rw [List.getElem_map, List.getElem_range, packBlock, List.drop_append_of_le_length hle,
      drop_flatMap_put, List.drop_eq_getElem_cons hj', List.flatMap_cons, List.append_assoc,
      c.get_put]

theorem flatMap_chunk (vs : List α) (k : ℕ) :
    (List.range k).flatMap (fun i => chunk per i vs) = vs.take (k * per) := by
  induction k with
  | zero => simp
  | succ k ih =>
    rw [List.range_succ, List.flatMap_append, ih, List.flatMap_singleton, chunk, Nat.succ_mul,
      List.take_add]

theorem Stored.unpack (hper : 0 < per) (h : c.Stored per dev pos vs) :
    c.unpack per dev pos vs.length = vs := by
  have hread : c.unpack per dev pos vs.length =
      (List.range (blocks per vs.length)).flatMap fun i => chunk per i vs := by
    unfold Fixed.unpack
    apply List.flatMap_congr
    intro i hi
    rw [h i ((lt_blocks hper).mp (List.mem_range.mp hi)), ← length_chunk]
    exact map_get_packBlock _
  rw [hread, flatMap_chunk, List.take_of_length_le]
  by_contra hshort
  have := (lt_blocks (n := vs.length) (i := blocks per vs.length) hper).mpr (by omega)
  omega

theorem Stored.congr {dev' : ℕ → Bytes} (hper : 0 < per) (h : c.Stored per dev pos vs)
    (hsame : ∀ b, pos ≤ b → b < pos + blocks per vs.length → dev' b = dev b) :
    c.Stored per dev' pos vs := by
  intro i hi
  have := (lt_blocks hper).mpr hi
  rw [hsame _ (by omega) (by omega)]
  exact h i hi

theorem stored_writeFrom (hper : 0 < per) (dev : ℕ → Bytes) (pos : ℕ) (vs : List α) :
    c.Stored per (writeFrom dev pos (c.pack per vs)) pos vs := by
  intro i hi
  have hlt := (lt_blocks hper).mpr hi
  rw [writeFrom_add _ (by rw [length_pack]; exact hlt)]
  simp [pack]

/-- The new values where their block is packed anew, the old ones elsewhere. -/
def merge (per : ℕ) (anew : List ℕ) (old new : List α) (d : α) : List α :=
  new.mapIdx fun k v => if k / per ∈ anew then v else old.getD k d

theorem chunk_merge {anew : List ℕ} {old new : List α} {d : α} (hlen : old.length = new.length)
    (i : ℕ) : chunk per i (merge per anew old new d) =
      if i ∈ anew then chunk per i new else chunk per i old := by
  have hsize : (merge per anew old new d).length = new.length := List.length_mapIdx
  apply List.ext_getElem
  · split_ifs <;> simp [length_chunk, hsize, hlen]
  · intro j hj hj'
    rw [length_chunk, hsize] at hj
    have hblock : (i * per + j) / per = i := by
      rw [Nat.mul_comm, Nat.mul_add_div (by omega), Nat.div_eq_of_lt (by omega), Nat.add_zero]
    have hold : i * per + j < old.length := by omega
    simp only [chunk, merge, List.getElem_take, List.getElem_drop, List.getElem_mapIdx, hblock]
    split_ifs with hin
    · simp
    · simp [hold]

/-- Packing some blocks anew. -/
theorem Stored.merge {dev' : ℕ → Bytes} {anew : List ℕ} {old new : List α} {d : α}
    (hlen : old.length = new.length) (h : c.Stored per dev pos old)
    (hdev : ∀ i, i * per < new.length →
      dev' (pos + i) = if i ∈ anew then c.packBlock per (chunk per i new) else dev (pos + i)) :
    c.Stored per dev' pos (Fixed.merge per anew old new d) := by
  intro i hi
  rw [Fixed.merge, List.length_mapIdx] at hi
  rw [hdev i hi, chunk_merge hlen]
  split_ifs
  · rfl
  · exact h i (hi.trans_eq hlen.symm)

end Fixed

end Briefs.Lib
