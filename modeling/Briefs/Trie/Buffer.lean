import Briefs.Lib.Window
import Briefs.Trie.Page

/-!
# Trie pages in bytes

`triePageCompactNames` over the bytes of a page, with the header it is given and any
offsets and lengths in the slots. Names go through a scratch buffer: the first pass copies
them out in slot order and gives up at the first one that does not lie in the heap, the
second puts them back from the end of the page on.
-/

namespace Briefs.Trie.Buffer

open Lib Alloc

section Codec

def magicTriePage : ℕ := 0x54524E50

/-- `TriePage`, the header of a page. -/
structure Header where
  magic : UInt32
  version : UInt32
  liveCount : UInt16
  freeNameOff : UInt16
  freeSlots : Word
  deriving DecidableEq

namespace Header

def isFree (pg : Header) (slot : ℕ) : Bool := pg.freeSlots.getLsbD slot

/-- `TriePage.UnmarshalBinary`. -/
def decode (data : Bytes) : Header where
  magic := getUint32 data
  version := getUint32 (data.drop 4)
  liveCount := getUint16 (data.drop 8)
  freeNameOff := getUint16 (data.drop 10)
  freeSlots := (getUint64 (data.drop 12)).toBitVec

/-- `TriePage.MarshalBinary`. -/
def encode (pg : Header) : Bytes :=
  putUint32 pg.magic ++ putUint32 pg.version ++ putUint16 pg.liveCount ++
    putUint16 pg.freeNameOff ++ putUint64 (.ofBitVec pg.freeSlots)

end Header

def triePageHeaderSize : ℕ := 20
def trieSlotSize : ℕ := 36

def hex8 (n : ℕ) : String :=
  let digits := Nat.toDigits 16 n
  String.ofList (List.replicate (8 - digits.length) '0' ++ digits)

/-- `ReadTriePage`. -/
def readTriePage (buf : Bytes) : Except Err Header :=
  if buf.length < triePageHeaderSize then
    .error (.text s!"buffer too small for trie page header: {buf.length}")
  else
    let magic := (Header.decode buf).magic.toNat
    if magic ≠ magicTriePage then
      .error (.text s!"bad trie page magic 0x{hex8 magic} (expected 0x{hex8 magicTriePage})")
    else .ok (Header.decode buf)

/-- `TrieSlot.UnmarshalBinary`. -/
def decodeSlot (data : Bytes) : TrieSlot where
  firstChild := (getUint64 data).toNat
  nextSibling := (getUint64 (data.drop 8)).toNat
  inode := (getUint64 (data.drop 16)).toNat
  nameLen := (getUint16 (data.drop 24)).toNat
  nameOffset := (getUint16 (data.drop 26)).toNat
  depth := (data.getD 28 0).toNat
  nodeType := (data.getD 29 0).toNat
  byteVal := data.getD 30 0
  ftype := (data.getD 31 0).toNat
  flags := (getUint16 (data.drop 32)).toNat
  childCount := (getUint16 (data.drop 34)).toNat

/-- `TrieSlot.MarshalBinary`. -/
def encodeSlot (s : TrieSlot) : Bytes :=
  putUint64 (.ofNat s.firstChild) ++ (putUint64 (.ofNat s.nextSibling) ++
    (putUint64 (.ofNat s.inode) ++ (putUint16 (.ofNat s.nameLen) ++
      (putUint16 (.ofNat s.nameOffset) ++
        ([.ofNat s.depth, .ofNat s.nodeType, s.byteVal, .ofNat s.ftype] ++
          (putUint16 (.ofNat s.flags) ++ putUint16 (.ofNat s.childCount)))))))

/-- `SlotOffset`. -/
def slotOffset (slot : ℕ) : ℕ := triePageHeaderSize + slot * trieSlotSize

/-- `triePageDataEnd`. -/
def triePageDataEnd : ℕ := slotOffset trieSlotsPerBlock

/-- What the bytes of a slot say. -/
def slotAt (buf : Bytes) (slot : ℕ) : TrieSlot :=
  decodeSlot (window buf (slotOffset slot) trieSlotSize)

/-- `ReadTrieSlot`. -/
def readTrieSlot (buf : Bytes) (slot : ℕ) : Except Err TrieSlot :=
  if buf.length < slotOffset slot + trieSlotSize then
    .error (.text s!"slot {slot} out of range in {buf.length}-byte buffer")
  else .ok (slotAt buf slot)

/-- `WriteTrieSlot`. -/
def writeTrieSlot (buf : Bytes) (slot : ℕ) (s : TrieSlot) : Except Err Bytes :=
  if buf.length < slotOffset slot + trieSlotSize then
    .error (.text s!"slot {slot} out of range in {buf.length}-byte buffer")
  else .ok (copyAt buf (slotOffset slot) (encodeSlot s))

end Codec

section Compaction

/-- How a pass of the compaction ends early. -/
inductive Halt
  /-- An access out of range. -/
  | panicked
  /-- The call returns false, with these bytes in the page. -/
  | returned (buf : Bytes)
  deriving DecidableEq

/-- An access to `buf[lo:hi]`. -/
def access (buf : Bytes) (lo hi : ℤ) : Except Halt Bytes :=
  match slice buf lo hi with
  | none => .error .panicked
  | some bytes => .ok bytes

/-- `putSlot`, which panics on an error. -/
def putSlot (buf : Bytes) (slot : ℕ) (s : TrieSlot) : Except Halt Bytes :=
  match writeTrieSlot buf slot s with
  | .error _ => .error .panicked
  | .ok buf => .ok buf

def copyName (buf tmp : Bytes) (tmpUsed noff nlen : ℕ) : Except Halt Bytes := do
  let nameStart : ℤ := buf.length - noff
  let _ ← access tmp tmpUsed tmp.length
  let name ← access buf nameStart (nameStart + nlen)
  return copyAt tmp tmpUsed name

/-- Put a name back, `newOff` from the end of the page. -/
def packName (buf tmp : Bytes) (slot : ℕ) (n : TrieSlot) (tmpUsed newOff : ℕ) :
    Except Halt Bytes := do
  let buf ← putSlot buf slot { n with nameOffset := newOff }
  let nameStart : ℤ := buf.length - newOff
  let _ ← access buf nameStart buf.length
  let name ← access tmp tmpUsed ((tmpUsed + n.nameLen) % 2 ^ 16 : ℕ)
  return copyAt buf nameStart.toNat name

/-- The first pass of `triePageCompactNames`, over the slots left: the scratch buffer and
how much of it is used. -/
def copyNames (buf : Bytes) (pg : Header) : List ℕ → Bytes → ℕ → Except Halt Bytes
  | [], tmp, _ => .ok tmp
  | slot :: slots, tmp, tmpUsed =>
    if pg.isFree slot then copyNames buf pg slots tmp tmpUsed
    else
      match readTrieSlot buf slot with
      | .error _ => .error (.returned buf)
      | .ok n =>
        if n.nameOffset = 0 ∨ n.nameLen = 0 then copyNames buf pg slots tmp tmpUsed
        else if pg.freeNameOff.toNat < n.nameOffset ∨ n.nameOffset < n.nameLen ∨
            pg.freeNameOff.toNat < tmpUsed + n.nameLen then .error (.returned buf)
        else do
          let tmp ← copyName buf tmp tmpUsed n.nameOffset n.nameLen
          copyNames buf pg slots tmp ((tmpUsed + n.nameLen) % 2 ^ 16)

/-- The second pass: the bytes of the page, the used part of the scratch buffer and of the
heap. -/
def packNames (pg : Header) (tmp : Bytes) : List ℕ → Bytes → ℕ → ℕ → Except Halt (Bytes × ℕ)
  | [], buf, _, newOff => .ok (buf, newOff)
  | slot :: slots, buf, tmpUsed, newOff =>
    if pg.isFree slot then packNames pg tmp slots buf tmpUsed newOff
    else
      match readTrieSlot buf slot with
      | .error _ => .error (.returned buf)
      | .ok n =>
        if n.nameOffset = 0 ∨ n.nameLen = 0 then packNames pg tmp slots buf tmpUsed newOff
        else do
          let newOff := (newOff + n.nameLen) % 2 ^ 16
          let buf ← packName buf tmp slot n tmpUsed newOff
          packNames pg tmp slots buf ((tmpUsed + n.nameLen) % 2 ^ 16) newOff

/-- `triePageCompactNames`: whether the page was compacted, its bytes and its header; nothing
if an access is out of range. -/
def triePageCompactNames (buf : Bytes) (pg : Header) : Option (Bool × Bytes × Header) :=
  if pg.freeNameOff = 0 then some (false, buf, pg)
  else
    let compacted : Except Halt (Bytes × ℕ) := do
      let tmp ← copyNames buf pg (List.range trieSlotsPerBlock)
        (List.replicate pg.freeNameOff.toNat 0) 0
      packNames pg tmp (List.range trieSlotsPerBlock) buf 0 0
    match compacted with
    | .error .panicked => none
    | .error (.returned buf) => some (false, buf, pg)
    | .ok (buf, newOff) => some (true, buf, { pg with freeNameOff := .ofNat newOff })

end Compaction

section Slots

/-- Every field of a slot has a value that its bytes can hold. -/
structure Encodable (s : TrieSlot) : Prop where
  firstChild : s.firstChild < 2 ^ 64
  nextSibling : s.nextSibling < 2 ^ 64
  inode : s.inode < 2 ^ 64
  nameLen : s.nameLen < 2 ^ 16
  nameOffset : s.nameOffset < 2 ^ 16
  depth : s.depth < 2 ^ 8
  nodeType : s.nodeType < 2 ^ 8
  ftype : s.ftype < 2 ^ 8
  flags : s.flags < 2 ^ 16
  childCount : s.childCount < 2 ^ 16

theorem encodable_decodeSlot (data : Bytes) : Encodable (decodeSlot data) where
  firstChild := UInt64.toNat_lt _
  nextSibling := UInt64.toNat_lt _
  inode := UInt64.toNat_lt _
  nameLen := UInt16.toNat_lt _
  nameOffset := UInt16.toNat_lt _
  depth := UInt8.toNat_lt _
  nodeType := UInt8.toNat_lt _
  ftype := UInt8.toNat_lt _
  flags := UInt16.toNat_lt _
  childCount := UInt16.toNat_lt _

theorem length_encodeSlot (s : TrieSlot) : (encodeSlot s).length = trieSlotSize := rfl

theorem decodeSlot_encodeSlot {s : TrieSlot} (h : Encodable s) : decodeSlot (encodeSlot s) = s := by
  have hfirst : getUint64 (encodeSlot s) = .ofNat s.firstChild := getUint64_put_append _ _
  have hnext : getUint64 ((encodeSlot s).drop 8) = .ofNat s.nextSibling := getUint64_put_append _ _
  have hinode : getUint64 ((encodeSlot s).drop 16) = .ofNat s.inode := getUint64_put_append _ _
  have hlen : getUint16 ((encodeSlot s).drop 24) = .ofNat s.nameLen := getUint16_put_append _ _
  have hoff : getUint16 ((encodeSlot s).drop 26) = .ofNat s.nameOffset := getUint16_put_append _ _
  have hflags : getUint16 ((encodeSlot s).drop 32) = .ofNat s.flags := getUint16_put_append _ _
  have hcount : getUint16 ((encodeSlot s).drop 34) = .ofNat s.childCount :=
    getUint16_put_append _ []
  unfold decodeSlot
  rw [hfirst, hnext, hinode, hlen, hoff, hflags, hcount, UInt64.toNat_ofNat_of_lt' h.firstChild,
    UInt64.toNat_ofNat_of_lt' h.nextSibling, UInt64.toNat_ofNat_of_lt' h.inode,
    UInt16.toNat_ofNat_of_lt' h.nameLen, UInt16.toNat_ofNat_of_lt' h.nameOffset,
    UInt16.toNat_ofNat_of_lt' h.flags, UInt16.toNat_ofNat_of_lt' h.childCount]
  change TrieSlot.mk _ _ _ _ _ (UInt8.ofNat s.depth).toNat (UInt8.ofNat s.nodeType).toNat s.byteVal
    (UInt8.ofNat s.ftype).toNat _ _ = s
  rw [UInt8.toNat_ofNat_of_lt' h.depth, UInt8.toNat_ofNat_of_lt' h.nodeType,
    UInt8.toNat_ofNat_of_lt' h.ftype]

variable {buf src : Bytes} {slot j off : ℕ} {s : TrieSlot}

theorem slotOffset_le_dataEnd (h : slot < 64) : slotOffset slot + trieSlotSize ≤ triePageDataEnd := by
  unfold triePageDataEnd slotOffset trieSlotSize trieSlotsPerBlock
  omega

theorem slotOffset_apart (h : slot ≠ j) :
    slotOffset slot + trieSlotSize ≤ slotOffset j ∨ slotOffset j + trieSlotSize ≤ slotOffset slot := by
  unfold slotOffset trieSlotSize
  omega

theorem slotAt_write (hs : Encodable s) (hslot : slotOffset slot + trieSlotSize ≤ buf.length) :
    slotAt (copyAt buf (slotOffset slot) (encodeSlot s)) slot = s := by
  have hself := window_copyAt_self buf (encodeSlot s) (slotOffset slot) hslot
  rw [length_encodeSlot] at hself
  rw [slotAt, hself, decodeSlot_encodeSlot hs]

end Slots

section Stored

/-- Where the name of a live slot is stored, if it has one: how far from the end of the page and
how long. -/
def stored (buf : Bytes) (pg : Header) (slot : ℕ) : Option (ℕ × ℕ) :=
  if pg.isFree slot then none
  else if (slotAt buf slot).nameOffset = 0 ∨ (slotAt buf slot).nameLen = 0 then none
  else some ((slotAt buf slot).nameOffset, (slotAt buf slot).nameLen)

def size (buf : Bytes) (pg : Header) (slot : ℕ) : ℕ := ((stored buf pg slot).getD (0, 0)).2

def total (buf : Bytes) (pg : Header) (slots : List ℕ) : ℕ := (slots.map (size buf pg)).sum

def nameAt (buf : Bytes) (pg : Header) (slot : ℕ) : Bytes :=
  match stored buf pg slot with
  | none => []
  | some (noff, nlen) => window buf (buf.length - noff) nlen

variable {buf buf' tmp : Bytes} {pg : Header} {slot noff nlen off used : ℕ} {slots : List ℕ}

theorem stored_eq_some (h : stored buf pg slot = some (noff, nlen)) :
    pg.isFree slot = false ∧ noff ≠ 0 ∧ nlen ≠ 0 ∧ (slotAt buf slot).nameOffset = noff ∧
      (slotAt buf slot).nameLen = nlen := by
  unfold stored at h
  split_ifs at h with hfree hnone
  obtain ⟨rfl, rfl⟩ := Prod.mk.inj (Option.some.inj h)
  exact ⟨by simpa using hfree, fun h0 => hnone (.inl h0), fun h0 => hnone (.inr h0), rfl, rfl⟩

theorem size_of_none (h : stored buf pg slot = none) : size buf pg slot = 0 := by
  rw [size, h]
  rfl

theorem size_of_some (h : stored buf pg slot = some (noff, nlen)) : size buf pg slot = nlen := by
  rw [size, h]
  rfl

@[simp] theorem total_nil : total buf pg [] = 0 := rfl

@[simp] theorem total_cons : total buf pg (slot :: slots) = size buf pg slot + total buf pg slots :=
  List.sum_cons

theorem stored_congr (h : slotAt buf' slot = slotAt buf slot) :
    stored buf' pg slot = stored buf pg slot := by
  unfold stored
  rw [h]

theorem stored_header (pg : Header) {pg' : Header} (h : pg'.freeSlots = pg.freeSlots) :
    stored buf pg' slot = stored buf pg slot := by
  unfold stored Header.isFree
  rw [h]

theorem size_congr (h : slotAt buf' slot = slotAt buf slot) : size buf' pg slot = size buf pg slot := by
  rw [size, stored_congr h, size]

theorem total_congr (pg : Header) (h : ∀ i ∈ slots, slotAt buf' i = slotAt buf i) :
    total buf' pg slots = total buf pg slots := by
  rw [total, List.map_congr_left fun i hi => size_congr (h i hi), total]

end Stored

section CopyNames

variable {buf buf' tmp tmp' : Bytes} {pg : Header} {slot noff nlen used : ℕ} {slots : List ℕ}
variable {α β : Type} {R : Bytes → Prop} {P : α → Prop} {Q : β → Prop}

theorem copyNames_cons (hread : pg.isFree slot = false → slotOffset slot + trieSlotSize ≤ buf.length) :
    copyNames buf pg (slot :: slots) tmp used =
      match stored buf pg slot with
      | none => copyNames buf pg slots tmp used
      | some (noff, nlen) =>
        if pg.freeNameOff.toNat < noff ∨ noff < nlen ∨ pg.freeNameOff.toNat < used + nlen then
          .error (.returned buf)
        else (copyName buf tmp used noff nlen).bind fun tmp =>
          copyNames buf pg slots tmp ((used + nlen) % 2 ^ 16) := by
  rw [copyNames, stored]
  cases hfree : pg.isFree slot with
  | true => simp
  | false =>
    rw [if_neg (by simp), if_neg (by simp), readTrieSlot, if_neg (Nat.not_lt.mpr (hread hfree))]
    by_cases hnone : (slotAt buf slot).nameOffset = 0 ∨ (slotAt buf slot).nameLen = 0
    · simp only [if_pos hnone]
    · simp only [if_neg hnone]
      rfl

/-- What a pass may end with: `R` of the bytes it leaves when it gives up, `P` of its result. -/
def Ends (R : Bytes → Prop) (P : α → Prop) : Except Halt α → Prop
  | .error .panicked => True
  | .error (.returned buf) => R buf
  | .ok a => P a

theorem Ends.bind {x : Except Halt α} {f : α → Except Halt β} (hx : Ends R P x)
    (hf : ∀ a, P a → Ends R Q (f a)) : Ends R Q (x >>= f) := by
  rcases x with (_ | buf) | a
  · trivial
  · exact hx
  · exact hf a hx

theorem ends_access (lo hi : ℤ) : Ends R (fun _ => True) (access buf lo hi) := by
  unfold access
  split <;> trivial

theorem ends_copyName : Ends R (fun _ => True) (copyName buf tmp used noff nlen) :=
  (ends_access _ _).bind fun _ _ => (ends_access _ _).bind fun _ _ => trivial

/-- The first pass gives up without a change, or it has read the slots that are live. -/
theorem ends_copyNames : Ends (· = buf)
    (fun _ => ∀ i ∈ slots, pg.isFree i = false → slotOffset i + trieSlotSize ≤ buf.length)
    (copyNames buf pg slots tmp used) := by
  induction slots generalizing tmp used with
  | nil => exact fun _ hi => absurd hi List.not_mem_nil
  | cons slot slots ih =>
    by_cases hread : pg.isFree slot = false → slotOffset slot + trieSlotSize ≤ buf.length
    · simp only [List.forall_mem_cons, and_iff_right hread]
      rw [copyNames_cons hread]
      split
      · exact ih
      · split_ifs
        · rfl
        · exact ends_copyName.bind fun _ _ => ih
    · obtain ⟨hfree, hshort⟩ := Classical.not_imp.mp hread
      rw [copyNames, hfree, if_neg (by simp), readTrieSlot, if_pos (Nat.not_le.mp hshort)]
      rfl

theorem access_eq {buf : Bytes} {off len : ℕ} (h : off + len ≤ buf.length) :
    access buf off ((off : ℤ) + len) = .ok (window buf off len) := by
  rw [access, slice_eq h]

theorem copyName_eq (hused : used ≤ tmp.length) (hoff : noff ≤ buf.length) (hlen : nlen ≤ noff) :
    copyName buf tmp used noff nlen =
      .ok (copyAt tmp used (window buf (buf.length - noff) nlen)) := by
  have htmp : ((used : ℤ) + (tmp.length - used : ℕ)) = tmp.length := by omega
  have hbuf : ((buf.length - noff : ℕ) : ℤ) = buf.length - noff := by omega
  unfold copyName
  dsimp only
  rw [← htmp, access_eq (by omega), ← hbuf, access_eq (by omega)]
  rfl

/-- What the first pass leaves in the scratch buffer. -/
structure Copied (buf : Bytes) (pg : Header) (slots : List ℕ) (tmp : Bytes) (used : ℕ)
    (tmp' : Bytes) : Prop where
  length : tmp'.length = tmp.length
  before : window tmp' 0 used = window tmp 0 used
  names : window tmp' used (total buf pg slots) = slots.flatMap (nameAt buf pg)
  fits : used + total buf pg slots ≤ pg.freeNameOff.toNat
  inside : ∀ i ∈ slots, ∀ noff nlen, stored buf pg i = some (noff, nlen) →
    noff ≤ pg.freeNameOff.toNat ∧ nlen ≤ noff

/-- The names of the slots lie in the used part of the heap, which is not too small for them. -/
def Placed (buf : Bytes) (pg : Header) (slots : List ℕ) (used : ℕ) : Prop :=
  (∀ i ∈ slots, pg.isFree i = false → slotOffset i + trieSlotSize ≤ buf.length) ∧
    (∀ i ∈ slots, ∀ noff nlen, stored buf pg i = some (noff, nlen) →
      noff ≤ pg.freeNameOff.toNat ∧ nlen ≤ noff) ∧
    used + total buf pg slots ≤ pg.freeNameOff.toNat

theorem Placed.tail (h : Placed buf pg (slot :: slots) used) :
    Placed buf pg slots (used + size buf pg slot) := by
  refine ⟨fun i hi => h.1 i (List.mem_cons_of_mem _ hi),
    fun i hi => h.2.1 i (List.mem_cons_of_mem _ hi), ?_⟩
  rw [Nat.add_assoc, ← total_cons]
  exact h.2.2

/-- The first pass copies the names, or it gives up because of one. -/
theorem copyNames_cases (tmp : Bytes) (hin : ∀ i ∈ slots, ∀ noff nlen, stored buf pg i = some (noff, nlen) →
      noff ≤ pg.freeNameOff.toNat → noff ≤ buf.length)
    (htmp : tmp.length = pg.freeNameOff.toNat) (hused : used ≤ pg.freeNameOff.toNat) :
    (copyNames buf pg slots tmp used = .error (.returned buf) ∧ ¬ Placed buf pg slots used) ∨
      ∃ tmp', copyNames buf pg slots tmp used = .ok tmp' ∧ Copied buf pg slots tmp used tmp' := by
  induction slots generalizing tmp used with
  | nil => exact .inr ⟨tmp, rfl, rfl, rfl, by simp [window], by simpa using hused, by simp⟩
  | cons slot slots ih =>
    have hin' := fun i hi => hin i (List.mem_cons_of_mem _ hi)
    by_cases hread : pg.isFree slot = false → slotOffset slot + trieSlotSize ≤ buf.length
    · rw [copyNames_cons hread]
      cases hstored : stored buf pg slot with
      | none =>
        have hsize := size_of_none hstored
        rcases ih _ hin' htmp hused with ⟨hreturned, hnot⟩ | ⟨tmp', hok, hcopied⟩
        · refine .inl ⟨hreturned, fun hplaced => hnot ?_⟩
          simpa only [hsize, Nat.add_zero] using hplaced.tail
        · refine .inr ⟨tmp', hok, hcopied.length, hcopied.before, ?_, ?_,
            List.forall_mem_cons.mpr ⟨by simp [hstored], hcopied.inside⟩⟩
          · rw [total_cons, hsize, Nat.zero_add, List.flatMap_cons, hcopied.names, nameAt, hstored]
            rfl
          · simpa [hsize] using hcopied.fits
      | some name =>
        obtain ⟨noff, nlen⟩ := name
        have hsize := size_of_some hstored
        dsimp only
        by_cases hbad : pg.freeNameOff.toNat < noff ∨ noff < nlen ∨ pg.freeNameOff.toNat < used + nlen
        · rw [if_pos hbad]
          refine .inl ⟨rfl, fun hplaced => ?_⟩
          have hname := hplaced.2.1 slot List.mem_cons_self noff nlen hstored
          have htotal := hplaced.2.2
          rw [total_cons, hsize] at htotal
          omega
        · have hfree := UInt16.toNat_lt pg.freeNameOff
          have hoff : noff ≤ buf.length := hin slot List.mem_cons_self noff nlen hstored (by omega)
          rw [if_neg hbad, copyName_eq (by omega) hoff (by omega), Nat.mod_eq_of_lt (by omega)]
          have hlength : (window buf (buf.length - noff) nlen).length = nlen :=
            length_window (by omega)
          have htmp' : (copyAt tmp used (window buf (buf.length - noff) nlen)).length = tmp.length :=
            length_copyAt_of_le (by omega)
          have hself : window (copyAt tmp used (window buf (buf.length - noff) nlen)) used nlen =
              window buf (buf.length - noff) nlen := by
            have := window_copyAt_self tmp (window buf (buf.length - noff) nlen) used (by omega)
            rwa [hlength] at this
          rcases ih _ hin' (htmp'.trans htmp) (show used + nlen ≤ _ by omega) with
            ⟨hreturned, hnot⟩ | ⟨tmp', hok, hcopied⟩
          · exact .inl ⟨hreturned, fun hplaced => hnot (hsize ▸ hplaced.tail)⟩
          · refine .inr ⟨tmp', hok, hcopied.length.trans htmp', ?_, ?_, ?_,
              List.forall_mem_cons.mpr ⟨fun noff' nlen' heq => ?_, hcopied.inside⟩⟩
            · have hbefore := congrArg (fun b => window b 0 used) hcopied.before
              simp only [window_window (show 0 + used ≤ used + nlen by omega), Nat.zero_add] at hbefore
              rw [hbefore]
              exact window_copyAt_of_disjoint (by omega) (.inl (by omega))
            · have hbefore := congrArg (fun b => window b used nlen) hcopied.before
              simp only [window_window (le_refl (used + nlen)), Nat.zero_add] at hbefore
              rw [total_cons, hsize, window_add, hbefore, hself, hcopied.names, List.flatMap_cons,
                nameAt, hstored]
            · have := hcopied.fits
              rw [total_cons, hsize]
              omega
            · obtain ⟨rfl, rfl⟩ := Prod.mk.inj (Option.some.inj (hstored.symm.trans heq))
              omega
    · obtain ⟨hfree, hshort⟩ := Classical.not_imp.mp hread
      refine .inl ⟨?_, fun hplaced => hread (hplaced.1 slot List.mem_cons_self)⟩
      rw [copyNames, hfree, if_neg (by simp), readTrieSlot, if_pos (Nat.not_le.mp hshort)]

end CopyNames

section PackNames

variable {buf buf' tmp r : Bytes} {pg : Header} {slot noff nlen off used newOff : ℕ} {slots : List ℕ}
  {R : Bytes → Prop}

theorem packNames_cons (hread : pg.isFree slot = false → slotOffset slot + trieSlotSize ≤ buf.length) :
    packNames pg tmp (slot :: slots) buf used newOff =
      match stored buf pg slot with
      | none => packNames pg tmp slots buf used newOff
      | some (_, nlen) =>
        (packName buf tmp slot (slotAt buf slot) used ((newOff + nlen) % 2 ^ 16)).bind fun buf =>
          packNames pg tmp slots buf ((used + nlen) % 2 ^ 16) ((newOff + nlen) % 2 ^ 16) := by
  rw [packNames, stored]
  cases hfree : pg.isFree slot with
  | true => simp
  | false =>
    rw [if_neg (by simp), if_neg (by simp), readTrieSlot, if_neg (Nat.not_lt.mpr (hread hfree))]
    by_cases hnone : (slotAt buf slot).nameOffset = 0 ∨ (slotAt buf slot).nameLen = 0
    · simp only [if_pos hnone]
    · simp only [if_neg hnone]
      rfl

theorem ends_packName {s : TrieSlot} :
    Ends R (fun r => r.length = buf.length) (packName buf tmp slot s used newOff) := by
  unfold packName putSlot writeTrieSlot
  split_ifs with hshort
  · trivial
  · generalize hq : copyAt buf (slotOffset slot) _ = q
    have hput : q.length = buf.length := by rw [← hq, length_copyAt_of_le (by omega)]
    change Ends R _ (access q _ _ >>= _)
    unfold access slice
    split_ifs
    · exact (length_copyAt_of_le (by omega)).trans hput
    all_goals trivial

/-- The second pass does not give up: the first one has read the slots. -/
theorem ends_packNames
    (hread : ∀ i ∈ slots, pg.isFree i = false → slotOffset i + trieSlotSize ≤ buf.length) :
    Ends R (fun _ => True) (packNames pg tmp slots buf used newOff) := by
  induction slots generalizing buf used newOff with
  | nil => trivial
  | cons slot slots ih =>
    obtain ⟨hslot, hslots⟩ := List.forall_mem_cons.mp hread
    rw [packNames_cons hslot]
    split
    · exact ih hslots
    · exact ends_packName.bind fun q hlength => ih fun i hi hfree => hlength ▸ hslots i hi hfree

theorem packName_eq (buf tmp : Bytes) (s : TrieSlot) (used : ℕ) (hslot : slot < 64)
    (hheap : triePageDataEnd + newOff ≤ buf.length)
    (hlen : s.nameLen ≤ newOff) (hused : used + s.nameLen ≤ tmp.length)
    (hmax : used + s.nameLen < 2 ^ 16) :
    packName buf tmp slot s used newOff =
      .ok (copyAt (copyAt buf (slotOffset slot) (encodeSlot { s with nameOffset := newOff }))
        (buf.length - newOff) (window tmp used s.nameLen)) := by
  have hoffset := slotOffset_le_dataEnd hslot
  have hput : (copyAt buf (slotOffset slot) (encodeSlot { s with nameOffset := newOff })).length =
      buf.length := length_copyAt_of_le (by omega)
  unfold packName putSlot writeTrieSlot
  rw [if_neg (by omega)]
  generalize copyAt buf (slotOffset slot) (encodeSlot { s with nameOffset := newOff }) = q at hput ⊢
  have hstart : ((q.length : ℤ) - newOff) = (buf.length - newOff : ℕ) := by omega
  have hend : (q.length : ℤ) = (buf.length - newOff : ℕ) + (newOff : ℕ) := by omega
  have hname : (((used + s.nameLen) % 2 ^ 16 : ℕ) : ℤ) = (used : ℤ) + s.nameLen := by
    rw [Nat.mod_eq_of_lt hmax]
    omega
  change (access q (q.length - newOff) q.length >>= fun _ => access tmp used _ >>= fun name =>
    pure (copyAt q ((q.length : ℤ) - newOff).toNat name)) = _
  rw [hstart, hname, hend, access_eq (by omega), access_eq hused, Int.toNat_natCast]
  rfl

/-- What the second pass makes of the page when the slots left have the names `name`. -/
structure Packed (buf : Bytes) (pg : Header) (name : ℕ → Bytes) (slots : List ℕ) (off : ℕ)
    (r : Bytes) : Prop where
  length : r.length = buf.length
  others : ∀ j, j < 64 → j ∉ slots ∨ stored buf pg j = none →
    window r (slotOffset j) trieSlotSize = window buf (slotOffset j) trieSlotSize
  named : ∀ a i b, slots = a ++ i :: b → (stored buf pg i).isSome →
    slotAt r i = { slotAt buf i with nameOffset := off + total buf pg a + size buf pg i } ∧
    window r (buf.length - (off + total buf pg a + size buf pg i)) (size buf pg i) = name i
  below : ∀ noff nlen, noff ≤ off → nlen ≤ noff →
    window r (buf.length - noff) nlen = window buf (buf.length - noff) nlen

/-- A name that was put back, `newOff` from the end of the page. -/
structure PutBack (buf : Bytes) (slot newOff : ℕ) (bytes r : Bytes) : Prop where
  length : r.length = buf.length
  others : ∀ j, j < 64 → j ≠ slot →
    window r (slotOffset j) trieSlotSize = window buf (slotOffset j) trieSlotSize
  self : slotAt r slot = { slotAt buf slot with nameOffset := newOff }
  name : window r (buf.length - newOff) bytes.length = bytes
  below : ∀ noff nlen, noff + bytes.length ≤ newOff → nlen ≤ noff →
    window r (buf.length - noff) nlen = window buf (buf.length - noff) nlen

theorem putBack (buf bytes : Bytes) (hslot : slot < 64)
    (hheap : triePageDataEnd + newOff ≤ buf.length)
    (hlen : bytes.length ≤ newOff) (hmax : newOff < 2 ^ 16) :
    PutBack buf slot newOff bytes
      (copyAt (copyAt buf (slotOffset slot) (encodeSlot { slotAt buf slot with nameOffset := newOff }))
        (buf.length - newOff) bytes) := by
  have hoffset := slotOffset_le_dataEnd hslot
  have henc : Encodable { slotAt buf slot with nameOffset := newOff } :=
    { encodable_decodeSlot _ with nameOffset := hmax }
  have hself := slotAt_write henc (show slotOffset slot + trieSlotSize ≤ buf.length by omega)
  have hlength := length_encodeSlot { slotAt buf slot with nameOffset := newOff }
  generalize encodeSlot { slotAt buf slot with nameOffset := newOff } = enc at hself hlength ⊢
  have hput : (copyAt buf (slotOffset slot) enc).length = buf.length := length_copyAt_of_le (by omega)
  have hcopy : buf.length - newOff + bytes.length ≤ (copyAt buf (slotOffset slot) enc).length := by
    omega
  refine ⟨by rw [length_copyAt_of_le (by omega), hput], fun j hj hne => ?_, ?_, ?_, ?_⟩
  · have hjend := slotOffset_le_dataEnd hj
    have hapart := slotOffset_apart hne
    rw [window_copyAt_of_disjoint hcopy (by omega), window_copyAt_of_disjoint (by omega) (by omega)]
  · rw [slotAt, window_copyAt_of_disjoint hcopy (by omega)]
    exact hself
  · exact window_copyAt_self _ _ _ hcopy
  · intro noff nlen hbelow hnlen
    rw [window_copyAt_of_disjoint hcopy (by omega), window_copyAt_of_disjoint (by omega) (by omega)]

theorem slotAt_congr {j : ℕ} (h : window buf' (slotOffset j) trieSlotSize =
    window buf (slotOffset j) trieSlotSize) : slotAt buf' j = slotAt buf j := by
  rw [slotAt, h, slotAt]

theorem Packed.cons_none {name : ℕ → Bytes} (h : Packed buf pg name slots off r)
    (hstored : stored buf pg slot = none) : Packed buf pg name (slot :: slots) off r where
  length := h.length
  others j hj hnot := h.others j hj (hnot.imp (fun hnot hmem => hnot (List.mem_cons_of_mem _ hmem)) id)
  named a i b hsplit hi := by
    cases a with
    | nil =>
      obtain ⟨rfl, -⟩ := List.cons.inj hsplit
      rw [hstored] at hi
      cases hi
    | cons c a =>
      obtain ⟨rfl, hrest⟩ := List.cons.inj hsplit
      rw [total_cons, size_of_none hstored, Nat.zero_add]
      exact h.named a i b hrest hi
  below := h.below

theorem Packed.cons_some {name : ℕ → Bytes} {q : Bytes} (hnodup : (slot :: slots).Nodup)
    (hlt : ∀ i ∈ slots, i < 64) (hslot : slot < 64)
    (hstored : (stored buf pg slot).isSome)
    (hq : PutBack buf slot (off + size buf pg slot) (name slot) q)
    (hsize : (name slot).length = size buf pg slot)
    (h : Packed q pg name slots (off + size buf pg slot) r) :
    Packed buf pg name (slot :: slots) off r := by
  obtain ⟨hnotin, -⟩ := List.nodup_cons.mp hnodup
  have hsame : ∀ i, i < 64 → i ≠ slot → slotAt q i = slotAt buf i := fun i hi hne =>
    slotAt_congr (hq.others i hi hne)
  have hne : ∀ i ∈ slots, i ≠ slot := fun i hi heq => hnotin (heq ▸ hi)
  refine ⟨h.length.trans hq.length, fun j hj hnot => ?_, fun a i b hsplit hi => ?_,
    fun noff nlen hnoff hnlen => ?_⟩
  · have hjs : j ≠ slot := by
      rintro rfl
      rcases hnot with hnot | hnone
      · exact hnot List.mem_cons_self
      · rw [hnone] at hstored
        cases hstored
    refine (h.others j hj ?_).trans (hq.others j hj hjs)
    rw [stored_congr (hsame j hj hjs)]
    exact hnot.imp (fun hnot hmem => hnot (List.mem_cons_of_mem _ hmem)) id
  · cases a with
    | nil =>
      obtain ⟨rfl, rfl⟩ := List.cons.inj hsplit
      have hbelow := h.below (off + size buf pg slot) (size buf pg slot) le_rfl (Nat.le_add_left _ _)
      rw [total_nil, Nat.add_zero, slotAt_congr (h.others slot hslot (.inl hnotin)), hq.self]
      rw [hq.length] at hbelow
      exact ⟨rfl, hbelow.trans (hsize ▸ hq.name)⟩
    | cons c a =>
      obtain ⟨rfl, hrest⟩ := List.cons.inj hsplit
      have hmem : i ∈ slots := by simp [hrest]
      have hi' := hsame i (hlt i hmem) (hne i hmem)
      have htotal : total q pg a = total buf pg a := total_congr pg fun k hk =>
        have hk : k ∈ slots := by simp [hrest, hk]
        hsame k (hlt k hk) (hne k hk)
      have hnamed := h.named a i b hrest (by rw [stored_congr hi']; exact hi)
      rw [hi', htotal, size_congr hi', hq.length] at hnamed
      rw [total_cons, ← Nat.add_assoc]
      exact hnamed
  · have hbelow := h.below noff nlen (by omega) hnlen
    rw [hq.length] at hbelow
    exact hbelow.trans (hq.below noff nlen (by omega) hnlen)

theorem packNames_spec (off : ℕ) (name : ℕ → Bytes) (hnodup : slots.Nodup) (hlt : ∀ i ∈ slots, i < 64)
    (hheap : triePageDataEnd + (off + total buf pg slots) ≤ buf.length)
    (hmax : off + total buf pg slots < 2 ^ 16) (htmp : off + total buf pg slots ≤ tmp.length)
    (hsize : ∀ i ∈ slots, (name i).length = size buf pg i)
    (hnames : window tmp off (total buf pg slots) = slots.flatMap name) :
    ∃ r, packNames pg tmp slots buf off off = .ok (r, off + total buf pg slots) ∧
      Packed buf pg name slots off r := by
  induction slots generalizing buf off with
  | nil => exact ⟨buf, rfl, rfl, fun _ _ _ => rfl, by simp, fun _ _ _ _ => rfl⟩
  | cons slot slots ih =>
    obtain ⟨hslot, hslots⟩ := List.forall_mem_cons.mp hlt
    obtain ⟨hsizeSlot, hsizes⟩ := List.forall_mem_cons.mp hsize
    obtain ⟨hnotin, hrest⟩ := List.nodup_cons.mp hnodup
    have hend := slotOffset_le_dataEnd hslot
    rw [total_cons] at hheap hmax htmp hnames ⊢
    rw [packNames_cons fun _ => by omega]
    rw [window_add, List.flatMap_cons] at hnames
    obtain ⟨hfirst, hnames⟩ := List.append_inj hnames
      (by rw [length_window (by omega), hsizeSlot])
    cases hstored : stored buf pg slot with
    | none =>
      rw [size_of_none hstored] at hnames
      rw [size_of_none hstored, Nat.zero_add] at hheap hmax htmp ⊢
      obtain ⟨r, hr, hpacked⟩ := ih _ hrest hslots hheap hmax htmp hsizes hnames
      exact ⟨r, hr, hpacked.cons_none hstored⟩
    | some place =>
      obtain ⟨noff, nlen⟩ := place
      obtain ⟨-, -, -, -, hnlen⟩ := stored_eq_some hstored
      have hsizeEq := size_of_some hstored
      rw [← hsizeEq] at hnlen ⊢
      dsimp only
      have hpack := packName_eq buf tmp (slotAt buf slot) off hslot
        (show triePageDataEnd + (off + size buf pg slot) ≤ _ by omega) (by omega) (by omega) (by omega)
      rw [show window tmp off (slotAt buf slot).nameLen = name slot by rw [hnlen, hfirst]] at hpack
      have hq := putBack buf (name slot) hslot
        (show triePageDataEnd + (off + size buf pg slot) ≤ _ by omega) (by omega) (by omega)
      generalize copyAt _ (buf.length - (off + size buf pg slot)) (name slot) = q at hq hpack
      rw [Nat.mod_eq_of_lt (by omega), hpack]
      have hsame : ∀ i ∈ slots, slotAt q i = slotAt buf i := fun i hi =>
        slotAt_congr (hq.others i (hslots i hi) fun heq => hnotin (heq ▸ hi))
      have htotal := total_congr pg hsame
      rw [← Nat.add_assoc off, ← htotal] at hheap hmax htmp ⊢
      obtain ⟨r, hr, hpacked⟩ := ih _ hrest hslots
        (show _ ≤ q.length from hq.length.symm ▸ hheap) hmax htmp
        (fun i hi => by rw [hsizes i hi, size_congr (hsame i hi)]) (by rw [htotal]; exact hnames)
      exact ⟨r, hr, hpacked.cons_some hnodup hslots hslot (by rw [hstored]; rfl) hq hsizeSlot⟩

end PackNames

section Whole

variable {buf buf' : Bytes} {pg pg' : Header}

theorem length_nameAt {i noff nlen : ℕ} (hi : stored buf pg i = some (noff, nlen))
    (hoff : noff ≤ buf.length) (hlen : nlen ≤ noff) : (nameAt buf pg i).length = size buf pg i := by
  rw [nameAt, hi, size_of_some hi]
  exact length_window (by omega)

/-- A compaction whose accesses are in range. -/
theorem triePageCompactNames_cases (buf : Bytes) (pg : Header)
    (hin : ∀ i < 64, ∀ noff nlen, stored buf pg i = some (noff, nlen) →
      noff ≤ pg.freeNameOff.toNat → noff ≤ buf.length)
    (htotal : total buf pg (List.range 64) ≤ pg.freeNameOff.toNat →
      triePageDataEnd + total buf pg (List.range 64) ≤ buf.length) :
    (triePageCompactNames buf pg = some (false, buf, pg) ∧
      (pg.freeNameOff = 0 ∨ ¬ Placed buf pg (List.range 64) 0)) ∨
    ∃ r, triePageCompactNames buf pg =
        some (true, r, { pg with freeNameOff := .ofNat (total buf pg (List.range 64)) }) ∧
      total buf pg (List.range 64) ≤ pg.freeNameOff.toNat ∧
      Packed buf pg (nameAt buf pg) (List.range 64) 0 r := by
  unfold triePageCompactNames
  by_cases hzero : pg.freeNameOff = 0
  · exact .inl ⟨if_pos hzero, .inl hzero⟩
  · rw [if_neg hzero]
    have hin' : ∀ i ∈ List.range 64, ∀ noff nlen, stored buf pg i = some (noff, nlen) →
        noff ≤ pg.freeNameOff.toNat → noff ≤ buf.length := fun i hi =>
      hin i (List.mem_range.mp hi)
    rcases copyNames_cases (List.replicate pg.freeNameOff.toNat 0) hin'
      List.length_replicate (Nat.zero_le _) with ⟨hreturned, hnot⟩ | ⟨tmp, hok, hcopied⟩
    · left
      rw [show trieSlotsPerBlock = 64 from rfl, hreturned]
      exact ⟨rfl, .inr hnot⟩
    · have hfits : total buf pg (List.range 64) ≤ pg.freeNameOff.toNat := by
        simpa using hcopied.fits
      have hfree := UInt16.toNat_lt pg.freeNameOff
      have hlength : tmp.length = pg.freeNameOff.toNat := hcopied.length.trans List.length_replicate
      have hsizes : ∀ i ∈ List.range 64, (nameAt buf pg i).length = size buf pg i := by
        intro i hi
        cases hstored : stored buf pg i with
        | none => rw [nameAt, hstored, size_of_none hstored]; rfl
        | some place =>
          obtain ⟨noff, nlen⟩ := place
          have hplace := hcopied.inside i hi noff nlen hstored
          exact length_nameAt hstored (hin' i hi noff nlen hstored hplace.1) hplace.2
      obtain ⟨r, hr, hpacked⟩ := packNames_spec 0 (nameAt buf pg) List.nodup_range
        (fun i hi => List.mem_range.mp hi) (by rw [Nat.zero_add]; exact htotal hfits)
        (by omega) (by omega) hsizes hcopied.names
      refine .inr ⟨r, ?_, hfits, hpacked⟩
      rw [show trieSlotsPerBlock = 64 from rfl, hok]
      change (match packNames pg tmp (List.range 64) buf 0 0 with
        | .error .panicked => none
        | .error (.returned buf) => some (false, buf, pg)
        | .ok (buf, newOff) => some (true, buf, { pg with freeNameOff := .ofNat newOff })) = _
      rw [hr, Nat.zero_add]

/-- A call that returns false has changed nothing. -/
theorem eq_of_not_compacted (h : triePageCompactNames buf pg = some (false, buf', pg')) :
    buf' = buf ∧ pg' = pg := by
  have hends : Ends (· = buf) (fun _ => True) (copyNames buf pg (List.range trieSlotsPerBlock)
      (List.replicate pg.freeNameOff.toNat 0) 0 >>= fun tmp =>
        packNames pg tmp (List.range trieSlotsPerBlock) buf 0 0) :=
    ends_copyNames.bind fun _ hread => ends_packNames hread
  unfold triePageCompactNames at h
  generalize (copyNames buf pg _ _ 0 >>= _) = x at h hends
  split_ifs at h with hzero
  · cases h
    exact ⟨rfl, rfl⟩
  · rcases x with (_ | q) | q
    · cases h
    · cases h
      exact ⟨hends, rfl⟩
    · cases h

/-- The names of the live slots lie in the heap, apart from each other. -/
structure Apart (buf : Bytes) (pg : Header) : Prop where
  page : triePageDataEnd ≤ buf.length
  inside : ∀ i < 64, ∀ noff nlen, stored buf pg i = some (noff, nlen) →
    nlen ≤ noff ∧ noff ≤ pg.freeNameOff.toNat ∧ triePageDataEnd + noff ≤ buf.length
  apart : ∀ i < 64, ∀ j < 64, i ≠ j → ∀ noff nlen noff' nlen',
    stored buf pg i = some (noff, nlen) → stored buf pg j = some (noff', nlen') →
      noff + nlen' ≤ noff' ∨ noff' + nlen ≤ noff

/-- The bytes of the heap that the name of a slot takes, counted from the end. -/
def part (buf : Bytes) (pg : Header) (i : ℕ) : Finset ℕ :=
  match stored buf pg i with
  | none => ∅
  | some (noff, nlen) => Finset.Ico (noff - nlen) noff

theorem mem_part {i k : ℕ} : k ∈ part buf pg i ↔
    ∃ noff nlen, stored buf pg i = some (noff, nlen) ∧ noff - nlen ≤ k ∧ k < noff := by
  unfold part
  cases hstored : stored buf pg i with
  | none => simp
  | some place =>
    obtain ⟨noff, nlen⟩ := place
    rw [Finset.mem_Ico]
    refine ⟨fun h => ⟨noff, nlen, rfl, h⟩, ?_⟩
    rintro ⟨_, _, heq, h⟩
    obtain ⟨rfl, rfl⟩ := Prod.mk.inj (Option.some.inj heq)
    exact h

/-- Names that lie apart take no more room than the part of the heap they are in. -/
theorem Apart.total_le (h : Apart buf pg) {bound : ℕ} (hbound : ∀ i < 64, ∀ noff nlen,
    stored buf pg i = some (noff, nlen) → noff ≤ bound) :
    total buf pg (List.range 64) ≤ bound := by
  have hcard : ∀ i ∈ Finset.range 64, size buf pg i = (part buf pg i).card := by
    intro i hi
    cases hstored : stored buf pg i with
    | none => simp [size_of_none hstored, part, hstored]
    | some place =>
      obtain ⟨noff, nlen⟩ := place
      have := (h.inside i (Finset.mem_range.mp hi) noff nlen hstored).1
      simp only [size_of_some hstored, part, hstored, Nat.card_Ico]
      omega
  have hdisjoint : (Finset.range 64 : Set ℕ).PairwiseDisjoint (part buf pg) := by
    intro i hi j hj hne
    have hi := Finset.mem_range.mp (Finset.mem_coe.mp hi)
    have hj := Finset.mem_range.mp (Finset.mem_coe.mp hj)
    rw [Function.onFun, Finset.disjoint_left]
    intro k hki hkj
    obtain ⟨noff, nlen, hsi, hki⟩ := mem_part.mp hki
    obtain ⟨noff', nlen', hsj, hkj⟩ := mem_part.mp hkj
    have hapart := h.apart i hi j hj hne _ _ _ _ hsi hsj
    omega
  have hsub : (Finset.range 64).biUnion (part buf pg) ⊆ Finset.range bound := by
    intro k hk
    obtain ⟨i, hi, hki⟩ := Finset.mem_biUnion.mp hk
    obtain ⟨noff, nlen, hstored, hki⟩ := mem_part.mp hki
    have := hbound i (Finset.mem_range.mp hi) _ _ hstored
    exact Finset.mem_range.mpr (by omega)
  calc total buf pg (List.range 64)
      = ∑ i ∈ Finset.range 64, size buf pg i := by
        rw [total, ← List.sum_toFinset _ List.nodup_range, List.toFinset_range]
    _ = ∑ i ∈ Finset.range 64, (part buf pg i).card := Finset.sum_congr rfl hcard
    _ = ((Finset.range 64).biUnion (part buf pg)).card := (Finset.card_biUnion hdisjoint).symm
    _ ≤ bound := (Finset.card_le_card hsub).trans_eq (Finset.card_range bound)

/-- The names were packed without gaps, and nothing else has changed. -/
structure Compacted (buf : Bytes) (pg : Header) (buf' : Bytes) (pg' : Header) : Prop where
  length : buf'.length = buf.length
  header : pg' = { pg with freeNameOff := pg'.freeNameOff }
  heap : pg'.freeNameOff.toNat = total buf pg (List.range 64)
  slots : ∀ i < 64, slotAt buf' i = { slotAt buf i with nameOffset := (slotAt buf' i).nameOffset }
  free : ∀ i < 64, pg.isFree i = true →
    window buf' (slotOffset i) trieSlotSize = window buf (slotOffset i) trieSlotSize
  unnamed : ∀ i < 64, stored buf pg i = none → slotAt buf' i = slotAt buf i
  packed : ∀ i < 64, (stored buf pg i).isSome →
    (slotAt buf' i).nameOffset = total buf pg (List.range i) + size buf pg i
  names : ∀ i < 64, nameAt buf' pg' i = nameAt buf pg i

theorem exists_range_eq {i n : ℕ} (hi : i < n) : ∃ b, List.range n = List.range i ++ i :: b := by
  refine ⟨(List.range n).drop (i + 1), ?_⟩
  conv_lhs => rw [← List.take_append_drop i (List.range n)]
  rw [List.take_range, Nat.min_eq_left hi.le, List.drop_eq_getElem_cons (by simpa using hi),
    List.getElem_range]

theorem Packed.compacted {r : Bytes} (hfree : total buf pg (List.range 64) ≤ pg.freeNameOff.toNat)
    (h : Packed buf pg (nameAt buf pg) (List.range 64) 0 r) :
    Compacted buf pg r { pg with freeNameOff := .ofNat (total buf pg (List.range 64)) } := by
  have hmax := UInt16.toNat_lt pg.freeNameOff
  have hnone : ∀ i < 64, stored buf pg i = none → slotAt r i = slotAt buf i := fun i hi hstored =>
    slotAt_congr (h.others i hi (.inr hstored))
  have hnamed : ∀ i < 64, (stored buf pg i).isSome →
      slotAt r i = { slotAt buf i with nameOffset := total buf pg (List.range i) + size buf pg i } ∧
      window r (buf.length - (total buf pg (List.range i) + size buf pg i)) (size buf pg i) =
        nameAt buf pg i := by
    intro i hi hstored
    obtain ⟨b, hb⟩ := exists_range_eq hi
    simpa using h.named _ i b hb hstored
  have hheader : ∀ i, stored r { pg with freeNameOff := .ofNat (total buf pg (List.range 64)) } i =
      stored r pg i := fun _ => stored_header pg rfl
  refine ⟨h.length, rfl, UInt16.toNat_ofNat_of_lt' (show _ < 2 ^ 16 by omega), fun i hi => ?_, fun i hi hfree => ?_,
    hnone, fun i hi hstored => ?_, fun i hi => ?_⟩
  · cases hstored : stored buf pg i with
    | none => rw [hnone i hi hstored]
    | some place => rw [(hnamed i hi (hstored ▸ rfl)).1]
  · exact h.others i hi (.inr (by rw [stored, if_pos hfree]))
  · rw [(hnamed i hi hstored).1]
  · cases hstored : stored buf pg i with
    | none =>
      rw [nameAt, hheader, stored_congr (hnone i hi hstored), nameAt, hstored]
    | some place =>
      obtain ⟨hslot, hname⟩ := hnamed i hi (hstored ▸ rfl)
      obtain ⟨hlive, -, hnlen, -, hlen⟩ := stored_eq_some hstored
      have hsize := size_of_some hstored
      rw [nameAt, hheader, stored, hslot, hlive, if_neg (by simp)]
      dsimp only
      rw [if_neg (by omega), hlen, ← hsize]
      dsimp only
      rw [h.length, hname]

theorem Apart.stored_of_zero (h : Apart buf pg) (hzero : pg.freeNameOff = 0) {i : ℕ} (hi : i < 64) :
    stored buf pg i = none := by
  cases hstored : stored buf pg i with
  | none => rfl
  | some place =>
    have hle := (h.inside i hi _ _ hstored).2.1
    have hne := (stored_eq_some hstored).2.1
    rw [hzero] at hle
    exact absurd (Nat.le_zero.mp hle) hne

/-- Names that lie apart are packed, or there are none. -/
theorem Apart.compacts (h : Apart buf pg) :
    ∃ r buf' pg', triePageCompactNames buf pg = some (r, buf', pg') ∧ Compacted buf pg buf' pg' := by
  have htotal : total buf pg (List.range 64) ≤ pg.freeNameOff.toNat :=
    h.total_le fun i hi noff nlen hstored => (h.inside i hi noff nlen hstored).2.1
  have hheap : total buf pg (List.range 64) ≤ buf.length - triePageDataEnd :=
    h.total_le fun i hi noff nlen hstored => by
      have := (h.inside i hi noff nlen hstored).2.2
      omega
  have hpage := h.page
  rcases triePageCompactNames_cases buf pg
    (fun i hi noff nlen hstored _ => by
      have := (h.inside i hi noff nlen hstored).2.2
      omega) (fun _ => by omega) with ⟨hsame, hwhy⟩ | ⟨r, hr, hfits, hpacked⟩
  · refine ⟨_, _, _, hsame, ?_⟩
    rcases hwhy with hzero | hnot
    · have hnone : ∀ i < 64, stored buf pg i = none := fun i hi => h.stored_of_zero hzero hi
      refine ⟨rfl, rfl, ?_, fun _ _ => rfl, fun _ _ _ => rfl, fun _ _ _ => rfl, fun i hi hsome => ?_,
        fun _ _ => rfl⟩
      · rw [hzero] at htotal ⊢
        exact (Nat.le_zero.mp htotal).symm
      · rw [hnone i hi] at hsome
        cases hsome
    · refine absurd ⟨fun i hi _ => ?_, fun i hi noff nlen hstored => ?_, by omega⟩ hnot
      · exact (slotOffset_le_dataEnd (List.mem_range.mp hi)).trans hpage
      · have := h.inside i (List.mem_range.mp hi) noff nlen hstored
        exact ⟨this.2.1, this.1⟩
  · exact ⟨_, _, _, hr, hpacked.compacted hfits⟩

/-- A page with two names and a gap between them. -/
def sampleHeader : Header where
  magic := .ofNat magicTriePage
  version := 1
  liveCount := 2
  freeNameOff := 12
  freeSlots := ~~~(3#64)

def samplePage : Bytes :=
  sampleHeader.encode ++ encodeSlot { nameLen := 3, nameOffset := 12 } ++
    encodeSlot { nameLen := 4, nameOffset := 4 } ++ List.replicate 3992 0 ++
    [1, 0, 97, 0, 0, 0, 0, 0, 2, 0, 98, 99]

theorem stored_samplePage : ∀ i < 64, stored samplePage sampleHeader i =
    if i = 0 then some (12, 3) else if i = 1 then some (4, 4) else none := by
  decide

theorem apart_samplePage : Apart samplePage sampleHeader where
  page := by decide +kernel
  inside i hi noff nlen hstored := by
    have hlength : samplePage.length = 4096 := by decide +kernel
    rw [stored_samplePage i hi] at hstored
    rw [hlength]
    split_ifs at hstored <;>
    · obtain ⟨rfl, rfl⟩ := Prod.mk.inj (Option.some.inj hstored)
      decide
  apart i hi j hj hne noff nlen noff' nlen' hi' hj' := by
    rw [stored_samplePage i hi] at hi'
    rw [stored_samplePage j hj] at hj'
    split_ifs at hi' with hi0 hi1 <;> split_ifs at hj' with hj0 hj1 <;>
    · obtain ⟨rfl, rfl⟩ := Prod.mk.inj (Option.some.inj hi')
      obtain ⟨rfl, rfl⟩ := Prod.mk.inj (Option.some.inj hj')
      omega

/-- A page whose header claims a heap larger than the page, with a name that begins before it. -/
def overfullHeader : Header where
  magic := .ofNat magicTriePage
  version := 1
  liveCount := 1
  freeNameOff := 5000
  freeSlots := ~~~(1#64)

def overfullPage : Bytes :=
  overfullHeader.encode ++ encodeSlot { nameLen := 10, nameOffset := 5000 } ++
    List.replicate 4040 0

end Whole

end Briefs.Trie.Buffer
