import Briefs.Disk.Checksum
import Briefs.Lib.Window

/-!
# Reading extended attributes

The blocks of an attribute chain (`briefs/xattr_disk.go`) and the read path of `fuse/xattr.go`.
The fields of a block have the widths they have on disk, and a difference of two of them wraps
at 32 bits as it does there; a slice out of range is the error `crash`.
-/

namespace Briefs.Xattr

open Lib Checksum
open Replay (magicXattr xattrMaxUsed xattrMaxChain extentChainChecksumOffset)

def blockSize : ℕ := 4096
def xattrEntrySize : ℕ := 8
def xattrVersion : ℕ := 2
def xattrFlagCont : ℕ := 1

section Disk

def hex8 (n : ℕ) : String :=
  String.ofList (List.replicate (8 - (Nat.toDigits 16 n).length) '0' ++ Nat.toDigits 16 n)

structure XattrHeader where
  magic : UInt32
  version : UInt32
  usedSize : UInt32
  entryCount : UInt32
  nextBlock : UInt64
  flags : UInt32
  reserved : UInt32
  deriving DecidableEq, Repr

def XattrHeader.marshalBinary (h : XattrHeader) : Bytes :=
  putUint32 h.magic ++ putUint32 h.version ++ putUint32 h.usedSize ++ putUint32 h.entryCount ++
    putUint64 h.nextBlock ++ putUint32 h.flags ++ putUint32 h.reserved

def XattrHeader.unmarshalBinary (data : Bytes) : XattrHeader where
  magic := getUint32 data
  version := getUint32 (data.drop 4)
  usedSize := getUint32 (data.drop 8)
  entryCount := getUint32 (data.drop 12)
  nextBlock := getUint64 (data.drop 16)
  flags := getUint32 (data.drop 24)
  reserved := getUint32 (data.drop 28)

def XattrHeader.isCont (h : XattrHeader) : Bool := h.flags.toNat &&& xattrFlagCont != 0

structure XattrEntry where
  nameLen : UInt16
  valueLen : UInt16
  nameOffset : UInt16
  valueOffset : UInt16
  deriving DecidableEq, Repr

def XattrEntry.marshalBinary (e : XattrEntry) : Bytes :=
  putUint16 e.nameLen ++ putUint16 e.valueLen ++ putUint16 e.nameOffset ++ putUint16 e.valueOffset

def XattrEntry.unmarshalBinary (data : Bytes) : XattrEntry where
  nameLen := getUint16 data
  valueLen := getUint16 (data.drop 2)
  nameOffset := getUint16 (data.drop 4)
  valueOffset := getUint16 (data.drop 6)

/-- `XattrHeaderSize`. -/
def xattrHeaderSize (version : UInt32) : ℕ := if version = 1 then 16 else 32

/-- Where the `j`th entry of a block is, in 32 bits. -/
def XattrHeader.entryOff (h : XattrHeader) (j : ℕ) : ℕ :=
  (xattrHeaderSize h.version + j * xattrEntrySize) % 2 ^ 32

/-- `ReadXattrHeader`. -/
def readXattrHeader (buf : Bytes) : Except Err XattrHeader :=
  if buf.length < xattrHeaderSize 1 then
    .error (.text s!"buffer too small for xattr header: {buf.length}")
  else if getUint32 buf ≠ magicXattr then
    .error (.text (s!"bad xattr magic 0x{hex8 (getUint32 buf).toNat} " ++
      s!"(expected 0x{hex8 magicXattr.toNat})"))
  else
    let version := getUint32 (buf.drop 4)
    if version ≠ 1 ∧ version ≠ 2 then .error (.text s!"unsupported xattr version {version}")
    else if buf.length < xattrHeaderSize version then
      .error (.text s!"buffer too small for v{version} xattr header: {buf.length}")
    else if version = 2 then .ok (.unmarshalBinary (buf.take 32))
    else .ok (.unmarshalBinary (buf.take 16 ++ List.replicate 16 0))

/-- `ReadXattrEntry`. -/
def readXattrEntry (buf : Bytes) (entryOff : ℕ) : Except Err XattrEntry :=
  if buf.length < entryOff + xattrEntrySize then
    .error (.text s!"xattr entry at {entryOff} out of range in {buf.length}-byte buffer")
  else .ok (.unmarshalBinary (window buf entryOff xattrEntrySize))

/-- `VerifyChainChecksum`. -/
def verifyChainChecksum (buf : Bytes) : Except Err Unit :=
  let stored := getUint64 (buf.drop extentChainChecksumOffset)
  if stored = 0 then .ok ()
  else if stored ≠ computeChainChecksum buf blockSize then .error (.text "checksum mismatch")
  else .ok ()

end Disk

section Walk

/-- A device: every block that can be read has the size of a block. -/
structure Device where
  read : ℕ → Option Bytes
  size : ∀ block buf, read block = some buf → buf.length = blockSize

/-- `ReadBlock`. -/
def Device.readBlock (dev : Device) (block : ℕ) : Except Err Bytes :=
  match dev.read block with
  | some buf => .ok buf
  | none => .error (.errno .eio)

/-- A block of a chain, with its header and its number. -/
structure ChainBlock where
  buf : Bytes
  header : XattrHeader
  abs : ℕ
  deriving DecidableEq

variable (dev : Device) (verifyCRC : Bool)

/-- The loop of `walkXattrChain`, at `block` and with room for `left` more blocks. -/
def walkFrom : ℕ → List ℕ → ℕ → Except Err (List ChainBlock)
  | left, visited, block =>
    if block = 0 then .ok []
    else if block ∈ visited then .error (.text s!"briefs: xattr chain loop at {block}")
    else
      match left with
      | 0 => .error (.text "briefs: xattr chain too long")
      | left + 1 => do
        let buf ← dev.readBlock block
        let h ← (readXattrHeader buf).mapError (.wrap s!"briefs: xattr block {block}")
        if verifyCRC then
          (verifyChainChecksum buf).mapError (.wrap s!"briefs: xattr block {block} CRC")
        let rest ← walkFrom left (block :: visited) h.nextBlock.toNat
        return ⟨buf, h, block⟩ :: rest

/-- `walkXattrChain`: at most `xattrMaxChain + 1` blocks. -/
def walkXattrChain (head : ℕ) : Except Err (List ChainBlock) :=
  walkFrom dev verifyCRC (xattrMaxChain + 1) [] head

theorem walkFrom_zero (left : ℕ) (visited : List ℕ) :
    walkFrom dev verifyCRC left visited 0 = .ok [] := by
  unfold walkFrom
  exact if_pos rfl

variable {dev verifyCRC}

theorem walkFrom_cons {left block : ℕ} {visited : List ℕ} {buf : Bytes} {h : XattrHeader}
    {rest : List ChainBlock} (hblock : block ≠ 0) (hnew : block ∉ visited)
    (hread : dev.read block = some buf) (hheader : readXattrHeader buf = .ok h)
    (hsum : verifyChainChecksum buf = .ok ())
    (hrest : walkFrom dev verifyCRC left (block :: visited) h.nextBlock.toNat = .ok rest) :
    walkFrom dev verifyCRC (left + 1) visited block = .ok (⟨buf, h, block⟩ :: rest) := by
  have hbuf : dev.readBlock block = .ok buf := by rw [Device.readBlock, hread]
  unfold walkFrom
  rw [if_neg hblock, if_neg hnew, hbuf]
  cases verifyCRC with
  | false =>
    simp only [hheader, hrest, bind, Except.bind, Except.mapError]
    rfl
  | true =>
    simp only [hheader, hsum, hrest, bind, Except.bind, Except.mapError]
    rfl

end Walk

section Load

structure XattrKV where
  name : Bytes
  value : Bytes
  deriving DecidableEq, Repr

/-- The slice `buf[lo:hi]`. -/
def sliceOr (buf : Bytes) (lo hi : ℕ) : Except Err Bytes :=
  match slice buf lo hi with
  | some bytes => .ok bytes
  | none => .error .crash

def sub32 (x y : ℕ) : ℕ := (x + 2 ^ 32 - y) % 2 ^ 32

/-- The remainder of a value of which `copied` bytes are there, from the continuation blocks
that follow. -/
def takeConts (valueLen : ℕ) : ℕ → List ChainBlock → Except Err Bytes
  | _, [] => .ok []
  | copied, c :: rest =>
    if copied < valueLen ∧ c.header.isCont then do
      let chdrSize := xattrHeaderSize c.header.version
      let take := min (sub32 c.header.usedSize.toNat chdrSize) (valueLen - copied)
      let part ← sliceOr c.buf chdrSize (chdrSize + take)
      let more ← takeConts valueLen (copied + take) rest
      return part ++ more
    else .ok []

/-- The value of an entry in a block of `used` bytes. What no block supplies stays zero. -/
def readValue (buf : Bytes) (used : ℕ) (rest : List ChainBlock) (e : XattrEntry) :
    Except Err Bytes :=
  let valueLen := e.valueLen.toNat
  let valueOff := e.valueOffset.toNat
  if valueLen = 0 then .ok []
  else do
    let inline ←
      if valueOff ≠ 0 then
        sliceOr buf valueOff (valueOff + min (sub32 used valueOff) valueLen)
      else .ok []
    let more ← takeConts valueLen inline.length rest
    return inline ++ more ++ List.replicate (valueLen - (inline.length + more.length)) 0

/-- The entries of a block from the `j`th on, `left` of them. -/
def readEntries (c : ChainBlock) (rest : List ChainBlock) : ℕ → ℕ → Except Err (List XattrKV)
  | 0, _ => .ok []
  | left + 1, j => do
    let e ← readXattrEntry c.buf (c.header.entryOff j)
    let name ← sliceOr c.buf e.nameOffset.toNat (e.nameOffset.toNat + e.nameLen.toNat)
    let value ← readValue c.buf c.header.usedSize.toNat rest e
    let kvs ← readEntries c rest left (j + 1)
    return ⟨name, value⟩ :: kvs

/-- The second pass of `loadXattrEntries`. -/
def assemble : List ChainBlock → Except Err (List XattrKV)
  | [] => .ok []
  | c :: rest =>
    if c.header.isCont then assemble rest
    else do
      let kvs ← readEntries c rest c.header.entryCount.toNat 0
      let more ← assemble rest
      return kvs ++ more

/-- `loadXattrEntries`: the attributes and the blocks of the chain. -/
def loadXattrEntries (dev : Device) (xattrOffset : ℕ) : Except Err (List XattrKV × List ℕ) :=
  if xattrOffset = 0 then .ok ([], [])
  else do
    let blocks ← walkXattrChain dev true xattrOffset
    let kvs ← assemble blocks
    return (kvs, blocks.map ChainBlock.abs)

end Load

section Robust

/-- A block of a chain whose fields stay inside it: its used size is at least a header and no
more than the block, the names lie in it, and no value begins past the used size. -/
structure Sane (c : ChainBlock) : Prop where
  least : xattrHeaderSize c.header.version ≤ c.header.usedSize.toNat
  most : c.header.usedSize.toNat ≤ c.buf.length
  names : ∀ j < c.header.entryCount.toNat, ∀ e, readXattrEntry c.buf (c.header.entryOff j) = .ok e →
    e.nameOffset.toNat + e.nameLen.toNat ≤ c.buf.length
  values : ∀ j < c.header.entryCount.toNat, ∀ e,
    readXattrEntry c.buf (c.header.entryOff j) = .ok e → 0 < e.valueLen.toNat →
      e.valueOffset.toNat ≤ c.header.usedSize.toNat

theorem sliceOr_eq {buf : Bytes} {off len : ℕ} (h : off + len ≤ buf.length) :
    sliceOr buf off (off + len) = .ok (window buf off len) := by
  have hslice := slice_eq h
  rw [← Nat.cast_add] at hslice
  rw [sliceOr, hslice]

theorem sub32_of_le {x y : ℕ} (h : y ≤ x) (hx : x < 2 ^ 32) : sub32 x y = x - y := by
  rw [sub32, Nat.add_comm, Nat.add_sub_assoc h, Nat.add_mod_left, Nat.mod_eq_of_lt (by omega)]

theorem bind_ne_crash {α β : Type} {x : Except Err α} {f : α → Except Err β}
    (hx : x ≠ .error .crash) (hf : ∀ a, x = .ok a → f a ≠ .error .crash) :
    (x >>= f) ≠ .error .crash := by
  cases x with
  | error e => exact fun heq => hx (congrArg Except.error (Except.error.inj heq))
  | ok a => exact hf a rfl

theorem pure_ne_crash {α : Type} (a : α) : (pure a : Except Err α) ≠ .error .crash := nofun

theorem mapError_wrap_ne_crash {α : Type} (x : Except Err α) (msg : String) :
    x.mapError (Err.wrap msg) ≠ .error Err.crash := by
  cases x <;> simp [Except.mapError]

theorem sliceOr_ne_crash {buf : Bytes} {off len : ℕ} (h : off + len ≤ buf.length) :
    sliceOr buf off (off + len) ≠ .error .crash := by
  rw [sliceOr_eq h]
  nofun

theorem walkFrom_ne_crash (dev : Device) (verifyCRC : Bool) (left : ℕ) (visited : List ℕ)
    (block : ℕ) : walkFrom dev verifyCRC left visited block ≠ .error .crash := by
  induction left generalizing visited block with
  | zero =>
    unfold walkFrom
    split_ifs <;> nofun
  | succ left ih =>
    have hread : dev.readBlock block ≠ .error .crash := by
      unfold Device.readBlock
      cases dev.read block <;> nofun
    unfold walkFrom
    split_ifs
    · nofun
    · nofun
    · refine bind_ne_crash hread fun buf _ =>
        bind_ne_crash (mapError_wrap_ne_crash _ _) fun h _ => ?_
      exact bind_ne_crash (mapError_wrap_ne_crash _ _) fun _ _ =>
        bind_ne_crash (ih _ _) fun rest _ => pure_ne_crash _
    · refine bind_ne_crash hread fun buf _ =>
        bind_ne_crash (mapError_wrap_ne_crash _ _) fun h _ => ?_
      exact bind_ne_crash (ih _ _) fun rest _ => pure_ne_crash _

/-- Nothing is read past the end of a sane block. -/
theorem takeConts_ne_crash {valueLen : ℕ} (copied : ℕ) {blocks : List ChainBlock}
    (h : ∀ c ∈ blocks, Sane c) : takeConts valueLen copied blocks ≠ .error .crash := by
  induction blocks generalizing copied with
  | nil => simp [takeConts]
  | cons c rest ih =>
    have hc := h c List.mem_cons_self
    have hsub := sub32_of_le hc.least c.header.usedSize.toNat_lt
    have hmost := hc.most
    have hleast := hc.least
    unfold takeConts
    split_ifs with hmore
    · refine bind_ne_crash (sliceOr_ne_crash ?_) fun part _ => ?_
      · rw [hsub]
        omega
      · exact bind_ne_crash (ih _ fun c' hc' => h c' (List.mem_cons_of_mem _ hc'))
          fun more _ => pure_ne_crash _
    · nofun

theorem readValue_ne_crash {buf : Bytes} {used : ℕ} {rest : List ChainBlock} {e : XattrEntry}
    (hused : used ≤ buf.length) (hlt : used < 2 ^ 32)
    (hvalue : 0 < e.valueLen.toNat → e.valueOffset.toNat ≤ used) (h : ∀ c ∈ rest, Sane c) :
    readValue buf used rest e ≠ .error .crash := by
  have hmore : ∀ inline : Bytes, (do
      let more ← takeConts e.valueLen.toNat inline.length rest
      return inline ++ more ++
        List.replicate (e.valueLen.toNat - (inline.length + more.length)) 0) ≠ .error .crash :=
    fun inline => bind_ne_crash (takeConts_ne_crash _ h) fun more _ => pure_ne_crash _
  unfold readValue
  dsimp only
  split_ifs with hlen hoff
  · nofun
  · have hle := hvalue (Nat.pos_of_ne_zero hlen)
    refine bind_ne_crash (sliceOr_ne_crash ?_) fun inline _ => hmore inline
    rw [sub32_of_le hle hlt]
    omega
  · exact hmore []

theorem readEntries_ne_crash {c : ChainBlock} {rest : List ChainBlock} (hc : Sane c)
    (h : ∀ c ∈ rest, Sane c) (left j : ℕ) (hj : j + left = c.header.entryCount.toNat) :
    readEntries c rest left j ≠ .error .crash := by
  induction left generalizing j with
  | zero => simp [readEntries]
  | succ left ih =>
    unfold readEntries
    refine bind_ne_crash ?_ fun e he => ?_
    · unfold readXattrEntry
      split_ifs <;> simp
    refine bind_ne_crash (sliceOr_ne_crash (hc.names j (by omega) e he)) fun name _ => ?_
    refine bind_ne_crash (readValue_ne_crash hc.most c.header.usedSize.toNat_lt
      (hc.values j (by omega) e he) h) fun value _ => ?_
    exact bind_ne_crash (ih (j + 1) (by omega)) fun kvs _ => pure_ne_crash _

theorem assemble_ne_crash {blocks : List ChainBlock} (h : ∀ c ∈ blocks, Sane c) :
    assemble blocks ≠ .error .crash := by
  induction blocks with
  | nil => simp [assemble]
  | cons c rest ih =>
    have hrest : ∀ c' ∈ rest, Sane c' := fun c' hc' => h c' (List.mem_cons_of_mem _ hc')
    unfold assemble
    split_ifs
    · exact ih hrest
    · refine bind_ne_crash (readEntries_ne_crash (h c List.mem_cons_self) hrest _ 0 (by omega))
        fun kvs _ => ?_
      exact bind_ne_crash (ih hrest) fun more _ => pure_ne_crash _

/-- A block without a checksum, with a single entry. -/
def entryBlock (e : XattrEntry) : Bytes :=
  let header : XattrHeader :=
    { magic := magicXattr
      version := 2
      usedSize := 44
      entryCount := 1
      nextBlock := 0
      flags := 0
      reserved := 0 }
  header.marshalBinary ++ e.marshalBinary ++ List.replicate 4056 0

theorem length_entryBlock (e : XattrEntry) : (entryBlock e).length = blockSize := by
  rw [entryBlock, List.length_append, List.length_append, List.length_replicate]
  rfl

def singleBlock (e : XattrEntry) : Device where
  read := fun block => if block = 5 then some (entryBlock e) else none
  size := by
    intro block buf h
    split_ifs at h
    obtain rfl := Option.some.inj h
    exact length_entryBlock e

end Robust

end Briefs.Xattr
