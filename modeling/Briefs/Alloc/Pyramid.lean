import Mathlib.Tactic

/-!
# The free-block bitmap

`allocator_core.go`: three levels of 64-bit words. A set bit of the last level is
a free block, a set bit of a summary level a word below that is not zero.
-/

namespace Briefs.Alloc

abbrev Word := BitVec 64

namespace Word

def setBit (w : Word) (i : ℕ) : Word := w ||| (1#64 <<< i)

def clearBit (w : Word) (i : ℕ) : Word := w &&& ~~~(1#64 <<< i)

/-- `TrailingZeros64`; 64 for the zero word. -/
def trailingZeros (w : Word) : ℕ := ((List.range 64).find? fun i => w.getLsbD i).getD 64

/-- `OnesCount64`. -/
def onesCount (w : Word) : ℕ := (List.range 64).countP fun i => w.getLsbD i

end Word

structure Pyramid where
  l0 : List Word
  l1 : List Word
  l2 : List Word
  blockCount : ℕ
  freeCount : ℕ
  deriving DecidableEq

namespace Pyramid

variable (p : Pyramid)

def word0 (w : ℕ) : Word := p.l0.getD w 0

def word1 (w : ℕ) : Word := p.l1.getD w 0

def word2 (w : ℕ) : Word := p.l2.getD w 0

def clear0 (w b : ℕ) : Pyramid := { p with l0 := p.l0.set w ((p.word0 w).clearBit b) }

def clear1 (w b : ℕ) : Pyramid := { p with l1 := p.l1.set w ((p.word1 w).clearBit b) }

def clear2 (w b : ℕ) : Pyramid := { p with l2 := p.l2.set w ((p.word2 w).clearBit b) }

def set0 (w b : ℕ) : Pyramid := { p with l0 := p.l0.set w ((p.word0 w).setBit b) }

def set1 (w b : ℕ) : Pyramid := { p with l1 := p.l1.set w ((p.word1 w).setBit b) }

def set2 (w b : ℕ) : Pyramid := { p with l2 := p.l2.set w ((p.word2 w).setBit b) }

/-- The summary bits above the last-level word `w2`, once it has become zero. -/
def emptied (w2 : ℕ) : Pyramid :=
  if p.word2 w2 = 0 then
    let q := p.clear1 (w2 / 64) (w2 % 64)
    if q.word1 (w2 / 64) = 0 then q.clear0 (w2 / 64 / 64) (w2 / 64 % 64) else q
  else p

/-- `AllocMarkAllocated`: whether the block was free, and the words after. -/
def markAllocated (rel : ℕ) : Pyramid × Bool :=
  if p.blockCount ≤ rel then (p, false)
  else if (p.word2 (rel / 64)).getLsbD (rel % 64) = false then (p, false)
  else
    let q := p.clear2 (rel / 64) (rel % 64)
    (({ q with freeCount := (q.freeCount + 2 ^ 64 - 1) % 2 ^ 64 } : Pyramid).emptied (rel / 64),
      true)

/-- `AllocMarkFree`. -/
def markFree (rel : ℕ) : Pyramid × Bool :=
  if p.blockCount ≤ rel then (p, false)
  else if (p.word2 (rel / 64)).getLsbD (rel % 64) = true then (p, false)
  else
    let w2 := rel / 64
    let q : Pyramid := { p.set2 w2 (rel % 64) with freeCount := (p.freeCount + 1) % 2 ^ 64 }
    if q.word2 w2 = 1#64 <<< (rel % 64) then
      let r := q.set1 (w2 / 64) (w2 % 64)
      if r.word1 (w2 / 64) = 1#64 <<< (w2 % 64) then (r.set0 (w2 / 64 / 64) (w2 / 64 % 64), true)
      else (r, true)
    else (q, true)

/-- The bits of the word `w` that lie in `[first, first+n)`. -/
def runMask (first n w : ℕ) : Word :=
  let low : Word := if w = first / 64 then ~~~((1#64 <<< (first % 64)) - 1) else ~~~(0#64)
  if w = (first + n - 1) / 64 then low &&& ((1#64 <<< ((first + n - 1) % 64 + 1)) - 1) else low

/-- One word of `AllocMarkFreeRun`. -/
def freeWord (first n : ℕ) (acc : Pyramid × ℕ) (w : ℕ) : Pyramid × ℕ :=
  let p := acc.1
  let mask := runMask first n w
  let added := mask &&& ~~~(p.word2 w)
  if added = 0 then acc
  else
    let q :=
      if p.word2 w = 0 then
        let r := if p.word1 (w / 64) = 0 then p.set0 (w / 64 / 64) (w / 64 % 64) else p
        r.set1 (w / 64) (w % 64)
      else p
    ({ q with
        l2 := q.l2.set w (q.word2 w ||| mask)
        freeCount := (q.freeCount + Word.onesCount added) % 2 ^ 64 },
      acc.2 + Word.onesCount added)

/-- `AllocMarkFreeRun`: the words after, and how many blocks were newly freed. -/
def markFreeRun (first n : ℕ) : Pyramid × ℕ :=
  if n = 0 ∨ p.blockCount ≤ first then (p, 0)
  else
    let m := min n (p.blockCount - first)
    (List.range' (first / 64) ((first + m - 1) / 64 - first / 64 + 1)).foldl (freeWord first m)
      (p, 0)

/-- `AllocIsAllocated`. -/
def isAllocated (rel : ℕ) : Bool :=
  decide (rel < p.blockCount) && decide (rel / 64 < p.l2.length) &&
    !(p.word2 (rel / 64)).getLsbD (rel % 64)

/-- Take the block at the given bits, and mend the summaries. -/
def take (w0 b0 w1 b1 w2 b2 : ℕ) : Pyramid :=
  let q : Pyramid := { p.clear2 w2 b2 with freeCount := (p.freeCount + 2 ^ 64 - 1) % 2 ^ 64 }
  if q.word2 w2 = 0 then
    let r := q.clear1 w1 b1
    if r.word1 w1 = 0 then r.clear0 w0 b0 else r
  else q

/-- The scan of `tryAllocBlock` over the given words of the first level. The first bit
of each is followed down; a stale summary bit is cleared and the scan goes on with the
next word. -/
def scan (p : Pyramid) : List ℕ → Pyramid × Option ℕ
  | [] => (p, none)
  | w0 :: rest =>
    if p.word0 w0 = 0 then scan p rest
    else
      let b0 := (p.word0 w0).trailingZeros
      let w1 := w0 * 64 + b0
      if p.l1.length ≤ w1 then (p, none)
      else if p.word1 w1 = 0 then scan (p.clear0 w0 b0) rest
      else
        let b1 := (p.word1 w1).trailingZeros
        let w2 := w1 * 64 + b1
        if p.l2.length ≤ w2 then (p, none)
        else if p.word2 w2 = 0 then
          let q := p.clear1 w1 b1
          scan (if q.word1 w1 = 0 then q.clear0 w0 b0 else q) rest
        else
          let b2 := (p.word2 w2).trailingZeros
          if p.blockCount ≤ w2 * 64 + b2 then (p, none)
          else (p.take w0 b0 w1 b1 w2 b2, some (w2 * 64 + b2))

end Pyramid

/-- The runtime allocator of `fs.go`: the bitmap, the metadata reserve and what the
next `Sync` has to write. -/
structure Allocator where
  bitmap : Pyramid
  metaShield : ℕ
  dirty : Bool
  /-- Blocks of 512 last-level words that changed. -/
  l2Dirty : List ℕ
  deriving DecidableEq

namespace Allocator

variable (a : Allocator)

def markL2Word (w2 : ℕ) : Allocator := { a with dirty := true, l2Dirty := w2 / 512 :: a.l2Dirty }

/-- Blocks a request may draw from: a data request leaves the shield alone. -/
def available (forMeta : Bool) : ℕ :=
  if forMeta then a.bitmap.freeCount else a.bitmap.freeCount - a.metaShield

/-- `tryAllocBlock`: the block, or 0. -/
def tryAllocBlock (forMeta : Bool) : ℕ × Allocator :=
  if a.available forMeta = 0 then (0, a)
  else
    match a.bitmap.scan (List.range a.bitmap.l0.length) with
    | (p, none) => (0, { a with bitmap := p })
    | (p, some block) => (block, { a with bitmap := p }.markL2Word (block / 64))

/-- `FreeBlock`. -/
def freeBlock (rel : ℕ) : Allocator :=
  match a.bitmap.markFree rel with
  | (p, true) => { a with bitmap := p }.markL2Word (rel / 64)
  | (_, false) => a

/-- `ReserveBlock`. -/
def reserveBlock (rel : ℕ) : Allocator :=
  match a.bitmap.markAllocated rel with
  | (p, true) => { a with bitmap := p }.markL2Word (rel / 64)
  | (_, false) => a

/-- `FreeRun`. -/
def freeRun (first n : ℕ) : Allocator :=
  if n = 0 ∨ a.bitmap.blockCount ≤ first then a
  else
    let m := min n (a.bitmap.blockCount - first)
    match a.bitmap.markFreeRun first m with
    | (_, 0) => a
    | (p, _ + 1) =>
      (List.range' (first / 64) ((first + m - 1) / 64 - first / 64 + 1)).foldl markL2Word
        { a with bitmap := p }

/-- `AdjustShield`, in 64 bits. -/
def adjustShield (delta : ℤ) : Allocator :=
  { a with metaShield :=
      if 0 ≤ delta then (a.metaShield + delta.toNat) % 2 ^ 64
      else (a.metaShield + 2 ^ 64 - (-delta).toNat) % 2 ^ 64 }

def allocated (rel : ℕ) : Bool := a.bitmap.isAllocated rel

/-- `Sync` over the pool on the device: summaries and header in full, of the last
level only the blocks marked dirty. -/
def syncPool (disk : Pyramid) : Pyramid :=
  if a.dirty then
    { a.bitmap with
      l2 := if a.l2Dirty = [] then a.bitmap.l2 else
        a.bitmap.l2.mapIdx fun i w => if i / 512 ∈ a.l2Dirty then w else disk.word2 i }
  else disk

def synced : Allocator := { a with dirty := false, l2Dirty := if a.dirty then [] else a.l2Dirty }

/-- `OpenAllocator`. -/
def ofPool (disk : Pyramid) : Allocator :=
  { bitmap := disk, metaShield := 0, dirty := false, l2Dirty := [] }

end Allocator

end Briefs.Alloc
