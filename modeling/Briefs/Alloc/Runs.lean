import Briefs.Alloc.Pyramid

/-!
# Building a pool and taking runs

`allocator.go`: a fresh pool and the search of the builder. `fs.go`: the walk over the
free runs of the last level and the allocations that take whole runs.
-/

namespace Briefs.Alloc

/-- `AllocLevelWords`, in 64 bits. -/
def allocLevelWords (blockCount : ℕ) : ℕ × ℕ × ℕ :=
  let l2 := (blockCount + 63) % 2 ^ 64 / 64
  let l1 := (l2 + 63) / 64
  let l0 := (l1 + 63) / 64
  (max l0 1, max l1 1, max l2 1)

namespace Pyramid

/-- A level of the given number of words with the bits of `n` items set: the last word
is cut at the end. -/
def fullLevel (words n : ℕ) : List Word :=
  let l := List.replicate words (~~~(0#64))
  if n % 64 = 0 then l else l.set (words - 1) ((1#64 <<< (n % 64)) - 1)

/-- `NewAllocBuilder`: every block is free. -/
def newAllocBuilder (dataBlockCount : ℕ) : Pyramid :=
  let words := allocLevelWords dataBlockCount
  { l0 := fullLevel words.1 words.2.1
    l1 := fullLevel words.2.1 words.2.2
    l2 := fullLevel words.2.2 dataBlockCount
    blockCount := dataBlockCount
    freeCount := dataBlockCount }

/-- `NewDataAllocBuilder`: block 0 is the out-of-space answer and never handed out. -/
def newDataAllocBuilder (dataBlockCount : ℕ) : Pyramid :=
  if 0 < dataBlockCount then ((newAllocBuilder dataBlockCount).markAllocated 0).1
  else newAllocBuilder dataBlockCount

variable (p : Pyramid)

/-- The search of `AllocateBlock` over the given words of the first level; a stale
summary is passed over. -/
def find : List ℕ → Option ℕ
  | [] => none
  | w0 :: rest =>
    if p.word0 w0 = 0 then find rest
    else
      let w1 := w0 * 64 + (p.word0 w0).trailingZeros
      if p.l1.length ≤ w1 ∨ p.word1 w1 = 0 then find rest
      else
        let w2 := w1 * 64 + (p.word1 w1).trailingZeros
        if p.l2.length ≤ w2 ∨ p.word2 w2 = 0 then find rest
        else
          let block := w2 * 64 + (p.word2 w2).trailingZeros
          if p.blockCount ≤ block then find rest else some block

/-- `AllocateBlock`. -/
def allocateBlock : Except String ℕ × Pyramid :=
  if p.freeCount = 0 then (.error "allocator has no free blocks", p)
  else
    match p.find (List.range p.l0.length) with
    | none =>
      (.error ("allocator search exhausted despite free_count=" ++ toString p.freeCount), p)
    | some block => (.ok block, (p.markAllocated block).1)

end Pyramid

/-- A walk over the free runs: what the visitor has made so far, and the run that is
being gathered. -/
structure Scan (σ : Type) where
  acc : σ
  runStart : ℕ
  runLen : ℕ
  stopped : Bool

section Scanning

variable {σ : Type} (visit : σ → ℕ → ℕ → σ × Bool) (minLen : ℕ)

/-- `closeRun`: hand the gathered run to the visitor, who may stop the walk. -/
def Scan.closeRun (s : Scan σ) : Scan σ :=
  if s.runLen = 0 then s
  else
    { s with
      acc := (visit s.acc s.runStart s.runLen).1
      runLen := 0
      stopped := !(visit s.acc s.runStart s.runLen).2 }

/-- A run of `cnt` set bits at `start`: it continues the gathered run or begins a new one. -/
def Scan.gather (s : Scan σ) (start cnt : ℕ) : Scan σ :=
  if 0 < s.runLen ∧ start = s.runStart + s.runLen then { s with runLen := s.runLen + cnt }
  else
    let c := s.closeRun visit
    if c.stopped then c else { c with runStart := start, runLen := cnt }

/-- The runs of set bits of one word, lowest first. -/
def scanBits (base : ℕ) : ℕ → Word → Scan σ → Scan σ
  | 0, _, s => s
  | fuel + 1, wbits, s =>
    if wbits = 0 then s
    else
      let b := wbits.trailingZeros
      let cnt := Word.trailingZeros (~~~(wbits >>> b))
      let c := s.gather visit (base + b) cnt
      if c.stopped then c
      else if 0 < minLen ∧ minLen ≤ c.runLen then { c.closeRun visit with stopped := true }
      else
        scanBits base fuel
          (if 64 ≤ cnt then 0 else wbits &&& ~~~(((1#64 <<< cnt) - 1) <<< b)) c

namespace Pyramid

variable (p : Pyramid)

/-- A word of the last level, without bits past the block count. -/
def leafWord (w2 : ℕ) : Word :=
  if w2 + 1 = p.l2.length ∧ p.blockCount % 64 ≠ 0 then
    p.word2 w2 &&& ((1#64 <<< (p.blockCount % 64)) - 1)
  else p.word2 w2

def scanWord (s : Scan σ) (w2 : ℕ) : Scan σ :=
  if s.stopped then s
  else if p.leafWord w2 = 0 then s.closeRun visit
  else scanBits visit minLen (w2 * 64) 64 (p.leafWord w2) s

/-- `scanMaximalRuns`: what the visitor makes of the free runs. With a least length the
first run that reaches it is the last one reported. -/
def scanMaximalRuns (init : σ) : σ :=
  let s := (List.range p.l2.length).foldl (p.scanWord visit minLen) ⟨init, 0, 0, false⟩
  (if s.stopped then s else s.closeRun visit).acc

end Pyramid

end Scanning

namespace Allocator

variable (a : Allocator)

/-- `reserveBlockZeroLocked`. -/
def reserveBlockZero : Allocator :=
  if (a.bitmap.word2 0).getLsbD 0 = true then
    { a with bitmap := ({ a.bitmap.clear2 0 0 with
      freeCount := (a.bitmap.freeCount + 2 ^ 64 - 1) % 2 ^ 64 } : Pyramid).emptied 0 }.markL2Word 0
  else a

/-- The words of the last level that hold a run. -/
def runWords (first n : ℕ) : List ℕ := List.range' (first / 64) ((first + n - 1) / 64 - first / 64 + 1)

/-- The visitor of `tryAllocBlocks`: the first run that is long enough ends the walk. -/
def firstFit (n : ℕ) (acc : ℕ × ℕ) (s l : ℕ) : (ℕ × ℕ) × Bool :=
  if n ≤ l then ((s, l), false) else (acc, true)

/-- Mend the summaries above a word that lost bits. -/
def mendWord (a : Allocator) (w2 : ℕ) : Allocator :=
  { a.markL2Word w2 with bitmap := a.bitmap.emptied w2 }

/-- `tryAllocBlocks`: the first block of a run of `n`, or 0. -/
def tryAllocBlocks (n : ℕ) : ℕ × Allocator :=
  if a.available false < n ∨ a.bitmap.blockCount < n then (0, a)
  else
    let a := a.reserveBlockZero
    let run := a.bitmap.scanMaximalRuns (firstFit n) n (0, 0)
    if run.2 < n then (0, a)
    else
      let p := (List.range n).foldl
        (fun p i => p.clear2 ((run.1 + i) / 64) ((run.1 + i) % 64)) a.bitmap
      let p := { p with freeCount := (p.freeCount + 2 ^ 64 - n) % 2 ^ 64 }
      (run.1, (runWords run.1 n).foldl mendWord { a with bitmap := p, dirty := true })

/-- `AllocBlocks`, without the retry after a reclaim. -/
def allocBlocks (n : ℕ) : ℕ × Allocator := if n = 0 then (0, a) else a.tryAllocBlocks n

/-- The visitor of `tryAllocRunsUpTo`: the runs taken so far and how many blocks are
still wanted. -/
def harvest (acc : List (ℕ × ℕ) × ℕ) (s l : ℕ) : (List (ℕ × ℕ) × ℕ) × Bool :=
  if acc.2 = 0 then (acc, false)
  else
    let n := min l acc.2
    ((acc.1 ++ [(s, n)], acc.2 - n), decide (0 < acc.2 - n))

/-- The bits of the word `w2` that a taken run holds. -/
def takeMask (first n w2 : ℕ) : Word :=
  let lo := first - w2 * 64
  let hi := first + n - w2 * 64
  let mask : Word := if 0 < lo then ~~~((1#64 <<< lo) - 1) else ~~~(0#64)
  if hi < 64 then mask &&& ((1#64 <<< hi) - 1) else mask

def takeWord (first n : ℕ) (a : Allocator) (w2 : ℕ) : Allocator :=
  { a with bitmap := { a.bitmap with
    l2 := a.bitmap.l2.set w2 (a.bitmap.word2 w2 &&& ~~~(takeMask first n w2)) } }.mendWord w2

def takeRun (a : Allocator) (r : ℕ × ℕ) : Allocator :=
  (runWords r.1 r.2).foldl (takeWord r.1 r.2) a

/-- `tryAllocRunsUpTo`: the runs taken, `n` blocks at most. -/
def tryAllocRunsUpTo (n : ℕ) : List (ℕ × ℕ) × Allocator :=
  if a.available false = 0 then ([], a)
  else if a.bitmap.blockCount < min n (a.available false) then ([], a)
  else
    let b := a.reserveBlockZero
    let runs := (b.bitmap.scanMaximalRuns harvest 0 ([], min n (a.available false))).1
    if runs = [] then ([], b)
    else
      let c := runs.foldl takeRun b
      let total := (runs.map Prod.snd).sum
      (runs, { c with
        bitmap := { c.bitmap with freeCount := (c.bitmap.freeCount + 2 ^ 64 - total) % 2 ^ 64 }
        dirty := true })

/-- `AllocRunsUpTo`, without the retry after a reclaim. -/
def allocRunsUpTo (n : ℕ) : List (ℕ × ℕ) × Allocator :=
  if n = 0 then ([], a) else a.tryAllocRunsUpTo n

end Allocator

end Briefs.Alloc
