import Mathlib.Tactic

/-!
# Run-encoded block lists

`runlist.go`: a block list as maximal contiguous runs. `blocks` is the list of
block numbers the runs stand for.
-/

namespace Briefs.Bridge

structure BlockRun where
  first : ℕ
  n : ℕ
  deriving DecidableEq, Repr

structure RunAccum where
  runs : List BlockRun := []
  deriving DecidableEq, Repr

namespace BlockRun

def blocks (r : BlockRun) : List ℕ := List.range' r.first r.n

end BlockRun

namespace RunAccum

/-- Add `[first, first+n)`, extending the last run when adjacent. -/
def addRun (r : RunAccum) (first n : ℕ) : RunAccum :=
  if n = 0 then r
  else
    match r.runs.getLast? with
    | some last =>
      if last.first + last.n = first then
        { runs := r.runs.dropLast ++ [{ last with n := last.n + n }] }
      else { runs := r.runs ++ [⟨first, n⟩] }
    | none => { runs := [⟨first, n⟩] }

def addBlock (r : RunAccum) (x : ℕ) : RunAccum := r.addRun x 1

def count (r : RunAccum) : ℕ := (r.runs.map BlockRun.n).sum

def blocks (r : RunAccum) : List ℕ := r.runs.flatMap BlockRun.blocks

theorem blocks_addRun (r : RunAccum) (first n : ℕ) :
    (r.addRun first n).blocks = r.blocks ++ List.range' first n := by
  unfold addRun
  split_ifs with hn
  · simp [hn]
  · split
    · rename_i last hlast
      obtain ⟨init, hinit⟩ := List.getLast?_eq_some_iff.mp hlast
      split_ifs with hadj
      · subst hadj
        simp [blocks, hinit, BlockRun.blocks, ← List.range'_append_1]
      · simp [blocks, BlockRun.blocks]
    · rename_i hnone
      simp [blocks, List.getLast?_eq_none_iff.mp hnone, BlockRun.blocks]

end RunAccum

end Briefs.Bridge
