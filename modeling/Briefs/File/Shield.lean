import Briefs.Btree.Shape
import Briefs.Dir.State

/-!
# The metadata reserve

`metaReserveSize` sets blocks aside for the index that unwritten blocks need once each of
them is an extent of its own: the leaves, one level over them and one block more. A build
puts as many levels over the leaves as it takes, with one child more in a node.
-/

namespace Briefs.File

open Lib Btree

/-- Two levels are enough for 254 nodes with 254 children each. -/
theorem indexNodes_le {n : ℕ} (hpos : 0 < n) (hn : n ≤ 254 * 254) :
    indexNodes n ≤ (n + 252) / 253 + 1 := by
  rw [indexNodes]
  split_ifs with htwo
  · have hfew : nodeCount n ≤ 254 ∧ nodeCount n ≤ (n + 252) / 253 := by
      simp only [nodeCount, btreeIdxFanout]
      omega
    have hroot : indexNodes (nodeCount n) ≤ 1 := by
      rw [indexNodes]
      split_ifs with hmore
      · have hone : nodeCount (nodeCount n) = 1 := by
          simp only [nodeCount, btreeIdxFanout]
          omega
        rw [hone, indexNodes, if_neg (by norm_num)]
      · exact zero_le_one
    omega
  · omega

end Briefs.File
