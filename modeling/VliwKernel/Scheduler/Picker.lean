import VliwKernel.Regalloc.Allocator
import VliwKernel.Scheduler.Dag
import VliwKernel.Scheduler.Pool

/-!
# The weighted picker

The `"weighted"` key of `_make_picker` and the bias towards nodes that free registers, which
`schedule` and `make_weighted_greedy` both subtract from it. Weights are exact rationals.
-/

namespace Vliw

structure Weights where
  sink : ℚ
  load : ℚ
  raw : ℚ
  rigid : ℚ
  group : ℚ
  freeing : ℚ := 1000

/-- The score of a node, higher first. A node is rigid unless it is a fresh `vec_elem`. -/
def weightedScore (w : Weights) (p : NodeProps) (kind : Kind) (lanesDone : Nat) : ℚ :=
  let rigid : ℚ := if kind ≠ .vecElem ∨ 0 < lanesDone then 1 else 0
  w.sink * p.sink - w.load * p.load + w.raw * p.raw + w.rigid * rigid + w.group * p.group

def weightedKey (w : Weights) (p : NodeProps) (kind : Kind) (lanesDone : Nat) : ℚ :=
  -weightedScore w p kind lanesDone

/-- `_freeing_read`: the read operands whose tag has one read left. -/
def freeingRead (a : RegisterAllocator) (i : Instr Operand) : Nat :=
  i.readOperands.countP fun o => a.tab.val.remaining o.base = some 1

/-- `pressured_key` of the weighted picker, for the node `idx` of the graph. -/
def pressuredKey (dag : Dag) (w : Weights) (a : RegisterAllocator) (p : PlaceState) (idx : Nat) : ℚ :=
  match dag.nodes[idx]? with
  | none => 0
  | some node =>
      weightedKey w (dag.props idx) (classify node.instr.op).kind (p.lanesDone idx)
        - freeingRead a node.instr * w.freeing

end Vliw
