import VliwKernel.Ir
import VliwKernel.Lib.Journal
import Mathlib.Algebra.Order.Field.Rat

/-!
# The dependency DAG

`DAG` of `scheduler.py`: a graph of instructions with edges of weight 0 (WAR) and 1 (RAW),
the counters that tell which nodes are ready, and the undo log of both. The counter lists of
the source, which are indexed by node, are functions of the node's index.
-/

namespace Vliw

/-- Static per-node priorities, normalised to `0..1`. -/
structure NodeProps where
  sink : ℚ
  load : ℚ
  raw : ℚ
  group : ℚ
  deriving DecidableEq

/-- A node and its edges, each with the other end and the weight. -/
structure DNode where
  idx : Nat
  instr : Instr Operand
  inEdges : List (Nat × Nat) := []
  outEdges : List (Nat × Nat) := []
  deriving DecidableEq

abbrev DNode.engine (n : DNode) : Engine := n.instr.engine

/-- `raw`, `war`: unresolved in-edges; `pending`: RAW resolutions buffered until `advance`. -/
@[ext]
structure DagState where
  raw : Nat → Int
  war : Nat → Int
  pending : Nat → Int
  committed : Nat → Bool
  frontier : Nat → Bool

inductive DagEntry
  | C (idx : Nat)
  | Fdel (idx : Nat)
  | Fadd (idx : Nat)
  | W (dst : Nat)
  | P (dst : Nat)
  | Z (idx : Nat) (pending : Int)
  | R (idx : Nat) (resolved : Int)
  deriving DecidableEq

/-- The graph as a list of nodes, their properties, and the dynamic state. -/
structure Dag where
  nodes : List DNode
  props : Nat → NodeProps
  st : Logged DagState DagEntry

namespace DagState

def unblocked (s : DagState) (i : Nat) : Bool := s.raw i = 0 && s.war i = 0

def ready (n : Nat) (s : DagState) : List Nat := (List.range n).filter s.frontier

def frontierSize (n : Nat) (s : DagState) : Nat := (s.ready n).length

/-- The counters and the frontier of a graph nothing of which is committed. -/
def initial (nodes : List DNode) : DagState :=
  let raw i := ((nodes[i]?.map fun n => n.inEdges.countP (·.2 = 1)).getD 0 : Nat)
  let war i := ((nodes[i]?.map fun n => n.inEdges.countP (·.2 = 0)).getD 0 : Nat)
  { raw := fun i => raw i
    war := fun i => war i
    pending := fun _ => 0
    committed := fun _ => false
    frontier := fun i => i < nodes.length && raw i = 0 && war i = 0 }

end DagState

def DagEntry.undo : DagEntry → DagState → Except PyErr DagState
  | .C i, s => .ok { s with committed := Function.update s.committed i false }
  | .Fdel i, s => .ok { s with frontier := Function.update s.frontier i true }
  | .Fadd i, s => .ok { s with frontier := Function.update s.frontier i false }
  | .W i, s => .ok { s with war := Function.update s.war i (s.war i + 1) }
  | .P i, s => .ok { s with pending := Function.update s.pending i (s.pending i - 1) }
  | .Z i p, s => .ok { s with pending := Function.update s.pending i p }
  | .R i p, s => .ok { s with raw := Function.update s.raw i (s.raw i + p) }

namespace Dag

abbrev Log := Logged DagState DagEntry

def addFrontier (s : Log) (i : Nat) : Log :=
  s.record { s.val with frontier := Function.update s.val.frontier i true } (.Fadd i)

/-- Relax one out-edge of a committed node; a WAR child that becomes ready is returned. -/
def relax (acc : Log × List Nat) (edge : Nat × Nat) : Log × List Nat :=
  let (s, unlocked) := acc
  let (dst, w) := edge
  if s.val.committed dst then acc
  else if w = 0 then
    let s := s.record { s.val with war := Function.update s.val.war dst (s.val.war dst - 1) } (.W dst)
    if s.val.unblocked dst && !s.val.frontier dst then (addFrontier s dst, unlocked ++ [dst]) else (s, unlocked)
  else
    (s.record { s.val with pending := Function.update s.val.pending dst (s.val.pending dst + 1) } (.P dst), unlocked)

def outEdges (nodes : List DNode) (i : Nat) : List (Nat × Nat) := (nodes[i]?.map DNode.outEdges).getD []

def inEdges (nodes : List DNode) (i : Nat) : List (Nat × Nat) := (nodes[i]?.map DNode.inEdges).getD []

/-- `commit`: the state after it and the WAR children unlocked in this cycle. -/
def commit (nodes : List DNode) (s : Log) (i : Nat) : Log × List Nat :=
  let s := s.record { s.val with committed := Function.update s.val.committed i true } (.C i)
  let s := if s.val.frontier i then
      s.record { s.val with frontier := Function.update s.val.frontier i false } (.Fdel i)
    else s
  (outEdges nodes i).foldl relax (s, [])

def resolve (acc : Log × List Nat) (i : Nat) : Log × List Nat :=
  let (s, unlocked) := acc
  let p := s.val.pending i
  if p = 0 then acc
  else
    let s := s.record { s.val with raw := Function.update s.val.raw i (s.val.raw i - p) } (.R i p)
    let s := s.record { s.val with pending := Function.update s.val.pending i 0 } (.Z i p)
    if !s.val.committed i && s.val.unblocked i && !s.val.frontier i then (addFrontier s i, unlocked ++ [i])
    else (s, unlocked)

/-- `advance`: end of cycle; the newly ready nodes are returned. -/
def advance (n : Nat) (s : Log) : Log × List Nat := (List.range n).foldl resolve (s, [])

def rollback (token : Nat) (s : Log) : Except PyErr Log := s.rollback DagEntry.undo .assertion token

end Dag

def NO_LOAD : Nat := 10 ^ 6

namespace Dag

/-- One step of the sweep from the last node to the first: the longest weighted path to a sink and
the shortest to a load. -/
def distStep (node : DNode) (acc : (Nat → Nat) × (Nat → Nat)) : (Nat → Nat) × (Nat → Nat) :=
  let bestSink := node.outEdges.foldl (fun best e => max best (e.2 + acc.1 e.1)) 0
  let bestLoad := node.outEdges.foldl
    (fun best e => if acc.2 e.1 ≠ NO_LOAD then min best (e.2 + acc.2 e.1) else best) NO_LOAD
  (Function.update acc.1 node.idx bestSink,
    Function.update acc.2 node.idx (if node.engine = .load then 0 else bestLoad))

def dists (nodes : List DNode) : (Nat → Nat) × (Nat → Nat) :=
  nodes.foldr distStep (fun _ => 0, fun _ => NO_LOAD)

def depths (nodes : List DNode) : Nat → Nat :=
  nodes.foldl (fun depth node => Function.update depth node.idx
    (node.inEdges.foldl (fun best e => max best (depth e.1 + e.2)) 0)) (fun _ => 0)

/-- The non-debug nodes without out-edges, by depth and then index. -/
def sinks (nodes : List DNode) : List DNode :=
  (nodes.filter fun n => n.outEdges.isEmpty && n.engine ≠ .debug).mergeSort fun a b =>
    depths nodes a.idx < depths nodes b.idx ||
      (depths nodes a.idx = depths nodes b.idx && a.idx ≤ b.idx)

/-- The depth and the group of the deepest descendant sink; the depth is `-1` where there is none. -/
def sinkStep (node : DNode) (best : Nat → Int × Nat) : Nat → Int × Nat :=
  Function.update best node.idx (node.outEdges.foldl (fun b e =>
    let c := best e.1
    if c.2 = 0 then b
    else if b.2 = 0 || b.1 < c.1 || (c.1 = b.1 && c.2 < b.2) then c else b) (best node.idx))

def groups (nodes : List DNode) : Nat → Int × Nat :=
  let anchored : Nat → Int × Nat := (sinks nodes).zipIdx.foldl (fun best s =>
    Function.update best s.1.idx ((depths nodes s.1.idx : Int), s.2 + 1)) (fun _ => (-1, 0))
  nodes.foldr sinkStep anchored

/-- `max(xs) or 1`. -/
def maxOrOne (xs : List Nat) : Nat := if xs.foldl max 0 = 0 then 1 else xs.foldl max 0

def computeProps (nodes : List DNode) : Nat → NodeProps :=
  let n := nodes.length
  let nRaw i := ((nodes[i]?.map fun n => n.outEdges.countP (·.2 = 1)).getD 0 : Nat)
  let distToSink := (dists nodes).1
  let distToLoad := (dists nodes).2
  let nGroups := (sinks nodes).length
  let maxSink := maxOrOne ((List.range n).map distToSink)
  let loads := ((List.range n).map distToLoad).filter (· ≠ NO_LOAD)
  let maxLoad := if loads.isEmpty then 1 else maxOrOne loads
  let maxRaw := maxOrOne ((List.range n).map nRaw)
  fun i =>
    { sink := distToSink i / maxSink
      load := if distToLoad i = NO_LOAD then 1 else distToLoad i / maxLoad
      raw := nRaw i / maxRaw
      group := if nGroups = 0 then 0 else (groups nodes i).2 / nGroups }

/-- `DAG.from_nodes`: the counters of an edge weight other than 0 and 1 fail an assertion, and
the properties of an empty graph take the maximum of an empty list. -/
def fromNodes (nodes : List DNode) : Except PyErr Dag :=
  if nodes.all fun n => n.inEdges.all fun e => e.2 = 0 || e.2 = 1 then
    if nodes.isEmpty then .error .valueError
    else .ok ⟨nodes, computeProps nodes, ⟨.initial nodes, none⟩⟩
  else .error .assertion

/-- `DAG.reset`: the counters of every node anew and nothing committed. The undo log stays as it is. -/
def reset (dag : Dag) : Dag :=
  let s := dag.nodes.foldl (fun (s : DagState) node =>
    { s with raw := Function.update s.raw node.idx (node.inEdges.countP (·.2 = 1) : Nat)
             war := Function.update s.war node.idx (node.inEdges.countP (·.2 = 0) : Nat) }) dag.st.val
  { dag with st := ⟨{ s with pending := fun _ => 0
                             committed := fun _ => false
                             frontier := fun i => i < dag.nodes.length && s.unblocked i }, dag.st.log⟩ }

end Dag
end Vliw
