import VliwKernel.Scheduler.Picker
import VliwKernel.Schedule.Rollout

/-!
# The greedy scheduler

`schedule` of `regalloc.py`: one pass per cycle over the ready nodes in the order of a heap.
`heapq` is modelled by what it promises, that `heappop` removes the least pair of key and index.
-/

namespace Vliw

/-- `active_key`, read when a node enters the heap. The cycle stands for the state of a random
generator it may draw from. -/
abbrev KeyFunc := Nat → World → Nat → ℚ

/-- The key of `picker="weighted"`. -/
def weightedPicker (dag : Dag) (w : Weights) : KeyFunc := fun _ world idx =>
  pressuredKey dag w world.alloc world.place.val idx

abbrev Heap := List (ℚ × Nat)

def keyLt (a b : ℚ × Nat) : Bool := a.1 < b.1 || (a.1 = b.1 && a.2 < b.2)

def heapMin (a : ℚ × Nat) (h : Heap) : ℚ × Nat := h.foldl (fun m x => if keyLt x m then x else m) a

section
variable (rc : Sym → Option Int) (nodes : List DNode)

/-- Consume the reads of a completed node and commit it; the nodes it unlocks come back. -/
def greedyCommit (node : DNode) (w : World) : Except PyErr (World × Bool × List Nat) := do
  let (alloc, _) ← commitReads node.instr w.alloc
  let (dag, unlocked) := Dag.commit nodes w.dag node.idx
  .ok ({ w with alloc := alloc, dag := dag }, true, unlocked)

def greedyDebug (node : DNode) (w : World) : Except PyErr (World × Bool × List Nat) := do
  let (_, pool, place) ← w.pool.place w.place node.idx (classify node.instr.op)
    (some (resolveOperands node.instr w.alloc))
  greedyCommit nodes node { w with pool := pool, place := place }

/-- No register for some write tag: the node is left for the next cycle. -/
def noRegister (w : World) : World :=
  { w with alloc := { w.alloc with exhaustionWarnings := w.alloc.exhaustionWarnings + 1 } }

def greedyGather (node : DNode) (w : World) : Except PyErr (World × Bool × List Nat) :=
  if (wrTags node.instr).all w.alloc.canWrite then
    match wrTags node.instr, node.instr.readOperands with
    | t :: _, a :: _ => do
        let (dest, alloc) ← w.alloc.write rc t
        let (placed, pool, place) := placeGather w.pool w.place node.idx (classify node.instr.op).lanesTotal
          (some (dest, alloc.addrOf a))
        let w := { w with alloc := alloc, pool := pool, place := place }
        if placed = some true then greedyCommit nodes node w else .ok (w, false, [])
    | _, _ => .error .indexError
  else .ok (noRegister w, false, [])

def greedyRegular (node : DNode) (w : World) : Except PyErr (World × Bool × List Nat) :=
  if (wrTags node.instr).all w.alloc.canWrite then do
    let alloc ← (wrTags node.instr).foldlM (fun a t => do .ok (← a.write rc t).2) w.alloc
    let (placed, pool, place) ← w.pool.place w.place node.idx (classify node.instr.op)
      (some (resolveOperands node.instr alloc))
    let w := { w with alloc := alloc, pool := pool, place := place }
    match placed with
    | none =>
        if place.val.lanesDone node.idx = 0 then
          let alloc ← (wrTags node.instr).foldlM (RegisterAllocator.unwrite rc) alloc
          .ok ({ w with alloc := alloc }, false, [])
        else .ok (w, false, [])
    | some true => greedyCommit nodes node w
    | some false => .ok (w, false, [])
  else .ok (noRegister w, false, [])

/-- One node from the heap: the state after it, whether it was committed, what it unlocked. -/
def greedyNode (w : World) (idx : Nat) : Except PyErr (World × Bool × List Nat) :=
  match nodes[idx]? with
  | none => .error .indexError
  | some node =>
      match (classify node.instr.op).kind with
      | .debug => greedyDebug nodes node w
      | .gather => greedyGather rc nodes node w
      | _ => greedyRegular rc nodes node w

variable (key : KeyFunc)

/-- `while working`: a WAR child enters the heap at most once, so the pops are bounded. -/
def drain (C : Nat) : Nat → Heap → World → Nat → Except PyErr (World × Nat)
  | _, [], w, committed => .ok (w, committed)
  | 0, _ :: _, _, _ => .error .outOfFuel
  | fuel + 1, a :: h, w, committed => do
      let m := heapMin a h
      let (w, done, unlocked) ← greedyNode rc nodes w m.2
      drain C fuel ((a :: h).erase m ++ unlocked.map fun u => (key C w u, u)) w
        (if done then committed + 1 else committed)

/-- The body of the loop of `schedule`. -/
def greedyCycle (C : Nat) (w : World) (committed : Nat) : Except PyErr (World × Nat × TaggedBundle) := do
  let n := nodes.length
  let ready := w.dag.val.ready n
  if ready.isEmpty then .error (.frontierEmpty (n - committed) C)
  else
    let w := { w with pool := .fresh }
    let (w, committed) ← drain rc nodes key C (ready.length + n) (ready.map fun i => (key C w i, i)) w committed
    let bundle ← emitBundle w.pool.bundle
    if bundle.keys.isEmpty ∧ committed < n then .error (.stuck C ready.length w.alloc.exhaustionWarnings)
    else
      let w ← endCycle n w
      .ok (w, committed, bundle)

end

def schedule (dag : Dag) (rc : Sym → Option Int) (key : KeyFunc) (cap : Option Nat) (a : RegisterAllocator) :
    Except PyErr (List TaggedBundle × World) :=
  let cap := cap.getD (dag.nodes.length + 1)
  cycleLoop (greedyCycle rc dag.nodes key) dag.nodes.length cap cap (.start dag a) 0 []

end Vliw
