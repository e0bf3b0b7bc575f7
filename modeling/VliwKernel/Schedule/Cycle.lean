import VliwKernel.Regalloc.Ssa
import VliwKernel.Scheduler.Pool

/-!
# One scheduling cycle

`_run_cycle` of `rollout.py`: the placements of one cycle, in a given order, either as a trial
that only decides or as the replay that also emits the slots.
-/

namespace Vliw

/-- Everything a scheduler mutates. -/
structure World where
  dag : Dag.Log
  alloc : RegisterAllocator
  place : Placement.Log
  pool : FuncUnitPool

/-- What one cycle did: nodes committed, registers allocated and freed, reads consumed, and reads
promised by the registers newly written. -/
structure Stats where
  committed : Nat
  allocs : Int
  frees : Int
  reads : Nat
  obligations : Int
  deriving DecidableEq

def Stats.zero : Stats := ⟨0, 0, 0, 0, 0⟩

/-- One read operand of `_commit_reads`: consumed and counted if its tag is assigned. -/
def commitRead (acc : RegisterAllocator × Nat) (o : Operand) : Except PyErr (RegisterAllocator × Nat) :=
  if (acc.1.tab.val.assigned o.base).isSome then do .ok (← acc.1.read o.base, acc.2 + 1) else .ok acc

def commitReads (i : Instr Operand) (a : RegisterAllocator) : Except PyErr (RegisterAllocator × Nat) :=
  i.readOperands.foldlM commitRead (a, 0)

def wrTags (i : Instr Operand) : List Sym := i.writeOperands.map Operand.base

section
variable (rc : Sym → Option Int)

/-- One write tag of `_alloc_writes`: the tags allocated so far, the allocator, the obligations. -/
def allocWrite (acc : List Sym × RegisterAllocator × Int) (t : Sym) :
    Except PyErr (List Sym × RegisterAllocator × Int) := do
  let (fresh, a, obligations) := acc
  if (a.tab.val.assigned t).isSome then
    let (_, a) ← a.write rc t
    .ok (fresh, a, obligations)
  else
    let n ← getKey rc t
    let (_, a) ← a.write rc t
    .ok (fresh ++ [t], a, obligations + n)

/-- `_alloc_writes`: the tags allocated by this call, unless some write tag finds no register. -/
def allocWrites (i : Instr Operand) (a : RegisterAllocator) (obligations : Int) :
    Except PyErr (Option (List Sym) × RegisterAllocator × Int) := do
  if (wrTags i).all a.canWrite then
    let (fresh, a, obligations) ← (wrTags i).foldlM (allocWrite rc) ([], a, obligations)
    .ok (some fresh, a, obligations)
  else .ok (none, { a with exhaustionWarnings := a.exhaustionWarnings + 1 }, obligations)

def unallocWrites (i : Instr Operand) (fresh : List Sym) (a : RegisterAllocator) (obligations : Int) :
    Except PyErr (RegisterAllocator × Int) := do
  let a ← (wrTags i).foldlM (RegisterAllocator.unwrite rc) a
  let obligations ← fresh.foldlM (fun n t => do .ok (n - (← getKey rc t))) obligations
  .ok (a, obligations)

/-- The scalar loads of some lanes of a gather. -/
def gatherLanes (node dest addr : Nat) (lanes : List Nat) : List Entry :=
  lanes.map fun j => .lane node j ⟨.load (dest + j) (addr + j), none⟩

/-- Land as many of the remaining lanes of a gather as there are free load slots. -/
def placeGather (p : FuncUnitPool) (pl : Placement.Log) (node total : Nat) (addrs : Option (Nat × Nat)) :
    Option Bool × FuncUnitPool × Placement.Log :=
  let done := pl.val.lanesDone node
  let n := min (total - done) (p.free .load)
  if n = 0 then (none, p, pl)
  else
    let bundle := match addrs with
      | none => p.bundle
      | some (dest, addr) => FuncUnitPool.append p.bundle .load (gatherLanes node dest addr (List.range' done n))
    (some (done + n = total), { p.take .load n with bundle := bundle }, Placement.setLanesDone pl node (done + n))

variable (nodes : List DNode)

/-- Consume the reads of a completed node and commit it to the DAG. -/
def commitNode (node : DNode) (w : World) (st : Stats) : Except PyErr (World × Stats) := do
  let (alloc, n) ← commitReads node.instr w.alloc
  .ok ({ w with alloc := alloc, dag := (Dag.commit nodes w.dag node.idx).1 },
    { st with committed := st.committed + 1, reads := st.reads + n })

def runDebug (emit : Bool) (node : DNode) (w : World) (st : Stats) : Except PyErr (World × Stats) := do
  if emit then
    let (_, pool, place) ← w.pool.place w.place node.idx (classify node.instr.op)
      (some (resolveOperands node.instr w.alloc))
    commitNode nodes node { w with pool := pool, place := place } st
  else commitNode nodes node w st

def runGather (emit : Bool) (node : DNode) (w : World) (st : Stats) : Except PyErr (World × Stats) := do
  let (got, alloc, obligations) ← allocWrites rc node.instr w.alloc st.obligations
  let w := { w with alloc := alloc }
  let st := { st with obligations := obligations }
  match got, wrTags node.instr, node.instr.readOperands with
  | none, _, _ => .ok (w, st)
  | some _, t :: _, addr :: _ =>
      let addrs := if emit then some (alloc.addrOf (.sym t), alloc.addrOf addr) else none
      let (placed, pool, place) := placeGather w.pool w.place node.idx (classify node.instr.op).lanesTotal addrs
      let w := { w with pool := pool, place := place }
      if placed = some true then commitNode nodes node w st else .ok (w, st)
  | some _, _, _ => .error .indexError

def runRegular (emit : Bool) (node : DNode) (w : World) (st : Stats) : Except PyErr (World × Stats) := do
  let (got, alloc, obligations) ← allocWrites rc node.instr w.alloc st.obligations
  match got with
  | none => .ok ({ w with alloc := alloc }, { st with obligations := obligations })
  | some fresh =>
      let instr := if emit then some (resolveOperands node.instr alloc) else none
      let (placed, pool, place) ← w.pool.place w.place node.idx (classify node.instr.op) instr
      let w := { w with alloc := alloc, pool := pool, place := place }
      match placed with
      | none =>
          if place.val.lanesDone node.idx = 0 then
            let (alloc, obligations) ← unallocWrites rc node.instr fresh alloc obligations
            .ok ({ w with alloc := alloc }, { st with obligations := obligations })
          else .ok (w, { st with obligations := obligations })
      | some true => commitNode nodes node w { st with obligations := obligations }
      | some false => .ok (w, { st with obligations := obligations })

def runNode (emit : Bool) (acc : World × Stats) (idx : Nat) : Except PyErr (World × Stats) :=
  match nodes[idx]? with
  | none => .error .indexError
  | some node =>
      match (classify node.instr.op).kind with
      | .debug => runDebug nodes emit node acc.1 acc.2
      | .gather => runGather rc nodes emit node acc.1 acc.2
      | _ => runRegular rc nodes emit node acc.1 acc.2

def runCycle (emit : Bool) (order : List Nat) (w : World) : Except PyErr (World × Stats) := do
  let (w', st) ← order.foldlM (runNode rc nodes emit) (w, .zero)
  .ok (w', { st with allocs := (w'.alloc.nAlloc : Int) - w.alloc.nAlloc
                     frees := (w'.alloc.nFree : Int) - w.alloc.nFree })

end

abbrev TaggedBundle := Dict Engine (List TaggedSlot)

/-- Lower what is still an instruction: the bundle of the cycle. -/
def emitBundle (b : Dict Engine (List Entry)) : Except PyErr TaggedBundle := do
  .ok (.ofList (← b.items.mapM fun (e, es) => do .ok (e, ← es.mapM Entry.emit)))

/-- What follows the placements of a cycle: `advance` and the collection of scalar garbage. -/
def endCycle (n : Nat) (w : World) : Except PyErr World := do
  .ok { w with dag := (Dag.advance n w.dag).1, alloc := ← w.alloc.collectScalarGarbage }

end Vliw
