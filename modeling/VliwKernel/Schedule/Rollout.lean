import VliwKernel.Scheduler.Picker
import VliwKernel.Schedule.Cycle
import Mathlib.Order.WithBot

/-!
# The rollout scheduler

`schedule_rollout`: every cycle tries each candidate order on a checkpoint, rolls the trial back,
and replays the order with the best score. Scores are exact rationals, `⊥` for a stuck trial.
-/

namespace Vliw

structure SortCtx where
  alloc : RegisterAllocator
  progress : ℚ

/-- A sort function sees the context, the placements that travel on the nodes and the ready set.
The cycle it is called in stands for the state it keeps between calls. -/
abbrev SortFunc := Nat → SortCtx → PlaceState → List Nat → List Nat

/-- `make_weighted_greedy`: a stable sort by `pressured_key`. -/
def weightedGreedy (dag : Dag) (w : Weights) : SortFunc := fun _ ctx p ready =>
  ready.mergeSort fun i j => pressuredKey dag w ctx.alloc p i ≤ pressuredKey dag w ctx.alloc p j

/-- The key of `make_interp_greedy`, for the node `idx` of the graph. -/
def interpKey (dag : Dag) (w1 w2 : Weights) (ctx : SortCtx) (p : PlaceState) (idx : Nat) : ℚ :=
  match dag.nodes[idx]? with
  | none => 0
  | some node =>
      let t := ctx.progress
      let key := fun w => weightedKey w (dag.props idx) (classify node.instr.op).kind (p.lanesDone idx)
      let fw := t * w1.freeing + (1 - t) * w2.freeing
      t * key w1 + (1 - t) * key w2 - freeingRead ctx.alloc node.instr * fw

/-- `make_interp_greedy`: a stable sort by the interpolated key. -/
def interpGreedy (dag : Dag) (w1 w2 : Weights) : SortFunc := fun _ ctx p ready =>
  ready.mergeSort fun i j => interpKey dag w1 w2 ctx p i ≤ interpKey dag w1 w2 ctx p j

/-- The default trial set: the greedy order and `trials - 1` shuffles. -/
def defaultSortFuncs (dag : Dag) (w : Weights) (trials : Nat) (shuffle : Nat → SortFunc) : List SortFunc :=
  weightedGreedy dag w :: (List.range (trials - 1)).map shuffle

structure ScoreWeights where
  aluWork : ℚ := 0
  regDelta : ℚ := -1
  frontier : ℚ := 0
  reads : ℚ := 2
  obligations : ℚ := 0

def FuncUnitPool.used (p : FuncUnitPool) (e : Engine) : Int := SLOT_LIMITS e - p.free e

def poolEngines : List Engine := [.alu, .valu, .load, .store, .flow]

/-- `_score` of the `_features` of the state after a trial. -/
def score (sw : ScoreWeights) (n : Nat) (w : World) (s : Stats) : ℚ :=
  sw.aluWork * (w.pool.used .alu + 8 * w.pool.used .valu) + sw.regDelta * (s.allocs - s.frees)
    + sw.frontier * w.dag.val.frontierSize n + sw.reads * s.reads + sw.obligations * s.obligations

section
variable (rc : Sym → Option Int) (dag : Dag)

def World.checkpoint (w : World) : World :=
  { dag := w.dag.checkpoint.2, alloc := w.alloc.checkpoint.2, place := w.place.checkpoint.2, pool := .fresh }

/-- Roll `t` back to the tokens taken in `w`; the pool needs none. -/
def World.rollback (w t : World) : Except PyErr World := do
  let place ← Placement.rollback w.place.checkpoint.1 t.place
  let alloc ← t.alloc.rollback rc w.alloc.checkpoint.1
  let dag ← Dag.rollback w.dag.checkpoint.1 t.dag
  .ok { t with place := place, alloc := alloc, dag := dag }

/-- Run one order and advance: the state it leaves and what it did. -/
def simulate (order : List Nat) (w : World) : Except PyErr (World × Stats) := do
  let (w, s) ← runCycle rc dag.nodes false order w
  .ok ({ w with dag := (Dag.advance dag.nodes.length w.dag).1 }, s)

/-- Nothing placed: the same empty cycle would repeat forever. -/
def stuck (w : World) (s : Stats) : Bool := (poolEngines.map w.pool.used).sum = 0 && s.committed = 0

def trial (sw : ScoreWeights) (order : List Nat) (w : World) : Except PyErr (World × WithBot ℚ) := do
  let (t, s) ← simulate rc dag order w.checkpoint
  let sc : WithBot ℚ := if stuck t s then ⊥ else (score sw dag.nodes.length t s : ℚ)
  .ok (← w.rollback rc t, sc)

/-- All trials: the first order with the greatest score above `⊥`. -/
def bestOrder (sw : ScoreWeights) : List (List Nat) → World → WithBot ℚ → Option (List Nat) →
    Except PyErr (World × Option (List Nat))
  | [], w, _, best => .ok (w, best)
  | o :: os, w, bestScore, best => do
      let (w, sc) ← trial rc dag sw o w
      if bestScore < sc then bestOrder sw os w sc (some o) else bestOrder sw os w bestScore best

variable (fs : List SortFunc) (sw : ScoreWeights)

/-- The real cycle: place in the chosen order with emission on, advance, collect, emit the bundle. -/
def replay (order : List Nat) (w : World) (committed : Nat) : Except PyErr (World × Nat × TaggedBundle) := do
  let (w, s) ← runCycle rc dag.nodes true order { w with pool := .fresh }
  let w ← endCycle dag.nodes.length w
  .ok (w, committed + s.committed, ← emitBundle w.pool.bundle)

/-- The body of the loop of `schedule_rollout`. -/
def rolloutCycle (C : Nat) (w : World) (committed : Nat) : Except PyErr (World × Nat × TaggedBundle) := do
  let n := dag.nodes.length
  let ready := w.dag.val.ready n
  if ready.isEmpty then .error (.frontierEmpty (n - committed) C)
  else
    let orders := fs.map fun f => f C ⟨w.alloc, committed / n⟩ w.place.val ready
    if C = 0 ∧ ¬ orders.all (fun o => o.mergeSort = ready) then .error .assertion
    else
      let (w, best) ← bestOrder rc dag sw orders w ⊥ none
      match best with
      | none => .error (.deadlock C orders.length ready.length w.alloc.tab.val.freeVec.length
          w.alloc.tab.val.freeScalarCount)
      | some order => replay rc dag order w committed

end

/-- The state a scheduler starts from: `_classify` gives every node a fresh placement. -/
def World.start (dag : Dag) (a : RegisterAllocator) : World := ⟨dag.st, a, Placement.init, .fresh⟩

/-- The loop of either scheduler, `rem` cycles before the cap. -/
def cycleLoop (cycle : Nat → World → Nat → Except PyErr (World × Nat × TaggedBundle)) (n cap : Nat) :
    Nat → World → Nat → List TaggedBundle → Except PyErr (List TaggedBundle × World)
  | rem, w, committed, bundles =>
      if committed < n then do
        let (w, committed, b) ← cycle (cap - rem) w committed
        match rem with
        | 0 => .error (.capExceeded (cap + 1) cap)
        | rem + 1 => cycleLoop cycle n cap rem w committed (bundles ++ [b])
      else .ok (bundles, w)

def scheduleRollout (dag : Dag) (rc : Sym → Option Int) (fs : List SortFunc) (sw : ScoreWeights)
    (cap : Option Nat) (a : RegisterAllocator) : Except PyErr (List TaggedBundle × World) :=
  let cap := cap.getD (dag.nodes.length + 1)
  cycleLoop (rolloutCycle rc dag fs sw) dag.nodes.length cap cap (.start dag a) 0 []

end Vliw
