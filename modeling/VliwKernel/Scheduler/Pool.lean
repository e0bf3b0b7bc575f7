import VliwKernel.Ir
import VliwKernel.Lib.Journal
import VliwKernel.Lib.Outcome

/-!
# Placements and the functional-unit pool

`_Placement`, `_classify` and `FuncUnitPool` of `scheduler.py`. A bundle entry remembers which
node and lane it realises; the emitted slot does not show it.
-/

namespace Vliw

inductive Kind | atomicScalar | load | gather | store | flow | debug | vecFma | vecElem
  deriving DecidableEq, Repr

/-- What `_classify` fixes for a node: its kind, its number of lanes and its own engine. -/
structure Class where
  kind : Kind
  lanesTotal : Nat
  nativeEngine : Engine
  deriving DecidableEq, Repr

def classify {α : Type} (op : Op α) : Class :=
  match op.engine with
  | .alu => ⟨.atomicScalar, 1, .alu⟩
  | .load => if op.isGather then ⟨.gather, VLEN, .load⟩ else ⟨.load, 1, .load⟩
  | .store => ⟨.store, 1, .store⟩
  | .flow => ⟨.flow, 1, .flow⟩
  | .debug => ⟨.debug, 0, .debug⟩
  | .valu =>
      match op with
      | .vecFma .. => ⟨.vecFma, 1, .valu⟩
      | _ => ⟨.vecElem, VLEN, .valu⟩

@[ext]
structure PlaceState where
  lanesDone : Nat → Nat
  engineChoice : Nat → Option Engine

/-- A logged field mutation with the old value. -/
inductive PlaceEntry
  | lanesDone (node : Nat) (old : Nat)
  | engineChoice (node : Nat) (old : Option Engine)

def PlaceEntry.undo : PlaceEntry → PlaceState → Except PyErr PlaceState
  | .lanesDone i old, p => .ok { p with lanesDone := Function.update p.lanesDone i old }
  | .engineChoice i old, p => .ok { p with engineChoice := Function.update p.engineChoice i old }

namespace Placement

abbrev Log := Logged PlaceState PlaceEntry

def init : Log := ⟨⟨fun _ => 0, fun _ => none⟩, none⟩

def setLanesDone (p : Log) (i k : Nat) : Log :=
  p.record { p.val with lanesDone := Function.update p.val.lanesDone i k } (.lanesDone i (p.val.lanesDone i))

def setEngineChoice (p : Log) (i : Nat) (e : Engine) : Log :=
  p.record { p.val with engineChoice := Function.update p.val.engineChoice i (some e) }
    (.engineChoice i (p.val.engineChoice i))

def rollback (token : Nat) (p : Log) : Except PyErr Log := p.rollback PlaceEntry.undo .assertion token

end Placement

/-- A slot of a bundle under construction: a whole resolved instruction, lowered when the cycle is
emitted, or one lane of one. -/
inductive Entry
  | whole (node : Nat) (instr : Instr Reg)
  | lane (node : Nat) (j : Nat) (slot : TaggedSlot)
  deriving DecidableEq

namespace Entry

def node : Entry → Nat
  | whole i _ => i
  | lane i _ _ => i

/-- `s.tagged_lower() if isinstance(s, Instr) else s`. -/
def emit : Entry → Except PyErr TaggedSlot
  | whole _ instr => instr.taggedLower
  | lane _ _ slot => .ok slot

end Entry

/-- The slot of one `alu` lane of an elementwise instruction. -/
def aluLane (instr : Instr Reg) (j : Nat) : Except PyErr TaggedSlot :=
  match instr.op with
  | .vecFma .. => .error .notImplemented
  | .vBroadcast dest src => .ok ⟨.arith .add (dest.addr + j) src.addr 0, some instr.rid⟩
  | .vecElem op dest a1 a2 => .ok ⟨.arith op (dest.addr + j) (a1.addr + j) (a2.addr + j), some instr.rid⟩
  | _ => .error .assertion

/-- `_vec_instr_to_alu_lanes`, as entries of `node`. -/
def aluLanes (node : Nat) (instr : Instr Reg) (lanes : List Nat) : Except PyErr (List Entry) :=
  lanes.mapM fun j => do .ok (.lane node j (← aluLane instr j))

/-- An evictable `vec_elem`: its node and, unless the run is dry, its resolved instruction and its
index in the `valu` bundle. -/
structure ValuElem where
  node : Nat
  home : Option (Instr Reg × Nat)

/-- `valuElems` is a stack, the last placed first. -/
structure FuncUnitPool where
  free : Engine → Nat
  bundle : Dict Engine (List Entry)
  valuElems : List ValuElem

namespace FuncUnitPool

def fresh : FuncUnitPool := ⟨SLOT_LIMITS, .empty, []⟩

def slots (b : Dict Engine (List Entry)) (e : Engine) : List Entry := (b.get? e).getD []

/-- `bundle.setdefault(e, []).append(s)` for each `s`. -/
def append (b : Dict Engine (List Entry)) (e : Engine) (es : List Entry) : Dict Engine (List Entry) :=
  if es.isEmpty then b else b.set e (slots b e ++ es)

def take (p : FuncUnitPool) (e : Engine) (n : Nat) : FuncUnitPool :=
  { p with free := Function.update p.free e (p.free e - n) }

/-- `_spill_alu`: land as many of the remaining lanes as fit. -/
def spillAlu (p : FuncUnitPool) (pl : Placement.Log) (node total : Nat) (instr : Option (Instr Reg)) :
    Except PyErr (Option Bool × FuncUnitPool × Placement.Log) :=
  let done := pl.val.lanesDone node
  let n := min (total - done) (p.free .alu)
  if n = 0 then .ok (none, p, pl)
  else do
    let bundle ← match instr with
      | none => .ok p.bundle
      | some i => do .ok (append p.bundle .alu (← aluLanes node i (List.range' done n)))
    let p := { p.take .alu n with bundle := bundle }
    let pl := Placement.setEngineChoice (Placement.setLanesDone pl node (done + n)) node .alu
    .ok (some (done + n = total), p, pl)

/-- `_swap_elem_to_alu`: evict the last placed `vec_elem` to the `alu`. -/
def swapElemToAlu (p : FuncUnitPool) (pl : Placement.Log) :
    Except PyErr (Bool × FuncUnitPool × Placement.Log) :=
  match p.valuElems with
  | [] => .ok (false, p, pl)
  | v :: rest =>
      if p.free .alu < VLEN then .ok (false, p, pl)
      else do
        let pl := Placement.setEngineChoice pl v.node .alu
        let free := Function.update p.free .valu (p.free .valu + 1)
        let free := Function.update free .alu (free .alu - VLEN)
        let bundle ← match v.home with
          | none => .ok p.bundle
          | some (i, slot) =>
              match p.bundle.get? .valu with
              | none => .error .keyError
              | some valu =>
                  if slot < valu.length then do
                    .ok (append (p.bundle.set .valu (valu.eraseIdx slot)) .alu
                      (← aluLanes v.node i (List.range VLEN)))
                  else .error .indexError
        .ok (true, ⟨free, bundle, rest⟩, pl)

def putWhole (p : FuncUnitPool) (pl : Placement.Log) (node : Nat) (c : Class) (e : Engine)
    (instr : Option (Instr Reg)) : FuncUnitPool × Placement.Log :=
  let bundle := match instr with
    | none => p.bundle
    | some i => append p.bundle e [.whole node i]
  ({ p.take e 1 with bundle := bundle },
    Placement.setEngineChoice (Placement.setLanesDone pl node c.lanesTotal) node e)

/-- `place`: `some true` when the node is complete, `some false` when some of its lanes landed, `none`
when nothing did. Without a resolved instruction (a dry run) no entry is made. -/
def place (p : FuncUnitPool) (pl : Placement.Log) (node : Nat) (c : Class) (instr : Option (Instr Reg)) :
    Except PyErr (Option Bool × FuncUnitPool × Placement.Log) :=
  match c.kind with
  | .debug =>
      match instr with
      | none => .ok (some true, p, pl)
      | some i => .ok (some true, { p with bundle := append p.bundle .debug [.whole node i] }, pl)
  | .vecElem =>
      if 0 < pl.val.lanesDone node then p.spillAlu pl node c.lanesTotal instr
      else if 0 < p.free .valu then
        let (p', pl') := p.putWhole pl node c .valu instr
        let home := instr.map fun i => (i, (slots p'.bundle .valu).length - 1)
        .ok (some true, { p' with valuElems := ⟨node, home⟩ :: p.valuElems }, pl')
      else p.spillAlu pl node c.lanesTotal instr
  | _ =>
      let e := c.nativeEngine
      if p.free e = 0 then
        if e = .valu then do
          let (swapped, p, pl) ← p.swapElemToAlu pl
          if swapped then
            let (p, pl) := p.putWhole pl node c e instr
            .ok (some true, p, pl)
          else .ok (none, p, pl)
        else .ok (none, p, pl)
      else
        let (p, pl) := p.putWhole pl node c e instr
        .ok (some true, p, pl)

end FuncUnitPool
end Vliw
