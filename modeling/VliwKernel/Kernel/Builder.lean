import VliwKernel.Kernel.Reference
import VliwKernel.Kernel.Symbols

/-!
# The kernel builder

The symbolic instruction stream that `build_kernel` emits: a prologue that loads the header, the values and the top
of the tree and makes the constant vectors, and the unrolled rounds over the groups of eight items.
-/

namespace Vliw

/-- The module's knobs. `computedConsts` is the set `COMPUTED_CONSTS`. -/
structure Toggles where
  computedConsts : List Nat
  recomputePathBits : Bool
  level0DirectTree0 : Bool
  preloadL4Groups : Nat
  preloadL4Jit : Bool
  preloadL4BothRounds : Bool
  fuseHashStages23 : Bool
  wrapRootC5Defer : Bool

def Toggles.shipped : Toggles where
  computedConsts := [1, 2, 3, 9, 16, 19, 33, 4097]
  recomputePathBits := false
  level0DirectTree0 := true
  preloadL4Groups := 16
  preloadL4Jit := true
  preloadL4BothRounds := false
  fuseHashStages23 := true
  wrapRootC5Defer := true

section fused

variable (T : HashTable)

def M2 : Nat := (1 <<< (T 2).val3) + 1

def FUSED23_MULT : Nat := M2 T <<< (T 3).val3

def FUSED23_ADD1 : Nat := ((T 2).val1 + (T 3).val1) % WORD

def FUSED23_ADD2 : Nat := ((T 2).val1 <<< (T 3).val3) % WORD

end fused

namespace HashOp

/-- The op string of the vector slot. -/
def alu : HashOp → AluOp
  | add => .add
  | xor => .xor
  | shl => .shl
  | shr => .shr

end HashOp

/-- `vec.lane(j)` -/
def Name.lane (n : Name) (j : Nat) : Operand := .lane n.sym j

def lookup (d : Dict Nat Sym) (k : Nat) : Except PyErr Sym :=
  match d.get? k with
  | some c => .ok c
  | none => .error .keyError

/-- `[(r, base_i + j, field) for j in range(VLEN)]` -/
def laneKeys (r base : Nat) (f : TraceField) : List TraceKey := (List.range VLEN).map fun j => ⟨r, base + j, f⟩

section hash

variable (T : HashTable) (fuse : Bool) (v t1 t2 : Sym) (r base : Nat) (fma irr : Dict Nat Sym) (deferC5 : Bool)

/-- One pass of the loop of `build_vec_hash` over a stage that is not fused. -/
def hashSlots (hi : Nat) (st : HashStage) : Except PyErr (List (Op Operand)) :=
  if deferC5 ∧ hi = 6 - 1 then do
    let shift ← lookup irr st.val3
    .ok [.vecElem st.op3.alu (.sym t2) (.sym v) (.sym shift), .vecElem .xor (.sym v) (.sym v) (.sym t2)]
  else if st.op1 = .add ∧ st.op2 = .add then do
    let mult ← lookup fma ((1 <<< st.val3) + 1)
    let addend ← lookup fma st.val1
    .ok [.vecFma (.sym v) (.sym v) (.sym mult) (.sym addend), .debugVCompare (.sym v) (laneKeys r base (.hashStage hi))]
  else do
    let k ← lookup irr st.val1
    let shift ← lookup irr st.val3
    .ok [.vecElem st.op1.alu (.sym t1) (.sym v) (.sym k), .vecElem st.op3.alu (.sym t2) (.sym v) (.sym shift),
      .vecElem st.op2.alu (.sym v) (.sym t1) (.sym t2), .debugVCompare (.sym v) (laneKeys r base (.hashStage hi))]

/-- Stages 2 and 3 in two multiply-adds and an xor. -/
def fusedSlots : Except PyErr (List (Op Operand)) := do
  let m2 ← lookup fma (M2 T)
  let add1 ← lookup fma (FUSED23_ADD1 T)
  let mult ← lookup fma (FUSED23_MULT T)
  let add2 ← lookup fma (FUSED23_ADD2 T)
  .ok [.vecFma (.sym t1) (.sym v) (.sym m2) (.sym add1), .vecFma (.sym t2) (.sym v) (.sym mult) (.sym add2),
    .vecElem .xor (.sym v) (.sym t1) (.sym t2), .debugVCompare (.sym v) (laneKeys r base (.hashStage 3))]

/-- `while hi < len(HASH_STAGES)`, at most `n` passes of it. -/
def hashLoop : Nat → Nat → Except PyErr (List (Op Operand))
  | 0, _ => .ok []
  | n + 1, hi =>
    if h : hi < 6 then
      if fuse ∧ hi = 2 then do
        let slots ← fusedSlots T v t1 t2 r base fma
        .ok (slots ++ (← hashLoop n (hi + 2)))
      else do
        let slots ← hashSlots v t1 t2 r base fma irr deferC5 hi (T ⟨hi, h⟩)
        .ok (slots ++ (← hashLoop n (hi + 1)))
    else .ok []

/-- `build_vec_hash`, over the stage table `T` and with `FUSE_HASH_STAGES_23` as `fuse`. -/
def buildVecHash : Except PyErr (List (Op Operand)) := hashLoop T fuse v t1 t2 r base fma irr deferC5 6 0

end hash

section constants

variable (tg : Toggles)

/-- `_small_syms`, as the values. -/
def SMALL_CONSTS : List Nat := [1, 2, 3, 9, 16, 19, 33, 4097]

def vecBcasts : List (Name × Nat) :=
  [(.K 0, 0x7ED55D16), (.K 1, 0xC761C23C), (.K 4, 0xFD7046C5), (.K 5, 0xB55A4F09)] ++
  (if tg.fuseHashStages23 then [(.K 23, FUSED23_ADD1 HASH_STAGES), (.K2S9, FUSED23_ADD2 HASH_STAGES)] else [(.K 2, 0x165667B1), (.K 3, 0xD3A2646C)]) ++
  (SMALL_CONSTS.filter (· ∉ tg.computedConsts)).map fun v => (.constVec v, v)

def constDict (l : List (Nat × Name)) : Dict Nat Sym := .ofList (l.map fun (k, n) => (k, n.sym))

def fmaVecConsts : Dict Nat Sym := constDict <|
  [(4097, .constVec 4097), (0x7ED55D16, .K 0), (33, .constVec 33), (9, .constVec 9), (0xFD7046C5, .K 4)] ++
  if tg.fuseHashStages23 then
    [(FUSED23_MULT HASH_STAGES, .constVec 16896), (FUSED23_ADD1 HASH_STAGES, .K 23), (FUSED23_ADD2 HASH_STAGES, .K2S9)]
  else [(0x165667B1, .K 2)]

def irrVecConsts : Dict Nat Sym := constDict
  [(0xC761C23C, .K 1), (0xD3A2646C, .K 3), (0xB55A4F09, .K 5), (19, .constVec 19), (9, .constVec 9), (16, .constVec 16)]

/-- The loop over `vec_bcasts`; `seen` are the keys of `scalar_consts`. -/
def broadcasts : List (Name × Nat) → List Nat → List (Op Operand)
  | [], _ => []
  | (vec, value) :: rest, seen =>
    if value ∈ seen then .vBroadcast vec (Name.constScalar value) :: broadcasts rest seen
    else .const (Name.constScalar value) value :: .vBroadcast vec (Name.constScalar value) :: broadcasts rest (value :: seen)

/-- `if value in COMPUTED_CONSTS` -/
def computed (value : Nat) (ops : List (Op Operand)) : List (Op Operand) := if value ∈ tg.computedConsts then ops else []

open Name in
/-- The small constants that are computed from each other. -/
def smallConsts : List (Op Operand) :=
  computed tg 1 [.vecElem .eq (constVec 1) (constVec 0) (constVec 0)] ++
  computed tg 2 [.vecElem .add (constVec 2) (constVec 1) (constVec 1)] ++
  computed tg 3 [.vecElem .add (constVec 3) (constVec 1) (constVec 2)] ++
  computed tg 9 [.vecElem .mul (constVec 9) (constVec 3) (constVec 3)] ++
  computed tg 16 [.vecElem .shl (constVec 16) (constVec 2) (constVec 3)] ++
  computed tg 19 [.vecElem .add (constVec 19) (constVec 16) (constVec 3)] ++
  computed tg 33 [.vecFma (constVec 33) (constVec 16) (constVec 2) (constVec 1)] ++
  computed tg 4097 [.vecElem .shl (constVec 64) (constVec 16) (constVec 2),
    .vecFma (constVec 4097) (constVec 64) (constVec 64) (constVec 1)] ++
  if tg.fuseHashStages23 then [.vecElem .shl (constVec 16896) (constVec 33) (constVec 9)] else []

end constants

section prologue

variable (tg : Toggles) (nGroups : Nat)

open Name

/-- `addr_a := i; header[v] := mem[i]` for each header word. -/
def headerLoads : List (Op Operand) :=
  INIT_VARS.zipIdx.flatMap fun (v, i) => [.const addrA i, .load (header v) addrA]

/-- The vloads of the values, eight words apart. -/
def valueLoads : List (Op Operand) :=
  .alu .add addrA (header .inpValuesP) ((constVec 0).lane 0) ::
  (List.range nGroups).flatMap fun k =>
    .vLoad (val k) addrA :: if k < nGroups - 1 then [.alu .add addrA addrA eight] else []

def offsets : List (Op Operand) := [
  .vecElem .sub negFp1 (constVec 1) forestP,
  .vecElem .add (posFp 5) (constVec 2) (constVec 3),
  .vecElem .add (posFp 5) (posFp 5) forestP,
  .vecElem .add (posFp 7) (constVec 2) (constVec 2),
  .vecElem .add (posFp 7) (posFp 7) (constVec 3),
  .vecElem .add (posFp 7) (posFp 7) forestP]

/-- The vloads of tree[0..15] and the broadcasts of the first fifteen nodes. -/
def treeLoads : List (Op Operand) :=
  [.alu .add addrA (header .forestValuesP) ((constVec 0).lane 0),
    .vLoad (treePreload 0) addrA,
    .alu .add addrA addrA eight,
    .vLoad (treePreload 2) addrA] ++
  ((List.range 7).map fun i => .vBroadcast (tree i) ((treePreload 0).lane i)) ++
  [.vBroadcast (tree 7) ((treePreload 0).lane 7)] ++
  (List.range 7).map fun i => .vBroadcast (tree (8 + i)) ((treePreload 2).lane i)

/-- Nodes 15 to 30, preloaded once. -/
def level4Loads : List (Op Operand) :=
  [.alu .add addrA addrA eight,
    .vLoad (treePreload 3) addrA,
    .alu .add addrA addrA eight,
    .vLoad (treePreload 4) addrA,
    .vBroadcast (tree 15) ((treePreload 2).lane 7)] ++
  ((List.range 8).map fun i => .vBroadcast (tree (15 + (1 + i))) ((treePreload 3).lane i)) ++
  (List.range 7).map fun i => .vBroadcast (tree (15 + (9 + i))) ((treePreload 4).lane i)

def prologue : List (Op Operand) :=
  [.const eight 8] ++ headerLoads ++ valueLoads nGroups ++ [.vBroadcast forestP (header .forestValuesP)] ++
  broadcasts (vecBcasts tg) [] ++ smallConsts tg ++ offsets ++ treeLoads ++
  if tg.preloadL4Groups > 0 ∧ !tg.preloadL4Jit then level4Loads else []

end prologue
section body

variable (tg : Toggles) (forestHeight nGroups rounds r g : Nat)

open Name

/-- `out_addr[g] := 8g + inp_values_p`. -/
def outAddrs : List (Op Operand) :=
  (List.range nGroups).flatMap fun g =>
    [.const (outAddr g) (g * VLEN : Nat), .alu .add (outAddr g) (outAddr g) (header .inpValuesP)]

def level : Nat := r % (forestHeight + 1)

/-- `PRELOAD_L4_BOTH_ROUNDS or r >= DESCENT` -/
def selectsL4 : Bool := tg.preloadL4BothRounds || forestHeight + 1 ≤ r

/-- `WRAP_ROOT_C5_DEFER and level == 0 and not first` -/
def repairs : Bool := tg.wrapRootC5Defer && level forestHeight r = 0 && r ≠ 0

/-- What a round emits before its groups: the repaired root, and the just-in-time preload of level 4. -/
def roundPrelude : List (Op Operand) :=
  (if repairs tg forestHeight r then [.vecElem .xor tree0Xor5 (tree 0) (K 5)] else []) ++
  if tg.preloadL4Groups > 0 ∧ tg.preloadL4Jit ∧ level forestHeight r = 4 ∧ selectsL4 tg forestHeight r then
    [.const l4Addr 15,
      .alu .add l4Addr l4Addr (header .forestValuesP),
      .vLoad l4PlA l4Addr,
      .alu .add l4Addr l4Addr eight,
      .vLoad l4PlB l4Addr] ++
    ((List.range 8).map fun i => .vBroadcast (tree (15 + i)) (l4PlA.lane i)) ++
    (List.range 8).map fun i => .vBroadcast (tree (15 + (8 + i))) (l4PlB.lane i)
  else []

/-- Level 3 from the four nodes of each of its path bits, recomputed first if they are not retained. -/
def level3Slots : List (Op Operand) :=
  (if tg.recomputePathBits then [
    .vecElem .sub (t 2) (addr g) (posFp 7),
    .vecElem .shr (path g 0) (t 2) (constVec 2),
    .vecElem .shr (t 1) (t 2) (constVec 1),
    .vecElem .and (path g 1) (t 1) (constVec 1),
    .vecElem .and (path g 2) (t 2) (constVec 1)] else []) ++ [
  .vSelect (t 1) (path g 0) (tree 11) (tree 7),
  .vSelect (t 2) (path g 0) (tree 12) (tree 8),
  .vSelect (t 3) (path g 0) (tree 13) (tree 9),
  .vSelect nv (path g 0) (tree 14) (tree 10),
  .vSelect (t 1) (path g 1) (t 3) (t 1),
  .vSelect (t 2) (path g 1) nv (t 2),
  .vSelect nv (path g 2) (t 2) (t 1)]

/-- `E[k]` is `tree[15 + 2k]`, `O[k]` is `tree[16 + 2k]`. -/
def level4Slots : List (Op Operand) :=
  let E := fun k => tree (15 + 2 * k)
  let O := fun k => tree (16 + 2 * k)
  [.vSelect (t 1) (path g 0) (E 4) (E 0),
    .vSelect (t 2) (path g 0) (E 5) (E 1),
    .vSelect (t 3) (path g 0) (E 6) (E 2),
    .vSelect (t 4) (path g 0) (E 7) (E 3),
    .vSelect (t 1) (path g 1) (t 3) (t 1),
    .vSelect (t 2) (path g 1) (t 4) (t 2),
    .vSelect (t 4) (path g 2) (t 2) (t 1),
    .vSelect (t 1) (path g 0) (O 4) (O 0),
    .vSelect (t 2) (path g 0) (O 5) (O 1),
    .vSelect (t 3) (path g 0) (O 6) (O 2),
    .vSelect nv (path g 0) (O 7) (O 3),
    .vSelect (t 1) (path g 1) (t 3) (t 1),
    .vSelect (t 2) (path g 1) nv (t 2),
    .vSelect nv (path g 2) (t 2) (t 1),
    .vSelect nv (path g 3) nv (t 4)]

/-- The operand that holds the node value, and the slots that put it there: a select among preloaded nodes or a gather. -/
def nodeSlots : Name × List (Op Operand) :=
  match level forestHeight r with
  | 0 =>
    let t0 := if tg.wrapRootC5Defer && r ≠ 0 then tree0Xor5 else tree 0
    if tg.level0DirectTree0 then (t0, []) else (nv, [.vecElem .xor nv t0 (constVec 0)])
  | 1 => (nv, [.vSelect nv (path g 0) (tree 2) (tree 1)])
  | 2 => (nv, [
      .vSelect (t 1) (path g 0) (tree 5) (tree 3),
      .vSelect (t 2) (path g 0) (tree 6) (tree 4),
      .vSelect nv (path g 1) (t 2) (t 1)])
  | 3 => (nv, level3Slots tg g)
  | 4 => (nv, if g < tg.preloadL4Groups ∧ selectsL4 tg forestHeight r then level4Slots g else [.gather nv (addr g)])
  | _ => (nv, [.gather nv (addr g)])

/-- The address update after the hash: back to the root, or on to a child. -/
def updateSlots : List (Op Operand) :=
  if level forestHeight r = forestHeight then [.vecElem .sub (addr g) (constVec 1) negFp1]
  else
    let pdest := path g (level forestHeight r)
    [.vecElem .and pdest (val g) (constVec 1),
      if r = 0 then .vecElem .sub (t 2) (constVec 2) negFp1 else .vecFma (t 2) (addr g) (constVec 2) negFp1,
      .vecElem .add (addr g) (t 2) pdest]

def groupSlots : Except PyErr (List (Op Operand)) := do
  let base := g * VLEN
  let defers := tg.wrapRootC5Defer && level forestHeight r = forestHeight
  let (nvOp, select) := nodeSlots tg forestHeight r g
  let hash ← buildVecHash HASH_STAGES tg.fuseHashStages23 (val g) (t 1) (t 2) r base (fmaVecConsts tg) irrVecConsts defers
  .ok (select ++
    (if repairs tg forestHeight r then [] else
      [.debugVCompare nvOp (laneKeys r base .nodeVal), .debugVCompare (val g) (laneKeys r base .val)]) ++
    [.vecElem .xor (val g) (val g) nvOp] ++ hash ++
    (if defers then [] else [.debugVCompare (val g) (laneKeys r base .hashedVal)]) ++
    updateSlots forestHeight r g ++
    if r = rounds - 1 then [.vStore (outAddr g) (val g)] else [])

def roundSlots (n : Nat) : Except PyErr (List (Op Operand)) := do
  let groups ← (List.range n).mapM (groupSlots tg forestHeight rounds r)
  .ok (roundPrelude tg forestHeight r ++ groups.flatten)

def bodySlots (n : Nat) : Except PyErr (List (Op Operand)) := do
  let rs ← (List.range n).mapM fun r => roundSlots tg forestHeight rounds r nGroups
  .ok (outAddrs nGroups ++ rs.flatten)

end body

/-- The prologue and the body that `build_kernel` hands to the register allocator. -/
def buildKernel (tg : Toggles) (forestHeight nNodes batchSize rounds : Nat) :
    Except PyErr (List (Op Operand) × List (Op Operand)) := do
  if batchSize ≠ 256 then .error .assertion
  else if batchSize % VLEN ≠ 0 then .error .assertion
  else if forestHeight ≠ 10 then .error .assertion
  else if nNodes ≠ 2 ^ (forestHeight + 1) - 1 then .error .assertion
  else
    let nGroups := batchSize / VLEN
    .ok (prologue tg nGroups, ← bodySlots tg forestHeight nGroups rounds rounds)

/-- Instructions under consecutive ids from `c` on. -/
def number (c : Nat) (ops : List (Op Operand)) : List (Instr Operand) := ops.mapIdx fun i op => ⟨c + i, op⟩

end Vliw
