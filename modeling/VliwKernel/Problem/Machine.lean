import VliwKernel.Lib.Dict
import Mathlib.Data.List.Basic
import Mathlib.Data.Nat.Bitwise

/-!
# The simulator

One core of the VLIW machine: every slot of a bundle reads the scratch and memory of the
cycle's start and all writes land at its end. `N_CORES` is 1, so `Machine` carries a
single core. Python exceptions are values of `PyErr`.
-/

namespace Vliw

inductive Engine | alu | valu | load | store | flow | debug
  deriving DecidableEq, Repr

/-- The exceptions the modelled code can raise, with the data of their messages. -/
inductive PyErr
  | keyError | valueError | indexError | zeroDivision | notImplemented | assertion
  | exhausted (tag : String)
  | frontierEmpty (uncommitted cycle : Nat)
  | stuck (cycle ready warnings : Nat)
  | deadlock (cycle trials ready freeVec freeScalar : Nat)
  | capExceeded (cycle cap : Nat)
  /-- The simulation was cut off by the fuel of `Machine.run`, which Python has no part in. -/
  | outOfFuel
  deriving DecidableEq, Repr

def PyErr.isRuntimeError : PyErr → Bool
  | .exhausted _ | .frontierEmpty .. | .stuck .. | .deadlock .. | .capExceeded .. => true
  | _ => false

def SLOT_LIMITS : Engine → Nat
  | .alu => 12
  | .valu => 6
  | .load => 2
  | .store => 2
  | .flow => 1
  | .debug => 64

def VLEN : Nat := 8

def SCRATCH_SIZE : Nat := 1536

def WORD : Nat := 2 ^ 32

theorem WORD_pos : 0 < WORD := Nat.two_pow_pos 32

/-- The op strings of `Machine.alu`; `other` is any string it does not know. -/
inductive AluOp | add | sub | mul | floordiv | cdiv | xor | and | or | shl | shr | mod | lt | eq
  | other (name : String)
  deriving DecidableEq, Repr

/-- `Machine.alu` on the two operand words, reduced mod `2^32`. -/
def aluOp (op : AluOp) (a1 a2 : Nat) : Except PyErr Nat :=
  match op with
  | .add => .ok ((a1 + a2) % WORD)
  | .sub => .ok (((a1 : Int) - a2) % WORD).toNat
  | .mul => .ok (a1 * a2 % WORD)
  | .floordiv => if a2 = 0 then .error .zeroDivision else .ok (a1 / a2 % WORD)
  | .cdiv => if a2 = 0 then .error .zeroDivision else .ok ((a1 + a2 - 1) / a2 % WORD)
  | .xor => .ok ((a1 ^^^ a2) % WORD)
  | .and => .ok ((a1 &&& a2) % WORD)
  | .or => .ok ((a1 ||| a2) % WORD)
  | .shl => .ok ((a1 <<< a2) % WORD)
  | .shr => .ok ((a1 >>> a2) % WORD)
  | .mod => if a2 = 0 then .error .zeroDivision else .ok (a1 % a2 % WORD)
  | .lt => .ok (if a1 < a2 then 1 else 0)
  | .eq => .ok (if a1 = a2 then 1 else 0)
  | .other _ => .error .notImplemented

inductive TraceField | idx | val | nodeVal | hashStage (stage : Nat) | hashedVal | nextIdx | wrappedIdx
  deriving DecidableEq, Repr

/-- A key of the reference trace: `(round, item, field)`. -/
structure TraceKey where
  round : Nat
  item : Nat
  field : TraceField
  deriving DecidableEq, Repr

/-- The simulator's slot tuples. `arith` is the four-tuple `(op, dest, a1, a2)`, which `alu`
reads as one word and `valu` as eight lanes. -/
inductive Slot
  | arith (op : AluOp) (dest a1 a2 : Nat)
  | vbroadcast (dest src : Nat)
  | multiplyAdd (dest a b c : Nat)
  | load (dest addr : Nat)
  | loadOffset (dest addr offset : Nat)
  | vload (dest addr : Nat)
  | const (dest : Nat) (val : Int)
  | store (addr src : Nat)
  | vstore (addr src : Nat)
  | select (dest cond a b : Nat)
  | addImm (dest a : Nat) (imm : Int)
  | vselect (dest cond a b : Nat)
  | halt
  | pause
  | traceWrite (val : Nat)
  | condJump (cond addr : Nat)
  | condJumpRel (cond : Nat) (offset : Int)
  | jump (addr : Nat)
  | jumpIndirect (addr : Nat)
  | coreid (dest : Nat)
  | compare (loc : Nat) (key : TraceKey)
  | vcompare (loc : Nat) (keys : List TraceKey)
  deriving DecidableEq, Repr

/-- One VLIW instruction: the slots of each engine, engines in the order they were added. -/
abbrev Bundle := Dict Engine (List Slot)

inductive CoreState | running | paused | stopped
  deriving DecidableEq, Repr

structure Core where
  id : Nat
  scratch : List Nat
  traceBuf : List Nat
  pc : Int
  state : CoreState

structure Machine where
  core : Core
  mem : List Nat
  program : List Bundle
  valueTrace : TraceKey → Option Nat
  cycle : Nat
  enablePause : Bool
  enableDebug : Bool

def Core.init (scratchSize : Nat) : Core := ⟨0, List.replicate scratchSize 0, [], 0, .running⟩

def Machine.init (mem : List Nat) (program : List Bundle) (valueTrace : TraceKey → Option Nat) : Machine :=
  ⟨Core.init SCRATCH_SIZE, mem, program, valueTrace, 0, true, true⟩

/-- The writes buffered during one cycle, oldest first. The source keeps dictionaries; applying
the whole log in order leaves what the last write to each address leaves. -/
structure Writes where
  scratch : List (Nat × Nat) := []
  mem : List (Nat × Nat) := []

def Writes.append (v w : Writes) : Writes := ⟨v.scratch ++ w.scratch, v.mem ++ w.mem⟩

/-- `xs[i]` for a list indexed by a word. -/
def at? (xs : List Nat) (i : Nat) : Except PyErr Nat :=
  match xs[i]? with
  | some x => .ok x
  | none => .error .indexError

namespace Machine

def alu (core : Core) (op : AluOp) (dest a1 a2 : Nat) : Except PyErr (List (Nat × Nat)) := do
  let x ← at? core.scratch a1
  let y ← at? core.scratch a2
  let res ← aluOp op x y
  .ok [(dest, res)]

/-- `for i in range(VLEN)`, collecting the write of each lane. -/
def lanes (f : Nat → Except PyErr (Nat × Nat)) : Except PyErr (List (Nat × Nat)) :=
  (List.range VLEN).mapM f

def valu (core : Core) : Slot → Except PyErr (List (Nat × Nat))
  | .vbroadcast dest src => lanes fun i => do .ok (dest + i, ← at? core.scratch src)
  | .multiplyAdd dest a b c => lanes fun i => do
      let mul := (← at? core.scratch (a + i)) * (← at? core.scratch (b + i)) % WORD
      .ok (dest + i, (mul + (← at? core.scratch (c + i))) % WORD)
  | .arith op dest a1 a2 => lanes fun i => do
      let x ← at? core.scratch (a1 + i)
      let y ← at? core.scratch (a2 + i)
      .ok (dest + i, ← aluOp op x y)
  | _ => .error .notImplemented

def load (core : Core) (mem : List Nat) : Slot → Except PyErr (List (Nat × Nat))
  | .load dest addr => do .ok [(dest, ← at? mem (← at? core.scratch addr))]
  | .loadOffset dest addr offset => do
      .ok [(dest + offset, ← at? mem (← at? core.scratch (addr + offset)))]
  | .vload dest addr => do
      let base ← at? core.scratch addr
      lanes fun vi => do .ok (dest + vi, ← at? mem (base + vi))
  | .const dest val => .ok [(dest, (val % WORD).toNat)]
  | _ => .error .notImplemented

def store (core : Core) : Slot → Except PyErr (List (Nat × Nat))
  | .store addr src => do .ok [(← at? core.scratch addr, ← at? core.scratch src)]
  | .vstore addr src => do
      let base ← at? core.scratch addr
      lanes fun vi => do .ok (base + vi, ← at? core.scratch (src + vi))
  | _ => .error .notImplemented

def flow (core : Core) (enablePause : Bool) : Slot → Except PyErr (Core × List (Nat × Nat))
  | .select dest cond a b => do
      let c ← at? core.scratch cond
      .ok (core, [(dest, ← at? core.scratch (if c ≠ 0 then a else b))])
  | .addImm dest a imm => do
      .ok (core, [(dest, ((((← at? core.scratch a) : Int) + imm) % WORD).toNat)])
  | .vselect dest cond a b => do
      let ws ← lanes fun vi => do
        let c ← at? core.scratch (cond + vi)
        .ok (dest + vi, ← at? core.scratch (if c ≠ 0 then a + vi else b + vi))
      .ok (core, ws)
  | .halt => .ok ({ core with state := .stopped }, [])
  | .pause => .ok (if enablePause then { core with state := .paused } else core, [])
  | .traceWrite val => do .ok ({ core with traceBuf := core.traceBuf ++ [← at? core.scratch val] }, [])
  | .condJump cond addr => do
      let c ← at? core.scratch cond
      .ok (if c ≠ 0 then { core with pc := addr } else core, [])
  | .condJumpRel cond offset => do
      let c ← at? core.scratch cond
      .ok (if c ≠ 0 then { core with pc := core.pc + offset } else core, [])
  | .jump addr => .ok ({ core with pc := addr }, [])
  | .jumpIndirect addr => do
      let target ← at? core.scratch addr
      .ok ({ core with pc := target }, [])
  | .coreid dest => .ok (core, [(dest, core.id)])
  | _ => .error .notImplemented

/-- The debug oracle: a missing trace key is a `KeyError`, a mismatch an `AssertionError`. -/
def debugCheck (core : Core) (valueTrace : TraceKey → Option Nat) : Slot → Except PyErr Unit
  | .compare loc key => do
      match valueTrace key with
      | none => .error .keyError
      | some ref => if (← at? core.scratch loc) = ref then .ok () else .error .assertion
  | .vcompare loc keys => do
      match keys.mapM valueTrace with
      | none => .error .keyError
      | some ref => if (core.scratch.drop loc).take VLEN = ref then .ok () else .error .assertion
  | _ => .ok ()

/-- One slot of a non-debug engine: the core after it and the writes it adds. -/
def execSlot (m : Machine) (e : Engine) (core : Core) (slot : Slot) : Except PyErr (Core × Writes) :=
  match e, slot with
  | .alu, .arith op dest a1 a2 => do .ok (core, { scratch := ← alu core op dest a1 a2 })
  | .alu, _ => .error .notImplemented
  | .valu, s => do .ok (core, { scratch := ← valu core s })
  | .load, s => do .ok (core, { scratch := ← load core m.mem s })
  | .store, s => do .ok (core, { mem := ← store core s })
  | .flow, s => do
      let (core, ws) ← flow core m.enablePause s
      .ok (core, { scratch := ws })
  | .debug, _ => .ok (core, {})

def execSlots (m : Machine) (e : Engine) : List Slot → Core × Writes → Except PyErr (Core × Writes)
  | [], cw => .ok cw
  | s :: ss, (core, w) => do
      let (core, w') ← execSlot m e core s
      execSlots m e ss (core, w.append w')

/-- All the slots of one engine, after the engine's slot limit is asserted. -/
def execEngine (m : Machine) (cw : Core × Writes) (item : Engine × List Slot) :
    Except PyErr (Core × Writes) :=
  if item.1 = .debug then do
    if m.enableDebug then
      let _ ← item.2.mapM (debugCheck cw.1 m.valueTrace)
    .ok cw
  else if item.2.length ≤ SLOT_LIMITS item.1 then execSlots m item.1 item.2 cw
  else .error .assertion

def applyWrites : List (Nat × Nat) → List Nat → Except PyErr (List Nat)
  | [], xs => .ok xs
  | (a, v) :: ws, xs => if a < xs.length then applyWrites ws (xs.set a v) else .error .indexError

def step (m : Machine) (instr : Bundle) : Except PyErr Machine := do
  let (core, w) ← instr.items.foldlM (execEngine m) (m.core, {})
  let scratch ← applyWrites w.scratch core.scratch
  let mem ← applyWrites w.mem m.mem
  .ok { m with core := { core with scratch := scratch }, mem := mem }

/-- `program[pc]`, with Python's reading of a negative index. -/
def fetch (program : List Bundle) (pc : Int) : Option Bundle :=
  if 0 ≤ pc then program[pc.toNat]? else
    if -pc ≤ program.length then program[(program.length + pc).toNat]? else none

/-- One pass of the `while` loop of `run`, for a running core. -/
def tick (m : Machine) : Except PyErr Machine :=
  if (m.program.length : Int) ≤ m.core.pc then
    .ok { m with core := { m.core with state := .stopped } }
  else
    match fetch m.program m.core.pc with
    | none => .error .indexError
    | some instr => do
        let m ← step { m with core := { m.core with pc := m.core.pc + 1 } } instr
        .ok (if instr.keys.any (· ≠ .debug) then { m with cycle := m.cycle + 1 } else m)

def runLoop : Nat → Machine → Except PyErr Machine
  | fuel, m =>
    if m.core.state = .running then
      match fuel with
      | 0 => .error .outOfFuel
      | fuel + 1 => do runLoop fuel (← tick m)
    else .ok m

/-- `Machine.run`, cut off after `fuel` passes of its loop. -/
def run (fuel : Nat) (m : Machine) : Except PyErr Machine :=
  runLoop fuel
    (if m.core.state = .paused then { m with core := { m.core with state := .running } } else m)

end Machine
end Vliw
