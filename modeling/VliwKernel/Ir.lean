import VliwKernel.Problem.Machine

/-!
# The intermediate representation

Instructions are generic in their operands: the symbolic phase has `Operand`s (a symbol or
one lane of it), the resolved phase has `Reg`s, physical scratch addresses.
-/

namespace Vliw

/-- A declared variable; `isVec` is its shape, one word or eight lanes. -/
structure Sym where
  name : String
  isVec : Bool := false
  deriving DecidableEq, Repr

/-- A symbolic operand: a whole symbol, or the scalar view `vec[j]`. -/
inductive Operand
  | sym (s : Sym)
  | lane (vec : Sym) (j : Nat)
  deriving DecidableEq, Repr

namespace Operand

/-- `_base`: a lane views its vector. -/
def base : Operand → Sym
  | sym s => s
  | lane vec _ => vec

/-- `getattr(o, "is_vec", False)`: a lane has no such attribute. -/
def isVec : Operand → Bool
  | sym s => s.isVec
  | lane _ _ => false

def withBase (t : Sym) : Operand → Operand
  | sym _ => sym t
  | lane _ j => lane t j

/-- The offset of the operand's first word in its symbol. -/
def offset : Operand → Nat
  | sym _ => 0
  | lane _ j => j

@[simp] theorem base_withBase (t : Sym) (o : Operand) : (o.withBase t).base = t := by cases o <;> rfl

@[simp] theorem offset_withBase (t : Sym) (o : Operand) : (o.withBase t).offset = o.offset := by
  cases o <;> rfl

def isScalar : Operand → Bool
  | sym s => !s.isVec
  | lane vec j => vec.isVec && j < VLEN

def isVector : Operand → Bool
  | sym s => s.isVec
  | lane _ _ => false

end Operand

/-- A physical word, or the first word of a vector region. -/
structure Reg where
  addr : Nat
  isVec : Bool := false
  deriving DecidableEq, Repr

inductive Op (α : Type)
  | alu (op : AluOp) (dest a1 a2 : α)
  | vecElem (op : AluOp) (dest a1 a2 : α)
  | vecFma (dest a b c : α)
  | vBroadcast (dest src : α)
  | load (dest addr : α)
  | vLoad (dest addr : α)
  | gather (dest addr : α)
  | const (dest : α) (val : Int)
  | vStore (addr src : α)
  | vSelect (dest cond a b : α)
  | pause
  | debugVCompare (loc : α) (keys : List TraceKey)
  deriving DecidableEq, Repr

namespace Op

variable {α β : Type}

def engine : Op α → Engine
  | alu .. => .alu
  | vecElem .. | vecFma .. | vBroadcast .. => .valu
  | load .. | vLoad .. | gather .. | const .. => .load
  | vStore .. => .store
  | vSelect .. | pause => .flow
  | debugVCompare .. => .debug

/-- The `_RD` fields, in order. -/
def readOperands : Op α → List α
  | alu _ _ a1 a2 | vecElem _ _ a1 a2 => [a1, a2]
  | vecFma _ a b c => [a, b, c]
  | vBroadcast _ src => [src]
  | load _ addr | vLoad _ addr | gather _ addr => [addr]
  | const .. | pause => []
  | vStore addr src => [addr, src]
  | vSelect _ cond a b => [cond, a, b]
  | debugVCompare loc _ => [loc]

/-- The `_WR` field, for the classes that have one. -/
def dest? : Op α → Option α
  | alu _ dest _ _ | vecElem _ dest _ _ | vecFma dest _ _ _ | vBroadcast dest _ | load dest _
  | vLoad dest _ | gather dest _ | const dest _ | vSelect dest _ _ _ => some dest
  | vStore .. | pause | debugVCompare .. => none

def writeOperands (o : Op α) : List α := o.dest?.toList

/-- `rebuild`: every read operand resolved by `rd` and every write operand by `wr`. -/
def rebuild (rd wr : α → β) : Op α → Op β
  | alu op dest a1 a2 => alu op (wr dest) (rd a1) (rd a2)
  | vecElem op dest a1 a2 => vecElem op (wr dest) (rd a1) (rd a2)
  | vecFma dest a b c => vecFma (wr dest) (rd a) (rd b) (rd c)
  | vBroadcast dest src => vBroadcast (wr dest) (rd src)
  | load dest addr => load (wr dest) (rd addr)
  | vLoad dest addr => vLoad (wr dest) (rd addr)
  | gather dest addr => gather (wr dest) (rd addr)
  | const dest val => const (wr dest) val
  | vStore addr src => vStore (rd addr) (rd src)
  | vSelect dest cond a b => vSelect (wr dest) (rd cond) (rd a) (rd b)
  | pause => pause
  | debugVCompare loc keys => debugVCompare (rd loc) keys

@[simp] theorem engine_rebuild (rd wr : α → β) (o : Op α) : (o.rebuild rd wr).engine = o.engine := by
  cases o <;> rfl

@[simp] theorem readOperands_rebuild (rd wr : α → β) (o : Op α) :
    (o.rebuild rd wr).readOperands = o.readOperands.map rd := by
  cases o <;> rfl

@[simp] theorem dest?_rebuild (rd wr : α → β) (o : Op α) :
    (o.rebuild rd wr).dest? = o.dest?.map wr := by
  cases o <;> rfl

theorem mem_writeOperands {o : Op α} {d : α} : d ∈ o.writeOperands ↔ o.dest? = some d := by
  simp [writeOperands, Option.mem_toList]

theorem rebuild_congr {rd rd' wr wr' : α → β} {o : Op α} (hr : ∀ a ∈ o.readOperands, rd a = rd' a)
    (hw : ∀ d, o.dest? = some d → wr d = wr' d) : o.rebuild rd wr = o.rebuild rd' wr' := by
  cases o <;> simp_all [rebuild, readOperands, dest?]

def isGather : Op α → Bool
  | gather .. => true
  | _ => false

end Op

/-- An instruction: its operation and the stable id given at construction. -/
structure Instr (α : Type) where
  rid : Nat
  op : Op α
  deriving DecidableEq, Repr

namespace Instr

variable {α β : Type}

abbrev engine (i : Instr α) : Engine := i.op.engine

abbrev readOperands (i : Instr α) : List α := i.op.readOperands

abbrev writeOperands (i : Instr α) : List α := i.op.writeOperands

def rebuild (rd wr : α → β) (i : Instr α) : Instr β := ⟨i.rid, i.op.rebuild rd wr⟩

end Instr

/-- `lower`: the slot tuple of a resolved instruction. A gather has none. -/
def Op.lower : Op Reg → Except PyErr Slot
  | .alu op dest a1 a2 | .vecElem op dest a1 a2 => .ok (.arith op dest.addr a1.addr a2.addr)
  | .vecFma dest a b c => .ok (.multiplyAdd dest.addr a.addr b.addr c.addr)
  | .vBroadcast dest src => .ok (.vbroadcast dest.addr src.addr)
  | .load dest addr => .ok (.load dest.addr addr.addr)
  | .vLoad dest addr => .ok (.vload dest.addr addr.addr)
  | .gather .. => .error .notImplemented
  | .const dest val => .ok (.const dest.addr val)
  | .vStore addr src => .ok (.vstore addr.addr src.addr)
  | .vSelect dest cond a b => .ok (.vselect dest.addr cond.addr a.addr b.addr)
  | .pause => .ok .pause
  | .debugVCompare loc keys => .ok (.vcompare loc.addr keys)

/-- A slot of an emitted bundle: the tuple and, for a `TaggedSlot`, the id it carries. -/
structure TaggedSlot where
  slot : Slot
  rid : Option Nat
  deriving DecidableEq, Repr

def Instr.taggedLower (i : Instr Reg) : Except PyErr TaggedSlot := do .ok ⟨← i.op.lower, some i.rid⟩

namespace Op

def width {α : Type} : Op α → Nat
  | alu .. | load .. | const .. => 1
  | vecElem .. | vecFma .. | vBroadcast .. | vLoad .. | gather .. | vSelect .. => VLEN
  | vStore .. | pause | debugVCompare .. => 0

/-- The destination has the shape the operation writes: eight lanes of a vector symbol, or one
word, which is a scalar symbol or one lane of a vector. -/
def DestShaped (o : Op Operand) : Prop :=
  ∀ d, o.dest? = some d → if o.width = 1 then d.isScalar else d.isVector

def Shaped : Op Operand → Prop
  | alu _ dest a1 a2 => dest.isScalar ∧ a1.isScalar ∧ a2.isScalar
  | vecElem _ dest a1 a2 => dest.isVector ∧ a1.isVector ∧ a2.isVector
  | vecFma dest a b c => dest.isVector ∧ a.isVector ∧ b.isVector ∧ c.isVector
  | vBroadcast dest src => dest.isVector ∧ src.isScalar
  | load dest addr => dest.isScalar ∧ addr.isScalar
  | vLoad dest addr => dest.isVector ∧ addr.isScalar
  | gather dest addr => dest.isVector ∧ addr.isVector
  | const dest _ => dest.isScalar
  | vStore addr src => addr.isScalar ∧ src.isVector
  | vSelect dest cond a b => dest.isVector ∧ cond.isVector ∧ a.isVector ∧ b.isVector
  | pause => True
  | debugVCompare loc _ => loc.isVector

instance (o : Op Operand) : Decidable o.Shaped := by
  cases o <;> simp only [Shaped] <;> infer_instance

theorem Shaped.dest {o : Op Operand} (h : o.Shaped) : o.DestShaped := by
  intro d hd
  cases o <;> simp_all [Shaped, dest?, width, VLEN]

end Op
end Vliw
