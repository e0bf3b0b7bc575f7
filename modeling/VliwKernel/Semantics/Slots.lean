import VliwKernel.Schedule.Emission
import VliwKernel.Semantics.Values
import VliwKernel.Regalloc.Runs

/-!
# What a slot computes

Where the registers of the operands hold their values, a slot of the instruction, whole or a lane,
writes the value of the destination into its register.
-/

namespace Vliw
open RegisterAllocator

/-- The register of an operand holds the operand's words. -/
def Holds (scratch : List Nat) (b : RegisterAllocator) (V : Env) (o : Operand) : Prop :=
  ∀ k, o.offset + k < o.base.extent → scratch[b.addrOf o + k]? = some (V.read o k)

def Instr.effect (V : Env) (b : RegisterAllocator) (ins : Instr Operand) : Writes :=
  { scratch := (ins.op.dest?.map fun d => (List.range ins.op.width).map fun j => (b.addrOf d + j, V d.base j)).getD []
    mem := ins.op.stores V.read }

def Instr.laneEffect (V : Env) (b : RegisterAllocator) (ins : Instr Operand) (j : Nat) : Writes :=
  { scratch := (ins.op.dest?.map fun d => [(b.addrOf d + j, V d.base j)]).getD [] }

section operands

variable {scratch : List Nat} {b : RegisterAllocator} {V : Env} {o : Operand} {k : Nat}

theorem at?_ok {xs : List Nat} {i x : Nat} (h : xs[i]? = some x) : at? xs i = .ok x := by
  simp only [at?, h]

theorem Holds.scalar (h : Holds scratch b V o) (hs : o.isScalar = true) : at? scratch (b.addrOf o) = .ok (V.read o 0) := by
  refine at?_ok (h 0 ?_)
  cases o with
  | sym t =>
      have : 0 < t.extent := by
        unfold Sym.extent
        split <;> decide
      simpa [Operand.offset, Operand.base] using this
  | lane v j =>
      obtain ⟨hv, hj⟩ : v.isVec = true ∧ j < VLEN := by simpa [Operand.isScalar] using hs
      simpa [Operand.offset, Operand.base, Sym.extent, hv] using hj

theorem Holds.vector (h : Holds scratch b V o) (hv : o.isVector = true) (hk : k < VLEN) :
    at? scratch (b.addrOf o + k) = .ok (V.read o k) := by
  refine at?_ok (h k ?_)
  cases o with
  | sym t => simp_all [Operand.isVector, Operand.offset, Operand.base, Sym.extent, VLEN]
  | lane v j => simp [Operand.isVector] at hv

theorem lanes_ok {f : Nat → Except PyErr (Nat × Nat)} {g : Nat → Nat × Nat} (h : ∀ {i}, i < VLEN → f i = .ok (g i)) :
    Machine.lanes f = .ok ((List.range VLEN).map g) :=
  mapM_ok fun _ hi => h (List.mem_range.mp hi)

end operands

section slots

variable {pinned : List String} {mem : List Nat} {ins : Instr Operand} {m : Machine} {b : RegisterAllocator} {V : Env}

/-- An operand read, its loads and its lanes are as the values say. -/
structure Ready (mem : List Nat) (V : Env) (b : RegisterAllocator) (m : Machine) (ins : Instr Operand) : Prop where
  reads : ∀ {o}, o ∈ ins.op.readOperands → Holds m.core.scratch b V o
  loads : ∀ {a}, a ∈ ins.op.loads V.read → m.mem[a]? = mem[a]?
  lane : ∀ {j}, j < ins.op.width → ∃ v, ins.op.lane V.read mem j = .ok v ∧ ∀ {d}, ins.op.dest? = some d → V d.base j = v

theorem at?_congr {xs ys : List Nat} {a : Nat} (h : xs[a]? = ys[a]?) : at? xs a = at? ys a := by
  simp only [at?, h]

theorem Ready.whole (h : Ready mem V b m ins) (hs : ins.Checked pinned) {s : Slot}
    (hlow : (placedInstr ins b).op.lower = .ok s) :
    Machine.execSlot m ins.op.engine m.core s = .ok (m.core, ins.effect V b) := by
  obtain ⟨rid, op⟩ := ins
  have hsc : ∀ {o}, o ∈ op.readOperands → o.isScalar = true → at? m.core.scratch (b.addrOf o) = .ok (V.read o 0) :=
    fun ho => (h.reads ho).scalar
  have hve : ∀ {o k}, o ∈ op.readOperands → o.isVector = true → k < VLEN →
      at? m.core.scratch (b.addrOf o + k) = .ok (V.read o k) := fun ho => (h.reads ho).vector
  have hmem : ∀ {a}, a ∈ op.loads V.read → at? m.mem a = at? mem a := fun ha => at?_congr (h.loads ha)
  have hsh := hs.shaped
  cases op with
  | alu op dest a1 a2 =>
      cases hlow
      obtain ⟨v, hlane, hd⟩ := h.lane (j := 0) Nat.one_pos
      have hx := hsc (o := a1) (by simp [Op.readOperands]) hsh.2.1
      have hy := hsc (o := a2) (by simp [Op.readOperands]) hsh.2.2
      have hop : aluOp op (V.read a1 0) (V.read a2 0) = .ok v := hlane
      simp [Op.engine, Machine.execSlot, Machine.alu, hx, hy, hop, Instr.effect, Op.dest?, Op.width, Op.isGather, Op.stores, hd rfl]
  | vecElem op dest a1 a2 =>
      cases hlow
      have hlanes : Machine.lanes (fun i => do
          let x ← at? m.core.scratch (b.addrOf a1 + i)
          let y ← at? m.core.scratch (b.addrOf a2 + i)
          .ok (b.addrOf dest + i, ← aluOp op x y)) =
          .ok ((List.range VLEN).map fun i => (b.addrOf dest + i, V dest.base i)) := by
        refine lanes_ok fun {i} hi => ?_
        obtain ⟨v, hlane, hd⟩ := h.lane hi
        have hop : aluOp op (V.read a1 i) (V.read a2 i) = .ok v := hlane
        simp [hve (o := a1) (by simp [Op.readOperands]) hsh.2.1 hi, hve (o := a2) (by simp [Op.readOperands]) hsh.2.2 hi,
          hop, hd rfl]
      simp [Op.engine, Machine.execSlot, Machine.valu, Op.isGather, hlanes, Instr.effect, Op.dest?, Op.width, Op.stores]
  | vecFma dest a1 a2 a3 =>
      cases hlow
      have hlanes : Machine.lanes (fun i => do
          let mul := (← at? m.core.scratch (b.addrOf a1 + i)) * (← at? m.core.scratch (b.addrOf a2 + i)) % WORD
          .ok (b.addrOf dest + i, (mul + (← at? m.core.scratch (b.addrOf a3 + i))) % WORD)) =
          .ok ((List.range VLEN).map fun i => (b.addrOf dest + i, V dest.base i)) := by
        refine lanes_ok fun {i} hi => ?_
        obtain ⟨v, hlane, hd⟩ := h.lane hi
        have hop : (V.read a1 i * V.read a2 i % WORD + V.read a3 i) % WORD = v := Except.ok.inj hlane
        simp only [hve (o := a1) (by simp [Op.readOperands]) hsh.2.1 hi, hve (o := a2) (by simp [Op.readOperands]) hsh.2.2.1 hi,
          hve (o := a3) (by simp [Op.readOperands]) hsh.2.2.2 hi, bind_ok, hop, hd rfl]
      simp only [Op.engine, Machine.execSlot, Machine.valu, Op.isGather, Bool.false_eq_true, if_false, hlanes, bind_ok]
      rfl
  | vBroadcast dest src =>
      cases hlow
      have hlanes : Machine.lanes (fun i => do .ok (b.addrOf dest + i, ← at? m.core.scratch (b.addrOf src))) =
          .ok ((List.range VLEN).map fun i => (b.addrOf dest + i, V dest.base i)) := by
        refine lanes_ok fun {i} hi => ?_
        obtain ⟨v, hlane, hd⟩ := h.lane hi
        have hop : V.read src 0 = v := Except.ok.inj hlane
        simp [hsc (o := src) (by simp [Op.readOperands]) hsh.2, hop, hd rfl]
      simp [Op.engine, Machine.execSlot, Machine.valu, Op.isGather, hlanes, Instr.effect, Op.dest?, Op.width, Op.stores]
  | load dest addr =>
      cases hlow
      obtain ⟨v, hlane, hd⟩ := h.lane (j := 0) Nat.one_pos
      have hx := hsc (o := addr) (by simp [Op.readOperands]) hsh.2
      have hword : at? m.mem (V.read addr 0) = .ok v := (hmem (by simp [Op.loads])).trans hlane
      simp [Op.engine, Machine.execSlot, Machine.load, hx, hword, Instr.effect, Op.dest?, Op.width, Op.isGather, Op.stores, hd rfl]
  | vLoad dest addr =>
      cases hlow
      have hx := hsc (o := addr) (by simp [Op.readOperands]) hsh.2
      have hlanes : Machine.lanes (fun i => do .ok (b.addrOf dest + i, ← at? m.mem (V.read addr 0 + i))) =
          .ok ((List.range VLEN).map fun i => (b.addrOf dest + i, V dest.base i)) := by
        refine lanes_ok fun {i} hi => ?_
        obtain ⟨v, hlane, hd⟩ := h.lane hi
        have hword : at? m.mem (V.read addr 0 + i) = .ok v :=
          (hmem (List.mem_map.mpr ⟨i, List.mem_range.mpr hi, rfl⟩)).trans hlane
        simp [hword, hd rfl]
      simp [Op.engine, Machine.execSlot, Machine.load, Op.isGather, hx, hlanes, Instr.effect, Op.dest?, Op.width, Op.stores]
  | gather dest addr => cases hlow
  | const dest val =>
      cases hlow
      obtain ⟨v, hlane, hd⟩ := h.lane (j := 0) Nat.one_pos
      have hop : (val % WORD).toNat = v := Except.ok.inj hlane
      simp [Op.engine, Machine.execSlot, Machine.load, hop, Instr.effect, Op.dest?, Op.width, Op.isGather, Op.stores, hd rfl]
  | vStore addr src =>
      cases hlow
      have hx := hsc (o := addr) (by simp [Op.readOperands]) hsh.1
      have hlanes : Machine.lanes (fun i => do .ok (V.read addr 0 + i, ← at? m.core.scratch (b.addrOf src + i))) =
          .ok ((List.range VLEN).map fun i => (V.read addr 0 + i, V.read src i)) := by
        refine lanes_ok fun {i} hi => ?_
        simp [hve (o := src) (by simp [Op.readOperands]) hsh.2 hi]
      simp [Op.engine, Machine.execSlot, Machine.store, hx, hlanes, Instr.effect, Op.dest?, Op.stores]
  | vSelect dest cond a1 a2 =>
      cases hlow
      have hlanes : Machine.lanes (fun i => do
          let c ← at? m.core.scratch (b.addrOf cond + i)
          .ok (b.addrOf dest + i, ← at? m.core.scratch (if c ≠ 0 then b.addrOf a1 + i else b.addrOf a2 + i))) =
          .ok ((List.range VLEN).map fun i => (b.addrOf dest + i, V dest.base i)) := by
        refine lanes_ok fun {i} hi => ?_
        obtain ⟨v, hlane, hd⟩ := h.lane hi
        have hop : (if V.read cond i ≠ 0 then V.read a1 i else V.read a2 i) = v := Except.ok.inj hlane
        rw [hve (o := cond) (by simp [Op.readOperands]) hsh.2.1 hi, bind_ok, hd rfl, ← hop]
        split
        · rw [hve (o := a1) (by simp [Op.readOperands]) hsh.2.2.1 hi, bind_ok]
        · rw [hve (o := a2) (by simp [Op.readOperands]) hsh.2.2.2 hi, bind_ok]
      simp only [Op.engine, Machine.execSlot, Machine.flow, Op.isGather, Bool.false_eq_true, if_false, hlanes, bind_ok]
      rfl
  | pause => exact absurd rfl hs.noPause
  | debugVCompare loc keys => rfl

theorem Ready.check (h : Ready mem V b m ins) (hs : ins.Checked pinned) {s : Slot} (hlow : (placedInstr ins b).op.lower = .ok s)
    (hpass : ins.op.Passes V.read m.valueTrace) (he : ins.op.engine = .debug) : Machine.debugCheck m.core m.valueTrace s = .ok () := by
  obtain ⟨rid, op⟩ := ins
  cases op with
  | debugVCompare loc keys =>
      cases hlow
      have hwords : (m.core.scratch.drop (b.addrOf loc)).take VLEN = (List.range VLEN).map (V.read loc) := by
        refine List.ext_getElem? fun k => ?_
        rw [List.getElem?_take, List.getElem?_map]
        split
        · next hk =>
            have hread := (h.reads (o := loc) (by simp [Op.readOperands])).vector hs.shaped hk
            rw [List.getElem?_drop, at?_mem hread, List.getElem?_range hk, Option.map_some]
        · next hk => rw [List.getElem?_eq_none (by simpa using hk), Option.map_none]
      have hkeys : keys.mapM m.valueTrace = some ((List.range VLEN).map (V.read loc)) := hpass
      simp only [Machine.debugCheck, hkeys]
      exact if_pos hwords
  | _ => cases he

/-- One lane, on the engine that takes lanes; a broadcast adds the word at 0, which stays 0. -/
theorem Ready.laneSlot (h : Ready mem V b m ins) (hs : ins.Checked pinned) (hk : (classify ins.op).kind = .vecElem ∨
    (classify ins.op).kind = .gather) (hV : ∀ x k, V x k < WORD) (hzero : m.core.scratch[0]? = some 0) {j : Nat} (hj : j < VLEN) :
    Machine.execSlot m (laneEngine (placedInstr ins b)) m.core (laneSlot (placedInstr ins b) j).slot =
      .ok (m.core, ins.laneEffect V b j) := by
  obtain ⟨rid, op⟩ := ins
  have hsh := hs.shaped
  cases op with
  | vecElem op dest a1 a2 =>
      obtain ⟨v, hlane, hd⟩ := h.lane hj
      have hx := (h.reads (o := a1) (by simp [Op.readOperands])).vector hsh.2.1 hj
      have hy := (h.reads (o := a2) (by simp [Op.readOperands])).vector hsh.2.2 hj
      have hop : aluOp op (V.read a1 j) (V.read a2 j) = .ok v := hlane
      simp [Vliw.laneSlot, laneEngine, placedInstr, Instr.rebuild, Op.rebuild, Op.isGather, Machine.execSlot, Machine.alu,
        hx, hy, hop, Instr.laneEffect, Op.dest?, hd rfl]
  | vBroadcast dest src =>
      obtain ⟨v, hlane, hd⟩ := h.lane hj
      have hx := (h.reads (o := src) (by simp [Op.readOperands])).scalar hsh.2
      have hop : V.read src 0 = v := Except.ok.inj hlane
      have hv : v < WORD := hop ▸ hV _ _
      simp [Vliw.laneSlot, laneEngine, placedInstr, Instr.rebuild, Op.rebuild, Op.isGather, Machine.execSlot, Machine.alu,
        hx, at?_ok hzero, aluOp, hop, Nat.mod_eq_of_lt hv, Instr.laneEffect, Op.dest?, hd rfl]
  | gather dest addr =>
      obtain ⟨v, hlane, hd⟩ := h.lane hj
      obtain ⟨-, t, rfl⟩ := hs.writes (d := dest) rfl
      have hx := (h.reads (o := addr) (by simp [Op.readOperands])).vector hsh.2 hj
      have hword : at? m.mem (V.read addr j) = .ok v :=
        (at?_congr (h.loads (List.mem_map.mpr ⟨j, List.mem_range.mpr hj, rfl⟩))).trans hlane
      have hd' : V t j = v := hd rfl
      simp [Vliw.laneSlot, laneEngine, placedInstr, Instr.rebuild, Op.rebuild, Op.isGather, Machine.execSlot, Machine.load,
        hx, hword, Instr.laneEffect, Op.dest?, Operand.base, hd']
  | _ => simp [classify, Op.engine, Op.isGather] at hk

end slots
end Vliw
