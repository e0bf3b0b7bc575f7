import VliwKernel.Problem.Run
import VliwKernel.Scheduler.Dag
import Mathlib.Logic.Relation

/-!
# In-order execution

The meaning of a list of symbolic instructions: one after the other, each symbol with its own words.
Instructions are generic in their operands here too; `rd` reads lane `j` of an operand.
-/

namespace Vliw

abbrev Env := Sym → Nat → Nat

namespace Env

def zero : Env := fun _ _ => 0

/-- Lane `j` of an operand. -/
def read (env : Env) (o : Operand) (j : Nat) : Nat := env o.base (o.offset + j)

def write (env : Env) (o : Operand) (vals : List Nat) : Env :=
  match o with
  | .sym s => Function.update env s fun j => vals.getD j 0
  | .lane vec j => Function.update env vec (Function.update (env vec) j (vals.getD 0 0))

end Env

namespace Op

variable {α β : Type} (rd : α → Nat → Nat)

/-- Lane `j` of the value that the operation writes. -/
def lane (mem : List Nat) (o : Op α) (j : Nat) : Except PyErr Nat :=
  match o with
  | alu op _ a1 a2 | vecElem op _ a1 a2 => aluOp op (rd a1 j) (rd a2 j)
  | vecFma _ a b c => .ok ((rd a j * rd b j % WORD + rd c j) % WORD)
  | vBroadcast _ src => .ok (rd src 0)
  | load _ addr | vLoad _ addr => at? mem (rd addr 0 + j)
  | gather _ addr => at? mem (rd addr j)
  | const _ val => .ok (val % WORD).toNat
  | vSelect _ cond a b => .ok (if rd cond j ≠ 0 then rd a j else rd b j)
  | vStore .. | pause | debugVCompare .. => .ok 0

def loads : Op α → List Nat
  | load _ addr => [rd addr 0]
  | vLoad _ addr => (List.range VLEN).map (rd addr 0 + ·)
  | gather _ addr => (List.range VLEN).map (rd addr)
  | _ => []

def Passes (trace : TraceKey → Option Nat) : Op α → Prop
  | debugVCompare loc keys => keys.mapM trace = some ((List.range VLEN).map (rd loc))
  | _ => True

def stores : Op α → List (Nat × Nat)
  | vStore addr src => (List.range VLEN).map fun j => (rd addr 0 + j, rd src j)
  | _ => []

variable {rd} {rd' : α → Nat → Nat} {mem : List Nat} {o : Op α}

@[simp] theorem lane_rebuild (rd : β → Nat → Nat) (f g : α → β) (o : Op α) (j : Nat) :
    (o.rebuild f g).lane rd mem j = o.lane (fun a => rd (f a)) mem j := by
  cases o <;> rfl

@[simp] theorem loads_rebuild (rd : β → Nat → Nat) (f g : α → β) (o : Op α) :
    (o.rebuild f g).loads rd = o.loads fun a => rd (f a) := by
  cases o <;> rfl

@[simp] theorem stores_rebuild (rd : β → Nat → Nat) (f g : α → β) (o : Op α) :
    (o.rebuild f g).stores rd = o.stores fun a => rd (f a) := by
  cases o <;> rfl

@[simp] theorem passes_rebuild (rd : β → Nat → Nat) (f g : α → β) (trace : TraceKey → Option Nat) (o : Op α) :
    (o.rebuild f g).Passes rd trace ↔ o.Passes (fun a => rd (f a)) trace := by
  cases o <;> rfl

@[simp] theorem width_rebuild (f g : α → β) (o : Op α) : (o.rebuild f g).width = o.width := by
  cases o <;> rfl

theorem lane_congr (h : ∀ a ∈ o.readOperands, rd a = rd' a) (j : Nat) : o.lane rd mem j = o.lane rd' mem j := by
  cases o <;> simp_all [lane, readOperands]

theorem loads_congr (h : ∀ a ∈ o.readOperands, rd a = rd' a) : o.loads rd = o.loads rd' := by
  cases o <;> simp_all [loads, readOperands]

theorem stores_congr (h : ∀ a ∈ o.readOperands, rd a = rd' a) : o.stores rd = o.stores rd' := by
  cases o <;> simp_all [stores, readOperands]

theorem passes_congr {trace : TraceKey → Option Nat} (h : ∀ a ∈ o.readOperands, rd a = rd' a) : o.Passes rd trace ↔ o.Passes rd' trace := by
  cases o <;> simp_all [Passes, readOperands]

theorem passes_of_engine {trace : TraceKey → Option Nat} (h : o.engine ≠ .debug) : o.Passes rd trace := by
  cases o with
  | debugVCompare loc keys => exact absurd rfl h
  | _ => trivial

theorem lane_mem {mem' : List Nat} {j : Nat} (hj : j < o.width) (h : ∀ a ∈ o.loads rd, mem[a]? = mem'[a]?) :
    o.lane rd mem j = o.lane rd mem' j := by
  have hat : ∀ {a}, mem[a]? = mem'[a]? → at? mem a = at? mem' a := by
    intro a ha
    simp only [at?, ha]
  cases o with
  | load dest addr =>
      obtain rfl : j = 0 := Nat.lt_one_iff.mp hj
      exact hat (h _ (List.mem_singleton.mpr rfl))
  | vLoad dest addr => exact hat (h _ (List.mem_map.mpr ⟨j, List.mem_range.mpr hj, rfl⟩))
  | gather dest addr => exact hat (h _ (List.mem_map.mpr ⟨j, List.mem_range.mpr hj, rfl⟩))
  | _ => rfl

end Op

structure SymState where
  env : Env
  mem : List Nat

namespace SymState

def step (s : SymState) (ins : Instr Operand) : Except PyErr SymState := do
  let vals ← (List.range ins.op.width).mapM (ins.op.lane s.env.read s.mem)
  let mem ← Machine.applyWrites (ins.op.stores s.env.read) s.mem
  .ok ⟨(ins.op.dest?.map fun d => s.env.write d vals).getD s.env, mem⟩

def run (is : List (Instr Operand)) (s : SymState) : Except PyErr SymState := is.foldlM step s

end SymState

def RunsIn (is : List (Instr Operand)) (s₀ : SymState) (i : Nat) (ins : Instr Operand) (s : SymState) : Prop :=
  is[i]? = some ins ∧ SymState.run (is.take i) s₀ = .ok s

def LoadsAt (is : List (Instr Operand)) (s₀ : SymState) (i a : Nat) : Prop :=
  ∃ ins s, RunsIn is s₀ i ins s ∧ a ∈ ins.op.loads s.env.read

def StoresAt (is : List (Instr Operand)) (s₀ : SymState) (i a : Nat) : Prop :=
  ∃ ins s, RunsIn is s₀ i ins s ∧ a ∈ (ins.op.stores s.env.read).map Prod.fst

/-- Every check finds what it compares with. -/
def Passing (trace : TraceKey → Option Nat) (is : List (Instr Operand)) (s₀ : SymState) : Prop :=
  ∀ {i ins s}, RunsIn is s₀ i ins s → ins.op.Passes s.env.read trace

/-- There is a path of RAW edges from `i` to `j`. -/
def RawAncestor (nodes : List DNode) : Nat → Nat → Prop :=
  Relation.TransGen fun i j => (i, 1) ∈ Dag.inEdges nodes j

/-- No two stores touch a common word, and a load shares a word with a store only as its ancestor. -/
structure Independent (is : List (Instr Operand)) (s₀ : SymState) (nodes : List DNode) : Prop where
  stores : ∀ {i j a}, StoresAt is s₀ i a → StoresAt is s₀ j a → i = j
  loads : ∀ {i j a}, LoadsAt is s₀ i a → StoresAt is s₀ j a → RawAncestor nodes i j

namespace SymState

variable {is is' : List (Instr Operand)} {s s' : SymState} {ins : Instr Operand} {i : Nat}

theorem step_eq_ok (h : s.step ins = .ok s') : ∃ vals, vals.length = ins.op.width ∧
    (∀ {j}, j < ins.op.width → ∃ v, vals[j]? = some v ∧ ins.op.lane s.env.read s.mem j = .ok v) ∧
    Machine.applyWrites (ins.op.stores s.env.read) s.mem = .ok s'.mem ∧
    s'.env = (ins.op.dest?.map fun d => s.env.write d vals).getD s.env := by
  obtain ⟨vals, hvals, h⟩ := bind_eq_ok.mp h
  obtain ⟨mem, hmem, h⟩ := bind_eq_ok.mp h
  cases h
  obtain ⟨hlen, hget⟩ := mapM_eq_ok hvals
  rw [List.length_range] at hlen
  exact ⟨vals, hlen, fun hj => hget (List.getElem?_range hj), hmem, rfl⟩

theorem runsIn (h : run is s = .ok s') (hi : is[i]? = some ins) :
    ∃ u v, RunsIn is s i ins u ∧ u.step ins = .ok v ∧ run (is.take (i + 1)) s = .ok v ∧
      run (is.drop (i + 1)) v = .ok s' := by
  obtain ⟨hlt, hget⟩ := List.getElem?_eq_some_iff.mp hi
  have hsplit : is = is.take i ++ ins :: is.drop (i + 1) := by
    rw [← hget, List.getElem_cons_drop, List.take_append_drop]
  rw [run, hsplit] at h
  obtain ⟨u, hu, h⟩ := foldlM_append_ok.mp h
  rw [List.foldlM_cons] at h
  obtain ⟨v, hv, h⟩ := bind_eq_ok.mp h
  refine ⟨u, v, ⟨hi, hu⟩, hv, ?_, h⟩
  rw [run, List.take_add_one, hi]
  refine foldlM_append_ok.mpr ⟨u, hu, ?_⟩
  rw [Option.toList_some, List.foldlM_cons, hv]
  rfl

theorem runsIn_zero (is : List (Instr Operand)) (s : SymState) (ins : Instr Operand) : RunsIn (ins :: is) s 0 ins s := ⟨rfl, rfl⟩

end SymState

namespace RunsIn

variable {is : List (Instr Operand)} {s u v : SymState} {ins jns : Instr Operand} {i n : Nat}

theorem cons (h : RunsIn is v i ins u) (hv : s.step jns = .ok v) : RunsIn (jns :: is) s (i + 1) ins u := by
  refine ⟨h.1, ?_⟩
  rw [List.take_succ_cons, SymState.run, List.foldlM_cons, hv]
  exact h.2

theorem of_append {is' : List (Instr Operand)} (h : SymState.run is s = .ok u) : RunsIn (is ++ ins :: is') s is.length ins u := by
  refine ⟨by simp, ?_⟩
  rw [List.take_left]
  exact h

theorem of_take (h : RunsIn (is.take n) s i ins u) : i < n ∧ RunsIn is s i ins u := by
  obtain ⟨hi, hu⟩ := h
  have hin : i < n := by
    have := (List.getElem?_eq_some_iff.mp hi).1
    rw [List.length_take] at this
    omega
  rw [List.getElem?_take_of_lt hin] at hi
  rw [List.take_take, Nat.min_eq_left (Nat.le_of_lt hin)] at hu
  exact ⟨hin, hi, hu⟩

theorem of_drop (hv : SymState.run (is.take n) s = .ok v) (h : RunsIn (is.drop n) v i ins u) :
    RunsIn is s (n + i) ins u := by
  obtain ⟨hi, hu⟩ := h
  rw [List.getElem?_drop] at hi
  refine ⟨hi, ?_⟩
  rw [SymState.run, List.take_add, List.foldlM_append]
  exact bind_eq_ok.mpr ⟨v, hv, hu⟩

end RunsIn

namespace SymState

variable {is : List (Instr Operand)} {s s' : SymState}

theorem step_env {u v : SymState} {ins : Instr Operand} {x : Sym} (h : u.step ins = .ok v) (hd : ins.op.dest? = some (.sym x)) :
    ∃ vals, (List.range ins.op.width).mapM (ins.op.lane u.env.read u.mem) = .ok vals ∧ v.env x = fun k => vals.getD k 0 := by
  obtain ⟨vals, hvals, h⟩ := bind_eq_ok.mp h
  obtain ⟨mem, -, h⟩ := bind_eq_ok.mp h
  cases h
  refine ⟨vals, hvals, ?_⟩
  rw [hd]
  exact Function.update_self ..

theorem env_of_ne (h : run is s = .ok s') {x : Sym} (hx : ∀ ins ∈ is, ∀ d, ins.op.dest? = some d → d.base ≠ x) :
    s'.env x = s.env x := by
  refine foldlM_inv (I := fun u => u.env x = s.env x) (fun ins hins u v hv hu => ?_) h rfl
  obtain ⟨vals, -, -, -, henv⟩ := step_eq_ok hv
  rw [henv, ← hu]
  cases hd : ins.op.dest? with
  | none => rfl
  | some d =>
      have hne := Ne.symm (hx ins hins d hd)
      cases d <;> exact Function.update_of_ne hne _ _

theorem mem_of_ne (h : run is s = .ok s') : s'.mem.length = s.mem.length ∧
    ∀ {a : Nat}, (∀ {k ins u}, RunsIn is s k ins u → ∀ p ∈ ins.op.stores u.env.read, p.1 ≠ a) → s'.mem[a]? = s.mem[a]? := by
  induction is generalizing s with
  | nil =>
      cases h
      exact ⟨rfl, fun _ => rfl⟩
  | cons ins is ih =>
      rw [run, List.foldlM_cons] at h
      obtain ⟨v, hv, h⟩ := bind_eq_ok.mp h
      obtain ⟨vals, -, -, hmem, -⟩ := step_eq_ok hv
      obtain ⟨hlen, hget⟩ := ih h
      refine ⟨hlen.trans (Machine.applyWrites_length hmem).1, fun {a} ha => ?_⟩
      rw [hget fun hr => ha (hr.cons hv), Machine.applyWrites_of_ne hmem (ha (runsIn_zero is s ins))]

end SymState
end Vliw
