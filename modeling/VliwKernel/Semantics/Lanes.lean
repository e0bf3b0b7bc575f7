import VliwKernel.Lib.Wp
import VliwKernel.Semantics.InOrder

/-!
# Lane by lane

Vector operations on whole symbols act on each lane alone, so what they do to a state is what they do to each of
its lanes. `SymState.wp_lanes` proves a straight-line program of such operations from one lane.
-/

namespace Vliw

namespace SymState

def exec (s : SymState) (op : Op Operand) : Except PyErr SymState := s.step ⟨0, op⟩

theorem run_eq_exec (is : List (Instr Operand)) (s : SymState) : run is s = (is.map Instr.op).foldlM exec s := by
  rw [run, List.foldlM_map]
  rfl

def lane (s : SymState) (j : Nat) : Sym → Nat := fun x => s.env x j

end SymState

namespace Op

/-- Each lane of the result depends on the same lane of the operands. -/
def lanewise : Op Operand → Bool
  | vecElem _ (.sym _) (.sym _) (.sym _) | vecFma (.sym _) (.sym _) (.sym _) (.sym _) | gather (.sym _) (.sym _)
  | vSelect (.sym _) (.sym _) (.sym _) (.sym _) | debugVCompare .. => true
  | _ => false

def laneStep (mem : List Nat) (f : Sym → Nat) (o : Op Operand) : Except PyErr (Sym → Nat) := do
  let v ← o.lane (fun a _ => f a.base) mem 0
  .ok ((o.dest?.map fun d => Function.update f d.base v).getD f)

variable {s : SymState} {o : Op Operand} {mem : List Nat} {j : Nat}

theorem lane_eq_laneStep (h : o.lanewise = true) : o.lane s.env.read mem j = o.lane (fun a _ => s.lane j a.base) mem 0 := by
  unfold lanewise at h
  have hread : ∀ x : Sym, s.env.read (.sym x) j = s.lane j x := fun x => congrArg (s.env x) (Nat.zero_add j)
  split at h
  case h_4 =>
    simp only [lane, hread, Operand.base]
    congr
  case h_6 => cases h
  all_goals simp only [lane, hread, Operand.base]

/-- An operation that succeeds on every lane succeeds, and does on every lane what it does there. -/
theorem exec_lanes (h : o.lanewise = true) {f : Nat → Sym → Nat} (hf : ∀ j < VLEN, o.laneStep s.mem (s.lane j) = .ok (f j)) :
    ∃ s', s.exec o = .ok s' ∧ s'.mem = s.mem ∧ ∀ j < VLEN, s'.lane j = f j := by
  have hval : ∀ j < VLEN, ∃ v, o.lane s.env.read s.mem j = .ok v ∧
      (o.dest?.map fun d => Function.update (s.lane j) d.base v).getD (s.lane j) = f j := by
    intro j hj
    obtain ⟨v, hv, hfj⟩ := bind_eq_ok.mp (hf j hj)
    exact ⟨v, (lane_eq_laneStep h).trans hv, Except.ok.inj hfj⟩
  choose! v hv hfv using hval
  have hwidth : o.width ≤ VLEN := by cases o <;> simp [width, VLEN]
  have hvals : (List.range o.width).mapM (o.lane s.env.read s.mem) = .ok ((List.range o.width).map v) :=
    mapM_ok fun k hk => hv k (by have := List.mem_range.mp hk; omega)
  have hstores : o.stores s.env.read = [] := by
    unfold lanewise at h
    split at h <;> simp_all [stores]
  refine ⟨⟨(o.dest?.map fun d => s.env.write d ((List.range o.width).map v)).getD s.env, s.mem⟩, ?_, rfl, fun j hj => ?_⟩
  · simp only [SymState.exec, SymState.step, hvals, hstores, Machine.applyWrites, bind_ok]
  · rw [← hfv j hj]
    have hdest : ∀ d, o.dest? = some d → ∃ x, d = .sym x ∧ o.width = VLEN := by
      intro d hd
      unfold lanewise at h
      split at h
      case h_5 => cases hd
      case h_6 => cases h
      all_goals exact ⟨_, (Option.some.inj hd).symm, rfl⟩
    cases hd : o.dest? with
    | none => rfl
    | some d =>
        obtain ⟨x, rfl, hw⟩ := hdest d hd
        funext y
        simp only [Option.map_some, Option.getD_some, SymState.lane, Env.write, Operand.base, Function.update_apply]
        split
        · simp [hw, hj]
        · rfl

end Op

/-- What a program of lanewise operations does to each lane, it does to the state. -/
theorem SymState.wp_lanes {P : SymState → Op Operand → Prop} {L : Nat → (Sym → Nat) → Op Operand → Prop}
    (hP : ∀ s o, (∀ j < VLEN, L j (s.lane j) o) → o.lanewise = true ∧ P s o) {os : List (Op Operand)} {Q : Nat → (Sym → Nat) → Prop}
    {s : SymState} (h : ∀ j < VLEN, Wp (Op.laneStep s.mem) (L j) os (Q j) (s.lane j)) :
    Wp exec P os (fun s' => s'.mem = s.mem ∧ ∀ j < VLEN, Q j (s'.lane j)) s := by
  induction os generalizing s with
  | nil => exact ⟨rfl, h⟩
  | cons o os ih =>
      have hstep : ∀ j < VLEN, ∃ f, o.laneStep s.mem (s.lane j) = .ok f ∧
          Wp (Op.laneStep s.mem) (L j) os (Q j) f := fun j hj => (h j hj).2
      choose! f hf hwp using hstep
      obtain ⟨hl, hp⟩ := hP s o fun j hj => (h j hj).1
      obtain ⟨s', hs', hmem, hlane⟩ := Op.exec_lanes hl hf
      refine ⟨hp, s', hs', ?_⟩
      rw [← hmem]
      apply ih
      intro j hj
      rw [hmem, hlane j hj]
      exact hwp j hj

end Vliw
