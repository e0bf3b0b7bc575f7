import VliwKernel.Kernel.Descent

/-!
# Executing the stream

What is observed of every operation of the stream, and how the operations that are not lane by lane execute: each sets
one variable and keeps the others.
-/

namespace Vliw

open Name (val addr outAddr tree constVec eight header addrA)

/-- What is observed before an operation: a compare sees what the reference recorded under its keys, a store goes to the
words of its group, and a load stays below the values unless it loads those of a group. -/
def Observed (t : Tree) (inp : Input) (rounds : Nat) (s : SymState) (o : Op Operand) : Prop :=
  match o with
  | .debugVCompare loc keys => ∃ h < rounds, ∃ g < 32, ∃ field, keys = laneKeys h (g * VLEN) field ∧
      ∀ j < VLEN, t.recorded (item t inp h (g * VLEN + j)) field = some (s.env.read loc j)
  | .vStore a v => ∃ g < 32, a = outAddr g ∧ v = val g ∧ s.env.read a 0 = INP_VALUES_P + g * VLEN
  | .vLoad d a => s.env.read a 0 + VLEN ≤ INP_VALUES_P ∨ ∃ g < 32, d = val g ∧ s.env.read a 0 = INP_VALUES_P + g * VLEN
  | .load _ a => s.env.read a 0 < INP_VALUES_P
  | .gather _ a => ∀ j < VLEN, s.env.read a j < INP_VALUES_P
  | _ => True

theorem observed_of_lanes {t : Tree} {inp : Input} {rounds r g : Nat} {E : Nat → TraceField → Nat → Prop} (hE : ∀ j < VLEN, ∀ field w, E j field w →
    (r < rounds ∧ g < 32) ∧ t.recorded (item t inp r (g * VLEN + j)) field = some w) (s : SymState) (o : Op Operand)
    (h : ∀ j < VLEN, LaneObs r (g * VLEN) (fun _ => E j) (s.lane j) o) : o.lanewise = true ∧ Observed t inp rounds s o := by
  refine ⟨(h 0 (by decide)).1, ?_⟩
  have hread : ∀ (x : Sym) j, s.env.read (.sym x) j = s.lane j x := fun x j => congrArg (s.env x) (Nat.zero_add j)
  cases o with
  | gather d a =>
      intro j hj
      obtain ⟨hl, hlt⟩ := h j hj
      cases a with
      | sym x =>
          rw [hread]
          exact hlt
      | lane x k => cases d <;> cases hl
  | debugVCompare loc keys =>
      obtain ⟨x, field, rfl, hkeys, hall⟩ := LaneObs.compare (E := fun j _ => E j) h
      obtain ⟨⟨hr, hg⟩, -⟩ := hE 0 (by decide) _ _ (hall 0 (by decide))
      refine ⟨r, hr, g, hg, field, hkeys, fun j hj => ?_⟩
      rw [hread]
      exact (hE j hj _ _ (hall j hj)).2
  | vStore a v => cases (h 0 (by decide)).1
  | load d a => cases (h 0 (by decide)).1
  | vLoad d a => cases (h 0 (by decide)).1
  | _ => trivial

/-- Memory is as it was, and only the variables in `W` change. -/
structure SymState.Keeps (W : Name → Bool) (s s' : SymState) : Prop where
  mem : s'.mem = s.mem
  env : ∀ n : Name, W n = false → s'.env n = s.env n

namespace SymState

variable {W W' : Name → Bool} {s s' s'' : SymState} {o : Op Operand} {P : SymState → Op Operand → Prop} {os : List (Op Operand)}
  {Q : SymState → Prop}

theorem Keeps.trans (h : Keeps W s s') (h' : Keeps W s' s'') : Keeps W s s'' :=
  ⟨h'.mem.trans h.mem, fun n hn => (h'.env n hn).trans (h.env n hn)⟩

theorem Keeps.lane (h : Keeps W s s') (j : Nat) : Frame W (s.lane j) (s'.lane j) := fun n hn => congrFun (h.env n hn) j

def Local (W : Name → Bool) (o : Op Operand) : Prop := o.engine ≠ .store ∧ o.Writes W

section writes

variable {n : Name} {a b c : Operand}

@[simp] theorem local_alu {op : AluOp} : Local W (.alu op n a b) ↔ W n = true := by
  simp [Local, Op.engine, Op.Writes, Op.dest?, Operand.base]

@[simp] theorem local_vecElem {op : AluOp} : Local W (.vecElem op n a b) ↔ W n = true := by
  simp [Local, Op.engine, Op.Writes, Op.dest?, Operand.base]

@[simp] theorem local_vecFma : Local W (.vecFma n a b c) ↔ W n = true := by
  simp [Local, Op.engine, Op.Writes, Op.dest?, Operand.base]

@[simp] theorem local_vSelect : Local W (.vSelect n a b c) ↔ W n = true := by
  simp [Local, Op.engine, Op.Writes, Op.dest?, Operand.base]

@[simp] theorem local_gather : Local W (.gather n a) ↔ W n = true := by
  simp [Local, Op.engine, Op.Writes, Op.dest?, Operand.base]

@[simp] theorem local_debugVCompare {keys : List TraceKey} : Local W (.debugVCompare a keys) := by
  simp [Local, Op.engine, Op.Writes, Op.dest?]

@[simp] theorem local_const {v : Int} : Local W (.const n v) ↔ W n = true := by
  simp [Local, Op.engine, Op.Writes, Op.dest?, Operand.base]

@[simp] theorem local_load : Local W (.load n a) ↔ W n = true := by
  simp [Local, Op.engine, Op.Writes, Op.dest?, Operand.base]

@[simp] theorem local_vLoad : Local W (.vLoad n a) ↔ W n = true := by
  simp [Local, Op.engine, Op.Writes, Op.dest?, Operand.base]

@[simp] theorem local_vBroadcast : Local W (.vBroadcast n a) ↔ W n = true := by
  simp [Local, Op.engine, Op.Writes, Op.dest?, Operand.base]

end writes

theorem exec_keeps (ho : Local W o) (h : s.exec o = .ok s') : Keeps W s s' := by
  obtain ⟨vals, -, -, hmem, henv⟩ := step_eq_ok h
  obtain ⟨hst, hw⟩ := ho
  have hstores : o.stores s.env.read = [] := by
    cases o with
    | vStore addr src => exact absurd rfl hst
    | _ => rfl
  rw [hstores] at hmem
  refine ⟨(Except.ok.inj hmem).symm, fun n hn => ?_⟩
  rw [henv]
  cases hd : o.dest? with
  | none => rfl
  | some d =>
      obtain ⟨m, hm, hW⟩ := hw d hd
      have hne : n.sym ≠ d.base := by
        rw [hm, ne_eq, Name.sym_inj]
        rintro rfl
        rw [hn] at hW
        cases hW
      cases d with
      | sym x => exact Function.update_of_ne hne _ _
      | lane x j => exact Function.update_of_ne hne _ _

theorem wp_keeps (h : Wp exec P os Q s) (ho : ∀ o ∈ os, Local W o) : Wp exec P os (fun s' => Q s' ∧ Keeps W s s') s :=
  h.inv (I := Keeps W s) (fun hi hs hk => hk.trans (exec_keeps (ho _ hi) hs)) ⟨rfl, fun _ _ => rfl⟩

theorem exec_sets {x : Sym} (hd : o.dest? = some (.sym x)) (ho : o.engine ≠ .store) {v : Nat → Nat}
    (hv : ∀ j < o.width, o.lane s.env.read s.mem j = .ok (v j)) :
    ∃ s', s.exec o = .ok s' ∧ s'.mem = s.mem ∧ (∀ j < o.width, s'.env x j = v j) ∧ ∀ y ≠ x, s'.env y = s.env y := by
  have hvals : (List.range o.width).mapM (o.lane s.env.read s.mem) = .ok ((List.range o.width).map v) :=
    mapM_ok fun k hk => hv k (List.mem_range.mp hk)
  have hstores : o.stores s.env.read = [] := by
    cases o with
    | vStore addr src => exact absurd rfl ho
    | _ => rfl
  refine ⟨⟨s.env.write (.sym x) ((List.range o.width).map v), s.mem⟩, ?_, rfl, fun j hj => ?_, fun y hy => Function.update_of_ne hy _ _⟩
  · simp only [exec, step, hvals, hstores, hd, Machine.applyWrites, bind_ok, Option.map_some, Option.getD_some]
  · simp [Env.write, hj]

structure Sets (n : Name) (w : Nat) (v : Nat → Nat) (s s' : SymState) : Prop where
  mem : s'.mem = s.mem
  val : ∀ j < w, s'.env n j = v j
  env : ∀ m : Name, m ≠ n → s'.env m = s.env m

theorem wp_sets {n : Name} {v : Nat → Nat} (hP : P s o) (hd : o.dest? = some n) (ho : o.engine ≠ .store)
    (hv : ∀ j < o.width, o.lane s.env.read s.mem j = .ok (v j)) (hQ : ∀ s', Sets n o.width v s s' → Wp exec P os Q s') :
    Wp exec P (o :: os) Q s := by
  obtain ⟨s', hs', hmem, hval, henv⟩ := exec_sets hd ho hv
  exact ⟨hP, s', hs', hQ s' ⟨hmem, hval, fun m hm => henv m (by rwa [ne_eq, Name.sym_inj])⟩⟩

variable {t : Tree} {inp : Input} {rounds : Nat} {n : Name} {v : Nat → Nat}

theorem wp_const {v : Nat} (hv : v < WORD) (hQ : ∀ s', Sets n 1 (fun _ => v) s s' → Wp exec (Observed t inp rounds) os Q s') :
    Wp exec (Observed t inp rounds) (.const n v :: os) Q s := by
  refine wp_sets trivial rfl (by simp [Op.engine]) (fun j _ => ?_) hQ
  rw [Op.lane, Int.emod_eq_of_lt (by omega) (by omega)]
  rfl

theorem wp_add {a b : Operand} {v : Nat} (hv : s.env.read a 0 + s.env.read b 0 = v) (hlt : v < WORD)
    (hQ : ∀ s', Sets n 1 (fun _ => v) s s' → Wp exec (Observed t inp rounds) os Q s') :
    Wp exec (Observed t inp rounds) (.alu .add n a b :: os) Q s := by
  refine wp_sets trivial rfl (by simp [Op.engine]) (fun j hj => ?_) hQ
  obtain rfl : j = 0 := Nat.lt_one_iff.mp hj
  rw [Op.lane, aluOp, hv, Nat.mod_eq_of_lt hlt]

theorem wp_load {a v : Nat} {m : Name} (ha : s.env m 0 = a) (hv : s.mem[a]? = some v) (hlt : a < INP_VALUES_P)
    (hQ : ∀ s', Sets n 1 (fun _ => v) s s' → Wp exec (Observed t inp rounds) os Q s') :
    Wp exec (Observed t inp rounds) (.load n m :: os) Q s := by
  have hread : s.env.read m 0 = a := ha
  refine wp_sets (by rw [Observed, hread]; exact hlt) rfl (by simp [Op.engine]) (fun j hj => ?_) hQ
  obtain rfl : j = 0 := Nat.lt_one_iff.mp hj
  rw [Op.lane, hread]
  exact at?_of_getElem? hv

theorem wp_vLoad {a : Nat} {m : Name} (ha : s.env m 0 = a) (hv : ∀ j < VLEN, s.mem[a + j]? = some (v j))
    (hobs : a + VLEN ≤ INP_VALUES_P ∨ ∃ g < 32, n = val g ∧ a = INP_VALUES_P + g * VLEN)
    (hQ : ∀ s', Sets n VLEN v s s' → Wp exec (Observed t inp rounds) os Q s') :
    Wp exec (Observed t inp rounds) (.vLoad n m :: os) Q s := by
  have hread : s.env.read m 0 = a := ha
  refine wp_sets ?_ rfl (by simp [Op.engine]) (fun j hj => ?_) hQ
  · rw [Observed, hread]
    exact hobs.imp_right fun ⟨g, hg, hn, ha⟩ => ⟨g, hg, by rw [hn], ha⟩
  · rw [Op.lane, hread]
    exact at?_of_getElem? (hv j hj)

theorem wp_vBroadcast {src : Operand} {v : Nat} (hv : s.env.read src 0 = v)
    (hQ : ∀ s', Sets n VLEN (fun _ => v) s s' → Wp exec (Observed t inp rounds) os Q s') :
    Wp exec (Observed t inp rounds) (.vBroadcast n src :: os) Q s :=
  wp_sets trivial rfl (by simp [Op.engine]) (fun j _ => congrArg Except.ok hv) hQ

end SymState

end Vliw
