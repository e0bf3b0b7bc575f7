import VliwKernel.Regalloc.BuildDag
import VliwKernel.Semantics.Renaming

/-!
# The values of a tagged program

A tag is written once, so in-order execution gives it one value for good: what its writer computes from
the values it reads and, as no load sees a store, from the memory at the start.
-/

namespace Vliw

variable {pinned : List String} {is : List (Instr Operand)} {rc : Sym → Option Int} {nodes : List DNode}
  {mem : List Nat} {s s' u v : SymState} {ins jns : Instr Operand} {i j : Nat}

/-- What each tag holds: the word that its writer computes from the words it reads and the memory `mem`. -/
structure Valued (pinned : List String) (is : List (Instr Operand)) (mem : List Nat) (V : Env) : Prop where
  zero : ∀ {x}, isPinned pinned x = true → V x = fun _ => 0
  lane : ∀ {i j : Nat} {ins : Instr Operand}, is[i]? = some ins → j < ins.op.width →
    ∃ v, ins.op.lane V.read mem j = .ok v ∧ ∀ {d : Operand}, ins.op.dest? = some d → V d.base j = v
  inside : ∀ {i : Nat} {ins : Instr Operand} {p : Nat × Nat}, is[i]? = some ins → p ∈ ins.op.stores V.read → p.1 < mem.length

/-- What each tag holds, and what the memory holds in the end. -/
structure Meaning (pinned : List String) (is : List (Instr Operand)) (nodes : List DNode) (mem mem' : List Nat) (V : Env) : Prop
    extends Valued pinned is mem V where
  word : ∀ x k, V x k < WORD
  once : ∀ {i j : Nat} {ins jns : Instr Operand} {p q : Nat × Nat}, is[i]? = some ins → is[j]? = some jns →
    p ∈ ins.op.stores V.read → q ∈ jns.op.stores V.read → p.1 = q.1 → i = j ∧ p = q
  apart : ∀ {i j : Nat} {ins jns : Instr Operand} {q : Nat × Nat}, is[i]? = some ins → is[j]? = some jns →
    q.1 ∈ ins.op.loads V.read → q ∈ jns.op.stores V.read → RawAncestor nodes i j
  length : mem'.length = mem.length
  stored : ∀ {i : Nat} {ins : Instr Operand} {p : Nat × Nat}, is[i]? = some ins → p ∈ ins.op.stores V.read → mem'[p.1]? = some p.2
  kept : ∀ {a : Nat}, (∀ {i : Nat} {ins : Instr Operand} {p : Nat × Nat}, is[i]? = some ins → p ∈ ins.op.stores V.read → p.1 ≠ a) →
    mem'[a]? = mem[a]?

section words

theorem aluOp_lt {op : AluOp} {a b r : Nat} (h : aluOp op a b = .ok r) : r < WORD := by
  have hmod : ∀ n : Nat, n % WORD < WORD := fun n => Nat.mod_lt n WORD_pos
  cases op with
  | floordiv | cdiv | mod =>
      rw [aluOp] at h
      split at h
      · cases h
      · cases h
        exact hmod _
  | sub =>
      cases h
      have := Int.emod_lt_of_pos ((a : Int) - b) (by decide : (0 : Int) < WORD)
      have := Int.emod_nonneg ((a : Int) - b) (by decide : (WORD : Int) ≠ 0)
      omega
  | lt | eq =>
      cases h
      split <;> decide
  | other name => cases h
  | _ =>
      cases h
      exact hmod _

theorem at?_mem {xs : List Nat} {a x : Nat} (h : at? xs a = .ok x) : xs[a]? = some x := by
  cases hx : xs[a]? <;> simp_all [at?]

theorem Op.lane_lt {α : Type} {rd : α → Nat → Nat} {o : Op α} {x : Nat} (hr : ∀ a k, rd a k < WORD) (hm : ∀ x ∈ mem, x < WORD)
    (h : o.lane rd mem j = .ok x) : x < WORD := by
  cases o with
  | alu op dest a1 a2 | vecElem op dest a1 a2 => exact aluOp_lt h
  | vecFma dest a b c =>
      cases h
      exact Nat.mod_lt _ WORD_pos
  | vBroadcast dest src =>
      cases h
      exact hr _ _
  | load dest addr | vLoad dest addr | gather dest addr => exact hm x (List.mem_of_getElem? (at?_mem h))
  | const dest val =>
      cases h
      have := Int.emod_lt_of_pos val (by decide : (0 : Int) < WORD)
      have := Int.emod_nonneg val (by decide : (WORD : Int) ≠ 0)
      omega
  | vSelect dest cond a b =>
      cases h
      split <;> exact hr _ _
  | vStore addr src | pause | debugVCompare loc keys =>
      cases h
      exact WORD_pos

theorem Env.write_lt {env : Env} {d : Operand} {vals : List Nat} (he : ∀ x k, env x k < WORD) (hv : ∀ k, vals.getD k 0 < WORD)
    (x : Sym) (k : Nat) : env.write d vals x k < WORD := by
  cases d with
  | sym y =>
      rw [write, Function.update_apply]
      split
      · exact hv k
      · exact he x k
  | lane y l =>
      rw [write, Function.update_apply]
      split
      · rw [Function.update_apply]
        split
        · exact hv 0
        · exact he y k
      · exact he x k

/-- Execution stays among the 32-bit words. -/
theorem SymState.run_lt (h : run is s = .ok s') (he : ∀ x k, s.env x k < WORD) (hm : ∀ x ∈ s.mem, x < WORD) :
    (∀ x k, s'.env x k < WORD) ∧ ∀ x ∈ s'.mem, x < WORD := by
  refine foldlM_inv (I := fun s => (∀ x k, s.env x k < WORD) ∧ ∀ x ∈ s.mem, x < WORD) (fun ins _ s v hv hI => ?_) h ⟨he, hm⟩
  obtain ⟨he, hm⟩ := hI
  obtain ⟨vals, hlen, hvals, hmem, henv⟩ := step_eq_ok hv
  have hval : ∀ k, vals.getD k 0 < WORD := by
    intro k
    rw [List.getD_eq_getElem?_getD]
    by_cases hk : k < ins.op.width
    · obtain ⟨x, hx, hlane⟩ := hvals hk
      rw [hx]
      exact Op.lane_lt (fun o j => he _ _) hm hlane
    · rw [List.getElem?_eq_none (by omega)]
      exact WORD_pos
  have hstores : ∀ p ∈ ins.op.stores s.env.read, p.2 < WORD := by
    cases ins.op with
    | vStore addr src =>
        intro p hp
        obtain ⟨l, -, rfl⟩ := List.mem_map.mp hp
        exact he _ _
    | _ => exact fun p hp => by cases hp
  refine ⟨fun x k => ?_, Machine.applyWrites_forall hmem hm hstores⟩
  rw [henv]
  cases ins.op.dest? with
  | none => exact he x k
  | some d => exact Env.write_lt he hval x k

end words

theorem RawAncestor.lt {dag : Dag} (hd : DagOf pinned is dag) (h : RawAncestor dag.nodes i j) : i < j := by
  induction h with
  | single he => exact (hd.edge.mp he).2.1
  | tail _ he ih => exact ih.trans (hd.edge.mp he).2.1

theorem Op.stores_inj {α : Type} {rd : α → Nat → Nat} {o : Op α} {p q : Nat × Nat} (hp : p ∈ o.stores rd) (hq : q ∈ o.stores rd)
    (h : p.1 = q.1) : p = q := by
  cases o with
  | vStore addr src =>
      obtain ⟨k, -, rfl⟩ := List.mem_map.mp hp
      obtain ⟨l, -, rfl⟩ := List.mem_map.mp hq
      obtain rfl : k = l := Nat.add_left_cancel h
      rfl
  | _ => cases hp

/-- A load shares a word with later stores only. -/
def LoadsFirst (is : List (Instr Operand)) (s₀ : SymState) : Prop :=
  ∀ {i j a}, LoadsAt is s₀ i a → StoresAt is s₀ j a → i < j

section final

variable (ht : Tagged pinned is rc) (hs : WholeWrites pinned is) (hrun : SymState.run is s = .ok s') (hload : LoadsFirst is s)

include ht hs in
theorem RunsIn.reads (h : RunsIn is s i ins u) (hrest : SymState.run (is.drop i) u = .ok s') :
    ∀ o ∈ ins.op.readOperands, u.env.read o = s'.env.read o := by
  intro o ho
  have hx : ∀ jns ∈ is.drop i, ∀ d, jns.op.dest? = some d → d.base ≠ o.base := by
    intro jns hj d hjd hdo
    obtain ⟨k, hk⟩ := List.getElem?_of_mem hj
    rw [List.getElem?_drop] at hk
    have hp := (hs jns (List.mem_of_getElem? hk) hjd).1
    obtain ⟨w, hw, hwt⟩ := ht.defined h.1 ho (hdo ▸ hp)
    have := ht.unique (hdo ▸ hp) ⟨jns, d, hk, hjd, hdo⟩ hwt
    omega
  funext k
  rw [Env.read, Env.read, SymState.env_of_ne hrest hx]

include ht hs in
theorem SymState.env_final {d : Operand} (hi : is[i]? = some ins) (hd : ins.op.dest? = some d)
    (hdrop : run (is.drop (i + 1)) v = .ok s') : s'.env d.base = v.env d.base := by
  refine env_of_ne hdrop fun jns hjns d' hd' hdd => ?_
  obtain ⟨k, hk⟩ := List.getElem?_of_mem hjns
  rw [List.getElem?_drop] at hk
  have := ht.unique (hs ins (List.mem_of_getElem? hi) hd).1 ⟨jns, d', hk, hd', hdd⟩ ⟨ins, d, hi, hd, rfl⟩
  omega

include hs hrun in
theorem SymState.env_pinned {x : Sym} (hx : isPinned pinned x = true) : s'.env x = s.env x := by
  refine env_of_ne hrun fun ins hins d hdd hdx => ?_
  have := (hs ins hins hdd).1
  rw [hdx, hx] at this
  cases this

include ht hs hrun hload

theorem meaning_at (hi : is[i]? = some ins) : ∃ u v, RunsIn is s i ins u ∧
    u.step ins = .ok v ∧ SymState.run (is.take (i + 1)) s = .ok v ∧ SymState.run (is.drop (i + 1)) v = .ok s' ∧
    (∀ o ∈ ins.op.readOperands, u.env.read o = s'.env.read o) ∧ u.mem.length = s.mem.length ∧
    ∀ a ∈ ins.op.loads s'.env.read, u.mem[a]? = s.mem[a]? := by
  obtain ⟨u, v, hu, hv, htake, hdrop⟩ := SymState.runsIn hrun hi
  have hlt := (List.getElem?_eq_some_iff.mp hi).1
  have hrest : SymState.run (is.drop i) u = .ok s' := by
    rw [List.drop_eq_getElem_cons hlt, SymState.run, List.foldlM_cons, (List.getElem?_eq_some_iff.mp hi).2, hv]
    exact hdrop
  have hreads := hu.reads ht hs hrest
  obtain ⟨hlen, hget⟩ := SymState.mem_of_ne hu.2
  refine ⟨u, v, hu, hv, htake, hdrop, hreads, hlen, fun a ha => hget fun {k jns w} hr p hp hpa => ?_⟩
  obtain ⟨hki, hr⟩ := hr.of_take
  have := hload ⟨ins, u, hu, by rwa [Op.loads_congr hreads]⟩ ⟨jns, w, hr, List.mem_map.mpr ⟨p, hp, hpa⟩⟩
  omega

/-- What an instruction computes, loads and stores, in terms of the final values and the first memory. -/
theorem final_at (hi : is[i]? = some ins) : ∃ vals,
    (List.range ins.op.width).mapM (ins.op.lane s'.env.read s.mem) = .ok vals ∧
    (∀ {d}, ins.op.dest? = some d → s'.env d.base = fun k => vals.getD k 0) ∧
    ∀ p ∈ ins.op.stores s'.env.read, p.1 < s.mem.length := by
  obtain ⟨u, v, hu, hv, -, hdrop, hreads, hlen, hloads⟩ := meaning_at ht hs hrun hload hi
  obtain ⟨vals, hvals, hv⟩ := bind_eq_ok.mp hv
  obtain ⟨mem, hmem, hv⟩ := bind_eq_ok.mp hv
  cases hv
  refine ⟨vals, ?_, fun {d} hd => ?_, ?_⟩
  · rw [← hvals]
    refine mapM_congr fun j hj => ?_
    rw [Op.lane_congr hreads, Op.lane_mem (List.mem_range.mp hj) hloads]
  · rw [SymState.env_final ht hs hi hd hdrop]
    obtain ⟨-, y, rfl⟩ := hs ins (List.mem_of_getElem? hi) hd
    simp [hd, Env.write, Operand.base]
  · rw [← hlen, ← Op.stores_congr hreads]
    exact (Machine.applyWrites_length hmem).2

end final

section meaning

variable (ht : Tagged pinned is rc) (hs : WholeWrites pinned is) (hrun : SymState.run is ⟨.zero, mem⟩ = .ok s')
include ht hs hrun

/-- In-order execution of a tagged program gives every tag one value. -/
theorem SymState.valued (hload : LoadsFirst is ⟨.zero, mem⟩) : Valued pinned is mem s'.env where
  zero := env_pinned hs hrun
  lane := by
    intro i j ins hi hj
    obtain ⟨vals, hvals, hdest, -⟩ := final_at ht hs hrun hload hi
    obtain ⟨x, hx, hlane⟩ := (mapM_eq_ok hvals).2 (List.getElem?_range hj)
    exact ⟨x, hlane, fun {d} hd => by simp [hdest hd, hx]⟩
  inside := by
    intro i ins p hi hp
    obtain ⟨-, -, -, hin⟩ := final_at ht hs hrun hload hi
    exact hin p hp

/-- In-order execution of a tagged program whose memory accesses are independent gives it a meaning. -/
theorem SymState.meaning {dag : Dag} (hd : DagOf pinned is dag) (hind : Independent is ⟨.zero, mem⟩ dag.nodes)
    (hm : ∀ x ∈ mem, x < WORD) : Meaning pinned is dag.nodes mem s'.mem s'.env := by
  have hload : LoadsFirst is ⟨.zero, mem⟩ := fun h h' => (hind.loads h h').lt hd
  have hat := fun {i ins} => @meaning_at _ _ _ _ _ ins i ht hs hrun hload
  -- a store of the final values is a store of the run
  have hst : ∀ {i ins p}, is[i]? = some ins → p ∈ ins.op.stores s'.env.read → StoresAt is ⟨.zero, mem⟩ i p.1 := by
    intro i ins p hi hp
    obtain ⟨u, v, hu, -, -, -, hreads, -⟩ := hat hi
    exact ⟨ins, u, hu, List.mem_map.mpr ⟨p, by rwa [Op.stores_congr hreads], rfl⟩⟩
  refine ⟨valued ht hs hrun hload, (run_lt hrun (fun _ _ => WORD_pos) hm).1, ?_, ?_, (mem_of_ne hrun).1, ?_, ?_⟩
  case refine_1 =>
    intro i j ins jns p q hi hj hp hq hpq
    obtain rfl := hind.stores (hst hi hp) (hpq ▸ hst hj hq)
    cases hi.symm.trans hj
    exact ⟨rfl, Op.stores_inj hp hq hpq⟩
  case refine_2 =>
    intro i j ins jns q hi hj hq hq'
    obtain ⟨u, v, hu, -, -, -, hreads, -⟩ := hat hi
    exact hind.loads ⟨ins, u, hu, by rwa [Op.loads_congr hreads]⟩ (hst hj hq')
  case refine_3 =>
    intro i ins p hi hp
    obtain ⟨u, v, hu, hv, htake, hdrop, hreads, -⟩ := hat hi
    obtain ⟨vals, -, -, hmem, -⟩ := step_eq_ok hv
    rw [Op.stores_congr hreads] at hmem
    rw [(mem_of_ne hdrop).2, Machine.applyWrites_of_mem hmem hp fun q hq hqp => by rw [Op.stores_inj hq hp hqp]]
    intro k jns w hr q hq hqp
    have hr' := hr.of_drop htake
    have := hind.stores (hst hi hp) ⟨jns, w, hr', List.mem_map.mpr ⟨q, hq, hqp⟩⟩
    omega
  case refine_4 =>
    intro a ha
    refine (mem_of_ne hrun).2 fun {k ins w} hr p hp => ?_
    obtain ⟨u, v, hu, -, -, -, hreads, -⟩ := hat hr.1
    obtain rfl : w = u := Except.ok.inj (hr.2.symm.trans hu.2)
    exact ha hr.1 (by rwa [← Op.stores_congr hreads])

end meaning
end Vliw
