import VliwKernel.Schedule.Legal

/-!
# Slots and their source

Whole slots and `alu` lanes carry the id of the instruction they realise, the lanes of a gather are plain tuples. The
validator of the schedule finds the cycle of a node by that id.
-/

namespace Vliw

def TaggedBundle.carries (b : TaggedBundle) (rid : Nat) : Bool := b.items.any fun q => q.2.any fun s => s.rid = some rid

/-- `cycle_of_rid` of the validator: the last cycle with a slot that carries the id. -/
def cycleOfRid (bs : List TaggedBundle) (rid : Nat) : Option Nat :=
  bs.zipIdx.foldl (fun c q => if q.1.carries rid then some q.2 else c) none

def cycleOf (nodes : List DNode) (bs : List TaggedBundle) (i : Nat) : Option Nat :=
  (nodes[i]?).bind fun n => cycleOfRid bs n.instr.rid

/-- Every slot carries the id of the node that it realises, and the validator finds the cycles of all nodes, so of both ends
of every edge. -/
structure Traceable (nodes : List DNode) (es : List (Dict Engine (List Entry))) : Prop where
  slots : ∀ {b e x}, b ∈ es → x ∈ FuncUnitPool.slots b e → ∃ n, nodes[x.node]? = some n ∧ x.lowered.rid = some n.instr.rid
  total : ∀ {i}, i < nodes.length → (cycleOf nodes (es.map emitted) i).isSome
  edges : ∀ {i j k}, (i, k) ∈ Dag.inEdges nodes j →
    (cycleOf nodes (es.map emitted) i).isSome ∧ (cycleOf nodes (es.map emitted) j).isSome

variable {pinned : List String} {is : List (Instr Operand)} {rc : Sym → Option Int} {dag : Dag} {i r : Nat} {node : DNode}
  {es : List (Dict Engine (List Entry))} {bs : List TaggedBundle}

theorem cycleOfRid_isSome : (cycleOfRid bs r).isSome ↔ ∃ b ∈ bs, b.carries r = true := by
  have hfold : ∀ (k : Nat) (c : Option Nat), ((bs.zipIdx k).foldl (fun c q => if q.1.carries r then some q.2 else c) c).isSome ↔
      c.isSome ∨ ∃ b ∈ bs, b.carries r = true := by
    induction bs with
    | nil => simp
    | cons b bs ih =>
        intro k c
        rw [List.zipIdx_cons, List.foldl_cons, ih]
        by_cases hb : b.carries r = true <;> simp [hb]
  rw [cycleOfRid, hfold]
  simp

theorem carries_emitted {b : Dict Engine (List Entry)} {e : Engine} {x : Entry} (hx : x ∈ FuncUnitPool.slots b e)
    (hr : x.lowered.rid = some r) : (emitted b).carries r = true := by
  obtain ⟨l, hl, hxl⟩ := FuncUnitPool.mem_slots.mp hx
  rw [TaggedBundle.carries, items_emitted, List.any_map, List.any_eq_true]
  refine ⟨(e, l), Dict.mem_items.mpr hl, ?_⟩
  rw [Function.comp_apply, List.any_map, List.any_eq_true]
  exact ⟨x, hxl, by simp [hr]⟩

theorem mem_entriesOf {e : Engine} {x : Entry} : (e, x) ∈ entriesOf es i ↔ ∃ b ∈ es, x ∈ FuncUnitPool.slots b e ∧ x.node = i := by
  have hall : e ∈ Engine.all := by cases e <;> simp [Engine.all]
  simp [entriesOf, bundleEntries, FuncUnitPool.mem_ofNode, hall]

/-- The entries of a node that is realised once carry its id, unless it is a gather. -/
theorem RealisedOnce.rid {ins : Instr Operand} {xs : List (Engine × Entry)} (h : RealisedOnce i ins xs) {e : Engine} {x : Entry}
    (hx : (e, x) ∈ xs) : x.lowered.rid = if ins.op.isGather then none else some ins.rid := by
  cases h with
  | whole b hg hxs =>
      rw [hxs, List.mem_singleton] at hx
      cases hx
      have hk : (classify (placedInstr ins b).op).kind ≠ .gather := by
        rw [classify_placedInstr, Ne, FuncUnitPool.kind_eq_gather, hg]
        exact Bool.false_ne_true
      obtain ⟨s, hlow⟩ := FuncUnitPool.lower_ok hk
      rw [hg, if_neg Bool.false_ne_true, Entry.lowered_whole hlow]
      rfl
  | elem b hk hxs =>
      rw [hxs] at hx
      obtain ⟨j, -, heq⟩ := List.mem_map.mp hx
      cases heq
      revert hk
      cases hop : ins.op <;>
        simp [classify, Op.engine, Op.isGather, Entry.lowered, Entry.emit, laneSlot, placedInstr, Instr.rebuild, Op.rebuild, hop]
  | gather dest addr hg hxs =>
      rw [hxs] at hx
      obtain ⟨j, -, heq⟩ := List.mem_map.mp hx
      cases heq
      rw [hg, if_pos rfl]
      rfl

theorem RealisedOnce.exists_mem {ins : Instr Operand} {xs : List (Engine × Entry)} (h : RealisedOnce i ins xs) : ∃ e x, (e, x) ∈ xs := by
  cases h with
  | whole b _ hxs => exact ⟨_, _, hxs ▸ List.mem_singleton_self _⟩
  | elem b _ hxs => exact ⟨_, _, hxs ▸ List.mem_map.mpr ⟨0, by decide, rfl⟩⟩
  | gather dest addr _ hxs => exact ⟨_, _, hxs ▸ List.mem_map.mpr ⟨0, by decide, rfl⟩⟩

/-- Bundles that realise each node once are traceable exactly when no node is a gather. -/
theorem traceable_iff_noGather (hw : Dag.WellFormed dag.nodes) (hreal : ∀ {i node}, dag.nodes[i]? = some node → RealisedOnce i node.instr (entriesOf es i))
    (hin : ∀ {b e x}, b ∈ es → x ∈ FuncUnitPool.slots b e → x.node < dag.nodes.length) :
    Traceable dag.nodes es ↔ ∀ n ∈ dag.nodes, n.instr.op.isGather = false := by
  constructor
  · intro ht n hn
    obtain ⟨i, hi⟩ := List.getElem?_of_mem hn
    obtain ⟨e, x, hx⟩ := (hreal hi).exists_mem
    have hrid := (hreal hi).rid hx
    obtain ⟨b, hb, hxb, rfl⟩ := mem_entriesOf.mp hx
    obtain ⟨n', hn', hsome⟩ := ht.slots hb hxb
    rw [hrid] at hsome
    rw [← Bool.not_eq_true]
    intro hg
    simp [hg] at hsome
  · intro hnone
    have htotal : ∀ {i}, i < dag.nodes.length → (cycleOf dag.nodes (es.map emitted) i).isSome := by
      intro i hi
      have hn := List.getElem?_eq_getElem hi
      obtain ⟨e, x, hx⟩ := (hreal hn).exists_mem
      have hrid := (hreal hn).rid hx
      rw [hnone _ (List.getElem_mem hi), if_neg Bool.false_ne_true] at hrid
      obtain ⟨b, hb, hxb, -⟩ := mem_entriesOf.mp hx
      rw [cycleOf, hn, Option.bind_some, cycleOfRid_isSome]
      exact ⟨emitted b, List.mem_map_of_mem hb, carries_emitted hxb hrid⟩
    refine ⟨fun {b e x} hb hx => ?_, htotal, fun {i j k} he => ?_⟩
    · have hlt := hin hb hx
      have hn := List.getElem?_eq_getElem hlt
      refine ⟨_, hn, ?_⟩
      rw [(hreal hn).rid (mem_entriesOf.mpr ⟨b, hb, hx, rfl⟩), hnone _ (List.getElem_mem hlt), if_neg Bool.false_ne_true]
    · have hlt := Dag.length_of_mem_inEdges he
      exact ⟨htotal (Nat.lt_trans (hw.lt he) hlt), htotal hlt⟩

/-- A schedule is traceable exactly when the program has no gather. -/
theorem traceable_iff (ht : Tagged pinned is rc) (hdag : buildDag is pinned = .ok dag) (hsched : Scheduled rc dag bs) :
    ∃ es : List (Dict Engine (List Entry)), bs = es.map emitted ∧
      (∀ {i node}, dag.nodes[i]? = some node → RealisedOnce i node.instr (entriesOf es i)) ∧
      (Traceable dag.nodes es ↔ ∀ ins ∈ is, ins.op.isGather = false) := by
  have hb : Built pinned is rc dag := ⟨ht, .of_ok ht.toSingleWriter hdag⟩
  obtain ⟨w, k, hrun, hk⟩ := hsched.run
  obtain ⟨cs, rfl, hcs, hcount⟩ := hrun.cycles hb
  obtain ⟨hreal, hin⟩ := hcs.realises hb hk hcount
  refine ⟨cs.map CycleRecord.bundle, by simp, hreal, ?_⟩
  rw [traceable_iff_noGather hb.graph.wf hreal hin, ← hb.instrs, List.forall_mem_map]

theorem traceable_small : ∃ is rc dag es, tagRawChains smallProgram PINNED = .ok (is, rc) ∧ buildDag is PINNED = .ok dag ∧
    Scheduled rc dag (es.map emitted) ∧ es.length = 4 ∧ Traceable dag.nodes es := by
  have hrun : (do
      let (is, rc) ← tagRawChains smallProgram PINNED
      let dag ← buildDag is PINNED
      let (bs, _) ← schedule dag rc (weightedPicker dag smallWeights) none .init
      .ok (is.all fun ins => ins.op.isGather = false, bs.length)) = (.ok (true, 4) : Except PyErr (Bool × Nat)) := by
    decide +kernel
  obtain ⟨⟨is, rc⟩, htag, hrun⟩ := bind_eq_ok.mp hrun
  obtain ⟨dag, hdag, hrun⟩ := bind_eq_ok.mp hrun
  obtain ⟨⟨bs, w⟩, hg, hrun⟩ := bind_eq_ok.mp hrun
  obtain ⟨hnone, hlen⟩ := Prod.mk.inj (Except.ok.inj hrun)
  have hsched : Scheduled rc dag bs := .greedy _ none w hg
  obtain ⟨es, rfl, -, hiff⟩ := traceable_iff (tagRawChains_tagged pinned_noHash htag) hdag hsched
  refine ⟨is, rc, dag, es, htag, hdag, hsched, by simpa using hlen, hiff.mpr fun ins hins => ?_⟩
  exact of_decide_eq_true (List.all_eq_true.mp hnone ins hins)

/-- A gather from a broadcast address. -/
def oneGather : List (Instr Operand) :=
  [⟨0, .const (.sym ⟨"a", false⟩) 0⟩, ⟨1, .vBroadcast (.sym ⟨"v", true⟩) (.sym ⟨"a", false⟩)⟩,
    ⟨2, .gather (.sym ⟨"g", true⟩) (.sym ⟨"v", true⟩)⟩]

/-- The lanes of the gather carry no id, and the validator knows no cycle for it. -/
theorem gather_untraceable : ∃ is rc dag bs b s, tagRawChains oneGather PINNED = .ok (is, rc) ∧ buildDag is PINNED = .ok dag ∧
    Scheduled rc dag bs ∧ b ∈ bs ∧ s ∈ b.slotsOf .load ∧ s.rid = none ∧ (1, 1) ∈ Dag.inEdges dag.nodes 2 ∧
    cycleOf dag.nodes bs 2 = none := by
  have hrun : (do
      let (is, rc) ← tagRawChains oneGather PINNED
      let dag ← buildDag is PINNED
      let (bs, _) ← schedule dag rc (fun _ _ _ => 0) (some 10) .init
      .ok ((bs.map fun b => b.slotsOf .load).getLast?, Dag.inEdges dag.nodes 2, cycleOf dag.nodes bs 2)) =
      (.ok (some [⟨.load 30 22, none⟩, ⟨.load 31 23, none⟩], [(1, 1)], none) : Except PyErr _) := by decide +kernel
  obtain ⟨⟨is, rc⟩, htag, hrun⟩ := bind_eq_ok.mp hrun
  obtain ⟨dag, hdag, hrun⟩ := bind_eq_ok.mp hrun
  obtain ⟨⟨bs, w⟩, hg, hrun⟩ := bind_eq_ok.mp hrun
  have hout := Except.ok.inj hrun
  simp only [Prod.mk.injEq] at hout
  obtain ⟨hlast, hedge, hcycle⟩ := hout
  obtain ⟨b, hb, hslots⟩ := List.mem_map.mp (List.mem_of_getLast? hlast)
  refine ⟨is, rc, dag, bs, b, ⟨.load 30 22, none⟩, htag, hdag, .greedy _ (some 10) w hg, hb, ?_, rfl, ?_, hcycle⟩
  · rw [hslots]
    exact List.mem_cons_self
  · rw [hedge]
    exact List.mem_cons_self

end Vliw
