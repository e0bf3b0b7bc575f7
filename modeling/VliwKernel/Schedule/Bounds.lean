import Mathlib.Algebra.BigOperators.Fin
import Mathlib.Algebra.BigOperators.Ring.Finset
import VliwKernel.Problem.Control
import VliwKernel.Schedule.Legal
import VliwKernel.Semantics.Bundles

/-!
# How short a schedule can be

Whatever order the schedulers pick, a chain of values takes the cycles of its nodes one after another, and the slots
that the program needs take cycles enough to offer them, at whatever prices the slots are counted.
-/

namespace Vliw

variable {pinned : List String} {is : List (Instr Operand)} {rc : Sym → Option Int} {dag : Dag} {w w' : World} {c : CycleRecord}
  {cs : List CycleRecord} {i j : Nat} {l : Landing} {node : DNode}

def Op.steps {α : Type} (op : Op α) (k : Nat) : Nat :=
  if op.isGather then (k + SLOT_LIMITS .load - 1) / SLOT_LIMITS .load else min k 1

def Op.latency {α : Type} (op : Op α) : Nat := op.steps (classify op).lanesTotal

/-- A chain of values that ends in a node, with the cycles that it takes at least. -/
inductive Chain (nodes : List DNode) : Nat → Nat → Prop
  | start {i : Nat} {n : DNode} : nodes[i]? = some n → Chain nodes i n.instr.op.latency
  | step {i j d wt : Nat} {n : DNode} : Chain nodes i d → (i, wt) ∈ Dag.inEdges nodes j → nodes[j]? = some n →
      Chain nodes j (d + n.instr.op.latency)

def cycles (cs : List CycleRecord) : Nat := (cs.map fun c => (emitted c.bundle).untag).countP Bundle.counts

theorem cycles_append (cs cs' : List CycleRecord) : cycles (cs ++ cs') = cycles cs + cycles cs' := by
  simp only [cycles, List.map_append, List.countP_append]

theorem cycles_single (c : CycleRecord) : cycles [c] = if (emitted c.bundle).untag.counts then 1 else 0 := by
  simp only [cycles, List.map_cons, List.map_nil, List.countP_singleton]

theorem counts_of_slot {b : Dict Engine (List Entry)} {e : Engine} {x : Entry} (hx : x ∈ FuncUnitPool.slots b e) (he : e ≠ .debug) :
    (emitted b).untag.counts = true := by
  obtain ⟨ss, hss, -⟩ := exists_items_untag hx
  exact List.any_eq_true.mpr ⟨e, Dict.mem_keys_of_get? (Dict.mem_items.mp hss), by simpa using he⟩

section chain

theorem Cycle.counts (hc : Cycle rc dag.nodes w c w') {b : RegisterAllocator} (hl : Landed pinned is dag.nodes c i l node b)
    (hM : c.ledger i = some l) (hk : (classify node.instr.op).kind ≠ .debug) : (emitted c.bundle).untag.counts = true := by
  have hcl : classify l.instr.op = classify node.instr.op := by rw [hl.instr, classify_placedInstr]
  obtain ⟨e, x, hx, he⟩ := hc.inv.mem_of_landing hM (hcl.symm ▸ hl.progress)
  exact counts_of_slot hx (he (hcl.symm ▸ hk))

theorem Cycle.gather_le (hc : Cycle rc dag.nodes w c w') {b : RegisterAllocator} (hl : Landed pinned is dag.nodes c i l node b)
    (hM : c.ledger i = some l) (hg : node.instr.op.isGather = true) : l.hi ≤ l.lo + SLOT_LIMITS .load := by
  have hcl : classify l.instr.op = classify node.instr.op := by rw [hl.instr, classify_placedInstr]
  have hg' : l.instr.op.isGather = true := by
    rw [← FuncUnitPool.kind_eq_gather, hcl]
    exact FuncUnitPool.kind_eq_gather.mpr hg
  cases hc.inv.realised hM with
  | whole _ _ hk _ => exact absurd (FuncUnitPool.kind_eq_gather.mpr hg') hk
  | lanes _ hlanes =>
      have hload := hlanes .load
      rw [laneEngine, if_pos hg', if_pos rfl] at hload
      have hlen : (FuncUnitPool.ofNode c.stop.pool.bundle .load i).length ≤ (FuncUnitPool.slots c.stop.pool.bundle .load).length :=
        List.length_filter_le _ _
      rw [hload, laneEntries, List.length_map, List.length_range'] at hlen
      have hfree := (Nat.le_add_left _ _).trans_eq (hc.inv.free (e := .load) (by decide))
      omega

theorem Op.steps_lands {op : Op Operand} {lo hi : Nat} (hg : op.isGather = true → hi ≤ lo + SLOT_LIMITS .load) :
    op.steps hi ≤ op.steps lo + 1 := by
  unfold Op.steps
  split
  · next h =>
      have hle := hg h
      simp only [SLOT_LIMITS] at hle ⊢
      omega
  · omega

/-- If a node lands only once `d` cycles have been counted, it is complete `latency` cycles later at the earliest. -/
theorem Cycles.latency_le (hb : Built pinned is rc dag) {d : Nat} (hn : dag.nodes[i]? = some node)
    (hd : ∀ cs₁ c cs₂ u v, cs = cs₁ ++ c :: cs₂ → Cycles rc dag.nodes (.start dag .init) cs₁ u → Cycle rc dag.nodes u c v →
      c.ledger i ≠ none → d ≤ cycles cs₁)
    (hcs : Cycles rc dag.nodes (.start dag .init) cs w) :
    (0 < w.place.val.lanesDone i ∨ w.dag.val.committed i = true) → d + node.instr.op.steps (w.place.val.lanesDone i) ≤ cycles cs := by
  induction cs using List.reverseRecOn generalizing w with
  | nil =>
      cases hcs
      have hst : (World.start dag .init).dag = ⟨.initial dag.nodes, none⟩ := hb.graph.st
      rintro (h | h)
      · cases h
      · rw [hst] at h
        cases h
  | append_singleton cs c ih =>
      obtain ⟨v, hv, hvw⟩ := hcs.split
      cases hvw with
      | cons hc hnil =>
          cases hnil
          obtain ⟨hlive, -⟩ := hv.live hb hb.start_live.1
          obtain ⟨hstart, -, hstop, -⟩ := hc.live hb hlive
          have hsd : c.start.dag.val = v.dag.val := congrArg Logged.val hc.like.dag
          have hsp : c.start.place.val = v.place.val := congrArg Logged.val hc.like.place
          obtain ⟨u, hu, -, -, hcomm, hplace, -⟩ := hstop.toOk.endCycle
          cases hc.ends.symm.trans hu
          have hprev := ih (fun cs₁ c' cs₂ x y heq => hd cs₁ c' (cs₂ ++ [c]) x y (by rw [heq, List.append_assoc, List.cons_append])) hv
          rw [cycles_append, cycles_single, hplace, hcomm]
          intro hlanded
          cases hM : c.ledger i with
          | none =>
              obtain ⟨hl, hcs'⟩ := hc.unlanded hb hlive hM
              rw [hl, hsp]
              rw [hl, hcs', hsp, hsd] at hlanded
              exact (hprev hlanded).trans (Nat.le_add_right _ _)
          | some l =>
              obtain ⟨node', b, hl⟩ := hc.landed hb hlive hM
              cases hl.get.symm.trans hn
              have hbefore : d ≤ cycles cs := hd cs c [] v w rfl hv hc (by rw [hM]; simp)
              by_cases hk : (classify node.instr.op).kind = .debug
              · rw [hstop.lanes_debug hn hk]
                have hzero : node.instr.op.steps 0 = 0 := by
                  unfold Op.steps
                  split <;> rfl
                omega
              · rw [if_pos (hc.counts hl hM hk), ← hl.hi]
                have hlands : node.instr.op.steps l.hi ≤ node.instr.op.steps l.lo + 1 := Op.steps_lands fun hg => hc.gather_le hl hM hg
                by_cases hlo : l.lo = 0
                · rw [hlo, show node.instr.op.steps 0 = 0 by unfold Op.steps; split <;> rfl] at hlands
                  omega
                · have hpos : 0 < v.place.val.lanesDone i := by
                    rw [← hsp, ← hl.lo]
                    omega
                  have hle := hprev (.inl hpos)
                  rw [← hsp, ← hl.lo] at hle
                  omega

/-- The nodes of a chain are completed one after another. -/
theorem Cycles.chain_le (hb : Built pinned is rc dag) {d : Nat} (hchain : Chain dag.nodes i d)
    (hcs : Cycles rc dag.nodes (.start dag .init) cs w) (hi : w.dag.val.committed i = true) : d ≤ cycles cs := by
  induction hchain generalizing cs w with
  | @start i n hn =>
      have hle := hcs.latency_le hb (d := 0) hn (fun _ _ _ _ _ _ _ _ _ => Nat.zero_le _) (.inr hi)
      rwa [(hcs.live hb hb.start_live.1).1.toOk.lanes_done hn hi, Nat.zero_add] at hle
  | @step i j d wt n _ he hn ih =>
      have hle := hcs.latency_le hb (d := d) hn (fun cs₁ c cs₂ u v _ h₁ hc hM => ?_) (.inr hi)
      · rwa [(hcs.live hb hb.start_live.1).1.toOk.lanes_done hn hi] at hle
      · -- the source of the edge is complete before the cycle in which `j` lands
        obtain ⟨hu, -⟩ := h₁.live hb hb.start_live.1
        obtain ⟨hstart, -⟩ := hc.live hb hu
        obtain ⟨l, hM⟩ := Option.ne_none_iff_exists'.mp hM
        obtain ⟨node, b, hl⟩ := hc.landed hb hu hM
        exact ih h₁ (((hstart.dag.frontier_iff.mp hl.frontier).2.2 _ he).2 (hb.graph.edge.mp he).1)

end chain
section work

variable (cost : Engine → Nat)

def price (xs : List (Engine × Entry)) : Nat := (xs.map fun q => cost q.1).sum

/-- What an operation costs at least: a vector operation takes one `valu` slot or eight `alu` slots, a gather eight `load` slots. -/
def Op.demand {α : Type} (op : Op α) : Nat :=
  match (classify op).kind with
  | .gather => VLEN * cost .load
  | .vecElem => min (cost .valu) (VLEN * cost .alu)
  | _ => cost op.engine

def capacity : Nat := (Engine.all.map fun e => cost e * SLOT_LIMITS e).sum

theorem RealisedOnce.demand_le {ins : Instr Operand} {xs : List (Engine × Entry)} (h : RealisedOnce i ins xs) :
    ins.op.demand cost ≤ price cost xs := by
  cases h with
  | whole b hg hxs =>
      rw [hxs]
      simp only [price, List.map_cons, List.map_nil, List.sum_cons, List.sum_nil, Nat.add_zero, Op.demand]
      split
      · next hk =>
          rw [FuncUnitPool.kind_eq_gather.mp hk] at hg
          cases hg
      · next hk =>
          have he : ins.engine = .valu := by
            revert hk
            unfold Instr.engine
            cases ins.op <;> simp [classify, Op.engine, Op.isGather]
          rw [he]
          exact Nat.min_le_left _ _
      · exact Nat.le_refl _
  | elem b hk hxs =>
      rw [hxs, Op.demand, hk, price, List.map_map]
      refine (Nat.min_le_right _ _).trans_eq ?_
      simp [Function.comp_def]
  | gather dest addr hg hxs =>
      rw [hxs, Op.demand, FuncUnitPool.kind_eq_gather.mpr hg, price, List.map_map]
      simp [Function.comp_def]

theorem sum_length_filter {α : Type} {f : α → Nat} {n : Nat} {l : List α} (h : ∀ x ∈ l, f x < n) :
    ∑ i ∈ Finset.range n, (l.filter fun x => f x = i).length = l.length := by
  induction l with
  | nil => simp
  | cons x l ih =>
      have hx : f x < n := h x (by simp)
      have hcons : ∀ i, ((x :: l).filter fun x => f x = i).length = (if f x = i then 1 else 0) + (l.filter fun x => f x = i).length := by
        intro i
        rw [List.filter_cons]
        by_cases hi : f x = i <;> simp [hi, Nat.add_comm]
      simp only [hcons, Finset.sum_add_distrib, ih fun y hy => h y (by simp [hy]), Finset.sum_ite_eq, Finset.mem_range, hx, if_true,
        List.length_cons]
      omega

theorem sum_price {b : Dict Engine (List Entry)} {n : Nat} (h : ∀ e, ∀ x ∈ FuncUnitPool.slots b e, x.node < n) :
    ∑ i ∈ Finset.range n, price cost (bundleEntries b i) = (Engine.all.map fun e => cost e * (FuncUnitPool.slots b e).length).sum := by
  have hnode : ∀ i, price cost (bundleEntries b i) = (Engine.all.map fun e => cost e * (FuncUnitPool.ofNode b e i).length).sum := by
    intro i
    simp [price, bundleEntries, Engine.all, Function.comp_def, Nat.mul_comm]
  have hsum : ∀ e, ∑ i ∈ Finset.range n, (FuncUnitPool.ofNode b e i).length = (FuncUnitPool.slots b e).length :=
    fun e => sum_length_filter (h e)
  simp only [hnode, Engine.all, List.map_cons, List.map_nil, List.sum_cons, List.sum_nil, Finset.sum_add_distrib, ← Finset.mul_sum, hsum,
    Finset.sum_const_zero]

/-- The slots of a cycle cost no more than a bundle offers, and nothing if the cycle is not counted. -/
theorem Cycle.price_le {nodes : List DNode} (hc : Cycle rc nodes w c w') (hdebug : cost .debug = 0) :
    (Engine.all.map fun e => cost e * (FuncUnitPool.slots c.bundle e).length).sum ≤ capacity cost * cycles [c] := by
  rw [cycles_single]
  split
  · rw [Nat.mul_one, capacity]
    refine List.sum_le_sum fun e _ => ?_
    by_cases he : e = .debug
    · rw [he, hdebug, Nat.zero_mul, Nat.zero_mul]
    · exact Nat.mul_le_mul_left _ ((Nat.le_add_left _ _).trans_eq (hc.inv.free he))
  · next hcounts =>
      have hzero : ∀ e, cost e * (FuncUnitPool.slots c.bundle e).length = 0 := by
        intro e
        by_cases he : e = .debug
        · rw [he, hdebug, Nat.zero_mul]
        · cases hs : FuncUnitPool.slots c.bundle e with
          | nil => simp
          | cons x xs => exact absurd (counts_of_slot (b := c.bundle) (e := e) (x := x) (by rw [hs]; simp) he) hcounts
      simp [hzero]

theorem Cycles.price_le {nodes : List DNode} (hcs : Cycles rc nodes w cs w') (hdebug : cost .debug = 0)
    (h : ∀ c ∈ cs, ∀ e, ∀ x ∈ FuncUnitPool.slots c.bundle e, x.node < nodes.length) :
    ∑ i ∈ Finset.range nodes.length, price cost (entriesOf (cs.map CycleRecord.bundle) i) ≤ capacity cost * cycles cs := by
  induction hcs with
  | nil => simp [entriesOf, price]
  | @cons w u w' c cs hc _ ih =>
      have hcons : ∀ i, price cost (entriesOf ((c :: cs).map CycleRecord.bundle) i) =
          price cost (bundleEntries c.bundle i) + price cost (entriesOf (cs.map CycleRecord.bundle) i) := by
        intro i
        simp [entriesOf, price]
      have hle := hc.price_le cost hdebug
      have hrest := ih fun c hc => h c (by simp [hc])
      simp only [hcons, Finset.sum_add_distrib, sum_price cost (h c (by simp))]
      rw [← List.singleton_append, cycles_append, Nat.mul_add]
      exact Nat.add_le_add hle hrest

/-- The demand of the nodes is no more than the bundles of a complete run offer. -/
theorem Cycles.demand_le (hb : Built pinned is rc dag) {k : Nat} (hcs : Cycles rc dag.nodes (.start dag .init) cs w)
    (hk : dag.nodes.length ≤ k) (hcount : k = w.count dag.nodes.length) (hdebug : cost .debug = 0) :
    (dag.nodes.map fun n => n.instr.op.demand cost).sum ≤ capacity cost * cycles cs := by
  obtain ⟨honce, hnodes⟩ := hcs.realises hb hk hcount
  refine le_trans ?_ (hcs.price_le cost hdebug fun c hc e x hx => hnodes (List.mem_map_of_mem hc) hx)
  rw [← List.ofFn_getElem_eq_map, List.sum_ofFn, Finset.sum_range fun i => price cost (entriesOf (cs.map CycleRecord.bundle) i)]
  exact Finset.sum_le_sum fun i _ => (honce (List.getElem?_eq_getElem i.isLt)).demand_le cost

end work

/-- Every schedule of a program is at least as long as its floors, in cycles that the machine counts: the latencies along any
chain of values, and the demand for slots at any prices, divided by what a bundle offers at these prices. -/
theorem schedule_floors {bs : List TaggedBundle} (ht : Tagged pinned is rc) (hdag : buildDag is pinned = .ok dag)
    (hsched : Scheduled rc dag bs) : (∀ i d, Chain dag.nodes i d → d ≤ (bs.map TaggedBundle.untag).countP Bundle.counts) ∧
      ∀ cost, cost .debug = 0 →
        (is.map fun ins => ins.op.demand cost).sum ≤ capacity cost * (bs.map TaggedBundle.untag).countP Bundle.counts := by
  have hb : Built pinned is rc dag := ⟨ht, .of_ok ht.toSingleWriter hdag⟩
  obtain ⟨w, k, hrun, hk⟩ := hsched.run
  obtain ⟨cs, rfl, hcs, hcount⟩ := hrun.cycles hb
  have hcycles : ((cs.map fun c => emitted c.bundle).map TaggedBundle.untag).countP Bundle.counts = cycles cs := by
    rw [List.map_map]
    rfl
  rw [hcycles]
  refine ⟨fun i d hchain => hcs.chain_le hb hchain ?_, fun cost hdebug => ?_⟩
  · refine committed_of_count (hcount ▸ hk) ?_
    cases hchain with
    | start hn | step _ _ hn => exact (List.getElem?_eq_some_iff.mp hn).1
  · have hdemand := hcs.demand_le cost hb hk hcount hdebug
    have his : is = dag.nodes.map DNode.instr := by
      refine List.ext_getElem? fun i => ?_
      rw [List.getElem?_map]
      cases hn : dag.nodes[i]? with
      | none =>
          rw [List.getElem?_eq_none_iff, hb.graph.length] at hn
          rw [List.getElem?_eq_none hn]
          rfl
      | some n => exact hb.graph.instr hn
    rwa [his, List.map_map]

/-- Two gathers from the same addresses, of which one is stored. -/
def twoGathers : List (Instr Operand) :=
  [⟨0, .const (.sym ⟨"x", false⟩) 3⟩, ⟨1, .vBroadcast (.sym ⟨"addr", true⟩) (.sym ⟨"x", false⟩)⟩,
    ⟨2, .gather (.sym ⟨"v", true⟩) (.sym ⟨"addr", true⟩)⟩, ⟨3, .gather (.sym ⟨"u", true⟩) (.sym ⟨"addr", true⟩)⟩,
    ⟨4, .vStore (.sym ⟨"x", false⟩) (.sym ⟨"v", true⟩)⟩]

/-- The chain to the store takes seven cycles. The seventeen loads, two a cycle, take nine, and a schedule of ten is found. -/
theorem schedule_floors_twoGathers : ∃ is rc dag bs, tagRawChains twoGathers PINNED = .ok (is, rc) ∧ buildDag is PINNED = .ok dag ∧
    Scheduled rc dag bs ∧ bs.length = 10 ∧ 7 ≤ (bs.map TaggedBundle.untag).countP Bundle.counts ∧
    17 ≤ 2 * (bs.map TaggedBundle.untag).countP Bundle.counts := by
  have hrun : (do
      let (is, rc) ← tagRawChains twoGathers PINNED
      let dag ← buildDag is PINNED
      let (bs, _) ← schedule dag rc (fun _ _ _ => 0) (some 10) .init
      .ok ([0, 1, 2, 4].map fun i : Nat => (dag.nodes[i]?.map fun n => n.instr.op.latency, Dag.inEdges dag.nodes i), bs.length,
        (is.map fun ins => ins.op.demand fun e => if e = .load then 1 else 0).sum)) =
        (.ok ([(some 1, []), (some 1, [(0, 1)]), (some 4, [(1, 1)]), (some 1, [(0, 1), (2, 1)])], 10, 17) :
          Except PyErr (List (Option Nat × List (Nat × Nat)) × Nat × Nat)) := by decide +kernel
  obtain ⟨⟨is, rc⟩, htag, hrun⟩ := bind_eq_ok.mp hrun
  obtain ⟨dag, hdag, hrun⟩ := bind_eq_ok.mp hrun
  obtain ⟨⟨bs, w⟩, hg, hrun⟩ := bind_eq_ok.mp hrun
  obtain ⟨hnodes, hlen, hdemand⟩ : _ ∧ _ ∧ _ := by simpa only [Prod.mk.injEq] using Except.ok.inj hrun
  simp only [List.map_cons, List.map_nil, List.cons.injEq, Prod.mk.injEq, Option.map_eq_some_iff, and_true] at hnodes
  obtain ⟨⟨⟨n₀, hn₀, h₀⟩, -⟩, ⟨⟨n₁, hn₁, h₁⟩, he₁⟩, ⟨⟨n₂, hn₂, h₂⟩, he₂⟩, ⟨n₄, hn₄, h₄⟩, he₄⟩ := hnodes
  have hsched : Scheduled rc dag bs := .greedy _ (some 10) w hg
  have hchain : Chain dag.nodes 4 (n₀.instr.op.latency + n₁.instr.op.latency + n₂.instr.op.latency + n₄.instr.op.latency) :=
    .step (.step (.step (.start hn₀) (show (0, 1) ∈ _ by simp [he₁]) hn₁) (show (1, 1) ∈ _ by simp [he₂]) hn₂)
      (show (2, 1) ∈ _ by simp [he₄]) hn₄
  rw [h₀, h₁, h₂, h₄] at hchain
  obtain ⟨hfloor, hprice⟩ := schedule_floors (tagRawChains_tagged pinned_noHash htag) hdag hsched
  have hloads := hprice (fun e => if e = .load then 1 else 0) rfl
  rw [hdemand] at hloads
  exact ⟨is, rc, dag, bs, htag, hdag, hsched, hlen, hfloor _ _ hchain, hloads⟩

end Vliw
