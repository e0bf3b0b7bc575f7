import VliwKernel.Schedule.Cap
import VliwKernel.Schedule.Conserving

/-!
# Any two schedules compared

A bundle in which an engine is full does a fair share of the program's work, and no schedule is shorter than the longest
path or than the work takes. So the priorities matter by a constant factor at most.
-/

namespace Vliw

variable {pinned : List String} {is is' : List (Instr Operand)} {rc rc' : Sym → Option Int} {dag : Dag} {nodes : List DNode} {w w' : World}
  {c : CycleRecord} {cs : List CycleRecord} {i j : Nat}

section work

variable {cost : Engine → Nat} {share : Nat}

/-- At the rate of eight `alu` slots for one `valu` slot it does not matter where an operation is placed. -/
theorem RealisedOnce.price_eq {ins : Instr Operand} {xs : List (Engine × Entry)} (h : RealisedOnce i ins xs)
    (hrate : cost .valu = VLEN * cost .alu) : price cost xs = ins.op.demand cost := by
  cases h with
  | whole b hg hxs =>
      rw [hxs]
      simp only [price, List.map_cons, List.map_nil, List.sum_cons, List.sum_nil, Nat.add_zero, Op.demand]
      split
      · next hk =>
          rw [FuncUnitPool.kind_eq_gather.mp hk] at hg
          cases hg
      · next hk =>
          have he : ins.engine = .valu := by
            revert hk
            unfold Instr.engine
            cases ins.op <;> simp [classify, Op.engine, Op.isGather]
          rw [he, ← hrate, Nat.min_self]
      · rfl
  | elem b hk hxs =>
      rw [hxs, Op.demand, hk, price, List.map_map, hrate, Nat.min_self]
      simp [Function.comp_def]
  | gather dest addr hg hxs =>
      rw [hxs, Op.demand, FuncUnitPool.kind_eq_gather.mpr hg, price, List.map_map]
      simp [Function.comp_def]

def CycleRecord.worth (cost : Engine → Nat) (c : CycleRecord) : Nat :=
  (Engine.all.map fun e => cost e * (FuncUnitPool.slots c.bundle e).length).sum

theorem CycleRecord.share_le (hshare : ∀ e ∈ poolEngines, share ≤ cost e * SLOT_LIMITS e) (hsat : (emitted c.bundle).saturated = true) :
    share ≤ c.worth cost := by
  obtain ⟨e, he, hfull⟩ := List.any_eq_true.mp hsat
  have hlen : (FuncUnitPool.slots c.bundle e).length = SLOT_LIMITS e := by
    rw [decide_eq_true_eq, slotsOf_emitted, List.length_map] at hfull
    exact hfull
  have hall : e ∈ Engine.all := by
    revert he
    cases e <;> simp [poolEngines, Engine.all]
  refine (hshare e he).trans ?_
  rw [← hlen]
  exact List.single_le_sum (by simp) _ (List.mem_map.mpr ⟨e, hall, rfl⟩)

theorem Cycles.worth_eq (hcs : Cycles rc nodes w cs w') (h : ∀ c ∈ cs, ∀ e, ∀ x ∈ FuncUnitPool.slots c.bundle e, x.node < nodes.length) :
    ∑ i ∈ Finset.range nodes.length, price cost (entriesOf (cs.map CycleRecord.bundle) i) = (cs.map (CycleRecord.worth cost)).sum := by
  induction hcs with
  | nil => simp [entriesOf, price]
  | @cons w u w' c cs hc _ ih =>
      have hcons : ∀ i, price cost (entriesOf ((c :: cs).map CycleRecord.bundle) i) =
          price cost (bundleEntries c.bundle i) + price cost (entriesOf (cs.map CycleRecord.bundle) i) := by
        intro i
        simp [entriesOf, price]
      simp only [hcons, Finset.sum_add_distrib, sum_price cost (h c (by simp)), ih fun c hc => h c (by simp [hc])]
      rfl

theorem Cycles.demand_eq (hb : Built pinned is rc dag) {k : Nat} (hcs : Cycles rc dag.nodes (.start dag .init) cs w)
    (hk : dag.nodes.length ≤ k) (hcount : k = w.count dag.nodes.length) (hrate : cost .valu = VLEN * cost .alu) :
    (dag.nodes.map fun n => n.instr.op.demand cost).sum = (cs.map (CycleRecord.worth cost)).sum := by
  obtain ⟨honce, hnodes⟩ := hcs.realises hb hk hcount
  rw [← hcs.worth_eq fun c hc e x hx => hnodes (List.mem_map_of_mem hc) hx, ← List.ofFn_getElem_eq_map, List.sum_ofFn,
    Finset.sum_range fun i => price cost (entriesOf (cs.map CycleRecord.bundle) i)]
  exact Finset.sum_congr rfl fun i _ => ((honce (List.getElem?_eq_getElem i.isLt)).price_eq hrate).symm

/-- So many bundles can be saturated as the demand of the program has shares. -/
theorem Cycles.saturated_le (hb : Built pinned is rc dag) {k : Nat} (hcs : Cycles rc dag.nodes (.start dag .init) cs w)
    (hk : dag.nodes.length ≤ k) (hcount : k = w.count dag.nodes.length) (hrate : cost .valu = VLEN * cost .alu)
    (hshare : ∀ e ∈ poolEngines, share ≤ cost e * SLOT_LIMITS e) :
    share * (cs.map fun c => emitted c.bundle).countP TaggedBundle.saturated ≤ (dag.nodes.map fun n => n.instr.op.demand cost).sum := by
  rw [hcs.demand_eq hb hk hcount hrate]
  clear hcs hk hcount
  induction cs with
  | nil => simp
  | cons c cs ih =>
      rw [List.map_cons, List.countP_cons, List.map_cons, List.sum_cons, Nat.mul_add, Nat.add_comm]
      refine Nat.add_le_add ?_ ih
      split
      · next hsat =>
          rw [Nat.mul_one]
          exact CycleRecord.share_le hshare hsat
      · exact Nat.zero_le _

end work
section path

theorem Built.latency_pos (hb : Built pinned is rc dag) {wt : Nat} {n : DNode} (he : (i, wt) ∈ Dag.inEdges dag.nodes j)
    (hn : dag.nodes[i]? = some n) : 1 ≤ n.instr.op.latency := by
  obtain ⟨-, -, ins, o, -, -, -, ins', d, hi, hd, -⟩ := hb.graph.edge.mp he
  cases hi.symm.trans (hb.graph.instr hn)
  revert hd
  cases n.instr.op <;> simp [Op.dest?, Op.latency, Op.steps, Op.isGather, classify, Op.engine, VLEN, SLOT_LIMITS]

theorem Built.chain_of_path (hb : Built pinned is rc dag) {d x : Nat} (hp : Path (Dag.Edge dag.nodes) i j d) (hd : 0 < d)
    (hx : Chain dag.nodes i x) (hpos : 1 ≤ x) : ∃ k y, Chain dag.nodes k y ∧ x + d ≤ y + 1 := by
  induction hp generalizing x with
  | nil i => omega
  | @cons i j k wt d he hp ih =>
      have hin := hb.graph.wf.mem_outEdges.mp he
      obtain ⟨rfl, hlt, ins, o, hj, -⟩ := hb.graph.edge.mp hin
      rcases Nat.eq_zero_or_pos d with rfl | hd'
      · exact ⟨i, x, hx, by omega⟩
      · have hjlt : j < dag.nodes.length := by
          rw [hb.graph.length]
          exact (List.getElem?_eq_some_iff.mp hj).1
        have hn := List.getElem?_eq_getElem hjlt
        -- a path that goes on from `j` leaves it by an edge
        have hlat : 1 ≤ dag.nodes[j].instr.op.latency := by
          cases hp with
          | nil => omega
          | cons he' _ => exact hb.latency_pos (hb.graph.wf.mem_outEdges.mp he') hn
        obtain ⟨k', y, hy, hle⟩ := ih hd' (.step hx hin hn) (by omega)
        exact ⟨k', y, hy, by omega⟩

theorem Cycles.longestPath_le (hb : Built pinned is rc dag) {k : Nat} (hcs : Cycles rc dag.nodes (.start dag .init) cs w)
    (hk : dag.nodes.length ≤ k) (hcount : k = w.count dag.nodes.length) : longestPath dag.nodes ≤ cycles cs + 1 := by
  refine Finset.sup_le fun i hi => Nat.add_le_add_right ?_ 1
  obtain ⟨j, hp⟩ := (hb.graph.wf.distToSink_spec i).1
  have hn := List.getElem?_eq_getElem (Finset.mem_range.mp hi)
  obtain ⟨d, hd⟩ : ∃ d, d = (Dag.dists dag.nodes).1 i := ⟨_, rfl⟩
  rw [← hd] at hp ⊢
  cases hp with
  | nil => exact Nat.zero_le _
  | @cons i k j wt d he hp =>
      have hin := hb.graph.wf.mem_outEdges.mp he
      have hlat := hb.latency_pos hin hn
      obtain ⟨rfl, -⟩ := hb.graph.edge.mp hin
      obtain ⟨k', y, hy, hle⟩ := hb.chain_of_path (.cons he hp) (by omega) (.start hn) hlat
      have hchain := hcs.chain_le hb hy (committed_of_count (hcount ▸ hk) (by
        cases hy with
        | start hn | step _ _ hn => exact (List.getElem?_eq_some_iff.mp hn).1))
      omega

end path

/-- Prices at which every full engine is worth the same, `alu` and `valu` by the lanes they can do. -/
def evenPrice : Engine → Nat
  | .alu => 1
  | .valu => VLEN
  | .load | .store => 6
  | .flow => 12
  | .debug => 0

/-- However the priorities are chosen, a schedule that was never short of registers has at most nine times as many bundles, and one
more, as any schedule of the program takes cycles. -/
theorem schedules_within {bs bs' : List TaggedBundle} (ht : Tagged pinned is rc) (hwl : Workload pinned is rc is' rc' dag)
    (hc : Completed rc' dag bs w) (hwarn : w.alloc.exhaustionWarnings = 0) (hs : Scheduled rc' dag bs') :
    bs.length ≤ 9 * (bs'.map TaggedBundle.untag).countP Bundle.counts + 1 := by
  obtain ⟨hb, -⟩ := hwl.built ht
  obtain ⟨k, hrun, hk⟩ := hc.run
  obtain ⟨w', k', hrun', hk'⟩ := hs.run
  have hpath := hrun.pathLeft_le hb hwarn
  obtain ⟨cs, rfl, hcs, hcount⟩ := hrun.cycles hb
  obtain ⟨cs', rfl, hcs', hcount'⟩ := hrun'.cycles hb
  have hcycles : ((cs'.map fun c => emitted c.bundle).map TaggedBundle.untag).countP Bundle.counts = cycles cs' := by
    rw [List.map_map]
    rfl
  -- a full engine is worth 12, and all engines together 96
  have hfull : 12 * (cs.map fun c => emitted c.bundle).countP TaggedBundle.saturated ≤
      (dag.nodes.map fun n => n.instr.op.demand evenPrice).sum := hcs.saturated_le hb hk hcount rfl (by decide)
  have hwork : (dag.nodes.map fun n => n.instr.op.demand evenPrice).sum ≤ 96 * cycles cs' := hcs'.demand_le evenPrice hb hk' hcount' rfl
  have hlong := hcs'.longestPath_le hb hk' hcount'
  rw [hcycles]
  omega

/-- A constant, its broadcast and the store of that. -/
def broadcastStore : List (Instr Operand) :=
  [⟨0, .const (.sym ⟨"x", false⟩) 3⟩, ⟨1, .vBroadcast (.sym ⟨"v", true⟩) (.sym ⟨"x", false⟩)⟩,
    ⟨2, .vStore (.sym ⟨"x", false⟩) (.sym ⟨"v", true⟩)⟩]

/-- The store of a broadcast, with both schedulers. -/
theorem schedules_within_broadcastStore : ∃ is rc dag bs w bs' w', tagRawChains broadcastStore PINNED = .ok (is, rc) ∧
    buildDag is PINNED = .ok dag ∧ schedule dag rc listed (some 3) .init = .ok (bs, w) ∧
    scheduleRollout dag rc [fun _ _ _ l => l] {} (some 3) .init = .ok (bs', w') ∧
    bs.length ≤ 9 * (bs'.map TaggedBundle.untag).countP Bundle.counts + 1 := by
  have hrun : (do
      let x ← tagRawChains broadcastStore PINNED
      let dag ← buildDag x.1 PINNED
      let p ← schedule dag x.2 listed (some 3) .init
      let q ← scheduleRollout dag x.2 [fun _ _ _ l => l] {} (some 3) .init
      .ok (p.2.alloc.exhaustionWarnings, q.1.length)) = (.ok (0, 3) : Except PyErr (Nat × Nat)) := by decide +kernel
  obtain ⟨⟨is, rc⟩, htag, hrun⟩ := bind_eq_ok.mp hrun
  obtain ⟨dag, hdag, hrun⟩ := bind_eq_ok.mp hrun
  obtain ⟨⟨bs, w⟩, hp, hrun⟩ := bind_eq_ok.mp hrun
  obtain ⟨⟨bs', w'⟩, hq, hrun⟩ := bind_eq_ok.mp hrun
  obtain ⟨hwarn, -⟩ := Prod.mk.inj (Except.ok.inj hrun)
  exact ⟨is, rc, dag, bs, w, bs', w', htag, hdag, hp, hq, schedules_within (tagRawChains_tagged pinned_noHash htag) (.whole hdag)
    (.greedy listed _ hp) hwarn (.rollout _ {} _ w' permuting_id hq)⟩

end Vliw
