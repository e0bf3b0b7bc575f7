import VliwKernel.Schedule.Account
import VliwKernel.Schedule.Balance

/-!
# Who holds a register

A node that finds no slot gives its fresh register back, except a gather, which keeps it without having landed a lane. In
runs where no gather meets used up load slots only nodes that have landed lanes hold registers.
-/

namespace Vliw
open RegisterAllocator

/-- Every register is held for a node that has landed a lane. -/
def World.Landed (nodes : List DNode) (w : World) : Prop :=
  ∀ t a, w.alloc.tab.val.assigned t = some a →
    ∃ i n d, nodes[i]? = some n ∧ n.instr.op.dest? = some d ∧ d.base = t ∧ 0 < w.place.val.lanesDone i

/-- Node `i` is a gather that would take a register, and all load slots are used up. -/
def World.starved (nodes : List DNode) (w : World) (i : Nat) : Bool :=
  match nodes[i]? with
  | none => false
  | some node =>
      (classify node.instr.op).kind = .gather && w.place.val.lanesDone i = 0 && w.pool.free .load = 0 &&
        (wrTags node.instr).any fun t => (w.alloc.tab.val.assigned t).isNone && w.alloc.canWrite t

/-- No turn of the cycle starves a gather. -/
def CycleRecord.Fed (rc : Sym → Option Int) (nodes : List DNode) (c : CycleRecord) : Prop :=
  ∀ {i u}, MidCycle rc nodes true (c.start, .zero) c.order i u → u.1.starved nodes i = false

/-- A node that lands no lane in the cycle has no register at its end that it did not have at its start. -/
def CycleRecord.Thrifty (nodes : List DNode) (c : CycleRecord) : Prop :=
  ∀ {i n d a}, nodes[i]? = some n → n.instr.op.dest? = some d → c.stop.place.val.lanesDone i = c.start.place.val.lanesDone i →
    c.stop.alloc.tab.val.assigned d.base = some a → c.start.alloc.tab.val.assigned d.base = some a

variable {pinned : List String} {is : List (Instr Operand)} {rc : Sym → Option Int} {dag : Dag} {nodes : List DNode}
  {prev : Nat → Bool} {emit : Bool} {w w' v : World} {i : Nat} {node : DNode} {order : List Nat} {st st' : Stats} {p q : World × Stats}
  {c : CycleRecord} {cs : List CycleRecord}

theorem World.Landed.of_vals (h : w.Landed nodes) (hp : v.place.val = w.place.val)
    (ha : v.alloc.tab.val.assigned = w.alloc.tab.val.assigned) : v.Landed nodes := by
  intro t a ht
  rw [ha] at ht
  rw [hp]
  exact h t a ht

theorem World.landed_start (dag : Dag) (nodes : List DNode) : (World.start dag .init).Landed nodes := by
  intro t a ht
  cases ht

theorem Acquire.gains {a b : RegisterAllocator} {ins : Instr Operand} {fresh : List Sym} (h : Acquire rc ins a (some fresh) b)
    {t : Sym} {addr : Nat} (ht : b.tab.val.assigned t = some addr) :
    a.tab.val.assigned t = some addr ∨ ∃ d, ins.op.dest? = some d ∧ d.base = t ∧ a.tab.val.assigned t = none := by
  cases h with
  | noDest _ => exact .inl ht
  | sticky _ _ => exact .inl ht
  | @fresh d n addr' _ hd hs _ hw =>
      by_cases htd : t = d.base
      · exact .inr ⟨d, hd, htd.symm, htd ▸ hs⟩
      · rw [hw.assigned, Function.update_of_ne htd] at ht
        exact .inl ht

/-- A turn that starves no gather gives registers only to nodes that land a lane. -/
theorem Turn.landed_of (hb : Built pinned is rc dag) (hn : dag.nodes[i]? = some node) (hw : w.Live pinned dag.nodes prev)
    (hf : w.dag.val.frontier i = true) (hw' : w'.Live pinned dag.nodes prev) (hleads : w.Leads dag.nodes w')
    (hfed : w.starved dag.nodes i = false) (h : Turn rc dag.nodes node w st w' st') (hland : w.Landed dag.nodes) : w'.Landed dag.nodes := by
  have hidx := hb.graph.wf.idx hn
  intro t a ht
  have hold : ∀ {a}, w.alloc.tab.val.assigned t = some a →
      ∃ i n d, dag.nodes[i]? = some n ∧ n.instr.op.dest? = some d ∧ d.base = t ∧ 0 < w'.place.val.lanesDone i := by
    intro a hs
    obtain ⟨j, n, d, hj, hd, hdt, hpos⟩ := hland t _ hs
    exact ⟨j, n, d, hj, hd, hdt, Nat.lt_of_lt_of_le hpos (hleads.lanes j)⟩
  cases h with
  | full hacq =>
      cases hacq
      exact hold ht
  | refused _ _ _ _ _ hrest _ =>
      obtain ⟨names, hval⟩ := hrest.tables
      rw [hval] at ht
      exact hold ht
  | held hor hcan hacq =>
      rcases hacq.gains ht with hs | ⟨d, hd, rfl, hnone⟩
      · exact hold hs
      · rcases Nat.eq_zero_or_pos (w.place.val.lanesDone i) with h0 | hpos
        · rw [hidx, h0] at hor
          obtain ⟨hg, hfree⟩ := hor.resolve_right (Nat.lt_irrefl 0)
          simp only [wrTags_eq, hd, Option.map_some, Option.toList_some, List.all_cons, List.all_nil, Bool.and_true] at hcan
          simp [World.starved, hn, hg, h0, hfree, wrTags_eq, hd, hnone, hcan] at hfed
        · exact ⟨i, node, d, hn, hd, rfl, hpos⟩
  | landed _ hpos hacq =>
      rcases hacq.gains ht with hs | ⟨d, hd, rfl, -⟩
      · exact hold hs
      · exact ⟨i, node, d, hn, hd, rfl, hidx ▸ hpos⟩
  | @done fresh b c n place pool _ hacq hread =>
      have hci := (hw.dag.frontier_iff.mp hf).2.1
      have hback : b.tab.val.assigned t = some a := by
        obtain ⟨hinv, -, -, hcnt, -⟩ := hw.acquire hb hn hf hacq
        exact (commitReads_counted hn hci hinv hcnt hread).2.1 ht
      rcases hacq.gains hback with hs | ⟨d, hd, rfl, -⟩
      · exact hold hs
      · refine ⟨i, node, d, hn, hd, rfl, ?_⟩
        have hcommitted : (Dag.commit dag.nodes w.dag node.idx).1.val.committed i = true := by
          rw [hidx, (hw.dag.commit hb.graph.wf hf).1, Function.update_self]
        rw [hw'.lanes_done hn hcommitted]
        exact dest_lanes_pos hd

theorem Turns.landed (hb : Built pinned is rc dag) (h : Turns pinned rc dag.nodes emit prev p order q)
    (hfed : ∀ {i u}, MidCycle rc dag.nodes emit p order i u → u.1.starved dag.nodes i = false) (hland : p.1.Landed dag.nodes) :
    q.1.Landed dag.nodes := by
  induction h with
  | nil => exact hland
  | cons hn hw hf hrun hturn hw' hleads _ ih =>
      apply ih
      · intro i u hm
        exact hfed ((midCycle_cons hrun).mpr (.inr hm))
      · exact hturn.landed_of hb hn hw hf hw' hleads (hfed ((midCycle_cons hrun).mpr (.inl ⟨rfl, rfl⟩))) hland

theorem Cycle.holds_landed (hb : Built pinned is rc dag) (hc : Cycle rc dag.nodes w c w') (hw : w.Live pinned dag.nodes prev)
    (hfed : c.Fed rc dag.nodes) (hland : w.Landed dag.nodes) :
    w'.Landed dag.nodes ∧ c.Thrifty dag.nodes := by
  have hw₀ := hc.entered.live hw
  have hland₀ : c.start.Landed dag.nodes := hland.of_vals hc.entered.place (congrArg Tables.assigned hc.entered.tab)
  obtain ⟨s, hrun⟩ := hc.run
  obtain ⟨st, hfold, -⟩ := runCycle_eq_ok hrun
  have hstop : c.stop.Landed dag.nodes := by
    have hf : ∀ i ∈ c.order, c.start.dag.val.frontier i = true ∧ (fun _ => none : Ledger) i = none :=
      fun i hi => ⟨hc.orders.frontier hi, rfl⟩
    exact (runNodes_turns hb hw₀ hc.orders.nodup hf (hc.pool ▸ .fresh true) hfold).landed hb hfed hland₀
  obtain ⟨hlive, hleads⟩ := hc.steps.live hb hw₀
  constructor
  · obtain ⟨u, hu, -, -, -, hplace, -, -, ha, -⟩ := hlive.toOk.endCycle
    cases hc.ends.symm.trans hu
    exact hstop.of_vals (congrArg Logged.val hplace) ha
  · intro i n d a hn hd hsame ht
    obtain ⟨j, m, e, hj, he, hed, hpos⟩ := hstop _ _ ht
    obtain ⟨hp, -⟩ := hlive.owner ht
    obtain rfl := hb.tagged.unique hp (hb.writesTag hn hd) (hed ▸ hb.writesTag hj he)
    rw [hsame] at hpos
    cases hci : c.start.dag.val.committed i with
    | true => exact hleads.settled hn hd hci ht
    | false =>
        -- nothing has read the tag of a node that was not yet committed
        have hprev : prev i = false := by
          rw [← Bool.not_eq_true]
          intro hpi
          rw [hw₀.dag.prev_committed hpi] at hci
          cases hci
        have haw := hlive.awaited_dest hb (hb.writesTag hn hd) hp hprev
        obtain ⟨a', ha'⟩ := Option.isSome_iff_exists.mp (hw₀.held hn hd hp hpos (hleads.awaited haw))
        rw [hleads.keeps ha' haw] at ht
        exact ha'.trans ht

theorem Cycles.holds_landed (hb : Built pinned is rc dag) (hcs : Cycles rc dag.nodes w cs w') (hw : w.Live pinned dag.nodes w.dag.val.committed)
    (hfed : ∀ c ∈ cs, c.Fed rc dag.nodes) (hland : w.Landed dag.nodes) : w'.Landed dag.nodes ∧ ∀ c ∈ cs, c.Thrifty dag.nodes := by
  induction hcs with
  | nil => exact ⟨hland, by simp⟩
  | cons hc _ ih =>
      obtain ⟨-, -, -, -, hend, -⟩ := hc.live hb hw
      obtain ⟨hland', hthrifty⟩ := hc.holds_landed hb hw (hfed _ (by simp)) hland
      obtain ⟨hlast, hrest⟩ := ih hend (fun c hc => hfed c (by simp [hc])) hland'
      exact ⟨hlast, List.forall_mem_cons.mpr ⟨hthrifty, hrest⟩⟩

/-- In a run whose cycles starve no gather only nodes that have landed a lane hold registers. -/
theorem registers_landed (hb : Built pinned is rc dag) {bs : List TaggedBundle} {k : Nat} (hr : SchedulerRun rc dag bs w k) :
    (∃ cs, bs = cs.map (fun c => emitted c.bundle) ∧ Cycles rc dag.nodes (.start dag .init) cs w) ∧
    ∀ cs, Cycles rc dag.nodes (.start dag .init) cs w → (∀ c ∈ cs, c.Fed rc dag.nodes) →
      w.Landed dag.nodes ∧ ∀ c ∈ cs, c.Thrifty dag.nodes := by
  obtain ⟨cs, hbs, hcs, -⟩ := hr.cycles hb
  exact ⟨⟨cs, hbs, hcs⟩, fun cs hcs hfed => hcs.holds_landed hb hb.start_live.1 hfed (World.landed_start dag dag.nodes)⟩

/-- Five constants, of which one becomes the addresses of a gather. -/
def servedGather : List (Instr Operand) :=
  [⟨0, .const (.sym ⟨"a", false⟩) 0⟩, ⟨1, .vBroadcast (.sym ⟨"v", true⟩) (.sym ⟨"a", false⟩)⟩, ⟨2, .const (.sym ⟨"b", false⟩) 1⟩,
    ⟨3, .const (.sym ⟨"c", false⟩) 2⟩, ⟨4, .const (.sym ⟨"d", false⟩) 3⟩, ⟨5, .const (.sym ⟨"e", false⟩) 4⟩,
    ⟨6, .gather (.sym ⟨"g", true⟩) (.sym ⟨"v", true⟩)⟩]

/-- Constants are refused in the first two cycles. The last one leaves a load slot of the third cycle to the gather. -/
theorem registers_landed_served : ∃ is rc dag bs w k, tagRawChains servedGather PINNED = .ok (is, rc) ∧ buildDag is PINNED = .ok dag ∧
    SchedulerRun rc dag bs w k ∧ bs.length = 3 ∧ w.place.val.lanesDone 6 = 1 ∧ w.Landed dag.nodes := by
  have hrun : (do
      let (is, rc) ← tagRawChains servedGather PINNED
      let dag ← buildDag is PINNED
      let x ← greedyCycle rc dag.nodes listed 0 (World.start dag .init) 0
      let y ← greedyCycle rc dag.nodes listed 1 x.1 x.2.1
      let z ← greedyCycle rc dag.nodes listed 2 y.1 y.2.1
      let u ← runNode rc dag.nodes true ({ y.1 with pool := .fresh }, .zero) 5
      .ok ([dag.nodes.length, x.2.1, y.2.1, u.1.pool.free .load, z.1.place.val.lanesDone 6],
        [(World.start dag .init).dag.val.ready dag.nodes.length, x.1.dag.val.ready dag.nodes.length, y.1.dag.val.ready dag.nodes.length],
        (List.range 6).all fun i => (dag.nodes[i]?.any fun n => n.instr.op.isGather) = false)) =
      (.ok ([7, 2, 5, 1, 1], [[0, 2, 3, 4, 5], [1, 3, 4, 5], [5, 6]], true) : Except PyErr (List Nat × List (List Nat) × Bool)) := by
    decide +kernel
  obtain ⟨⟨is, rc⟩, htag, hrun⟩ := bind_eq_ok.mp hrun
  obtain ⟨dag, hdag, hrun⟩ := bind_eq_ok.mp hrun
  obtain ⟨⟨w₁, k₁, b₁⟩, h₁, hrun⟩ := bind_eq_ok.mp hrun
  obtain ⟨⟨w₂, k₂, b₂⟩, h₂, hrun⟩ := bind_eq_ok.mp hrun
  obtain ⟨⟨w, k, b₃⟩, h₃, hrun⟩ := bind_eq_ok.mp hrun
  obtain ⟨u, hu, hrun⟩ := bind_eq_ok.mp hrun
  have hout := Except.ok.inj hrun
  simp only [Prod.mk.injEq, List.cons.injEq, and_true, List.all_eq_true, decide_eq_true_eq] at hout
  obtain ⟨⟨hlen, hk₁, hk₂, hfree, hlanes⟩, ⟨hr₁, hr₂, hr₃⟩, hnone⟩ := hout
  have ht := tagRawChains_tagged pinned_noHash htag
  have hb : Built PINNED is rc dag := ⟨ht, .of_ok ht.toSingleWriter hdag⟩
  have hreach : SchedulerRun rc dag [b₁, b₂, b₃] w k :=
    .greedy listed (.cycle (.cycle (.cycle .start (by omega) h₁) (by omega) h₂) (by omega) h₃)
  have hw₀ := hb.start_live.1
  obtain ⟨c₁, hc₁, -, -, -, ho₁⟩ := greedyCycle_cycle hb.graph.wf hb.oneWriter hb.graph.rawOnly hw₀.toOk h₁
  obtain ⟨-, -, -, -, hw₁, -⟩ := hc₁.live hb hw₀
  obtain ⟨c₂, hc₂, -, -, -, ho₂⟩ := greedyCycle_cycle hb.graph.wf hb.oneWriter hb.graph.rawOnly hw₁.toOk h₂
  obtain ⟨-, -, -, -, hw₂, -⟩ := hc₂.live hb hw₁
  obtain ⟨c₃, hc₃, -, -, hs₃, ho₃⟩ := greedyCycle_cycle hb.graph.wf hb.oneWriter hb.graph.rawOnly hw₂.toOk h₃
  rw [mergeSort_listed, hr₁] at ho₁
  rw [mergeSort_listed, hr₂] at ho₂
  rw [mergeSort_listed, hr₃] at ho₃
  have hother : ∀ {i}, i ≠ 6 → ∀ v : World, v.starved dag.nodes i = false := by
    intro i hi v
    rcases Nat.lt_or_ge i 6 with hlt | hge
    · have hg := hnone i (List.mem_range.mpr hlt)
      cases hn : dag.nodes[i]? with
      | none => simp [World.starved, hn]
      | some node =>
          rw [hn, Option.any_some] at hg
          simp [World.starved, hn, FuncUnitPool.kind_eq_gather, hg]
    · simp [World.starved, List.getElem?_eq_none (show dag.nodes.length ≤ i by omega)]
  have hunready : ∀ c : CycleRecord, 6 ∉ c.order → c.Fed rc dag.nodes := by
    rintro c hc i v ⟨before, after, ho, -⟩
    exact hother (fun hi => hc (by rw [ho, hi]; simp)) v.1
  have hserved : c₃.Fed rc dag.nodes := by
    rintro i v ⟨before, after, ho, hrun⟩
    by_cases hi : i = 6
    · subst hi
      rw [ho₃] at ho
      have hbefore : before = [5] := by
        rcases before with _ | ⟨j, _ | ⟨l, before⟩⟩ <;> simp_all
      subst hbefore
      rw [List.foldlM_cons, hs₃, hu] at hrun
      cases hrun
      cases hn : dag.nodes[6]? with
      | none => simp [World.starved, hn]
      | some node => simp [World.starved, hn, hfree]
    · exact hother hi v.1
  refine ⟨is, rc, dag, [b₁, b₂, b₃], w, k, htag, hdag, hreach, rfl, hlanes, ?_⟩
  refine ((registers_landed hb hreach).2 [c₁, c₂, c₃] (.cons hc₁ (.cons hc₂ (.cons hc₃ .nil))) ?_).1
  intro c hc
  simp only [List.mem_cons, List.not_mem_nil, or_false] at hc
  rcases hc with rfl | rfl | rfl
  · exact hunready _ (by simp [ho₁])
  · exact hunready _ (by simp [ho₂])
  · exact hserved

/-- Six constants, of which one becomes the addresses of a gather. -/
def lateGather : List (Instr Operand) :=
  [⟨0, .const (.sym ⟨"a", false⟩) 0⟩, ⟨1, .vBroadcast (.sym ⟨"v", true⟩) (.sym ⟨"a", false⟩)⟩, ⟨2, .const (.sym ⟨"b", false⟩) 1⟩,
    ⟨3, .const (.sym ⟨"c", false⟩) 2⟩, ⟨4, .const (.sym ⟨"d", false⟩) 3⟩, ⟨5, .const (.sym ⟨"e", false⟩) 4⟩,
    ⟨6, .const (.sym ⟨"f", false⟩) 5⟩, ⟨7, .gather (.sym ⟨"g", true⟩) (.sym ⟨"v", true⟩)⟩]

/-- The last two constants take both load slots of the third cycle, and the gather keeps a register without a lane. -/
theorem gather_holds_unlanded : ∃ is rc dag bs w k node d a, tagRawChains lateGather PINNED = .ok (is, rc) ∧ buildDag is PINNED = .ok dag ∧
    SchedulerRun rc dag bs w k ∧ dag.nodes[7]? = some node ∧ node.instr.op.dest? = some d ∧ w.alloc.tab.val.assigned d.base = some a ∧
    w.place.val.lanesDone 7 = 0 ∧ ¬ w.Landed dag.nodes := by
  have hrun : (do
      let (is, rc) ← tagRawChains lateGather PINNED
      let dag ← buildDag is PINNED
      let x ← greedyCycle rc dag.nodes (fun _ _ _ => 0) 0 (World.start dag .init) 0
      let y ← greedyCycle rc dag.nodes (fun _ _ _ => 0) 1 x.1 x.2.1
      let z ← greedyCycle rc dag.nodes (fun _ _ _ => 0) 2 y.1 y.2.1
      let node ← getKey (dag.nodes[·]?) 7
      let d ← getKey (fun _ : Unit => node.instr.op.dest?) ()
      let a ← getKey z.1.alloc.tab.val.assigned d.base
      .ok (dag.nodes.length, x.2.1, y.2.1, z.1.place.val.lanesDone 7, a)) =
      (.ok (8, 2, 5, 0, 24) : Except PyErr (Nat × Nat × Nat × Nat × Nat)) := by decide +kernel
  obtain ⟨⟨is, rc⟩, htag, hrun⟩ := bind_eq_ok.mp hrun
  obtain ⟨dag, hdag, hrun⟩ := bind_eq_ok.mp hrun
  obtain ⟨⟨w₁, k₁, b₁⟩, h₁, hrun⟩ := bind_eq_ok.mp hrun
  obtain ⟨⟨w₂, k₂, b₂⟩, h₂, hrun⟩ := bind_eq_ok.mp hrun
  obtain ⟨⟨w, k, b₃⟩, h₃, hrun⟩ := bind_eq_ok.mp hrun
  obtain ⟨node, hn, hrun⟩ := bind_eq_ok.mp hrun
  obtain ⟨d, hd, hrun⟩ := bind_eq_ok.mp hrun
  obtain ⟨a, ha, hrun⟩ := bind_eq_ok.mp hrun
  have hout := Except.ok.inj hrun
  simp only [Prod.mk.injEq] at hout
  obtain ⟨hlen, hk₁, hk₂, h0, -⟩ := hout
  rw [getKey_eq_ok] at hn hd ha
  have ht := tagRawChains_tagged pinned_noHash htag
  have hb : Built PINNED is rc dag := ⟨ht, .of_ok ht.toSingleWriter hdag⟩
  have hreach : SchedulerRun rc dag [b₁, b₂, b₃] w k :=
    .greedy (fun _ _ _ => 0) (.cycle (.cycle (.cycle .start (by omega) h₁) (by omega) h₂) (by omega) h₃)
  refine ⟨is, rc, dag, [b₁, b₂, b₃], w, k, node, d, a, htag, hdag, hreach, hn, hd, ha, h0, ?_⟩
  intro hland
  obtain ⟨j, n, e, hj, he, hed, hpos⟩ := hland _ _ ha
  obtain ⟨hp, -⟩ := (hreach.live hb).owner ha
  obtain rfl := hb.tagged.unique hp (hb.writesTag hn hd) (hed ▸ hb.writesTag hj he)
  omega

end Vliw
