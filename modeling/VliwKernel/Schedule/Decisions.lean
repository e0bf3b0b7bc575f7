import VliwKernel.Schedule.Agreement
import VliwKernel.Schedule.Emission
import VliwKernel.Schedule.GreedyRun

/-!
# A trial decides as its replay

From one and the same state the cycle without emission and the cycle with it do the same to the graph, the
registers and the placements, and leave the same slots free.
-/

namespace Vliw
open RegisterAllocator

structure World.Dry (w v : World) : Prop where
  dag : w.dag = v.dag
  alloc : w.alloc = v.alloc
  lanes : w.place.val = v.place.val
  pool : w.pool.Sim v.pool

variable {rc : Sym → Option Int} {nodes : List DNode} {prev : Nat → Bool} {w v u : World} {M : Ledger} {i : Nat} {node : DNode}

abbrev SameOutcome (p q : World × Stats) : Prop := p.1.Dry q.1 ∧ p.2 = q.2

namespace World.Dry

theorem twin (h : w.Dry v) : w.Twin false v :=
  ⟨congrArg (fun a => a.tab.val) h.alloc, h.lanes, fun _ => h.pool, fun h => by cases h⟩

theorem commitNode (h : w.Dry v) (st : Stats) :
    Agree SameOutcome (commitNode nodes node w st) (commitNode nodes node v st) := by
  simp only [Vliw.commitNode, h.alloc, h.dag]
  exact Agree.bind_left _ fun p => ⟨⟨rfl, rfl, h.lanes, h.pool⟩, rfl⟩

theorem runDebug (h : w.Dry v) (hk : (classify node.instr.op).kind = .debug) (st : Stats) :
    Agree SameOutcome (runDebug nodes false node w st) (runDebug nodes true node v st) := by
  simp only [Vliw.runDebug, Bool.false_eq_true, if_false, if_true, FuncUnitPool.place, hk, bind_ok]
  refine World.Dry.commitNode ?_ st
  exact ⟨h.dag, h.alloc, h.lanes, h.pool.free, h.pool.elems⟩

theorem runGather (h : w.Dry v) (st : Stats) :
    Agree SameOutcome (runGather rc nodes false node w st) (runGather rc nodes true node v st) := by
  simp only [Vliw.runGather, h.alloc]
  refine Agree.bind_left _ fun x => ?_
  obtain ⟨got, a, obl⟩ := x
  cases got with
  | none => exact ⟨⟨h.dag, rfl, h.lanes, h.pool⟩, rfl⟩
  | some fresh =>
      cases wrTags node.instr with
      | nil => rfl
      | cons t ts =>
          cases node.instr.readOperands with
          | nil => rfl
          | cons addr as =>
              obtain ⟨res, p, pl, q, ql, hp, hq, hval, hdry, -⟩ := placeGather_twin h.twin node.idx
                (classify node.instr.op).lanesTotal (a.addrOf (.sym t), a.addrOf addr)
              simp only [Bool.false_eq_true, if_false] at hp
              simp only [Bool.false_eq_true, if_false, if_true, hp, hq]
              have h' : World.Dry ⟨w.dag, a, pl, p⟩ ⟨v.dag, a, ql, q⟩ := ⟨h.dag, rfl, hval, hdry rfl⟩
              exact Agree.ite (fun _ => h'.commitNode _) (fun _ => ⟨h', rfl⟩)

theorem runRegular (h : w.Dry v) (hidx : node.idx = i) (hM : M i = none) (hfit : FuncUnitPool.Inv M v.pool)
    (hk : (classify node.instr.op).kind ≠ .debug) (hk' : (classify node.instr.op).kind ≠ .gather)
    (hlt : v.place.val.lanesDone i < (classify node.instr.op).lanesTotal) (st : Stats) :
    Agree SameOutcome (runRegular rc nodes false node w st) (runRegular rc nodes true node v st) := by
  subst hidx
  simp only [Vliw.runRegular, h.alloc]
  refine Agree.bind_left _ fun x => ?_
  obtain ⟨got, a, obl⟩ := x
  cases got with
  | none => exact ⟨⟨h.dag, rfl, h.lanes, h.pool⟩, rfl⟩
  | some fresh =>
      have hcl : classify (resolveOperands node.instr a).op = classify node.instr.op := classify_rebuild _ _ _
      have hplace := h.twin.place (r := resolveOperands node.instr a) hM hfit (by rwa [hcl]) (by rwa [hcl]) (by rwa [hcl])
      rw [hcl] at hplace
      simp only [Bool.false_eq_true, if_false] at hplace
      simp only [Bool.false_eq_true, if_false, if_true]
      refine hplace.bind ?_
      rintro ⟨res, p, pl⟩ ⟨res', q, ql⟩ ⟨hres, hval, hdry, -⟩
      dsimp only at hres hval hdry
      subst hres
      have h' : World.Dry ⟨w.dag, a, pl, p⟩ ⟨v.dag, a, ql, q⟩ := ⟨h.dag, rfl, hval, hdry trivial⟩
      rcases res with _ | _ | _
      · dsimp only
        rw [hval]
        refine Agree.ite (fun _ => ?_) (fun _ => ⟨h', rfl⟩)
        exact Agree.bind_left _ fun y => ⟨⟨h.dag, rfl, hval, hdry trivial⟩, rfl⟩
      · exact ⟨h', rfl⟩
      · exact h'.commitNode _

theorem runNode (rc : Sym → Option Int) (h : w.Dry v) (hn : nodes[i]? = some node) (hidx : node.idx = i) (hok : v.Ok nodes prev)
    (hc : v.dag.val.committed i = false) (hM : M i = none) (hfit : FuncUnitPool.Inv M v.pool) (st : Stats) :
    Agree SameOutcome (runNode rc nodes false (w, st) i) (runNode rc nodes true (v, st) i) := by
  unfold Vliw.runNode
  rw [hn]
  dsimp only
  split
  · next hk => exact h.runDebug hk st
  · exact h.runGather st
  · next hk hk' => exact h.runRegular hidx hM hfit hk hk' (hok.lanes_pending hn hc hk) st

theorem runNodes (hw : Dag.WellFormed nodes) (h1 : OneWriter nodes rc) {order : List Nat} (h : w.Dry v) (hnd : order.Nodup)
    (hok : v.Ok nodes prev) (hf : ∀ i ∈ order, v.dag.val.frontier i = true ∧ M i = none)
    (hfit : FuncUnitPool.Inv M v.pool) (st : Stats) :
    Agree SameOutcome (order.foldlM (Vliw.runNode rc nodes false) (w, st)) (order.foldlM (Vliw.runNode rc nodes true) (v, st)) :=
  runNodes_agree hw h1 (fun h hn hidx hok hc hM hfit => h.runNode rc hn hidx hok hc hM hfit) h hnd hok hf hfit st

end World.Dry
section reached

variable {dag : Dag} {pinned : List String} {is : List (Instr Operand)} {a : RegisterAllocator}

theorem greedyReached_ok (hs : SingleWriter pinned is rc) (hdag : DagOf pinned is dag) {key : KeyFunc} (ha : a.tab.val.Inv)
    (hfree : ∀ i t, WritesTag is i t → a.tab.val.assigned t = none) (hlog : a.tab.log = none) {bs : List TaggedBundle} {k : Nat}
    (h : Reached (greedyCycle rc dag.nodes key) dag.nodes.length (.start dag a) bs w k) :
    w.Ok dag.nodes w.dag.val.committed ∧ w.Closed := by
  have h1 : OneWriter dag.nodes rc := hdag.oneWriter hs
  induction h with
  | start => exact start_ok hdag ha hfree hlog
  | @cycle bs w k w' k' b _ _ hcyc ih =>
      obtain ⟨hok, hcl⟩ := ih
      have hok₀ : ({ w with pool := .fresh } : World).Ok dag.nodes w.dag.val.committed := hok.of_vals rfl rfl rfl
      rw [greedyCycle_eq hdag.wf h1 hdag.rawOnly hok key bs.length k rfl] at hcyc
      split at hcyc
      · cases hcyc
      · have horders : Orders dag.nodes.length { w with pool := .fresh } ((w.dag.val.ready dag.nodes.length).mergeSort
            fun i j => key bs.length { w with pool := .fresh } i ≤ key bs.length { w with pool := .fresh } j) :=
          ⟨List.mergeSort_perm _ _⟩
        rcases runCycle_ok hdag.wf h1 hok₀ horders true rfl with ⟨v, s, M, hrun, hsteps, hfit, -⟩ | ⟨-, herr⟩
        · simp only [hrun, bind_ok, hfit.emits] at hcyc
          split at hcyc
          · cases hcyc
          · obtain ⟨u, hend, hcyc⟩ := bind_eq_ok.mp hcyc
            cases hcyc
            obtain ⟨hok', hcl', -⟩ := cycle_ok hdag.wf h1 hok₀ ⟨hcl.dag, hcl.place, hcl.alloc⟩ hsteps hend
            exact ⟨hok', hcl'⟩
        · simp only [herr, bind_error] at hcyc
          cases hcyc

inductive CycleStart (rc : Sym → Option Int) (dag : Dag) (a : RegisterAllocator) (w : World) : Prop
  | greedy {key : KeyFunc} {bs : List TaggedBundle} {k : Nat} :
      Reached (greedyCycle rc dag.nodes key) dag.nodes.length (.start dag a) bs w k → CycleStart rc dag a w
  | rollout {fs : List SortFunc} {sw : ScoreWeights} {bs : List TaggedBundle} {k : Nat} : Permuting fs →
      RolloutReached rc dag fs sw a bs w k → CycleStart rc dag a w

theorem CycleStart.ok (hs : SingleWriter pinned is rc) (hdag : DagOf pinned is dag) (ha : a.tab.val.Inv)
    (hfree : ∀ i t, WritesTag is i t → a.tab.val.assigned t = none) (hlog : a.tab.log = none) (h : CycleStart rc dag a w) :
    w.Ok dag.nodes w.dag.val.committed ∧ w.Closed := by
  cases h with
  | greedy h => exact greedyReached_ok hs hdag ha hfree hlog h
  | rollout hfs h => exact h.ok hs hdag hfs ha hfree hlog

/-- What a trial and its replay have in common: the statistics, the graph, the registers, the placements and the
free slots. -/
structure SameCycle (p q : World × Stats) : Prop where
  stats : p.2 = q.2
  dag : p.1.dag = q.1.dag
  tab : p.1.alloc = q.1.alloc
  place : p.1.place.val = q.1.place.val
  free : p.1.pool.free = q.1.pool.free

/-- A cycle without emission decides as the one with it. -/
theorem runCycle_agree (hw : Dag.WellFormed nodes) (h1 : OneWriter nodes rc) (hok : u.Ok nodes prev) {order : List Nat}
    (ho : Orders nodes.length u order) (hpool : u.pool = .fresh) :
    Agree SameCycle (runCycle rc nodes false order u) (runCycle rc nodes true order u) := by
  have hdry : u.Dry u := ⟨rfl, rfl, rfl, by rw [hpool]; exact .fresh⟩
  have hagree := hdry.runNodes hw h1 (M := fun _ => none) ho.nodup hok (fun i hi => ⟨ho.frontier hi, rfl⟩)
    (hpool ▸ FuncUnitPool.Inv.fresh) .zero
  refine hagree.bind fun p q hpq => ?_
  obtain ⟨hd, hst⟩ := hpq
  refine ⟨?_, hd.dag, hd.alloc, hd.lanes, hd.pool.free⟩
  rw [hst, hd.alloc]

/-- A state in which the cycle itself starts: its pool is fresh, its journals are recording or not. -/
theorem CycleStart.opened (hs : SingleWriter pinned is rc) (hdag : DagOf pinned is dag) (ha : a.tab.val.Inv)
    (hfree : ∀ i t, WritesTag is i t → a.tab.val.assigned t = none) (hlog : a.tab.log = none) (h : CycleStart rc dag a w)
    {order : List Nat} (ho : order.Perm (w.dag.val.ready dag.nodes.length)) (hu : u = { w with pool := .fresh } ∨ u = w.checkpoint) :
    u.Ok dag.nodes w.dag.val.committed ∧ Orders dag.nodes.length u order ∧ u.pool = .fresh := by
  rcases hu with rfl | rfl
  all_goals exact ⟨(h.ok hs hdag ha hfree hlog).1.of_vals rfl rfl rfl, ⟨ho⟩, rfl⟩

/-- A cycle without emission decides as the one with it, from any state that a cycle of a scheduler starts from,
with its journals recording or not, and for any order of the ready nodes. -/
theorem trial_decides_as_replay (hs : SingleWriter pinned is rc) (hdag : buildDag is pinned = .ok dag) (ha : a.tab.val.Inv)
    (hlog : a.tab.log = none) (hfree : ∀ i t, WritesTag is i t → a.tab.val.assigned t = none) (hw : CycleStart rc dag a w)
    {order : List Nat} (ho : order.Perm (w.dag.val.ready dag.nodes.length))
    (hu : u = { w with pool := .fresh } ∨ u = w.checkpoint) :
    Agree SameCycle (runCycle rc dag.nodes false order u) (runCycle rc dag.nodes true order u) := by
  have hof : DagOf pinned is dag := .of_ok hs hdag
  obtain ⟨hok, hord, hpool⟩ := hw.opened hs hof ha hfree hlog ho hu
  exact runCycle_agree hof.wf (hof.oneWriter hs) hok hord hpool

/-- The two constants of the small program, tried and placed in reversed order. -/
theorem trial_decides_as_replay_small : ∃ is rc dag p q, tagRawChains smallProgram PINNED = .ok (is, rc) ∧
    buildDag is PINNED = .ok dag ∧ runCycle rc dag.nodes false [1, 0] (World.start dag .init) = .ok p ∧
    runCycle rc dag.nodes true [1, 0] (World.start dag .init) = .ok q ∧ SameCycle p q ∧ q.2.committed = 2 := by
  have hrun : (do
      let x ← tagRawChains smallProgram PINNED
      let dag ← buildDag x.1 PINNED
      let q ← runCycle x.2 dag.nodes true [1, 0] (World.start dag .init)
      .ok (q.2.committed, (World.start dag .init).dag.val.ready dag.nodes.length)) =
      (.ok (2, [0, 1]) : Except PyErr (Nat × List Nat)) := by decide +kernel
  obtain ⟨⟨is, rc⟩, htag, hrun⟩ := bind_eq_ok.mp hrun
  obtain ⟨dag, hdag, hrun⟩ := bind_eq_ok.mp hrun
  obtain ⟨q, hq, hrun⟩ := bind_eq_ok.mp hrun
  obtain ⟨hc, hready⟩ := Prod.mk.inj (Except.ok.inj hrun)
  have hs := (tagRawChains_tagged pinned_noHash htag).toSingleWriter
  have hstart : CycleStart rc dag .init (World.start dag .init) :=
    .rollout (fun _ h => by cases h) (.start : RolloutReached rc dag [] {} .init [] _ 0)
  have ho : [1, 0].Perm ((World.start dag .init).dag.val.ready dag.nodes.length) := by
    rw [hready]
    exact List.Perm.swap 0 1 []
  have hagree := trial_decides_as_replay hs hdag Tables.Inv.init rfl (fun _ _ _ => rfl) hstart ho (.inl rfl)
  obtain ⟨p, hp, hsame⟩ := hagree.of_ok hq
  exact ⟨is, rc, dag, p, q, htag, hdag, hp, hq, hsame, hc⟩

end reached
end Vliw
