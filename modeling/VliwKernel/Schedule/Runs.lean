import VliwKernel.Schedule.GreedyRollout
import VliwKernel.Schedule.Lifetime

/-!
# Runs of both schedulers

A run of either scheduler, finished or not, is a sequence of cycles: the ready nodes in some order,
each with its step. What holds of such sequences holds of both schedulers.
-/

namespace Vliw
open RegisterAllocator

variable {pinned : List String} {is : List (Instr Operand)} {rc : Sym → Option Int} {dag : Dag} {nodes : List DNode}
  {prev : Nat → Bool} {w v u w' : World}

theorem NodeSteps.live (hb : Built pinned is rc dag) {M M' : Ledger} {order : List Nat}
    (hs : NodeSteps rc dag.nodes w M order w' M') (h : w.Live pinned dag.nodes prev) :
    w'.Live pinned dag.nodes prev ∧ w.Leads dag.nodes w' := by
  induction hs with
  | nil => exact ⟨h, .refl _ _⟩
  | cons hn hf _ hstep _ ih =>
      obtain ⟨h₁, hl⟩ := hstep.live hb h hn hf
      obtain ⟨h₂, hl'⟩ := ih h₁
      exact ⟨h₂, hl.trans hl'⟩

theorem World.Live.endCycle (h : w.Live pinned nodes prev) (he : endCycle nodes.length w = .ok w') :
    w'.Live pinned nodes w'.dag.val.committed ∧ w.Leads nodes w' := by
  obtain ⟨u, hu, hok, -, hc, hp, -, -, ha, hr⟩ := h.toOk.endCycle
  cases he.symm.trans hu
  refine ⟨⟨hok, ?_, ?_, ?_⟩, .of_vals nodes hc (by rw [hp]) ha⟩
  · simpa only [hp, ha] using @h.owner
  · simpa only [hc, ha, hr] using @h.counted
  · simpa only [hc, hp, ha] using @h.held

/-- One cycle of a run: the state it starts from, the order, the state after the last node and what
landed. -/
structure CycleRecord where
  start : World
  order : List Nat
  stop : World
  ledger : Ledger

abbrev CycleRecord.bundle (c : CycleRecord) : Dict Engine (List Entry) := c.stop.pool.bundle

structure Cycle (rc : Sym → Option Int) (nodes : List DNode) (w : World) (c : CycleRecord) (w' : World) : Prop where
  like : w.Like c.start
  pool : c.start.pool = .fresh
  orders : Orders nodes.length c.start c.order
  run : ∃ s, runCycle rc nodes true c.order c.start = .ok (c.stop, s)
  steps : NodeSteps rc nodes c.start (fun _ => none) c.order c.stop c.ledger
  inv : FuncUnitPool.Inv c.ledger c.stop.pool
  ends : endCycle nodes.length c.stop = .ok w'

inductive Cycles (rc : Sym → Option Int) (nodes : List DNode) : World → List CycleRecord → World → Prop
  | nil {w : World} : Cycles rc nodes w [] w
  | cons {w u w' : World} {c : CycleRecord} {cs : List CycleRecord} : Cycle rc nodes w c u → Cycles rc nodes u cs w' → Cycles rc nodes w (c :: cs) w'


namespace Cycle

variable {c : CycleRecord}

theorem live (hc : Cycle rc dag.nodes w c w') (hb : Built pinned is rc dag) (h : w.Live pinned dag.nodes prev) :
    c.start.Live pinned dag.nodes prev ∧ w.Leads dag.nodes c.start ∧ c.stop.Live pinned dag.nodes prev ∧
      c.start.Leads dag.nodes c.stop ∧ w'.Live pinned dag.nodes w'.dag.val.committed ∧ c.stop.Leads dag.nodes w' := by
  have hd : c.start.dag.val = w.dag.val := congrArg Logged.val hc.like.dag
  have hp : c.start.place.val = w.place.val := congrArg Logged.val hc.like.place
  have ha : c.start.alloc.tab.val = w.alloc.tab.val := congrArg Logged.val hc.like.tab
  have hstart := h.of_vals hd hp ha
  obtain ⟨hstop, hl⟩ := hc.steps.live hb hstart
  obtain ⟨hend, hl'⟩ := hstop.endCycle hc.ends
  exact ⟨hstart, .of_vals _ (by rw [hd]) hp (by rw [ha]), hstop, hl, hend, hl'⟩

end Cycle

theorem Cycle.ok {c : CycleRecord} (hc : Cycle rc nodes w c w') (hw : Dag.WellFormed nodes) (h1 : OneWriter nodes rc) (hok : w.Ok nodes prev) :
    w'.Ok nodes w'.dag.val.committed ∧ w'.alloc.tab.val.Tidy := by
  have hstop := hc.steps.ok hw h1 (hok.like hc.like)
  obtain ⟨v, hv, hok', -⟩ := hstop.endCycle
  cases hc.ends.symm.trans hv
  obtain ⟨b, hcol, hend⟩ := bind_eq_ok.mp hc.ends
  cases hend
  exact ⟨hok', (collect_tidy hstop.alloc hcol).1⟩

/-- After its first cycle a run has no claimed granule that is wholly free. -/
theorem Cycles.tidy {cs : List CycleRecord} (hcs : Cycles rc nodes w cs w') (hw : Dag.WellFormed nodes) (h1 : OneWriter nodes rc)
    (hok : w.Ok nodes w.dag.val.committed) : w'.alloc.tab.val.Tidy ∨ w' = w := by
  induction hcs with
  | nil => exact .inr rfl
  | cons hc _ ih =>
      obtain ⟨hok', ht⟩ := hc.ok hw h1 hok
      rcases ih hok' with h | rfl
      · exact .inl h
      · exact .inl ht

namespace Cycles

variable {cs cs' : List CycleRecord} {c : CycleRecord}

theorem append (h : Cycles rc nodes w cs v) (h' : Cycles rc nodes v cs' w') : Cycles rc nodes w (cs ++ cs') w' := by
  induction h with
  | nil => exact h'
  | cons hc _ ih => exact .cons hc (ih h')

theorem split (h : Cycles rc nodes w (cs ++ cs') w') : ∃ v, Cycles rc nodes w cs v ∧ Cycles rc nodes v cs' w' := by
  induction cs generalizing w with
  | nil => exact ⟨w, .nil, h⟩
  | cons c cs ih =>
      cases h with
      | cons hc h =>
          obtain ⟨v, h₁, h₂⟩ := ih h
          exact ⟨v, .cons hc h₁, h₂⟩

theorem live (hcs : Cycles rc dag.nodes w cs w') (hb : Built pinned is rc dag) (h : w.Live pinned dag.nodes w.dag.val.committed) :
    w'.Live pinned dag.nodes w'.dag.val.committed ∧ w.Leads dag.nodes w' := by
  induction hcs with
  | nil => exact ⟨h, .refl _ _⟩
  | cons hc _ ih =>
      obtain ⟨-, hl₁, -, hl₂, hend, hl₃⟩ := hc.live hb h
      obtain ⟨hlast, hl₄⟩ := ih hend
      exact ⟨hlast, ((hl₁.trans hl₂).trans hl₃).trans hl₄⟩

theorem at_index (hcs : Cycles rc dag.nodes w cs w') (hb : Built pinned is rc dag)
    (h : w.Live pinned dag.nodes w.dag.val.committed) {k : Nat} (hk : cs[k]? = some c) :
    ∃ u v, u.Live pinned dag.nodes u.dag.val.committed ∧ w.Leads dag.nodes u ∧ Cycle rc dag.nodes u c v ∧
      Cycles rc dag.nodes w (cs.take k) u ∧ Cycles rc dag.nodes v (cs.drop (k + 1)) w' := by
  obtain ⟨hlt, hget⟩ := List.getElem?_eq_some_iff.mp hk
  have hsplit : cs = cs.take k ++ c :: cs.drop (k + 1) := by
    rw [← hget, List.getElem_cons_drop, List.take_append_drop]
  rw [hsplit] at hcs
  obtain ⟨u, h₁, h₂⟩ := hcs.split
  cases h₂ with
  | @cons _ v _ _ _ hc h₂ =>
      obtain ⟨hu, hl⟩ := h₁.live hb h
      exact ⟨u, v, hu, hl, hc, h₁, h₂⟩

theorem leads (hcs : Cycles rc dag.nodes w cs w') (hb : Built pinned is rc dag)
    (h : w.Live pinned dag.nodes w.dag.val.committed) {k l : Nat} {c c' : CycleRecord} (hk : cs[k]? = some c)
    (hl : cs[l]? = some c') (hkl : k < l) : c.stop.Leads dag.nodes c'.start := by
  obtain ⟨u, v, hu, -, hc, -, hrest⟩ := hcs.at_index hb h hk
  obtain ⟨-, -, -, -, hv, hend⟩ := hc.live hb hu
  have hl' : (cs.drop (k + 1))[l - (k + 1)]? = some c' := by
    rw [List.getElem?_drop, ← hl]
    congr 1
    omega
  obtain ⟨x, y, hx, hvx, hc', -, -⟩ := hrest.at_index hb hv hl'
  obtain ⟨-, hstart, -⟩ := hc'.live hb hx
  exact (hend.trans hvx).trans hstart

end Cycles

theorem Built.start_live (hb : Built pinned is rc dag) :
    (World.start dag .init).Live pinned dag.nodes (World.start dag .init).dag.val.committed ∧
      (World.start dag .init).Closed ∧ (World.start dag .init).count dag.nodes.length = 0 := by
  obtain ⟨hok, hcl⟩ := start_ok hb.graph Tables.Inv.init (a := .init) (fun _ _ _ => rfl) rfl
  refine ⟨⟨hok, ?_, ?_, ?_⟩, hcl, ?_⟩
  · exact fun h => by cases h
  · exact fun h => by cases h
  · exact fun _ _ _ h => absurd h (Nat.lt_irrefl 0)
  · have hst : (World.start dag .init).dag = ⟨.initial dag.nodes, none⟩ := hb.graph.st
    rw [World.count, hst]
    exact List.countP_eq_zero.mpr fun i _ => by simp [DagState.initial]

theorem Cycle.count {c : CycleRecord} (hc : Cycle rc nodes w c w') (hok : w.Ok nodes prev) {m : Nat}
    (hm : m + c.start.count nodes.length = c.stop.count nodes.length) (hw : Dag.WellFormed nodes) (h1 : OneWriter nodes rc) :
    m + w.count nodes.length = w'.count nodes.length := by
  have hok' : c.start.Ok nodes prev := hok.like hc.like
  obtain ⟨u, hu, -, -, hcomm, -⟩ := (hc.steps.ok hw h1 hok').endCycle
  cases hc.ends.symm.trans hu
  rw [World.count, World.count, hcomm, ← hc.like.dag]
  exact hm

theorem greedyCycle_cycle (hw : Dag.WellFormed dag.nodes) (h1 : OneWriter dag.nodes rc) (hraw : RawOnly dag.nodes)
    (hok : w.Ok dag.nodes prev) {key : KeyFunc} {C k k' : Nat} {b : TaggedBundle}
    (h : greedyCycle rc dag.nodes key C w k = .ok (w', k', b)) :
    ∃ c, Cycle rc dag.nodes w c w' ∧ b = emitted c.bundle ∧
      k' + w.count dag.nodes.length = k + w'.count dag.nodes.length ∧ c.start = { w with pool := .fresh } ∧
      c.order = (w.dag.val.ready dag.nodes.length).mergeSort fun i j => key C { w with pool := .fresh } i ≤ key C { w with pool := .fresh } j := by
  have hok₀ : ({ w with pool := .fresh } : World).Ok dag.nodes prev := hok.of_vals rfl rfl rfl
  rw [greedyCycle_eq hw h1 hraw hok key C k rfl] at h
  split at h
  · cases h
  · have horders : Orders dag.nodes.length { w with pool := .fresh } ((w.dag.val.ready dag.nodes.length).mergeSort
        fun i j => key C { w with pool := .fresh } i ≤ key C { w with pool := .fresh } j) :=
      ⟨List.mergeSort_perm _ _⟩
    rcases runCycle_ok hw h1 hok₀ horders true rfl with ⟨v, s, M, hrun, hsteps, hfit, hcount⟩ | ⟨-, herr⟩
    · simp only [hrun, bind_ok, hfit.emits] at h
      split at h
      · cases h
      · obtain ⟨u, hend, h⟩ := bind_eq_ok.mp h
        cases h
        have hc : Cycle rc dag.nodes w ⟨{ w with pool := .fresh }, _, v, M⟩ w' :=
          ⟨⟨rfl, rfl, rfl⟩, rfl, horders, ⟨s, hrun⟩, hsteps, hfit, hend⟩
        refine ⟨_, hc, rfl, ?_, rfl, rfl⟩
        have := hc.count hok hcount hw h1
        omega
    · simp only [herr, bind_error] at h
      cases h

theorem rolloutCycle_cycle (hw : Dag.WellFormed dag.nodes) (h1 : OneWriter dag.nodes rc) (hok : w.Ok dag.nodes prev)
    (hcl : w.Closed) {fs : List SortFunc} (hfs : Permuting fs) {sw : ScoreWeights} {C k k' : Nat} {b : TaggedBundle}
    (h : rolloutCycle rc dag fs sw C w k = .ok (w', k', b)) :
    ∃ c, Cycle rc dag.nodes w c w' ∧ b = emitted c.bundle ∧
      k' + w.count dag.nodes.length = k + w'.count dag.nodes.length ∧ w'.Closed := by
  obtain ⟨v, order, hl, ho, hrep⟩ := rolloutCycle_cases hw h1 hfs hok hcl h
  obtain ⟨u, s, M, hrun, hsteps, hinv, hend, hemit, hk, hcount⟩ := replay_cases hw h1 (hok.like hl) ho hrep
  have hclv := hcl.like hl
  have hokv₀ : ({ v with pool := .fresh } : World).Ok dag.nodes prev := (hok.like hl).of_vals rfl rfl rfl
  have hc : Cycle rc dag.nodes w ⟨{ v with pool := .fresh }, order, u, M⟩ w' :=
    ⟨⟨hl.dag, hl.place, hl.tab⟩, rfl, ⟨ho.perm⟩, ⟨s, hrun⟩, hsteps, hinv, hend⟩
  refine ⟨_, hc, ?_, ?_, ?_⟩
  · rw [hinv.emits] at hemit
    cases hemit
    rfl
  · have := hc.count hok hcount hw h1
    omega
  · exact (cycle_ok hw h1 hokv₀ ⟨hclv.dag, hclv.place, hclv.alloc⟩ hsteps hend).2.1

/-- A run of either scheduler with a fresh allocator, finished or not: what it has emitted, its state
and how many nodes it has committed. -/
inductive SchedulerRun (rc : Sym → Option Int) (dag : Dag) (bs : List TaggedBundle) (w : World) (k : Nat) : Prop
  | greedy (key : KeyFunc) : Reached (greedyCycle rc dag.nodes key) dag.nodes.length (.start dag .init) bs w k →
      SchedulerRun rc dag bs w k
  | rollout (fs : List SortFunc) (sw : ScoreWeights) : Permuting fs → RolloutReached rc dag fs sw .init bs w k →
      SchedulerRun rc dag bs w k

/-- Every run is a sequence of cycles, whose bundles it has emitted. -/
theorem SchedulerRun.cycles (hb : Built pinned is rc dag) {bs : List TaggedBundle} {k : Nat} (h : SchedulerRun rc dag bs w k) :
    ∃ cs, bs = cs.map (fun c => emitted c.bundle) ∧ Cycles rc dag.nodes (.start dag .init) cs w ∧
      k = w.count dag.nodes.length := by
  obtain ⟨hlive, hcl, hzero⟩ := hb.start_live
  cases h with
  | greedy key h =>
      induction h with
      | start => exact ⟨[], rfl, .nil, hzero.symm⟩
      | cycle _ _ hcyc ih =>
          obtain ⟨cs, rfl, hcs, hk⟩ := ih
          obtain ⟨hw, -⟩ := hcs.live hb hlive
          obtain ⟨c, hc, rfl, hcount, -⟩ := greedyCycle_cycle hb.graph.wf hb.oneWriter hb.graph.rawOnly hw.toOk hcyc
          exact ⟨cs ++ [c], by simp, hcs.append (.cons hc .nil), by omega⟩
  | rollout fs sw hfs h =>
      suffices h' : (∃ cs, bs = cs.map (fun c => emitted c.bundle) ∧ Cycles rc dag.nodes (.start dag .init) cs w ∧
          k = w.count dag.nodes.length) ∧ w.Closed from h'.1
      induction h with
      | start => exact ⟨⟨[], rfl, .nil, hzero.symm⟩, hcl⟩
      | cycle _ _ hcyc ih =>
          obtain ⟨⟨cs, rfl, hcs, hk⟩, hclw⟩ := ih
          obtain ⟨hw, -⟩ := hcs.live hb hlive
          obtain ⟨c, hc, rfl, hcount, hclw'⟩ := rolloutCycle_cycle hb.graph.wf hb.oneWriter hw.toOk hclw hfs hcyc
          exact ⟨⟨cs ++ [c], by simp, hcs.append (.cons hc .nil), by omega⟩, hclw'⟩

inductive Scheduled (rc : Sym → Option Int) (dag : Dag) (bs : List TaggedBundle) : Prop
  | greedy (key : KeyFunc) (cap : Option Nat) (w : World) : schedule dag rc key cap .init = .ok (bs, w) →
      Scheduled rc dag bs
  | rollout (fs : List SortFunc) (sw : ScoreWeights) (cap : Option Nat) (w : World) : Permuting fs →
      scheduleRollout dag rc fs sw cap .init = .ok (bs, w) → Scheduled rc dag bs

theorem cycleLoop_reached {cycle : Nat → World → Nat → Except PyErr (World × Nat × TaggedBundle)} {n : Nat} {w₀ : World}
    (cap rem k : Nat) (bundles bs : List TaggedBundle) (hr : Reached cycle n w₀ bundles w k)
    (hlen : bundles.length + rem = cap) (h : cycleLoop cycle n cap rem w k bundles = .ok (bs, w')) :
    ∃ k', Reached cycle n w₀ bs w' k' ∧ n ≤ k' := by
  induction rem generalizing w k bundles with
  | zero =>
      unfold cycleLoop at h
      split at h
      · obtain ⟨⟨v, k', b⟩, -, h⟩ := bind_eq_ok.mp h
        cases h
      · next hk =>
          cases h
          exact ⟨k, hr, by omega⟩
  | succ rem ih =>
      unfold cycleLoop at h
      split at h
      · next hk =>
          obtain ⟨⟨v, k', b⟩, hc, h⟩ := bind_eq_ok.mp h
          rw [show cap - (rem + 1) = bundles.length by omega] at hc
          exact ih k' (bundles ++ [b]) (.cycle hr hk hc) (by simp; omega) h
      · next hk =>
          cases h
          exact ⟨k, hr, by omega⟩

/-- The bundles that a scheduler with a fresh allocator returns, and the state it leaves. -/
inductive Completed (rc : Sym → Option Int) (dag : Dag) (bs : List TaggedBundle) (w : World) : Prop
  | greedy (key : KeyFunc) (cap : Option Nat) : schedule dag rc key cap .init = .ok (bs, w) → Completed rc dag bs w
  | rollout (fs : List SortFunc) (sw : ScoreWeights) (cap : Option Nat) : Permuting fs →
      scheduleRollout dag rc fs sw cap .init = .ok (bs, w) → Completed rc dag bs w

theorem Completed.run {bs : List TaggedBundle} (h : Completed rc dag bs w) :
    ∃ k, SchedulerRun rc dag bs w k ∧ dag.nodes.length ≤ k := by
  cases h with
  | greedy key cap h =>
      obtain ⟨k, hr, hk⟩ := cycleLoop_reached _ _ 0 [] bs .start (by simp) h
      exact ⟨k, .greedy key hr, hk⟩
  | rollout fs sw cap hfs h =>
      obtain ⟨k, hr, hk⟩ := cycleLoop_reached _ _ 0 [] bs .start (by simp) h
      exact ⟨k, .rollout fs sw hfs hr, hk⟩

theorem Scheduled.run {bs : List TaggedBundle} (h : Scheduled rc dag bs) :
    ∃ w k, SchedulerRun rc dag bs w k ∧ dag.nodes.length ≤ k := by
  cases h with
  | greedy key cap w h => exact ⟨w, (Completed.greedy key cap h).run⟩
  | rollout fs sw cap w hfs h => exact ⟨w, (Completed.rollout fs sw cap hfs h).run⟩

theorem committed_of_count {n i : Nat} (h : n ≤ w.count n) (hi : i < n) : w.dag.val.committed i = true := by
  have heq : (List.range n).countP w.dag.val.committed = (List.range n).length := by
    refine Nat.le_antisymm List.countP_le_length ?_
    rw [List.length_range]
    exact h
  exact List.countP_eq_length.mp heq i (List.mem_range.mpr hi)

end Vliw
