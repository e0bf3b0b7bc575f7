import Mathlib.Order.Lattice.Nat
import VliwKernel.Schedule.Bounds
import VliwKernel.Schedule.Turns
import VliwKernel.Scheduler.Props

/-!
# No slot is left idle

A cycle leaves a ready node unfinished only for want of a register or of a slot of its engine. So a schedule that was
never short of registers is at most as long as the longest path of the graph and the cycles in which an engine was full.
-/

namespace Vliw
open RegisterAllocator

variable {pinned : List String} {is : List (Instr Operand)} {rc : Sym → Option Int} {dag : Dag} {nodes : List DNode} {prev : Nat → Bool}
  {emit : Bool} {i : Nat} {node : DNode} {w w' : World} {st st' : Stats}

/-- The engine of which no slot is left when a node of this class stays unfinished. -/
def Class.scarce (c : Class) : Engine := if c.kind = .vecElem then .alu else c.nativeEngine

namespace FuncUnitPool

variable {p p' : FuncUnitPool} {pl pl' : Placement.Log} {c : Class} {instr : Option (Instr Reg)} {res : Option Bool}

theorem take_le (p : FuncUnitPool) (e e' : Engine) (n : Nat) : (p.take e n).free e' ≤ p.free e' := by
  by_cases h : e' = e
  · subst h
    simp [take]
  · simp [take, h]

theorem spillAlu_free {total : Nat} (hlt : pl.val.lanesDone i < total) (h : p.spillAlu pl i total instr = .ok (res, p', pl')) :
    (∀ e, p'.free e ≤ p.free e) ∧ (res ≠ some true → p'.free .alu = 0) := by
  unfold spillAlu at h
  dsimp only at h
  split at h
  · cases h
    exact ⟨fun _ => Nat.le_refl _, fun _ => by omega⟩
  · have hfree : p'.free = (p.take .alu (min (total - pl.val.lanesDone i) (p.free .alu))).free ∧
        res = some (decide (pl.val.lanesDone i + min (total - pl.val.lanesDone i) (p.free .alu) = total)) := by
      cases instr with
      | none =>
          cases h
          exact ⟨rfl, rfl⟩
      | some r =>
          obtain ⟨es, -, h⟩ := bind_eq_ok.mp h
          cases h
          exact ⟨rfl, rfl⟩
    obtain ⟨hfree, rfl⟩ := hfree
    refine ⟨fun e => hfree ▸ take_le p .alu e _, fun hres => ?_⟩
    have hnot : pl.val.lanesDone i + min (total - pl.val.lanesDone i) (p.free .alu) ≠ total := by simpa using hres
    simp only [hfree, take, Function.update_self]
    omega

theorem swapElemToAlu_free {swapped : Bool} (h : p.swapElemToAlu pl = .ok (swapped, p', pl')) :
    (swapped = false → p' = p) ∧ (swapped = true → p'.free .valu = p.free .valu + 1 ∧ ∀ e, e ≠ .valu → p'.free e ≤ p.free e) := by
  unfold swapElemToAlu at h
  split at h
  · cases h
    exact ⟨fun _ => rfl, (fun h => by cases h)⟩
  · next v rest _ =>
      split at h
      · cases h
        exact ⟨fun _ => rfl, (fun h => by cases h)⟩
      · have hfree : swapped = true ∧ p'.free = Function.update (Function.update p.free .valu (p.free .valu + 1)) .alu (p.free .alu - VLEN) := by
          split at h
          · cases h
            exact ⟨rfl, rfl⟩
          · split at h
            · cases h
            · split at h
              · obtain ⟨es, -, h⟩ := bind_eq_ok.mp h
                cases h
                exact ⟨rfl, rfl⟩
              · cases h
        obtain ⟨rfl, hfree⟩ := hfree
        refine ⟨(fun h => by cases h), fun _ => ⟨by simp [hfree], fun e he => ?_⟩⟩
        rw [hfree]
        by_cases ha : e = .alu
        · simp [ha]
        · simp [ha, he]

theorem putWhole_free (p : FuncUnitPool) (pl : Placement.Log) (i : Nat) (c : Class) (e : Engine) (instr : Option (Instr Reg)) :
    (p.putWhole pl i c e instr).1.free = (p.take e 1).free := rfl

/-- A placement frees no slot, and what it leaves unfinished has found its engine full. -/
theorem place_free (hk : c.kind ≠ .debug) (hlt : pl.val.lanesDone i < c.lanesTotal) (h : p.place pl i c instr = .ok (res, p', pl')) :
    (∀ e, p'.free e ≤ p.free e) ∧ (res ≠ some true → p'.free c.scarce = 0) := by
  unfold place at h
  split at h
  · next hd => exact absurd hd hk
  · next hv =>
      rw [Class.scarce, if_pos hv]
      split at h
      · exact spillAlu_free hlt h
      · split at h
        · cases h
          exact ⟨fun e => take_le p .valu e 1, fun h => absurd rfl h⟩
        · exact spillAlu_free hlt h
  · next hd hv =>
      rw [Class.scarce, if_neg hv]
      dsimp only at h
      split at h
      · next hfree =>
          split at h
          · next he =>
              obtain ⟨⟨swapped, q, ql⟩, hs, h⟩ := bind_eq_ok.mp h
              obtain ⟨hno, hyes⟩ := swapElemToAlu_free hs
              cases swapped with
              | false =>
                  cases h
                  rw [hno rfl]
                  exact ⟨fun _ => Nat.le_refl _, fun _ => hfree⟩
              | true =>
                  cases h
                  obtain ⟨hvalu, hrest⟩ := hyes rfl
                  refine ⟨fun e => ?_, fun h => absurd rfl h⟩
                  simp only [putWhole_free, he, take]
                  by_cases hev : e = .valu
                  · subst hev
                    rw [Function.update_self, hvalu, Nat.add_sub_cancel]
                  · rw [Function.update_of_ne hev]
                    exact hrest e hev
          · cases h
            exact ⟨fun _ => Nat.le_refl _, fun _ => hfree⟩
      · cases h
        exact ⟨fun e => take_le p c.nativeEngine e 1, fun h => absurd rfl h⟩

theorem placeGather_free {total : Nat} (hlt : pl.val.lanesDone i < total) {addrs : Option (Nat × Nat)}
    (h : placeGather p pl i total addrs = (res, p', pl')) : (∀ e, p'.free e ≤ p.free e) ∧ (res ≠ some true → p'.free .load = 0) := by
  unfold placeGather at h
  dsimp only at h
  split at h
  · cases h
    exact ⟨fun _ => Nat.le_refl _, fun _ => by omega⟩
  · cases h
    refine ⟨fun e => take_le p .load e _, fun hres => ?_⟩
    have hnot : pl.val.lanesDone i + min (total - pl.val.lanesDone i) (p.free .load) ≠ total := by simpa using hres
    simp only [take, Function.update_self]
    omega

end FuncUnitPool

section turn

theorem read_warnings {a b : RegisterAllocator} {t : Sym} (h : a.read t = .ok b) : b.exhaustionWarnings = a.exhaustionWarnings := by
  obtain ⟨n, -, h⟩ := bind_eq_ok.mp h
  dsimp only at h
  split at h
  · obtain ⟨x, -, h⟩ := bind_eq_ok.mp h
    split at h
    · cases h
      rfl
    · obtain ⟨g, -, h⟩ := bind_eq_ok.mp h
      obtain ⟨t, -, h⟩ := bind_eq_ok.mp h
      cases h
      rfl
  · cases h
    rfl

theorem commitReads_warnings {a b : RegisterAllocator} {ins : Instr Operand} {n : Nat} (h : commitReads ins a = .ok (b, n)) :
    b.exhaustionWarnings = a.exhaustionWarnings := by
  refine foldlM_inv (I := fun p : RegisterAllocator × Nat => p.1.exhaustionWarnings = a.exhaustionWarnings) ?_ h rfl
  rintro o - ⟨c, k⟩ q hq hc
  unfold commitRead at hq
  split at hq
  · obtain ⟨d, hd, hq⟩ := bind_eq_ok.mp hq
    cases hq
    exact (read_warnings hd).trans hc
  · cases hq
    exact hc

theorem Acquire.warnings {a b : RegisterAllocator} {ins : Instr Operand} {got : Option (List Sym)} (h : Acquire rc ins a got b) :
    b.exhaustionWarnings = a.exhaustionWarnings + if got = none then 1 else 0 := by
  cases h with
  | full _ _ => rfl
  | noDest _ | sticky _ _ => rfl
  | fresh _ _ _ hw => exact hw.warnings

theorem Turn.warnings (h : Turn rc nodes node w st w' st') : w.alloc.exhaustionWarnings ≤ w'.alloc.exhaustionWarnings := by
  cases h with
  | full hacq => exact hacq.warnings ▸ Nat.le_add_right _ _
  | refused _ _ _ _ _ hrest _ => exact hrest.warnings.ge
  | held _ _ hacq | landed _ _ hacq => exact hacq.warnings ▸ Nat.le_add_right _ _
  | done _ hacq hread => exact (commitReads_warnings hread).trans hacq.warnings ▸ Nat.le_add_right _ _

/-- What the turn of a node may leave behind it: the node is committed, or found no register, or no slot of its engine is left. -/
def Attempted (nodes : List DNode) (a : RegisterAllocator) (w' : World) (i : Nat) : Prop :=
  w'.dag.val.committed i = true ∨ a.exhaustionWarnings < w'.alloc.exhaustionWarnings ∨
    ∃ node, nodes[i]? = some node ∧ (classify node.instr.op).kind ≠ .debug ∧ w'.pool.free (classify node.instr.op).scarce = 0

theorem commitNode_slots {a : RegisterAllocator} {pl : Placement.Log} {p : FuncUnitPool} (hw : Dag.WellFormed nodes) (hd : Dag.Inv nodes prev w.dag.val)
    (hf : w.dag.val.frontier node.idx = true) (h : commitNode nodes node ⟨w.dag, a, pl, p⟩ st = .ok (w', st')) :
    w'.pool = p ∧ w'.dag.val.committed node.idx = true := by
  obtain ⟨c, n, -, rfl, -⟩ := commitNode_eq_ok h
  refine ⟨rfl, ?_⟩
  rw [(hd.commit hw hf).1, Function.update_self]

theorem runNode_slots (hw : Dag.WellFormed nodes) (hok : w.Ok nodes prev) (hn : nodes[i]? = some node) (hf : w.dag.val.frontier i = true)
    (h : runNode rc nodes emit (w, st) i = .ok (w', st')) : (∀ e, w'.pool.free e ≤ w.pool.free e) ∧ Attempted nodes w.alloc w' i := by
  obtain rfl := hw.idx hn
  have hc := (hok.dag.frontier_iff.mp hf).2.1
  unfold runNode at h
  rw [hn] at h
  dsimp only at h
  split at h
  · next hk =>
      unfold runDebug at h
      split at h
      · simp only [FuncUnitPool.place, hk, bind_ok] at h
        obtain ⟨hp, hcom⟩ := commitNode_slots hw hok.dag hf h
        exact ⟨fun e => by rw [hp], .inl hcom⟩
      · obtain ⟨hp, hcom⟩ := commitNode_slots hw hok.dag hf h
        exact ⟨fun e => by rw [hp], .inl hcom⟩
  · next hk =>
      have hlt := hok.lanes_pending hn hc (by simp [hk])
      have hscarce : (classify node.instr.op).scarce = .load := by
        revert hk
        cases node.instr.op <;> simp [Class.scarce, classify, Op.engine, Op.isGather]
      obtain ⟨⟨got, b, obl⟩, haw, h⟩ := bind_eq_ok.mp h
      have hwarn := (allocWrites_eq_ok hok.alloc haw).1.warnings
      dsimp only at h
      split at h
      · cases h
        exact ⟨fun _ => Nat.le_refl _, .inr (.inl (by rw [hwarn]; exact Nat.lt_succ_self _))⟩
      · generalize hp : placeGather w.pool w.place node.idx (classify node.instr.op).lanesTotal _ = x at h
        obtain ⟨res, pool, place⟩ := x
        obtain ⟨hle, hfull⟩ := FuncUnitPool.placeGather_free hlt hp
        dsimp only at h
        split at h
        · obtain ⟨hpool, hcom⟩ := commitNode_slots hw hok.dag hf h
          exact ⟨fun e => hpool ▸ hle e, .inl hcom⟩
        · next hne =>
            cases h
            exact ⟨hle, .inr (.inr ⟨node, hn, by simp [hk], hscarce ▸ hfull hne⟩)⟩
      · cases h
  · next hk hk' =>
      have hlt := hok.lanes_pending hn hc hk
      obtain ⟨⟨got, b, obl⟩, haw, h⟩ := bind_eq_ok.mp h
      have hwarn := (allocWrites_eq_ok hok.alloc haw).1.warnings
      cases got with
      | none =>
          cases h
          exact ⟨fun _ => Nat.le_refl _, .inr (.inl (by rw [hwarn]; exact Nat.lt_succ_self _))⟩
      | some fresh =>
          obtain ⟨⟨res, pool, place⟩, hp, h⟩ := bind_eq_ok.mp h
          obtain ⟨hle, hfull⟩ := FuncUnitPool.place_free hk hlt hp
          rcases res with _ | _ | _
          · dsimp only at h
            split at h
            · obtain ⟨⟨c, obl'⟩, -, h⟩ := bind_eq_ok.mp h
              cases h
              exact ⟨hle, .inr (.inr ⟨node, hn, hk, hfull (by simp)⟩)⟩
            · cases h
              exact ⟨hle, .inr (.inr ⟨node, hn, hk, hfull (by simp)⟩)⟩
          · cases h
            exact ⟨hle, .inr (.inr ⟨node, hn, hk, hfull (by simp)⟩)⟩
          · obtain ⟨hpool, hcom⟩ := commitNode_slots hw hok.dag hf h
            exact ⟨fun e => hpool ▸ hle e, .inl hcom⟩

theorem Attempted.mono {a b : RegisterAllocator} {v : World} (h : Attempted nodes a w i) (hb : b.exhaustionWarnings ≤ a.exhaustionWarnings)
    (hl : w.Leads nodes v) (hwarn : w.alloc.exhaustionWarnings ≤ v.alloc.exhaustionWarnings) (hfree : ∀ e, v.pool.free e ≤ w.pool.free e) :
    Attempted nodes b v i := by
  rcases h with hc | hlt | ⟨node, hn, hk, h0⟩
  · exact .inl (hl.committed hc)
  · exact .inr (.inl (hb.trans_lt (hlt.trans_le hwarn)))
  · exact .inr (.inr ⟨node, hn, hk, Nat.le_zero.mp (h0 ▸ hfree _)⟩)

/-- Through a cycle the warnings grow and the free slots get fewer, and every node of the order has been attempted. -/
theorem Turns.settle {p r : World × Stats} {order : List Nat} (hw : Dag.WellFormed nodes) (h : Turns pinned rc nodes emit prev p order r) :
    p.1.Leads nodes r.1 ∧ p.1.alloc.exhaustionWarnings ≤ r.1.alloc.exhaustionWarnings ∧ (∀ e, r.1.pool.free e ≤ p.1.pool.free e) ∧
      ∀ i ∈ order, Attempted nodes p.1.alloc r.1 i := by
  induction h with
  | nil => exact ⟨.refl _ _, Nat.le_refl _, fun _ => Nat.le_refl _, fun _ h => by cases h⟩
  | cons hn hlive hf hrun hturn _ hleads _ ih =>
      obtain ⟨hl, hwarn, hfree, hrest⟩ := ih
      obtain ⟨hfree₁, hset⟩ := runNode_slots hw hlive.toOk hn hf hrun
      refine ⟨hleads.trans hl, hturn.warnings.trans hwarn, fun e => (hfree e).trans (hfree₁ e), fun j hj => ?_⟩
      rcases List.mem_cons.mp hj with rfl | hj
      · exact hset.mono (Nat.le_refl _) hl hwarn hfree
      · exact (hrest j hj).mono hturn.warnings (.refl _ _) (Nat.le_refl _) fun _ => Nat.le_refl _

end turn

section cycle

variable {u u' : World} {s : Stats} {order : List Nat} {c : CycleRecord}

theorem runCycle_settle (hb : Built pinned is rc dag) (h : u.Live pinned dag.nodes prev) (hpool : u.pool = .fresh)
    (ho : Orders dag.nodes.length u order) (hrun : runCycle rc dag.nodes emit order u = .ok (u', s)) :
    u.alloc.exhaustionWarnings ≤ u'.alloc.exhaustionWarnings ∧ ∀ i ∈ order, Attempted dag.nodes u.alloc u' i := by
  obtain ⟨st, hloop, -⟩ := runCycle_eq_ok hrun
  have hturns := runNodes_turns hb (p := (u, .zero)) (M := fun _ => none) h ho.nodup (fun i hi => ⟨ho.frontier hi, rfl⟩)
    (hpool ▸ FuncUnitPool.Fit.fresh emit) hloop
  obtain ⟨-, hwarn, -, hset⟩ := hturns.settle hb.graph.wf
  exact ⟨hwarn, hset⟩

theorem trial_warnings (hb : Built pinned is rc dag) {sw : ScoreWeights} {sc : WithBot ℚ} (h : u.Live pinned dag.nodes prev)
    (ho : Orders dag.nodes.length u order) (ht : trial rc dag sw order u = .ok (u', sc)) :
    u.alloc.exhaustionWarnings ≤ u'.alloc.exhaustionWarnings := by
  obtain ⟨⟨t, s⟩, hsim, ht⟩ := bind_eq_ok.mp ht
  obtain ⟨v, hroll, ht⟩ := bind_eq_ok.mp ht
  obtain ⟨⟨t₀, s₀⟩, hrun, hsim⟩ := bind_eq_ok.mp hsim
  obtain ⟨pl, -, hroll⟩ := bind_eq_ok.mp hroll
  obtain ⟨a, ha, hroll⟩ := bind_eq_ok.mp hroll
  obtain ⟨d, -, hroll⟩ := bind_eq_ok.mp hroll
  obtain ⟨tab, -, ha⟩ := bind_eq_ok.mp ha
  cases ht
  cases hroll
  cases ha
  cases hsim
  exact (runCycle_settle (u := u.checkpoint) hb (h.of_vals rfl rfl rfl) rfl ⟨ho.perm⟩ hrun).1

theorem bestOrder_warnings (hb : Built pinned is rc dag) {sw : ScoreWeights} {os : List (List Nat)} {sc : WithBot ℚ} {best best' : Option (List Nat)}
    (h : u.Live pinned dag.nodes prev) (hcl : u.Closed) (ho : ∀ o ∈ os, Orders dag.nodes.length u o)
    (hbest : bestOrder rc dag sw os u sc best = .ok (u', best')) : u.alloc.exhaustionWarnings ≤ u'.alloc.exhaustionWarnings := by
  induction os generalizing u sc best with
  | nil =>
      cases hbest
      exact Nat.le_refl _
  | cons o os ih =>
      obtain ⟨⟨v, sc'⟩, ht, hbest⟩ := bind_eq_ok.mp hbest
      have hl := trial_like hb.graph.wf hb.oneWriter h.toOk hcl (ho o (by simp)) ht
      have hv : v.Live pinned dag.nodes prev := h.of_vals (congrArg Logged.val hl.dag) (congrArg Logged.val hl.place) (congrArg Logged.val hl.tab)
      have ho' : ∀ o ∈ os, Orders dag.nodes.length v o := fun o' hm => ⟨hl.dag ▸ (ho o' (by simp [hm])).perm⟩
      refine (trial_warnings hb h (ho o (by simp)) ht).trans ?_
      dsimp only at hbest
      split at hbest
      · exact ih hv (hcl.like hl) ho' hbest
      · exact ih hv (hcl.like hl) ho' hbest

theorem endCycle_warnings {n : Nat} (h : endCycle n u = .ok u') : u'.alloc.exhaustionWarnings = u.alloc.exhaustionWarnings := by
  obtain ⟨b, hcol, h⟩ := bind_eq_ok.mp h
  obtain ⟨t, -, hcol⟩ := bind_eq_ok.mp hcol
  cases hcol
  cases h
  rfl

theorem greedyCycle_warnings (hb : Built pinned is rc dag) {key : KeyFunc} {C k k' : Nat} {b : TaggedBundle} (h : w.Live pinned dag.nodes prev)
    (hcyc : greedyCycle rc dag.nodes key C w k = .ok (w', k', b)) : w.alloc.exhaustionWarnings ≤ w'.alloc.exhaustionWarnings := by
  rw [greedyCycle_eq hb.graph.wf hb.oneWriter hb.graph.rawOnly h.toOk key C k rfl] at hcyc
  split at hcyc
  · cases hcyc
  · obtain ⟨⟨v, s⟩, hrun, hcyc⟩ := bind_eq_ok.mp hcyc
    obtain ⟨b', -, hcyc⟩ := bind_eq_ok.mp hcyc
    split at hcyc
    · cases hcyc
    · obtain ⟨v', hend, hcyc⟩ := bind_eq_ok.mp hcyc
      cases hcyc
      rw [endCycle_warnings hend]
      exact (runCycle_settle (u := { w with pool := .fresh }) hb (h.of_vals rfl rfl rfl) rfl ⟨List.mergeSort_perm _ _⟩ hrun).1

theorem replay_warnings (hb : Built pinned is rc dag) {k k' : Nat} {b : TaggedBundle} (h : w.Live pinned dag.nodes prev)
    (ho : Orders dag.nodes.length w order) (hrep : replay rc dag order w k = .ok (w', k', b)) :
    w.alloc.exhaustionWarnings ≤ w'.alloc.exhaustionWarnings := by
  obtain ⟨⟨v, s⟩, hrun, hrep⟩ := bind_eq_ok.mp hrep
  obtain ⟨v', hend, hrep⟩ := bind_eq_ok.mp hrep
  obtain ⟨b', -, hrep⟩ := bind_eq_ok.mp hrep
  cases hrep
  rw [endCycle_warnings hend]
  exact (runCycle_settle (u := { w with pool := .fresh }) hb (h.of_vals rfl rfl rfl) rfl ⟨ho.perm⟩ hrun).1

theorem rolloutCycle_warnings (hb : Built pinned is rc dag) {fs : List SortFunc} (hfs : Permuting fs) {sw : ScoreWeights} {C k k' : Nat} {b : TaggedBundle}
    (h : w.Live pinned dag.nodes prev) (hcl : w.Closed) (hcyc : rolloutCycle rc dag fs sw C w k = .ok (w', k', b)) :
    w.alloc.exhaustionWarnings ≤ w'.alloc.exhaustionWarnings := by
  simp only [rolloutCycle] at hcyc
  split at hcyc
  · cases hcyc
  · split at hcyc
    · cases hcyc
    · obtain ⟨⟨v, best⟩, hbest, hcyc⟩ := bind_eq_ok.mp hcyc
      have horders : ∀ o ∈ fs.map fun f => f C ⟨w.alloc, k / dag.nodes.length⟩ w.place.val (w.dag.val.ready dag.nodes.length),
          Orders dag.nodes.length w o := by
        intro o hm
        obtain ⟨f, hf, rfl⟩ := List.mem_map.mp hm
        exact ⟨hfs f hf _ _ _ _⟩
      obtain ⟨hl, hmem⟩ := bestOrder_like hb.graph.wf hb.oneWriter h.toOk hcl horders hbest
      refine (bestOrder_warnings hb h hcl horders hbest).trans ?_
      have hv : v.Live pinned dag.nodes prev := h.of_vals (congrArg Logged.val hl.dag) (congrArg Logged.val hl.place) (congrArg Logged.val hl.tab)
      cases best with
      | none => cases hcyc
      | some order =>
          rcases hmem with hmem | ⟨o, hm, hmem⟩
          · cases hmem
          · cases hmem
            exact replay_warnings hb hv ⟨hl.dag ▸ (horders order hm).perm⟩ hcyc

/-- The bundle of a cycle has an engine with all of its slots taken. -/
def TaggedBundle.saturated (b : TaggedBundle) : Bool := poolEngines.any fun e => (b.slotsOf e).length = SLOT_LIMITS e

theorem Class.scarce_mem {c : Class} (hk : c.kind ≠ .debug) {op : Op Operand} (hc : c = classify op) : c.scarce ∈ poolEngines ∧ c.scarce ≠ .debug := by
  subst hc
  revert hk
  cases op <;> simp [Class.scarce, classify, Op.engine, Op.isGather, poolEngines]

/-- A cycle without a warning commits every node that was ready, unless its bundle is saturated. -/
theorem Cycle.conserves (hc : Cycle rc dag.nodes w c w') (hb : Built pinned is rc dag) (h : w.Live pinned dag.nodes prev)
    (hwarn : c.stop.alloc.exhaustionWarnings ≤ c.start.alloc.exhaustionWarnings) (hsat : (emitted c.bundle).saturated = false)
    (hf : w.dag.val.frontier i = true) (hi : i < dag.nodes.length) : w'.dag.val.committed i = true := by
  obtain ⟨s, hrun⟩ := hc.run
  obtain ⟨hstart, -, hstop, -, -, hl⟩ := hc.live hb h
  obtain ⟨-, hset⟩ := runCycle_settle hb hstart hc.pool hc.orders hrun
  have hmem : i ∈ c.order := hc.orders.perm.mem_iff.mpr (mem_ready.mpr ⟨hi, by rw [hc.like.dag]; exact hf⟩)
  rcases hset i hmem with hcom | hlt | ⟨node, hn, hk, h0⟩
  · exact hl.committed hcom
  · omega
  · obtain ⟨hpool, hne⟩ := Class.scarce_mem hk rfl
    have hfull : (classify node.instr.op).scarce ∈ poolEngines ∧
        ((emitted c.bundle).slotsOf (classify node.instr.op).scarce).length = SLOT_LIMITS (classify node.instr.op).scarce := by
      have hfree := hc.inv.free hne
      rw [h0, Nat.zero_add] at hfree
      rw [slotsOf_emitted, List.length_map]
      exact ⟨hpool, hfree⟩
    have hany : (emitted c.bundle).saturated = true := List.any_eq_true.mpr ⟨_, hfull.1, by simpa using hfull.2⟩
    rw [hsat] at hany
    cases hany

end cycle

section path

/-- How many nodes the longest path has that starts in a node not yet committed. -/
def World.pathLeft (nodes : List DNode) (w : World) : Nat :=
  (Finset.range nodes.length).sup fun i => if w.dag.val.committed i then 0 else (Dag.dists nodes).1 i + 1

def longestPath (nodes : List DNode) : Nat := (Finset.range nodes.length).sup fun i => (Dag.dists nodes).1 i + 1

theorem World.pathLeft_le (w : World) : w.pathLeft nodes ≤ longestPath nodes := by
  refine Finset.sup_mono_fun fun i _ => ?_
  split <;> omega

theorem World.Leads.pathLeft_le (h : w.Leads nodes w') : w'.pathLeft nodes ≤ w.pathLeft nodes := by
  refine Finset.sup_mono_fun fun i _ => ?_
  split
  · exact Nat.zero_le _
  · next hc =>
      rw [if_neg fun hc' => hc (h.committed hc')]

theorem World.le_pathLeft (w : World) (hi : i < nodes.length) (hc : w.dag.val.committed i = false) :
    (Dag.dists nodes).1 i + 1 ≤ w.pathLeft nodes := by
  refine le_of_eq_of_le ?_ (Finset.le_sup (f := fun i => if w.dag.val.committed i then 0 else (Dag.dists nodes).1 i + 1) (Finset.mem_range.mpr hi))
  simp only [hc, Bool.false_eq_true, if_false]

theorem Dag.WellFormed.dists_lt (hw : Dag.WellFormed nodes) {j : Nat} (h : (i, 1) ∈ Dag.inEdges nodes j) :
    (Dag.dists nodes).1 j + 1 ≤ (Dag.dists nodes).1 i := by
  obtain ⟨k, hk⟩ := (hw.distToSink_spec j).1
  have hedge : Dag.Edge nodes i j 1 := hw.mem_outEdges.mpr h
  exact (hw.distToSink_spec i).2 ⟨k, Nat.add_comm 1 _ ▸ Path.cons hedge hk⟩

/-- Once every ready node is committed, the longest path left is shorter. -/
theorem World.Live.pathLeft_lt (hb : Built pinned is rc dag) (h : w.Live pinned dag.nodes w.dag.val.committed) (hl : w.Leads dag.nodes w')
    (hready : ∀ i, w.dag.val.frontier i = true → w'.dag.val.committed i = true) (hpos : 0 < w.pathLeft dag.nodes) :
    w'.pathLeft dag.nodes + 1 ≤ w.pathLeft dag.nodes := by
  refine Nat.succ_le_of_lt ((Finset.sup_lt_iff hpos).mpr fun i hi => ?_)
  split
  · exact hpos
  · next hc' =>
      have hc : w.dag.val.committed i = false := by
        rw [← Bool.not_eq_true]
        exact fun hc => hc' (hl.committed hc)
      have hnot : w.dag.val.frontier i ≠ true := fun hf => hc' (hready i hf)
      -- an in-edge from a node that is not committed keeps the node from being ready
      obtain ⟨e, he, hec⟩ : ∃ e ∈ Dag.inEdges dag.nodes i, w.dag.val.committed e.1 = false := by
        by_contra hall
        refine hnot (h.dag.frontier_iff.mpr ⟨Finset.mem_range.mp hi, hc, fun e he => ?_⟩)
        have hce : w.dag.val.committed e.1 = true := by
          rw [← Bool.not_eq_false]
          exact fun hf => hall ⟨e, he, hf⟩
        exact ⟨fun _ => hce, fun _ => hce⟩
      obtain ⟨j, wt⟩ := e
      obtain ⟨rfl, hji, -⟩ := hb.graph.edge.mp he
      have hlt := hb.graph.wf.dists_lt he
      have hle := w.le_pathLeft (hji.trans (Finset.mem_range.mp hi)) hec
      omega

/-- A cycle without a warning is saturated, or shortens the longest path left. -/
theorem Cycle.pathLeft_le {c : CycleRecord} (hc : Cycle rc dag.nodes w c w') (hb : Built pinned is rc dag)
    (h : w.Live pinned dag.nodes w.dag.val.committed) (hwarn : w'.alloc.exhaustionWarnings = 0) (hpos : 0 < w.pathLeft dag.nodes) :
    w'.pathLeft dag.nodes + 1 ≤ w.pathLeft dag.nodes + if (emitted c.bundle).saturated then 1 else 0 := by
  obtain ⟨-, hl₁, -, hl₂, -, hl₃⟩ := hc.live hb h
  have hl := (hl₁.trans hl₂).trans hl₃
  split
  · exact Nat.add_le_add_right hl.pathLeft_le 1
  · next hsat =>
      refine h.pathLeft_lt hb hl (fun i hf => ?_) hpos
      have hstop : c.stop.alloc.exhaustionWarnings = 0 := (endCycle_warnings hc.ends).symm.trans hwarn
      exact hc.conserves hb h (hstop ▸ Nat.zero_le _) (eq_false_of_ne_true hsat) hf (h.dag.frontier_iff.mp hf).1

theorem World.pathLeft_pos (h : w.count nodes.length < nodes.length) : 0 < w.pathLeft nodes := by
  obtain ⟨i, hi, hc⟩ : ∃ i < nodes.length, w.dag.val.committed i = false := by
    by_contra hall
    have hcom : ∀ i ∈ List.range nodes.length, w.dag.val.committed i = true := by
      intro i hi
      rw [← Bool.not_eq_false]
      exact fun hf => hall ⟨i, List.mem_range.mp hi, hf⟩
    rw [World.count, List.countP_eq_length.mpr hcom, List.length_range] at h
    exact Nat.lt_irrefl _ h
  have hle := w.le_pathLeft hi hc
  omega

/-- In a run that was never short of registers every cycle was saturated or has shortened the longest path left. -/
theorem SchedulerRun.pathLeft_le (hb : Built pinned is rc dag) {bs : List TaggedBundle} {k : Nat} (h : SchedulerRun rc dag bs w k)
    (hwarn : w.alloc.exhaustionWarnings = 0) : bs.length + w.pathLeft dag.nodes ≤ longestPath dag.nodes + bs.countP TaggedBundle.saturated := by
  obtain ⟨hlive, hcl, -⟩ := hb.start_live
  have hstep : ∀ {bs w k b w' c}, SchedulerRun rc dag bs w k → k < dag.nodes.length → Cycle rc dag.nodes w c w' → b = emitted c.bundle →
      w'.alloc.exhaustionWarnings = 0 → bs.length + w.pathLeft dag.nodes ≤ longestPath dag.nodes + bs.countP TaggedBundle.saturated →
      (bs ++ [b]).length + w'.pathLeft dag.nodes ≤ longestPath dag.nodes + (bs ++ [b]).countP TaggedBundle.saturated := by
    intro bs w k b w' c hrun hk hc hbundle hwarn ih
    obtain ⟨cs, -, hcs, rfl⟩ := hrun.cycles hb
    have hle := hc.pathLeft_le hb (hcs.live hb hlive).1 hwarn (World.pathLeft_pos hk)
    rw [← hbundle] at hle
    rw [List.length_append, List.length_singleton, List.countP_append, List.countP_singleton]
    omega
  cases h with
  | greedy key h =>
      induction h with
      | start => exact (Nat.zero_add _).trans_le (World.pathLeft_le _)
      | cycle hr hk hcyc ih =>
          have hrun := SchedulerRun.greedy key hr
          obtain ⟨cs, -, hcs, -⟩ := hrun.cycles hb
          have hw := (hcs.live hb hlive).1
          obtain ⟨c, hc, hbundle, -⟩ := greedyCycle_cycle hb.graph.wf hb.oneWriter hb.graph.rawOnly hw.toOk hcyc
          exact hstep hrun hk hc hbundle hwarn (ih (Nat.le_zero.mp (hwarn ▸ greedyCycle_warnings hb hw hcyc)))
  | rollout fs sw hfs h =>
      induction h with
      | start => exact (Nat.zero_add _).trans_le (World.pathLeft_le _)
      | cycle hr hk hcyc ih =>
          have hrun := SchedulerRun.rollout fs sw hfs hr
          obtain ⟨cs, -, hcs, -⟩ := hrun.cycles hb
          have hw := (hcs.live hb hlive).1
          obtain ⟨-, hclw⟩ := RolloutReached.ok hb.tagged.toSingleWriter hb.graph hfs Tables.Inv.init (fun _ _ _ => rfl) rfl hr
          obtain ⟨c, hc, hbundle, -⟩ := rolloutCycle_cycle hb.graph.wf hb.oneWriter hw.toOk hclw hfs hcyc
          exact hstep hrun hk hc hbundle hwarn (ih (Nat.le_zero.mp (hwarn ▸ rolloutCycle_warnings hb hfs hw hclw hcyc)))

/-- A schedule that was never short of registers has no more bundles than the longest path of the graph has nodes, and one for
each bundle in which the slots of an engine are all taken. -/
theorem schedule_unsaturated {bs : List TaggedBundle} (ht : Tagged pinned is rc) (hdag : buildDag is pinned = .ok dag)
    (hc : Completed rc dag bs w) (hwarn : w.alloc.exhaustionWarnings = 0) :
    bs.length ≤ longestPath dag.nodes + bs.countP TaggedBundle.saturated := by
  obtain ⟨k, hrun, -⟩ := hc.run
  have hb : Built pinned is rc dag := ⟨ht, .of_ok ht.toSingleWriter hdag⟩
  have hle := hrun.pathLeft_le hb hwarn
  omega

/-- The small program, by the greedy scheduler. -/
theorem schedule_unsaturated_small : ∃ is rc dag bs w, tagRawChains smallProgram PINNED = .ok (is, rc) ∧ buildDag is PINNED = .ok dag ∧
    schedule dag rc (weightedPicker dag smallWeights) none .init = .ok (bs, w) ∧ bs.length ≤ longestPath dag.nodes + bs.countP TaggedBundle.saturated := by
  have hrun : (do
      let (is, rc) ← tagRawChains smallProgram PINNED
      let dag ← buildDag is PINNED
      let (_, w) ← schedule dag rc (weightedPicker dag smallWeights) none .init
      .ok w.alloc.exhaustionWarnings) = (.ok 0 : Except PyErr Nat) := by decide +kernel
  obtain ⟨⟨is, rc⟩, htag, hrun⟩ := bind_eq_ok.mp hrun
  obtain ⟨dag, hdag, hrun⟩ := bind_eq_ok.mp hrun
  obtain ⟨⟨bs, w⟩, hsched, hwarn⟩ := bind_eq_ok.mp hrun
  exact ⟨is, rc, dag, bs, w, htag, hdag, hsched,
    schedule_unsaturated (tagRawChains_tagged pinned_noHash htag) hdag (.greedy _ none hsched) (Except.ok.inj hwarn)⟩

end path
end Vliw
