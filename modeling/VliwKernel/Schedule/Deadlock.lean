import VliwKernel.Regalloc.Runs
import VliwKernel.Schedule.Cap
import VliwKernel.Schedule.Decisions

/-!
# Deadlock

A cycle places nothing exactly when no ready node finds its registers, whatever the order. Such a cycle leaves the
graph, the placements and the registers as they are, unless a claimed granule is wholly free when it starts: its
collection returns that one to the vector pool.
-/

namespace Vliw
open RegisterAllocator

/-- The cycle returned, with no slot used and nothing committed. -/
def PlacesNothing (x : Except PyErr (World × Stats)) : Prop := ∃ v s, x = .ok (v, s) ∧ stuck v s = true

def Starved (nodes : List DNode) (w : World) : Prop :=
  ∀ i ∈ w.dag.val.ready nodes.length, placeable nodes w.alloc i = false

/-- Where a cycle from `w` starts: with a fresh pool, as a trial also with its journals open. -/
def Opens (w u : World) : Prop := u = { w with pool := .fresh } ∨ u = w.checkpoint

/-- Whether a cycle from `w` places something does not depend on the order. If it does not, then neither it nor what
follows it changes anything, and no later cycle places anything. -/
structure DeadlockExact (rc : Sym → Option Int) (dag : Dag) (w : World) : Prop where
  exact : ∀ (emit : Bool) {order u}, order.Perm (w.dag.val.ready dag.nodes.length) → Opens w u →
    (PlacesNothing (runCycle rc dag.nodes emit order u) ↔ Starved dag.nodes w)
  frozen : Starved dag.nodes w → ∀ (emit : Bool) {order u}, order.Perm (w.dag.val.ready dag.nodes.length) → Opens w u →
    ∃ v s w', runCycle rc dag.nodes emit order u = .ok (v, s) ∧ endCycle dag.nodes.length v = .ok w' ∧ u.Like w'
  later : Starved dag.nodes w → ∀ {cs w'}, Cycles rc dag.nodes w cs w' → w.Like w' ∧
    ∀ (emit : Bool) {order u}, order.Perm (w'.dag.val.ready dag.nodes.length) → Opens w' u →
      PlacesNothing (runCycle rc dag.nodes emit order u)

variable {pinned : List String} {is : List (Instr Operand)} {rc : Sym → Option Int} {dag : Dag} {nodes : List DNode}
  {prev : Nat → Bool} {a : RegisterAllocator} {w w' v u : World} {order : List Nat} {emit : Bool} {st : Stats}

section cycle

theorem World.Like.starved (h : w.Like v) (hs : Starved nodes w) : Starved nodes v := by
  intro i hi
  rw [placeable_congr (congrArg Logged.val h.tab)]
  rw [h.dag] at hi
  exact hs i hi

namespace Opens

theorem ok (h : Opens w u) (hok : w.Ok nodes prev) : u.Ok nodes prev := by
  rcases h with rfl | rfl <;> exact hok.of_vals rfl rfl rfl

theorem pool (h : Opens w u) : u.pool = .fresh := by
  rcases h with rfl | rfl <;> rfl

theorem orders (h : Opens w u) (ho : order.Perm (w.dag.val.ready nodes.length)) : Orders nodes.length u order := by
  rcases h with rfl | rfl <;> exact ⟨ho⟩

theorem placeable (h : Opens w u) (i : Nat) : placeable nodes u.alloc i = placeable nodes w.alloc i := by
  rcases h with rfl | rfl <;> exact placeable_congr rfl i

theorem tidy (h : Opens w u) : u.alloc.tab.val = w.alloc.tab.val := by
  rcases h with rfl | rfl <;> rfl

end Opens

theorem Starved.runCycle (rc : Sym → Option Int) (emit : Bool) (hs : Starved nodes w) (hok : w.Ok nodes prev) (ho : order.Perm (w.dag.val.ready nodes.length))
    (hu : Opens w u) : ∃ b s, b.tab = u.alloc.tab ∧ runCycle rc nodes emit order u = .ok ({ u with alloc := b }, s) ∧
      stuck { u with alloc := b } s = true := by
  have horders := hu.orders ho
  obtain ⟨b, hb, hrun⟩ := @runNodes_refused rc nodes u emit order (fun i hi =>
    ⟨((hu.ok hok).dag.frontier_iff.mp (horders.frontier hi)).1, (hu.placeable i).trans (hs i (ho.subset hi))⟩) .zero
  refine ⟨b, _, hb, by rw [runCycle_eq, hrun]; rfl, ?_⟩
  rw [stuck, hu.pool]
  rfl

theorem runCycle_places (hw : Dag.WellFormed nodes) (h1 : OneWriter nodes rc) (hok : u.Ok nodes prev)
    (ho : Orders nodes.length u order) (hpool : u.pool = .fresh) {i : Nat} (hi : i ∈ order)
    (hp : placeable nodes u.alloc i = true) (hrun : runCycle rc nodes true order u = .ok (v, st)) : stuck v st = false := by
  rcases runCycle_ok hw h1 hok ho true hpool with ⟨v', st', M, hrun', hsteps, hfit, hcount⟩ | ⟨-, herr⟩
  · cases hrun.symm.trans hrun'
    have hsome : ∃ j, M j ≠ none := by
      by_contra hnone
      push Not at hnone
      obtain ⟨hdag, hplace, -⟩ := hsteps.idle hw hok.dag hnone
      rcases runCycle_effort hw h1 hok ho hpool hrun with ⟨hall, -⟩ | hlt
      · rw [hall i hi] at hp
        cases hp
      · have heq : v.effort nodes = u.effort nodes := World.effort_congr (by rw [hdag]) (by rw [hplace])
        omega
    obtain ⟨j, hj⟩ := hsome
    exact (not_stuck_of_landing hw h1 hok ho hsteps hfit hcount hj).1
  · cases hrun.symm.trans herr

theorem SameCycle.stuck_eq {p q : World × Stats} (h : SameCycle p q) : stuck p.1 p.2 = stuck q.1 q.2 := by
  have hused : p.1.pool.used = q.1.pool.used := by
    funext e
    rw [FuncUnitPool.used, FuncUnitPool.used, h.free]
  rw [stuck, stuck, hused, h.stats]

/-- A cycle places nothing exactly when no ready node finds its registers. -/
theorem placesNothing_iff (hw : Dag.WellFormed nodes) (h1 : OneWriter nodes rc) (hok : w.Ok nodes prev)
    (ho : order.Perm (w.dag.val.ready nodes.length)) (hu : Opens w u) :
    PlacesNothing (runCycle rc nodes emit order u) ↔ Starved nodes w := by
  have hoku := hu.ok hok
  have horders := hu.orders ho
  constructor
  · rintro ⟨v, s, hrun, hstuck⟩ i hi
    by_contra hp
    have hp' : placeable nodes u.alloc i = true := (hu.placeable i).trans (by simpa using hp)
    have hemit : ∀ {v s}, runCycle rc nodes true order u = .ok (v, s) → stuck v s = false :=
      fun h => runCycle_places hw h1 hoku horders hu.pool (ho.symm.subset hi) hp' h
    cases emit with
    | true => simp [hemit hrun] at hstuck
    | false =>
        obtain ⟨q, hreal, hagree⟩ := (runCycle_agree hw h1 hoku horders hu.pool).to_ok hrun
        rw [hagree.stuck_eq, hemit hreal] at hstuck
        cases hstuck
  · intro hs
    obtain ⟨b, s, -, hrun, hstuck⟩ := hs.runCycle rc emit hok ho hu
    exact ⟨_, s, hrun, hstuck⟩

/-- A stuck cycle leaves everything as it was exactly when no claimed granule is wholly free. -/
theorem Starved.cycle (rc : Sym → Option Int) (emit : Bool) (hs : Starved nodes w) (hok : w.Ok nodes w.dag.val.committed)
    (ho : order.Perm (w.dag.val.ready nodes.length)) (hu : Opens w u) :
    ∃ v s w', Vliw.runCycle rc nodes emit order u = .ok (v, s) ∧ endCycle nodes.length v = .ok w' ∧
      (u.Like w' ↔ w.alloc.tab.val.Tidy) := by
  obtain ⟨b, s, hb, hrun, -⟩ := hs.runCycle rc emit hok ho hu
  have hinv : b.tab.val.Inv := hb ▸ (hu.ok hok).alloc
  have hdag : (Dag.advance nodes.length u.dag).1 = u.dag := by
    rcases hu with rfl | rfl
    · exact hok.dag.advance_settled _
    · exact Dag.Inv.advance_settled (s := w.dag.checkpoint.2) hok.dag _
  obtain ⟨t, hcol, -⟩ := collect_ok hinv
  obtain ⟨-, hiff⟩ := collect_tidy hinv hcol
  refine ⟨_, s, { u with dag := (Dag.advance nodes.length u.dag).1, alloc := { b with tab := ⟨t, b.tab.log⟩ } }, hrun,
    by simp only [endCycle, hcol, bind_ok], ?_⟩
  rw [← hu.tidy, ← hb, hiff, hb]
  exact ⟨fun h => h.tab, fun h => ⟨hdag, rfl, h⟩⟩

end cycle
section runs

variable {c : CycleRecord} {cs : List CycleRecord}

/-- A stuck cycle with all granules in their place leads back to where it started. -/
theorem Cycle.frozen (hc : Cycle rc nodes w c w') (hok : w.Ok nodes w.dag.val.committed) (hs : Starved nodes w)
    (ht : w.alloc.tab.val.Tidy) : w.Like w' := by
  have hok' : c.start.Ok nodes c.start.dag.val.committed := by
    rw [hc.like.dag]
    exact hok.like hc.like
  have hopens : Opens c.start c.start := .inl (by rw [← hc.pool])
  obtain ⟨v, s, u, hrun, hend, hlike⟩ := (hc.like.starved hs).cycle rc true hok' hc.orders.perm hopens
  obtain ⟨s', hrun'⟩ := hc.run
  cases hrun.symm.trans hrun'
  cases hend.symm.trans hc.ends
  refine hc.like.trans (hlike.mpr ?_)
  rw [hc.like.tab]
  exact ht

theorem Cycles.frozen (hcs : Cycles rc nodes w cs w') (hok : w.Ok nodes w.dag.val.committed) (hs : Starved nodes w)
    (ht : w.alloc.tab.val.Tidy) : w.Like w' := by
  induction hcs with
  | nil => exact .refl _
  | @cons w u w' c cs hc _ ih =>
      have hl := hc.frozen hok hs ht
      have hoku : u.Ok nodes u.dag.val.committed := by
        rw [hl.dag]
        exact hok.like hl
      exact hl.trans (ih hoku (hl.starved hs) (by rwa [hl.tab]))

theorem CycleStart.cycles (hs : SingleWriter pinned is rc) (hdag : DagOf pinned is dag) (ha : a.tab.val.Inv)
    (hfree : ∀ i t, WritesTag is i t → a.tab.val.assigned t = none) (hlog : a.tab.log = none) (h : CycleStart rc dag a w) :
    ∃ cs, Cycles rc dag.nodes (.start dag a) cs w := by
  have h1 : OneWriter dag.nodes rc := hdag.oneWriter hs
  cases h with
  | greedy h =>
      induction h with
      | start => exact ⟨[], .nil⟩
      | cycle hr _ hcyc ih =>
          obtain ⟨cs, hcs⟩ := ih
          obtain ⟨c, hc, -⟩ := greedyCycle_cycle hdag.wf h1 hdag.rawOnly (greedyReached_ok hs hdag ha hfree hlog hr).1 hcyc
          exact ⟨cs ++ [c], hcs.append (.cons hc .nil)⟩
  | rollout hfs h =>
      induction h with
      | start => exact ⟨[], .nil⟩
      | cycle hr _ hcyc ih =>
          obtain ⟨cs, hcs⟩ := ih
          obtain ⟨hok, hcl⟩ := RolloutReached.ok hs hdag hfs ha hfree hlog hr
          obtain ⟨c, hc, -⟩ := rolloutCycle_cycle hdag.wf h1 hok hcl hfs hcyc
          exact ⟨cs ++ [c], hcs.append (.cons hc .nil)⟩

/-- Deadlock detection is exact in every state with all granules in their place, and in no other state in which no node
finds its registers. Only the first state of a run on a given allocator can be one. -/
theorem deadlock_exact (hs : SingleWriter pinned is rc) (hdag : buildDag is pinned = .ok dag) (ha : a.tab.val.Inv)
    (hlog : a.tab.log = none) (hfree : ∀ i t, WritesTag is i t → a.tab.val.assigned t = none) (h : CycleStart rc dag a w) :
    (DeadlockExact rc dag w ↔ w.alloc.tab.val.Tidy ∨ ¬ Starved dag.nodes w) ∧
      (w.alloc.tab.val.Tidy ∨ w = .start dag a) := by
  have hof : DagOf pinned is dag := .of_ok hs hdag
  have h1 : OneWriter dag.nodes rc := hof.oneWriter hs
  have hok := (h.ok hs hof ha hfree hlog).1
  constructor
  · constructor
    · intro hexact
      by_cases hstarved : Starved dag.nodes w
      · obtain ⟨v, s, w', hrun, hend, hlike⟩ := hexact.frozen hstarved true (.refl _) (.inl rfl)
        obtain ⟨v', s', u, hrun', hend', hiff⟩ := hstarved.cycle rc true hok (.refl _) (.inl rfl)
        cases hrun.symm.trans hrun'
        cases hend.symm.trans hend'
        exact .inl (hiff.mp hlike)
      · exact .inr hstarved
    · intro hcond
      refine ⟨fun emit {_ _} ho hu => placesNothing_iff hof.wf h1 hok ho hu, fun hstarved => ?_, fun hstarved => ?_⟩
      · intro emit order u ho hu
        obtain ⟨v, s, w', hrun, hend, hiff⟩ := hstarved.cycle rc emit hok ho hu
        exact ⟨v, s, w', hrun, hend, hiff.mpr (hcond.resolve_right (not_not_intro hstarved))⟩
      · intro cs w' hcs
        have hlike := hcs.frozen hok hstarved (hcond.resolve_right (not_not_intro hstarved))
        exact ⟨hlike, fun emit {_ _} ho hu => (placesNothing_iff hof.wf h1 (hok.like hlike) ho hu).mpr (hlike.starved hstarved)⟩
  · obtain ⟨cs, hcs⟩ := h.cycles hs hof ha hfree hlog
    exact hcs.tidy hof.wf h1 (start_ok hof ha hfree hlog).1

def laneBroadcast : List (Instr Operand) := [⟨0, .vBroadcast (.sym ⟨"v", true⟩) (.lane ⟨"const_vec_0", true⟩ 0)⟩]

/-- Nothing reads the broadcast; whatever a prologue writes is read once. -/
def laneCounts : Sym → Option Int := fun t => if isPinned PINNED t then none else if t = ⟨"v", true⟩ then some 0 else some 1

theorem laneBroadcast_single : SingleWriter PINNED laneBroadcast laneCounts where
  unique := by
    rintro i j t - ⟨ins, -, hi, -⟩ ⟨ins', -, hj, -⟩
    have hlt := (List.getElem?_eq_some_iff.mp hi).1
    have hlt' := (List.getElem?_eq_some_iff.mp hj).1
    simp only [laneBroadcast, List.length_singleton] at hlt hlt'
    omega
  pinned_none := by
    intro t ht
    rw [laneCounts, if_pos ht]

theorem laneBroadcast_unassigned (h : a.tab.val.assigned ⟨"v", true⟩ = none) (i : Nat) (t : Sym) (ht : WritesTag laneBroadcast i t) :
    a.tab.val.assigned t = none := by
  obtain ⟨ins, d, hi, hd, rfl⟩ := ht
  obtain ⟨hlt, rfl⟩ := List.getElem?_eq_some_iff.mp hi
  obtain rfl : i = 0 := by simpa [laneBroadcast] using hlt
  cases hd
  exact h

/-- With all granules given to vectors the broadcast is stuck, and stays so. -/
theorem deadlock_exact_full : ∃ dag a, AllocRun laneCounts (fun a op => op.Enabled a) .init (vectors 191) a ∧
    buildDag laneBroadcast PINNED = .ok dag ∧ Starved dag.nodes (.start dag a) ∧ DeadlockExact laneCounts dag (.start dag a) := by
  have hrun : (do
      let dag ← (buildDag laneBroadcast PINNED).toOption
      let a ← AllocOp.runAll? laneCounts (vectors 191) .init
      some (decide (∀ i ∈ (World.start dag a).dag.val.ready dag.nodes.length, placeable dag.nodes a i = false),
        a.tab.val.granuleFree.items, a.tab.log.isNone, a.tab.val.assigned ⟨"v", true⟩)) =
      some (true, [], true, none) := by decide +kernel
  obtain ⟨dag, hdag, hrun⟩ := Option.bind_eq_some_iff.mp hrun
  obtain ⟨a, ha, hrun⟩ := Option.bind_eq_some_iff.mp hrun
  have hout := Option.some.inj hrun
  simp only [Prod.mk.injEq, decide_eq_true_eq, Option.isNone_iff_eq_none] at hout
  obtain ⟨hstarved, hitems, hlog, hfree⟩ := hout
  have hdag := toOption_eq_some.mp hdag
  have hstart : CycleStart laneCounts dag a (.start dag a) := .greedy (.start : Reached (greedyCycle laneCounts dag.nodes listed) _ _ [] _ 0)
  have htidy : a.tab.val.Tidy := by
    intro g hg
    rw [← Dict.mem_items, hitems] at hg
    cases hg
  have hunassigned := laneBroadcast_unassigned hfree
  have hexact := (deadlock_exact laneBroadcast_single hdag (reachable_inv _ _ a (.of_runAll? ha)).1 hlog hunassigned hstart).1
  exact ⟨dag, a, .of_runAll? ha, hdag, hstarved, hexact.mpr (.inl htidy)⟩

/-- The prologue leaves one granule to a scalar that it has read. The broadcast is stuck and the scheduler gives up, but the
collection of that very cycle would have freed the granule. -/
theorem deadlock_not_exact : ∃ dag a v s w', SingleWriter PINNED laneBroadcast laneCounts ∧
    AllocRun laneCounts (fun a op => op.Enabled a) .init (vectors 190 ++ [.write ⟨"x", false⟩, .read ⟨"x", false⟩]) a ∧
    buildDag laneBroadcast PINNED = .ok dag ∧ schedule dag laneCounts listed none a = .error (.stuck 0 1 1) ∧
    runCycle laneCounts dag.nodes true [0] (.start dag a) = .ok (v, s) ∧ stuck v s = true ∧
    endCycle dag.nodes.length v = .ok w' ∧ placeable dag.nodes w'.alloc 0 = true ∧ ¬ DeadlockExact laneCounts dag (.start dag a) := by
  have hrun : (do
      let dag ← (buildDag laneBroadcast PINNED).toOption
      let a ← AllocOp.runAll? laneCounts (vectors 190 ++ [.write ⟨"x", false⟩, .read ⟨"x", false⟩]) .init
      let p ← (runCycle laneCounts dag.nodes true [0] (.start dag a)).toOption
      let w' ← (endCycle dag.nodes.length p.1).toOption
      some ((World.start dag a).dag.val.ready dag.nodes.length, placeable dag.nodes a 0, stuck p.1 p.2,
        placeable dag.nodes w'.alloc 0, decide (gaveUp (schedule dag laneCounts listed none a) = some (.stuck 0 1 1)))) =
      some ([0], false, true, true, true) := by decide +kernel
  obtain ⟨dag, hdag, hrun⟩ := Option.bind_eq_some_iff.mp hrun
  obtain ⟨a, ha, hrun⟩ := Option.bind_eq_some_iff.mp hrun
  obtain ⟨⟨v, s⟩, hp, hrun⟩ := Option.bind_eq_some_iff.mp hrun
  obtain ⟨w', hw', hrun⟩ := Option.bind_eq_some_iff.mp hrun
  have hout := Option.some.inj hrun
  simp only [Prod.mk.injEq, decide_eq_true_eq] at hout
  obtain ⟨hready, hnot, hstuck, hthen, hraise⟩ := hout
  refine ⟨dag, a, v, s, w', laneBroadcast_single, .of_runAll? ha, toOption_eq_some.mp hdag, gaveUp_iff.mp hraise,
    toOption_eq_some.mp hp, hstuck, toOption_eq_some.mp hw', hthen, fun hexact => ?_⟩
  have hstarved : Starved dag.nodes (.start dag a) := by
    intro i hi
    rw [hready, List.mem_singleton] at hi
    rw [hi]
    exact hnot
  obtain ⟨v', s', u, hrun, hend, hlike⟩ := hexact.frozen hstarved true (.of_eq hready.symm) (.inl rfl)
  cases (toOption_eq_some.mp hp).symm.trans hrun
  cases (toOption_eq_some.mp hw').symm.trans hend
  rw [placeable_congr (congrArg Logged.val hlike.tab)] at hthen
  cases hnot.symm.trans hthen

end runs
end Vliw
