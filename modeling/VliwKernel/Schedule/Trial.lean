import VliwKernel.Schedule.Rollout
import VliwKernel.Schedule.Steps

/-!
# Trials leave no trace

A trial runs a cycle on a checkpoint and rolls it back. In every state that a rollout run reaches,
and for every order of the ready nodes, it gives back the graph, the placements and the allocator's
tables exactly, with the journals closed.
-/

namespace Vliw
open RegisterAllocator

variable {rc : Sym → Option Int} {nodes : List DNode} {prev : Nat → Bool} {w w' v : World} {order : List Nat}

/-- The state without the allocator's counters and the pool. -/
structure World.Like (w v : World) : Prop where
  dag : v.dag = w.dag
  place : v.place = w.place
  tab : v.alloc.tab = w.alloc.tab

/-- No journal is open. -/
structure World.Closed (w : World) : Prop where
  dag : w.dag.log = none
  place : w.place.log = none
  alloc : w.alloc.tab.log = none

namespace World

theorem Like.refl (w : World) : w.Like w := ⟨rfl, rfl, rfl⟩

theorem Like.trans {u : World} (h : w.Like v) (h' : v.Like u) : w.Like u :=
  ⟨h'.dag.trans h.dag, h'.place.trans h.place, h'.tab.trans h.tab⟩

theorem Ok.of_vals (h : w.Ok nodes prev) (hd : v.dag.val = w.dag.val) (hp : v.place.val = w.place.val)
    (ha : v.alloc.tab.val = w.alloc.tab.val) : v.Ok nodes prev := by
  obtain ⟨dag, alloc, place, pool⟩ := w
  obtain ⟨dag', alloc', place', pool'⟩ := v
  dsimp only at hd hp ha
  constructor
  case alloc => simpa only [ha] using h.alloc
  case dag => simpa only [hd] using h.dag
  case lanes_pending => simpa only [hd, hp] using @h.lanes_pending
  case lanes_done => simpa only [hd, hp] using @h.lanes_done
  case lanes_debug => simpa only [hp] using @h.lanes_debug
  case lanes_ready => simpa only [hp] using @h.lanes_ready
  case sticky => simpa only [hp, ha] using @h.sticky

theorem Ok.like (h : w.Ok nodes prev) (hl : w.Like v) : v.Ok nodes prev :=
  h.of_vals (congrArg Logged.val hl.dag) (congrArg Logged.val hl.place) (congrArg Logged.val hl.tab)

theorem Closed.like (h : w.Closed) (hl : w.Like v) : v.Closed :=
  ⟨hl.dag ▸ h.dag, hl.place ▸ h.place, hl.tab ▸ h.alloc⟩

theorem Ok.endCycle (h : w.Ok nodes prev) : ∃ w', Vliw.endCycle nodes.length w = .ok w' ∧
    w'.Ok nodes w'.dag.val.committed ∧ w'.dag = (Dag.advance nodes.length w.dag).1 ∧
    w'.dag.val.committed = w.dag.val.committed ∧ w'.place = w.place ∧ w'.pool = w.pool ∧
    w'.alloc.tab.log = w.alloc.tab.log ∧ w'.alloc.tab.val.assigned = w.alloc.tab.val.assigned ∧
    w'.alloc.tab.val.remaining = w.alloc.tab.val.remaining := by
  obtain ⟨u, hcol, hinv, ha, hr⟩ := collect_ok h.alloc
  obtain ⟨hc, hd⟩ := h.dag.advance
  refine ⟨⟨(Dag.advance nodes.length w.dag).1, { w.alloc with tab := ⟨u, w.alloc.tab.log⟩ }, w.place, w.pool⟩,
    by simp only [Vliw.endCycle, hcol, bind_ok], ?_, rfl, hc, rfl, rfl, rfl, ha, hr⟩
  constructor
  case alloc => exact hinv
  case dag => simpa only [hc] using hd
  case lanes_pending => simpa only [hc] using @h.lanes_pending
  case lanes_done => simpa only [hc] using @h.lanes_done
  case lanes_debug => exact h.lanes_debug
  case lanes_ready => exact fun hl e he h1 => hc ▸ h.dag.prev_committed (h.lanes_ready hl e he h1)
  case sticky => simpa only [ha] using @h.sticky

end World

theorem Logged.Reverts.closed {σ ε E : Type} {undo : ε → σ → Except E σ} {R : σ → σ → Prop} {s t : Logged σ ε}
    (h : Reverts undo R s t) (hs : s.log = none) : t.log = none := by
  obtain ⟨new, hl, -⟩ := h
  rw [hl, hs]
  rfl

theorem mem_ready {n i : Nat} {s : DagState} : i ∈ s.ready n ↔ i < n ∧ s.frontier i = true := by
  simp [DagState.ready]

structure Orders (n : Nat) (w : World) (order : List Nat) : Prop where
  perm : order.Perm (w.dag.val.ready n)

theorem Orders.nodup {n : Nat} (h : Orders n w order) : order.Nodup :=
  h.perm.nodup_iff.mpr (List.nodup_range.filter _)

theorem Orders.frontier {n i : Nat} (h : Orders n w order) (hi : i ∈ order) : w.dag.val.frontier i = true :=
  (mem_ready.mp (h.perm.mem_iff.mp hi)).2

theorem runCycle_eq (emit : Bool) (order : List Nat) (w : World) : runCycle rc nodes emit order w =
    (order.foldlM (runNode rc nodes emit) (w, .zero)).map fun p =>
      (p.1, { p.2 with allocs := (p.1.alloc.nAlloc : Int) - w.alloc.nAlloc
                       frees := (p.1.alloc.nFree : Int) - w.alloc.nFree }) := by
  unfold runCycle
  cases order.foldlM (runNode rc nodes emit) (w, .zero) <;> rfl

theorem runCycle_ok (hw : Dag.WellFormed nodes) (h1 : OneWriter nodes rc) (hok : w.Ok nodes prev)
    (ho : Orders nodes.length w order) (emit : Bool) (hpool : w.pool = .fresh) :
    (∃ w' s M, runCycle rc nodes emit order w = .ok (w', s) ∧ NodeSteps rc nodes w (fun _ => none) order w' M ∧
      FuncUnitPool.Fit emit M w'.pool ∧ s.committed + w.count nodes.length = w'.count nodes.length) ∨
    ((∃ i ∈ order, Uncounted rc nodes i) ∧ runCycle rc nodes emit order w = .error .keyError) := by
  rw [runCycle_eq]
  rcases runNodes_ok hw h1 emit ho.nodup hok
      (fun i hi => ⟨ho.frontier hi, rfl⟩) (hpool ▸ FuncUnitPool.Fit.fresh emit) .zero with
    ⟨w', s, M, hrun, hsteps, hfit, hcount⟩ | ⟨hu, herr⟩
  · rw [hrun]
    exact .inl ⟨w', _, M, rfl, hsteps, hfit, by simpa [Stats.zero] using hcount⟩
  · rw [herr]
    exact .inr ⟨hu, rfl⟩

/-- After the end of a cycle the state invariant holds again, and no journal has been opened. -/
theorem cycle_ok {M : Ledger} (hw : Dag.WellFormed nodes) (h1 : OneWriter nodes rc) (hok : w.Ok nodes prev)
    (hcl : w.Closed) (hsteps : NodeSteps rc nodes w (fun _ => none) order v M) (hend : endCycle nodes.length v = .ok w') :
    w'.Ok nodes w'.dag.val.committed ∧ w'.Closed ∧ w'.dag.val.committed = v.dag.val.committed ∧
      w'.place = v.place ∧ w'.alloc.tab.val.assigned = v.alloc.tab.val.assigned ∧
      w'.alloc.tab.val.remaining = v.alloc.tab.val.remaining := by
  obtain ⟨ha, hp, hd⟩ := hsteps.undoes hw h1 hok
  obtain ⟨u, hend', hok', hdag', hc, hplace, -, hlog', has, hrem⟩ := (hsteps.ok hw h1 hok).endCycle
  cases hend.symm.trans hend'
  refine ⟨hok', ⟨?_, ?_, ?_⟩, hc, hplace, has, hrem⟩
  · rw [hdag']
    exact (hd.trans (Dag.advance_undoes _ _)).closed hcl.dag
  · rw [hplace]
    exact hp.closed hcl.place
  · rw [hlog']
    exact ha.closed hcl.alloc

/-- What a scheduler's loop reaches: the bundles so far, the state and how many nodes are committed. -/
inductive Reached (cycle : Nat → World → Nat → Except PyErr (World × Nat × TaggedBundle)) (n : Nat) (w₀ : World) :
    List TaggedBundle → World → Nat → Prop
  | start : Reached cycle n w₀ [] w₀ 0
  | cycle {bs w k w' k' b} : Reached cycle n w₀ bs w k → k < n → cycle bs.length w k = .ok (w', k', b) →
      Reached cycle n w₀ (bs ++ [b]) w' k'

abbrev RolloutReached (rc : Sym → Option Int) (dag : Dag) (fs : List SortFunc) (sw : ScoreWeights)
    (a : RegisterAllocator) : List TaggedBundle → World → Nat → Prop :=
  Reached (rolloutCycle rc dag fs sw) dag.nodes.length (.start dag a)

/-- Every sort function returns a permutation of what it is given. -/
def Permuting (fs : List SortFunc) : Prop := ∀ f ∈ fs, ∀ C ctx p ready, (f C ctx p ready).Perm ready

theorem permuting_id : Permuting [fun _ _ _ ready => ready] := by
  intro f hf C ctx p ready
  rw [List.mem_singleton.mp hf]

theorem permuting_reverse : Permuting [fun _ _ _ ready => ready.reverse] := by
  intro f hf C ctx p ready
  rw [List.mem_singleton.mp hf]
  exact List.reverse_perm _

section
variable {dag : Dag}

theorem weightedGreedy_permuting (wts : Weights) : Permuting [weightedGreedy dag wts] := by
  intro f hf C ctx p ready
  obtain rfl := List.mem_singleton.mp hf
  exact List.mergeSort_perm _ _

theorem interpGreedy_permuting (w1 w2 : Weights) : Permuting [interpGreedy dag w1 w2] := by
  intro f hf C ctx p ready
  obtain rfl := List.mem_singleton.mp hf
  exact List.mergeSort_perm _ _

theorem defaultSortFuncs_permuting (wts : Weights) (trials : Nat) {shuffle : Nat → SortFunc} (h : ∀ k, Permuting [shuffle k]) :
    Permuting (defaultSortFuncs dag wts trials shuffle) := by
  intro f hf
  rcases List.mem_cons.mp hf with rfl | hf
  · exact weightedGreedy_permuting wts _ (List.mem_singleton_self _)
  · obtain ⟨k, -, rfl⟩ := List.mem_map.mp hf
    exact h k _ (List.mem_singleton_self _)

/-- A trial either gives back what it was given, or meets a tag without a read count. -/
theorem simulate_rollback (hw : Dag.WellFormed dag.nodes) (h1 : OneWriter dag.nodes rc) (hok : w.Ok dag.nodes prev)
    (hcl : w.Closed) (ho : Orders dag.nodes.length w order) :
    (∃ t s w', simulate rc dag order w.checkpoint = .ok (t, s) ∧ w.rollback rc t = .ok w' ∧ w.Like w') ∨
    ((∃ i ∈ order, Uncounted rc dag.nodes i) ∧ simulate rc dag order w.checkpoint = .error .keyError) := by
  have hok' : w.checkpoint.Ok dag.nodes prev := hok.of_vals rfl rfl rfl
  have ho' : Orders dag.nodes.length w.checkpoint order := ⟨ho.perm⟩
  rcases runCycle_ok hw h1 hok' ho' false rfl with ⟨t, s, M, hrun, hsteps, -⟩ | ⟨hu, herr⟩
  · left
    obtain ⟨ha, hp, hd⟩ := hsteps.undoes hw h1 hok'
    obtain ⟨p, hp, hpr⟩ := Logged.rollback_closed PyErr.assertion hcl.place hp
    obtain ⟨u, hu, hur⟩ := Logged.rollback_closed PyErr.assertion hcl.alloc ha
    obtain ⟨d, hd, hdr⟩ := Logged.rollback_closed PyErr.assertion hcl.dag
      (hd.trans (Dag.advance_undoes dag.nodes.length t.dag))
    subst hp hu hd
    refine ⟨{ t with dag := (Dag.advance dag.nodes.length t.dag).1 }, s, ⟨⟨w.dag.val, none⟩,
      { t.alloc with tab := ⟨w.alloc.tab.val, none⟩ }, ⟨w.place.val, none⟩, t.pool⟩, ?_, ?_, ?_⟩
    · simp only [simulate, hrun, bind_ok]
    · simp only [World.rollback, Placement.rollback, hpr, bind_ok, RegisterAllocator.rollback, checkpoint, hur,
        Dag.rollback, hdr]
    · exact ⟨by rw [← hcl.dag], by rw [← hcl.place], by rw [← hcl.alloc]⟩
  · right
    exact ⟨hu, by simp only [simulate, herr, bind_error]⟩

theorem trial_like (hw : Dag.WellFormed dag.nodes) (h1 : OneWriter dag.nodes rc) (hok : w.Ok dag.nodes prev)
    (hcl : w.Closed) (ho : Orders dag.nodes.length w order) {sw : ScoreWeights} {sc : WithBot ℚ}
    (h : trial rc dag sw order w = .ok (w', sc)) : w.Like w' := by
  rcases simulate_rollback hw h1 hok hcl ho with ⟨t, s, v, hs, hv, hl⟩ | ⟨-, herr⟩
  · simp only [trial, hs, bind_ok, hv, Except.ok.injEq, Prod.mk.injEq] at h
    exact h.1 ▸ hl
  · simp [trial, herr] at h

/-- The trials of a cycle together change nothing and pick one of the orders. -/
theorem bestOrder_like (hw : Dag.WellFormed dag.nodes) (h1 : OneWriter dag.nodes rc) {sw : ScoreWeights}
    {os : List (List Nat)} {sc : WithBot ℚ} {best best' : Option (List Nat)} (hok : w.Ok dag.nodes prev)
    (hcl : w.Closed) (ho : ∀ o ∈ os, Orders dag.nodes.length w o)
    (h : bestOrder rc dag sw os w sc best = .ok (w', best')) :
    w.Like w' ∧ (best' = best ∨ ∃ o ∈ os, best' = some o) := by
  induction os generalizing w sc best with
  | nil =>
      cases h
      exact ⟨.refl _, .inl rfl⟩
  | cons o os ih =>
      obtain ⟨⟨v, sc'⟩, ht, h⟩ := bind_eq_ok.mp h
      have hl := trial_like hw h1 hok hcl (ho o (by simp)) ht
      have ho' : ∀ o ∈ os, Orders dag.nodes.length v o := fun o' hm => ⟨by
        rw [hl.dag]
        exact (ho o' (by simp [hm])).perm⟩
      dsimp only at h
      split at h
      · obtain ⟨hl', hb⟩ := ih (hok.like hl) (hcl.like hl) ho' h
        refine ⟨hl.trans hl', .inr ?_⟩
        rcases hb with rfl | ⟨o', hm, rfl⟩
        · exact ⟨o, by simp, rfl⟩
        · exact ⟨o', by simp [hm], rfl⟩
      · obtain ⟨hl', hb⟩ := ih (hok.like hl) (hcl.like hl) ho' h
        refine ⟨hl.trans hl', hb.imp_right ?_⟩
        rintro ⟨o', hm, rfl⟩
        exact ⟨o', by simp [hm], rfl⟩

/-- A cycle of the rollout scheduler: the trials leave the state alone, then one order of the ready
nodes is placed for real. -/
theorem rolloutCycle_cases (hw : Dag.WellFormed dag.nodes) (h1 : OneWriter dag.nodes rc) {fs : List SortFunc}
    {sw : ScoreWeights} {C k k' : Nat} {b : TaggedBundle} (hfs : Permuting fs) (hok : w.Ok dag.nodes prev)
    (hcl : w.Closed) (h : rolloutCycle rc dag fs sw C w k = .ok (w', k', b)) :
    ∃ v order, w.Like v ∧ Orders dag.nodes.length v order ∧ replay rc dag order v k = .ok (w', k', b) := by
  simp only [rolloutCycle] at h
  split at h
  · cases h
  · split at h
    · cases h
    · obtain ⟨⟨v, best⟩, hb, h⟩ := bind_eq_ok.mp h
      have horders : ∀ o ∈ fs.map fun f => f C ⟨w.alloc, k / dag.nodes.length⟩ w.place.val
          (w.dag.val.ready dag.nodes.length), Orders dag.nodes.length w o := by
        intro o hm
        obtain ⟨f, hf, rfl⟩ := List.mem_map.mp hm
        exact ⟨hfs f hf _ _ _ _⟩
      obtain ⟨hl, hbest⟩ := bestOrder_like hw h1 hok hcl horders hb
      cases best with
      | none => cases h
      | some order =>
          rcases hbest with hbest | ⟨o, hm, hbest⟩
          · cases hbest
          · cases hbest
            exact ⟨v, order, hl, ⟨hl.dag ▸ (horders order hm).perm⟩, h⟩

/-- The cycle placed for real. -/
theorem replay_cases (hw : Dag.WellFormed dag.nodes) (h1 : OneWriter dag.nodes rc) {k k' : Nat} {b : TaggedBundle}
    (hok : w.Ok dag.nodes prev) (ho : Orders dag.nodes.length w order)
    (h : replay rc dag order w k = .ok (w', k', b)) :
    ∃ v s M, runCycle rc dag.nodes true order { w with pool := .fresh } = .ok (v, s) ∧
      NodeSteps rc dag.nodes { w with pool := .fresh } (fun _ => none) order v M ∧ FuncUnitPool.Inv M v.pool ∧
      endCycle dag.nodes.length v = .ok w' ∧ emitBundle v.pool.bundle = .ok b ∧ k' = k + s.committed ∧
      s.committed + w.count dag.nodes.length = v.count dag.nodes.length := by
  obtain ⟨⟨v, s⟩, hrun, h⟩ := bind_eq_ok.mp h
  obtain ⟨w'', hend, h⟩ := bind_eq_ok.mp h
  obtain ⟨b', hb, h⟩ := bind_eq_ok.mp h
  cases h
  have hok' : ({ w with pool := .fresh } : World).Ok dag.nodes prev := hok.of_vals rfl rfl rfl
  have ho' : Orders dag.nodes.length ({ w with pool := .fresh } : World) order := ⟨ho.perm⟩
  rcases runCycle_ok hw h1 hok' ho' true rfl with ⟨v', s', M, hrun', hsteps, hfit, hcount⟩ | ⟨-, herr⟩
  · cases hrun.symm.trans hrun'
    refine ⟨v, s, M, hrun, hsteps, hfit, hend, ?_, rfl, hcount⟩
    obtain ⟨u, hu, -, -, -, -, hpool, -⟩ := (hsteps.ok hw h1 hok').endCycle
    cases hend.symm.trans hu
    rwa [← hpool]
  · cases hrun.symm.trans herr

theorem start_ok {pinned : List String} {is : List (Instr Operand)} (hdag : DagOf pinned is dag)
    {a : RegisterAllocator} (ha : a.tab.val.Inv) (hfree : ∀ i t, WritesTag is i t → a.tab.val.assigned t = none)
    (hlog : a.tab.log = none) :
    (World.start dag a).Ok dag.nodes (World.start dag a).dag.val.committed ∧ (World.start dag a).Closed := by
  have hst : (World.start dag a).dag = ⟨.initial dag.nodes, none⟩ := hdag.st
  have hc : ∀ i, (World.start dag a).dag.val.committed i = false := by
    intro i
    rw [hst]
    rfl
  refine ⟨?_, by rw [hst], rfl, hlog⟩
  constructor
  case alloc => exact ha
  case dag =>
    rw [hst]
    exact Dag.initial_inv
  case lanes_pending =>
    intro i n _ _ hk
    show 0 < (classify n.instr.op).lanesTotal
    revert hk
    cases n.instr.op <;> simp [classify, Op.engine, Op.isGather, VLEN]
  case lanes_done =>
    intro i n _ h
    rw [hc] at h
    cases h
  case lanes_debug => exact fun _ _ => rfl
  case lanes_ready => exact fun h => absurd h (Nat.lt_irrefl 0)
  case sticky =>
    intro i n d hi hd _ hs
    rw [show (World.start dag a).alloc = a from rfl, hfree i d.base ⟨n.instr, d, hdag.instr hi, hd, rfl⟩] at hs
    cases hs

theorem RolloutReached.ok {pinned : List String} {is : List (Instr Operand)} (hs : SingleWriter pinned is rc)
    (hdag : DagOf pinned is dag) {fs : List SortFunc} (hfs : Permuting fs) {sw : ScoreWeights} {a : RegisterAllocator}
    (ha : a.tab.val.Inv) (hfree : ∀ i t, WritesTag is i t → a.tab.val.assigned t = none) (hlog : a.tab.log = none)
    {bs : List TaggedBundle} {k : Nat} (h : RolloutReached rc dag fs sw a bs w k) :
    w.Ok dag.nodes w.dag.val.committed ∧ w.Closed := by
  have h1 : OneWriter dag.nodes rc := hdag.oneWriter hs
  induction h with
  | start => exact start_ok hdag ha hfree hlog
  | cycle _ _ hcyc ih =>
      obtain ⟨hok, hcl⟩ := ih
      obtain ⟨v, order, hl, ho, hrep⟩ := rolloutCycle_cases hdag.wf h1 hfs hok hcl hcyc
      have hokv := hok.like hl
      have hclv := hcl.like hl
      obtain ⟨u, s, M, -, hsteps, -, hend, -⟩ := replay_cases hdag.wf h1 hokv ho hrep
      have hokv' : ({ v with pool := .fresh } : World).Ok dag.nodes _ := hokv.of_vals rfl rfl rfl
      obtain ⟨hok', hcl', -⟩ := cycle_ok hdag.wf h1 hokv' ⟨hclv.dag, hclv.place, hclv.alloc⟩ hsteps hend
      exact ⟨hok', hcl'⟩

/-- A trial of any order of the ready nodes, in any state that a rollout run reaches, can be rolled
back and leaves no trace; it raises only on a tag without a read count. -/
theorem trial_leaves_no_trace {pinned : List String} {is : List (Instr Operand)} (hs : SingleWriter pinned is rc)
    (hdag : buildDag is pinned = .ok dag) {a : RegisterAllocator} (ha : a.tab.val.Inv) (hlog : a.tab.log = none)
    (hfree : ∀ i t, WritesTag is i t → a.tab.val.assigned t = none) {fs : List SortFunc} (hfs : Permuting fs)
    {sw : ScoreWeights} {bs : List TaggedBundle} {k : Nat} (hw : RolloutReached rc dag fs sw a bs w k)
    (ho : order.Perm (w.dag.val.ready dag.nodes.length)) :
    (∃ t s w', simulate rc dag order w.checkpoint = .ok (t, s) ∧ w.rollback rc t = .ok w' ∧
      w'.dag = ⟨w.dag.val, none⟩ ∧ w'.place = ⟨w.place.val, none⟩ ∧ w'.alloc.tab = ⟨w.alloc.tab.val, none⟩) ∨
    ((∃ i ∈ order, Uncounted rc dag.nodes i) ∧ simulate rc dag order w.checkpoint = .error .keyError) := by
  have hof : DagOf pinned is dag := .of_ok hs hdag
  obtain ⟨hok, hcl⟩ := hw.ok hs hof hfs ha hfree hlog
  rcases simulate_rollback hof.wf (hof.oneWriter hs) hok hcl ⟨ho⟩ with ⟨t, s, w', ht, hr, hl⟩ | hu
  · refine .inl ⟨t, s, w', ht, hr, ?_, ?_, ?_⟩
    · rw [hl.dag, ← hcl.dag]
    · rw [hl.place, ← hcl.place]
    · rw [hl.tab, ← hcl.alloc]
  · exact .inr hu

/-- Two constants, a sum and a store. -/
def smallProgram : List (Instr Operand) :=
  [⟨0, .const (.sym ⟨"x", false⟩) 5⟩, ⟨1, .const (.sym ⟨"y", false⟩) 7⟩,
    ⟨2, .alu .add (.sym ⟨"z", false⟩) (.sym ⟨"x", false⟩) (.sym ⟨"y", false⟩)⟩,
    ⟨3, .vBroadcast (.sym ⟨"v", true⟩) (.sym ⟨"z", false⟩)⟩,
    ⟨4, .vStore (.sym ⟨"x", false⟩) (.sym ⟨"v", true⟩)⟩]

/-- The trial of the reversed order in the first cycle of the small program. -/
theorem trial_leaves_no_trace_small : ∃ is rc dag t s w', tagRawChains smallProgram PINNED = .ok (is, rc) ∧
    buildDag is PINNED = .ok dag ∧ simulate rc dag [1, 0] (World.start dag .init).checkpoint = .ok (t, s) ∧
    (World.start dag .init).rollback rc t = .ok w' ∧ w'.dag = ⟨(World.start dag .init).dag.val, none⟩ ∧
    w'.alloc.tab = ⟨Tables.init, none⟩ := by
  have hrun : (do
      let (is, rc) ← tagRawChains smallProgram PINNED
      let dag ← buildDag is PINNED
      let x ← simulate rc dag [1, 0] (World.start dag .init).checkpoint
      .ok (x.1.place.val.lanesDone 1, (World.start dag .init).dag.val.ready dag.nodes.length)) =
      (.ok (1, [0, 1]) : Except PyErr (Nat × List Nat)) := by decide +kernel
  obtain ⟨⟨is, rc⟩, htag, hrun⟩ := bind_eq_ok.mp hrun
  obtain ⟨dag, hdag, hrun⟩ := bind_eq_ok.mp hrun
  obtain ⟨⟨t, s⟩, ht, hrun⟩ := bind_eq_ok.mp hrun
  obtain ⟨-, hready⟩ := Prod.mk.inj (Except.ok.inj hrun)
  have hs := (tagRawChains_tagged pinned_noHash htag).toSingleWriter
  have hreached : RolloutReached rc dag [] {} .init [] (World.start dag .init) 0 := .start
  have ho : [1, 0].Perm ((World.start dag .init).dag.val.ready dag.nodes.length) := by
    rw [hready]
    exact List.Perm.swap 0 1 []
  rcases trial_leaves_no_trace hs hdag Tables.Inv.init rfl (fun _ _ _ => rfl) (fun _ h => by cases h) hreached ho with
    ⟨t', s', w', ht', hr, hd, hp, ha⟩ | ⟨-, herr⟩
  · exact ⟨is, rc, dag, t', s', w', htag, hdag, ht', hr, hd, ha⟩
  · cases ht.symm.trans herr

end
end Vliw
