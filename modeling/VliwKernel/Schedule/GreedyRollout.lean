import VliwKernel.Schedule.Emission
import VliwKernel.Schedule.GreedyRun

/-!
# Greedy and rollout agree

With the weighted greedy order as its only trial the rollout scheduler takes the decisions of the
greedy scheduler: cycle by cycle the same order, the same bundle and the same state.
-/

namespace Vliw
open RegisterAllocator

variable {rc : Sym → Option Int} {nodes : List DNode} {prev : Nat → Bool} {w v w' : World} {order : List Nat}

section stuck

variable {M : Ledger}

theorem used_eq {p : FuncUnitPool} (h : FuncUnitPool.Inv M p) {e : Engine} (he : e ≠ .debug) :
    p.used e = (FuncUnitPool.slots p.bundle e).length := by
  have := h.free he
  simp only [FuncUnitPool.used]
  omega

theorem used_sum_pos {p : FuncUnitPool} (h : FuncUnitPool.Inv M p) {e : Engine} (he : e ≠ .debug) {x : Entry}
    (hx : x ∈ FuncUnitPool.slots p.bundle e) : 0 < (poolEngines.map p.used).sum := by
  have hpos := List.length_pos_of_mem hx
  simp only [poolEngines, List.map_cons, List.map_nil, List.sum_cons, List.sum_nil, used_eq h, ne_eq, reduceCtorEq,
    not_false_eq_true]
  cases e with
  | debug => exact absurd rfl he
  | _ => omega

theorem not_stuck_of_landing (hw : Dag.WellFormed nodes) (h1 : OneWriter nodes rc) (hok : w.Ok nodes prev)
    (ho : Orders nodes.length w order) {s : Stats} (hsteps : NodeSteps rc nodes w (fun _ => none) order w' M)
    (hinv : FuncUnitPool.Inv M w'.pool) (hcount : s.committed + w.count nodes.length = w'.count nodes.length) {j : Nat}
    (hj : M j ≠ none) : stuck w' s = false ∧ (emitted w'.pool.bundle).keys.isEmpty = false := by
  obtain ⟨l, hl⟩ := Option.ne_none_iff_exists'.mp hj
  have hland := hsteps.landed hw h1 hok ho.nodup rfl hl
  obtain ⟨e, x, hx, he⟩ := hinv.mem_of_landing hl (hland.imp_right And.left)
  refine ⟨?_, emitted_ne_empty hx⟩
  rw [stuck, Bool.and_eq_false_iff]
  by_cases hk : (classify l.instr.op).kind = .debug
  · refine .inr (decide_eq_false ?_)
    rcases hland with hlt | ⟨-, hlt⟩
    · cases hinv.realised hl with
      | whole hlo hhi _ _ =>
          have htot : (classify l.instr.op).lanesTotal = 0 := by
            revert hk
            cases l.instr.op <;> simp [classify, Op.engine, Op.isGather]
          omega
      | lanes hk' _ => rcases hk' with hk' | hk' <;> simp [hk] at hk'
    · omega
  · have := used_sum_pos hinv (he hk) hx
    exact .inl (decide_eq_false (by omega))

/-- A cycle is stuck exactly when nothing landed, and then its bundle is empty. -/
theorem stuck_cases (hw : Dag.WellFormed nodes) (h1 : OneWriter nodes rc) (hok : w.Ok nodes prev)
    (ho : Orders nodes.length w order) (hpool : w.pool = .fresh) {s : Stats}
    (hsteps : NodeSteps rc nodes w (fun _ => none) order w' M) (hinv : FuncUnitPool.Inv M w'.pool)
    (hcount : s.committed + w.count nodes.length = w'.count nodes.length) :
    (stuck w' s = true ∧ (emitted w'.pool.bundle).keys.isEmpty = true ∧ s.committed = 0) ∨
      (stuck w' s = false ∧ (emitted w'.pool.bundle).keys.isEmpty = false) := by
  by_cases hM : ∀ j, M j = none
  · obtain ⟨hdag, -, hp⟩ := hsteps.idle hw hok.dag hM
    rw [hpool] at hp
    have hc : s.committed = 0 := by
      rw [World.count, World.count, hdag] at hcount
      omega
    refine .inl ⟨?_, by rw [hp]; rfl, hc⟩
    rw [stuck, hp, hc]
    decide
  · obtain ⟨j, hj⟩ := not_forall.mp hM
    exact .inr (not_stuck_of_landing hw h1 hok ho hsteps hinv hcount hj)

end stuck
section agreement

variable {dag : Dag} {wts : Weights} {sw : ScoreWeights} {C k : Nat}

theorem pressuredKey_congr {a b : RegisterAllocator} (h : SameTab a b) (p : PlaceState) (i : Nat) :
    pressuredKey dag wts a p i = pressuredKey dag wts b p i := by
  simp only [pressuredKey, freeingRead, h]

theorem orders_sorted {l : List Nat} (h : l.Perm (w.dag.val.ready nodes.length)) :
    l.mergeSort = w.dag.val.ready nodes.length := by
  refine List.Perm.eq_of_pairwise (fun a b _ _ => Nat.le_antisymm) ?_ ((ready_pairwise _ _).imp Nat.le_of_lt)
    ((List.mergeSort_perm _ _).trans h)
  have htrans : ∀ a b c : Nat, decide (a ≤ b) = true → decide (b ≤ c) = true → decide (a ≤ c) = true := by
    intro a b c
    simpa using Nat.le_trans
  have htotal : ∀ a b : Nat, (decide (a ≤ b) || decide (b ≤ a)) = true := by
    intro a b
    simpa using Nat.le_total a b
  simpa using List.pairwise_mergeSort htrans htotal l

/-- The error with which both schedulers give up. -/
def BothFail (nodes : List DNode) (rc : Sym → Option Int) (e e' : PyErr) : Prop :=
  (e.isRuntimeError = true ∧ e'.isRuntimeError = true) ∨
    (e = .keyError ∧ e' = .keyError ∧ ∃ i, Uncounted rc nodes i)

theorem trial_scored (sw : ScoreWeights) {t : World} {s : Stats} (hs : simulate rc dag order w.checkpoint = .ok (t, s))
    (hr : w.rollback rc t = .ok w') :
    ∃ sc, trial rc dag sw order w = .ok (w', sc) ∧ (⊥ < sc ↔ stuck t s = false) := by
  simp only [trial, hs, bind_ok, hr]
  refine ⟨_, rfl, ?_⟩
  split
  · next h => simp [h]
  · next h => simpa using h

/-- The trial of the order that the greedy scheduler takes: it is scored unless the cycle is stuck. -/
theorem trial_twin (sw : ScoreWeights) (hw : Dag.WellFormed dag.nodes) (h1 : OneWriter dag.nodes rc) (hok : w.Ok dag.nodes prev)
    (hcl : w.Closed) (hl : w.Like v) (ho : Orders dag.nodes.length w order) :
    (runCycle rc dag.nodes true order { w with pool := .fresh } = .error .keyError →
      trial rc dag sw order v = .error .keyError) ∧
    ∀ w₁ s, runCycle rc dag.nodes true order { w with pool := .fresh } = .ok (w₁, s) →
      ∃ v₁ sc, trial rc dag sw order v = .ok (v₁, sc) ∧ w.Like v₁ ∧ (⊥ < sc ↔ stuck w₁ s = false) := by
  have hokv := hok.like hl
  have hov : Orders dag.nodes.length v order := ⟨hl.dag ▸ ho.perm⟩
  have htwin : World.Twin false v.checkpoint { w with pool := .fresh } :=
    ⟨show v.alloc.tab.val = w.alloc.tab.val from congrArg Logged.val hl.tab,
      show v.place.val = w.place.val from congrArg Logged.val hl.place, fun _ => .fresh, fun h => by cases h⟩
  have hagree := runNodes_twin (M := fun _ => none) hw h1 htwin ho.nodup
    (hok.of_vals rfl rfl rfl) (fun i hi => ⟨ho.frontier hi, rfl⟩) FuncUnitPool.Inv.fresh .zero
  have hroll := simulate_rollback hw h1 hokv (hcl.like hl) hov
  simp only [runCycle_eq]
  refine ⟨fun herr => ?_, fun w₁ s hrun => ?_⟩
  · cases hr : order.foldlM (runNode rc dag.nodes true) ({ w with pool := .fresh }, .zero) with
    | ok p =>
        rw [hr] at herr
        cases herr
    | error e =>
        rw [hr] at herr
        obtain rfl : e = .keyError := Except.error.inj herr
        simp only [trial, simulate, runCycle_eq, hagree.of_error hr]
        rfl
  · cases hr : order.foldlM (runNode rc dag.nodes true) ({ w with pool := .fresh }, .zero) with
    | error e =>
        rw [hr] at hrun
        cases hrun
    | ok p =>
        obtain ⟨w₁, s⟩ := p
        rw [hr] at hrun hagree
        cases hrun
        obtain ⟨⟨t, s'⟩, hd, ht, hs⟩ := hagree.of_ok rfl
        dsimp only at ht hs
        subst hs
        rcases hroll with ⟨t', s₁, v₁, hsim, hv₁, hlv⟩ | ⟨-, herr⟩
        · have hsim₀ := hsim
          simp only [simulate, runCycle_eq, hd, Except.map, bind_ok, Except.ok.injEq, Prod.mk.injEq] at hsim
          obtain ⟨rfl, rfl⟩ := hsim
          have hused : ∀ e, t.pool.used e = w₁.pool.used e := by
            intro e
            simp only [FuncUnitPool.used, (ht.dry rfl).free]
          have hstuck : stuck { t with dag := (Dag.advance dag.nodes.length t.dag).1 } { s' with
              allocs := (t.alloc.nAlloc : Int) - v.checkpoint.alloc.nAlloc
              frees := (t.alloc.nFree : Int) - v.checkpoint.alloc.nFree } = stuck w₁ { s' with
              allocs := (w₁.alloc.nAlloc : Int) - w.alloc.nAlloc
              frees := (w₁.alloc.nFree : Int) - w.alloc.nFree } := by
            simp only [stuck, funext hused]
          obtain ⟨sc, hsc, hlt⟩ := trial_scored sw hsim₀ hv₁
          rw [hstuck] at hlt
          exact ⟨v₁, sc, hsc, hl.trans hlv, hlt⟩
        · simp [simulate, runCycle_eq, hd, Except.map] at herr

/-- The real cycle of the rollout scheduler, after its trial, does what the cycle of the greedy one did. -/
theorem replay_twin (hw : Dag.WellFormed dag.nodes) (hok : w.Ok dag.nodes prev) (h1 : OneWriter dag.nodes rc)
    (hcl : w.Closed) (hl : w.Like v) (ho : Orders dag.nodes.length w order) {w₁ : World} {s : Stats}
    (hrun : runCycle rc dag.nodes true order { w with pool := .fresh } = .ok (w₁, s)) :
    ∃ w' v' b, endCycle dag.nodes.length w₁ = .ok w' ∧ emitBundle w₁.pool.bundle = .ok b ∧
      replay rc dag order v k = .ok (v', k + s.committed, b) ∧ w'.Like v' ∧
      w'.Ok dag.nodes w'.dag.val.committed ∧ w'.Closed ∧
      s.committed + w.count dag.nodes.length = w'.count dag.nodes.length := by
  have hok₀ : ({ w with pool := .fresh } : World).Ok dag.nodes prev := hok.of_vals rfl rfl rfl
  have ho₀ : Orders dag.nodes.length { w with pool := .fresh } order := ⟨ho.perm⟩
  have hcl₀ : ({ w with pool := .fresh } : World).Closed := ⟨hcl.dag, hcl.place, hcl.alloc⟩
  rcases runCycle_ok hw h1 hok₀ ho₀ true rfl with ⟨x, s', M, hrun', hsteps, hfit, hcount⟩ | ⟨-, herr⟩
  case inr => cases hrun.symm.trans herr
  cases hrun.symm.trans hrun'
  obtain ⟨w', hend, -, -, hc, -, -, -⟩ := (hsteps.ok hw h1 hok₀).endCycle
  obtain ⟨hok', hcl', -⟩ := cycle_ok hw h1 hok₀ hcl₀ hsteps hend
  have htwin : World.Twin true { v with pool := .fresh } { w with pool := .fresh } :=
    ⟨show v.alloc.tab.val = w.alloc.tab.val from congrArg Logged.val hl.tab,
      show v.place.val = w.place.val from congrArg Logged.val hl.place, (fun h => by cases h), fun _ => ⟨hl.dag, hl.place, rfl⟩⟩
  have hagree := runNodes_twin (M := fun _ => none) hw h1 htwin ho.nodup hok₀
    (fun i hi => ⟨ho.frontier hi, rfl⟩) FuncUnitPool.Inv.fresh .zero
  have hrun₀ := hrun
  rw [runCycle_eq] at hrun₀
  cases hf : order.foldlM (runNode rc dag.nodes true) ({ w with pool := .fresh }, .zero) with
  | error e =>
      rw [hf] at hrun₀
      cases hrun₀
  | ok p =>
      rw [hf] at hrun₀ hagree
      obtain ⟨⟨v₁, s₁⟩, hv₁, ht, hs⟩ := hagree.of_ok rfl
      dsimp only at ht hs
      subst hs
      cases hrun₀
      have hendt := endCycle_twin ht dag.nodes.length
      rw [hend] at hendt
      obtain ⟨v', hend', ht'⟩ := hendt.of_ok rfl
      obtain ⟨hd, hp, hq⟩ := ht'.same rfl
      have hpool : w'.pool = p.1.pool := by
        obtain ⟨u, hu, -, -, -, -, hpool, -⟩ := (hsteps.ok hw h1 hok₀).endCycle
        cases hend.symm.trans hu
        exact hpool
      have hrep : replay rc dag order v k = .ok (v', k + p.2.committed, emitted p.1.pool.bundle) := by
        simp only [replay, runCycle_eq, hv₁, Except.map, bind_ok, hend', hq, hpool, hfit.emits]
      have hclv' : v'.Closed := by
        have hov : Orders dag.nodes.length v order := ⟨hl.dag ▸ ho.perm⟩
        have hokv : v.Ok dag.nodes prev := hok.like hl
        have hclv := hcl.like hl
        obtain ⟨u, s', M', -, hsteps', -, hend'', -⟩ := replay_cases hw h1 hokv hov hrep
        have hokv₀ : ({ v with pool := .fresh } : World).Ok dag.nodes prev := hokv.of_vals rfl rfl rfl
        exact (cycle_ok hw h1 hokv₀ ⟨hclv.dag, hclv.place, hclv.alloc⟩ hsteps' hend'').2.1
      have htab : v'.alloc.tab = w'.alloc.tab := by
        refine Logged.ext ?_ (hclv'.alloc.trans hcl'.alloc.symm)
        exact ht'.tab
      exact ⟨w', v', _, hend, hfit.emits, hrep, ⟨hd, hp, htab⟩, hok', hcl', by rw [World.count, World.count, hc]; exact hcount⟩

/-- One cycle of the greedy scheduler beside one of the rollout scheduler with the greedy order as its
only trial. -/
theorem cycle_agree (wts : Weights) (sw : ScoreWeights) (C : Nat) (hw : Dag.WellFormed dag.nodes) (h1 : OneWriter dag.nodes rc) (hraw : RawOnly dag.nodes)
    (hok : w.Ok dag.nodes prev) (hcl : w.Closed) (hl : w.Like v) (hk : k = w.count dag.nodes.length)
    (hlt : k < dag.nodes.length) :
    (∃ w' v' k' b, greedyCycle rc dag.nodes (weightedPicker dag wts) C w k = .ok (w', k', b) ∧
      rolloutCycle rc dag [weightedGreedy dag wts] sw C v k = .ok (v', k', b) ∧ w'.Like v' ∧
      w'.Ok dag.nodes w'.dag.val.committed ∧ w'.Closed ∧ k' = w'.count dag.nodes.length) ∨
    ∃ e e', greedyCycle rc dag.nodes (weightedPicker dag wts) C w k = .error e ∧
      rolloutCycle rc dag [weightedGreedy dag wts] sw C v k = .error e' ∧ BothFail dag.nodes rc e e' := by
  have hok₀ : ({ w with pool := .fresh } : World).Ok dag.nodes prev := hok.of_vals rfl rfl rfl
  obtain ⟨order, horder⟩ : ∃ order, order = (w.dag.val.ready dag.nodes.length).mergeSort fun i j =>
      weightedPicker dag wts C { w with pool := .fresh } i ≤ weightedPicker dag wts C { w with pool := .fresh } j :=
    ⟨_, rfl⟩
  have hperm : order.Perm (w.dag.val.ready dag.nodes.length) := horder ▸ List.mergeSort_perm _ _
  have hord : Orders dag.nodes.length w order := ⟨hperm⟩
  have ho₀ : Orders dag.nodes.length { w with pool := .fresh } order := ⟨hperm⟩
  have hdag : v.dag = w.dag := hl.dag
  have horder' : weightedGreedy dag wts C ⟨v.alloc, (k : ℚ) / dag.nodes.length⟩ v.place.val
      (w.dag.val.ready dag.nodes.length) = order := by
    have htab : SameTab v.alloc w.alloc := congrArg Logged.val hl.tab
    rw [horder, weightedGreedy, show v.place.val = w.place.val from congrArg Logged.val hl.place]
    simp only [pressuredKey_congr htab, weightedPicker]
    rfl
  rw [greedyCycle_eq hw h1 hraw hok _ C k horder]
  simp only [rolloutCycle, List.map_cons, List.map_nil, horder', List.all_cons, List.all_nil, hdag,
    orders_sorted hperm, decide_true, Bool.and_self, not_true_eq_false, and_false, if_false]
  split
  · exact .inr ⟨_, _, rfl, rfl, .inl ⟨rfl, rfl⟩⟩
  · obtain ⟨hfail, hgood⟩ := trial_twin sw hw h1 hok hcl hl hord
    rcases runCycle_ok hw h1 hok₀ ho₀ true rfl with ⟨w₁, s, M, hrun, hsteps, hfit, hcount⟩ | ⟨⟨i, -, hu⟩, herr⟩
    · obtain ⟨v₁, sc, htrial, hl₁, hsc⟩ := hgood w₁ s hrun
      obtain ⟨w', v', b, hend, hemit, hrep, hl', hok', hcl', hcount'⟩ := replay_twin (k := k) hw hok h1 hcl hl₁ hord hrun
      rcases stuck_cases hw h1 hok₀ ho₀ rfl hsteps hfit hcount with ⟨hst, hempty, hs⟩ | ⟨hst, hne⟩
      · have hnot : ¬ ⊥ < sc := fun h => by simp [hsc.mp h] at hst
        refine .inr ⟨.stuck C (w.dag.val.ready dag.nodes.length).length w₁.alloc.exhaustionWarnings,
          .deadlock C 1 (w.dag.val.ready dag.nodes.length).length v₁.alloc.tab.val.freeVec.length
            v₁.alloc.tab.val.freeScalarCount, ?_, ?_, .inl ⟨rfl, rfl⟩⟩
        · simp only [hrun, bind_ok, hfit.emits, hempty, true_and, hs, Nat.add_zero, if_pos hlt]
        · simp only [bestOrder, htrial, bind_ok, if_neg hnot]
          rfl
      · refine .inl ⟨w', v', k + s.committed, b, ?_, ?_, hl', hok', hcl', by omega⟩
        · cases hemit.symm.trans hfit.emits
          simp only [hrun, bind_ok, hfit.emits, hne, Bool.false_eq_true, false_and, if_false, hend]
        · simp only [bestOrder, htrial, bind_ok, if_pos (hsc.mpr hst), hrep]
    · refine .inr ⟨.keyError, .keyError, ?_, ?_, .inr ⟨rfl, rfl, i, hu⟩⟩
      · rw [herr]
        rfl
      · simp only [bestOrder, hfail herr]
        rfl

theorem loop_agree (wts : Weights) (sw : ScoreWeights) (hw : Dag.WellFormed dag.nodes) (h1 : OneWriter dag.nodes rc) (hraw : RawOnly dag.nodes)
    (hok : w.Ok dag.nodes prev) (hcl : w.Closed) (hl : w.Like v) (hk : k = w.count dag.nodes.length) (cap rem : Nat)
    (bundles : List TaggedBundle) :
    (∃ bs w' v', cycleLoop (greedyCycle rc dag.nodes (weightedPicker dag wts)) dag.nodes.length cap rem w k bundles = .ok (bs, w') ∧
      cycleLoop (rolloutCycle rc dag [weightedGreedy dag wts] sw) dag.nodes.length cap rem v k bundles = .ok (bs, v') ∧ w'.Like v') ∨
    ∃ e e', cycleLoop (greedyCycle rc dag.nodes (weightedPicker dag wts)) dag.nodes.length cap rem w k bundles = .error e ∧
      cycleLoop (rolloutCycle rc dag [weightedGreedy dag wts] sw) dag.nodes.length cap rem v k bundles = .error e' ∧ BothFail dag.nodes rc e e' := by
  induction rem generalizing prev w v k bundles with
  | zero =>
      unfold cycleLoop
      by_cases hlt : k < dag.nodes.length
      · simp only [if_pos hlt]
        rcases cycle_agree wts sw (cap - 0) hw h1 hraw hok hcl hl hk hlt with
          ⟨w', v', k', b, hg, hr, -⟩ | ⟨e, e', hg, hr, hf⟩
        · simp only [hg, hr, bind_ok]
          exact .inr ⟨_, _, rfl, rfl, .inl ⟨rfl, rfl⟩⟩
        · simp only [hg, hr, bind_error]
          exact .inr ⟨e, e', rfl, rfl, hf⟩
      · simp only [if_neg hlt]
        exact .inl ⟨bundles, w, v, rfl, rfl, hl⟩
  | succ rem ih =>
      unfold cycleLoop
      by_cases hlt : k < dag.nodes.length
      · simp only [if_pos hlt]
        rcases cycle_agree wts sw (cap - (rem + 1)) hw h1 hraw hok hcl hl hk hlt with
          ⟨w', v', k', b, hg, hr, hl', hok', hcl', hk'⟩ | ⟨e, e', hg, hr, hf⟩
        · simp only [hg, hr, bind_ok]
          exact ih hok' hcl' hl' hk' (bundles ++ [b])
        · simp only [hg, hr, bind_error]
          exact .inr ⟨e, e', rfl, rfl, hf⟩
      · simp only [if_neg hlt]
        exact .inl ⟨bundles, w, v, rfl, rfl, hl⟩

end agreement

/-- The greedy scheduler and the rollout scheduler with one trial return the same bundles and leave the
same register tables, or both give up. Only a program that writes a pinned symbol, which has no read
count, makes them raise anything but a `RuntimeError`. -/
theorem greedy_rollout_agree {pinned : List String} {instrs is : List (Instr Operand)} {dag : Dag} (hpinned : NoHash pinned)
    (htag : tagRawChains instrs pinned = .ok (is, rc)) (hdag : buildDag is pinned = .ok dag) (wts : Weights)
    (shuffle : Nat → SortFunc) :
    (∃ bs w v, schedule dag rc (weightedPicker dag wts) none .init = .ok (bs, w) ∧
      scheduleRollout dag rc (defaultSortFuncs dag wts 1 shuffle) {} none .init = .ok (bs, v) ∧
      v.alloc.tab.val = w.alloc.tab.val) ∨
    ∃ e e', schedule dag rc (weightedPicker dag wts) none .init = .error e ∧
      scheduleRollout dag rc (defaultSortFuncs dag wts 1 shuffle) {} none .init = .error e' ∧
      ((e.isRuntimeError = true ∧ e'.isRuntimeError = true) ∨
        (e = .keyError ∧ e' = .keyError ∧ ∃ i t, WritesTag is i t ∧ isPinned pinned t = true)) := by
  have htagged := tagRawChains_tagged hpinned htag
  have hs := htagged.toSingleWriter
  have hof : DagOf pinned is dag := DagOf.of_ok hs hdag
  have h1 : OneWriter dag.nodes rc := hof.oneWriter hs
  obtain ⟨hok, hcl⟩ := start_ok hof Tables.Inv.init (a := .init) (fun _ _ _ => rfl) rfl
  have hk : 0 = (World.start dag .init).count dag.nodes.length := by
    have hst : (World.start dag .init).dag = ⟨.initial dag.nodes, none⟩ := hof.st
    rw [World.count, hst]
    exact (List.countP_eq_zero.mpr fun i _ => by simp [DagState.initial]).symm
  rcases loop_agree wts {} hof.wf h1 hof.rawOnly hok hcl (.refl _) hk (dag.nodes.length + 1)
      (dag.nodes.length + 1) [] with ⟨bs, w', v', hg, hr, hl⟩ | ⟨e, e', hg, hr, hf⟩
  · exact .inl ⟨bs, w', v', hg, hr, congrArg Logged.val hl.tab⟩
  · refine .inr ⟨e, e', hg, hr, hf.imp_right ?_⟩
    rintro ⟨he, he', i, node, d, hn, hd, hrc⟩
    refine ⟨he, he', i, d.base, ⟨node.instr, d, hof.instr hn, hd, rfl⟩, ?_⟩
    by_contra hp
    rw [htagged.count (eq_false_of_ne_true hp) ⟨node.instr, d, hof.instr hn, hd, rfl⟩] at hrc
    cases hrc

def smallWeights : Weights := ⟨1, 1, 1, 1, 1, 1000⟩

/-- The small program runs through both schedulers, which agree on it. -/
theorem greedy_rollout_agree_small : ∃ is rc dag bs w v, tagRawChains smallProgram PINNED = .ok (is, rc) ∧
    buildDag is PINNED = .ok dag ∧ schedule dag rc (weightedPicker dag smallWeights) none .init = .ok (bs, w) ∧
    scheduleRollout dag rc (defaultSortFuncs dag smallWeights 1 fun _ => weightedGreedy dag smallWeights) {} none .init = .ok (bs, v) ∧
    v.alloc.tab.val = w.alloc.tab.val := by
  have hrun : (do
      let (is, rc) ← tagRawChains smallProgram PINNED
      let dag ← buildDag is PINNED
      let (bs, _) ← schedule dag rc (weightedPicker dag smallWeights) none .init
      .ok bs.length) = (.ok 4 : Except PyErr Nat) := by decide +kernel
  obtain ⟨⟨is, rc⟩, htag, hrun⟩ := bind_eq_ok.mp hrun
  obtain ⟨dag, hdag, hrun⟩ := bind_eq_ok.mp hrun
  obtain ⟨⟨bs, w⟩, hg, -⟩ := bind_eq_ok.mp hrun
  rcases greedy_rollout_agree pinned_noHash htag hdag smallWeights fun _ => weightedGreedy dag smallWeights with
    ⟨bs', w', v, hg', hr, htab⟩ | ⟨e, e', herr, -, -⟩
  · cases hg.symm.trans hg'
    exact ⟨is, rc, dag, bs, w, v, htag, hdag, hg, hr, htab⟩
  · cases hg.symm.trans herr

def pinnedWrite : List (Instr Operand) := [⟨0, .const (.sym ⟨"const_vec_0", true⟩) 0⟩]

/-- The pinned constant has no read count: both schedulers raise `KeyError`. -/
theorem pinned_write_keyError : ∃ is rc dag, tagRawChains pinnedWrite PINNED = .ok (is, rc) ∧
    buildDag is PINNED = .ok dag ∧ schedule dag rc (weightedPicker dag smallWeights) none .init = .error .keyError ∧
    scheduleRollout dag rc (defaultSortFuncs dag smallWeights 1 fun _ => weightedGreedy dag smallWeights) {} none .init =
      .error .keyError ∧ PyErr.keyError.isRuntimeError = false := by
  have hrun : (do
      let (is, rc) ← tagRawChains pinnedWrite PINNED
      let dag ← buildDag is PINNED
      .ok (match schedule dag rc (weightedPicker dag smallWeights) none .init with
        | .ok _ => none
        | .error e => some e)) = (.ok (some .keyError) : Except PyErr (Option PyErr)) := by decide +kernel
  obtain ⟨⟨is, rc⟩, htag, hrun⟩ := bind_eq_ok.mp hrun
  obtain ⟨dag, hdag, hrun⟩ := bind_eq_ok.mp hrun
  have hroll : (do
      let (is, rc) ← tagRawChains pinnedWrite PINNED
      let dag ← buildDag is PINNED
      .ok (match scheduleRollout dag rc (defaultSortFuncs dag smallWeights 1 fun _ => weightedGreedy dag smallWeights)
          {} none .init with
        | .ok _ => none
        | .error e => some e)) = (.ok (some .keyError) : Except PyErr (Option PyErr)) := by decide +kernel
  simp only [htag, hdag, bind_ok] at hroll
  refine ⟨is, rc, dag, htag, hdag, ?_, ?_, rfl⟩
  · revert hrun
    cases schedule dag rc (weightedPicker dag smallWeights) none .init <;> simp
  · revert hroll
    cases scheduleRollout dag rc (defaultSortFuncs dag smallWeights 1 fun _ => weightedGreedy dag smallWeights) {} none
      .init <;> simp

end Vliw
