import VliwKernel.Schedule.Awake
import VliwKernel.Schedule.Progress
import VliwKernel.Schedule.Runs
import VliwKernel.Schedule.Workload

/-!
# The schedulers terminate

Every cycle that is not stuck takes something off what is left, at first one for each instruction and three more
for each gather. So both schedulers return within that many cycles or find a deadlock.
-/

namespace Vliw
open RegisterAllocator

variable {pinned : List String} {is is' : List (Instr Operand)} {rc rc' : Sym → Option Int} {dag : Dag}
  {prev : Nat → Bool} {w w' v : World} {order : List Nat} {k : Nat}

section loop

variable {cycle : Nat → World → Nat → Except PyErr (World × Nat × TaggedBundle)} {n : Nat} {P : World → Nat → Prop}
  {measure : World → Nat} {E : PyErr → Prop}

/-- A loop each cycle of which either lowers a measure or raises returns within as many cycles as the measure says. -/
theorem cycleLoop_within
    (hstep : ∀ {C w k}, P w k → k < n →
      (∃ w' k' b, cycle C w k = .ok (w', k', b) ∧ P w' k' ∧ measure w' < measure w) ∨ ∃ e, cycle C w k = .error e ∧ E e)
    (hpos : ∀ {w k}, P w k → k < n → 0 < measure w) (cap rem : Nat) (bundles : List TaggedBundle) (h : P w k)
    (hrem : measure w ≤ rem) :
    (∃ bs w' k', cycleLoop cycle n cap rem w k bundles = .ok (bs, w') ∧ P w' k' ∧ n ≤ k' ∧
      bs.length ≤ bundles.length + measure w) ∨ ∃ e, cycleLoop cycle n cap rem w k bundles = .error e ∧ E e := by
  induction rem generalizing w k bundles with
  | zero =>
      have hk : ¬ k < n := fun hk => absurd (hpos h hk) (by omega)
      unfold cycleLoop
      rw [if_neg hk]
      exact .inl ⟨bundles, w, k, rfl, h, by omega, by omega⟩
  | succ rem ih =>
      unfold cycleLoop
      by_cases hk : k < n
      · rw [if_pos hk]
        rcases hstep (C := cap - (rem + 1)) h hk with ⟨w', k', b, hc, h', hlt⟩ | ⟨e, hc, he⟩
        · rw [hc, bind_ok]
          refine (ih (bundles ++ [b]) h' (by omega)).imp_left ?_
          rintro ⟨bs, w'', k'', hloop, hP, hn, hlen⟩
          refine ⟨bs, w'', k'', hloop, hP, hn, ?_⟩
          rw [List.length_append, List.length_singleton] at hlen
          omega
        · rw [hc]
          exact .inr ⟨e, rfl, he⟩
      · rw [if_neg hk]
        exact .inl ⟨bundles, w, k, rfl, h, by omega, by omega⟩

end loop
section cycle

variable {nodes : List DNode}

structure Underway (nodes : List DNode) (w : World) (k : Nat) : Prop where
  ok : w.Ok nodes w.dag.val.committed
  count : k = w.count nodes.length

theorem Underway.nonempty (h : Underway nodes w k) (hw : Dag.WellFormed nodes) (hk : k < nodes.length) :
    w.dag.val.ready nodes.length ≠ [] := by
  have hawake : Awake nodes w k := ⟨h.ok.dag, h.count.symm⟩
  exact hawake.nonempty hw hk

theorem Underway.effort_pos (h : Underway nodes w k) (hk : k < nodes.length) : 0 < w.effort nodes :=
  World.effort_pos h.ok (h.count ▸ hk)

variable (hw : Dag.WellFormed nodes) (h1 : OneWriter nodes rc) (hcounted : ∀ i, ¬ Uncounted rc nodes i)

include hw h1 hcounted

/-- A cycle of the greedy scheduler lowers what is left, or is stuck. -/
theorem greedyCycle_progress (hraw : RawOnly nodes) (key : KeyFunc) (C : Nat) (h : Underway nodes w k) (hk : k < nodes.length) :
    (∃ w' k' b, greedyCycle rc nodes key C w k = .ok (w', k', b) ∧ Underway nodes w' k' ∧ w'.effort nodes < w.effort nodes) ∨
      ∃ e, greedyCycle rc nodes key C w k = .error e ∧ ∃ C r x, e = .stuck C r x := by
  have hok₀ : ({ w with pool := .fresh } : World).Ok nodes w.dag.val.committed := h.ok.of_vals rfl rfl rfl
  have ho : Orders nodes.length { w with pool := .fresh } ((w.dag.val.ready nodes.length).mergeSort
      fun i j => key C { w with pool := .fresh } i ≤ key C { w with pool := .fresh } j) := ⟨List.mergeSort_perm _ _⟩
  rw [greedyCycle_eq hw h1 hraw h.ok key C k rfl, if_neg (by simpa using h.nonempty hw hk)]
  rcases runCycle_ok hw h1 hok₀ ho true rfl with ⟨v, s, M, hrun, hsteps, hfit, hcount⟩ | ⟨⟨i, -, hu⟩, -⟩
  · simp only [hrun, bind_ok, hfit.emits]
    split
    · exact .inr ⟨_, rfl, _, _, _, rfl⟩
    · next hstuck =>
        obtain ⟨w', hend, hok', -, hc, hp, -⟩ := (hsteps.ok hw h1 hok₀).endCycle
        have heffort : w'.effort nodes = v.effort nodes := World.effort_congr hc (by rw [hp])
        rw [hend]
        refine .inl ⟨w', _, _, rfl, ⟨hok', ?_⟩, ?_⟩
        · rw [h.count, World.count, World.count, hc]
          simp only [World.count] at hcount
          omega
        · rcases runCycle_effort hw h1 hok₀ ho rfl hrun with ⟨-, hzero, b, -, rfl⟩ | hlt
          · exact absurd ⟨rfl, by omega⟩ hstuck
          · rw [heffort]
            exact hlt
  · exact absurd hu (hcounted i)

end cycle
section rollout

variable (hw : Dag.WellFormed dag.nodes) (h1 : OneWriter dag.nodes rc) (hcounted : ∀ i, ¬ Uncounted rc dag.nodes i)
  (sw : ScoreWeights)

include hw h1 hcounted

/-- A trial succeeds and changes nothing; it is scored only if some node finds its registers. -/
theorem trial_ok (hok : w.Ok dag.nodes prev) (hcl : w.Closed) (ho : Orders dag.nodes.length w order) :
    ∃ w' sc, trial rc dag sw order w = .ok (w', sc) ∧ w.Like w' ∧
      (⊥ < sc → ∃ i ∈ order, placeable dag.nodes w.alloc i = true) := by
  rcases simulate_rollback hw h1 hok hcl ho with ⟨t, s, w', hs, hr, hl⟩ | ⟨⟨i, -, hu⟩, -⟩
  · obtain ⟨sc, htrial, hsc⟩ := trial_scored sw hs hr
    refine ⟨w', sc, htrial, hl, fun hlt => ?_⟩
    by_contra hall
    push Not at hall
    have hok' : w.checkpoint.Ok dag.nodes prev := hok.of_vals rfl rfl rfl
    have ho' : Orders dag.nodes.length w.checkpoint order := ⟨ho.perm⟩
    obtain ⟨⟨v, st⟩, hrun, hs⟩ := bind_eq_ok.mp hs
    cases hs
    have hplace : ∀ i, placeable dag.nodes w.checkpoint.alloc i = placeable dag.nodes w.alloc i :=
      placeable_congr rfl
    rw [runCycle_eq] at hrun
    obtain ⟨b, -, hnodes⟩ := @runNodes_refused rc dag.nodes w.checkpoint false order
      (fun i hi => ⟨(hok'.dag.frontier_iff.mp (ho'.frontier hi)).1, by rw [hplace]; simpa using hall i hi⟩) .zero
    rw [hnodes] at hrun
    cases hrun
    have hstuck := hsc.mp hlt
    simp [stuck, World.checkpoint, Stats.zero, poolEngines, FuncUnitPool.used, FuncUnitPool.fresh] at hstuck
  · exact absurd hu (hcounted i)

/-- The trials of a cycle succeed and change nothing; the order they pick has a node that finds its registers. -/
theorem bestOrder_ok {os : List (List Nat)} (hok : w.Ok dag.nodes prev) (hcl : w.Closed)
    (ho : ∀ o ∈ os, Orders dag.nodes.length w o) (sc : WithBot ℚ) (best : Option (List Nat)) :
    ∃ w' best', bestOrder rc dag sw os w sc best = .ok (w', best') ∧ w.Like w' ∧ (best' = best ∨ ∃ o ∈ os, best' = some o ∧
      ∃ i ∈ o, placeable dag.nodes w.alloc i = true) := by
  induction os generalizing w sc best with
  | nil => exact ⟨w, best, rfl, .refl w, .inl rfl⟩
  | cons o os ih =>
      obtain ⟨v, sc', htrial, hl, hsc⟩ := trial_ok hw h1 hcounted sw hok hcl (ho o (by simp))
      have ho' : ∀ o ∈ os, Orders dag.nodes.length v o := fun o' hm => ⟨by
        rw [hl.dag]
        exact (ho o' (by simp [hm])).perm⟩
      have hplace : ∀ i, placeable dag.nodes v.alloc i = placeable dag.nodes w.alloc i :=
        placeable_congr (congrArg Logged.val hl.tab)
      simp only [bestOrder, htrial, bind_ok]
      by_cases hlt : sc < sc'
      · obtain ⟨w', best', hb, hl', hbest⟩ := ih (hok.like hl) (hcl.like hl) ho' sc' (some o)
        refine ⟨w', best', by rw [if_pos hlt, hb], hl.trans hl', .inr ?_⟩
        rcases hbest with rfl | ⟨o', hm, rfl, i, hi, hp⟩
        · exact ⟨o, by simp, rfl, hsc (bot_le.trans_lt hlt)⟩
        · exact ⟨o', by simp [hm], rfl, i, hi, by rw [← hplace, hp]⟩
      · obtain ⟨w', best', hb, hl', hbest⟩ := ih (hok.like hl) (hcl.like hl) ho' sc best
        refine ⟨w', best', by rw [if_neg hlt, hb], hl.trans hl', hbest.imp_right ?_⟩
        rintro ⟨o', hm, rfl, i, hi, hp⟩
        exact ⟨o', by simp [hm], rfl, i, hi, by rw [← hplace, hp]⟩

/-- Of the orders tried from the lowest score on, the one picked has a node that finds its registers. -/
theorem bestOrder_picked {os : List (List Nat)} (hok : w.Ok dag.nodes prev) (hcl : w.Closed) (ho : ∀ o ∈ os, Orders dag.nodes.length w o) :
    ∃ v best, bestOrder rc dag sw os w ⊥ none = .ok (v, best) ∧ w.Like v ∧
      ∀ order, best = some order → Orders dag.nodes.length w order ∧ ∃ i ∈ order, placeable dag.nodes w.alloc i = true := by
  obtain ⟨v, best, hbo, hl, hbest⟩ := bestOrder_ok hw h1 hcounted sw hok hcl ho ⊥ none
  refine ⟨v, best, hbo, hl, fun order horder => ?_⟩
  rcases hbest with hbest | ⟨o, hm, hbest, hplace⟩
  · cases horder.symm.trans hbest
  · cases horder.symm.trans hbest
    exact ⟨ho order hm, hplace⟩

/-- A cycle of the rollout scheduler lowers what is left, or all its trials are stuck. -/
theorem rolloutCycle_progress {fs : List SortFunc} (hfs : Permuting fs) (C : Nat) (h : Underway dag.nodes w k) (hcl : w.Closed)
    (hk : k < dag.nodes.length) :
    (∃ w' k' b, rolloutCycle rc dag fs sw C w k = .ok (w', k', b) ∧ (Underway dag.nodes w' k' ∧ w'.Closed) ∧
      w'.effort dag.nodes < w.effort dag.nodes) ∨
    ∃ e, rolloutCycle rc dag fs sw C w k = .error e ∧ ∃ C o r f x, e = .deadlock C o r f x := by
  obtain ⟨orders, horders⟩ : ∃ orders, orders = fs.map fun f => f C ⟨w.alloc, k / dag.nodes.length⟩ w.place.val
      (w.dag.val.ready dag.nodes.length) := ⟨_, rfl⟩
  have ho : ∀ o ∈ orders, Orders dag.nodes.length w o := by
    intro o hm
    rw [horders] at hm
    obtain ⟨f, hf, rfl⟩ := List.mem_map.mp hm
    exact ⟨hfs f hf _ _ _ _⟩
  have hsorted : orders.all (fun o => o.mergeSort = w.dag.val.ready dag.nodes.length) = true := by
    rw [List.all_eq_true]
    exact fun o hm => decide_eq_true (orders_sorted (ho o hm).perm)
  obtain ⟨v, best, hbo, hl, hbest⟩ := bestOrder_picked hw h1 hcounted sw h.ok hcl ho
  simp only [rolloutCycle]
  rw [if_neg (by simpa using h.nonempty hw hk), ← horders, if_neg (by simp [hsorted]), hbo]
  cases best with
  | none => exact .inr ⟨_, rfl, _, _, _, _, _, rfl⟩
  | some order =>
      left
      obtain ⟨hord, i, hi, hp⟩ := hbest order rfl
      have hclv := hcl.like hl
      have hokv₀ : ({ v with pool := .fresh } : World).Ok dag.nodes w.dag.val.committed := (h.ok.like hl).of_vals rfl rfl rfl
      have hov₀ : Orders dag.nodes.length { v with pool := .fresh } order := ⟨hl.dag ▸ hord.perm⟩
      rcases runCycle_ok hw h1 hokv₀ hov₀ true rfl with ⟨u, s, M, hrun, hsteps, hfit, hcount⟩ | ⟨⟨j, -, hu⟩, -⟩
      · obtain ⟨w', hend, hok', -, hc, hpl, hpool, -⟩ := (hsteps.ok hw h1 hokv₀).endCycle
        have hcl' := (cycle_ok hw h1 hokv₀ ⟨hclv.dag, hclv.place, hclv.alloc⟩ hsteps hend).2.1
        refine ⟨w', k + s.committed, emitted u.pool.bundle, ?_, ⟨⟨hok', ?_⟩, hcl'⟩, ?_⟩
        · simp only [bind_ok, replay, hrun, hend, hpool, hfit.emits]
        · rw [h.count, World.count, World.count, hc, ← hl.dag]
          simp only [World.count] at hcount
          omega
        · rw [World.effort_congr hc (by rw [hpl])]
          have heffort : ({ v with pool := .fresh } : World).effort dag.nodes = w.effort dag.nodes :=
            World.effort_congr (congrArg (fun s => s.val.committed) hl.dag) (congrArg Logged.val hl.place)
          rcases runCycle_effort hw h1 hokv₀ hov₀ rfl hrun with ⟨hall, -⟩ | hlt
          · have := hall i hi
            rw [show ({ v with pool := .fresh } : World).alloc = v.alloc from rfl, placeable_congr (congrArg Logged.val hl.tab), hp] at this
            cases this
          · rwa [heffort] at hlt
      · exact absurd hu (hcounted j)

end rollout
section runs

/-- Bundles for at most `bound` cycles, after which every node is committed, or one of the errors `E`. -/
def Ends (nodes : List DNode) (bound : Nat) (E : PyErr → Prop) (x : Except PyErr (List TaggedBundle × World)) : Prop :=
  (∃ bs w, x = .ok (bs, w) ∧ bs.length ≤ bound ∧ ∀ i < nodes.length, w.dag.val.committed i = true) ∨ ∃ e, x = .error e ∧ E e

theorem Built.counted (hb : Built pinned is rc dag) (hpin : ∀ {i t}, WritesTag is i t → isPinned pinned t = false) (i : Nat) :
    ¬ Uncounted rc dag.nodes i := by
  rintro ⟨node, d, hn, hd, hrc⟩
  have hw := hb.writesTag hn hd
  rw [hb.tagged.count (hpin hw) hw] at hrc
  cases hrc

theorem Built.underway (hb : Built pinned is rc dag) : Underway dag.nodes (.start dag .init) 0 ∧ (World.start dag .init).Closed ∧
    (World.start dag .init).effort dag.nodes = is.length + 3 * gathers is := by
  obtain ⟨hlive, hcl, hzero⟩ := hb.start_live
  refine ⟨⟨hlive.toOk, hzero.symm⟩, hcl, ?_⟩
  have hst : (World.start dag .init).dag = ⟨.initial dag.nodes, none⟩ := hb.graph.st
  rw [World.effort_start (fun i => by rw [hst]; rfl) fun _ => rfl, hb.instrs, hb.graph.length]

/-- Both schedulers return within one cycle for each instruction and three more for each gather, with every node
committed, unless a cycle can place nothing. They raise no other error. -/
theorem schedulers_end (ht : Tagged pinned is rc) (hpin : ∀ {i t}, WritesTag is i t → isPinned pinned t = false)
    (hwl : Workload pinned is rc is' rc' dag) {cap : Nat} (hcap : is.length + 3 * gathers is ≤ cap) :
    (∀ key, Ends dag.nodes (is.length + 3 * gathers is) (fun e => ∃ C r x, e = .stuck C r x) (schedule dag rc' key (some cap) .init)) ∧
    ∀ fs sw, Permuting fs → Ends dag.nodes (is.length + 3 * gathers is) (fun e => ∃ C o r f x, e = .deadlock C o r f x)
      (scheduleRollout dag rc' fs sw (some cap) .init) := by
  obtain ⟨hb, hsub⟩ := hwl.built ht
  have hcounted := hb.counted fun hw => hwl.unpinned ht hpin hw
  obtain ⟨hstart, hcl, heffort⟩ := hb.underway
  have hle : is'.length + 3 * gathers is' ≤ is.length + 3 * gathers is :=
    Nat.add_le_add hsub.length_le (Nat.mul_le_mul_left 3 (hsub.countP_le))
  have hends : ∀ {E x}, ((∃ bs w' k', x = .ok (bs, w') ∧ Underway dag.nodes w' k' ∧ dag.nodes.length ≤ k' ∧
      bs.length ≤ ([] : List TaggedBundle).length + (World.start dag .init).effort dag.nodes) ∨ ∃ e, x = .error e ∧ E e) →
      Ends dag.nodes (is.length + 3 * gathers is) E x := by
    intro E x h
    refine h.imp_left ?_
    rintro ⟨bs, w', k', hx, hu, hk, hlen⟩
    refine ⟨bs, w', hx, ?_, fun i hi => committed_of_count (hu.count ▸ hk) hi⟩
    rw [List.length_nil, heffort] at hlen
    omega
  refine ⟨fun key => hends ?_, fun fs sw hfs => hends ?_⟩
  · exact cycleLoop_within (P := Underway dag.nodes)
      (fun h hk => greedyCycle_progress hb.graph.wf hb.oneWriter hcounted hb.graph.rawOnly key _ h hk)
      (fun h hk => h.effort_pos hk) cap cap [] hstart (by omega)
  · have hloop := cycleLoop_within (P := fun w k => Underway dag.nodes w k ∧ w.Closed)
      (fun {C _ _} h hk => rolloutCycle_progress hb.graph.wf hb.oneWriter hcounted sw hfs C h.1 h.2 hk)
      (fun h hk => h.1.effort_pos hk) cap cap [] ⟨hstart, hcl⟩ (by omega)
    refine hloop.imp_left ?_
    rintro ⟨bs, w', k', hx, hu, hk, hlen⟩
    exact ⟨bs, w', k', hx, hu.1, hk, hlen⟩

/-- A gather from eight addresses, and the store of what it loads. -/
def gatherStore : List (Instr Operand) :=
  [⟨0, .const (.sym ⟨"x", false⟩) 3⟩, ⟨1, .vBroadcast (.sym ⟨"addr", true⟩) (.sym ⟨"x", false⟩)⟩,
    ⟨2, .gather (.sym ⟨"v", true⟩) (.sym ⟨"addr", true⟩)⟩, ⟨3, .vStore (.sym ⟨"x", false⟩) (.sym ⟨"v", true⟩)⟩]

/-- Equal keys: the nodes in their order. -/
def listed : KeyFunc := fun _ _ _ => 0

theorem mergeSort_listed (C : Nat) (w : World) (l : List Nat) : (l.mergeSort fun i j => listed C w i ≤ listed C w j) = l :=
  List.mergeSort_of_pairwise (List.pairwise_of_forall fun _ _ => by simp [listed])

/-- With every node on the critical path the bound is met exactly. -/
theorem schedulers_end_gatherStore : ∃ is rc dag dag' bs w, tagRawChains gatherStore PINNED = .ok (is, rc) ∧
    buildDag is PINNED = .ok dag ∧ pruneToStores dag = .ok dag' ∧
    schedule dag' (recomputeReadCount dag'.instrs PINNED) listed (some 7) .init = .ok (bs, w) ∧ bs.length = 7 ∧
    is.length + 3 * gathers is = 7 ∧ ∀ i < dag'.nodes.length, w.dag.val.committed i = true := by
  have hrun : (do
      let x ← tagRawChains gatherStore PINNED
      let dag ← buildDag x.1 PINNED
      let dag' ← pruneToStores dag
      let p ← schedule dag' (recomputeReadCount dag'.instrs PINNED) listed (some 7) .init
      .ok (p.1.length, x.1.length + 3 * gathers x.1,
        decide (∀ ins ∈ x.1, ∀ d ∈ ins.op.dest?, isPinned PINNED d.base = false))) =
      (.ok (7, 7, true) : Except PyErr (Nat × Nat × Bool)) := by decide +kernel
  obtain ⟨⟨is, rc⟩, htag, hrun⟩ := bind_eq_ok.mp hrun
  obtain ⟨dag, hdag, hrun⟩ := bind_eq_ok.mp hrun
  obtain ⟨dag', hprune, hrun⟩ := bind_eq_ok.mp hrun
  obtain ⟨⟨bs, w⟩, hp, hrun⟩ := bind_eq_ok.mp hrun
  have hout := Except.ok.inj hrun
  simp only [Prod.mk.injEq, decide_eq_true_eq] at hout
  obtain ⟨hlen, hbound, hpin⟩ := hout
  have hunpinned : ∀ {i t}, WritesTag is i t → isPinned PINNED t = false := by
    rintro i _ ⟨ins, d, hi, hd, rfl⟩
    exact hpin ins (List.mem_of_getElem? hi) d hd
  have hends := (schedulers_end (tagRawChains_tagged pinned_noHash htag) hunpinned (.pruned hdag hprune) (Nat.le_of_eq hbound)).1 listed
  rcases hends with ⟨bs', w', hp', -, hall⟩ | ⟨e, herr, -⟩
  · cases hp.symm.trans hp'
    exact ⟨is, rc, dag, dag', bs, w, htag, hdag, hprune, hp, hlen, hbound, hall⟩
  · cases hp.symm.trans herr

end runs
end Vliw
