import VliwKernel.Kernel.Assembly
import VliwKernel.Schedule.Cap

/-!
# How the emission fails

A program whose reads are defined is tagged, built and pruned without error, and its bundles take the pauses. What is
left are the two ways in which a scheduler gives up.
-/

namespace Vliw

section loop

variable {cycle : Nat → World → Nat → Except PyErr (World × Nat × TaggedBundle)} {n : Nat} {P : World → Nat → Prop} {E : PyErr → Prop}
  {w : World} {k : Nat}

/-- A loop each cycle of which goes on or raises returns, raises what a cycle does, or meets its cap. -/
theorem cycleLoop_outcome
    (hstep : ∀ {C w k}, P w k → k < n → (∃ w' k' b, cycle C w k = .ok (w', k', b) ∧ P w' k') ∨ ∃ e, cycle C w k = .error e ∧ E e)
    (cap rem : Nat) (bundles : List TaggedBundle) (h : P w k) :
    (∃ bs w' k', cycleLoop cycle n cap rem w k bundles = .ok (bs, w') ∧ P w' k' ∧ n ≤ k' ∧ (k < n → bs ≠ [])) ∨
      ∃ e, cycleLoop cycle n cap rem w k bundles = .error e ∧ (E e ∨ e = .capExceeded (cap + 1) cap) := by
  induction rem generalizing w k bundles with
  | zero =>
      unfold cycleLoop
      by_cases hk : k < n
      · rw [if_pos hk]
        rcases hstep (C := cap - 0) h hk with ⟨w', k', b, hc, -⟩ | ⟨e, hc, he⟩
        · rw [hc]
          exact .inr ⟨_, rfl, .inr rfl⟩
        · rw [hc]
          exact .inr ⟨e, rfl, .inl he⟩
      · rw [if_neg hk]
        exact .inl ⟨bundles, w, k, rfl, h, by omega, fun h => absurd h hk⟩
  | succ rem ih =>
      unfold cycleLoop
      by_cases hk : k < n
      · rw [if_pos hk]
        rcases hstep (C := cap - (rem + 1)) h hk with ⟨w', k', b, hc, h'⟩ | ⟨e, hc, he⟩
        · rw [hc, bind_ok]
          refine (ih (bundles ++ [b]) h').imp_left ?_
          rintro ⟨bs, w'', k'', hloop, hP, hn, -⟩
          refine ⟨bs, w'', k'', hloop, hP, hn, fun _ => ?_⟩
          rintro rfl
          simpa using cycleLoop_length hloop
        · rw [hc]
          exact .inr ⟨e, rfl, .inl he⟩
      · rw [if_neg hk]
        exact .inl ⟨bundles, w, k, rfl, h, by omega, fun h => absurd h hk⟩

end loop
section mode

variable {instrs is : List (Instr Operand)} {rc : Sym → Option Int} {dag : Dag} {mode : SchedulerMode} {prune : Bool}

/-- The scheduler of the mode gives up on a graph of `n` nodes: a cycle can place nothing, or the cap is met. -/
def SchedulerMode.GivesUp (n : Nat) (e : PyErr) : SchedulerMode → Prop
  | .rollout .. => (∃ C o r f x, e = .deadlock C o r f x) ∨ e = .capExceeded (n + 2) (n + 1)
  | .greedy _ => (∃ C r x, e = .stuck C r x) ∨ e = .capExceeded (n + 2) (n + 1)

/-- The scheduler returns bundles or gives up. -/
theorem SchedulerMode.outcome (hb : Built PINNED is rc dag) (hpin : ∀ {i t}, WritesTag is i t → isPinned PINNED t = false)
    (hmode : mode.Permuting) (hne : is ≠ []) :
    (∃ bs w, mode.schedule dag rc = .ok (bs, w) ∧ bs ≠ []) ∨ ∃ e, mode.schedule dag rc = .error e ∧ mode.GivesUp dag.nodes.length e := by
  have hcounted := hb.counted hpin
  obtain ⟨hstart, hcl, -⟩ := hb.underway
  have hpos : 0 < dag.nodes.length := hb.graph.length ▸ List.length_pos_iff.mpr hne
  cases mode with
  | rollout fs sw =>
      have hloop := cycleLoop_outcome (P := fun w k => Underway dag.nodes w k ∧ w.Closed)
        (fun {C _ _} h hk => (rolloutCycle_progress hb.graph.wf hb.oneWriter hcounted sw (hmode dag) C h.1 h.2 hk).imp_left
          fun ⟨w', k', b, hc, h', _⟩ => ⟨w', k', b, hc, h'⟩)
        (dag.nodes.length + 1) (dag.nodes.length + 1) [] ⟨hstart, hcl⟩
      exact hloop.imp_left fun ⟨bs, w, _, hx, _, _, hbs⟩ => ⟨bs, w, hx, hbs hpos⟩
  | greedy picker =>
      have hloop := cycleLoop_outcome (P := Underway dag.nodes)
        (fun {C _ _} h hk => (greedyCycle_progress hb.graph.wf hb.oneWriter hcounted hb.graph.rawOnly (picker dag) C h hk).imp_left
          fun ⟨w', k', b, hc, h', _⟩ => ⟨w', k', b, hc, h'⟩)
        (dag.nodes.length + 1) (dag.nodes.length + 1) [] hstart
      exact hloop.imp_left fun ⟨bs, w, _, hx, _, _, hbs⟩ => ⟨bs, w, hx, hbs hpos⟩

theorem buildGraph_ok (hdef : Defined PINNED instrs) (hne : instrs ≠ [])
    (hstore : prune = true → ∃ ins ∈ instrs, ins.op.engine = .store) : ∃ dag rc, buildGraph prune instrs = .ok (dag, rc) ∧ dag.nodes ≠ [] := by
  obtain ⟨tagged, rc, htag, hf⟩ := tagRawChains_dataFlow pinned_noHash hdef
  have hdag := buildDag_ok (tagRawChains_tagged pinned_noHash htag).toSingleWriter
  rw [if_neg fun hnil => hne (List.length_eq_zero_iff.mp (by rw [← hf.length, hnil]; rfl))] at hdag
  obtain ⟨dag, hdag, hd⟩ := hdag
  cases prune with
  | false =>
      refine ⟨dag, rc, ?_, fun hnil => hne (List.length_eq_zero_iff.mp ?_)⟩
      · simp only [buildGraph, htag, hdag, bind_ok, Bool.false_eq_true, if_false]
      · rw [← hf.length, ← hd.length, hnil]
        rfl
  | true =>
      obtain ⟨ins, hins, he⟩ := hstore rfl
      obtain ⟨i, hi⟩ := List.getElem?_of_mem hins
      obtain ⟨rd, wr, htagged, -⟩ := hf.instr hi
      obtain ⟨n, hn⟩ : ∃ n, dag.nodes[i]? = some n :=
        ⟨_, List.getElem?_eq_getElem (hd.length ▸ (List.getElem?_eq_some_iff.mp htagged).1)⟩
      have hen : n.engine = .store := by
        have hinstr := Option.some.inj ((hd.instr hn).symm.trans htagged)
        rw [DNode.engine, hinstr]
        exact (Op.engine_rebuild ..).trans he
      obtain ⟨dag', ids, hprune, hp, -⟩ := pruneToStores_ok hd.wf ⟨i, n, hn, hen⟩
      refine ⟨dag', recomputeReadCount dag'.instrs PINNED, ?_, ?_⟩
      · simp only [buildGraph, htag, hdag, hprune, bind_ok, if_true]
      · have hmem : i ∈ ids := hp.mem.mpr ⟨(List.getElem?_eq_some_iff.mp hn).1, .inl ⟨i, n, hn, hen, .refl⟩⟩
        intro hnil
        have hlen := hp.length
        rw [hnil] at hlen
        exact absurd hmem (by rw [List.length_eq_zero_iff.mp hlen.symm]; simp)

/-- A program whose reads are defined, with a store if it is to be pruned, is emitted unless the scheduler gives up. -/
theorem emitRegalloc_fails (hs : Checked PINNED instrs) (hwaits : Waits PINNED instrs) (hdef : Defined PINNED instrs) (hne : instrs ≠ [])
    (hstore : prune = true → ∃ ins ∈ instrs, ins.op.engine = .store) (hmode : mode.Permuting) :
    (∃ js, emitRegalloc mode prune instrs = .ok js) ∨
      ∃ dag rc e, buildGraph prune instrs = .ok (dag, rc) ∧ emitRegalloc mode prune instrs = .error e ∧ mode.GivesUp dag.nodes.length e := by
  obtain ⟨dag, rc, hgraph, hnodes⟩ := buildGraph_ok hdef hne hstore
  obtain ⟨tagged, rc₀, is, htag, hwork⟩ := buildGraph_workload hgraph
  have ht := tagRawChains_tagged pinned_noHash htag
  obtain ⟨hb, hsub⟩ := hwork.built ht
  have hpin : ∀ {i t}, WritesTag is i t → isPinned PINNED t = false := fun hw => (hwork.checked hs htag).unpinned hw
  have hne' : is ≠ [] := fun hnil => hnodes (List.length_eq_zero_iff.mp (by rw [hb.graph.length, hnil]; rfl))
  have hwaits' : Waits PINNED is := fun ins hins => tagRawChains_waits pinned_noHash hwaits htag ins (hsub.subset hins)
  rcases SchedulerMode.outcome hb hpin hmode hne' with ⟨bs, w, hsched, hbs⟩ | ⟨e, hsched, he⟩
  · obtain ⟨js, _, _, _, _, _, hins, -⟩ := Emits.of_scheduled hb hwaits' (SchedulerMode.scheduled hmode hsched) hbs
    exact .inl ⟨js, by simp only [emitRegalloc, hgraph, hsched, bind_ok, hins]⟩
  · exact .inr ⟨dag, rc, e, hgraph, by simp only [emitRegalloc, hgraph, hsched, bind_ok]; rfl, he⟩

/-- The checked store, pruned, in the shipped mode. -/
theorem emitRegalloc_fails_checkedStore : (∃ js, emitRegalloc SCHEDULER_MODE true checkedStore = .ok js) ∨
    ∃ dag rc e, buildGraph true checkedStore = .ok (dag, rc) ∧ emitRegalloc SCHEDULER_MODE true checkedStore = .error e ∧
      SCHEDULER_MODE.GivesUp dag.nodes.length e :=
  emitRegalloc_fails checkedStore_checked (by decide +kernel) (by decide +kernel) (by simp [checkedStore])
    (fun _ => ⟨⟨3, .vStore (.sym ⟨"p", false⟩) (.sym ⟨"v", true⟩)⟩, by simp [checkedStore], rfl⟩) SCHEDULER_MODE_permuting

end mode
end Vliw
