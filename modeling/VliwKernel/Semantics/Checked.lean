import VliwKernel.Schedule.Workload
import VliwKernel.Semantics.Opening
import VliwKernel.Semantics.Preservation
import VliwKernel.Semantics.Trimming

/-!
# Schedules of programs that check values

With the debug engine on, the bundles of a schedule run through if in-order execution passes every check: a check reads
its words from registers that hold them.
-/

namespace Vliw

variable {pinned : List String} {instrs is : List (Instr Operand)} {rc : Sym → Option Int} {dag : Dag} {mem mem' : List Nat} {V : Env}
  {trace : TraceKey → Option Nat}

/-- What `_emit_regalloc` hands to the scheduler: the graph of the tagged program and its read counts, pruned to the stores or not. -/
def buildGraph (prune : Bool) (instrs : List (Instr Operand)) : Except PyErr (Dag × (Sym → Option Int)) := do
  let (tagged, rc) ← tagRawChains instrs PINNED
  let dag ← buildDag tagged PINNED
  if prune then do
    let dag ← pruneToStores dag
    .ok (dag, recomputeReadCount dag.instrs PINNED)
  else .ok (dag, rc)

theorem buildGraph_workload {prune : Bool} (h : buildGraph prune instrs = .ok (dag, rc)) :
    ∃ tagged rc₀ is, tagRawChains instrs PINNED = .ok (tagged, rc₀) ∧ Workload PINNED tagged rc₀ is rc dag := by
  obtain ⟨⟨tagged, rc₀⟩, htag, h⟩ := bind_eq_ok.mp h
  obtain ⟨dag₀, hdag, h⟩ := bind_eq_ok.mp h
  split at h
  · obtain ⟨dag₁, hprune, h⟩ := bind_eq_ok.mp h
    cases h
    exact ⟨tagged, rc₀, _, htag, .pruned hdag hprune⟩
  · cases h
    exact ⟨tagged, rc, _, htag, .whole hdag⟩

/-- No store shares a word with another, and a load shares one with a store only as its ancestor in the graph. -/
def IndependentAccesses (instrs : List (Instr Operand)) (s₀ : SymState) : Prop :=
  ∀ {tagged rc dag}, tagRawChains instrs PINNED = .ok (tagged, rc) → buildDag tagged PINNED = .ok dag → Independent instrs s₀ dag.nodes

/-- The graph is that of a program which takes `mem` to `mem'`, under values that pass its checks. -/
structure Compiles (dag : Dag) (rc : Sym → Option Int) (trace : TraceKey → Option Nat) (mem mem' : List Nat) (is : List (Instr Operand))
    (V : Env) : Prop where
  built : Built PINNED is rc dag
  checked : Checked PINNED is
  meaning : Meaning PINNED is dag.nodes mem mem' V
  passes : ∀ ins ∈ is, ins.op.Passes V.read trace

theorem Checked.unpinned (h : Checked pinned is) {i : Nat} {t : Sym} (hw : WritesTag is i t) : isPinned pinned t = false := by
  obtain ⟨ins, d, hi, hd, rfl⟩ := hw
  exact ((h ins (List.mem_of_getElem? hi)).writes hd).1

/-- In-order execution of a tagged program passes its checks under the values of the tags. -/
theorem Compiles.of_run {s' : SymState} (hb : Built PINNED is rc dag) (hs : Checked PINNED is) (hrun : SymState.run is ⟨.zero, mem⟩ = .ok s')
    (hword : ∀ x ∈ mem, x < WORD) (hind : Independent is ⟨.zero, mem⟩ dag.nodes) (hpass : Passing trace is ⟨.zero, mem⟩) :
    Compiles dag rc trace mem s'.mem is s'.env := by
  refine ⟨hb, hs, SymState.meaning hb.tagged hs.wholeWrites hrun hb.graph hind hword, fun ins hins => ?_⟩
  obtain ⟨i, hi⟩ := List.getElem?_of_mem hins
  have hload : LoadsFirst is ⟨.zero, mem⟩ := fun h h' => (hind.loads h h').lt hb.graph
  obtain ⟨u, -, hu, -, -, -, hreads, -⟩ := meaning_at hb.tagged hs.wholeWrites hrun hload hi
  exact (Op.passes_congr hreads).mp (hpass hu)

section graph

variable {tagged : List (Instr Operand)} {rc₀ : Sym → Option Int} {s : SymState}
  (hs : Checked PINNED instrs) (htag : tagRawChains instrs PINNED = .ok (tagged, rc₀)) (hwork : Workload PINNED tagged rc₀ is rc dag)

include hs htag hwork

/-- The program of the graph is straight-line code with checks, as the one it is built from. -/
theorem Workload.checked : Checked PINNED is := fun ins hins =>
  tagRawChains_checked pinned_noHash hs htag ins ((hwork.built (tagRawChains_tagged pinned_noHash htag)).2.subset hins)

/-- The graph stands for the program it is built from, pruned or not. -/
theorem Workload.compiles (hword : ∀ x ∈ mem, x < WORD) (hrun : SymState.run instrs ⟨.zero, mem⟩ = .ok s)
    (hpass : Passing trace instrs ⟨.zero, mem⟩) (hind : IndependentAccesses instrs ⟨.zero, mem⟩) :
    ∃ V, Compiles dag rc trace mem s.mem is V := by
  have ht := tagRawChains_tagged pinned_noHash htag
  have hs₀ := tagRawChains_checked pinned_noHash hs htag
  have hchecked := hwork.checked hs htag
  cases hwork with
  | whole hdag =>
      obtain ⟨r, hr, hmem, hind₀, hpass₀⟩ := tagRawChains_steps pinned_noHash hs.wholeWrites htag hrun
      rw [← hmem]
      exact ⟨_, .of_run ⟨ht, .of_ok ht.toSingleWriter hdag⟩ hchecked hr hword (hind₀ (hind htag hdag)) (hpass₀ hpass)⟩
  | pruned hdag hprune =>
      have hof := DagOf.of_ok ht.toSingleWriter hdag
      obtain ⟨ids, hp, hst⟩ := Pruned.of_ok hof.wf hprune
      obtain ⟨r, hr, hmem, hind₀, hpass₀⟩ := tagRawChains_steps pinned_noHash hs.wholeWrites htag hrun
      obtain ⟨r', hr', hmem'⟩ := hp.run ht hof hs₀.unpinned hr
      have hind' := hp.independent ht hof hs₀.unpinned hr (hind₀ (hind htag hdag))
      have hpass' : Passing trace dag.instrs ⟨.zero, mem⟩ := hp.passing ht hof hs₀.unpinned hr (hpass₀ hpass)
      rw [← hmem, ← hmem']
      exact ⟨_, .of_run ⟨hp.tagged ht hof, hp.dagOf hof hst⟩ hchecked hr' hword hind' hpass'⟩

end graph
section run

variable {w w' : World} {c : CycleRecord} {cs : List CycleRecord} {m : Machine} (h : Compiles dag rc trace mem mem' is V)

include h

/-- The bundles of a run compute what its cycles do, if the checks look at the program's trace. -/
theorem Compiles.foldlM (hcs : Cycles rc dag.nodes w cs w') (hw : w.Live PINNED dag.nodes w.dag.val.committed)
    (hm : Corresponds dag.nodes mem V w m.core.scratch m.mem) (htrace : m.enableDebug = true → m.valueTrace = trace) : ∃ scratch mem₁,
      (cs.map fun c => (emitted c.bundle).untag).foldlM Machine.step m = .ok { m with core := { m.core with scratch := scratch }, mem := mem₁ } ∧
      Corresponds dag.nodes mem V w' scratch mem₁ := by
  induction hcs generalizing m with
  | nil => exact ⟨_, _, rfl, hm⟩
  | cons hc _ ih =>
      obtain ⟨scratch, mem₁, hstep, hcorr⟩ := hc.corresponds h.built hw h.checked h.meaning hm fun hon {i ins} hi _ =>
        htrace hon ▸ h.passes ins (List.mem_of_getElem? hi)
      obtain ⟨-, -, -, -, hv, -⟩ := hc.live h.built hw
      rw [List.map_cons, List.foldlM_cons, hstep, bind_ok]
      exact ih hv (m := { m with core := { m.core with scratch := scratch }, mem := mem₁ }) hcorr htrace

theorem Compiles.opening (hwaits : Waits PINNED is) (hc : Cycle rc dag.nodes (.start dag .init) c w')
    (hm : Corresponds dag.nodes mem V (.start dag .init) m.core.scratch m.mem) : ∃ scratch mem₁,
      m.step (emitted c.bundle).untag = .ok { m with core := { m.core with scratch := scratch }, mem := mem₁ } ∧
      Corresponds dag.nodes mem V w' scratch mem₁ := by
  refine hc.corresponds h.built h.built.start_live.1 h.checked h.meaning hm fun _ {i ins} hi hM => ?_
  obtain ⟨l, hM⟩ := Option.ne_none_iff_exists'.mp hM
  obtain ⟨node, b, hl⟩ := hc.landed h.built h.built.start_live.1 hM
  cases hi.symm.trans (h.built.graph.instr hl.get)
  exact Op.passes_of_engine fun he => by simpa [Instr.engine, he, Engine.waits] using hc.opening h.built hwaits hl

theorem Compiles.straight (hcs : Cycles rc dag.nodes w cs w') (hw : w.Live PINNED dag.nodes w.dag.val.committed) {b : Bundle}
    (hb : b ∈ cs.map fun c => (emitted c.bundle).untag) : b.Straight ∧ ∀ p, b.state p .running = .running := by
  obtain ⟨c, hc, rfl⟩ := List.mem_map.mp hb
  obtain ⟨k, hk⟩ := List.getElem?_of_mem hc
  obtain ⟨u, v, hu, -, hcyc, -⟩ := hcs.at_index h.built hw hk
  refine ⟨hcyc.straight h.built hu h.checked, fun p => Bundle.state_of_computing fun s hs st => ?_⟩
  obtain ⟨d, x, y, z, rfl⟩ := hcyc.flow_selects h.built hu h.checked hs
  rfl

end run
end Vliw
