import VliwKernel.Kernel.Pauses
import VliwKernel.Semantics.Checked

/-!
# From instructions to a program

`_emit_regalloc` tags the instructions, builds their graph, schedules it in the mode of the module and inserts the
oracle barriers. What it emits passes the checks of the instructions and leaves their memory, whatever the mode.
-/

namespace Vliw

/-- `SCHEDULER_MODE` and what it is configured by, over the graph that is scheduled. -/
inductive SchedulerMode
  | rollout (sortFuncs : Dag → List SortFunc) (scoreWeights : ScoreWeights)
  | greedy (picker : Dag → KeyFunc)

namespace SchedulerMode

/-- The scheduler that `_emit_regalloc` calls, with a fresh allocator. -/
def schedule (mode : SchedulerMode) (dag : Dag) (rc : Sym → Option Int) : Except PyErr (List TaggedBundle × World) :=
  match mode with
  | rollout fs sw => scheduleRollout dag rc (fs dag) sw none .init
  | greedy picker => Vliw.schedule dag rc (picker dag) none .init

def Permuting : SchedulerMode → Prop
  | rollout fs _ => ∀ dag, Vliw.Permuting (fs dag)
  | greedy _ => True

end SchedulerMode

def REGALLOC_WEIGHTS : Weights := ⟨68 / 10, 71 / 10, 8, 77 / 10, -36 / 10, 43 / 10⟩

def INTERP_W_LATE : Weights := ⟨23 / 10, 22 / 10, 0, -11 / 10, -16 / 10, 1315 / 100⟩

def INTERP_W_EARLY : Weights := ⟨15 / 10, -26 / 10, 0, -11 / 10, -48 / 10, 1605 / 100⟩

/-- `SCHEDULER_MODE` as it is shipped: one trial, by the interpolated priority. -/
def SCHEDULER_MODE : SchedulerMode := .rollout (fun dag => [interpGreedy dag INTERP_W_LATE INTERP_W_EARLY]) {}

def SchedulerMode.fallback : SchedulerMode := .greedy fun dag => weightedPicker dag REGALLOC_WEIGHTS

/-- `_emit_regalloc`: the bundles in `self.instrs` at its end. -/
def emitRegalloc (mode : SchedulerMode) (prune : Bool) (instrs : List (Instr Operand)) : Except PyErr (List Bundle) := do
  let (dag, rc) ← buildGraph prune instrs
  let (bodyInstrs, _) ← mode.schedule dag rc
  insertPauses (bodyInstrs.map TaggedBundle.untag)

theorem SCHEDULER_MODE_permuting : SCHEDULER_MODE.Permuting := fun _ => interpGreedy_permuting _ _

theorem SchedulerMode.scheduled {mode : SchedulerMode} (h : mode.Permuting) {dag : Dag} {rc : Sym → Option Int} {bs : List TaggedBundle}
    {w : World} (hs : mode.schedule dag rc = .ok (bs, w)) : Scheduled rc dag bs := by
  cases mode with
  | rollout fs sw => exact .rollout (fs dag) sw none w (h dag) hs
  | greedy picker => exact .greedy (picker dag) none w hs

section closed

variable {bs bs' : List Bundle} {p : Bool}

/-- A run takes all of a closed list whose bundles only compute. -/
theorem Closed.taken (h : Closed bs bs') (hbs : ∀ b ∈ bs, b.state p .running = .running) : Vliw.taken p bs' = bs' := by
  induction h with
  | alone => exact taken_single
  | last hfree => exact taken_single
  | cons b h ih => rw [taken_running (hbs b (by simp)), ih fun b hb => hbs b (by simp [hb])]

theorem Closed.running (h : Closed bs bs') (hbs : ∀ b ∈ bs, b.state false .running = .running) : ∀ b ∈ bs', b.state false .running = .running := by
  induction h with
  | alone => exact List.forall_mem_singleton.mpr (Bundle.state_of_pause rfl)
  | last hfree => exact List.forall_mem_singleton.mpr (Bundle.state_of_pause (flowSlots_ridden hfree))
  | cons b h ih => exact List.forall_mem_cons.mpr ⟨hbs b (by simp), ih fun b hb => hbs b (by simp [hb])⟩

end closed
section runs

open Machine

variable {instrs is : List (Instr Operand)} {rc : Sym → Option Int} {dag : Dag} {mem mem' : List Nat} {V : Env} {trace : TraceKey → Option Nat}
  {mode : SchedulerMode} {prune : Bool} {js : List Bundle}

/-- What is emitted: the bundles of a run to the end of the graph, the first with a pause and the rest closed with one. -/
structure Emits (dag : Dag) (rc : Sym → Option Int) (js : List Bundle) (c : CycleRecord) (cs : List CycleRecord) (v w : World)
    (bs' : List Bundle) : Prop where
  first : Cycle rc dag.nodes (.start dag .init) c v
  rest : Cycles rc dag.nodes v cs w
  committed : dag.nodes.length ≤ w.count dag.nodes.length
  quiet : (emitted c.bundle).untag.get? .store = none
  free : (emitted c.bundle).untag.flowSlots = []
  program : js = (emitted c.bundle).untag.withPause :: bs'
  closed : Closed (cs.map fun c => (emitted c.bundle).untag) bs'

/-- The bundles of a schedule take the pauses, if there are any. -/
theorem Emits.of_scheduled (hb : Built PINNED is rc dag) (hwaits : Waits PINNED is) {bs : List TaggedBundle} (hs : Scheduled rc dag bs)
    (hne : bs ≠ []) : ∃ js c cs v w bs', insertPauses (bs.map TaggedBundle.untag) = .ok js ∧ Emits dag rc js c cs v w bs' := by
  obtain ⟨w, k, hrun, hk⟩ := hs.run
  obtain ⟨cs, rfl, hcs, rfl⟩ := hrun.cycles hb
  cases hcs with
  | nil => exact absurd rfl hne
  | @cons _ v _ c cs hc hcs =>
      have hquiet := hc.opening_free hb hwaits (e := .store) rfl
      have hfree : (emitted c.bundle).untag.flowSlots = [] := by
        rw [Bundle.flowSlots, hc.opening_free hb hwaits (e := .flow) rfl]
        rfl
      obtain ⟨bs', hins, hclosed⟩ := insertPauses_opening hquiet hfree (cs.map fun c => (emitted c.bundle).untag)
      refine ⟨_, c, cs, v, w, bs', ?_, hc, hcs, hk, hquiet, hfree, rfl, hclosed⟩
      rw [List.map_map]
      exact hins

theorem emitRegalloc_emits (hwaits : Waits PINNED instrs) (hmode : mode.Permuting)
    (h : emitRegalloc mode prune instrs = .ok js) : ∃ tagged rc₀ is rc dag, tagRawChains instrs PINNED = .ok (tagged, rc₀) ∧
      Workload PINNED tagged rc₀ is rc dag ∧ ∃ c cs v w bs', Emits dag rc js c cs v w bs' := by
  obtain ⟨⟨dag, rc⟩, hgraph, h⟩ := bind_eq_ok.mp h
  obtain ⟨⟨bs, w'⟩, hsched, h⟩ := bind_eq_ok.mp h
  obtain ⟨tagged, rc₀, is, htag, hwork⟩ := buildGraph_workload hgraph
  obtain ⟨hb, hsub⟩ := hwork.built (tagRawChains_tagged pinned_noHash htag)
  have hwaits' : Waits PINNED is := fun ins hins => tagRawChains_waits pinned_noHash hwaits htag ins (hsub.subset hins)
  have hne : bs ≠ [] := by
    rintro rfl
    cases h
  obtain ⟨js', c, cs, v, w, bs', hins, hE⟩ := Emits.of_scheduled hb hwaits' (SchedulerMode.scheduled hmode hsched) hne
  cases hins.symm.trans h
  exact ⟨tagged, rc₀, is, rc, dag, htag, hwork, c, cs, v, w, bs', hE⟩

section compiled

variable {c : CycleRecord} {cs : List CycleRecord} {v w : World} {bs' : List Bundle} (hC : Compiles dag rc trace mem mem' is V)
  (hE : Emits dag rc js c cs v w bs')

include hC hE

theorem Emits.straight {b : Bundle} (hb : b ∈ (c :: cs).map fun c => (emitted c.bundle).untag) : b.Straight ∧ ∀ p, b.state p .running = .running :=
  hC.straight (.cons hE.first hE.rest) hC.built.start_live.1 hb

theorem Emits.straight_program : ∀ b ∈ js, b.Straight := by
  have hbs : ∀ b ∈ cs.map fun c => (emitted c.bundle).untag, b.Straight := fun b hb => (hE.straight hC (List.mem_cons_of_mem _ hb)).1
  rw [hE.program]
  exact List.forall_mem_cons.mpr ⟨straight_of_pause (flowSlots_ridden hE.free), hE.closed.straight hbs⟩

theorem Emits.taken_rest (p : Bool) : Vliw.taken p bs' = bs' :=
  hE.closed.taken fun _ hb => (hE.straight hC (List.mem_cons_of_mem _ hb)).2 p

theorem Emits.opening (hwaits : Waits PINNED is) (debug : Bool) (tr : TraceKey → Option Nat) : ∃ scratch,
    (start false debug mem tr []).step (emitted c.bundle).untag.withPause =
      .ok { start false debug mem tr [] with core := { Core.init SCRATCH_SIZE with scratch := scratch } } ∧
    Corresponds dag.nodes mem V v scratch mem := by
  obtain ⟨scratch, mem₁, hstep, hcorr⟩ := hC.opening hwaits hE.first (m := start false debug mem tr []) (start_corresponds hC.built V mem)
  obtain rfl : mem₁ = mem := step_mem hE.quiet hstep
  exact ⟨scratch, (step_withPause rfl hE.free).trans hstep, hcorr⟩

theorem Emits.remaining {m : Machine} (hm : Corresponds dag.nodes mem V v m.core.scratch m.mem) (hpause : m.enablePause = false)
    (htrace : m.enableDebug = true → m.valueTrace = trace) (p : Bool) : ∃ r, (Vliw.taken p bs').foldlM step m = .ok r ∧ r.mem = mem' := by
  obtain ⟨-, -, -, -, hv, -⟩ := hE.first.live hC.built hC.built.start_live.1
  obtain ⟨scratch, mem₁, hfold, hcorr⟩ := hC.foldlM hE.rest hv hm htrace
  refine ⟨{ m with core := { m.core with scratch := scratch }, mem := mem₁ }, ?_, hcorr.final hC.built hC.meaning hE.committed⟩
  rw [hE.closed.foldlM p hpause, taken_all fun _ hb => (hE.straight hC (List.mem_cons_of_mem _ hb)).2 p, hfold]

/-- The runs of the tests: the first stops before memory changes, whatever trace it looks at, and the second goes on to the end. -/
theorem Emits.paused_runs (hwaits : Waits PINNED is) (debug : Bool) (early : TraceKey → Option Nat) {fuel : Nat} (hfuel : js.length < fuel) :
    ∃ m₁ m₂, (start true debug mem early js).run fuel = .ok m₁ ∧ m₁.mem = mem ∧
      ({ m₁ with valueTrace := trace } : Machine).run fuel = .ok m₂ ∧ m₂.mem = mem' ∧ m₂.cycle = js.countP Bundle.counts := by
  obtain ⟨scratch, hstep, hcorr⟩ := hE.opening hC hwaits debug early
  let m : (TraceKey → Option Nat) → Machine := fun tr =>
    { start false debug mem tr [] with core := { Core.init SCRATCH_SIZE with scratch := scratch } }
  have hstop : (emitted c.bundle).untag.withPause.state true .running = .paused := Bundle.state_of_pause (flowSlots_ridden hE.free)
  have hjs := hE.straight_program hC
  have htaken : Vliw.taken true js = [(emitted c.bundle).untag.withPause] := by rw [hE.program, taken_halted (by rw [hstop]; decide)]
  have hagain : Vliw.again js = bs' := by
    rw [hE.program, Vliw.again, hstop]
    exact hE.taken_rest hC true
  obtain ⟨r, hrest, hr⟩ := hE.remaining hC (m := m trace) hcorr rfl (fun _ => rfl) true
  obtain ⟨k, hrun, hcycle⟩ := run_counted (m := m trace) hjs hfuel
  refine ⟨(m early).put ((Control.start true js).run js), r.put k, (run_start hjs hfuel).trans ?_, rfl, ?_, hr, ?_⟩
  · rw [htaken, List.foldlM_cons, hstep]
    rfl
  · rw [hagain, ← hE.taken_rest hC true, hrest] at hrun
    exact hrun
  · rw [htaken, hagain, ← List.countP_append, List.singleton_append, ← hE.program] at hcycle
    exact hcycle

/-- One run without pauses goes to the end. -/
theorem Emits.plain_run (hwaits : Waits PINNED is) (debug : Bool) {tr : TraceKey → Option Nat} (htr : debug = true → tr = trace) {fuel : Nat}
    (hfuel : js.length < fuel) : ∃ m, (start false debug mem tr js).run fuel = .ok m ∧ m.core.state = .stopped ∧ m.mem = mem' ∧
      m.cycle = js.countP Bundle.counts := by
  obtain ⟨scratch, hstep, hcorr⟩ := hE.opening hC hwaits debug tr
  have hjs := hE.straight_program hC
  have hrunning : ∀ b ∈ js, b.state false .running = .running := by
    rw [hE.program]
    refine List.forall_mem_cons.mpr ⟨Bundle.state_of_pause (flowSlots_ridden hE.free), hE.closed.running fun _ hb => ?_⟩
    exact (hE.straight hC (List.mem_cons_of_mem _ hb)).2 false
  obtain ⟨r, hrest, hr⟩ := hE.remaining hC
    (m := { start false debug mem tr [] with core := { Core.init SCRATCH_SIZE with scratch := scratch } }) hcorr rfl htr false
  refine ⟨r.put ((Control.start false js).run js), ?_, Control.run_stopped rfl hrunning, hr, ?_⟩
  · rw [run_start hjs hfuel, taken_all hrunning, hE.program, List.foldlM_cons, hstep, bind_ok, ← hE.taken_rest hC false, hrest]
    rfl
  · refine (Control.run_cycle rfl).trans ?_
    exact (congrArg (0 + List.countP _ ·) (taken_all hrunning)).trans (Nat.zero_add _)

end compiled
/-- What `_emit_regalloc` emits runs as the tests and the grading run it, to the memory that in-order execution leaves and
through every check that it passes, in as many cycles as bundles have more than checks. With pauses the first run stops before
memory changes, whatever trace it is given. -/
theorem emitRegalloc_runs {s : SymState} (hs : Checked PINNED instrs) (hwaits : Waits PINNED instrs) (hword : ∀ x ∈ mem, x < WORD)
    (hrun : SymState.run instrs ⟨.zero, mem⟩ = .ok s) (hpass : Passing trace instrs ⟨.zero, mem⟩)
    (hind : IndependentAccesses instrs ⟨.zero, mem⟩) (hmode : mode.Permuting) (hemit : emitRegalloc mode prune instrs = .ok js)
    (debug : Bool) {fuel : Nat} (hfuel : js.length < fuel) :
    (∀ early, ∃ m₁ m₂, (start true debug mem early js).run fuel = .ok m₁ ∧ m₁.mem = mem ∧
      ({ m₁ with valueTrace := trace } : Machine).run fuel = .ok m₂ ∧ m₂.mem = s.mem ∧ m₂.cycle = js.countP Bundle.counts) ∧
    ∀ tr, (debug = true → tr = trace) → ∃ m, (start false debug mem tr js).run fuel = .ok m ∧ m.core.state = .stopped ∧ m.mem = s.mem ∧
      m.cycle = js.countP Bundle.counts := by
  obtain ⟨tagged, rc₀, is, rc, dag, htag, hwork, c, cs, v, w, bs', hE⟩ := emitRegalloc_emits hwaits hmode hemit
  obtain ⟨V, hC⟩ := hwork.compiles hs htag hword hrun hpass hind
  have hwaits' : Waits PINNED is := fun ins hins =>
    tagRawChains_waits pinned_noHash hwaits htag ins ((hwork.built (tagRawChains_tagged pinned_noHash htag)).2.subset hins)
  exact ⟨fun early => hE.paused_runs hC hwaits' debug early hfuel, fun tr htr => hE.plain_run hC hwaits' debug htr hfuel⟩

/-- Eight words of a constant are checked and stored. -/
def checkedStore : List (Instr Operand) :=
  [⟨0, .const (.sym ⟨"p", false⟩) 8⟩, ⟨1, .vBroadcast (.sym ⟨"v", true⟩) (.sym ⟨"p", false⟩)⟩,
    ⟨2, .debugVCompare (.sym ⟨"v", true⟩) ((List.range VLEN).map fun j => ⟨0, j, .val⟩)⟩,
    ⟨3, .vStore (.sym ⟨"p", false⟩) (.sym ⟨"v", true⟩)⟩]

theorem checkedStore_checked : Checked PINNED checkedStore := by
  intro ins hins
  simp only [checkedStore, List.mem_cons, List.not_mem_nil, or_false] at hins
  rcases hins with rfl | rfl | rfl | rfl
  case inr.inr.inl | inr.inr.inr => exact ⟨by simp, by decide, fun h => by cases h⟩
  all_goals
    refine ⟨by simp, by decide, fun h => ?_⟩
    cases h
    exact ⟨by decide, _, rfl⟩

theorem checkedStore_independent {s₀ : SymState} : IndependentAccesses checkedStore s₀ := by
  intro tagged rc dag _ _
  have hstore : ∀ {j a : Nat}, StoresAt checkedStore s₀ j a → j = 3 := by
    rintro j a ⟨ins, s, ⟨hj, -⟩, ha⟩
    rcases j with _ | _ | _ | _ | j
    case zero | succ.zero | succ.succ.zero =>
      cases hj
      cases ha
    case succ.succ.succ.zero => rfl
    case succ.succ.succ.succ => cases hj
  refine ⟨fun h h' => (hstore h).trans (hstore h').symm, ?_⟩
  rintro i j a ⟨ins, s, ⟨hi, -⟩, ha⟩
  rcases i with _ | _ | _ | _ | i
  case zero | succ.zero | succ.succ.zero | succ.succ.succ.zero =>
    cases hi
    cases ha
  case succ.succ.succ.succ => cases hi

theorem checkedStore_passing : Passing (fun _ => some 8) checkedStore ⟨.zero, .replicate 16 0⟩ := by
  rintro i ins s ⟨hi, hs⟩
  rcases i with _ | _ | _ | _ | i
  case zero | succ.zero | succ.succ.succ.zero =>
    cases hi
    trivial
  case succ.succ.zero =>
    cases hi
    have hread : (SymState.run (checkedStore.take 2) ⟨.zero, .replicate 16 0⟩).map (fun s => (List.range VLEN).map (s.env.read (.sym ⟨"v", true⟩))) =
      .ok (.replicate 8 8) := by decide +kernel
    rw [show checkedStore.take (0 + 1 + 1) = checkedStore.take 2 from rfl] at hs
    rw [hs] at hread
    exact congrArg some (Except.ok.inj hread).symm
  case succ.succ.succ.succ => cases hi

/-- The checked store, in the fallback mode. -/
theorem emitRegalloc_runs_checkedStore : ∃ js m₁ m₂, emitRegalloc .fallback false checkedStore = .ok js ∧
    (start true true (.replicate 16 0) (fun _ => none) js).run 5 = .ok m₁ ∧ m₁.mem = .replicate 16 0 ∧
    ({ m₁ with valueTrace := fun _ => some 8 } : Machine).run 5 = .ok m₂ ∧ m₂.mem = .replicate 8 0 ++ .replicate 8 8 := by
  have hlen : (emitRegalloc .fallback false checkedStore).map List.length = .ok 3 := by decide +kernel
  have hrun : (SymState.run checkedStore ⟨.zero, .replicate 16 0⟩).map SymState.mem = .ok (.replicate 8 0 ++ .replicate 8 8) := by decide +kernel
  obtain ⟨js, hjs, hlen⟩ := map_eq_ok.mp hlen
  obtain ⟨s, hs, hmem⟩ := map_eq_ok.mp hrun
  obtain ⟨htest, -⟩ := emitRegalloc_runs checkedStore_checked (by decide +kernel) (by decide) hs checkedStore_passing checkedStore_independent
    (show SchedulerMode.fallback.Permuting from trivial) hjs true (show js.length < 5 by omega)
  obtain ⟨m₁, m₂, h₁, hmem₁, h₂, hmem₂, -⟩ := htest fun _ => none
  exact ⟨js, m₁, m₂, hjs, h₁, hmem₁, h₂, hmem₂.trans hmem⟩

end runs
end Vliw
