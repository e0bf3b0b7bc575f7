import VliwKernel.Semantics.Simulation

/-!
# Compilation preserves the meaning

The bundles of a schedule, run on the simulator from an all-zero scratch, leave the memory that in-order
execution of the program leaves.
-/

namespace Vliw

variable {pinned : List String} {is : List (Instr Operand)} {rc : Sym → Option Int} {dag : Dag} {mem mem' : List Nat} {V : Env}

/-- The simulator's state before bundle `k`: it corresponds to the state of the schedule after `k` cycles. -/
def Simulates (rc : Sym → Option Int) (pinned : List String) (dag : Dag) (mem : List Nat) (V : Env) (cs : List CycleRecord) (w : World)
    (k : Nat) (scratch m : List Nat) : Prop :=
  ∃ u : World, u.Live pinned dag.nodes u.dag.val.committed ∧ Cycles rc dag.nodes u (cs.drop k) w ∧
    Corresponds dag.nodes mem V u scratch m

theorem start_corresponds (hb : Built pinned is rc dag) (V : Env) (mem : List Nat) :
    Corresponds dag.nodes mem V (.start dag .init) (Core.init SCRATCH_SIZE).scratch mem := by
  have hnone : ∀ i, (World.start dag .init).dag.val.committed i = false := by
    intro i
    rw [show (World.start dag .init).dag = ⟨.initial dag.nodes, none⟩ from hb.graph.st]
    rfl
  constructor
  case size => exact List.length_replicate
  case zero =>
    intro a ha
    exact List.getElem?_replicate_of_lt (Nat.lt_trans ha (by decide))
  case word => exact fun _ _ ha _ _ => by cases ha
  case length => rfl
  case stored =>
    intro i n p _ hc _
    rw [hnone] at hc
    cases hc
  case kept => exact fun _ => rfl

/-- Once every node is committed the memory is that of the program's meaning. -/
theorem Corresponds.final (hb : Built pinned is rc dag) (hV : Meaning pinned is dag.nodes mem mem' V) {w : World} {scratch m : List Nat}
    (hcorr : Corresponds dag.nodes mem V w scratch m) (hk : dag.nodes.length ≤ w.count dag.nodes.length) : m = mem' := by
  have hcommitted : ∀ {i ins}, is[i]? = some ins → ∃ n, dag.nodes[i]? = some n ∧ n.instr = ins ∧ w.dag.val.committed i = true := by
    intro i ins hi
    have hlt := (List.getElem?_eq_some_iff.mp hi).1
    rw [← hb.graph.length] at hlt
    have hn : dag.nodes[i]? = some dag.nodes[i] := List.getElem?_eq_getElem hlt
    exact ⟨_, hn, Option.some.inj ((hb.graph.instr hn).symm.trans hi), committed_of_count hk hlt⟩
  refine List.ext_getElem? fun a => ?_
  by_cases ha : ∃ (i : Nat) (ins : Instr Operand) (p : Nat × Nat), is[i]? = some ins ∧ p ∈ ins.op.stores V.read ∧ p.1 = a
  · obtain ⟨i, ins, p, hi, hp, rfl⟩ := ha
    obtain ⟨n, hn, rfl, hci⟩ := hcommitted hi
    rw [hcorr.stored hn hci hp, hV.stored hi hp]
  · rw [hcorr.kept fun {i n p} hn _ hp hpa => ha ⟨i, n.instr, p, hb.graph.instr hn, hp, hpa⟩,
      hV.kept fun {i ins p} hi hp hpa => ha ⟨i, ins, p, hi, hp, hpa⟩]

/-- The program of a schedule runs to its end and leaves the memory of the program's meaning. -/
theorem Scheduled.machine_run {bs : List TaggedBundle} (hsched : Scheduled rc dag bs) (hb : Built pinned is rc dag)
    (hs : Straight pinned is) (hV : Meaning pinned is dag.nodes mem mem' V) {m : Machine}
    (hprog : m.program = bs.map TaggedBundle.untag) (hcore : m.core = Core.init SCRATCH_SIZE) (hmem : m.mem = mem)
    {fuel : Nat} (hfuel : bs.length < fuel) :
    ∃ m', m.run fuel = .ok m' ∧ m'.core.state = .stopped ∧ m'.mem = mem' := by
  obtain ⟨w, k, hrun, hk⟩ := hsched.run
  obtain ⟨cs, rfl, hcs, rfl⟩ := hrun.cycles hb
  have hadv : Machine.Advances (cs.map fun c => (emitted c.bundle).untag) (Simulates rc pinned dag mem V cs w) := by
    intro k b m hk hI
    rw [List.getElem?_map, Option.map_eq_some_iff] at hk
    obtain ⟨c, hc, rfl⟩ := hk
    obtain ⟨u, hu, hrest, hcorr⟩ := hI
    obtain ⟨hlt, hget⟩ := List.getElem?_eq_some_iff.mp hc
    rw [List.drop_eq_getElem_cons hlt, hget] at hrest
    cases hrest with
    | @cons _ v _ _ _ hcyc hrest =>
        obtain ⟨scratch, mem₁, hstep, hcorr'⟩ := hcyc.corresponds hb hu hs.checked hV hcorr fun _ {i ins} hi _ =>
          (hs ins (List.mem_of_getElem? hi)).passes V.read _
        obtain ⟨-, -, -, -, hv, -⟩ := hcyc.live hb hu
        exact ⟨scratch, mem₁, hstep, v, hv, hrest, hcorr'⟩
  have hprog' : m.program = cs.map fun c => (emitted c.bundle).untag := by
    rw [hprog, List.map_map]
    rfl
  have hstate : m.core.state = .running := by rw [hcore]; rfl
  have hstart : Simulates rc pinned dag mem V cs w 0 m.core.scratch m.mem := by
    refine ⟨_, hb.start_live.1, hcs, ?_⟩
    rw [hcore, hmem]
    exact start_corresponds hb V mem
  obtain ⟨m', hm', hstop, u, -, hend, hcorr⟩ := Machine.runLoop_advances hadv hprog' hstate (k := 0) (by rw [hcore]; rfl)
    (Nat.zero_add _) hstart (by simpa using hfuel)
  rw [List.length_map, List.drop_length] at hend
  cases hend
  refine ⟨m', ?_, hstop, hcorr.final hb hV hk⟩
  rw [Machine.run, if_neg (by rw [hstate]; decide), hm']

/-- A machine that has just been created for the bundles, with pause and debug disabled. -/
def Machine.fresh (mem : List Nat) (bs : List TaggedBundle) (valueTrace : TraceKey → Option Nat) : Machine :=
  { Machine.init mem (bs.map TaggedBundle.untag) valueTrace with enablePause := false, enableDebug := false }

/-- Compilation preserves the meaning of straight-line code: what `schedule_rollout` makes of it, in
whatever orders, runs to the memory of in-order execution. -/
theorem compile_preserves {instrs : List (Instr Operand)} {s : SymState} {fs : List SortFunc} {sw : ScoreWeights}
    {cap : Option Nat} {bs : List TaggedBundle} {w : World} (hs : Straight PINNED instrs) (hword : ∀ x ∈ mem, x < WORD)
    (hrun : SymState.run instrs ⟨.zero, mem⟩ = .ok s) (htag : tagRawChains instrs PINNED = .ok (is, rc))
    (hdag : buildDag is PINNED = .ok dag) (hind : Independent instrs ⟨.zero, mem⟩ dag.nodes) (hfs : Permuting fs)
    (hsched : scheduleRollout dag rc fs sw cap .init = .ok (bs, w)) (valueTrace : TraceKey → Option Nat) {fuel : Nat}
    (hfuel : bs.length < fuel) : ∃ m, (Machine.fresh mem bs valueTrace).run fuel = .ok m ∧ m.core.state = .stopped ∧ m.mem = s.mem := by
  have ht := tagRawChains_tagged pinned_noHash htag
  have hof := DagOf.of_ok ht.toSingleWriter hdag
  obtain ⟨hs', r, hr, hmem, hind'⟩ := tagRawChains_run pinned_noHash hs htag hrun hind
  have hV := SymState.meaning ht hs'.wholeWrites hr hof hind' hword
  rw [hmem] at hV
  exact (Scheduled.rollout fs sw cap w hfs hsched).machine_run ⟨ht, hof⟩ hs' hV rfl rfl rfl hfuel

/-- Eight words are loaded, doubled and stored back. -/
def doubling : List (Instr Operand) :=
  [⟨0, .const (.sym ⟨"p", false⟩) 0⟩, ⟨1, .vLoad (.sym ⟨"v", true⟩) (.sym ⟨"p", false⟩)⟩,
    ⟨2, .vecElem .add (.sym ⟨"v", true⟩) (.sym ⟨"v", true⟩) (.sym ⟨"v", true⟩)⟩,
    ⟨3, .vStore (.sym ⟨"p", false⟩) (.sym ⟨"v", true⟩)⟩]

def doublingTagged : List (Instr Operand) :=
  [⟨0, .const (.sym ⟨"p#0", false⟩) 0⟩, ⟨1, .vLoad (.sym ⟨"v#1", true⟩) (.sym ⟨"p#0", false⟩)⟩,
    ⟨2, .vecElem .add (.sym ⟨"v#2", true⟩) (.sym ⟨"v#1", true⟩) (.sym ⟨"v#1", true⟩)⟩,
    ⟨3, .vStore (.sym ⟨"p#0", false⟩) (.sym ⟨"v#2", true⟩)⟩]

/-- The load of the doubling program is an ancestor of its only store. -/
theorem doubling_independent {s₀ : SymState} (hd : DagOf PINNED doublingTagged dag) : Independent doubling s₀ dag.nodes := by
  have hstore : ∀ {j a : Nat}, StoresAt doubling s₀ j a → j = 3 := by
    rintro j a ⟨ins, s, ⟨hj, -⟩, ha⟩
    rcases j with _ | _ | _ | _ | j
    case zero | succ.zero | succ.succ.zero =>
      cases hj
      cases ha
    case succ.succ.succ.zero => rfl
    case succ.succ.succ.succ => cases hj
  have hload : ∀ {i a : Nat}, LoadsAt doubling s₀ i a → i = 1 := by
    rintro i a ⟨ins, s, ⟨hi, -⟩, ha⟩
    rcases i with _ | _ | _ | _ | i
    case zero | succ.succ.zero | succ.succ.succ.zero =>
      cases hi
      cases ha
    case succ.zero => rfl
    case succ.succ.succ.succ => cases hi
  refine ⟨fun h h' => (hstore h).trans (hstore h').symm, fun h h' => ?_⟩
  obtain rfl := hload h
  obtain rfl := hstore h'
  have hedge : (1, 1) ∈ Dag.inEdges dag.nodes 2 := hd.edge.mpr ⟨rfl, by decide, _, .sym ⟨"v#1", true⟩, rfl,
    List.mem_cons_self, by decide, _, _, rfl, rfl, rfl⟩
  have hedge' : (2, 1) ∈ Dag.inEdges dag.nodes 3 := hd.edge.mpr ⟨rfl, by decide, _, .sym ⟨"v#2", true⟩, rfl,
    List.mem_cons_of_mem _ List.mem_cons_self, by decide, _, _, rfl, rfl, rfl⟩
  exact (Relation.TransGen.single hedge).tail hedge'

/-- The doubling program, compiled with the ready nodes in their order, doubles the first eight words. -/
theorem compile_preserves_doubling : ∃ bs m, (Machine.fresh (List.range 9) bs fun _ => none).run 6 = .ok m ∧
    m.mem = [0, 2, 4, 6, 8, 10, 12, 14, 8] := by
  have hcompile : (do
      let x ← tagRawChains doubling PINNED
      let dag ← buildDag x.1 PINNED
      let y ← scheduleRollout dag x.2 [fun _ _ _ ready => ready] {} none .init
      .ok (x.1, y.1.length)) = (.ok (doublingTagged, 4) : Except PyErr _) := by decide +kernel
  have hrun : (do
      let s ← SymState.run doubling ⟨.zero, List.range 9⟩
      .ok s.mem) = (.ok [0, 2, 4, 6, 8, 10, 12, 14, 8] : Except PyErr _) := by decide +kernel
  obtain ⟨⟨is, rc⟩, htag, hcompile⟩ := bind_eq_ok.mp hcompile
  obtain ⟨dag, hdag, hcompile⟩ := bind_eq_ok.mp hcompile
  obtain ⟨⟨bs, w⟩, hsched, hcompile⟩ := bind_eq_ok.mp hcompile
  obtain ⟨rfl, hlen⟩ := Prod.mk.inj (Except.ok.inj hcompile)
  obtain ⟨s, hs, hmem⟩ := bind_eq_ok.mp hrun
  have hstraight : Straight PINNED doubling := by
    intro ins hins
    simp only [doubling, List.mem_cons, List.not_mem_nil, or_false] at hins
    rcases hins with rfl | rfl | rfl | rfl
    case inr.inr.inr => exact ⟨rfl, by decide, fun h => by cases h⟩
    all_goals
      refine ⟨rfl, by decide, fun h => ?_⟩
      cases h
      exact ⟨by decide, _, rfl⟩
  obtain ⟨m, hm, -, hmm⟩ := compile_preserves hstraight (by decide) hs htag hdag
    (doubling_independent (.of_ok (tagRawChains_tagged pinned_noHash htag).toSingleWriter hdag)) permuting_id hsched (fun _ => none)
    (show bs.length < 6 by dsimp only at hlen; omega)
  exact ⟨bs, m, hm, hmm.trans (Except.ok.inj hmem)⟩

end Vliw
