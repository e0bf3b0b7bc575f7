import VliwKernel.Kernel.Flow

/-!
# The memory accesses of the kernel

Every word that the stream touches is in the image, every group is stored to words of its own, and the only load that
shares words with a store is the one its values come from, which is an ancestor of the store in the DAG.
-/

namespace Vliw

open Name (val outAddr)

section words

variable {t : Tree} {inp : Input} {rounds : Nat} {s : SymState} {o : Op Operand} {a : Nat}

theorem Observed.loads (h : Observed t inp rounds s o) (ha : a ∈ o.loads s.env.read) : a < INP_VALUES_P ∨
    ∃ g < 32, (∃ x, o = .vLoad (val g) x) ∧ ∃ j < VLEN, a = INP_VALUES_P + g * VLEN + j := by
  cases o with
  | load d x =>
      rw [List.mem_singleton.mp ha]
      exact .inl h
  | vLoad d x =>
      obtain ⟨j, hj, rfl⟩ := List.mem_map.mp ha
      have hj := List.mem_range.mp hj
      rcases h with hlt | ⟨g, hg, rfl, hread⟩
      · exact .inl (by omega)
      · exact .inr ⟨g, hg, ⟨x, rfl⟩, j, hj, by rw [hread]⟩
  | gather d x =>
      obtain ⟨j, hj, rfl⟩ := List.mem_map.mp ha
      exact .inl (h j (List.mem_range.mp hj))
  | _ => cases ha

theorem Observed.stores (h : Observed t inp rounds s o) {x v : Operand} (ho : o = .vStore x v) : ∃ g < 32, o = .vStore (outAddr g) (val g) ∧
    (o.stores s.env.read).map Prod.fst = (List.range VLEN).map fun j => INP_VALUES_P + g * VLEN + j := by
  subst ho
  obtain ⟨g, hg, rfl, rfl, hread⟩ := h
  refine ⟨g, hg, rfl, ?_⟩
  rw [Op.stores, List.map_map]
  exact List.map_congr_left fun j _ => congrArg (· + j) hread

theorem Observed.stored (h : Observed t inp rounds s o) (ha : a ∈ (o.stores s.env.read).map Prod.fst) :
    ∃ g < 32, o = .vStore (outAddr g) (val g) ∧ ∃ j < VLEN, a = INP_VALUES_P + g * VLEN + j := by
  cases o with
  | vStore x v =>
      obtain ⟨g, hg, ho, hwords⟩ := h.stores rfl
      rw [hwords] at ha
      obtain ⟨j, hj, rfl⟩ := List.mem_map.mp ha
      exact ⟨g, hg, ho, j, List.mem_range.mp hj, rfl⟩
  | _ => cases ha

end words

variable {t : Tree} {inp : Input}

theorem vStore_mem {rounds g : Nat} (hr : 1 ≤ rounds) (hg : g < 32) {body : List (Op Operand)} (hok : bodySlots .shipped 10 32 rounds rounds = .ok body) :
    .vStore (outAddr g) (val g) ∈ body := by
  obtain ⟨rs, hrs, hok⟩ := bind_eq_ok.mp hok
  cases hok
  obtain ⟨round, hround, hok⟩ := (mapM_eq_ok hrs).2 (List.getElem?_range (show rounds - 1 < rounds by omega))
  obtain ⟨groups, hgroups, hok⟩ := bind_eq_ok.mp hok
  cases hok
  obtain ⟨slots, hslots, hok⟩ := (mapM_eq_ok hgroups).2 (List.getElem?_range hg)
  obtain ⟨hash, -, hgroup⟩ := groupSlots_ok .shipped (rounds - 1) g rounds
  cases hgroup.symm.trans hok
  have hstore : .vStore (outAddr g) (val g) ∈ groups.flatten := by
    refine List.mem_flatten.mpr ⟨_, List.mem_of_getElem? hslots, List.mem_append_right _ ?_⟩
    rw [if_pos rfl]
    exact List.mem_singleton_self _
  exact List.mem_append_right _ (List.mem_flatten.mpr ⟨_, List.mem_of_getElem? hround, List.mem_append_right _ hstore⟩)

section independent

theorem group_unique {g g' j j' : Nat} (hj : j < VLEN) (hj' : j' < VLEN)
    (h : INP_VALUES_P + g * VLEN + j = INP_VALUES_P + g' * VLEN + j') : g = g' := by
  rw [VLEN] at *
  omega

variable {rounds : Nat} {is tagged : List (Instr Operand)} {rc : Sym → Option Int} {dag : Dag} {s₀ : SymState}
  (hobs : ∀ {i ins u}, RunsIn is s₀ i ins u → Observed t inp rounds u ins.op)

include hobs

theorem touched_lt {i a : Nat} (h : LoadsAt is s₀ i a ∨ StoresAt is s₀ i a) : a < INP_VALUES_P + 256 := by
  have hgroup : ∀ {g j}, g < 32 → j < VLEN → INP_VALUES_P + g * VLEN + j < INP_VALUES_P + 256 := by
    intro g j hg hj
    rw [VLEN] at hj ⊢
    omega
  rcases h with ⟨ins, u, hu, ha⟩ | ⟨ins, u, hu, ha⟩
  · rcases (hobs hu).loads ha with hlt | ⟨g, hg, -, j, hj, rfl⟩
    · exact Nat.lt_of_lt_of_le hlt (Nat.le_add_right _ _)
    · exact hgroup hg hj
  · obtain ⟨g, hg, -, j, hj, rfl⟩ := (hobs hu).stored ha
    exact hgroup hg hj

theorem independent_of_flow (hflow : FlowWp (is.map Instr.op) (fun _ => True) (.init PINNED)) (hf : DataFlow PINNED is tagged rc)
    (hd : DagOf PINNED tagged dag) : Independent is s₀ dag.nodes where
  stores := by
    rintro i j a ⟨ins, u, hi, ha⟩ ⟨ins', u', hj, ha'⟩
    obtain ⟨g, -, hop, k, hk, rfl⟩ := (hobs hi).stored ha
    obtain ⟨g', -, hop', k', hk', heq⟩ := (hobs hj).stored ha'
    obtain rfl := group_unique hk hk' heq
    exact Flow.stores_unique hflow hi.1 hop hj.1 hop' rfl
  loads := by
    rintro i j a ⟨ins, u, hi, ha⟩ ⟨ins', u', hj, ha'⟩
    obtain ⟨g, hg, hop, k, hk, rfl⟩ := (hobs hj).stored ha'
    rcases (hobs hi).loads ha with hlt | ⟨g', -, ⟨x, hload⟩, k', hk', heq⟩
    · exact absurd hlt (by rw [INP_VALUES_P]; omega)
    · obtain rfl := group_unique hk hk' heq
      exact Flow.load_ancestor hflow hf hd ⟨ins, hi.1, ⟨_, _, hload⟩, _, congrArg Op.dest? hload, rfl⟩ ⟨g, rfl⟩ hj.1 hop

end independent

/-- The accesses of the stream are independent: no two stores share a word, and a load that shares one with a store is
its ancestor in the DAG. -/
theorem accesses_independent (hc : Canonical t inp) (hr : 1 ≤ inp.rounds) : ∃ pro body tagged rc dag hd s',
    buildKernel .shipped 10 2047 256 inp.rounds = .ok (pro, body) ∧
    tagRawChains (number 0 (pro ++ body)) PINNED = .ok (tagged, rc) ∧ buildDag tagged PINNED = .ok dag ∧
    readHeader (buildMemImage t inp) = .ok (inp.rounds, hd) ∧
    SymState.run (number 0 (pro ++ body)) ⟨.zero, buildMemImage t inp⟩ = .ok s' ∧
    (∀ {i a}, LoadsAt (number 0 (pro ++ body)) ⟨.zero, buildMemImage t inp⟩ i a ∨
      StoresAt (number 0 (pro ++ body)) ⟨.zero, buildMemImage t inp⟩ i a → a < (buildMemImage t inp).length) ∧
    (∀ g < 32, ∃ i ins u, RunsIn (number 0 (pro ++ body)) ⟨.zero, buildMemImage t inp⟩ i ins u ∧ ins.op = .vStore (outAddr g) (val g)) ∧
    (∀ {i ins u x v}, RunsIn (number 0 (pro ++ body)) ⟨.zero, buildMemImage t inp⟩ i ins u → ins.op = .vStore x v →
      ∃ g < 32, ins.op = .vStore (outAddr g) (val g) ∧
        (ins.op.stores u.env.read).map Prod.fst = (List.range VLEN).map fun j => hd.inpValuesP + g * VLEN + j) ∧
    Independent (number 0 (pro ++ body)) ⟨.zero, buildMemImage t inp⟩ dag.nodes := by
  obtain ⟨body, hbody⟩ := bodySlots_ok .shipped inp.rounds inp.rounds
  have hwp := stream_wp hc (Nat.le_refl _) hbody
  have hflow : FlowWp ((number 0 (prologue .shipped 32 ++ body)).map Instr.op) (fun _ => True) (.init PINNED) := by
    rw [number_map_op]
    exact Flow.stream_flow hbody
  obtain ⟨s', hrun, -⟩ := hwp.run 0
  obtain ⟨tagged, rc, htag, hf⟩ := tagRawChains_dataFlow pinned_noHash (Flow.defined_stream hflow)
  have hdag := buildDag_ok (tagRawChains_tagged pinned_noHash htag).toSingleWriter
  rw [if_neg fun hnil => ?_] at hdag
  obtain ⟨dag, hdag, hd⟩ := hdag
  refine ⟨_, body, tagged, rc, dag, _, s', buildKernel_eq hbody, htag, hdag, hc.readHeader, hrun, fun {i a} h => ?_, fun g hg => ?_,
    fun {i ins u x v} hu hop => ?_, independent_of_flow (fun hu => hwp.runsIn hu) hflow hf hd⟩
  · refine Nat.lt_of_lt_of_le (touched_lt (fun hu => hwp.runsIn hu) h) ?_
    rw [← @storedMem_zero .shipped _ _ hc, storedMem_length hc, INP_VALUES_P]
  · obtain ⟨i, hi⟩ := List.getElem?_of_mem (List.mem_append_right (prologue .shipped 32) (vStore_mem hr hg hbody))
    rw [← number_map_op 0 (prologue .shipped 32 ++ body), List.getElem?_map, Option.map_eq_some_iff] at hi
    obtain ⟨ins, hi, hop⟩ := hi
    obtain ⟨u, -, hu, -⟩ := SymState.runsIn hrun hi
    exact ⟨i, ins, u, hu, hop⟩
  · obtain ⟨g, hg, hop, hwords⟩ := (hwp.runsIn hu).stores hop
    refine ⟨g, hg, hop, hwords.trans ?_⟩
    rw [Header.of, hc.nodes, INP_VALUES_P]
  · have hmap := congrArg (List.map Instr.op) (List.length_eq_zero_iff.mp (hf.length.symm.trans (congrArg List.length hnil)))
    rw [number_map_op] at hmap
    cases hmap

/-- On zeros, over the sixteen rounds of the tests. -/
theorem accesses_independent_zero : ∃ pro body tagged rc dag hd s',
    buildKernel .shipped 10 2047 256 (zeroInput 16).rounds = .ok (pro, body) ∧
    tagRawChains (number 0 (pro ++ body)) PINNED = .ok (tagged, rc) ∧ buildDag tagged PINNED = .ok dag ∧
    readHeader (buildMemImage zeroTree (zeroInput 16)) = .ok ((zeroInput 16).rounds, hd) ∧
    SymState.run (number 0 (pro ++ body)) ⟨.zero, buildMemImage zeroTree (zeroInput 16)⟩ = .ok s' ∧
    (∀ {i a}, LoadsAt (number 0 (pro ++ body)) ⟨.zero, buildMemImage zeroTree (zeroInput 16)⟩ i a ∨
      StoresAt (number 0 (pro ++ body)) ⟨.zero, buildMemImage zeroTree (zeroInput 16)⟩ i a → a < (buildMemImage zeroTree (zeroInput 16)).length) ∧
    (∀ g < 32, ∃ i ins u, RunsIn (number 0 (pro ++ body)) ⟨.zero, buildMemImage zeroTree (zeroInput 16)⟩ i ins u ∧
      ins.op = .vStore (outAddr g) (val g)) ∧
    (∀ {i ins u x v}, RunsIn (number 0 (pro ++ body)) ⟨.zero, buildMemImage zeroTree (zeroInput 16)⟩ i ins u → ins.op = .vStore x v →
      ∃ g < 32, ins.op = .vStore (outAddr g) (val g) ∧
        (ins.op.stores u.env.read).map Prod.fst = (List.range VLEN).map fun j => hd.inpValuesP + g * VLEN + j) ∧
    Independent (number 0 (pro ++ body)) ⟨.zero, buildMemImage zeroTree (zeroInput 16)⟩ dag.nodes :=
  accesses_independent (zero_canonical 16) (by decide)

end Vliw
