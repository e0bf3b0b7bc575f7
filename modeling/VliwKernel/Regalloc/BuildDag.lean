import VliwKernel.Regalloc.Tagged

/-!
# The graph of a tagged program

`build_dag` of a tagged program is a well-formed graph whose edges are exactly the pairs of
the writer of a tag and one of its readers, all of weight 1.
-/

namespace Vliw
namespace BuildDag

variable {pinned : List String}

theorem mem_addSource {writer : Sym → Option Nat} {seen : List Nat} {o : Operand} {src : Nat} :
    src ∈ addSource pinned writer seen o ↔
      src ∈ seen ∨ (isPinned pinned o.base = false ∧ writer o.base = some src) := by
  cases hp : isPinned pinned o.base with
  | true => simp [addSource, hp]
  | false =>
      cases hw : writer o.base with
      | none => simp [addSource, hp, hw]
      | some x =>
          simp only [addSource, hp, hw, Bool.false_eq_true, if_false, true_and, Option.some.injEq]
          split
          · next hx => exact ⟨.inl, fun h => h.elim id fun h => h ▸ hx⟩
          · rw [List.mem_append, List.mem_singleton, @eq_comm _ src]

theorem nodup_addSource {writer : Sym → Option Nat} {seen : List Nat} (h : seen.Nodup) (o : Operand) :
    (addSource pinned writer seen o).Nodup := by
  simp only [addSource]
  split
  · exact h
  · split
    · exact h
    · split
      · exact h
      · next hx =>
          refine List.nodup_append.mpr ⟨h, by simp, fun a ha b hb hab => hx ?_⟩
          rwa [← List.mem_singleton.mp hb, ← hab]

theorem mem_sources {writer : Sym → Option Nat} {i : Instr Operand} {src : Nat} :
    src ∈ sources pinned writer i ↔
      ∃ o ∈ i.readOperands, isPinned pinned o.base = false ∧ writer o.base = some src := by
  have key : ∀ (os : List Operand) (seen : List Nat), src ∈ os.foldl (addSource pinned writer) seen ↔
      src ∈ seen ∨ ∃ o ∈ os, isPinned pinned o.base = false ∧ writer o.base = some src := by
    intro os
    induction os with
    | nil => intro seen; simp
    | cons o os ih => intro seen; rw [List.foldl_cons, ih, mem_addSource]; simp [or_assoc]
  rw [sources, key]
  simp

theorem nodup_sources (writer : Sym → Option Nat) (i : Instr Operand) : (sources pinned writer i).Nodup := by
  have key : ∀ (os : List Operand) (seen : List Nat), seen.Nodup →
      (os.foldl (addSource pinned writer) seen).Nodup := by
    intro os
    induction os with
    | nil => exact fun _ h => h
    | cons o os ih => exact fun seen h => ih _ (nodup_addSource h o)
  exact key _ _ List.nodup_nil

theorem getElem?_addOutEdges (idx : Nat) (srcs : List Nat) (nodes : List DNode) (i : Nat) :
    (srcs.foldl (addOutEdge idx) nodes)[i]? = nodes[i]?.map fun n =>
      { n with outEdges := n.outEdges ++ List.replicate (srcs.count i) (idx, 1) } := by
  induction srcs generalizing nodes with
  | nil => simp
  | cons src srcs ih =>
      rw [List.foldl_cons, ih, addOutEdge, List.getElem?_modify, List.count_cons]
      by_cases h : src = i
      · subst h
        cases nodes[src]? <;> simp [List.replicate_succ]
      · cases nodes[i]? <;> simp [h]

theorem length_addOutEdges (idx : Nat) (srcs : List Nat) (nodes : List DNode) :
    (srcs.foldl (addOutEdge idx) nodes).length = nodes.length := by
  induction srcs generalizing nodes with
  | nil => rfl
  | cons src srcs ih => rw [List.foldl_cons, ih, addOutEdge, List.length_modify]

section step

variable (pinned) (st : State) (ins : Instr Operand)

theorem getElem?_step (i : Nat) : (step pinned st ins).nodes[i]? =
    (st.nodes ++ [⟨st.nodes.length, ins, (sources pinned st.writer ins).map (·, 1), []⟩])[i]?.map fun nd : DNode =>
      { nd with outEdges := nd.outEdges ++ List.replicate ((sources pinned st.writer ins).count i) (st.nodes.length, 1) } :=
  getElem?_addOutEdges _ _ _ i

theorem length_step : (step pinned st ins).nodes.length = st.nodes.length + 1 := by
  simp [step, length_addOutEdges]

theorem inEdges_step (j : Nat) : Dag.inEdges (step pinned st ins).nodes j =
    if j = st.nodes.length then (sources pinned st.writer ins).map (·, 1) else Dag.inEdges st.nodes j := by
  rw [Dag.inEdges, getElem?_step]
  rcases Nat.lt_trichotomy j st.nodes.length with hj | rfl | hj
  · rw [List.getElem?_append_left hj, if_neg (Nat.ne_of_lt hj), Dag.inEdges]
    cases st.nodes[j]? <;> rfl
  · simp
  · rw [List.getElem?_eq_none (by simp; omega), if_neg (Nat.ne_of_gt hj), Dag.inEdges, List.getElem?_eq_none (by omega)]
    rfl

theorem outEdges_step (hlt : ∀ {src}, src ∈ sources pinned st.writer ins → src < st.nodes.length) (i : Nat) :
    Dag.outEdges (step pinned st ins).nodes i =
      Dag.outEdges st.nodes i ++ List.replicate ((sources pinned st.writer ins).count i) (st.nodes.length, 1) := by
  rw [Dag.outEdges, getElem?_step]
  rcases Nat.lt_or_ge i st.nodes.length with hi | hi
  · rw [List.getElem?_append_left hi, Dag.outEdges]
    simp [List.getElem?_eq_getElem hi]
  · have hcount : (sources pinned st.writer ins).count i = 0 := List.count_eq_zero.mpr fun hs => absurd (hlt hs) (by omega)
    rw [hcount, Dag.outEdges, List.getElem?_eq_none hi]
    rcases Nat.eq_or_lt_of_le hi with rfl | hi
    · simp
    · rw [List.getElem?_eq_none (by simp; omega)]
      rfl

theorem writer_step (t : Sym) : (step pinned st ins).writer t =
    if isPinned pinned t = false ∧ ∃ d, ins.op.dest? = some d ∧ d.base = t then some st.nodes.length else st.writer t := by
  simp only [step, Instr.writeOperands, Op.writeOperands]
  cases hd : ins.op.dest? with
  | none => simp
  | some d =>
      by_cases hp : isPinned pinned d.base = true
      · by_cases hdt : d.base = t
        · subst hdt
          simp [hp]
        · simp [hp, hdt]
      · rw [Bool.not_eq_true] at hp
        by_cases hdt : d.base = t
        · subst hdt
          simp [hp]
        · simp [hp, hdt, Ne.symm hdt]

end step

structure Ok (pinned : List String) (done : List (Instr Operand)) (st : State) : Prop where
  length : st.nodes.length = done.length
  node : ∀ {i : Nat} {n : DNode}, st.nodes[i]? = some n → n.idx = i ∧ done[i]? = some n.instr
  writer : ∀ {t i}, st.writer t = some i ↔ isPinned pinned t = false ∧ WritesTag done i t
  edge : ∀ {i j w}, (i, w) ∈ Dag.inEdges st.nodes j ↔ w = 1 ∧ i < j ∧ ∃ ins o, done[j]? = some ins ∧
    o ∈ ins.readOperands ∧ isPinned pinned o.base = false ∧ WritesTag done i o.base
  nodup : ∀ j, (Dag.inEdges st.nodes j).Nodup
  mirror : ∀ i j w, (Dag.outEdges st.nodes i).count (j, w) = (Dag.inEdges st.nodes j).count (i, w)

section kept

variable {done : List (Instr Operand)} {st : State} {ins : Instr Operand}

theorem Ok.mem_sources (h : Ok pinned done st) {src : Nat} : src ∈ sources pinned st.writer ins ↔
    ∃ o ∈ ins.readOperands, isPinned pinned o.base = false ∧ WritesTag done src o.base := by
  rw [BuildDag.mem_sources]
  refine exists_congr fun o => and_congr_right fun _ => ?_
  rw [h.writer]
  tauto

theorem Ok.source_lt (h : Ok pinned done st) {src : Nat} (hs : src ∈ sources pinned st.writer ins) : src < st.nodes.length := by
  obtain ⟨o, -, -, hw⟩ := h.mem_sources.mp hs
  exact h.length ▸ hw.lt

theorem Ok.node_step (h : Ok pinned done st) {i : Nat} {nd : DNode} (hi : (BuildDag.step pinned st ins).nodes[i]? = some nd) :
    nd.idx = i ∧ (done ++ [ins])[i]? = some nd.instr := by
  rw [getElem?_step] at hi
  obtain ⟨m, hm, rfl⟩ := Option.map_eq_some_iff.mp hi
  rcases Nat.lt_trichotomy i st.nodes.length with hin | rfl | hin
  · rw [List.getElem?_append_left hin] at hm
    rw [List.getElem?_append_left (h.length ▸ hin)]
    exact (h.node hm :)
  · rw [List.getElem?_concat_length] at hm
    cases hm
    exact ⟨rfl, by rw [h.length, List.getElem?_concat_length]⟩
  · rw [List.getElem?_eq_none (by simp; omega)] at hm
    cases hm

theorem Ok.writer_step (h : Ok pinned done st) (hu : ∀ {i j t}, isPinned pinned t = false → WritesTag (done ++ [ins]) i t →
    WritesTag (done ++ [ins]) j t → i = j) {t : Sym} {i : Nat} :
    (BuildDag.step pinned st ins).writer t = some i ↔ isPinned pinned t = false ∧ WritesTag (done ++ [ins]) i t := by
  rw [BuildDag.writer_step, writesTag_append, ← h.length]
  split
  · next hc =>
      have hnew : WritesTag (done ++ [ins]) st.nodes.length t := writesTag_append.mpr (.inr ⟨h.length, hc.2⟩)
      constructor
      · rintro ⟨rfl⟩
        exact ⟨hc.1, .inr ⟨rfl, hc.2⟩⟩
      · rintro ⟨hp, hi | ⟨rfl, -⟩⟩
        · rw [hu hp (writesTag_append.mpr (.inl hi)) hnew]
        · rfl
  · next hc =>
      rw [h.writer]
      constructor
      · exact fun hi => ⟨hi.1, .inl hi.2⟩
      · rintro ⟨hp, hi | ⟨rfl, hd⟩⟩
        · exact ⟨hp, hi⟩
        · exact absurd ⟨hp, hd⟩ hc

theorem Ok.edge_step (h : Ok pinned done st) {i j w : Nat} : (i, w) ∈ Dag.inEdges (BuildDag.step pinned st ins).nodes j ↔ w = 1 ∧ i < j ∧
    ∃ jns o, (done ++ [ins])[j]? = some jns ∧ o ∈ jns.readOperands ∧ isPinned pinned o.base = false ∧ WritesTag (done ++ [ins]) i o.base := by
  rw [inEdges_step]
  split
  · next hj =>
      subst hj
      simp only [List.mem_map, Prod.mk.injEq, h.length, List.getElem?_concat_length, Option.some.injEq]
      constructor
      · rintro ⟨src, hs, rfl, rfl⟩
        obtain ⟨o, ho, hp, hw⟩ := h.mem_sources.mp hs
        exact ⟨rfl, hw.lt, ins, o, rfl, ho, hp, writesTag_append.mpr (.inl hw)⟩
      · rintro ⟨rfl, hi, _, o, rfl, ho, hp, hw⟩
        refine ⟨i, h.mem_sources.mpr ⟨o, ho, hp, ?_⟩, rfl, rfl⟩
        exact (writesTag_append.mp hw).resolve_right fun h => absurd h.1 (Nat.ne_of_lt hi)
  · next hj =>
      rw [h.edge]
      refine and_congr_right fun _ => and_congr_right fun hij => exists_congr fun jns => exists_congr fun o => ?_
      have hlen := h.length
      constructor
      · rintro ⟨hjn, ho, hp, hw⟩
        have hjl := (List.getElem?_eq_some_iff.mp hjn).1
        exact ⟨by rwa [List.getElem?_append_left hjl], ho, hp, writesTag_append.mpr (.inl hw)⟩
      · rintro ⟨hjn, ho, hp, hw⟩
        have hjl : j < done.length := by
          have := (List.getElem?_eq_some_iff.mp hjn).1
          simp only [List.length_append, List.length_singleton] at this
          omega
        rw [List.getElem?_append_left hjl] at hjn
        refine ⟨hjn, ho, hp, (writesTag_append.mp hw).resolve_right fun h => ?_⟩
        omega

theorem Ok.mirror_step (h : Ok pinned done st) (i j w : Nat) :
    (Dag.outEdges (BuildDag.step pinned st ins).nodes i).count (j, w) = (Dag.inEdges (BuildDag.step pinned st ins).nodes j).count (i, w) := by
  rw [inEdges_step, outEdges_step _ _ _ h.source_lt, List.count_append, h.mirror, List.count_replicate]
  by_cases hj : j = st.nodes.length
  · subst hj
    have hold : Dag.inEdges st.nodes st.nodes.length = [] := by simp [Dag.inEdges]
    have hcount : ((sources pinned st.writer ins).map (·, 1)).count (i, w) = if w = 1 then (sources pinned st.writer ins).count i else 0 := by
      rw [List.count_eq_countP, List.countP_map, List.count_eq_countP]
      split
      · next hw => exact List.countP_congr fun x _ => by simp [hw]
      · next hw => exact List.countP_eq_zero.mpr fun x _ => by simp [Ne.symm hw]
    rw [hold, List.count_nil, Nat.zero_add, if_pos rfl, hcount]
    simp [@eq_comm _ w]
  · simp [hj, Ne.symm hj]

theorem Ok.step (h : Ok pinned done st) (ins : Instr Operand) (hu : ∀ {i j t}, isPinned pinned t = false →
    WritesTag (done ++ [ins]) i t → WritesTag (done ++ [ins]) j t → i = j) : Ok pinned (done ++ [ins]) (BuildDag.step pinned st ins) where
  length := by rw [length_step, h.length, List.length_append, List.length_singleton]
  node := h.node_step
  writer := h.writer_step hu
  edge := h.edge_step
  nodup j := by
    rw [inEdges_step]
    split
    · exact (nodup_sources _ _).map fun a b hab => (Prod.mk.inj hab).1
    · exact h.nodup j
  mirror := h.mirror_step

end kept

theorem Ok.init : Ok pinned [] ⟨[], fun _ => none⟩ where
  length := rfl
  node h := by simp at h
  writer := by simp [WritesTag]
  edge := by simp [Dag.inEdges]
  nodup j := by simp [Dag.inEdges]
  mirror i j w := by simp [Dag.inEdges, Dag.outEdges]

theorem Ok.foldl {is done : List (Instr Operand)} {st : State} (h : Ok pinned done st)
    (hu : ∀ {i j t}, isPinned pinned t = false → WritesTag (done ++ is) i t → WritesTag (done ++ is) j t → i = j) :
    Ok pinned (done ++ is) (is.foldl (BuildDag.step pinned) st) := by
  induction is generalizing done st with
  | nil => simpa using h
  | cons i is ih =>
      have hsub : ∀ {k t}, WritesTag (done ++ [i]) k t → WritesTag (done ++ i :: is) k t := by
        rintro k t ⟨ins, d, hk, hd⟩
        refine ⟨ins, d, ?_, hd⟩
        rw [← List.singleton_append, ← List.append_assoc,
          List.getElem?_append_left (List.getElem?_eq_some_iff.mp hk).1]
        exact hk
      have hstep := h.step i fun ht hi hj => hu ht (hsub hi) (hsub hj)
      have := ih hstep fun {_ _ _} ht hi hj => hu ht (by simpa using hi) (by simpa using hj)
      simpa using this

end BuildDag

structure DagOf (pinned : List String) (is : List (Instr Operand)) (dag : Dag) : Prop where
  length : dag.nodes.length = is.length
  instr : ∀ {i : Nat} {n : DNode}, dag.nodes[i]? = some n → is[i]? = some n.instr
  wf : Dag.WellFormed dag.nodes
  edge : ∀ {i j w}, (i, w) ∈ Dag.inEdges dag.nodes j ↔ w = 1 ∧ i < j ∧ ∃ ins o, is[j]? = some ins ∧
    o ∈ ins.readOperands ∧ isPinned pinned o.base = false ∧ WritesTag is i o.base
  nodup : ∀ j, (Dag.inEdges dag.nodes j).Nodup
  st : dag.st = ⟨.initial dag.nodes, none⟩

/-- `build_dag` checks that there is a node and that the edges weigh 0 or 1. -/
theorem buildDag_eq {pinned : List String} {is : List (Instr Operand)} {nodes : List DNode}
    (hnodes : (is.foldl (BuildDag.step pinned) ⟨[], fun _ => none⟩).nodes = nodes) (hlen : nodes.length = is.length) (his : is ≠ [])
    (hw : ∀ {i j w}, (i, w) ∈ Dag.inEdges nodes j → w = 1) :
    buildDag is pinned = .ok ⟨nodes, Dag.computeProps nodes, ⟨.initial nodes, none⟩⟩ := by
  have hweights : (nodes.all fun n => n.inEdges.all fun e => e.2 = 0 || e.2 = 1) = true := by
    refine List.all_eq_true.mpr fun n hn => List.all_eq_true.mpr fun e he => ?_
    obtain ⟨i, hi⟩ := List.getElem?_of_mem hn
    have hmem : (e.1, e.2) ∈ Dag.inEdges nodes i := by simpa [Dag.inEdges, hi] using he
    simp [hw hmem]
  have hne : nodes.isEmpty = false := by
    rw [List.isEmpty_eq_false_iff, ne_eq, ← List.length_eq_zero_iff, hlen, List.length_eq_zero_iff]
    exact his
  rw [buildDag, hnodes, Dag.fromNodes, if_pos hweights, hne]
  rfl

/-- `build_dag` fails on the empty program only. -/
theorem buildDag_ok {pinned : List String} {is : List (Instr Operand)} {rc : Sym → Option Int}
    (h : SingleWriter pinned is rc) : if is = [] then buildDag is pinned = .error .valueError else
      ∃ dag, buildDag is pinned = .ok dag ∧ DagOf pinned is dag := by
  have hok : BuildDag.Ok pinned ([] ++ is) (is.foldl (BuildDag.step pinned) ⟨[], fun _ => none⟩) :=
    BuildDag.Ok.init.foldl h.unique
  rw [List.nil_append] at hok
  split
  · next his =>
      subst his
      rfl
  · next his =>
      exact ⟨_, buildDag_eq rfl hok.length his fun he => (hok.edge.mp he).1, hok.length, fun hi => (hok.node hi).2,
        ⟨fun hi => (hok.node hi).1, fun he => .inr (hok.edge.mp he).1, fun he => (hok.edge.mp he).2.1, hok.mirror⟩,
        hok.edge, hok.nodup, rfl⟩

theorem DagOf.of_ok {pinned : List String} {is : List (Instr Operand)} {rc : Sym → Option Int} {dag : Dag}
    (h : SingleWriter pinned is rc) (hdag : buildDag is pinned = .ok dag) : DagOf pinned is dag := by
  have := buildDag_ok h
  split at this
  · cases this.symm.trans hdag
  · obtain ⟨dag', hdag', hof⟩ := this
    cases hdag.symm.trans hdag'
    exact hof

end Vliw
