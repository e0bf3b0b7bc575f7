import VliwKernel.Schedule.Workload

/-!
# Pruning is building

`prune_to_stores` compacts a graph and numbers its edges anew. What comes out is the graph that `build_dag` makes of the
kept instructions, the order of the edges included, and pruning it again changes nothing.
-/

namespace Vliw

variable {pinned : List String} {is : List (Instr Operand)} {rc : Sym → Option Int} {dag dag' : Dag} {ids : List Nat}
  {nodes nodes' : List DNode} {ins : Instr Operand}

namespace BuildDag

section sources

variable {W W' : Sym → Option Nat} {φ : Nat → Nat} {S : Nat → Prop}

theorem sources_map (hφ : ∀ a b, S a → S b → φ a = φ b → a = b) (h : ∀ o ∈ ins.readOperands, isPinned pinned o.base = false →
    W' o.base = (W o.base).map φ ∧ ∀ a, W o.base = some a → S a) : sources pinned W' ins = (sources pinned W ins).map φ := by
  have hstep : ∀ (seen : List Nat) (o : Operand), (∀ a ∈ seen, S a) → o ∈ ins.readOperands →
      addSource pinned W' (seen.map φ) o = (addSource pinned W seen o).map φ ∧ ∀ a ∈ addSource pinned W seen o, S a := by
    intro seen o hseen ho
    cases hp : isPinned pinned o.base with
    | true =>
        simp only [addSource, hp, if_true]
        exact ⟨trivial, hseen⟩
    | false =>
        obtain ⟨hW, hS⟩ := h o ho hp
        cases hw : W o.base with
        | none =>
            rw [hw, Option.map_none] at hW
            simp only [addSource, hp, hw, hW, Bool.false_eq_true, if_false]
            exact ⟨trivial, hseen⟩
        | some a =>
            have ha := hS a hw
            have hmem : φ a ∈ seen.map φ ↔ a ∈ seen := by
              refine ⟨fun hm => ?_, List.mem_map_of_mem⟩
              obtain ⟨b, hb, hba⟩ := List.mem_map.mp hm
              exact hφ b a (hseen b hb) ha hba ▸ hb
            rw [hw, Option.map_some] at hW
            simp only [addSource, hp, hw, hW, Bool.false_eq_true, if_false, hmem]
            by_cases hin : a ∈ seen
            · rw [if_pos hin, if_pos hin]
              exact ⟨rfl, hseen⟩
            · rw [if_neg hin, if_neg hin, List.map_append]
              refine ⟨rfl, fun b hb => ?_⟩
              rcases List.mem_append.mp hb with hb | hb
              · exact hseen b hb
              · exact List.mem_singleton.mp hb ▸ ha
  have hloop : ∀ (os : List Operand) (seen : List Nat), (∀ a ∈ seen, S a) → (∀ o ∈ os, o ∈ ins.readOperands) →
      os.foldl (addSource pinned W') (seen.map φ) = (os.foldl (addSource pinned W) seen).map φ := by
    intro os
    induction os with
    | nil => exact fun _ _ _ => rfl
    | cons o os ih =>
        intro seen hseen hos
        obtain ⟨heq, hall⟩ := hstep seen o hseen (hos o (by simp))
        rw [List.foldl_cons, List.foldl_cons, heq]
        exact ih _ hall fun o' ho' => hos o' (by simp [ho'])
  exact hloop ins.readOperands [] (by simp) fun _ ho => ho

end sources

/-- The order of the edges: into a node in the order of the operands that ask for them, out of it in that of the program. -/
structure Ordered (pinned : List String) (is : List (Instr Operand)) (nodes : List DNode) : Prop where
  inEdges : ∀ {j : Nat} {ins : Instr Operand}, is[j]? = some ins → ∃ W : Sym → Option Nat,
    (∀ t, isPinned pinned t = false → ∀ i, W t = some i ↔ i < j ∧ WritesTag is i t) ∧
    Dag.inEdges nodes j = (sources pinned W ins).map (·, 1)
  outEdges : ∀ i, (Dag.outEdges nodes i).Pairwise fun a b => a.1 < b.1

theorem Ordered.step {done : List (Instr Operand)} {st : State} (ho : Ordered pinned done st.nodes) (h : Ok pinned done st)
    (ins : Instr Operand) : Ordered pinned (done ++ [ins]) (BuildDag.step pinned st ins).nodes := by
  have hlt : ∀ {i j t}, j ≤ done.length → (i < j ∧ WritesTag (done ++ [ins]) i t ↔ i < j ∧ WritesTag done i t) := by
    intro i j t hj
    refine and_congr_right fun hij => ?_
    rw [writesTag_append, or_iff_left]
    exact fun hi => absurd hi.1 (by omega)
  constructor
  case inEdges =>
    intro j jns hj
    rw [inEdges_step]
    split
    · next hjn =>
        rw [hjn, h.length, List.getElem?_concat_length] at hj
        cases hj
        refine ⟨st.writer, fun t hp i => ?_, rfl⟩
        rw [hlt (by rw [hjn, h.length]), h.writer, hjn, h.length]
        exact ⟨fun hw => ⟨hw.2.lt, hw.2⟩, fun hw => ⟨hp, hw.2⟩⟩
    · next hjn =>
        have hjl : j < done.length := by
          have := (List.getElem?_eq_some_iff.mp hj).1
          rw [List.length_append, List.length_singleton] at this
          have := h.length
          omega
        rw [List.getElem?_append_left hjl] at hj
        obtain ⟨W, hW, hin⟩ := ho.inEdges hj
        refine ⟨W, fun t hp i => ?_, hin⟩
        rw [hlt (Nat.le_of_lt hjl), hW t hp]
  case outEdges =>
    intro i
    have hone : (sources pinned st.writer ins).count i ≤ 1 := List.nodup_iff_count_le_one.mp (nodup_sources st.writer ins) i
    rw [outEdges_step _ _ _ h.source_lt, List.pairwise_append]
    refine ⟨ho.outEdges i, ?_, fun a ha b hb => ?_⟩
    · rcases Nat.le_one_iff_eq_zero_or_eq_one.mp hone with hc | hc
      · rw [hc]
        exact List.Pairwise.nil
      · rw [hc]
        exact List.pairwise_singleton _ _
    · obtain ⟨-, rfl⟩ := List.mem_replicate.mp hb
      have hin : (i, a.2) ∈ Dag.inEdges st.nodes a.1 := by
        rw [← List.count_pos_iff, ← h.mirror, List.count_pos_iff]
        exact ha
      exact Dag.length_of_mem_inEdges hin

theorem ordered (hu : ∀ {i j t}, isPinned pinned t = false → WritesTag is i t → WritesTag is j t → i = j) :
    Ordered pinned is (is.foldl (BuildDag.step pinned) ⟨[], fun _ => none⟩).nodes := by
  induction is using List.reverseRecOn with
  | nil =>
      constructor
      case inEdges => intro j ins hj; simp at hj
      case outEdges => exact fun _ => List.Pairwise.nil
  | append_singleton is ins ih =>
      have hu' : ∀ {i j t}, isPinned pinned t = false → WritesTag is i t → WritesTag is j t → i = j :=
        fun hp hi hj => hu hp (writesTag_append.mpr (.inl hi)) (writesTag_append.mpr (.inl hj))
      have hok : Ok pinned ([] ++ is) (is.foldl (BuildDag.step pinned) ⟨[], fun _ => none⟩) := Ok.init.foldl hu'
      rw [List.foldl_append]
      exact (ih hu').step hok ins

theorem Ordered.inEdges_unique (hl : nodes.length = is.length) (hl' : nodes'.length = is.length) (ho : Ordered pinned is nodes)
    (ho' : Ordered pinned is nodes') (j : Nat) : Dag.inEdges nodes j = Dag.inEdges nodes' j := by
  cases hj : is[j]? with
  | none =>
      have hlen := List.getElem?_eq_none_iff.mp hj
      rw [Dag.inEdges, Dag.inEdges, List.getElem?_eq_none (hl ▸ hlen), List.getElem?_eq_none (hl' ▸ hlen)]
  | some ins =>
      obtain ⟨W, hW, hin⟩ := ho.inEdges hj
      obtain ⟨W', hW', hin'⟩ := ho'.inEdges hj
      -- both tables name the writers of the operands
      have hsame : sources pinned W' ins = (sources pinned W ins).map id := by
        refine sources_map (S := fun _ => True) (fun _ _ _ _ h => h) fun o _ hp => ⟨?_, fun _ _ => trivial⟩
        rw [Option.map_id, id]
        ext i
        rw [hW _ hp, hW' _ hp]
      rw [hin, hin', hsame, List.map_id]

theorem eq_of_fields {m n : DNode} (hidx : m.idx = n.idx) (hins : m.instr = n.instr) (hin : m.inEdges = n.inEdges)
    (hout : m.outEdges = n.outEdges) : m = n := by
  cases m
  cases n
  cases hidx
  cases hins
  cases hin
  cases hout
  rfl

/-- One program has one graph with its edges in order. -/
theorem Ordered.unique (hd : DagOf pinned is dag) (ho : Ordered pinned is dag.nodes) (hd' : DagOf pinned is dag')
    (ho' : Ordered pinned is dag'.nodes) : dag.nodes = dag'.nodes := by
  have hin := Ordered.inEdges_unique hd.length hd'.length ho ho'
  -- sorted lists with the same edges, by the mirrored ones
  have hout : ∀ i, Dag.outEdges dag.nodes i = Dag.outEdges dag'.nodes i := by
    intro i
    refine List.Perm.eq_of_pairwise (fun a b _ _ hab hba => absurd hab (Nat.lt_asymm hba)) (ho.outEdges i) (ho'.outEdges i) ?_
    apply List.perm_iff_count.mpr
    intro e
    rw [hd.wf.mirror i e.1 e.2, hd'.wf.mirror i e.1 e.2, hin]
  apply List.ext_getElem (hd.length.trans hd'.length.symm)
  intro k hk hk'
  have hn := List.getElem?_eq_getElem hk
  have hn' := List.getElem?_eq_getElem hk'
  have hink := hin k
  have houtk := hout k
  simp only [Dag.inEdges, Dag.outEdges, hn, hn', Option.map_some, Option.getD_some] at hink houtk
  have hidx := (hd.wf.idx hn).trans (hd'.wf.idx hn').symm
  have hins := Option.some.inj ((hd.instr hn).symm.trans (hd'.instr hn'))
  exact eq_of_fields hidx hins hink houtk

end BuildDag

open BuildDag

section pruned

def keptWriter (ids : List Nat) (W : Sym → Option Nat) (t : Sym) : Option Nat := (W t).bind fun i => if i ∈ ids then some (ids.idxOf i) else none

theorem keptWriter_of {W : Sym → Option Nat} {t : Sym} (h : ∀ i, W t = some i → i ∈ ids) : keptWriter ids W t = (W t).map ids.idxOf := by
  rw [keptWriter]
  cases hw : W t with
  | none => rfl
  | some i => rw [Option.bind_some, if_pos (h i hw), Option.map_some]

theorem keptWriter_eq_some {W : Sym → Option Nat} {t : Sym} {a : Nat} :
    keptWriter ids W t = some a ↔ ∃ i, W t = some i ∧ i ∈ ids ∧ ids.idxOf i = a := by
  rw [keptWriter, Option.bind_eq_some_iff]
  refine exists_congr fun i => and_congr_right fun _ => ?_
  split
  · next hi => rw [Option.some_inj, and_iff_right hi]
  · next hi => exact iff_of_false (fun h => nomatch h) fun h => hi h.1

theorem sources_keptWriter {W : Sym → Option Nat} (hkept : ∀ {i}, i ∈ sources pinned W ins → i ∈ ids) :
    sources pinned (keptWriter ids W) ins = (sources pinned W ins).map ids.idxOf := by
  refine sources_map (S := (· ∈ ids)) (fun a b ha hb hab => ?_) fun o ho hpo => ?_
  · exact (List.idxOf_inj ha).mp hab
  · have hall : ∀ i, W o.base = some i → i ∈ ids := fun i hi => hkept (mem_sources.mpr ⟨o, ho, hpo, hi⟩)
    exact ⟨keptWriter_of hall, hall⟩

variable (hd : DagOf pinned is dag) (hp : Pruned dag.nodes dag'.nodes ids)

include hd hp

/-- The kept writers write in the kept program what the writers write in the whole one. -/
theorem Pruned.keptWriter_iff {W : Sym → Option Nat} {t : Sym} {j k a : Nat} (hk : ids[k]? = some j)
    (hW : ∀ i, W t = some i ↔ i < j ∧ WritesTag is i t) : keptWriter ids W t = some a ↔ a < k ∧ WritesTag dag'.instrs a t := by
  rw [keptWriter_eq_some, hp.writesTag_iff hd]
  constructor
  · rintro ⟨i, hi, him, hia⟩
    have hget := (hp.idxOf_eq him).mp hia
    obtain ⟨hij, hw⟩ := (hW i).mp hi
    exact ⟨(hp.lt_iff hget hk).mp hij, i, hget, hw⟩
  · rintro ⟨hak, i, ha, hw⟩
    have him := List.mem_of_getElem? ha
    exact ⟨i, (hW i).mpr ⟨(hp.lt_iff ha hk).mpr hak, hw⟩, him, (hp.idxOf_eq him).mpr ha⟩

theorem Pruned.ordered (ho : Ordered pinned is dag.nodes) : Ordered pinned dag'.instrs dag'.nodes := by
  constructor
  case inEdges =>
    intro k ins hk
    rw [hp.instrs_getElem? hd, Option.bind_eq_some_iff] at hk
    obtain ⟨j, hj, hins⟩ := hk
    obtain ⟨W, hW, hin⟩ := ho.inEdges hins
    have hkept : ∀ {i}, i ∈ sources pinned W ins → i ∈ ids := by
      intro i hi
      apply hp.source_kept hd (List.mem_of_getElem? hj) (w := 1)
      rw [hin]
      exact List.mem_map_of_mem hi
    refine ⟨keptWriter ids W, fun t hpt a => hp.keptWriter_iff hd hj (hW t hpt), ?_⟩
    -- every source of a kept node is kept, so the filter drops none of them
    have hfilter : ((sources pinned W ins).map fun i => (i, 1)).filter (fun e => e.1 ∈ ids) = (sources pinned W ins).map fun i => (i, 1) := by
      apply List.filter_eq_self.mpr
      intro e he
      obtain ⟨i, hi, rfl⟩ := List.mem_map.mp he
      exact decide_eq_true (hkept hi)
    rw [(hp.edges hj).1, hin, Prune.remap, hfilter, sources_keptWriter hkept, List.map_map, List.map_map]
    rfl
  case outEdges =>
    intro k
    cases hk : ids[k]? with
    | none =>
        rw [Dag.outEdges, List.getElem?_eq_none (by rw [hp.length]; exact List.getElem?_eq_none_iff.mp hk)]
        exact List.Pairwise.nil
    | some i =>
        rw [(hp.edges hk).2, Prune.remap, List.pairwise_map]
        refine List.Pairwise.imp_of_mem (fun {a b} ha hb hab => ?_) ((ho.outEdges i).filter _)
        have ha' := List.getElem?_idxOf (of_decide_eq_true (List.mem_filter.mp ha).2)
        have hb' := List.getElem?_idxOf (of_decide_eq_true (List.mem_filter.mp hb).2)
        exact (hp.lt_iff ha' hb').mp hab

omit hd in
theorem Pruned.useful {i k : Nat} (hu : Useful dag.nodes i) (hk : ids[k]? = some i) : Useful dag'.nodes k := by
  obtain ⟨s, n, hs, hstore, hpath⟩ := hu
  induction hpath using Relation.ReflTransGen.head_induction_on generalizing k with
  | refl => exact ⟨k, _, hp.node hk hs, hstore, .refl⟩
  | head he hpath ih =>
      have hj := hp.mem.mpr ⟨Dag.length_of_mem_inEdges he, .inl ⟨s, n, hs, hstore, hpath⟩⟩
      obtain ⟨b, hb⟩ := List.getElem?_of_mem hj
      obtain ⟨s', n', hs', hstore', hpath'⟩ := ih hb
      exact ⟨s', n', hs', hstore', .head ((hp.mem_inEdges hb).mpr ⟨_, hk, he⟩) hpath'⟩

omit hd in
theorem Pruned.kept {k : Nat} (hk : k < dag'.nodes.length) : Kept dag'.nodes k := by
  have hlt : k < ids.length := hp.length ▸ hk
  have hget := List.getElem?_eq_getElem hlt
  obtain ⟨hi, hu | ⟨n, hn, hdebug, hall⟩⟩ := hp.mem.mp (List.mem_of_getElem? hget)
  · exact .inl (hp.useful hu hget)
  · have hnode := hp.node hget hn
    refine .inr ⟨_, hnode, hdebug, fun e he he1 => ?_⟩
    have hmem : (e.1, e.2) ∈ Dag.inEdges dag'.nodes k := by
      rw [Dag.inEdges, hnode]
      exact he
    obtain ⟨i, ha, hin⟩ := (hp.mem_inEdges hget).mp hmem
    have hin' : (i, e.2) ∈ n.inEdges := by simpa [Dag.inEdges, hn] using hin
    exact hp.useful (hall _ hin' he1) ha

end pruned

theorem Dag.fromNodes_nodes (h : Dag.fromNodes nodes = .ok dag) : dag.nodes = nodes := by
  simp only [Dag.fromNodes] at h
  split at h
  · split at h
    · cases h
    · cases h
      rfl
  · cases h

theorem exists_store (hw : Dag.WellFormed dag.nodes) (h : pruneToStores dag = .ok dag') :
    ∃ (i : Nat) (n : DNode), dag.nodes[i]? = some n ∧ n.engine = .store := by
  cases hs : Prune.stores dag.nodes with
  | nil => simp [pruneToStores, hs] at h
  | cons i rest => exact ⟨i, (Prune.mem_stores hw).mp (by simp [hs])⟩

/-- The pruned graph is what `build_dag` makes of the kept instructions. -/
theorem buildDag_pruned (ht : Tagged pinned is rc) (hdag : buildDag is pinned = .ok dag) (hprune : pruneToStores dag = .ok dag') :
    buildDag dag'.instrs pinned = .ok dag' := by
  have hd : DagOf pinned is dag := .of_ok ht.toSingleWriter hdag
  obtain ⟨ids, hp, hst⟩ := Pruned.of_ok hd.wf hprune
  have ht' := hp.tagged ht hd
  have hd' := hp.dagOf hd hst
  have ho : Ordered pinned is dag.nodes := by
    rw [Dag.fromNodes_nodes hdag]
    exact ordered ht.unique
  obtain ⟨nodes, hfrom⟩ : ∃ nodes, Dag.fromNodes nodes = .ok dag' := by
    simp only [pruneToStores] at hprune
    split at hprune
    · cases hprune
    · split at hprune
      · cases hprune
      · exact ⟨_, hprune⟩
  obtain rfl := Dag.fromNodes_nodes hfrom
  have hok := buildDag_ok ht'.toSingleWriter
  split at hok
  · next hnil =>
      have hlen : dag'.nodes = [] := by rwa [Dag.instrs, List.map_eq_nil_iff] at hnil
      rw [hlen] at hfrom
      cases hfrom
  · obtain ⟨dag'', hbuild, hd''⟩ := hok
    have ho'' : Ordered pinned dag'.instrs dag''.nodes := by
      rw [Dag.fromNodes_nodes hbuild]
      exact ordered ht'.unique
    have hsame := Ordered.unique hd'' ho'' hd' (hp.ordered hd ho)
    rw [← hfrom, ← hsame, Dag.fromNodes_nodes hbuild]
    rfl

/-- Pruning a built graph gives the graph that is built from the kept instructions, and pruning it once more changes nothing. -/
theorem prune_rebuilds (ht : Tagged pinned is rc) (hdag : buildDag is pinned = .ok dag) (hprune : pruneToStores dag = .ok dag') :
    buildDag dag'.instrs pinned = .ok dag' ∧ pruneToStores dag' = .ok dag' := by
  have hd : DagOf pinned is dag := .of_ok ht.toSingleWriter hdag
  obtain ⟨ids, hp, hst⟩ := Pruned.of_ok hd.wf hprune
  have ht' := hp.tagged ht hd
  have hd' := hp.dagOf hd hst
  have hbuild := buildDag_pruned ht hdag hprune
  refine ⟨hbuild, ?_⟩
  obtain ⟨s, n, hs, hstore⟩ : ∃ (i : Nat) (n : DNode), dag'.nodes[i]? = some n ∧ n.engine = .store := by
    obtain ⟨i, n, hn, hstore⟩ := exists_store hd.wf hprune
    obtain ⟨k, hk⟩ := List.getElem?_of_mem (hp.mem.mpr ⟨(List.getElem?_eq_some_iff.mp hn).1, .inl ⟨i, n, hn, hstore, .refl⟩⟩)
    exact ⟨k, _, hp.node hk hn, hstore⟩
  obtain ⟨dag₂, ids₂, hprune₂, hp₂, -⟩ := pruneToStores_ok hd'.wf ⟨s, n, hs, hstore⟩
  have hall : ids₂ = List.range dag'.nodes.length := by
    refine List.Perm.eq_of_pairwise (fun a b _ _ hab hba => absurd hab (Nat.lt_asymm hba)) hp₂.sorted List.pairwise_lt_range ?_
    refine (List.perm_ext_iff_of_nodup hp₂.nodup List.nodup_range).mpr fun k => ?_
    rw [hp₂.mem, List.mem_range]
    exact and_iff_left_of_imp hp.kept
  have hinstrs : dag₂.instrs = dag'.instrs := by
    rw [hp₂.instrs_eq hd', hall, hd'.length, reordered_range]
  have hbuild₂ := buildDag_pruned ht' hbuild hprune₂
  rw [hinstrs, hbuild] at hbuild₂
  rw [hprune₂, Except.ok.inj hbuild₂]

/-- Pruned of its dead constant the program is the program without it. -/
theorem prune_rebuilds_dead : ∃ is rc dag dag', tagRawChains deadConst PINNED = .ok (is, rc) ∧ buildDag is PINNED = .ok dag ∧
    dag'.instrs.map Instr.rid = [0, 2, 3, 4] ∧ pruneToStores dag = .ok dag' ∧ buildDag dag'.instrs PINNED = .ok dag' ∧
    pruneToStores dag' = .ok dag' := by
  have hcompile : (do
      let x ← tagRawChains deadConst PINNED
      let dag ← buildDag x.1 PINNED
      let dag' ← pruneToStores dag
      .ok (dag'.instrs.map Instr.rid)) = (.ok [0, 2, 3, 4] : Except PyErr _) := by decide +kernel
  obtain ⟨⟨is, rc⟩, htag, hcompile⟩ := bind_eq_ok.mp hcompile
  obtain ⟨dag, hdag, hcompile⟩ := bind_eq_ok.mp hcompile
  obtain ⟨dag', hprune, hcompile⟩ := bind_eq_ok.mp hcompile
  have hrid := Except.ok.inj hcompile
  obtain ⟨hbuild, hagain⟩ := prune_rebuilds (tagRawChains_tagged pinned_noHash htag) hdag hprune
  exact ⟨is, rc, dag, dag', htag, hdag, hrid, hprune, hbuild, hagain⟩

end Vliw
