import VliwKernel.Lib.Worklist
import VliwKernel.Scheduler.Frontier

/-!
# Pruning to the stores

`prune_to_stores` keeps the stores, what they need along RAW edges, and the debug nodes all of whose producers
are kept, and numbers what is kept anew.
-/

namespace Vliw
namespace Prune

def stores (nodes : List DNode) : List Nat := (nodes.filter fun n => n.engine = .store).map DNode.idx

def rawSources (nodes : List DNode) (i : Nat) : List Nat := ((Dag.inEdges nodes i).filter fun e => e.2 = 1).map Prod.fst

/-- Useful nodes stay, and debug nodes whose RAW producers are useful. -/
def keep (useful : List Nat) (n : DNode) : Bool :=
  n.idx ∈ useful || (n.engine = .debug && n.inEdges.all fun e => e.2 ≠ 1 || e.1 ∈ useful)

def remap (ids : List Nat) (es : List (Nat × Nat)) : List (Nat × Nat) :=
  (es.filter fun e => e.1 ∈ ids).map fun e => (ids.idxOf e.1, e.2)

def compact (kept : List DNode) : List DNode :=
  let ids := kept.map DNode.idx
  kept.mapIdx fun k n => ⟨k, n.instr, remap ids n.inEdges, remap ids n.outEdges⟩

end Prune

def pruneToStores (dag : Dag) : Except PyErr Dag :=
  let stores := Prune.stores dag.nodes
  if stores.isEmpty then .error .assertion
  else
    match Worklist.search (Prune.rawSources dag.nodes) dag.nodes.length stores stores.reverse with
    | none => .error .outOfFuel
    | some useful => Dag.fromNodes (Prune.compact (dag.nodes.filter (Prune.keep useful)))

/-- Node `i` is a store or has a RAW path to one. -/
def Useful (nodes : List DNode) (i : Nat) : Prop :=
  ∃ s n, nodes[s]? = some n ∧ n.engine = .store ∧ Relation.ReflTransGen (fun i j => (i, 1) ∈ Dag.inEdges nodes j) i s

/-- Node `i` is useful, or a debug node with useful producers. -/
def Kept (nodes : List DNode) (i : Nat) : Prop :=
  Useful nodes i ∨ ∃ n, nodes[i]? = some n ∧ n.engine = .debug ∧ ∀ e ∈ n.inEdges, e.2 = 1 → Useful nodes e.1

/-- `nodes'` is the subgraph of `nodes` induced by `ids`, the kept nodes in their order. -/
structure Pruned (nodes nodes' : List DNode) (ids : List Nat) : Prop where
  sorted : ids.Pairwise (· < ·)
  mem : ∀ {i}, i ∈ ids ↔ i < nodes.length ∧ Kept nodes i
  length : nodes'.length = ids.length
  node : ∀ {k i : Nat} {n : DNode}, ids[k]? = some i → nodes[i]? = some n →
    nodes'[k]? = some ⟨k, n.instr, Prune.remap ids n.inEdges, Prune.remap ids n.outEdges⟩

namespace Prune

variable {nodes : List DNode} {i : Nat}

theorem mem_stores (hw : Dag.WellFormed nodes) : i ∈ stores nodes ↔ ∃ n, nodes[i]? = some n ∧ n.engine = .store := by
  simp only [stores, List.mem_map, List.mem_filter, decide_eq_true_eq]
  constructor
  · rintro ⟨n, ⟨hn, he⟩, rfl⟩
    obtain ⟨j, hj⟩ := List.getElem?_of_mem hn
    rw [hw.idx hj]
    exact ⟨n, hj, he⟩
  · rintro ⟨n, hn, he⟩
    exact ⟨n, ⟨List.mem_of_getElem? hn, he⟩, hw.idx hn⟩

theorem map_idx (hw : Dag.WellFormed nodes) : nodes.map DNode.idx = List.range nodes.length := by
  refine List.ext_getElem? fun i => ?_
  rw [List.getElem?_map]
  by_cases hi : i < nodes.length
  · rw [List.getElem?_range hi, List.getElem?_eq_getElem hi, Option.map_some, hw.idx (List.getElem?_eq_getElem hi)]
  · rw [List.getElem?_eq_none (by omega), List.getElem?_eq_none (by simp; omega)]
    rfl

theorem getElem?_of_mem (hw : Dag.WellFormed nodes) {n : DNode} (h : n ∈ nodes) : nodes[n.idx]? = some n := by
  obtain ⟨i, hi⟩ := List.getElem?_of_mem h
  rwa [hw.idx hi]

theorem search_useful (hw : Dag.WellFormed nodes) : ∃ useful,
    Worklist.search (rawSources nodes) nodes.length (stores nodes) (stores nodes).reverse = some useful ∧
      ∀ i, i ∈ useful ↔ Useful nodes i := by
  have hnd : (stores nodes).Nodup := by
    refine List.Nodup.sublist (List.filter_sublist.map DNode.idx) ?_
    rw [map_idx hw]
    exact List.nodup_range
  have hnext : ∀ x ∈ List.range nodes.length, ∀ y ∈ rawSources nodes x, y ∈ List.range nodes.length := by
    intro x hx y hy
    obtain ⟨e, he, rfl⟩ := List.mem_map.mp hy
    have hlt := hw.lt (List.mem_filter.mp he).1
    rw [List.mem_range] at hx ⊢
    omega
  have hroots : ∀ r ∈ stores nodes, r ∈ List.range nodes.length := by
    intro r hr
    obtain ⟨n, hn, -⟩ := (mem_stores hw).mp hr
    exact List.mem_range.mpr (List.getElem?_eq_some_iff.mp hn).1
  obtain ⟨useful, hsearch, hmem⟩ := Worklist.search_roots hnext hnd hroots (List.reverse_perm _)
  rw [List.length_range] at hsearch
  refine ⟨useful, hsearch, fun i => ?_⟩
  have hedge : ∀ x y, y ∈ rawSources nodes x ↔ (y, 1) ∈ Dag.inEdges nodes x := by
    intro x y
    simp only [rawSources, List.mem_map, List.mem_filter, decide_eq_true_eq]
    constructor
    · rintro ⟨⟨src, w⟩, ⟨he, rfl⟩, rfl⟩
      exact he
    · exact fun he => ⟨(y, 1), ⟨he, rfl⟩, rfl⟩
  have hreach : ∀ s, Worklist.Reaches (rawSources nodes) s i ↔
      Relation.ReflTransGen (fun i j => (i, 1) ∈ Dag.inEdges nodes j) i s := by
    intro s
    rw [Worklist.Reaches, ← Relation.reflTransGen_swap]
    simp only [hedge]
  rw [hmem]
  constructor
  · rintro ⟨s, hs, hsi⟩
    obtain ⟨n, hn, he⟩ := (mem_stores hw).mp hs
    exact ⟨s, n, hn, he, (hreach s).mp hsi⟩
  · rintro ⟨s, n, hn, he, his⟩
    exact ⟨s, (mem_stores hw).mpr ⟨n, hn, he⟩, (hreach s).mpr his⟩

theorem keep_iff (hw : Dag.WellFormed nodes) {useful : List Nat} (hu : ∀ i, i ∈ useful ↔ Useful nodes i) {n : DNode}
    (hn : nodes[i]? = some n) : keep useful n = true ↔ Kept nodes i := by
  simp only [keep, Bool.or_eq_true, Bool.and_eq_true, decide_eq_true_eq, List.all_eq_true, hu, hw.idx hn, Kept, hn,
    Option.some.injEq, exists_eq_left', ne_eq]
  refine or_congr_right (and_congr_right fun _ => forall_congr' fun e => imp_congr_right fun _ => ?_)
  exact ⟨fun h he => h.resolve_left (not_not_intro he), fun h => (Classical.em (e.2 = 1)).elim (fun he => .inr (h he)) .inl⟩

theorem compact_pruned (hw : Dag.WellFormed nodes) {useful : List Nat} (hu : ∀ i, i ∈ useful ↔ Useful nodes i) :
    Pruned nodes (compact (nodes.filter (keep useful))) ((nodes.filter (keep useful)).map DNode.idx) := by
  constructor
  case sorted =>
    refine List.Pairwise.sublist (List.filter_sublist.map DNode.idx) ?_
    rw [map_idx hw]
    exact List.pairwise_lt_range
  case mem =>
    intro i
    simp only [List.mem_map, List.mem_filter]
    constructor
    · rintro ⟨n, ⟨hn, hk⟩, rfl⟩
      have hi := getElem?_of_mem hw hn
      exact ⟨(List.getElem?_eq_some_iff.mp hi).1, (keep_iff hw hu hi).mp hk⟩
    · rintro ⟨hi, hk⟩
      have hn := List.getElem?_eq_getElem hi
      exact ⟨nodes[i], ⟨List.getElem_mem hi, (keep_iff hw hu hn).mpr hk⟩, hw.idx hn⟩
  case length => simp [compact]
  case node =>
    intro k i n hk hn
    rw [List.getElem?_map, Option.map_eq_some_iff] at hk
    obtain ⟨m, hm, rfl⟩ := hk
    have hmn := getElem?_of_mem hw (List.mem_filter.mp (List.mem_of_getElem? hm)).1
    cases hn.symm.trans hmn
    simp only [compact, List.getElem?_mapIdx, hm, Option.map_some]

end Prune

namespace Pruned

variable {nodes nodes' : List DNode} {ids : List Nat} {i j k : Nat}

theorem nodup (h : Pruned nodes nodes' ids) : ids.Nodup := h.sorted.imp Nat.ne_of_lt

theorem exists_old (h : Pruned nodes nodes' ids) {m : DNode} (hk : nodes'[k]? = some m) : ∃ i n, ids[k]? = some i ∧ nodes[i]? = some n ∧
    m = ⟨k, n.instr, Prune.remap ids n.inEdges, Prune.remap ids n.outEdges⟩ := by
  have hlt : k < ids.length := h.length ▸ (List.getElem?_eq_some_iff.mp hk).1
  have hi := List.getElem?_eq_getElem hlt
  have hin := (h.mem.mp (List.mem_of_getElem? hi)).1
  have hn := List.getElem?_eq_getElem hin
  exact ⟨_, _, hi, hn, Option.some.inj (hk.symm.trans (h.node hi hn))⟩

theorem lt_iff (h : Pruned nodes nodes' ids) {a b : Nat} (hi : ids[a]? = some i) (hj : ids[b]? = some j) : i < j ↔ a < b := by
  obtain ⟨ha, rfl⟩ := List.getElem?_eq_some_iff.mp hi
  obtain ⟨hb, rfl⟩ := List.getElem?_eq_some_iff.mp hj
  have hlt := List.pairwise_iff_getElem.mp h.sorted
  refine ⟨fun hab => ?_, fun hab => hlt a b ha hb hab⟩
  by_contra hn
  rcases Nat.lt_or_eq_of_le (Nat.le_of_not_lt hn) with hba | rfl
  · exact Nat.lt_asymm hab (hlt b a hb ha hba)
  · exact Nat.lt_irrefl _ hab

theorem idxOf_eq (h : Pruned nodes nodes' ids) {a : Nat} (hi : i ∈ ids) : ids.idxOf i = a ↔ ids[a]? = some i := by
  constructor
  · rintro rfl
    exact List.getElem?_idxOf hi
  · intro ha
    obtain ⟨hlt, rfl⟩ := List.getElem?_eq_some_iff.mp ha
    exact h.nodup.idxOf_getElem a hlt

theorem count_remap (h : Pruned nodes nodes' ids) {a w : Nat} (hi : ids[a]? = some i) (es : List (Nat × Nat)) :
    (Prune.remap ids es).count (a, w) = es.count (i, w) := by
  have hmem := List.mem_of_getElem? hi
  rw [Prune.remap, List.count_eq_countP, List.countP_map, List.countP_filter, List.count_eq_countP]
  refine List.countP_congr fun e _ => ?_
  simp only [Function.comp_apply, Bool.and_eq_true, beq_iff_eq, decide_eq_true_eq, Prod.ext_iff]
  constructor
  · rintro ⟨⟨ha, hw⟩, he⟩
    rw [h.idxOf_eq he, hi] at ha
    exact ⟨(Option.some.inj ha).symm, hw⟩
  · rintro ⟨rfl, hw⟩
    exact ⟨⟨(h.idxOf_eq hmem).mpr hi, hw⟩, hmem⟩

theorem old_of_mem_remap {a w : Nat} {es : List (Nat × Nat)} (he : (a, w) ∈ Prune.remap ids es) : ∃ i, ids[a]? = some i := by
  obtain ⟨e, hm, heq⟩ := List.mem_map.mp he
  obtain ⟨rfl, -⟩ := Prod.mk.inj heq
  exact ⟨e.1, List.getElem?_idxOf (of_decide_eq_true (List.mem_filter.mp hm).2)⟩

theorem edges (h : Pruned nodes nodes' ids) (hi : ids[k]? = some i) :
    Dag.inEdges nodes' k = Prune.remap ids (Dag.inEdges nodes i) ∧ Dag.outEdges nodes' k = Prune.remap ids (Dag.outEdges nodes i) := by
  have hn := List.getElem?_eq_getElem (h.mem.mp (List.mem_of_getElem? hi)).1
  simp [Dag.inEdges, Dag.outEdges, h.node hi hn, hn]

theorem mem_inEdges (h : Pruned nodes nodes' ids) (hj : ids[k]? = some j) {a w : Nat} :
    (a, w) ∈ Dag.inEdges nodes' k ↔ ∃ i, ids[a]? = some i ∧ (i, w) ∈ Dag.inEdges nodes j := by
  rw [(h.edges hj).1]
  constructor
  · intro he
    obtain ⟨i, hi⟩ := old_of_mem_remap he
    exact ⟨i, hi, List.count_pos_iff.mp (by rw [← h.count_remap hi]; exact List.count_pos_iff.mpr he)⟩
  · rintro ⟨i, hi, he⟩
    exact List.count_pos_iff.mp (by rw [h.count_remap hi]; exact List.count_pos_iff.mpr he)

theorem wellFormed (h : Pruned nodes nodes' ids) (hw : Dag.WellFormed nodes) : Dag.WellFormed nodes' := by
  have hold : ∀ {k e}, e ∈ Dag.inEdges nodes' k → ∃ j i, ids[k]? = some j ∧ ids[e.1]? = some i ∧ (i, e.2) ∈ Dag.inEdges nodes j := by
    intro k e he
    have hk : k < ids.length := h.length ▸ Dag.length_of_mem_inEdges he
    obtain ⟨i, hi, hij⟩ := (h.mem_inEdges (List.getElem?_eq_getElem hk)).mp he
    exact ⟨_, i, List.getElem?_eq_getElem hk, hi, hij⟩
  constructor
  case idx =>
    intro k m hk
    obtain ⟨i, n, -, -, rfl⟩ := h.exists_old hk
    rfl
  case weight =>
    intro k e he
    obtain ⟨j, i, -, -, hij⟩ := hold he
    exact (hw.weight hij :)
  case lt =>
    intro k e he
    obtain ⟨j, i, hj, hi, hij⟩ := hold he
    exact (h.lt_iff hi hj).mp (hw.lt hij)
  case mirror =>
    intro a b w
    cases ha : ids[a]? with
    | none =>
        have hout : Dag.outEdges nodes' a = [] := by
          rw [Dag.outEdges, List.getElem?_eq_none (by rw [h.length]; exact List.getElem?_eq_none_iff.mp ha)]
          rfl
        rw [hout, List.count_nil, eq_comm, List.count_eq_zero]
        intro he
        obtain ⟨j, i, -, hi, -⟩ := hold he
        rw [ha] at hi
        cases hi
    | some i =>
        cases hb : ids[b]? with
        | none =>
            have hin : Dag.inEdges nodes' b = [] := by
              rw [Dag.inEdges, List.getElem?_eq_none (by rw [h.length]; exact List.getElem?_eq_none_iff.mp hb)]
              rfl
            rw [hin, List.count_nil, List.count_eq_zero, (h.edges ha).2]
            intro he
            obtain ⟨j, hj⟩ := old_of_mem_remap he
            rw [hb] at hj
            cases hj
        | some j => rw [(h.edges ha).2, (h.edges hb).1, h.count_remap hb, h.count_remap ha, hw.mirror]

end Pruned

/-- Pruning a graph that has a store. -/
theorem pruneToStores_ok {dag : Dag} (hw : Dag.WellFormed dag.nodes)
    (hstore : ∃ (i : Nat) (n : DNode), dag.nodes[i]? = some n ∧ n.engine = .store) :
    ∃ dag' ids, pruneToStores dag = .ok dag' ∧ Pruned dag.nodes dag'.nodes ids ∧ dag'.st = ⟨.initial dag'.nodes, none⟩ := by
  obtain ⟨i, n, hn, he⟩ := hstore
  have hmem := (Prune.mem_stores hw).mpr ⟨n, hn, he⟩
  have hne : (Prune.stores dag.nodes).isEmpty = false := by
    rw [List.isEmpty_eq_false_iff]
    exact List.ne_nil_of_mem hmem
  obtain ⟨useful, hsearch, hu⟩ := Prune.search_useful hw
  have hp := Prune.compact_pruned hw hu
  set nodes' := Prune.compact (dag.nodes.filter (Prune.keep useful)) with hnodes'
  have hw' := hp.wellFormed hw
  have hkept : i ∈ (dag.nodes.filter (Prune.keep useful)).map DNode.idx :=
    hp.mem.mpr ⟨(List.getElem?_eq_some_iff.mp hn).1, .inl ⟨i, n, hn, he, .refl⟩⟩
  have hne' : nodes'.isEmpty = false := by
    rw [List.isEmpty_eq_false_iff, ← List.length_pos_iff, hp.length]
    exact List.length_pos_of_mem hkept
  have hweights : (nodes'.all fun n => n.inEdges.all fun e => e.2 = 0 || e.2 = 1) = true := by
    refine List.all_eq_true.mpr fun m hm => List.all_eq_true.mpr fun e he => ?_
    obtain ⟨k, hk⟩ := List.getElem?_of_mem hm
    have hmem : e ∈ Dag.inEdges nodes' k := by simpa [Dag.inEdges, hk] using he
    simpa using hw'.weight hmem
  refine ⟨⟨nodes', Dag.computeProps nodes', ⟨.initial nodes', none⟩⟩, _, ?_, hp, rfl⟩
  simp only [pruneToStores, hne, Bool.false_eq_true, if_false, hsearch, Dag.fromNodes, ← hnodes', hweights, if_true, hne']

end Vliw
