import Mathlib.Data.Int.ConditionallyCompleteOrder
import Mathlib.Data.Prod.Lex
import Mathlib.Order.WithBot
import VliwKernel.Lib.Paths
import VliwKernel.Scheduler.Protocol

/-!
# The static properties of the nodes

What `_compute_props` finds in its sweeps over the graph: the longest path from a node, the shortest to a load, and the
deepest sink that a node reaches. Each is a recurrence over the edges of a well-formed graph, and so the best over all
paths. The properties are these values over the greatest of them.
-/

namespace Vliw
namespace Dag

variable {nodes : List DNode} {i j w d : Nat} {node : DNode}

def Edge (nodes : List DNode) (i j w : Nat) : Prop := (j, w) ∈ outEdges nodes i

def isLoad (nodes : List DNode) (i : Nat) : Bool := nodes[i]?.any fun n => n.engine = .load

/-- A non-debug node without out-edges. -/
def isSink (nodes : List DNode) (i : Nat) : Bool := nodes[i]?.any fun n => n.outEdges.isEmpty && n.engine ≠ .debug

/-- The id of a sink, in the order of depth and then index. -/
def sinkId (nodes : List DNode) (depth : Nat → Nat) (s : Nat) : Nat :=
  ((List.range nodes.length).countP fun t => isSink nodes t && toLex (depth t, t) < toLex (depth s, s)) + 1

/-- The group of a node: the id of the deepest sink that it reaches, of several the lowest. -/
inductive GroupOf (nodes : List DNode) (depth : Nat → Nat) (i : Nat) : Nat → Prop
  | none : (∀ s d, Path (Edge nodes) i s d → isSink nodes s = false) → GroupOf nodes depth i 0
  | deepest {s d} : Path (Edge nodes) i s d → isSink nodes s = true →
      (∀ t d, Path (Edge nodes) i t d → isSink nodes t = true →
        depth t < depth s ∨ depth t = depth s ∧ sinkId nodes depth s ≤ sinkId nodes depth t) →
      GroupOf nodes depth i (sinkId nodes depth s)

theorem outEdges_eq (hn : nodes[i]? = some node) : outEdges nodes i = node.outEdges := by
  rw [outEdges, hn, Option.map_some, Option.getD_some]

theorem inEdges_eq (hn : nodes[i]? = some node) : inEdges nodes i = node.inEdges := by
  rw [inEdges, hn, Option.map_some, Option.getD_some]

section graph

variable (hw : WellFormed nodes)

include hw

theorem WellFormed.edge_bounds (h : Edge nodes i j w) : i < j ∧ j < nodes.length ∧ w ≤ 1 := by
  have hin := hw.mem_outEdges.mp h
  have hweight : w = 0 ∨ w = 1 := hw.weight hin
  exact ⟨hw.lt hin, length_of_mem_inEdges hin, by omega⟩

theorem WellFormed.path_bounds (h : Path (Edge nodes) i j d) (hi : i < nodes.length) : i + d ≤ j ∧ j < nodes.length := by
  induction h with
  | nil i => exact ⟨Nat.le_refl i, hi⟩
  | cons he _ ih =>
      obtain ⟨hlt, hj, hw1⟩ := hw.edge_bounds he
      obtain ⟨hle, hk⟩ := ih hj
      exact ⟨by omega, hk⟩

theorem WellFormed.wellFounded_out : WellFounded fun j i => ∃ w, Edge nodes i j w := by
  refine Subrelation.wf (r := fun j i => nodes.length - j < nodes.length - i) (fun {j i} h => ?_)
    (InvImage.wf (fun i => nodes.length - i) Nat.lt_wfRel.wf)
  obtain ⟨w, he⟩ := h
  obtain ⟨hlt, hj, -⟩ := hw.edge_bounds he
  show nodes.length - j < nodes.length - i
  omega

theorem WellFormed.wellFounded_in : WellFounded fun j i => ∃ w, Edge nodes j i w :=
  Subrelation.wf (r := (· < ·)) (fun h => by
    obtain ⟨w, he⟩ := h
    exact (hw.edge_bounds he).1) Nat.lt_wfRel.wf

theorem WellFormed.map_idx : nodes.map DNode.idx = List.range nodes.length := by
  refine List.ext_getElem (by simp) fun i hi _ => ?_
  rw [List.getElem_map, List.getElem_range]
  exact hw.idx (List.getElem?_eq_getElem (by simpa using hi))

theorem WellFormed.split (hn : nodes[i]? = some node) : ∃ pre post, nodes = pre ++ node :: post ∧
    (∀ k ∈ pre.map DNode.idx, k < i) ∧ ∀ k ∈ post.map DNode.idx, i < k := by
  obtain ⟨hi, rfl⟩ := List.getElem?_eq_some_iff.mp hn
  refine ⟨nodes.take i, nodes.drop (i + 1), by rw [List.getElem_cons_drop, List.take_append_drop], fun k hk => ?_, fun k hk => ?_⟩
  · rw [List.map_take, hw.map_idx, List.take_range, List.mem_range] at hk
    omega
  · rw [List.map_drop, hw.map_idx, List.range_eq_range', List.drop_range', List.mem_range'_1] at hk
    omega

section sweeps

variable {β : Type} {pick : β → Nat × Nat → β → β} {start : β → β} {out : DNode → β → β} {f : Nat → β}

theorem WellFormed.sweep_out (hn : nodes[i]? = some node) : sweep DNode.idx (settle DNode.idx DNode.outEdges pick start out) nodes f i =
    out node ((outEdges nodes i).foldl
      (fun b e => pick b e (sweep DNode.idx (settle DNode.idx DNode.outEdges pick start out) nodes f e.1)) (start (f i))) := by
  obtain rfl := hw.idx hn
  obtain ⟨pre, post, hsplit, hpre, -⟩ := hw.split hn
  rw [outEdges_eq hn]
  refine sweep_settle hsplit (hw.map_idx ▸ List.nodup_range) fun e he => ?_
  have hlt := (hw.edge_bounds (outEdges_eq hn ▸ he : e ∈ outEdges nodes node.idx)).1
  exact ⟨fun hmem => Nat.lt_asymm hlt (hpre _ hmem), (Nat.ne_of_lt hlt).symm⟩

theorem WellFormed.sweep_in (hn : nodes[i]? = some node) :
    sweep DNode.idx (settle DNode.idx DNode.inEdges pick start out) nodes.reverse f i =
    out node ((inEdges nodes i).foldl
      (fun b e => pick b e (sweep DNode.idx (settle DNode.idx DNode.inEdges pick start out) nodes.reverse f e.1)) (start (f i))) := by
  obtain rfl := hw.idx hn
  obtain ⟨pre, post, hsplit, -, hpost⟩ := hw.split hn
  have hrev : nodes.reverse = post.reverse ++ node :: pre.reverse := by
    rw [hsplit]
    simp
  rw [inEdges_eq hn]
  refine sweep_settle hrev (by rw [List.map_reverse, List.nodup_reverse, hw.map_idx]; exact List.nodup_range) fun e he => ?_
  have hlt := hw.lt (inEdges_eq hn ▸ he : e ∈ inEdges nodes node.idx)
  rw [List.map_reverse, List.mem_reverse]
  exact ⟨fun hmem => Nat.lt_asymm hlt (hpost _ hmem), Nat.ne_of_lt hlt⟩

theorem WellFormed.sweep_outside (hi : nodes[i]? = none) {F : DNode → (Nat → β) → β} {l : List DNode} (hl : l.Perm nodes) :
    sweep DNode.idx F l f i = f i := by
  refine sweep_of_notMem fun h => ?_
  rw [(hl.map _).mem_iff, hw.map_idx, List.mem_range] at h
  exact Nat.not_lt_of_le (List.getElem?_eq_none_iff.mp hi) h

end sweeps
end graph

def nearer (b : Nat) (e : Nat × Nat) (x : Nat) : Nat := if x ≠ NO_LOAD then min b (e.2 + x) else b

theorem nearer_le (b : Nat) (e : Nat × Nat) (x : Nat) : nearer b e x ≤ b := by
  unfold nearer
  split
  · exact Nat.min_le_left _ _
  · exact Nat.le_refl b

/-- Distances to a load in terms of the sentinel, which no sum exceeds. -/
theorem min_nearer (b : Nat) (e : Nat × Nat) (x : Nat) :
    min NO_LOAD (nearer b e x) = min (min NO_LOAD b) (min NO_LOAD (e.2 + min NO_LOAD x)) := by
  unfold nearer
  split <;> omega

theorem foldl_nearer_le (f : Nat → Nat) (l : List (Nat × Nat)) (b : Nat) : l.foldl (fun b e => nearer b e (f e.1)) b ≤ b := by
  induction l generalizing b with
  | nil => exact Nat.le_refl b
  | cons e l ih => exact (ih _).trans (nearer_le ..)

theorem dists_eq (nodes : List DNode) : dists nodes =
    (sweep DNode.idx (settle DNode.idx DNode.outEdges (fun b e x => max b (e.2 + x)) (fun _ => 0) fun _ b => b) nodes fun _ => 0,
      sweep DNode.idx (settle DNode.idx DNode.outEdges nearer (fun _ => NO_LOAD) fun node b => if node.engine = .load then 0 else b)
        nodes fun _ => NO_LOAD) := by
  rw [dists]
  induction nodes with
  | nil => rfl
  | cons node nodes ih =>
      rw [List.foldr_cons, ih]
      rfl

theorem depths_eq (nodes : List DNode) : depths nodes =
    sweep DNode.idx (settle DNode.idx DNode.inEdges (fun b e x => max b (x + e.2)) (fun _ => 0) fun _ b => b) nodes.reverse fun _ => 0 := by
  rw [depths, List.foldl_eq_foldr_reverse]
  rfl

def anchors (nodes : List DNode) : Nat → Int × Nat :=
  (sinks nodes).zipIdx.foldl (fun best s => Function.update best s.1.idx ((depths nodes s.1.idx : Int), s.2 + 1)) fun _ => (-1, 0)

/-- The better of two groups: the deeper, and at one depth the lower. -/
def deeper (b : Int × Nat) (_ : Nat × Nat) (c : Int × Nat) : Int × Nat :=
  if c.2 = 0 then b else if b.2 = 0 || b.1 < c.1 || (c.1 = b.1 && c.2 < b.2) then c else b

theorem groups_eq (nodes : List DNode) : groups nodes =
    sweep DNode.idx (settle DNode.idx DNode.outEdges deeper id fun _ b => b) nodes (anchors nodes) := rfl

section recurrences

variable (hw : WellFormed nodes) (i : Nat)

include hw

theorem WellFormed.distToSink_eq : (dists nodes).1 i =
    (outEdges nodes i).foldl (fun b e => max b (e.2 + (dists nodes).1 e.1)) 0 := by
  rw [dists_eq]
  cases hn : nodes[i]? with
  | some node => exact hw.sweep_out hn
  | none =>
      rw [outEdges, hn]
      exact hw.sweep_outside hn (.refl _)

theorem WellFormed.distToLoad_eq : (dists nodes).2 i =
    (outEdges nodes i).foldl (fun b e => nearer b e ((dists nodes).2 e.1)) (if isLoad nodes i then 0 else NO_LOAD) := by
  have hswept : (dists nodes).2 i = if isLoad nodes i then 0 else
      (outEdges nodes i).foldl (fun b e => nearer b e ((dists nodes).2 e.1)) NO_LOAD := by
    rw [dists_eq, isLoad]
    cases hn : nodes[i]? with
    | some node =>
        refine (hw.sweep_out hn).trans ?_
        simp
    | none =>
        rw [outEdges, hn, Option.any_none, if_neg Bool.false_ne_true, Option.map_none, Option.getD_none, List.foldl_nil]
        exact hw.sweep_outside hn (.refl _)
  rw [hswept]
  split
  · exact (Nat.le_zero.mp (foldl_nearer_le ..)).symm
  · rfl

theorem WellFormed.depths_eq : depths nodes i = (inEdges nodes i).foldl (fun b e => max b (depths nodes e.1 + e.2)) 0 := by
  rw [Dag.depths_eq]
  cases hn : nodes[i]? with
  | some node => exact hw.sweep_in hn
  | none =>
      rw [inEdges, hn]
      exact hw.sweep_outside hn (List.reverse_perm nodes)

theorem WellFormed.groups_eq : groups nodes i = (outEdges nodes i).foldl (fun b e => deeper b e (groups nodes e.1)) (anchors nodes i) := by
  rw [Dag.groups_eq]
  cases hn : nodes[i]? with
  | some node => exact hw.sweep_out hn
  | none =>
      rw [outEdges, hn]
      exact hw.sweep_outside hn (.refl _)

end recurrences
section distances

variable (hw : WellFormed nodes) (i : Nat)

include hw

theorem WellFormed.distToSink_spec : IsGreatest {d | ∃ j, Path (Edge nodes) i j d} ((dists nodes).1 i) := by
  have hrec : Recurrence (Edge nodes) (fun w x => w + x) (fun _ => 0) (dists nodes).1 :=
    Recurrence.of_foldl id (fun b e x => max b (e.2 + x)) hw.distToSink_eq fun _ _ _ => rfl
  have hset : {d | ∃ j, Path (Edge nodes) i j d} = {x | ∃ j d, Path (Edge nodes) i j d ∧ x = d + 0} := by
    ext d
    simp
  rw [hset]
  exact hrec.isGreatest .sum hw.wellFounded_out i

theorem WellFormed.depths_spec : IsGreatest {d | ∃ j, Path (Edge nodes) j i d} (depths nodes i) := by
  have hedge : (fun i j w => Edge nodes j i w) = fun i j w => (j, w) ∈ inEdges nodes i := by
    funext i j w
    exact propext hw.mem_outEdges
  have hrec : Recurrence (fun i j w => Edge nodes j i w) (fun w x => w + x) (fun _ => 0) (depths nodes) := by
    rw [hedge]
    exact Recurrence.of_foldl id (fun b e x => max b (x + e.2)) hw.depths_eq fun b e x => by rw [Nat.add_comm]; rfl
  have hset : {d | ∃ j, Path (Edge nodes) j i d} = {x | ∃ j d, Path (fun i j w => Edge nodes j i w) i j d ∧ x = d + 0} := by
    ext d
    constructor
    · rintro ⟨j, hp⟩
      exact ⟨j, d, Path.flip hp, rfl⟩
    · rintro ⟨j, d, hp, rfl⟩
      exact ⟨j, hp.flip⟩
  rw [hset]
  exact hrec.isGreatest .sum hw.wellFounded_in i

/-- The shortest path to a load, or the sentinel. -/
theorem WellFormed.distToLoad_spec (hn : nodes.length < NO_LOAD) (hi : i < nodes.length) :
    ((∃ j d, Path (Edge nodes) i j d ∧ isLoad nodes j = true) →
      IsLeast {d | ∃ j, Path (Edge nodes) i j d ∧ isLoad nodes j = true} ((dists nodes).2 i)) ∧
    ((¬ ∃ j d, Path (Edge nodes) i j d ∧ isLoad nodes j = true) → (dists nodes).2 i = NO_LOAD) := by
  let a : Nat → Natᵒᵈ := fun i => OrderDual.toDual (min NO_LOAD (if isLoad nodes i then 0 else NO_LOAD))
  have hrec : Recurrence (Edge nodes) (fun w x => OrderDual.toDual (min NO_LOAD (w + OrderDual.ofDual x))) a
      fun i => OrderDual.toDual (min NO_LOAD ((dists nodes).2 i)) :=
    Recurrence.of_foldl (fun x => OrderDual.toDual (min NO_LOAD x)) nearer hw.distToLoad_eq fun c e x =>
      congrArg OrderDual.toDual (min_nearer c e x)
  obtain ⟨⟨k, d, hp, hk⟩, hub⟩ := hrec.isGreatest (.limited fun i => Nat.min_le_left _ _) hw.wellFounded_out i
  have hk : min NO_LOAD ((dists nodes).2 i) = min NO_LOAD (d + min NO_LOAD (if isLoad nodes k then 0 else NO_LOAD)) :=
    OrderDual.toDual_inj.mp hk
  have hub : ∀ {j d}, Path (Edge nodes) i j d → isLoad nodes j = true → min NO_LOAD ((dists nodes).2 i) ≤ min NO_LOAD d := by
    intro j d hp hj
    have hle := OrderDual.toDual_le_toDual.mp (hub ⟨j, d, hp, rfl⟩)
    simpa [a, hj] using hle
  have hlt : ∀ {j d}, Path (Edge nodes) i j d → d < NO_LOAD := by
    intro j d hp
    have := hw.path_bounds hp hi
    omega
  cases hload : isLoad nodes k with
  | true =>
      rw [hload, if_pos rfl] at hk
      have := hlt hp
      have hd : (dists nodes).2 i = d := by omega
      refine ⟨fun _ => ⟨⟨k, hd ▸ hp, hload⟩, ?_⟩, fun hno => absurd ⟨k, d, hp, hload⟩ hno⟩
      rintro d' ⟨j, hp', hj⟩
      have := hub hp' hj
      have := hlt hp'
      omega
  | false =>
      rw [hload, if_neg (by decide)] at hk
      refine ⟨fun ⟨j, d', hp', hj⟩ => ?_, fun _ => ?_⟩
      · have := hub hp' hj
        have := hlt hp'
        omega
      · have hle : (dists nodes).2 i ≤ NO_LOAD := by
          rw [hw.distToLoad_eq]
          refine (foldl_nearer_le ..).trans ?_
          split
          · exact Nat.zero_le _
          · exact Nat.le_refl _
        omega

end distances

section sinks

theorem countP_before {α : Type} {r : α → α → Bool} {l : List α} {x : α} {p : Nat} (h : l.Pairwise fun a b => r a b = true)
    (hr : ∀ {a b}, r a b = true → r b a = false) (hp : l[p]? = some x) : l.countP (r · x) = p := by
  induction l generalizing p with
  | nil => cases hp
  | cons y l ih =>
      obtain ⟨hy, hl⟩ := List.pairwise_cons.mp h
      rw [List.countP_cons]
      cases p with
      | zero =>
          cases hp
          have hself : r x x ≠ true := fun h => by simpa [h] using hr h
          rw [if_neg hself, Nat.add_zero, List.countP_eq_zero]
          intro z hz
          simp [hr (hy z hz)]
      | succ p => rw [if_pos (hy x (List.mem_of_getElem? hp)), ih hl hp]

variable (hw : WellFormed nodes)

include hw

theorem WellFormed.isSink_idx (hn : node ∈ nodes) : isSink nodes node.idx = (node.outEdges.isEmpty && node.engine ≠ .debug) := by
  obtain ⟨i, hi⟩ := List.getElem?_of_mem hn
  rw [hw.idx hi, isSink, hi]
  rfl

omit hw in
theorem sinks_perm : (sinks nodes).Perm (nodes.filter fun n => n.outEdges.isEmpty && n.engine ≠ .debug) := List.mergeSort_perm _ _

theorem WellFormed.sinks_nodup : ((sinks nodes).map DNode.idx).Nodup := by
  refine (sinks_perm.map _).nodup_iff.mpr (List.Sublist.nodup (List.filter_sublist.map _) ?_)
  rw [hw.map_idx]
  exact List.nodup_range

/-- The sinks stand in the order of their depth and then their index. -/
theorem WellFormed.sinks_pairwise : (sinks nodes).Pairwise fun a b =>
    toLex (depths nodes a.idx, a.idx) < toLex (depths nodes b.idx, b.idx) := by
  have hle : ∀ a b : DNode, (decide (depths nodes a.idx < depths nodes b.idx) ||
      (decide (depths nodes a.idx = depths nodes b.idx) && decide (a.idx ≤ b.idx))) = true ↔
      toLex (depths nodes a.idx, a.idx) ≤ toLex (depths nodes b.idx, b.idx) := by
    simp [Prod.Lex.toLex_le_toLex]
  have hsorted := List.pairwise_mergeSort (fun a b c hab hbc => (hle a c).mpr (le_trans ((hle a b).mp hab) ((hle b c).mp hbc)))
    (fun a b => by
      rw [Bool.or_eq_true, hle, hle]
      exact le_total _ _)
    (nodes.filter fun n => n.outEdges.isEmpty && n.engine ≠ .debug)
  have hne := List.pairwise_map.mp hw.sinks_nodup
  refine (hsorted.and hne).imp fun {a b} hab => lt_of_le_of_ne ((hle a b).mp hab.1) fun heq => hab.2 ?_
  exact (Prod.ext_iff.mp (toLex_inj.mp heq)).2

theorem WellFormed.sinkId_eq {p : Nat} (hp : (sinks nodes)[p]? = some node) : sinkId nodes (depths nodes) node.idx = p + 1 := by
  have hcount := countP_before (r := fun a b => toLex (depths nodes a.idx, a.idx) < toLex (depths nodes b.idx, b.idx))
    (hw.sinks_pairwise.imp fun h => decide_eq_true h) (fun h => decide_eq_false (lt_asymm (of_decide_eq_true h))) hp
  rw [sinks_perm.countP_eq, List.countP_filter] at hcount
  rw [sinkId, ← hw.map_idx, List.countP_map, ← hcount]
  congr 1
  refine List.countP_congr fun n hn => ?_
  rw [Function.comp_apply, hw.isSink_idx hn, Bool.and_comm]

theorem WellFormed.anchors_eq (i : Nat) : anchors nodes i =
    if isSink nodes i then ((depths nodes i : Int), sinkId nodes (depths nodes) i) else (-1, 0) := by
  have hsweep : anchors nodes = sweep (fun s : DNode × Nat => s.1.idx) (settle (fun s => s.1.idx) (fun _ => ([] : List (Nat × Nat)))
      (fun b _ _ => b) id fun s _ => ((depths nodes s.1.idx : Int), s.2 + 1)) (sinks nodes).zipIdx.reverse fun _ => (-1, 0) := by
    rw [anchors, List.foldl_eq_foldr_reverse]
    rfl
  have hkeys : (sinks nodes).zipIdx.map (fun s => s.1.idx) = (sinks nodes).map DNode.idx := by
    calc (sinks nodes).zipIdx.map (fun s => s.1.idx) = ((sinks nodes).zipIdx.map Prod.fst).map DNode.idx := by rw [List.map_map]; rfl
      _ = (sinks nodes).map DNode.idx := by rw [List.zipIdx_map_fst]
  rw [hsweep]
  cases hsink : isSink nodes i with
  | true =>
      obtain ⟨node, hn, hs⟩ := (Option.any_eq_true _ _).mp hsink
      obtain ⟨p, hp⟩ := List.getElem?_of_mem (sinks_perm.mem_iff.mpr (List.mem_filter.mpr ⟨List.mem_of_getElem? hn, hs⟩))
      obtain rfl := hw.idx hn
      obtain ⟨pre, post, hsplit⟩ := List.append_of_mem (List.mem_reverse.mpr (List.mem_zipIdx_iff_getElem?.mpr hp : (node, p) ∈ _))
      refine (sweep_settle hsplit ?_ (by simp)).trans ?_
      · rw [List.map_reverse, List.nodup_reverse, hkeys]
        exact hw.sinks_nodup
      · rw [if_pos rfl, hw.sinkId_eq hp]
  | false =>
      refine (sweep_of_notMem ?_).trans (by rw [if_neg (by decide)])
      rw [List.map_reverse, List.mem_reverse, hkeys, List.mem_map]
      rintro ⟨node, hn, rfl⟩
      obtain ⟨hn, hs⟩ := List.mem_filter.mp (sinks_perm.mem_iff.mp hn)
      rw [hw.isSink_idx hn, hs] at hsink
      cases hsink

end sinks

section groups

/-- Groups by how good they are: none is the worst, then by depth, and of one depth a lower is better. -/
def groupRank (b : Int × Nat) : WithBot (Int ×ₗ Natᵒᵈ) :=
  if b.2 = 0 then ⊥ else (toLex (b.1, OrderDual.toDual b.2) : Int ×ₗ Natᵒᵈ)

theorem groupRank_eq {b : Int × Nat} (hb : b.2 ≠ 0) : groupRank b = (toLex (b.1, OrderDual.toDual b.2) : Int ×ₗ Natᵒᵈ) := if_neg hb

theorem groupRank_le {b c : Int × Nat} (hb : b.2 ≠ 0) (hc : c.2 ≠ 0) :
    groupRank b ≤ groupRank c ↔ b.1 < c.1 ∨ b.1 = c.1 ∧ c.2 ≤ b.2 := by
  rw [groupRank_eq hb, groupRank_eq hc, WithBot.coe_le_coe, Prod.Lex.toLex_le_toLex]
  exact Iff.rfl

theorem groupRank_deeper (b : Int × Nat) (e : Nat × Nat) (c : Int × Nat) : groupRank (deeper b e c) = max (groupRank b) (groupRank c) := by
  unfold deeper
  by_cases hc : c.2 = 0
  · have hbot : groupRank c = ⊥ := if_pos hc
    rw [if_pos hc, hbot, max_bot_right]
  by_cases hb : b.2 = 0
  · have hbot : groupRank b = ⊥ := if_pos hb
    rw [if_neg hc, if_pos (by simp [hb]), hbot, max_bot_left]
  rw [if_neg hc]
  split
  · next hbetter =>
      rw [max_eq_right ((groupRank_le hb hc).mpr ?_)]
      simp [hb] at hbetter
      omega
  · next hworse =>
      rw [max_eq_left ((groupRank_le hc hb).mpr ?_)]
      simp [hb] at hworse
      omega

variable (hw : WellFormed nodes) (i : Nat)

include hw

/-- The deepest sink that a node reaches. -/
theorem WellFormed.groups_spec : GroupOf nodes (depths nodes) i (groups nodes i).2 := by
  have hrec : Recurrence (Edge nodes) (fun _ x => x) (fun i => groupRank (anchors nodes i)) fun i => groupRank (groups nodes i) :=
    Recurrence.of_foldl groupRank deeper hw.groups_eq groupRank_deeper
  obtain ⟨⟨k, d, hp, hk⟩, hub⟩ := hrec.isGreatest (.const _) hw.wellFounded_out i
  have hanchor : ∀ {t}, isSink nodes t = true → anchors nodes t = ((depths nodes t : Int), sinkId nodes (depths nodes) t) := by
    intro t ht
    rw [hw.anchors_eq, if_pos ht]
  have hbot : ∀ {t}, isSink nodes t = true → groupRank (anchors nodes t) ≠ ⊥ := by
    intro t ht
    rw [hanchor ht, groupRank_eq (Nat.succ_ne_zero _)]
    exact WithBot.coe_ne_bot
  cases hs : isSink nodes k with
  | false =>
      have hnone : groupRank (groups nodes i) = ⊥ := by
        rw [hk, hw.anchors_eq, if_neg (by simp [hs])]
        rfl
      have hzero : (groups nodes i).2 = 0 := by
        by_contra hne
        rw [groupRank_eq hne] at hnone
        exact WithBot.coe_ne_bot hnone
      rw [hzero]
      refine .none fun t d' hp' => eq_false_of_ne_true fun ht => hbot ht ?_
      exact le_bot_iff.mp (hnone ▸ hub ⟨t, d', hp', rfl⟩)
  | true =>
      have hne : (groups nodes i).2 ≠ 0 := fun hzero => hbot hs (hk.symm.trans (if_pos hzero))
      have hgroup : (groups nodes i).2 = sinkId nodes (depths nodes) k := by
        rw [hanchor hs, groupRank_eq hne, groupRank_eq (Nat.succ_ne_zero _), WithBot.coe_inj, toLex_inj] at hk
        exact OrderDual.toDual_inj.mp (Prod.ext_iff.mp hk).2
      rw [hgroup]
      refine .deepest hp hs fun t d' hp' ht => ?_
      have hle := hub ⟨t, d', hp', rfl⟩
      rw [hk, hanchor hs, hanchor ht, groupRank_le (Nat.succ_ne_zero _) (Nat.succ_ne_zero _)] at hle
      simpa only [Nat.cast_lt, Nat.cast_inj] using hle

end groups

section scales

/-- The greatest value, or one where there is none above zero. -/
structure Scale (s : Set Nat) (m : Nat) : Prop where
  pos : 0 < m
  bound : ∀ x ∈ s, x ≤ m
  attained : m ∈ s ∨ m = 1 ∧ ∀ x ∈ s, x = 0

theorem scale_maxOrOne (xs : List Nat) : Scale {x | x ∈ xs} (maxOrOne xs) := by
  have hfold : xs.foldl max 0 = xs.max?.getD 0 := by rw [List.foldl_max, Nat.max_eq_right (Nat.zero_le _)]
  unfold maxOrOne
  rw [hfold]
  cases hx : xs.max? with
  | none =>
      obtain rfl := List.max?_eq_none_iff.mp hx
      exact ⟨Nat.one_pos, by simp, .inr ⟨rfl, by simp⟩⟩
  | some m =>
      obtain ⟨hm, hub⟩ := List.max?_eq_some_iff.mp hx
      rw [Option.getD_some]
      split
      · next hzero =>
          have hnone : ∀ x ∈ xs, x = 0 := fun x hx => Nat.le_zero.mp (hzero ▸ hub x hx)
          exact ⟨Nat.one_pos, fun x hx => (hnone x hx).trans_le (Nat.zero_le 1), .inr ⟨rfl, hnone⟩⟩
      · next hpos => exact ⟨Nat.pos_of_ne_zero hpos, hub, .inl hm⟩

theorem WellFormed.sinks_length (hw : WellFormed nodes) : (sinks nodes).length = (List.range nodes.length).countP (isSink nodes) := by
  rw [sinks_perm.length_eq, ← List.countP_eq_length_filter, ← hw.map_idx, List.countP_map]
  exact List.countP_congr fun n hn => by rw [Function.comp_apply, hw.isSink_idx hn]

/-- The properties of node `i`: its distances over the greatest of all nodes, and its group over the number of groups. -/
structure Scaled (nodes : List DNode) (i : Nat) (p : NodeProps) : Prop where
  sink : ∃ m, Scale {d | ∃ k < nodes.length, (dists nodes).1 k = d} m ∧ p.sink = (dists nodes).1 i / m
  load : ∃ m, Scale {d | (∃ k < nodes.length, (dists nodes).2 k = d) ∧ d ≠ NO_LOAD} m ∧
    p.load = if (dists nodes).2 i = NO_LOAD then 1 else ((dists nodes).2 i / m : ℚ)
  group : p.group = if ∃ s < nodes.length, isSink nodes s = true then
    ((groups nodes i).2 / (List.range nodes.length).countP (isSink nodes) : ℚ) else 0

theorem WellFormed.scaled (hw : WellFormed nodes) (i : Nat) : Scaled nodes i (computeProps nodes i) where
  sink := by
    refine ⟨_, ?_, rfl⟩
    have hscale := scale_maxOrOne ((List.range nodes.length).map (dists nodes).1)
    simpa only [List.mem_map, List.mem_range] using hscale
  load := by
    refine ⟨_, ?_, rfl⟩
    have hset : {d | (∃ k < nodes.length, (dists nodes).2 k = d) ∧ d ≠ NO_LOAD} =
        {d | d ∈ ((List.range nodes.length).map (dists nodes).2).filter (· ≠ NO_LOAD)} := by
      ext d
      simp
    rw [hset]
    split
    · next hempty =>
        rw [List.isEmpty_iff.mp hempty]
        exact scale_maxOrOne []
    · exact scale_maxOrOne _
  group := by
    dsimp only [computeProps]
    rw [← hw.sinks_length]
    have hnone : (sinks nodes).length = 0 ↔ ¬ ∃ s < nodes.length, isSink nodes s = true := by
      rw [hw.sinks_length, List.countP_eq_zero]
      simp
    by_cases hzero : (sinks nodes).length = 0
    · rw [if_pos hzero, if_neg (hnone.mp hzero)]
    · rw [if_neg hzero, if_pos (not_not.mp fun h => hzero (hnone.mpr h))]

end scales

/-- What `_compute_props` finds for a node, and how it is normalised. -/
theorem props_computed (hw : WellFormed nodes) (hn : nodes.length < NO_LOAD) (hi : i < nodes.length) :
    IsGreatest {d | ∃ j, Path (Edge nodes) i j d} ((dists nodes).1 i) ∧
    ((∃ j d, Path (Edge nodes) i j d ∧ isLoad nodes j = true) →
      IsLeast {d | ∃ j, Path (Edge nodes) i j d ∧ isLoad nodes j = true} ((dists nodes).2 i)) ∧
    ((¬ ∃ j d, Path (Edge nodes) i j d ∧ isLoad nodes j = true) → (dists nodes).2 i = NO_LOAD) ∧
    (∀ j, IsGreatest {d | ∃ k, Path (Edge nodes) k j d} (depths nodes j)) ∧
    GroupOf nodes (depths nodes) i (groups nodes i).2 ∧ Scaled nodes i (computeProps nodes i) := by
  obtain ⟨hload, hno⟩ := hw.distToLoad_spec i hn hi
  exact ⟨hw.distToSink_spec i, hload, hno, hw.depths_spec, hw.groups_spec i, hw.scaled i⟩

/-- A broadcast that feeds a store and, by way of a gather, another; and a compare on its own. -/
def twoChains : List DNode :=
  let x : Operand := .sym ⟨"x", true⟩
  [⟨0, ⟨0, .vBroadcast x x⟩, [], [(1, 1), (2, 0)]⟩, ⟨1, ⟨1, .vStore x x⟩, [(0, 1)], []⟩, ⟨2, ⟨2, .gather x x⟩, [(0, 0)], [(3, 1)]⟩,
    ⟨3, ⟨3, .vecElem .add x x x⟩, [(2, 1)], [(4, 1)]⟩, ⟨4, ⟨4, .vStore x x⟩, [(3, 1)], []⟩, ⟨5, ⟨5, .debugVCompare x []⟩, [], []⟩]

theorem props_computed_twoChains : IsGreatest {d | ∃ j, Path (Edge twoChains) 0 j d} 2 ∧
    IsLeast {d | ∃ j, Path (Edge twoChains) 0 j d ∧ isLoad twoChains j = true} 0 ∧ (dists twoChains).2 3 = NO_LOAD ∧
    GroupOf twoChains (depths twoChains) 0 (groups twoChains 0).2 ∧ Scaled twoChains 0 (computeProps twoChains 0) := by
  have hw : WellFormed twoChains := by decide
  have hload : Path (Edge twoChains) 0 2 0 := .cons (w := 0) (j := 2) (by decide : (2, 0) ∈ outEdges twoChains 0) (.nil 2)
  obtain ⟨hsink, hleast, -, -, hgroup, hscaled⟩ := props_computed (i := 0) hw (by decide) (by decide)
  obtain ⟨-, -, hno, -⟩ := props_computed (i := 3) hw (by decide) (by decide)
  refine ⟨hsink, hleast ⟨2, 0, hload, by decide⟩, hno ?_, hgroup, hscaled⟩
  rintro ⟨j, d, hp, hj⟩
  have hlate : ∀ j < twoChains.length, 3 ≤ j → isLoad twoChains j = false := by decide
  obtain ⟨hle, hlt⟩ := hw.path_bounds hp (by decide)
  rw [hlate j hlt (by omega)] at hj
  cases hj

end Dag
end Vliw
