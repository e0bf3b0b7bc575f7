import VliwKernel.Schedule.Account
import VliwKernel.Scheduler.Picker

/-!
# The bias towards nodes that free registers

`_freeing_read` counts operands with one read left, a commit frees the tags whose reads it uses up. The two differ by
the tags that the node reads more than once, and the last times.
-/

namespace Vliw
open RegisterAllocator PartialMap

/-- The node reads the tag several times, and these are its last reads. -/
def RegisterAllocator.LastTogether (a : RegisterAllocator) (ins : Instr Operand) (t : Sym) : Prop :=
  2 ≤ ins.occ t ∧ a.tab.val.remaining t = some (ins.occ t : Int)

section registers

variable {a : RegisterAllocator} {ins : Instr Operand}

/-- The tags that `_freeing_read` counts are read once. -/
theorem freeingRead_eq (hle : ∀ {t n}, a.tab.val.remaining t = some n → (ins.occ t : Int) ≤ n) :
    freeingRead a ins = {t | 0 < ins.occ t ∧ a.tab.val.remaining t = some 1}.ncard := by
  let once := (ins.readOperands.map Operand.base).filter fun t => a.tab.val.remaining t = some 1
  have hlen : freeingRead a ins = once.length := by
    simp [freeingRead, once, List.countP_eq_length_filter, List.filter_map, Function.comp_def]
  have hnodup : once.Nodup := by
    rw [List.nodup_iff_count_le_one]
    intro t
    by_cases ht : a.tab.val.remaining t = some 1
    · rw [List.count_filter (by simpa using ht)]
      have : (ins.occ t : Int) ≤ 1 := hle ht
      exact Int.ofNat_le.mp this
    · rw [List.count_eq_zero_of_not_mem]
      · exact Nat.zero_le 1
      · simp [once, ht]
  have hset : {t | 0 < ins.occ t ∧ a.tab.val.remaining t = some 1} = (once.toFinset : Set Sym) := by
    ext t
    simp [once, occ_pos]
  rw [hlen, hset, Set.ncard_coe_finset, List.toFinset_card_of_nodup hnodup]

/-- A commit frees what `_freeing_read` counts, and the tags that are read together for the last times. -/
theorem commitReads_freed (h : a.tab.val.Inv) (hle : ∀ {t n}, a.tab.val.remaining t = some n → (ins.occ t : Int) ≤ n) :
    ∃ b n, commitReads ins a = .ok (b, n) ∧
      b.liveTags + freeingRead a ins + {t | a.LastTogether ins t}.ncard = a.liveTags := by
  obtain ⟨b, hb, hcons⟩ := commitReads_ok (fun _ => none) (i := ins) h fun o _ hs => by
    rw [← h.remaining_assigned] at hs
    obtain ⟨n, hn⟩ := Option.isSome_iff_exists.mp hs
    have := hle hn
    obtain ⟨r, rfl⟩ := Int.eq_ofNat_of_zero_le (by omega : 0 ≤ n)
    exact ⟨r, hn, by omega⟩
  refine ⟨b, _, hb, ?_⟩
  have hsub : ∀ {t n}, a.tab.val.remaining t = some n → t ∈ dom a.tab.val.assigned := by
    intro t n hn
    rw [mem_dom, ← h.remaining_assigned, hn]
    rfl
  let once := {t | 0 < ins.occ t ∧ a.tab.val.remaining t = some 1}
  let last := {t | a.LastTogether ins t}
  have honce : once.Finite := h.assigned_finite.subset fun _ ht => hsub ht.2
  have hlast : last.Finite := h.assigned_finite.subset fun _ ht => hsub ht.2
  have hkept : ∀ t, t ∈ dom b.tab.val.assigned ↔ t ∈ dom a.tab.val.assigned ∧ t ∉ once ∧ t ∉ last := by
    intro t
    have hcase : 0 < ins.occ t ∧ a.tab.val.remaining t = some (ins.occ t : Int) ↔ t ∈ once ∨ t ∈ last := by
      constructor
      · rintro ⟨hpos, hrem⟩
        rcases Nat.lt_or_ge 1 (ins.occ t) with h2 | h1
        · exact .inr ⟨h2, hrem⟩
        · obtain h1 : ins.occ t = 1 := by omega
          exact .inl ⟨hpos, by rw [hrem, h1]; rfl⟩
      · rintro (⟨hpos, hrem⟩ | ⟨h2, hrem⟩)
        · have := hle hrem
          exact ⟨hpos, by rw [hrem, Option.some.injEq]; omega⟩
        · exact ⟨by omega, hrem⟩
    rw [mem_dom, mem_dom, hcons.assigned, ← occ_eq_baseCount, ← not_or, ← hcase]
    split
    · next hfree => simp [hfree]
    · next hfree => exact ⟨fun hs => ⟨hs, hfree⟩, And.left⟩
  have hsplit : dom a.tab.val.assigned = dom b.tab.val.assigned ∪ once ∪ last := by
    ext t
    rw [Set.mem_union, Set.mem_union, hkept]
    have h₁ : t ∈ once → t ∈ dom a.tab.val.assigned := fun ht => hsub ht.2
    have h₂ : t ∈ last → t ∈ dom a.tab.val.assigned := fun ht => hsub ht.2
    tauto
  have hdisj : Disjoint (dom b.tab.val.assigned) once := by
    rw [Set.disjoint_left]
    intro t ht
    exact ((hkept t).mp ht).2.1
  have hdisj' : Disjoint (dom b.tab.val.assigned ∪ once) last := by
    rw [Set.disjoint_left]
    rintro t (ht | ⟨-, hone⟩) ⟨h2, hrem⟩
    · exact ((hkept t).mp ht).2.2 ⟨h2, hrem⟩
    · rw [hone, Option.some.injEq] at hrem
      omega
  rw [liveTags, liveTags, size, size, hsplit, Set.ncard_union_eq hdisj' ((hcons.inv.assigned_finite).union honce) hlast,
    Set.ncard_union_eq hdisj hcons.inv.assigned_finite honce, freeingRead_eq hle]

end registers

section cycle

variable {pinned : List String} {is : List (Instr Operand)} {rc : Sym → Option Int} {dag : Dag} {i : Nat} {w : World} {node : DNode}

/-- At the start of a cycle a tag expects at least the reads of each node that is ready. -/
theorem World.Live.occ_le_remaining {nodes : List DNode} {prev : Nat → Bool} (h : w.Live pinned nodes prev) (hn : nodes[i]? = some node)
    (hc : w.dag.val.committed i = false) {t : Sym} {n : Int} (ht : w.alloc.tab.val.remaining t = some n) : (node.instr.occ t : Int) ≤ n := by
  have hs : (w.alloc.tab.val.assigned t).isSome := by
    rw [← h.alloc.remaining_assigned, ht]
    rfl
  obtain ⟨a, ha⟩ := Option.isSome_iff_exists.mp hs
  obtain rfl : (pendingReads nodes w.dag.val.committed t : Int) = n := Option.some.inj ((h.counted ha).symm.trans ht)
  exact Int.ofNat_le.mpr (occ_le_pendingReads hn hc t)

/-- The bias is the number of registers freed exactly when the node uses up no tag by several reads at once. -/
theorem freeingRead_iff (hb : Built pinned is rc dag) {bs : List TaggedBundle} {k : Nat} (hr : SchedulerRun rc dag bs w k)
    (hi : i ∈ w.dag.val.ready dag.nodes.length) (hn : dag.nodes[i]? = some node) :
    ∃ b n, commitReads node.instr w.alloc = .ok (b, n) ∧
      (b.liveTags + freeingRead w.alloc node.instr = w.alloc.liveTags ↔ ∀ t, ¬ w.alloc.LastTogether node.instr t) := by
  have h := hr.live hb
  have hc := (h.dag.frontier_iff.mp (mem_ready.mp hi).2).2.1
  obtain ⟨b, n, hcommit, hfreed⟩ := commitReads_freed h.alloc fun ht => h.occ_le_remaining hn hc ht
  have hfin : {t | w.alloc.LastTogether node.instr t}.Finite := by
    refine h.alloc.assigned_finite.subset fun t ht => ?_
    rw [mem_dom, ← h.alloc.remaining_assigned, ht.2]
    rfl
  refine ⟨b, n, hcommit, ?_⟩
  have hzero : {t | w.alloc.LastTogether node.instr t}.ncard = 0 ↔ ∀ t, ¬ w.alloc.LastTogether node.instr t := by
    rw [Set.ncard_eq_zero hfin, Set.eq_empty_iff_forall_notMem]
    rfl
  rw [← hzero]
  omega

/-- After the constants, the sum of the small program frees the one that the store does not read. -/
theorem freeingRead_small : ∃ is rc dag bs w k node b n, tagRawChains smallProgram PINNED = .ok (is, rc) ∧ buildDag is PINNED = .ok dag ∧
    SchedulerRun rc dag bs w k ∧ dag.nodes[2]? = some node ∧ freeingRead w.alloc node.instr = 1 ∧
    commitReads node.instr w.alloc = .ok (b, n) ∧ b.liveTags + 1 = w.alloc.liveTags := by
  have hrun : (do
      let (is, rc) ← tagRawChains smallProgram PINNED
      let dag ← buildDag is PINNED
      let x ← greedyCycle rc dag.nodes (fun _ _ _ => 0) 0 (World.start dag .init) 0
      let node ← getKey (dag.nodes[·]?) 2
      .ok (dag.nodes.length, x.1.dag.val.ready dag.nodes.length, freeingRead x.1.alloc node.instr,
        decide (node.instr.readOperands.map Operand.base).Nodup)) =
      (.ok (5, [2], 1, true) : Except PyErr (Nat × List Nat × Nat × Bool)) := by decide +kernel
  obtain ⟨⟨is, rc⟩, htag, hrun⟩ := bind_eq_ok.mp hrun
  obtain ⟨dag, hdag, hrun⟩ := bind_eq_ok.mp hrun
  obtain ⟨⟨w, k, bundle⟩, hcycle, hrun⟩ := bind_eq_ok.mp hrun
  obtain ⟨node, hn, hrun⟩ := bind_eq_ok.mp hrun
  have hout := Except.ok.inj hrun
  simp only [Prod.mk.injEq, decide_eq_true_eq] at hout
  obtain ⟨hlen, hready, hfree, hnodup⟩ := hout
  have ht := tagRawChains_tagged pinned_noHash htag
  have hreach : SchedulerRun rc dag [bundle] w k := .greedy (fun _ _ _ => 0) (.cycle .start (by omega) hcycle)
  have hi : 2 ∈ w.dag.val.ready dag.nodes.length := by simp [hready]
  obtain ⟨b, n, hcommit, hiff⟩ := freeingRead_iff ⟨ht, .of_ok ht.toSingleWriter hdag⟩ hreach hi (getKey_eq_ok.mp hn)
  refine ⟨is, rc, dag, [bundle], w, k, node, b, n, htag, hdag, hreach, getKey_eq_ok.mp hn, hfree, hcommit, ?_⟩
  rw [← hfree, hiff]
  rintro t ⟨h2, -⟩
  have := List.nodup_iff_count_le_one.mp hnodup t
  exact absurd h2 (Nat.not_le.mpr (Nat.lt_succ_of_le this))

def doubled : List (Instr Operand) :=
  [⟨0, .const (.sym ⟨"x", false⟩) 5⟩, ⟨1, .alu .add (.sym ⟨"z", false⟩) (.sym ⟨"x", false⟩) (.sym ⟨"x", false⟩)⟩]

/-- Doubling the constant frees its register, and is given no bias. -/
theorem freeingRead_misses_repeats : ∃ is rc dag bs w k node b n, tagRawChains doubled PINNED = .ok (is, rc) ∧
    buildDag is PINNED = .ok dag ∧ SchedulerRun rc dag bs w k ∧ 1 ∈ w.dag.val.ready dag.nodes.length ∧ dag.nodes[1]? = some node ∧
    freeingRead w.alloc node.instr = 0 ∧ commitReads node.instr w.alloc = .ok (b, n) ∧ b.liveTags + 1 = w.alloc.liveTags := by
  have hrun : (do
      let (is, rc) ← tagRawChains doubled PINNED
      let dag ← buildDag is PINNED
      let x ← greedyCycle rc dag.nodes (fun _ _ _ => 0) 0 (World.start dag .init) 0
      let node ← getKey (dag.nodes[·]?) 1
      let y ← commitReads node.instr x.1.alloc
      .ok (dag.nodes.length, x.1.dag.val.ready dag.nodes.length, freeingRead x.1.alloc node.instr, x.1.alloc.nFree, y.1.nFree)) =
      (.ok (2, [1], 0, 0, 1) : Except PyErr (Nat × List Nat × Nat × Nat × Nat)) := by decide +kernel
  obtain ⟨⟨is, rc⟩, htag, hrun⟩ := bind_eq_ok.mp hrun
  obtain ⟨dag, hdag, hrun⟩ := bind_eq_ok.mp hrun
  obtain ⟨⟨w, k, bundle⟩, hcycle, hrun⟩ := bind_eq_ok.mp hrun
  obtain ⟨node, hn, hrun⟩ := bind_eq_ok.mp hrun
  obtain ⟨⟨b, n⟩, hcommit, hrun⟩ := bind_eq_ok.mp hrun
  have hout := Except.ok.inj hrun
  simp only [Prod.mk.injEq] at hout
  obtain ⟨hlen, hready, hfree, hbefore, hafter⟩ := hout
  have ht := tagRawChains_tagged pinned_noHash htag
  have hreach : SchedulerRun rc dag [bundle] w k := .greedy (fun _ _ _ => 0) (.cycle .start (by omega) hcycle)
  have hlive := hreach.live ⟨ht, .of_ok ht.toSingleWriter hdag⟩
  obtain ⟨-, hregs, -⟩ := commitReads_account hlive.alloc hcommit
  refine ⟨is, rc, dag, [bundle], w, k, node, b, n, htag, hdag, hreach, by simp [hready], getKey_eq_ok.mp hn, hfree, hcommit, ?_⟩
  omega

end cycle
end Vliw
