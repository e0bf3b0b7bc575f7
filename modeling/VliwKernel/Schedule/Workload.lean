import VliwKernel.Schedule.Lifetime
import VliwKernel.Semantics.Pruning
import Mathlib.Data.List.Sort

/-!
# What a scheduler is given

The graph of a tagged program with its read counts, or the pruned graph with the counts taken anew. Both are the
graph of a tagged program.
-/

namespace Vliw

variable {pinned : List String} {is is' : List (Instr Operand)} {rc rc' : Sym → Option Int} {dag dag' : Dag} {ids : List Nat}

inductive Workload (pinned : List String) (is : List (Instr Operand)) (rc : Sym → Option Int) :
    List (Instr Operand) → (Sym → Option Int) → Dag → Prop
  | whole {dag : Dag} : buildDag is pinned = .ok dag → Workload pinned is rc is rc dag
  | pruned {dag dag' : Dag} : buildDag is pinned = .ok dag → pruneToStores dag = .ok dag' →
      Workload pinned is rc dag'.instrs (recomputeReadCount dag'.instrs pinned) dag'

theorem Pruned.of_ok (hw : Dag.WellFormed dag.nodes) (h : pruneToStores dag = .ok dag') :
    ∃ ids, Pruned dag.nodes dag'.nodes ids ∧ dag'.st = ⟨.initial dag'.nodes, none⟩ := by
  cases hs : Prune.stores dag.nodes with
  | nil => simp [pruneToStores, hs] at h
  | cons i rest =>
      obtain ⟨n, hn, he⟩ := (Prune.mem_stores (i := i) hw).mp (by simp [hs])
      obtain ⟨d, ids, hd, hp, hst⟩ := pruneToStores_ok hw ⟨i, n, hn, he⟩
      cases h.symm.trans hd
      exact ⟨ids, hp, hst⟩

theorem reordered_range (is : List (Instr Operand)) : reordered is (List.range is.length) = is := by
  refine List.ext_getElem? fun k => ?_
  rw [reordered_getElem? fun i hi => List.mem_range.mp hi]
  rcases Nat.lt_or_ge k is.length with h | h
  · simp [h]
  · simp [h]

theorem Pruned.sublist (hd : DagOf pinned is dag) (hp : Pruned dag.nodes dag'.nodes ids) : dag'.instrs.Sublist is := by
  have hsub : ids.Sublist (List.range is.length) := by
    refine List.sublist_of_subperm_of_pairwise (List.subperm_of_subset hp.nodup fun i hi => ?_)
      (hp.sorted.imp Nat.le_of_lt) (List.pairwise_lt_range.imp Nat.le_of_lt)
    exact List.mem_range.mpr (hd.length ▸ (hp.mem.mp hi).1)
  have := hsub.filterMap (is[·]?)
  rw [hp.instrs_eq hd]
  rwa [← reordered, ← reordered, reordered_range] at this

namespace Workload

theorem built (h : Workload pinned is rc is' rc' dag) (ht : Tagged pinned is rc) : Built pinned is' rc' dag ∧ is'.Sublist is := by
  cases h with
  | whole hdag => exact ⟨⟨ht, .of_ok ht.toSingleWriter hdag⟩, .refl _⟩
  | pruned hdag hprune =>
      have hof : DagOf pinned is _ := .of_ok ht.toSingleWriter hdag
      obtain ⟨ids, hp, hst⟩ := Pruned.of_ok hof.wf hprune
      exact ⟨⟨hp.tagged ht hof, hp.dagOf hof hst⟩, hp.sublist hof⟩

theorem unpinned (h : Workload pinned is rc is' rc' dag) (ht : Tagged pinned is rc)
    (hpin : ∀ {i t}, WritesTag is i t → isPinned pinned t = false) {i : Nat} {t : Sym} (hw : WritesTag is' i t) :
    isPinned pinned t = false := by
  obtain ⟨ins, d, hi, hd, rfl⟩ := hw
  obtain ⟨j, hj⟩ := List.getElem?_of_mem ((h.built ht).2.subset (List.mem_of_getElem? hi))
  exact hpin ⟨ins, d, hj, hd, rfl⟩

end Workload
end Vliw
