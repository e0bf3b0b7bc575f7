import VliwKernel.Semantics.Pruning

/-!
# Runs of what pruning keeps

A kept instruction runs in the pruned program as it does in the whole one: it reads the same words. So the pruned
program is as independent as the whole one, and its checks pass if those of the whole one do.
-/

namespace Vliw

variable {pinned : List String} {is : List (Instr Operand)} {rc : Sym → Option Int} {dag dag' : Dag} {ids : List Nat}
  {i j k a b : Nat} {ins : Instr Operand} {s s' r : SymState} {nodes nodes' : List DNode}

theorem Pruned.filter_range (hp : Pruned nodes nodes' ids) (hk : ids[k]? = some i) : (List.range i).filter (· ∈ ids) = ids.take k := by
  refine List.Perm.eq_of_pairwise (fun a b _ _ hab hba => absurd hba (Nat.lt_asymm hab)) (List.pairwise_lt_range.filter _)
    (hp.sorted.sublist (List.take_sublist k ids)) ?_
  refine (List.perm_ext_iff_of_nodup (List.nodup_range.filter _) (hp.nodup.sublist (List.take_sublist k ids))).mpr fun j => ?_
  simp only [List.mem_filter, List.mem_range, decide_eq_true_eq]
  constructor
  · rintro ⟨hji, hj⟩
    obtain ⟨l, hl⟩ := List.getElem?_of_mem hj
    refine List.mem_of_getElem? (i := l) ?_
    rw [List.getElem?_take_of_lt ((hp.lt_iff hl hk).mp hji), hl]
  · intro hj
    obtain ⟨l, hl⟩ := List.getElem?_of_mem hj
    rw [List.getElem?_take] at hl
    split at hl
    · next hlk => exact ⟨(hp.lt_iff hl hk).mpr hlk, List.mem_of_getElem? hl⟩
    · cases hl

theorem Pruned.filter_all (hp : Pruned nodes nodes' ids) : (List.range nodes.length).filter (· ∈ ids) = ids := by
  refine List.Perm.eq_of_pairwise (fun a b _ _ hab hba => absurd hba (Nat.lt_asymm hab)) (List.pairwise_lt_range.filter _) hp.sorted ?_
  refine (List.perm_ext_iff_of_nodup (List.nodup_range.filter _) hp.nodup).mpr fun i => ?_
  simp only [List.mem_filter, List.mem_range, decide_eq_true_eq, and_iff_right_iff_imp]
  exact fun hi => (hp.mem.mp hi).1

section runs

variable (ht : Tagged pinned is rc) (hd : DagOf pinned is dag) (hp : Pruned dag.nodes dag'.nodes ids)

include hd hp in
theorem Pruned.ancestor (h : RawAncestor dag.nodes i j) (hb : ids[b]? = some j) : ∃ a, ids[a]? = some i ∧ RawAncestor dag'.nodes a b := by
  induction h generalizing b with
  | single he =>
      obtain ⟨a, ha⟩ := List.getElem?_of_mem (hp.source_kept hd (List.mem_of_getElem? hb) he)
      exact ⟨a, ha, .single ((hp.mem_inEdges hb).mpr ⟨i, ha, he⟩)⟩
  | @tail l j _ he ih =>
      obtain ⟨c, hc⟩ := List.getElem?_of_mem (hp.source_kept hd (List.mem_of_getElem? hb) he)
      obtain ⟨a, ha, hac⟩ := ih hc
      exact ⟨a, ha, hac.tail ((hp.mem_inEdges hb).mpr ⟨l, hc, he⟩)⟩

variable (hpin : ∀ {i t}, WritesTag is i t → isPinned pinned t = false) (hrun : SymState.run is s = .ok s')

include ht hd hp hpin hrun

/-- The pruned program leaves the memory of the whole one. -/
theorem Pruned.run : ∃ r, SymState.run dag'.instrs s = .ok r ∧ r.mem = s'.mem := by
  obtain ⟨r, hr, htrim⟩ := Trimmed.run ht hd hp hpin (Nat.le_refl _) (by rw [List.take_length]; exact hrun)
  rw [← hd.length, hp.filter_all, ← hp.instrs_eq hd] at hr
  exact ⟨r, hr, htrim.mem⟩

/-- A kept instruction reads in its run what it reads in the run of the whole program. -/
theorem Pruned.runsIn (h : RunsIn dag'.instrs s k ins r) : ∃ i u, ids[k]? = some i ∧ RunsIn is s i ins u ∧
    ∀ o ∈ ins.op.readOperands, r.env.read o = u.env.read o := by
  obtain ⟨hk, hr⟩ := h
  rw [hp.instrs_getElem? hd, Option.bind_eq_some_iff] at hk
  obtain ⟨i, hi, hins⟩ := hk
  obtain ⟨u, -, hu, -⟩ := SymState.runsIn hrun hins
  have hlt := (List.getElem?_eq_some_iff.mp hins).1
  obtain ⟨r', hr', htrim⟩ := Trimmed.run ht hd hp hpin (Nat.le_of_lt hlt) hu.2
  have htake : reordered is (ids.take k) = dag'.instrs.take k := by
    have hltk : ∀ i ∈ ids, i < is.length := fun i hi => hd.length ▸ (hp.mem.mp hi).1
    refine List.ext_getElem? fun l => ?_
    rw [reordered_getElem? fun i hi => hltk i (List.mem_of_mem_take hi), List.getElem?_take, List.getElem?_take, hp.instrs_getElem? hd]
    split <;> rfl
  rw [hp.filter_range hi, htake] at hr'
  cases hr.symm.trans hr'
  exact ⟨i, u, hi, hu, htrim.reads ht hd hp hpin hins (List.mem_of_getElem? hi)⟩

theorem Pruned.passing {trace : TraceKey → Option Nat} (h : Passing trace is s) : Passing trace dag'.instrs s := by
  intro k ins r hr
  obtain ⟨i, u, -, hu, hreads⟩ := hp.runsIn ht hd hpin hrun hr
  exact (Op.passes_congr hreads).mpr (h hu)

theorem Pruned.independent (h : Independent is s dag.nodes) : Independent dag'.instrs s dag'.nodes := by
  have hstores : ∀ {k x}, StoresAt dag'.instrs s k x → ∃ i, ids[k]? = some i ∧ StoresAt is s i x := by
    rintro k x ⟨ins, r, hr, hx⟩
    obtain ⟨i, u, hi, hu, hreads⟩ := hp.runsIn ht hd hpin hrun hr
    exact ⟨i, hi, ins, u, hu, Op.stores_congr hreads ▸ hx⟩
  constructor
  · intro k l x hk hl
    obtain ⟨i, hi, hix⟩ := hstores hk
    obtain ⟨j, hj, hjx⟩ := hstores hl
    obtain rfl := h.stores hix hjx
    rw [← (hp.idxOf_eq (List.mem_of_getElem? hi)).mpr hi, (hp.idxOf_eq (List.mem_of_getElem? hj)).mpr hj]
  · rintro k l x ⟨ins, r, hr, hx⟩ hl
    obtain ⟨i, u, hi, hu, hreads⟩ := hp.runsIn ht hd hpin hrun hr
    obtain ⟨j, hj, hjx⟩ := hstores hl
    obtain ⟨a, ha, hanc⟩ := hp.ancestor hd (h.loads ⟨ins, u, hu, Op.loads_congr hreads ▸ hx⟩ hjx) hj
    rwa [← (hp.idxOf_eq (List.mem_of_getElem? hi)).mpr hi, (hp.idxOf_eq (List.mem_of_getElem? ha)).mpr ha]

end runs
end Vliw
