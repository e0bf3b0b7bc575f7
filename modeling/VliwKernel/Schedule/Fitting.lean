import VliwKernel.Regalloc.Capacity
import VliwKernel.Schedule.Conserving
import VliwKernel.Schedule.Deadlock

/-!
# Programs that fit

A program whose values fit into scratch together is never refused a register. So neither scheduler gives up on it or
warns, and the schedule is at most the longest path of the graph and the cycles in which an engine was full.
-/

namespace Vliw
open RegisterAllocator

def wordDemand (is : List (Instr Operand)) : Nat := (is.map fun ins => (ins.op.dest?.map fun d => d.base.extent).getD 0).sum

def writtenTags (is : List (Instr Operand)) : Finset Sym := (is.filterMap fun ins => ins.op.dest?.map Operand.base).toFinset

/-- Only tags in `T` are live, no more granules are claimed than their scalars fill, and nothing was refused so far. -/
structure Roomy (T : Finset Sym) (a : RegisterAllocator) : Prop where
  inv : a.tab.val.Inv
  live : ∀ s, (a.tab.val.assigned s).isSome → s ∈ T
  claims : VLEN * a.tab.val.claims < (T.filter fun s => s.isVec = false).card + VLEN
  quiet : a.exhaustionWarnings = 0

variable {pinned : List String} {is : List (Instr Operand)} {rc : Sym → Option Int} {dag : Dag} {nodes : List DNode} {prev : Nat → Bool}
  {emit : Bool} {i : Nat} {node : DNode} {order : List Nat} {w w' u u' : World} {st st' : Stats} {T : Finset Sym} {a b : RegisterAllocator}
  {s : Sym}

section demand

theorem writtenTags_extent (is : List (Instr Operand)) : ∑ s ∈ writtenTags is, s.extent ≤ wordDemand is := by
  rw [writtenTags, wordDemand]
  induction is with
  | nil => exact Nat.le_refl _
  | cons ins is ih =>
      cases hd : ins.op.dest? with
      | none => simpa [hd] using ih
      | some d =>
          simp only [List.filterMap_cons, hd, Option.map_some, List.toFinset_cons, List.map_cons, List.sum_cons, Option.getD_some]
          by_cases hm : d.base ∈ (is.filterMap fun ins => ins.op.dest?.map Operand.base).toFinset
          · rw [Finset.insert_eq_of_mem hm]
            exact ih.trans (Nat.le_add_left _ _)
          · rw [Finset.sum_insert hm]
            exact Nat.add_le_add_left ih _

theorem sum_extent (T : Finset Sym) :
    ∑ s ∈ T, s.extent = VLEN * (T.filter fun s => s.isVec = true).card + (T.filter fun s => s.isVec = false).card := by
  have hvec : ∑ s ∈ T.filter (fun s => s.isVec = true), s.extent = VLEN * (T.filter fun s => s.isVec = true).card := by
    rw [Finset.sum_const_nat fun s hs => by rw [Sym.extent, if_pos (Finset.mem_filter.mp hs).2], Nat.mul_comm]
  have hscalar : ∑ s ∈ T.filter (fun s => s.isVec = false), s.extent = (T.filter fun s => s.isVec = false).card := by
    rw [Finset.sum_const_nat fun s hs => by rw [Sym.extent, (Finset.mem_filter.mp hs).2, if_neg Bool.false_ne_true], Nat.mul_one]
  rw [← hvec, ← hscalar, ← Finset.sum_filter_add_sum_filter_not T fun s => s.isVec = true]
  simp only [Bool.not_eq_true]

end demand
section registers

theorem live_le (hlive : ∀ s, (a.tab.val.assigned s).isSome → s ∈ T) (hs : a.tab.val.assigned s = none) (v : Bool) :
    (a.tab.val.live v).ncard ≤ ((T.filter fun s => s.isVec = v).erase s).card := by
  have hsub : a.tab.val.live v ⊆ ↑((T.filter fun s => s.isVec = v).erase s) := by
    rintro x ⟨hv, hx⟩
    rw [Finset.coe_erase, Finset.coe_filter]
    refine ⟨⟨hlive x hx, hv⟩, ?_⟩
    rintro rfl
    rw [hs] at hx
    cases hx
  have hle := Set.ncard_le_ncard hsub (Finset.finite_toSet _)
  rwa [Set.ncard_coe_finset] at hle

namespace Roomy

theorem canWrite (h : Roomy T a) (hT : ∑ s ∈ T, s.extent ≤ SCRATCH_SIZE - VLEN) (hs : s ∈ T) : a.canWrite s = true := by
  by_contra href
  rw [Bool.not_eq_true] at href
  have hnone : a.tab.val.assigned s = none := by
    rw [← Option.not_isSome_iff_eq_none]
    intro hsome
    simp [RegisterAllocator.canWrite, Tables.canWrite, hsome] at href
  have hvec := live_le h.live hnone true
  have hscalar := live_le h.live hnone false
  have hclaims := h.claims
  rw [sum_extent] at hT
  rw [Finset.card_erase_eq_ite] at hvec hscalar
  simp only [Finset.mem_filter, hs, true_and] at hvec hscalar
  cases hv : s.isVec with
  | false =>
      have hfull := (h.inv.scalar_refused hv hnone).mp href
      have hpos : 0 < (T.filter fun s => s.isVec = false).card := Finset.card_pos.mpr ⟨s, Finset.mem_filter.mpr ⟨hs, hv⟩⟩
      simp only [hv, Bool.false_eq_true, if_false, if_true, Tables.liveVectors, Tables.liveScalars, VLEN, SCRATCH_SIZE] at *
      omega
  | true =>
      have hfull := (h.inv.vector_refused hv hnone).mp href
      have hpos : 0 < (T.filter fun s => s.isVec = true).card := Finset.card_pos.mpr ⟨s, Finset.mem_filter.mpr ⟨hs, hv⟩⟩
      have hlen : allGranules.length = 191 := rfl
      simp only [hv, if_true, Tables.liveVectors, VLEN, SCRATCH_SIZE] at *
      omega

theorem write (h : Roomy T a) (hT : ∑ s ∈ T, s.extent ≤ SCRATCH_SIZE - VLEN) (hs : s ∈ T) {addr : Nat} (hb : a.write rc s = .ok (addr, b)) :
    Roomy T b := by
  rcases write_cases h.inv (h.canWrite hT hs) hb with ⟨-, rfl⟩ | ⟨n, hnone, -, hw⟩
  · exact h
  · have hlive : ∀ x, (b.tab.val.assigned x).isSome → x ∈ T := by
      intro x hx
      rw [hw.assigned] at hx
      by_cases hxs : x = s
      · exact hxs ▸ hs
      · rw [Function.update_of_ne hxs] at hx
        exact h.live x hx
    have hpeak : b.tab.val.liveScalars ≤ (T.filter fun s => s.isVec = false).card := by
      rw [Tables.liveScalars, ← Set.ncard_coe_finset]
      exact Set.ncard_le_ncard (fun x hx => Finset.mem_filter.mpr ⟨hlive x hx.2, hx.1⟩) (Finset.finite_toSet _)
    exact ⟨hw.inv, hlive, write_claims h.inv (h.canWrite hT hs) hb hpeak h.claims, hw.warnings.trans h.quiet⟩

theorem unwrite (h : Roomy T a) (hb : a.unwrite rc s = .ok b) : Roomy T b := by
  have hle := unwrite_claims h.inv hb
  rcases unwrite_cases h.inv hb with rfl | ⟨addr, n, p, t, hs, -, -, ht, rfl⟩
  · exact h
  · refine ⟨h.inv.giveBack hs ht, fun x hx => h.live x ?_, (Nat.mul_le_mul_left VLEN hle).trans_lt h.claims, h.quiet⟩
    by_cases hxs : x = s
    · rw [hxs, hs]
      rfl
    · cases ht <;> simpa [Tables.forget, Tables.returned, Tables.dropped, hxs] using hx

theorem commitRead (h : Roomy T a) {o : Operand} {k : Nat} {r : RegisterAllocator × Nat} (hc : Vliw.commitRead (a, k) o = .ok r) :
    Roomy T r.1 := by
  rcases commitRead_cases (fun _ => none) h.inv o k with ⟨-, -, hread⟩ | ⟨addr, m, c, hs, hm, hread, hstep⟩
  · cases hread.symm.trans hc
    exact h
  · cases hread.symm.trans hc
    have hclaims : c.tab.val.claims = a.tab.val.claims := by
      rw [Vliw.commitRead, if_pos (by rw [hs]; rfl)] at hread
      obtain ⟨c', hc', hread⟩ := bind_eq_ok.mp hread
      cases hread
      exact read_claims hc'
    refine ⟨hstep.inv, fun x hx => h.live x ?_, hclaims ▸ h.claims, hstep.warnings.trans h.quiet⟩
    rw [hstep.assigned] at hx
    split at hx
    · by_cases hxs : x = o.base
      · rw [hxs, hs]
        rfl
      · rwa [Function.update_of_ne hxs] at hx
    · exact hx

theorem collect (h : Roomy T a) (hb : a.collectScalarGarbage = .ok b) : Roomy T b := by
  have hle := collect_claims hb
  obtain ⟨t, hcol, hinv, ha, -⟩ := collect_ok h.inv
  cases hcol.symm.trans hb
  exact ⟨hinv, fun x hx => h.live x (by rwa [← ha]), (Nat.mul_le_mul_left VLEN hle).trans_lt h.claims, h.quiet⟩

theorem allocWrites (h : Roomy T a) (hT : ∑ s ∈ T, s.extent ≤ SCRATCH_SIZE - VLEN) {ins : Instr Operand} (hins : ∀ t ∈ wrTags ins, t ∈ T)
    {got : Option (List Sym)} {obl obl' : Int} (hb : Vliw.allocWrites rc ins a obl = .ok (got, b, obl')) : Roomy T b := by
  have hcan : (wrTags ins).all a.canWrite = true := List.all_eq_true.mpr fun t ht => h.canWrite hT (hins t ht)
  rw [Vliw.allocWrites, if_pos hcan] at hb
  obtain ⟨⟨fresh, c, o⟩, hloop, hb⟩ := bind_eq_ok.mp hb
  cases hb
  refine foldlM_inv (I := fun acc : List Sym × RegisterAllocator × Int => Roomy T acc.2.1) (fun t ht acc acc' hstep hacc => ?_) hloop h
  obtain ⟨f, c, o⟩ := acc
  dsimp only [allocWrite] at hstep
  split at hstep
  · obtain ⟨⟨addr, d⟩, hw, hstep⟩ := bind_eq_ok.mp hstep
    cases hstep
    exact hacc.write hT (hins t ht) hw
  · obtain ⟨n, -, hstep⟩ := bind_eq_ok.mp hstep
    obtain ⟨⟨addr, d⟩, hw, hstep⟩ := bind_eq_ok.mp hstep
    cases hstep
    exact hacc.write hT (hins t ht) hw

theorem unallocWrites (h : Roomy T a) {ins : Instr Operand} {fresh : List Sym} {obl obl' : Int}
    (hb : Vliw.unallocWrites rc ins fresh a obl = .ok (b, obl')) : Roomy T b := by
  obtain ⟨c, hloop, hb⟩ := bind_eq_ok.mp hb
  obtain ⟨o, -, hb⟩ := bind_eq_ok.mp hb
  cases hb
  exact foldlM_inv (I := Roomy T) (fun t _ c c' hstep hc => hc.unwrite hstep) hloop h

theorem commitReads (h : Roomy T a) {ins : Instr Operand} {n : Nat} (hb : Vliw.commitReads ins a = .ok (b, n)) : Roomy T b :=
  foldlM_inv (I := fun acc : RegisterAllocator × Nat => Roomy T acc.1) (fun _ _ _ _ hstep hc => hc.commitRead hstep) hb h

end Roomy
end registers
section cycle

/-- The program's tags are in `T`, the words of which fit into scratch. -/
structure Fits (nodes : List DNode) (T : Finset Sym) : Prop where
  written : ∀ {i : Nat} {n : DNode}, nodes[i]? = some n → ∀ t ∈ wrTags n.instr, t ∈ T
  words : ∑ s ∈ T, s.extent ≤ SCRATCH_SIZE - VLEN

theorem commitNode_roomy (h : Roomy T w.alloc) (hrun : commitNode nodes node w st = .ok (w', st')) : Roomy T w'.alloc := by
  obtain ⟨c, n, hc, rfl, -⟩ := commitNode_eq_ok hrun
  exact h.commitReads hc

theorem runDebug_roomy (h : Roomy T w.alloc) (hrun : runDebug nodes emit node w st = .ok (w', st')) : Roomy T w'.alloc := by
  unfold runDebug at hrun
  split at hrun
  · obtain ⟨x, -, hrun⟩ := bind_eq_ok.mp hrun
    exact commitNode_roomy (w := { w with pool := x.2.1, place := x.2.2 }) h hrun
  · exact commitNode_roomy h hrun

theorem runGather_roomy (hT : ∑ s ∈ T, s.extent ≤ SCRATCH_SIZE - VLEN) (hnode : ∀ t ∈ wrTags node.instr, t ∈ T) (h : Roomy T w.alloc)
    (hrun : runGather rc nodes emit node w st = .ok (w', st')) : Roomy T w'.alloc := by
  obtain ⟨⟨got, b, obl⟩, haw, hrun⟩ := bind_eq_ok.mp hrun
  have hb := h.allocWrites hT hnode haw
  dsimp only at hrun
  split at hrun
  · cases hrun
    exact hb
  · split at hrun <;> split at hrun
    · exact commitNode_roomy (w := { w with alloc := b, pool := _, place := _ }) hb hrun
    · cases hrun
      exact hb
    · exact commitNode_roomy (w := { w with alloc := b, pool := _, place := _ }) hb hrun
    · cases hrun
      exact hb
  · cases hrun

theorem runRegular_roomy (hT : ∑ s ∈ T, s.extent ≤ SCRATCH_SIZE - VLEN) (hnode : ∀ t ∈ wrTags node.instr, t ∈ T) (h : Roomy T w.alloc)
    (hrun : runRegular rc nodes emit node w st = .ok (w', st')) : Roomy T w'.alloc := by
  obtain ⟨⟨got, b, obl⟩, haw, hrun⟩ := bind_eq_ok.mp hrun
  have hb := h.allocWrites hT hnode haw
  dsimp only at hrun
  cases got with
  | none =>
      cases hrun
      exact hb
  | some fresh =>
      obtain ⟨⟨placed, pool, place⟩, -, hrun⟩ := bind_eq_ok.mp hrun
      dsimp only at hrun
      split at hrun
      · split at hrun
        · obtain ⟨⟨c, obl'⟩, hun, hrun⟩ := bind_eq_ok.mp hrun
          cases hrun
          exact hb.unallocWrites hun
        · cases hrun
          exact hb
      · exact commitNode_roomy (w := { w with alloc := b, pool := pool, place := place }) hb hrun
      · cases hrun
        exact hb

theorem runNode_roomy (hf : Fits nodes T) (h : Roomy T w.alloc) (hrun : runNode rc nodes emit (w, st) i = .ok (w', st')) :
    Roomy T w'.alloc := by
  unfold runNode at hrun
  cases hn : nodes[i]? with
  | none =>
      rw [hn] at hrun
      cases hrun
  | some node =>
      rw [hn] at hrun
      dsimp only at hrun
      split at hrun
      · exact runDebug_roomy h hrun
      · exact runGather_roomy hf.words (hf.written hn) h hrun
      · exact runRegular_roomy hf.words (hf.written hn) h hrun

theorem runCycle_roomy (hf : Fits nodes T) (h : Roomy T w.alloc) (hrun : runCycle rc nodes emit order w = .ok (w', st)) :
    Roomy T w'.alloc := by
  obtain ⟨s, hloop, -⟩ := runCycle_eq_ok hrun
  exact foldlM_inv (I := fun p : World × Stats => Roomy T p.1.alloc) (fun _ _ _ _ hstep hp => runNode_roomy hf hp hstep) hloop h

theorem endCycle_roomy {n : Nat} (h : Roomy T w.alloc) (hend : endCycle n w = .ok w') : Roomy T w'.alloc := by
  obtain ⟨b, hcol, hend⟩ := bind_eq_ok.mp hend
  cases hend
  exact h.collect hcol

/-- Every ready node of a program that fits finds its registers. -/
theorem Fits.placeable (hf : Fits nodes T) (h : Roomy T a) (hn : nodes[i]? = some node) : placeable nodes a i = true := by
  rw [placeable_eq hn, List.all_eq_true]
  exact fun t ht => h.canWrite hf.words (hf.written hn t ht)

theorem Fits.not_starved (hf : Fits nodes T) (h : Roomy T w.alloc) {k : Nat} (hu : Underway nodes w k) (hw : Dag.WellFormed nodes)
    (hk : k < nodes.length) : ¬ Starved nodes w := by
  intro hs
  obtain ⟨i, hi⟩ := List.exists_mem_of_ne_nil _ (hu.nonempty hw hk)
  obtain ⟨node, hn⟩ := getElem?_of_frontier hu.ok.dag (mem_ready.mp hi).2
  have := hs i hi
  rw [hf.placeable h hn] at this
  cases this

theorem Roomy.of_tab (h : Roomy T a) (ht : b.tab.val = a.tab.val) (hq : b.exhaustionWarnings = 0) : Roomy T b :=
  ⟨ht ▸ h.inv, fun s hs => h.live s (ht ▸ hs), ht ▸ h.claims, hq⟩

end cycle
section greedy

variable {key : KeyFunc} {C k k' : Nat} {bundle : TaggedBundle}

theorem greedyCycle_roomy (hw : Dag.WellFormed nodes) (h1 : OneWriter nodes rc) (hraw : RawOnly nodes) (hok : w.Ok nodes prev)
    (hf : Fits nodes T) (h : Roomy T w.alloc) (hc : greedyCycle rc nodes key C w k = .ok (w', k', bundle)) : Roomy T w'.alloc := by
  rw [greedyCycle_eq hw h1 hraw hok key C k rfl] at hc
  split at hc
  · cases hc
  · obtain ⟨⟨v, s⟩, hrun, hc⟩ := bind_eq_ok.mp hc
    obtain ⟨b, -, hc⟩ := bind_eq_ok.mp hc
    split at hc
    · cases hc
    · obtain ⟨v', hend, hc⟩ := bind_eq_ok.mp hc
      cases hc
      exact endCycle_roomy (runCycle_roomy (w := { w with pool := .fresh }) hf h hrun) hend

theorem greedyCycle_places (hw : Dag.WellFormed nodes) (h1 : OneWriter nodes rc) (hraw : RawOnly nodes)
    (hok : w.Ok nodes w.dag.val.committed) (hs : ¬ Starved nodes w) {C' r x : Nat} :
    greedyCycle rc nodes key C w k ≠ .error (.stuck C' r x) := by
  intro herr
  have hok₀ : ({ w with pool := .fresh } : World).Ok nodes w.dag.val.committed := hok.of_vals rfl rfl rfl
  have ho : Orders nodes.length { w with pool := .fresh } ((w.dag.val.ready nodes.length).mergeSort
      fun i j => key C { w with pool := .fresh } i ≤ key C { w with pool := .fresh } j) := ⟨List.mergeSort_perm _ _⟩
  rw [greedyCycle_eq hw h1 hraw hok key C k rfl] at herr
  split at herr
  · cases herr
  · rcases runCycle_ok hw h1 hok₀ ho true rfl with ⟨v, s, M, hrun, hsteps, hfit, hcount⟩ | ⟨-, hrun⟩
    · obtain ⟨w', hend, -⟩ := (hsteps.ok hw h1 hok₀).endCycle
      simp only [hrun, bind_ok, hfit.emits] at herr
      rcases stuck_cases hw h1 hok₀ ho rfl hsteps hfit hcount with ⟨hstuck, -⟩ | ⟨-, hne⟩
      · exact hs ((placesNothing_iff hw h1 hok ho.perm (.inl rfl)).mp ⟨v, s, hrun, hstuck⟩)
      · rw [if_neg (by simp [hne]), hend] at herr
        cases herr
    · rw [hrun] at herr
      cases herr

end greedy
section rollout

variable {fs : List SortFunc} {sw : ScoreWeights} {C k k' : Nat} {bundle : TaggedBundle} {sc : WithBot ℚ} {best best' : Option (List Nat)}

/-- A trial warns of nothing, and is scored if some ready node finds its registers. -/
theorem trial_roomy (hw : Dag.WellFormed dag.nodes) (h1 : OneWriter dag.nodes rc) (hok : w.Ok dag.nodes prev) (hcl : w.Closed)
    (ho : Orders dag.nodes.length w order) (hf : Fits dag.nodes T) (h : Roomy T w.alloc) (hs : ¬ Starved dag.nodes w)
    (ht : trial rc dag sw order w = .ok (w', sc)) : Roomy T w'.alloc ∧ ⊥ < sc := by
  have hl := trial_like hw h1 hok hcl ho ht
  rcases simulate_rollback hw h1 hok hcl ho with ⟨t, s, v, hsim, hroll, -⟩ | ⟨-, herr⟩
  · obtain ⟨sc', htrial, hsc⟩ := trial_scored sw hsim hroll
    cases htrial.symm.trans ht
    obtain ⟨⟨u, s'⟩, hrun, hsim⟩ := bind_eq_ok.mp hsim
    cases hsim
    have hopen : Roomy T w.checkpoint.alloc := h.of_tab rfl h.quiet
    have hquiet : w'.alloc.exhaustionWarnings = u.alloc.exhaustionWarnings := by
      obtain ⟨pl, -, hroll⟩ := bind_eq_ok.mp hroll
      obtain ⟨a, ha, hroll⟩ := bind_eq_ok.mp hroll
      obtain ⟨d, -, hroll⟩ := bind_eq_ok.mp hroll
      obtain ⟨tab, -, ha⟩ := bind_eq_ok.mp ha
      cases hroll
      cases ha
      rfl
    refine ⟨h.of_tab (congrArg Logged.val hl.tab) (hquiet.trans (runCycle_roomy hf hopen hrun).quiet), hsc.mpr ?_⟩
    rw [← Bool.not_eq_true]
    exact fun hstuck => hs ((placesNothing_iff hw h1 hok ho.perm (.inr rfl)).mp ⟨u, s, hrun, hstuck⟩)
  · simp [trial, herr] at ht

theorem bestOrder_roomy {os : List (List Nat)} (hw : Dag.WellFormed dag.nodes) (h1 : OneWriter dag.nodes rc) (hok : w.Ok dag.nodes prev)
    (hcl : w.Closed) (ho : ∀ o ∈ os, Orders dag.nodes.length w o) (hf : Fits dag.nodes T) (h : Roomy T w.alloc) (hs : ¬ Starved dag.nodes w)
    (hfound : best ≠ none ∨ sc = ⊥ ∧ os ≠ []) (hbest : bestOrder rc dag sw os w sc best = .ok (w', best')) :
    Roomy T w'.alloc ∧ best' ≠ none := by
  induction os generalizing w sc best with
  | nil =>
      cases hbest
      exact ⟨h, hfound.resolve_right fun hnil => hnil.2 rfl⟩
  | cons o os ih =>
      obtain ⟨⟨v, sc'⟩, ht, hbest⟩ := bind_eq_ok.mp hbest
      obtain ⟨hv, hpos⟩ := trial_roomy hw h1 hok hcl (ho o (by simp)) hf h hs ht
      have hl := trial_like hw h1 hok hcl (ho o (by simp)) ht
      have hback : v.Like w := ⟨hl.dag.symm, hl.place.symm, hl.tab.symm⟩
      have ho' : ∀ o ∈ os, Orders dag.nodes.length v o := fun o' hm => ⟨hl.dag ▸ (ho o' (by simp [hm])).perm⟩
      have hs' : ¬ Starved dag.nodes v := fun hv => hs (hback.starved hv)
      dsimp only at hbest
      split at hbest
      · exact ih (hok.like hl) (hcl.like hl) ho' hv hs' (.inl (Option.some_ne_none o)) hbest
      · next hle =>
          refine ih (hok.like hl) (hcl.like hl) ho' hv hs' (.inl (hfound.resolve_right fun hbot => ?_)) hbest
          exact hle (hbot.1 ▸ hpos)

theorem replay_roomy (hf : Fits dag.nodes T) (h : Roomy T w.alloc) (hc : replay rc dag order w k = .ok (w', k', bundle)) : Roomy T w'.alloc := by
  obtain ⟨⟨v, s⟩, hrun, hc⟩ := bind_eq_ok.mp hc
  obtain ⟨v', hend, hc⟩ := bind_eq_ok.mp hc
  obtain ⟨b, -, hc⟩ := bind_eq_ok.mp hc
  cases hc
  exact endCycle_roomy (runCycle_roomy (w := { w with pool := .fresh }) hf h hrun) hend

/-- The replay raises nothing but the error of a tag without a read count. -/
theorem replay_error (hw : Dag.WellFormed dag.nodes) (h1 : OneWriter dag.nodes rc) (hok : w.Ok dag.nodes prev)
    (ho : Orders dag.nodes.length w order) {e : PyErr} (hc : replay rc dag order w k = .error e) : e = .keyError := by
  have hok₀ : ({ w with pool := .fresh } : World).Ok dag.nodes prev := hok.of_vals rfl rfl rfl
  have ho₀ : Orders dag.nodes.length { w with pool := .fresh } order := ⟨ho.perm⟩
  rcases runCycle_ok hw h1 hok₀ ho₀ true rfl with ⟨v, s, M, hrun, hsteps, hfit, -⟩ | ⟨-, hrun⟩
  · obtain ⟨w', hend, -, -, -, -, hpool, -⟩ := (hsteps.ok hw h1 hok₀).endCycle
    simp only [replay, hrun, bind_ok, hend, hpool, hfit.emits] at hc
    cases hc
  · rw [replay, hrun] at hc
    exact (Except.error.inj hc).symm

/-- While the values fit every trial is scored: what a cycle returns has warned of nothing, and no cycle finds a deadlock. -/
theorem rolloutCycle_roomy (hw : Dag.WellFormed dag.nodes) (h1 : OneWriter dag.nodes rc) (hcounted : ∀ i, ¬ Uncounted rc dag.nodes i)
    (hok : w.Ok dag.nodes prev) (hcl : w.Closed) (hfs : Permuting fs) (hne : fs ≠ []) (hf : Fits dag.nodes T) (h : Roomy T w.alloc)
    (hs : ¬ Starved dag.nodes w) (sw : ScoreWeights) (C k : Nat) : (∀ {w' k' bundle}, rolloutCycle rc dag fs sw C w k = .ok (w', k', bundle) → Roomy T w'.alloc) ∧
    ∀ {C' o r f x}, rolloutCycle rc dag fs sw C w k ≠ .error (.deadlock C' o r f x) := by
  have horders : ∀ o ∈ fs.map fun f => f C ⟨w.alloc, k / dag.nodes.length⟩ w.place.val (w.dag.val.ready dag.nodes.length),
      Orders dag.nodes.length w o := by
    intro o hm
    obtain ⟨f, hf, rfl⟩ := List.mem_map.mp hm
    exact ⟨hfs f hf _ _ _ _⟩
  obtain ⟨v, best, hbo, hl, hpicked⟩ := bestOrder_picked hw h1 hcounted sw hok hcl horders
  obtain ⟨hv, hsome⟩ := bestOrder_roomy hw h1 hok hcl horders hf h hs (.inr ⟨rfl, by simpa using hne⟩) hbo
  obtain ⟨order, rfl⟩ := Option.ne_none_iff_exists'.mp hsome
  have hov : Orders dag.nodes.length v order := ⟨hl.dag ▸ (hpicked order rfl).1.perm⟩
  simp only [rolloutCycle, hbo, bind_ok]
  split
  · constructor
    · intro _ _ _ hc
      cases hc
    · intro _ _ _ _ _ hc
      cases hc
  · split
    · constructor
      · intro _ _ _ hc
        cases hc
      · intro _ _ _ _ _ hc
        cases hc
    · refine ⟨fun hc => replay_roomy hf hv hc, fun {C' o r f x} hc => ?_⟩
      cases replay_error hw h1 (hok.like hl) hov hc

end rollout
section runs

/-- Every node is committed and nothing was warned of, in at most `bound` bundles, and in at most as many as the longest path has nodes and
as there are bundles in which an engine is full. -/
structure Unhindered (dag : Dag) (bound : Nat) (bs : List TaggedBundle) (w : World) : Prop where
  committed : ∀ i < dag.nodes.length, w.dag.val.committed i = true
  quiet : w.alloc.exhaustionWarnings = 0
  length : bs.length ≤ bound
  path : bs.length ≤ longestPath dag.nodes + bs.countP TaggedBundle.saturated

theorem Built.fits (hb : Built pinned is rc dag) (hfit : wordDemand is ≤ SCRATCH_SIZE - VLEN) : Fits dag.nodes (writtenTags is) where
  written := by
    intro i n hn t ht
    rw [wrTags_eq, Option.mem_toList] at ht
    rw [writtenTags, List.mem_toFinset, List.mem_filterMap]
    refine ⟨n.instr, ?_, ht⟩
    rw [← hb.instrs]
    exact List.mem_map_of_mem (List.mem_of_getElem? hn)
  words := (writtenTags_extent is).trans hfit

theorem Roomy.init (T : Finset Sym) : Roomy T .init where
  inv := Tables.Inv.init
  live s hs := by simp [RegisterAllocator.init, Tables.init] at hs
  claims := by simp [Tables.claims, RegisterAllocator.init, Tables.init, VLEN]
  quiet := rfl

/-- A program whose values together fit into scratch: whatever the keys or the orders tried, both schedulers return without a
warning, in no more bundles than the longest path and the full engines account for. -/
theorem schedulers_fit {is' : List (Instr Operand)} {rc' : Sym → Option Int} (ht : Tagged pinned is rc)
    (hpin : ∀ {i t}, WritesTag is i t → isPinned pinned t = false) (hwl : Workload pinned is rc is' rc' dag)
    (hfit : wordDemand is' ≤ SCRATCH_SIZE - VLEN) {cap : Nat} (hcap : is.length + 3 * gathers is ≤ cap) :
    (∀ key, ∃ bs w, schedule dag rc' key (some cap) .init = .ok (bs, w) ∧ Unhindered dag (is.length + 3 * gathers is) bs w) ∧
    ∀ fs sw, Permuting fs → fs ≠ [] → ∃ bs w, scheduleRollout dag rc' fs sw (some cap) .init = .ok (bs, w) ∧
      Unhindered dag (is.length + 3 * gathers is) bs w := by
  obtain ⟨hb, hsub⟩ := hwl.built ht
  have hcounted := hb.counted fun hw => hwl.unpinned ht hpin hw
  have hf := hb.fits hfit
  obtain ⟨hstart, hcl, heffort⟩ := hb.underway
  have hle : is'.length + 3 * gathers is' ≤ is.length + 3 * gathers is :=
    Nat.add_le_add hsub.length_le (Nat.mul_le_mul_left 3 hsub.countP_le)
  have hunhindered : ∀ {bs w k}, SchedulerRun rc' dag bs w k → Underway dag.nodes w k → Roomy (writtenTags is') w.alloc →
      dag.nodes.length ≤ k → bs.length ≤ (World.start dag .init).effort dag.nodes → Unhindered dag (is.length + 3 * gathers is) bs w := by
    intro bs w k hrun hu hr hk hlen
    refine ⟨fun i hi => committed_of_count (hu.count ▸ hk) hi, hr.quiet, by omega, ?_⟩
    have hpath := hrun.pathLeft_le hb hr.quiet
    omega
  refine ⟨fun key => ?_, fun fs sw hfs hne => ?_⟩
  · have hloop := cycleLoop_within (E := fun _ => False) (P := fun w k => Underway dag.nodes w k ∧ Roomy (writtenTags is') w.alloc)
      (fun {C w k} h hk => by
        have hs := hf.not_starved h.2 h.1 hb.graph.wf hk
        rcases greedyCycle_progress hb.graph.wf hb.oneWriter hcounted hb.graph.rawOnly key C h.1 hk with
          ⟨w', k', b, hc, hu, hlt⟩ | ⟨e, hc, C', r, x, rfl⟩
        · exact .inl ⟨w', k', b, hc, ⟨hu, greedyCycle_roomy hb.graph.wf hb.oneWriter hb.graph.rawOnly h.1.ok hf h.2 hc⟩, hlt⟩
        · exact absurd hc (greedyCycle_places hb.graph.wf hb.oneWriter hb.graph.rawOnly h.1.ok hs))
      (fun h hk => h.1.effort_pos hk) cap cap [] ⟨hstart, .init _⟩ (by omega)
    rcases hloop with ⟨bs, w, k, hx, ⟨hu, hr⟩, hk, hlen⟩ | ⟨e, -, he⟩
    · obtain ⟨k', hreach, hk'⟩ := cycleLoop_reached _ _ 0 [] bs .start (by simp) hx
      have hrun := SchedulerRun.greedy key hreach
      exact ⟨bs, w, hx, hunhindered hrun (hrun.underway hb) hr hk' (by simpa using hlen)⟩
    · exact he.elim
  · have hloop := cycleLoop_within (E := fun _ => False)
      (P := fun w k => (Underway dag.nodes w k ∧ w.Closed) ∧ Roomy (writtenTags is') w.alloc)
      (fun {C w k} h hk => by
        have hs := hf.not_starved h.2 h.1.1 hb.graph.wf hk
        obtain ⟨hroomy, hnot⟩ := rolloutCycle_roomy hb.graph.wf hb.oneWriter hcounted h.1.1.ok h.1.2 hfs hne hf h.2 hs sw C k
        rcases rolloutCycle_progress hb.graph.wf hb.oneWriter hcounted sw hfs C h.1.1 h.1.2 hk with
          ⟨w', k', b, hc, hu, hlt⟩ | ⟨e, hc, C', o, r, f, x, rfl⟩
        · exact .inl ⟨w', k', b, hc, ⟨hu, hroomy hc⟩, hlt⟩
        · exact absurd hc hnot)
      (fun h hk => h.1.1.effort_pos hk) cap cap [] ⟨⟨hstart, hcl⟩, .init _⟩ (by omega)
    rcases hloop with ⟨bs, w, k, hx, ⟨-, hr⟩, -, hlen⟩ | ⟨e, -, he⟩
    · obtain ⟨k', hreach, hk'⟩ := cycleLoop_reached _ _ 0 [] bs .start (by simp) hx
      have hrun := SchedulerRun.rollout fs sw hfs hreach
      exact ⟨bs, w, hx, hunhindered hrun (hrun.underway hb) hr hk' (by simpa using hlen)⟩
    · exact he.elim

/-- The gather and its store: 17 words of 1528. -/
theorem schedulers_fit_gatherStore : ∃ is rc dag bs w, tagRawChains gatherStore PINNED = .ok (is, rc) ∧ buildDag is PINNED = .ok dag ∧
    scheduleRollout dag rc [fun _ _ _ l => l] {} (some 7) .init = .ok (bs, w) ∧ w.alloc.exhaustionWarnings = 0 ∧
    bs.length ≤ longestPath dag.nodes + bs.countP TaggedBundle.saturated := by
  have hrun : (do
      let x ← tagRawChains gatherStore PINNED
      let dag ← buildDag x.1 PINNED
      .ok (wordDemand x.1, x.1.length + 3 * gathers x.1, dag.nodes.length,
        decide (∀ ins ∈ x.1, ∀ d ∈ ins.op.dest?, isPinned PINNED d.base = false))) =
      (.ok (17, 7, 4, true) : Except PyErr (Nat × Nat × Nat × Bool)) := by decide +kernel
  obtain ⟨⟨is, rc⟩, htag, hrun⟩ := bind_eq_ok.mp hrun
  obtain ⟨dag, hdag, hrun⟩ := bind_eq_ok.mp hrun
  have hout := Except.ok.inj hrun
  simp only [Prod.mk.injEq, decide_eq_true_eq] at hout
  obtain ⟨hwords, hbound, -, hpin⟩ := hout
  have hunpinned : ∀ {i t}, WritesTag is i t → isPinned PINNED t = false := by
    rintro i _ ⟨ins, d, hi, hd, rfl⟩
    exact hpin ins (List.mem_of_getElem? hi) d hd
  obtain ⟨bs, w, hsched, hun⟩ := (schedulers_fit (tagRawChains_tagged pinned_noHash htag) hunpinned (.whole hdag) (hwords ▸ by decide)
    (Nat.le_of_eq hbound)).2 _ {} permuting_id (by simp)
  exact ⟨is, rc, dag, bs, w, htag, hdag, hsched, hun.quiet, hun.path⟩

end runs
end Vliw
