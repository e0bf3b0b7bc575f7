import Mathlib.Data.Set.Finite.Lattice
import Mathlib.Order.Interval.Finset.Nat
import VliwKernel.Lib.PartialMap
import VliwKernel.Schedule.Turns

/-!
# The accounts of a cycle

What the counters of `_run_cycle` say about the tags that hold registers and the reads they still expect, turn by turn.
-/

namespace Vliw
open RegisterAllocator PartialMap

noncomputable def RegisterAllocator.liveTags (a : RegisterAllocator) : Nat := size a.tab.val.assigned

noncomputable def RegisterAllocator.owedReads (a : RegisterAllocator) : Int :=
  ∑ᶠ t ∈ dom a.tab.val.assigned, (a.tab.val.remaining t).getD 0

section registers

variable {rc : Sym → Option Int} {a b : RegisterAllocator} {ins : Instr Operand} {got : Option (List Sym)} {n : Nat}

theorem Tables.Inv.assigned_finite {t : Tables} (h : t.Inv) : (dom t.assigned).Finite := by
  have hlt : ∀ {s a}, t.assigned s = some a → a < SCRATCH_SIZE + VLEN := by
    intro s a hs
    cases hv : s.isVec with
    | true =>
        have := (h.vec_granule ⟨s, hv, hs⟩).2.2
        omega
    | false =>
        obtain ⟨g, hg, -, hga⟩ := h.word_claimed ⟨s, hv, hs⟩
        have := (h.claimed_granule hg).2.2
        omega
  refine Set.Finite.of_injOn (f := fun s => (s.isVec, (t.assigned s).getD 0)) (t := Set.univ ×ˢ Set.Iio (SCRATCH_SIZE + VLEN)) ?_ ?_
    (Set.finite_univ.prod (Set.finite_Iio _))
  · intro s hs
    obtain ⟨a, ha⟩ := Option.isSome_iff_exists.mp (mem_dom.mp hs)
    simpa [ha] using hlt ha
  · intro s hs s' hs' heq
    obtain ⟨a, ha⟩ := Option.isSome_iff_exists.mp (mem_dom.mp hs)
    obtain ⟨a', ha'⟩ := Option.isSome_iff_exists.mp (mem_dom.mp hs')
    simp only [ha, ha', Option.getD_some, Prod.mk.injEq] at heq
    exact h.assigned_inj heq.1 ha (heq.2 ▸ ha')

theorem Tables.Inv.remaining_finite {t : Tables} (h : t.Inv) : (dom t.remaining).Finite := by
  rw [dom_congr h.remaining_assigned]
  exact h.assigned_finite

theorem owedReads_eq (h : a.tab.val.Inv) : a.owedReads = total a.tab.val.remaining := by
  refine finsum_congr fun t => ?_
  by_cases ht : t ∈ dom a.tab.val.assigned
  · simp [ht]
  · have hnone : a.tab.val.remaining t = none := by
      rw [← Option.not_isSome_iff_eq_none, h.remaining_assigned]
      exact ht
    simp [ht, hnone]

theorem Restored.liveTags {c : RegisterAllocator} (h : Restored a c) : c.liveTags = a.liveTags := by
  obtain ⟨names, ht⟩ := h.tables
  rw [RegisterAllocator.liveTags, ht, RegisterAllocator.liveTags]

theorem Restored.owedReads {c : RegisterAllocator} (h : Restored a c) : c.owedReads = a.owedReads := by
  obtain ⟨names, ht⟩ := h.tables
  rw [RegisterAllocator.owedReads, ht, RegisterAllocator.owedReads]

/-- A fresh tag counts as one allocation, and with the reads it promises. -/
theorem Acquire.account (h : a.tab.val.Inv) (hacq : Acquire rc ins a got b) :
    b.nAlloc = a.nAlloc + (got.getD []).length ∧ b.nFree = a.nFree ∧ b.liveTags = a.liveTags + (got.getD []).length ∧
      b.owedReads = a.owedReads + promised rc (got.getD []) := by
  cases hacq with
  | full _ _ => exact ⟨rfl, rfl, rfl, (Int.add_zero _).symm⟩
  | noDest _ => exact ⟨rfl, rfl, rfl, (Int.add_zero _).symm⟩
  | sticky _ _ => exact ⟨rfl, rfl, rfl, (Int.add_zero _).symm⟩
  | @fresh d n addr _ _ hs hn hw =>
      refine ⟨hw.nAlloc, hw.nFree, ?_, ?_⟩
      · rw [liveTags, hw.assigned, size_insert h.assigned_finite hs]
        rfl
      · have hnone : a.tab.val.remaining d.base = none := by
          rw [← Option.not_isSome_iff_eq_none, h.remaining_assigned, hs]
          simp
        rw [owedReads_eq h, owedReads_eq hw.inv, hw.remaining, total_update h.remaining_finite, hnone, Option.getD_some, Option.getD_none,
          Int.sub_zero]
        simp [promised, hn]

/-- A read that is consumed is one less owed, and a register that it frees one live tag less. -/
theorem commitRead_account {o : Operand} {k : Nat} (h : a.tab.val.Inv) (hc : commitRead (a, k) o = .ok (b, n)) :
    b.tab.val.Inv ∧ b.nAlloc = a.nAlloc ∧ b.nFree + b.liveTags = a.nFree + a.liveTags ∧ b.owedReads + n = a.owedReads + k := by
  rcases commitRead_cases (fun _ => none) h o k with ⟨-, -, hread⟩ | ⟨addr, m, c, hs, hm, hread, hstep⟩
  · cases hread.symm.trans hc
    exact ⟨h, rfl, rfl, rfl⟩
  · cases hread.symm.trans hc
    have hlive : b.nFree + b.liveTags = a.nFree + a.liveTags := by
      rw [hstep.nFree, liveTags, liveTags, hstep.assigned]
      split
      · have := size_erase h.assigned_finite hs
        omega
      · rfl
    have howed : b.owedReads + 1 = a.owedReads := by
      rw [owedReads_eq h, owedReads_eq hstep.inv, hstep.remaining]
      split
      · next h1 =>
          rw [total_update h.remaining_finite, hm, h1]
          simp
      · rw [total_update h.remaining_finite, hm]
        simp
    refine ⟨hstep.inv, hstep.nAlloc, hlive, ?_⟩
    push_cast
    omega

/-- Each read that is consumed is one less owed, and each register freed one live tag less. -/
theorem commitReads_account (h : a.tab.val.Inv) (hc : commitReads ins a = .ok (b, n)) :
    b.nAlloc = a.nAlloc ∧ b.nFree + b.liveTags = a.nFree + a.liveTags ∧ b.owedReads + n = a.owedReads := by
  have hloop := foldlM_inv (I := fun c : RegisterAllocator × Nat => c.1.tab.val.Inv ∧ c.1.nAlloc = a.nAlloc ∧
      c.1.nFree + c.1.liveTags = a.nFree + a.liveTags ∧ c.1.owedReads + c.2 = a.owedReads) (fun o _ c c' hread hI => ?_) hc ⟨h, rfl, rfl, by simp⟩
  · exact hloop.2
  · obtain ⟨hinv, hnAlloc, hlive, howed⟩ := hI
    obtain ⟨hinv', hnAlloc', hlive', howed'⟩ := commitRead_account hinv hread
    exact ⟨hinv', hnAlloc'.trans hnAlloc, hlive'.trans hlive, howed'.trans howed⟩

end registers

/-- The turn of node `i` would take its fresh register back: the node has one to write, and no slot is left for it. -/
def World.rollsBack (nodes : List DNode) (w : World) (i : Nat) : Bool :=
  match nodes[i]? with
  | none => false
  | some node =>
      (classify node.instr.op).kind ≠ .gather && w.place.val.lanesDone i = 0 && w.pool.refuses (classify node.instr.op) &&
        (wrTags node.instr).any fun t => (w.alloc.tab.val.assigned t).isNone && w.alloc.canWrite t

section cycle

variable {pinned : List String} {is : List (Instr Operand)} {rc : Sym → Option Int} {dag : Dag} {nodes : List DNode} {prev : Nat → Bool}
  {emit : Bool} {i : Nat} {order : List Nat} {w w' v : World} {st st' : Stats} {p q : World × Stats} {node : DNode}

/-- Allocations less frees follow the live tags, but for a register that is taken back. Promises less reads follow what is owed. -/
theorem Turn.account (hn : nodes[i]? = some node) (hidx : node.idx = i) (ha : w.alloc.tab.val.Inv) (h : Turn rc nodes node w st w' st') :
    (w'.alloc.nAlloc : Int) - w'.alloc.nFree + w.alloc.liveTags =
      w.alloc.nAlloc - w.alloc.nFree + w'.alloc.liveTags + (w.rollsBack nodes i).toNat ∧
    st'.obligations - st'.reads + w.alloc.owedReads = st.obligations - st.reads + w'.alloc.owedReads := by
  have hrolls : ∀ hnot : (classify node.instr.op).kind = .gather ∨ 0 < w.place.val.lanesDone node.idx ∨
      w.pool.refuses (classify node.instr.op) = false, w.rollsBack nodes i = false := by
    rintro (hg | h0 | hr)
    · simp [World.rollsBack, hn, hg]
    · rw [hidx] at h0
      simp [World.rollsBack, hn, Nat.pos_iff_ne_zero.mp h0]
    · simp [World.rollsBack, hn, hr]
  cases h with
  | @full b hacq =>
      obtain ⟨hnAlloc, hnFree, hlive, howed⟩ := hacq.account ha
      have hfalse : w.rollsBack nodes i = false := by
        cases hacq with
        | full hd hcan => simp [World.rollsBack, hn, wrTags_eq, hd, hcan]
      simp [hnAlloc, hnFree, hlive, howed, promised, hfalse]
  | @refused fresh b c hk h0 hr hcan hacq hrest hnAlloc =>
      have htrue : (w.rollsBack nodes i).toNat = fresh.length := by
        rw [hidx] at h0
        cases hacq with
        | noDest hd => simp [World.rollsBack, hn, wrTags_eq, hd]
        | sticky hd hs => simp [World.rollsBack, hn, wrTags_eq, hd, hs]
        | fresh hd hs _ _ =>
            simp only [wrTags_eq, hd, Option.map_some, Option.toList_some, List.all_cons, List.all_nil, Bool.and_true] at hcan
            simp [World.rollsBack, hn, hk, h0, hr, wrTags_eq, hd, hs, hcan]
      rw [hrest.owedReads]
      refine ⟨?_, rfl⟩
      rw [hnAlloc, hrest.nFree, hrest.liveTags, htrue]
      push_cast
      omega
  | @held fresh b hor hcan hacq =>
      obtain ⟨hnAlloc, hnFree, hlive, howed⟩ := hacq.account ha
      have hfalse := hrolls (hor.imp And.left .inl)
      simp only [hnAlloc, hnFree, hlive, howed, hfalse, Option.getD_some, Bool.toNat_false]
      push_cast
      exact ⟨by omega, by omega⟩
  | @landed fresh b place pool hnot _ hacq =>
      obtain ⟨hnAlloc, hnFree, hlive, howed⟩ := hacq.account ha
      simp only [hnAlloc, hnFree, hlive, howed, hrolls hnot, Option.getD_some, Bool.toNat_false]
      push_cast
      exact ⟨by omega, by omega⟩
  | @done fresh b c n place pool hnot hacq hread =>
      obtain ⟨hnAlloc, hnFree, hlive, howed⟩ := hacq.account ha
      obtain ⟨hnAlloc', hlive', howed'⟩ := commitReads_account (hacq.inv ha) hread
      simp only [hrolls hnot, Option.getD_some, Bool.toNat_false] at *
      push_cast
      exact ⟨by omega, by omega⟩

/-- Over a cycle the two accounts differ by the registers that were taken back. -/
theorem Turns.account (hw : Dag.WellFormed nodes) (h : Turns pinned rc nodes emit prev p order q) :
    ∃ r : Nat, (r = 0 ↔ ∀ {j u}, MidCycle rc nodes emit p order j u → u.1.rollsBack nodes j = false) ∧
      (q.1.alloc.nAlloc : Int) - q.1.alloc.nFree + p.1.alloc.liveTags =
        p.1.alloc.nAlloc - p.1.alloc.nFree + q.1.alloc.liveTags + r ∧
      q.2.obligations - q.2.reads + p.1.alloc.owedReads = p.2.obligations - p.2.reads + q.1.alloc.owedReads := by
  induction h with
  | nil => exact ⟨0, ⟨fun _ _ _ hm => absurd hm midCycle_nil, fun _ => rfl⟩, by simp, rfl⟩
  | @cons p q r i node order hn hlive _ hrun hturn _ _ _ ih =>
      obtain ⟨n, hzero, hregs, hobl⟩ := ih
      obtain ⟨hregs₁, hobl₁⟩ := hturn.account hn (hw.idx hn) hlive.alloc
      refine ⟨(p.1.rollsBack nodes i).toNat + n, ?_, ?_, by omega⟩
      · simp only [midCycle_cons hrun, Nat.add_eq_zero_iff, hzero]
        constructor
        · rintro ⟨hi, hrest⟩ j u (⟨rfl, rfl⟩ | hm)
          · simpa using hi
          · exact hrest hm
        · intro hall
          exact ⟨by simp [hall (.inl ⟨rfl, rfl⟩)], fun hm => hall (.inr hm)⟩
      · push_cast
        omega

theorem runCycle_account (hb : Built pinned is rc dag) {bs : List TaggedBundle} {k : Nat} (hr : SchedulerRun rc dag bs w k)
    (he : w.Entered v) (ho : Orders dag.nodes.length w order) {s : Stats} (hrun : runCycle rc dag.nodes emit order v = .ok (w', s)) :
    ∃ r : Nat, (r = 0 ↔ ∀ {i u}, MidCycle rc dag.nodes emit (v, .zero) order i u → u.1.rollsBack dag.nodes i = false) ∧
      s.allocs - s.frees + w.alloc.liveTags = w'.alloc.liveTags + r ∧
      s.obligations - s.reads + w.alloc.owedReads = w'.alloc.owedReads := by
  obtain ⟨st, hfold, rfl⟩ := runCycle_eq_ok hrun
  obtain ⟨r, hzero, hregs, hobl⟩ := (he.turns hb (hr.live hb) ho hfold).account hb.graph.wf
  simp only [RegisterAllocator.liveTags, RegisterAllocator.owedReads, he.tab] at hregs hobl ⊢
  exact ⟨r, hzero, by omega, by simpa [Stats.zero] using hobl⟩

/-- The change in live registers is allocations less frees exactly when no turn takes its register back. -/
theorem reg_delta_iff (hb : Built pinned is rc dag) {bs : List TaggedBundle} {k : Nat} (hr : SchedulerRun rc dag bs w k)
    (he : w.Entered v) (ho : Orders dag.nodes.length w order) {s : Stats} (hrun : runCycle rc dag.nodes emit order v = .ok (w', s)) :
    s.allocs - s.frees = (w'.alloc.liveTags : Int) - w.alloc.liveTags ↔
      ∀ {i u}, MidCycle rc dag.nodes emit (v, .zero) order i u → u.1.rollsBack dag.nodes i = false := by
  obtain ⟨r, hzero, hregs, -⟩ := runCycle_account hb hr he ho hrun
  rw [← hzero]
  omega

/-- In the first cycle of the small program every node gets its slot. -/
theorem reg_delta_small : ∃ is rc dag w' s, tagRawChains smallProgram PINNED = .ok (is, rc) ∧ buildDag is PINNED = .ok dag ∧
    runCycle rc dag.nodes true [1, 0] (World.start dag .init) = .ok (w', s) ∧
    s.allocs - s.frees = (w'.alloc.liveTags : Int) - (World.start dag .init).alloc.liveTags := by
  have hrun : (do
      let (is, rc) ← tagRawChains smallProgram PINNED
      let dag ← buildDag is PINNED
      let x ← runCycle rc dag.nodes true [1, 0] (World.start dag .init)
      let q ← runNode rc dag.nodes true (World.start dag .init, .zero) 1
      let q' ← runNode rc dag.nodes true q 0
      .ok ((World.start dag .init).dag.val.ready dag.nodes.length, x.2.committed, q'.2.committed,
        (World.start dag .init).rollsBack dag.nodes 1, q.1.rollsBack dag.nodes 0)) =
      (.ok ([0, 1], 2, 2, false, false) : Except PyErr (List Nat × Nat × Nat × Bool × Bool)) := by decide +kernel
  obtain ⟨⟨is, rc⟩, htag, hrun⟩ := bind_eq_ok.mp hrun
  obtain ⟨dag, hdag, hrun⟩ := bind_eq_ok.mp hrun
  obtain ⟨⟨w', s⟩, hcycle, hrun⟩ := bind_eq_ok.mp hrun
  obtain ⟨q, hq, hrun⟩ := bind_eq_ok.mp hrun
  obtain ⟨q', hq', hrun⟩ := bind_eq_ok.mp hrun
  have hout := Except.ok.inj hrun
  simp only [Prod.mk.injEq] at hout
  obtain ⟨hready, -, -, h₁, h₀⟩ := hout
  have ht := tagRawChains_tagged pinned_noHash htag
  have ho : Orders dag.nodes.length (World.start dag .init) [1, 0] := ⟨hready ▸ List.Perm.swap 0 1 []⟩
  refine ⟨is, rc, dag, w', s, htag, hdag, hcycle, ?_⟩
  rw [reg_delta_iff ⟨ht, .of_ok ht.toSingleWriter hdag⟩ (.greedy (fun _ _ _ => 0) .start) (World.entered_fresh _) ho hcycle]
  intro i u hm
  have hm' : MidCycle rc dag.nodes true (World.start dag .init, .zero) [1, 0] i u := hm
  rw [midCycle_cons hq, midCycle_cons hq'] at hm'
  rcases hm' with ⟨rfl, rfl⟩ | ⟨rfl, rfl⟩ | hm'
  · exact h₁
  · exact h₀
  · exact absurd hm' midCycle_nil

/-- The third constant finds no slot: two registers are live after the cycle, three are counted. -/
theorem reg_delta_drifts : ∃ is rc dag w' s, tagRawChains threeConsts PINNED = .ok (is, rc) ∧ buildDag is PINNED = .ok dag ∧
    Orders dag.nodes.length (World.start dag .init) [0, 1, 2] ∧
    runCycle rc dag.nodes true [0, 1, 2] (World.start dag .init) = .ok (w', s) ∧ s.allocs - s.frees = 3 ∧
    (w'.alloc.liveTags : Int) - (World.start dag .init).alloc.liveTags ≠ 3 := by
  have hrun : (do
      let (is, rc) ← tagRawChains threeConsts PINNED
      let dag ← buildDag is PINNED
      let x ← runCycle rc dag.nodes true [0, 1, 2] (World.start dag .init)
      let q ← [0, 1].foldlM (runNode rc dag.nodes true) (World.start dag .init, .zero)
      .ok ((World.start dag .init).dag.val.ready dag.nodes.length, x.2.allocs, x.2.frees, q.1.rollsBack dag.nodes 2)) =
      (.ok ([0, 1, 2], 3, 0, true) : Except PyErr (List Nat × Int × Int × Bool)) := by decide +kernel
  obtain ⟨⟨is, rc⟩, htag, hrun⟩ := bind_eq_ok.mp hrun
  obtain ⟨dag, hdag, hrun⟩ := bind_eq_ok.mp hrun
  obtain ⟨⟨w', s⟩, hcycle, hrun⟩ := bind_eq_ok.mp hrun
  obtain ⟨q, hq, hrun⟩ := bind_eq_ok.mp hrun
  have hout := Except.ok.inj hrun
  simp only [Prod.mk.injEq] at hout
  obtain ⟨hready, hallocs, hfrees, hback⟩ := hout
  have ht := tagRawChains_tagged pinned_noHash htag
  have ho : Orders dag.nodes.length (World.start dag .init) [0, 1, 2] := ⟨hready ▸ .refl _⟩
  obtain ⟨r, hzero, hregs, -⟩ := runCycle_account ⟨ht, .of_ok ht.toSingleWriter hdag⟩ (.greedy (fun _ _ _ => 0) .start)
    (World.entered_fresh _) ho hcycle
  have hne : r ≠ 0 := by
    rw [Ne, hzero]
    intro hall
    have hm : MidCycle rc dag.nodes true (World.start dag .init, .zero) [0, 1, 2] 2 q := ⟨[0, 1], [], rfl, hq⟩
    rw [hall hm] at hback
    cases hback
  refine ⟨is, rc, dag, w', s, htag, hdag, ho, hcycle, ?_, ?_⟩
  · rw [hallocs, hfrees, Int.sub_zero]
  · omega

/-- What is promised less what is read is the change in reads still owed. -/
theorem obligations_exact (hb : Built pinned is rc dag) {bs : List TaggedBundle} {k : Nat} (hr : SchedulerRun rc dag bs w k)
    (he : w.Entered v) (ho : Orders dag.nodes.length w order) {s : Stats} (hrun : runCycle rc dag.nodes emit order v = .ok (w', s)) :
    s.obligations - s.reads = w'.alloc.owedReads - w.alloc.owedReads := by
  obtain ⟨-, -, -, hobl⟩ := runCycle_account hb hr he ho hrun
  omega

theorem obligations_exact_small : ∃ is rc dag w' s, tagRawChains smallProgram PINNED = .ok (is, rc) ∧ buildDag is PINNED = .ok dag ∧
    runCycle rc dag.nodes true [1, 0] (World.start dag .init) = .ok (w', s) ∧ s.obligations = 3 ∧ s.reads = 0 ∧
    w'.alloc.owedReads - (World.start dag .init).alloc.owedReads = 3 := by
  have hrun : (do
      let (is, rc) ← tagRawChains smallProgram PINNED
      let dag ← buildDag is PINNED
      let x ← runCycle rc dag.nodes true [1, 0] (World.start dag .init)
      .ok ((World.start dag .init).dag.val.ready dag.nodes.length, x.2.obligations, x.2.reads)) =
      (.ok ([0, 1], 3, 0) : Except PyErr (List Nat × Int × Nat)) := by decide +kernel
  obtain ⟨⟨is, rc⟩, htag, hrun⟩ := bind_eq_ok.mp hrun
  obtain ⟨dag, hdag, hrun⟩ := bind_eq_ok.mp hrun
  obtain ⟨⟨w', s⟩, hcycle, hrun⟩ := bind_eq_ok.mp hrun
  have hout := Except.ok.inj hrun
  simp only [Prod.mk.injEq] at hout
  obtain ⟨hready, hobl, hreads⟩ := hout
  have ht := tagRawChains_tagged pinned_noHash htag
  have ho : Orders dag.nodes.length (World.start dag .init) [1, 0] := ⟨hready ▸ List.Perm.swap 0 1 []⟩
  have hexact := obligations_exact ⟨ht, .of_ok ht.toSingleWriter hdag⟩ (.greedy (fun _ _ _ => 0) .start) (World.entered_fresh _) ho hcycle
  rw [hobl, hreads] at hexact
  exact ⟨is, rc, dag, w', s, htag, hdag, hcycle, hobl, hreads, hexact.symm⟩

end cycle
end Vliw
