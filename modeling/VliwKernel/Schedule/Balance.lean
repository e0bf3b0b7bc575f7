import VliwKernel.Schedule.Termination

/-!
# Registers balance

A tag gives its register back exactly once, in the step that consumes its last read, and one that is never read
keeps it. So after a schedule only tags without reads hold registers; after pruning none does, and all granules
are back in the vector pool.
-/

namespace Vliw
open RegisterAllocator

variable {pinned : List String} {is : List (Instr Operand)} {rc : Sym → Option Int} {dag : Dag} {nodes : List DNode}
  {prev : Nat → Bool} {w w' v : World} {i j : Nat} {node : DNode} {x : Option Landing} {done : Bool} {t : Sym}

/-- The tag held a register before and holds none after. -/
def gaveBack (t : Sym) (w w' : World) : Nat :=
  if (w.alloc.tab.val.assigned t).isSome ∧ w'.alloc.tab.val.assigned t = none then 1 else 0

section
variable (rc nodes)

def returns (t : Sym) : List Nat → World × Stats → Nat
  | [], _ => 0
  | i :: order, p =>
      match runNode rc nodes true p i with
      | .ok q => gaveBack t p.1 q.1 + returns t order q
      | .error _ => 0

def Cycles.returns (t : Sym) (cs : List CycleRecord) : Nat :=
  (cs.map fun c => Vliw.returns rc nodes t c.order (c.start, .zero)).sum

end

/-- Whatever holds a register is still read, or never. -/
def World.Frugal (nodes : List DNode) (w : World) : Prop :=
  ∀ t a, w.alloc.tab.val.assigned t = some a → w.Awaited nodes t

def World.unread (nodes : List DNode) (w : World) (t : Sym) : Nat :=
  if 0 < pendingReads nodes w.dag.val.committed t then 1 else 0

theorem World.Frugal.of_vals (h : w.Frugal nodes) (hd : v.dag.val.committed = w.dag.val.committed)
    (ha : v.alloc.tab.val.assigned = w.alloc.tab.val.assigned) : v.Frugal nodes := by
  intro t a ht
  rw [ha] at ht
  rw [World.Awaited, hd]
  exact h t a ht

section step

theorem dest_lanes_pos {ins : Instr Operand} {d : Operand} (hd : ins.op.dest? = some d) : 0 < (classify ins.op).lanesTotal := by
  cases hop : ins.op <;> simp [hop, Op.dest?] at hd <;> simp [classify, Op.engine, Op.isGather, VLEN]

/-- Until its last read a tag whose writer is committed holds its register. -/
theorem World.Live.held_unread (hb : Built pinned is rc dag) (h : w.Live pinned dag.nodes prev)
    (hw : WritesTag is j t) (hp : isPinned pinned t = false) (hc : w.dag.val.committed j = true)
    (ha : w.Awaited dag.nodes t) : (w.alloc.tab.val.assigned t).isSome := by
  obtain ⟨n, d, hn, hd, rfl⟩ := hb.node_of_writes hw
  refine h.held hn hd hp ?_ ha
  rw [h.lanes_done hn hc]
  exact dest_lanes_pos hd

theorem NodeStep.frugal (hb : Built pinned is rc dag) (h : w.Live pinned dag.nodes prev) (hfr : w.Frugal dag.nodes)
    (hn : dag.nodes[i]? = some node) (hf : w.dag.val.frontier i = true)
    (hs : NodeStep rc dag.nodes i node.instr w x done w') : w'.Frugal dag.nodes := by
  have hcomm := (hs.dag_inv hb.graph.wf h.dag hf).2
  have hacq : ∀ {fresh b t a}, Acquire rc node.instr w.alloc (some fresh) b → b.tab.val.assigned t = some a →
      w.Awaited dag.nodes t := by
    intro fresh b t a ha ht
    obtain ⟨-, -, hnew, -⟩ := h.acquire hb hn hf ha
    rcases hnew ht with hold | ⟨hp, d, hd, rfl⟩
    · exact hfr t a hold
    · exact h.awaited_dest hb (hb.writesTag hn hd) hp (h.dag.prev_false hf)
  intro t a ht
  cases hs with
  | idle _ ha _ _ => exact hfr t a (ha ▸ ht)
  | held _ ha => exact hacq ha ht
  | landed ha _ _ _ _ => exact hacq ha ht
  | done ha _ _ _ _ hr =>
      obtain ⟨hinv, -, -, hcnt, -⟩ := h.acquire hb hn hf ha
      obtain ⟨-, hback, -, -, hstill⟩ := commitReads_counted hn (h.dag.frontier_iff.mp hf).2.1 hinv hcnt hr
      rw [World.Awaited, hcomm]
      exact hstill ht (hacq ha (hback ht))

theorem NodeStep.gaveBack (hb : Built pinned is rc dag) (h : w.Live pinned dag.nodes prev) (hfr : w.Frugal dag.nodes)
    (hn : dag.nodes[i]? = some node) (hf : w.dag.val.frontier i = true)
    (hs : NodeStep rc dag.nodes i node.instr w x done w') (hw : WritesTag is j t) (hp : isPinned pinned t = false) :
    gaveBack t w w' + w'.unread dag.nodes t = w.unread dag.nodes t := by
  obtain ⟨h', hl⟩ := hs.live hb h hn hf
  have hfr' := hs.frugal hb h hfr hn hf
  have hle : pendingReads dag.nodes w'.dag.val.committed t ≤ pendingReads dag.nodes w.dag.val.committed t :=
    pendingReads_anti (fun _ hc => hl.committed hc) t
  have htotal : pendingReads dag.nodes w.dag.val.committed t ≤ totalOcc (dag.nodes.map DNode.instr) t := by
    rw [← pendingReads_none]
    exact pendingReads_anti (fun _ hc => by cases hc) t
  have hkeep : w'.Awaited dag.nodes t → Vliw.gaveBack t w w' = 0 := by
    intro ha
    rw [Vliw.gaveBack, if_neg]
    rintro ⟨hsome, hnone⟩
    obtain ⟨a, hs⟩ := Option.isSome_iff_exists.mp hsome
    rw [hl.keeps hs ha] at hnone
    cases hnone
  rcases Nat.eq_zero_or_pos (pendingReads dag.nodes w'.dag.val.committed t) with hzero | hpos
  · rcases Nat.eq_zero_or_pos (pendingReads dag.nodes w.dag.val.committed t) with hzero' | hpos'
    · -- all reads were consumed before
      have hnone : Vliw.gaveBack t w w' = 0 := by
        cases hs : w.alloc.tab.val.assigned t with
        | none => simp [Vliw.gaveBack, hs]
        | some a => exact hkeep (.inr ((hfr t a hs).resolve_left (by omega)))
      simp [World.unread, hnone, hzero, hzero']
    · -- the last read is consumed here
      have hnone : w'.alloc.tab.val.assigned t = none := by
        cases hs' : w'.alloc.tab.val.assigned t with
        | none => rfl
        | some a =>
            have := (hfr' t a hs').resolve_left (by omega)
            omega
      have hc : w.dag.val.committed j = true := by
        by_contra hc
        have hprev : prev j = false := by
          rw [← Bool.not_eq_true]
          exact fun hj => hc (h.dag.prev_committed hj)
        have := hb.pending_total h'.dag hw hp hprev
        rw [hb.instrs] at htotal
        omega
      have hsome := h.held_unread hb hw hp hc (.inl hpos')
      simp [World.unread, Vliw.gaveBack, hnone, hsome, hzero, hpos']
  · have hpos' : 0 < pendingReads dag.nodes w.dag.val.committed t := by omega
    simp [World.unread, hkeep (.inl hpos), hpos, hpos']

end step
section run

theorem runNodes_returns (hb : Built pinned is rc dag) {order : List Nat} {M : Ledger} {st st' : Stats} (h : w.Live pinned dag.nodes prev)
    (hfr : w.Frugal dag.nodes) (hnd : order.Nodup) (hf : ∀ i ∈ order, w.dag.val.frontier i = true ∧ M i = none)
    (hfit : FuncUnitPool.Fit true M w.pool)
    (hrun : order.foldlM (runNode rc dag.nodes true) (w, st) = .ok (w', st')) :
    w'.Frugal dag.nodes ∧ ∀ {j t}, WritesTag is j t → isPinned pinned t = false →
      returns rc dag.nodes t order (w, st) + w'.unread dag.nodes t = w.unread dag.nodes t := by
  induction order generalizing w M st with
  | nil =>
      cases hrun
      exact ⟨hfr, fun _ _ => Nat.zero_add _⟩
  | cons i order ih =>
      obtain ⟨hio, hnd⟩ := List.nodup_cons.mp hnd
      obtain ⟨hfi, hMi⟩ := hf i (by simp)
      obtain ⟨node, hn⟩ := getElem?_of_frontier h.dag hfi
      have hidx := hb.graph.wf.idx hn
      have hci := (h.dag.frontier_iff.mp hfi).2.1
      rw [List.foldlM_cons] at hrun
      rcases runNode_ok rc true hn hidx h.toOk hci hMi hfit st with ⟨x, done, w₁, st₁, hstep, hs, hfit₁, -⟩ | ⟨-, -, -, -, herr⟩
      · rw [hidx] at hs hfit₁
        rw [hstep, bind_ok] at hrun
        obtain ⟨hfr', hsum⟩ := ih (hs.live hb h hn hfi).1 (hs.frugal hb h hfr hn hfi) hnd (hs.due hb.graph.wf h.dag hio hf) hfit₁ hrun
        refine ⟨hfr', fun {j t} hw hp => ?_⟩
        have hone := hs.gaveBack hb h hfr hn hfi hw hp
        have hrest := hsum hw hp
        simp only [returns, hstep]
        omega
      · rw [herr] at hrun
        cases hrun

/-- Over a run a tag gives its register back as often as it loses its last reader. -/
theorem Cycles.balance (hb : Built pinned is rc dag) {cs : List CycleRecord} (hcs : Cycles rc dag.nodes w cs w')
    (h : w.Live pinned dag.nodes w.dag.val.committed) (hfr : w.Frugal dag.nodes) :
    w'.Live pinned dag.nodes w'.dag.val.committed ∧ w'.Frugal dag.nodes ∧ ∀ {j t}, WritesTag is j t → isPinned pinned t = false →
      Cycles.returns rc dag.nodes t cs + w'.unread dag.nodes t = w.unread dag.nodes t := by
  induction hcs with
  | nil => exact ⟨h, hfr, fun _ _ => Nat.zero_add _⟩
  | @cons w u w' c cs hc _ ih =>
      obtain ⟨hstart, -, hstop, -, hend, -⟩ := hc.live hb h
      have hfr₀ : c.start.Frugal dag.nodes := hfr.of_vals (by rw [hc.like.dag]) (by rw [hc.like.tab])
      obtain ⟨s, hrun⟩ := hc.run
      rw [runCycle_eq] at hrun
      cases hnodes : c.order.foldlM (runNode rc dag.nodes true) (c.start, .zero) with
      | error e =>
          rw [hnodes] at hrun
          cases hrun
      | ok p =>
          rw [hnodes] at hrun
          have hp : p.1 = c.stop := (Prod.mk.inj (Except.ok.inj hrun)).1
          obtain ⟨hfr₁, hsum⟩ := runNodes_returns (M := fun _ => none) hb hstart hfr₀ hc.orders.nodup
            (fun i hi => ⟨hc.orders.frontier hi, rfl⟩) (hc.pool ▸ FuncUnitPool.Fit.fresh true) hnodes
          rw [hp] at hfr₁ hsum
          obtain ⟨v, hv, -, -, hcomm, -, -, -, hass, -⟩ := hstop.toOk.endCycle
          cases hc.ends.symm.trans hv
          obtain ⟨hlast, hfr', hrest⟩ := ih hend (hfr₁.of_vals hcomm hass)
          refine ⟨hlast, hfr', fun {j t} hw hpt => ?_⟩
          have h₁ := hsum hw hpt
          have h₂ := hrest hw hpt
          have hu : u.unread dag.nodes t = c.stop.unread dag.nodes t := by rw [World.unread, World.unread, hcomm]
          have hs : c.start.unread dag.nodes t = w.unread dag.nodes t := by rw [World.unread, World.unread, hc.like.dag]
          rw [Cycles.returns] at h₂ ⊢
          rw [List.map_cons, List.sum_cons]
          omega

/-- After a run exactly the tags that are written and never read hold registers; every other one has given its
register back once. -/
structure Balanced (is : List (Instr Operand)) (rc : Sym → Option Int) (nodes : List DNode) (cs : List CycleRecord) (w : World) : Prop where
  kept : ∀ t, (w.alloc.tab.val.assigned t).isSome ↔ (∃ i, WritesTag is i t) ∧ rc t = some 0
  once : ∀ {i t n}, WritesTag is i t → rc t = some n → Cycles.returns rc nodes t cs = if n = 0 then 0 else 1
  tables : w.alloc.tab.val.Inv

/-- All registers are back: scratch is in the vector pool, every granule once. -/
structure Drained (t : Tables) : Prop where
  unassigned : ∀ s, t.assigned s = none
  unclaimed : ∀ g, ¬ t.Claimed g
  pool : t.freeVec.Perm allGranules

theorem pendingReads_all {c : Nat → Bool} (h : ∀ i < nodes.length, c i = true) (t : Sym) : pendingReads nodes c t = 0 := by
  refine Finset.sum_eq_zero fun i hi => ?_
  rw [if_pos (h i (Finset.mem_range.mp hi))]

theorem Completed.balanced (hb : Built pinned is rc dag) {bs : List TaggedBundle} (h : Completed rc dag bs w) :
    ∃ cs, bs = cs.map (fun c => emitted c.bundle) ∧ Cycles rc dag.nodes (.start dag .init) cs w ∧ Balanced is rc dag.nodes cs w := by
  obtain ⟨k, hrun, hk⟩ := h.run
  obtain ⟨cs, hbs, hcs, hcount⟩ := hrun.cycles hb
  have hfr : (World.start dag .init).Frugal dag.nodes := fun t a ht => by cases ht
  obtain ⟨hlive, hfr', hsum⟩ := hcs.balance hb hb.start_live.1 hfr
  have hall : ∀ i < dag.nodes.length, w.dag.val.committed i = true := fun i hi => committed_of_count (hcount ▸ hk) hi
  have hcommitted : ∀ {i t}, WritesTag is i t → w.dag.val.committed i = true := by
    intro i t hw
    obtain ⟨n, d, hn, -⟩ := hb.node_of_writes hw
    exact hall i (List.getElem?_eq_some_iff.mp hn).1
  have hunpinned : ∀ {t n}, rc t = some n → isPinned pinned t = false := by
    intro t n hn
    rw [← Bool.not_eq_true]
    intro hp
    rw [hb.tagged.pinned_none hp] at hn
    cases hn
  have hinstrs := hb.instrs
  refine ⟨cs, hbs, hcs, fun t => ⟨fun hs => ?_, fun ⟨⟨i, hw⟩, hzero⟩ => ?_⟩, fun {i t n} hw hn => ?_, hlive.alloc⟩
  · obtain ⟨a, ha⟩ := Option.isSome_iff_exists.mp hs
    obtain ⟨hp, i, n, d, hn, hd, rfl, -⟩ := hlive.owner ha
    have hw := hb.writesTag hn hd
    have htotal := (hfr' _ a ha).resolve_left (by rw [pendingReads_all hall]; omega)
    rw [hinstrs] at htotal
    exact ⟨⟨i, hw⟩, by rw [hb.tagged.count hp hw, htotal]; rfl⟩
  · have hp := hunpinned hzero
    have hcnt := hb.tagged.count hp hw
    rw [hzero, Option.some.injEq] at hcnt
    exact hlive.held_unread hb hw hp (hcommitted hw) (.inr (by rw [hinstrs]; omega))
  · have hp := hunpinned hn
    have hcnt := hb.tagged.count hp hw
    rw [hn, Option.some.injEq] at hcnt
    have hreturns := hsum hw hp
    have hst : (World.start dag .init).dag.val.committed = fun _ => false := by
      rw [show (World.start dag .init).dag = ⟨.initial dag.nodes, none⟩ from hb.graph.st]
      rfl
    rw [World.unread, World.unread, pendingReads_all hall, hst, pendingReads_none, hinstrs] at hreturns
    split
    · next hzero => rw [if_neg (by omega), if_neg (by omega)] at hreturns; omega
    · next hne => rw [if_neg (by omega), if_pos (by omega)] at hreturns; omega

/-- Registers balance over every schedule, and after pruning all of them are back. -/
theorem registers_balance (ht : Tagged pinned is rc) (hdag : buildDag is pinned = .ok dag) :
    (∀ {bs w}, Completed rc dag bs w → ∃ cs, bs = cs.map (fun c => emitted c.bundle) ∧
      Cycles rc dag.nodes (.start dag .init) cs w ∧ Balanced is rc dag.nodes cs w) ∧
    ∀ {dag' rc' bs w}, pruneToStores dag = .ok dag' → rc' = recomputeReadCount dag'.instrs pinned → Completed rc' dag' bs w →
      (∃ cs, bs = cs.map (fun c => emitted c.bundle) ∧ Cycles rc' dag'.nodes (.start dag' .init) cs w ∧
        Balanced dag'.instrs rc' dag'.nodes cs w) ∧ Drained w.alloc.tab.val := by
  refine ⟨fun h => h.balanced ((Workload.whole hdag).built ht).1, fun {dag' rc' bs w} hprune hrc h => ?_⟩
  subst hrc
  have hof : DagOf pinned is dag := .of_ok ht.toSingleWriter hdag
  obtain ⟨ids, hp, -⟩ := Pruned.of_ok hof.wf hprune
  have hb := ((Workload.pruned hdag hprune).built ht).1
  obtain ⟨cs, hbs, hcs, hbal⟩ := h.balanced hb
  have hnone : ∀ t, w.alloc.tab.val.assigned t = none := by
    intro t
    by_contra hs
    obtain ⟨⟨i, hw⟩, hzero⟩ := (hbal.kept t).mp (Option.isSome_iff_ne_none.mpr hs)
    obtain ⟨-, hpos, hcount⟩ := hp.count hof hw
    rw [hcount, Option.some.injEq] at hzero
    omega
  have htidy : w.alloc.tab.val.Tidy := by
    rcases hcs.tidy hb.graph.wf hb.oneWriter hb.start_live.1.toOk with htidy | rfl
    · exact htidy
    · intro g hg
      cases hg
  obtain ⟨hunclaimed, hpool⟩ := hbal.tables.drained htidy hnone
  exact ⟨⟨cs, hbs, hcs, hbal⟩, hnone, hunclaimed, hpool⟩

/-- The store of a broadcast constant, beside a constant that nothing reads. -/
def strayConst : List (Instr Operand) :=
  [⟨0, .const (.sym ⟨"x", false⟩) 3⟩, ⟨1, .const (.sym ⟨"y", false⟩) 5⟩, ⟨2, .vBroadcast (.sym ⟨"v", true⟩) (.sym ⟨"x", false⟩)⟩,
    ⟨3, .vStore (.sym ⟨"x", false⟩) (.sym ⟨"v", true⟩)⟩]

/-- The unread constant keeps its word; without it, after pruning, all registers come back. -/
theorem registers_balance_strayConst : ∃ is rc dag dag' bs w bs' w', tagRawChains strayConst PINNED = .ok (is, rc) ∧
    buildDag is PINNED = .ok dag ∧ schedule dag rc listed none .init = .ok (bs, w) ∧ pruneToStores dag = .ok dag' ∧
    scheduleRollout dag' (recomputeReadCount dag'.instrs PINNED) [fun _ _ _ l => l] {} none .init = .ok (bs', w') ∧
    (w.alloc.tab.val.assigned ⟨"y#1", false⟩).isSome ∧ (∃ cs, Balanced is rc dag.nodes cs w) ∧ Drained w'.alloc.tab.val := by
  have hrun : (do
      let x ← tagRawChains strayConst PINNED
      let dag ← buildDag x.1 PINNED
      let p ← schedule dag x.2 listed none .init
      let dag' ← pruneToStores dag
      let q ← scheduleRollout dag' (recomputeReadCount dag'.instrs PINNED) [fun _ _ _ l => l] {} none .init
      .ok (q.1.length, (p.2.alloc.tab.val.assigned ⟨"y#1", false⟩).isSome)) = (.ok (3, true) : Except PyErr (Nat × Bool)) := by
    decide +kernel
  obtain ⟨⟨is, rc⟩, htag, hrun⟩ := bind_eq_ok.mp hrun
  obtain ⟨dag, hdag, hrun⟩ := bind_eq_ok.mp hrun
  obtain ⟨⟨bs, w⟩, hp, hrun⟩ := bind_eq_ok.mp hrun
  obtain ⟨dag', hprune, hrun⟩ := bind_eq_ok.mp hrun
  obtain ⟨⟨bs', w'⟩, hq, hrun⟩ := bind_eq_ok.mp hrun
  have hy := (Prod.mk.inj (Except.ok.inj hrun)).2
  obtain ⟨hwhole, hpruned⟩ := registers_balance (tagRawChains_tagged pinned_noHash htag) hdag
  obtain ⟨cs, -, -, hbal⟩ := hwhole (.greedy listed none hp)
  exact ⟨is, rc, dag, dag', bs, w, bs', w', htag, hdag, hp, hprune, hq, hy, ⟨cs, hbal⟩,
    (hpruned hprune rfl (.rollout _ {} none permuting_id hq)).2⟩

end run
end Vliw
