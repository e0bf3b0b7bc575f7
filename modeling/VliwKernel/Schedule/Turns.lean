import VliwKernel.Schedule.Runs

/-!
# The turns of a cycle

Every way the turn of a node can go, with what it does to the allocator and the counters. A turn in which the node
gets no slot and had landed nothing leaves everything as it was.
-/

namespace Vliw
open RegisterAllocator

/-- No slot is left for a node of this class that has landed nothing. -/
def FuncUnitPool.refuses (p : FuncUnitPool) (c : Class) : Bool :=
  match c.kind with
  | .debug => false
  | .vecElem => p.free .valu = 0 && p.free .alu = 0
  | _ => p.free c.nativeEngine = 0 && (c.nativeEngine ≠ .valu || p.valuElems.isEmpty || p.free .alu < VLEN)

def promised (rc : Sym → Option Int) (fresh : List Sym) : Int := (fresh.map fun t => (rc t).getD 0).sum

/-- The allocator is back where it was, but for the debug names and the count of allocations. -/
structure Restored (a c : RegisterAllocator) : Prop where
  tables : ∃ names, c.tab.val = { a.tab.val with names := names }
  nFree : c.nFree = a.nFree
  warnings : c.exhaustionWarnings = a.exhaustionWarnings

section registers

variable {rc : Sym → Option Int} {a b : RegisterAllocator} {ins : Instr Operand} {got : Option (List Sym)} {fresh : List Sym}
  {obl obl' : Int}

theorem allocWrites_canWrite (h : allocWrites rc ins a obl = .ok (some fresh, b, obl')) : (wrTags ins).all a.canWrite = true := by
  unfold allocWrites at h
  split at h
  · assumption
  · cases h

/-- `_alloc_writes` promises the reads of what it allocates. -/
theorem allocWrites_eq_ok (ha : a.tab.val.Inv) (h : allocWrites rc ins a obl = .ok (got, b, obl')) :
    Acquire rc ins a got b ∧ obl' = obl + promised rc (got.getD []) := by
  rcases allocWrites_cases rc ins ha obl with ⟨got', b', obl'', haw, hacq⟩ | ⟨d, -, -, -, -, haw⟩
  · cases h.symm.trans haw
    refine ⟨hacq, ?_⟩
    cases hacq with
    | full hd hcan =>
        simp only [allocWrites, wrTags_eq, hd, Option.map_some, Option.toList_some, List.all_cons, hcan] at h
        cases h
        simp [promised]
    | noDest hd =>
        simp only [allocWrites, wrTags_eq, hd] at h
        cases h
        simp [promised]
    | @sticky d addr hd hs =>
        have hcan : a.canWrite d.base = true := by simp [canWrite, Tables.canWrite, hs]
        simp [allocWrites, wrTags_eq, hd, hcan, allocWrite, hs, write_sticky hs] at h
        simp [promised, h]
    | @fresh d n addr _ hd hs hn hw =>
        have hcan := allocWrites_canWrite h
        simp only [wrTags_eq, hd, Option.map_some, Option.toList_some, List.all_cons, List.all_nil, Bool.and_true] at hcan
        obtain ⟨addr', b', hwrite, -⟩ := write_ok ha hs hcan hn
        simp [allocWrites, wrTags_eq, hd, hcan, allocWrite, hs, getKey, hn, hwrite] at h
        simp [promised, hn, h.2]
  · cases h.symm.trans haw

/-- Taking back what was just allocated restores the allocator and the obligations. -/
theorem unallocWrites_restores (ha : a.tab.val.Inv) (hacq : Acquire rc ins a (some fresh) b)
    (hfree : ∀ d, ins.op.dest? = some d → a.tab.val.assigned d.base = none) (obl : Int) :
    ∃ c, unallocWrites rc ins fresh b obl = .ok (c, obl - promised rc fresh) ∧ Restored a c ∧ c.nAlloc = a.nAlloc + fresh.length := by
  cases hacq with
  | noDest hd => exact ⟨a, by simp [unallocWrites, wrTags_eq, hd, promised], ⟨⟨a.tab.val.names, rfl⟩, rfl, rfl⟩, rfl⟩
  | sticky hd hs =>
      rw [hfree _ hd] at hs
      cases hs
  | @fresh d n addr _ hd hs hn hw =>
      obtain ⟨c, hc, hval, -, hnAlloc, hnFree, hwarn⟩ := unwrite_write ha hs hn hw
      refine ⟨c, ?_, ⟨⟨_, hval⟩, hnFree.trans hw.nFree, hwarn.trans hw.warnings⟩, hnAlloc.trans hw.nAlloc⟩
      simp [unallocWrites, wrTags_eq, hd, hc, getKey, hn, promised]

end registers

namespace FuncUnitPool

variable {p p' : FuncUnitPool} {pl pl' : Placement.Log} {i : Nat} {c : Class}

theorem swapElemToAlu_refused {swapped : Bool} (h : p.swapElemToAlu pl = .ok (swapped, p', pl')) :
    swapped = false ↔ (p.valuElems.isEmpty || p.free .alu < VLEN) = true := by
  unfold swapElemToAlu at h
  split at h
  · next hv =>
      cases h
      simp [hv]
  · next v rest hv =>
      split at h
      · next hlt =>
          cases h
          simp [hlt]
      · next hlt =>
          have hswapped : swapped = true := by
            split at h
            · cases h
              rfl
            · split at h
              · cases h
              · split at h
                · obtain ⟨es, -, h⟩ := bind_eq_ok.mp h
                  cases h
                  rfl
                · cases h
          simp [hswapped, hv, hlt]

/-- A node that has landed nothing is refused exactly when no slot is left for it. -/
theorem place_none_iff {instr : Option (Instr Reg)} {res : Option Bool} (h0 : pl.val.lanesDone i = 0) (ht : 0 < c.lanesTotal)
    (h : p.place pl i c instr = .ok (res, p', pl')) : res = none ↔ p.refuses c = true := by
  have hspill : ∀ {res p' pl'}, p.spillAlu pl i c.lanesTotal instr = .ok (res, p', pl') → (res = none ↔ p.free .alu = 0) := by
    intro res p' pl' h
    unfold spillAlu at h
    dsimp only at h
    rw [h0] at h
    split at h
    · next hn =>
        cases h
        simp only [true_iff]
        omega
    · next hn =>
        have hres : res ≠ none := by
          cases instr with
          | none =>
              cases h
              simp
          | some r =>
              obtain ⟨es, -, h⟩ := bind_eq_ok.mp h
              cases h
              simp
        simp only [hres, false_iff]
        omega
  unfold place at h
  split at h
  · next hk =>
      split at h <;> cases h <;> simp [refuses, hk]
  · next hk =>
      rw [if_neg (by omega)] at h
      split at h
      · next hv =>
          cases h
          simp [refuses, hk]
          omega
      · next hv =>
          rw [hspill h]
          simp [refuses, hk]
          omega
  · next hd hv =>
      have hrefuses : p.refuses c = (p.free c.nativeEngine = 0 &&
          (c.nativeEngine ≠ .valu || p.valuElems.isEmpty || p.free .alu < VLEN)) := by
        unfold refuses
        split
        · exact absurd ‹_› hd
        · exact absurd ‹_› hv
        · rfl
      rw [hrefuses]
      dsimp only at h
      split at h
      · next hfree =>
          split at h
          · next he =>
              obtain ⟨⟨swapped, p₁, pl₁⟩, hs, h⟩ := bind_eq_ok.mp h
              have hswap := swapElemToAlu_refused hs
              rw [he] at hfree
              simp only [he, hfree, ne_eq, not_true_eq_false, decide_false, Bool.false_or, decide_true, Bool.true_and, ← hswap]
              cases swapped with
              | true =>
                  cases h
                  simp
              | false =>
                  cases h
                  simp
          · next he =>
              cases h
              simp [hfree, he]
      · next hfree =>
          cases h
          simp [hfree]

end FuncUnitPool

section turn
variable (rc : Sym → Option Int) (nodes : List DNode) (node : DNode) (w : World) (st : Stats)

/-- A turn: no register, no slot for a node that has landed nothing, no slot for one that keeps its register all the
same, some lanes, or the last of them. -/
inductive Turn : World → Stats → Prop
  | full {b} : Acquire rc node.instr w.alloc none b → Turn { w with alloc := b } st
  | refused {fresh b c} : (classify node.instr.op).kind ≠ .gather → w.place.val.lanesDone node.idx = 0 →
      w.pool.refuses (classify node.instr.op) = true → (wrTags node.instr).all w.alloc.canWrite = true →
      Acquire rc node.instr w.alloc (some fresh) b → Restored w.alloc c → c.nAlloc = w.alloc.nAlloc + fresh.length →
      Turn { w with alloc := c } st
  | held {fresh b} : (classify node.instr.op).kind = .gather ∧ w.pool.free .load = 0 ∨ 0 < w.place.val.lanesDone node.idx →
      (wrTags node.instr).all w.alloc.canWrite = true → Acquire rc node.instr w.alloc (some fresh) b →
      Turn { w with alloc := b } { st with obligations := st.obligations + promised rc fresh }
  | landed {fresh b place pool} : (classify node.instr.op).kind = .gather ∨ 0 < w.place.val.lanesDone node.idx ∨
        w.pool.refuses (classify node.instr.op) = false → 0 < place.val.lanesDone node.idx →
      Acquire rc node.instr w.alloc (some fresh) b →
      Turn ⟨w.dag, b, place, pool⟩ { st with obligations := st.obligations + promised rc fresh }
  | done {fresh b c n place pool} : (classify node.instr.op).kind = .gather ∨ 0 < w.place.val.lanesDone node.idx ∨
        w.pool.refuses (classify node.instr.op) = false →
      Acquire rc node.instr w.alloc (some fresh) b → commitReads node.instr b = .ok (c, n) →
      Turn ⟨(Dag.commit nodes w.dag node.idx).1, c, place, pool⟩
        { st with committed := st.committed + 1, reads := st.reads + n, obligations := st.obligations + promised rc fresh }

end turn
section turns

variable {rc : Sym → Option Int} {nodes : List DNode} {node : DNode} {prev : Nat → Bool} {w w' : World} {st st' : Stats} {emit : Bool}
  {i : Nat}

theorem commitNode_eq_ok (h : commitNode nodes node w st = .ok (w', st')) : ∃ c n, commitReads node.instr w.alloc = .ok (c, n) ∧
    w' = ⟨(Dag.commit nodes w.dag node.idx).1, c, w.place, w.pool⟩ ∧
    st' = { st with committed := st.committed + 1, reads := st.reads + n } := by
  obtain ⟨⟨c, n⟩, hc, h⟩ := bind_eq_ok.mp h
  cases h
  exact ⟨c, n, hc, rfl, rfl⟩

theorem runDebug_turn (hk : (classify node.instr.op).kind = .debug) (h : runDebug nodes emit node w st = .ok (w', st')) :
    Turn rc nodes node w st w' st' := by
  have hd : node.instr.op.dest? = none := by
    revert hk
    cases node.instr.op <;> simp [classify, Op.engine, Op.isGather, Op.dest?]
  have hrefuses : w.pool.refuses (classify node.instr.op) = false := by simp [FuncUnitPool.refuses, hk]
  have hcommit : ∃ place pool, commitNode nodes node { w with place := place, pool := pool } st = .ok (w', st') := by
    unfold runDebug at h
    split at h
    · obtain ⟨⟨res, pool, place⟩, -, h⟩ := bind_eq_ok.mp h
      exact ⟨place, pool, h⟩
    · exact ⟨w.place, w.pool, h⟩
  obtain ⟨place, pool, hcommit⟩ := hcommit
  obtain ⟨c, n, hc, rfl, rfl⟩ := commitNode_eq_ok hcommit
  have hacq : Acquire rc node.instr w.alloc (some []) w.alloc := .noDest hd
  have hturn : Turn rc nodes node w st ⟨(Dag.commit nodes w.dag node.idx).1, c, place, pool⟩
      { st with committed := st.committed + 1, reads := st.reads + n, obligations := st.obligations + promised rc [] } :=
    .done (.inr (.inr hrefuses)) hacq hc
  simpa [promised] using hturn

theorem promised_nil (rc : Sym → Option Int) : promised rc [] = 0 := rfl

theorem Turn.of_none {b : RegisterAllocator} {obl : Int} (h : Acquire rc node.instr w.alloc none b)
    (hobl : obl = st.obligations + promised rc []) :
    Turn rc nodes node w st { w with alloc := b } { st with obligations := obl } := by
  rw [hobl, promised_nil, Int.add_zero]
  exact .full h

theorem placeGather_cases (p : FuncUnitPool) {pl : Placement.Log} (addrs : Option (Nat × Nat)) {total : Nat}
    (hlt : pl.val.lanesDone i < total) : placeGather p pl i total addrs = (none, p, pl) ∧ p.free .load = 0 ∨
      ∃ b p' pl', placeGather p pl i total addrs = (some b, p', pl') ∧ 0 < pl'.val.lanesDone i := by
  unfold placeGather
  dsimp only
  split
  · exact .inl ⟨rfl, by omega⟩
  · refine .inr ⟨_, _, _, rfl, ?_⟩
    simp only [Placement.setLanesDone_lanesDone, Function.update_self]
    omega

theorem runGather_turn (hok : w.Ok nodes prev) (hn : nodes[node.idx]? = some node) (hc : w.dag.val.committed node.idx = false)
    (hk : (classify node.instr.op).kind = .gather) (h : runGather rc nodes emit node w st = .ok (w', st')) :
    Turn rc nodes node w st w' st' := by
  have hlt := hok.lanes_pending hn hc (by simp [hk])
  obtain ⟨⟨got, b, obl⟩, haw, h⟩ := bind_eq_ok.mp h
  obtain ⟨hacq, hobl⟩ := allocWrites_eq_ok hok.alloc haw
  dsimp only at h
  split at h
  · cases h
    exact .of_none hacq hobl
  · next fresh t ts addr os _ _ =>
      cases hobl
      rcases placeGather_cases w.pool (if emit then some (b.addrOf (.sym t), b.addrOf addr) else none) hlt with
        ⟨hp, hfree⟩ | ⟨placed, pool, place, hp, hpos⟩
      · rw [hp] at h
        cases h
        exact .held (.inl ⟨hk, hfree⟩) (allocWrites_canWrite haw) hacq
      · rw [hp] at h
        cases placed with
        | false =>
            cases h
            exact .landed (.inl hk) hpos hacq
        | true =>
            obtain ⟨c, n, hread, rfl, rfl⟩ := commitNode_eq_ok h
            exact .done (.inl hk) hacq hread
  · cases h

theorem runRegular_turn (hok : w.Ok nodes prev) (hn : nodes[node.idx]? = some node) (hc : w.dag.val.committed node.idx = false)
    (hk : (classify node.instr.op).kind ≠ .debug) (hk' : (classify node.instr.op).kind ≠ .gather)
    (h : runRegular rc nodes emit node w st = .ok (w', st')) : Turn rc nodes node w st w' st' := by
  have hlt := hok.lanes_pending hn hc hk
  obtain ⟨⟨got, b, obl⟩, haw, h⟩ := bind_eq_ok.mp h
  obtain ⟨hacq, hobl⟩ := allocWrites_eq_ok hok.alloc haw
  dsimp only at h
  cases got with
  | none =>
      cases h
      exact .of_none hacq hobl
  | some fresh =>
      cases hobl
      obtain ⟨⟨placed, pool, place⟩, hp, h⟩ := bind_eq_ok.mp h
      obtain ⟨hplaced, hsame⟩ := FuncUnitPool.place_placed hk hlt (FuncUnitPool.lanesTotal_atomic hk hk') hp
      have hrefuses := fun h0 => FuncUnitPool.place_none_iff h0 (by omega) hp
      dsimp only at h
      have hnot : placed ≠ none → (classify node.instr.op).kind = .gather ∨ 0 < w.place.val.lanesDone node.idx ∨
          w.pool.refuses (classify node.instr.op) = false := by
        intro hne
        rcases Nat.eq_zero_or_pos (w.place.val.lanesDone node.idx) with h0 | hpos
        · refine .inr (.inr ?_)
          rw [← Bool.not_eq_true, ← hrefuses h0]
          exact hne
        · exact .inr (.inl hpos)
      cases hplaced with
      | refused =>
          obtain rfl := hsame rfl
          dsimp only at h
          split at h
          · next h0 =>
              have hfree : ∀ d, node.instr.op.dest? = some d → w.alloc.tab.val.assigned d.base = none := by
                intro d hd
                rw [← Option.not_isSome_iff_eq_none]
                intro hs
                have := hok.sticky hn hd hk' hs
                omega
              obtain ⟨c, hun, hrest, hnAlloc⟩ := unallocWrites_restores hok.alloc hacq hfree (st.obligations + promised rc fresh)
              rw [Option.getD_some, hun] at h
              cases h
              rw [Int.add_sub_cancel]
              exact .refused hk' h0 ((hrefuses h0).mp rfl) (allocWrites_canWrite haw) hacq hrest hnAlloc
          · next h0 =>
              cases h
              exact .held (.inr (Nat.pos_of_ne_zero h0)) (allocWrites_canWrite haw) hacq
      | @landed k done _ hpos hle hdone hl hu =>
          have hlanes : 0 < place.val.lanesDone node.idx := by
            rw [hl, Function.update_self]
            omega
          cases done with
          | false =>
              cases h
              exact .landed (hnot (by simp)) hlanes hacq
          | true =>
              obtain ⟨c, n, hread, rfl, rfl⟩ := commitNode_eq_ok h
              exact .done (hnot (by simp)) hacq hread

theorem runNode_turn (hok : w.Ok nodes prev) (hw : Dag.WellFormed nodes) (hn : nodes[i]? = some node)
    (hc : w.dag.val.committed i = false) (h : runNode rc nodes emit (w, st) i = .ok (w', st')) : Turn rc nodes node w st w' st' := by
  obtain rfl := hw.idx hn
  unfold runNode at h
  rw [hn] at h
  dsimp only at h
  split at h
  · next hk => exact runDebug_turn hk h
  · next hk => exact runGather_turn hok hn hc hk h
  · next hk hk' => exact runRegular_turn hok hn hc hk hk' h

end turns
section cycle

variable {pinned : List String} {is : List (Instr Operand)} {rc : Sym → Option Int} {dag : Dag} {nodes : List DNode} {prev : Nat → Bool}
  {emit : Bool} {i j : Nat} {order : List Nat} {w v : World} {p q r : World × Stats} {node : DNode}

/-- The turn of node `i` comes in state `q` of a cycle that runs `order` from `p`. -/
def MidCycle (rc : Sym → Option Int) (nodes : List DNode) (emit : Bool) (p : World × Stats) (order : List Nat) (i : Nat) (q : World × Stats) : Prop :=
  ∃ before after, order = before ++ i :: after ∧ before.foldlM (runNode rc nodes emit) p = .ok q

theorem midCycle_nil : ¬ MidCycle rc nodes emit p [] i q := by
  rintro ⟨before, after, h, -⟩
  simp at h

theorem midCycle_cons (h : runNode rc nodes emit p i = .ok q) : MidCycle rc nodes emit p (i :: order) j r ↔
    j = i ∧ r = p ∨ MidCycle rc nodes emit q order j r := by
  constructor
  · rintro ⟨before, after, ho, hrun⟩
    cases before with
    | nil =>
        cases ho
        cases hrun
        exact .inl ⟨rfl, rfl⟩
    | cons k before =>
        cases ho
        rw [List.foldlM_cons, h] at hrun
        exact .inr ⟨before, after, rfl, hrun⟩
  · rintro (⟨rfl, rfl⟩ | ⟨before, after, rfl, hrun⟩)
    · exact ⟨[], order, rfl, rfl⟩
    · refine ⟨i :: before, after, rfl, ?_⟩
      rw [List.foldlM_cons, h]
      exact hrun

/-- A cycle, turn by turn, each in a state that satisfies the invariant of the schedulers. -/
inductive Turns (pinned : List String) (rc : Sym → Option Int) (nodes : List DNode) (emit : Bool) (prev : Nat → Bool) :
    World × Stats → List Nat → World × Stats → Prop
  | nil {p : World × Stats} : Turns pinned rc nodes emit prev p [] p
  | cons {p q r : World × Stats} {i : Nat} {node : DNode} {order : List Nat} : nodes[i]? = some node → p.1.Live pinned nodes prev → p.1.dag.val.frontier i = true →
      runNode rc nodes emit p i = .ok q → Turn rc nodes node p.1 p.2 q.1 q.2 → q.1.Live pinned nodes prev → p.1.Leads nodes q.1 →
      Turns pinned rc nodes emit prev q order r → Turns pinned rc nodes emit prev p (i :: order) r

theorem runNode_next (hb : Built pinned is rc dag) {M : Ledger} (h : p.1.Live pinned dag.nodes prev) (hnd : (i :: order).Nodup)
    (hf : ∀ j ∈ i :: order, p.1.dag.val.frontier j = true ∧ M j = none) (hfit : FuncUnitPool.Fit emit M p.1.pool)
    (hstep : runNode rc dag.nodes emit p i = .ok q) : ∃ node M', dag.nodes[i]? = some node ∧ Turn rc dag.nodes node p.1 p.2 q.1 q.2 ∧
      q.1.Live pinned dag.nodes prev ∧ p.1.Leads dag.nodes q.1 ∧ (∀ j ∈ order, q.1.dag.val.frontier j = true ∧ M' j = none) ∧ FuncUnitPool.Fit emit M' q.1.pool := by
  obtain ⟨hfi, hMi⟩ := hf i (by simp)
  obtain ⟨node, hn⟩ := getElem?_of_frontier h.dag hfi
  have hidx := hb.graph.wf.idx hn
  have hci := (h.dag.frontier_iff.mp hfi).2.1
  rcases runNode_ok rc emit hn hidx h.toOk hci hMi hfit p.2 with ⟨x, done, w₁, st₁, hrun, hs, hfit₁, -⟩ | ⟨-, -, -, -, herr⟩
  · cases hstep.symm.trans hrun
    rw [hidx] at hs hfit₁
    obtain ⟨hlive, hleads⟩ := hs.live hb h hn hfi
    have hdue := hs.due hb.graph.wf h.dag (List.nodup_cons.mp hnd).1 hf
    exact ⟨node, _, hn, runNode_turn h.toOk hb.graph.wf hn hci hstep, hlive, hleads, hdue, hfit₁⟩
  · cases hstep.symm.trans herr

theorem runNodes_turns (hb : Built pinned is rc dag) {M : Ledger} (h : p.1.Live pinned dag.nodes prev) (hnd : order.Nodup)
    (hf : ∀ i ∈ order, p.1.dag.val.frontier i = true ∧ M i = none) (hfit : FuncUnitPool.Fit emit M p.1.pool)
    (hrun : order.foldlM (runNode rc dag.nodes emit) p = .ok q) : Turns pinned rc dag.nodes emit prev p order q := by
  induction order generalizing p M with
  | nil =>
      cases hrun
      exact .nil
  | cons i order ih =>
      rw [List.foldlM_cons] at hrun
      obtain ⟨q₁, h₁, hrun⟩ := bind_eq_ok.mp hrun
      obtain ⟨node, M', hn, hturn, hlive, hleads, hf', hfit'⟩ := runNode_next hb h hnd hf hfit h₁
      exact .cons hn h (hf i (by simp)).1 h₁ hturn hlive hleads (ih hlive (List.nodup_cons.mp hnd).2 hf' hfit' hrun)

theorem MidCycle.ready (hb : Built pinned is rc dag) {M : Ledger} (h : p.1.Live pinned dag.nodes prev) (hnd : order.Nodup)
    (hf : ∀ i ∈ order, p.1.dag.val.frontier i = true ∧ M i = none) (hfit : FuncUnitPool.Fit emit M p.1.pool)
    (hm : MidCycle rc dag.nodes emit p order i q) : q.1.Live pinned dag.nodes prev ∧ q.1.dag.val.frontier i = true := by
  induction order generalizing p M with
  | nil => exact absurd hm midCycle_nil
  | cons k order ih =>
      obtain ⟨before, after, ho, hrun⟩ := hm
      cases before with
      | nil =>
          cases ho
          cases hrun
          exact ⟨h, (hf i (by simp)).1⟩
      | cons k' before =>
          cases ho
          rw [List.foldlM_cons] at hrun
          obtain ⟨q₁, h₁, hrun⟩ := bind_eq_ok.mp hrun
          obtain ⟨node, M', -, -, hlive, -, hf', hfit'⟩ := runNode_next hb h hnd hf hfit h₁
          exact ih hlive (List.nodup_cons.mp hnd).2 hf' hfit' ⟨before, after, rfl, hrun⟩

theorem runCycle_eq_ok {w' : World} {s : Stats} (h : runCycle rc nodes emit order w = .ok (w', s)) :
    ∃ st, order.foldlM (runNode rc nodes emit) (w, .zero) = .ok (w', st) ∧
      s = { st with allocs := (w'.alloc.nAlloc : Int) - w.alloc.nAlloc
                    frees := (w'.alloc.nFree : Int) - w.alloc.nFree } := by
  obtain ⟨⟨u, st⟩, hrun, h⟩ := bind_eq_ok.mp h
  cases h
  exact ⟨st, hrun, rfl⟩

/-- What `_run_cycle` is given in a cycle that starts in `w`: the same tables and an empty pool. Journals may be open. -/
structure World.Entered (w v : World) : Prop where
  dag : v.dag.val = w.dag.val
  place : v.place.val = w.place.val
  tab : v.alloc.tab.val = w.alloc.tab.val
  pool : v.pool = .fresh

theorem World.entered_fresh (w : World) : w.Entered { w with pool := .fresh } := ⟨rfl, rfl, rfl, rfl⟩

theorem Cycle.entered {c : CycleRecord} {w' : World} (h : Cycle rc nodes w c w') : w.Entered c.start :=
  ⟨congrArg Logged.val h.like.dag, congrArg Logged.val h.like.place, congrArg Logged.val h.like.tab, h.pool⟩

theorem SchedulerRun.live (hb : Built pinned is rc dag) {bs : List TaggedBundle} {k : Nat} (h : SchedulerRun rc dag bs w k) :
    w.Live pinned dag.nodes w.dag.val.committed := by
  obtain ⟨cs, -, hcs, -⟩ := h.cycles hb
  exact (hcs.live hb hb.start_live.1).1

theorem World.Entered.live (he : w.Entered v) (h : w.Live pinned nodes prev) : v.Live pinned nodes prev :=
  h.of_vals he.dag he.place he.tab

theorem World.Entered.turns (hb : Built pinned is rc dag) (he : w.Entered v) (h : w.Live pinned dag.nodes prev)
    (ho : Orders dag.nodes.length w order) {st : Stats} (hrun : order.foldlM (runNode rc dag.nodes emit) (v, st) = .ok q) :
    Turns pinned rc dag.nodes emit prev (v, st) order q := by
  have hfit : FuncUnitPool.Fit emit (fun _ => none) v.pool := he.pool ▸ .fresh emit
  exact runNodes_turns hb (he.live h) ho.nodup (fun i hi => ⟨he.dag ▸ ho.frontier hi, rfl⟩) hfit hrun

theorem World.Entered.ready (hb : Built pinned is rc dag) (he : w.Entered v) (h : w.Live pinned dag.nodes prev)
    (ho : Orders dag.nodes.length w order) {st : Stats} (hm : MidCycle rc dag.nodes emit (v, st) order i q) :
    q.1.Live pinned dag.nodes prev ∧ q.1.dag.val.frontier i = true := by
  have hfit : FuncUnitPool.Fit emit (fun _ => none) v.pool := he.pool ▸ .fresh emit
  exact hm.ready hb (he.live h) ho.nodup (fun i hi => ⟨he.dag ▸ ho.frontier hi, rfl⟩) hfit

/-- A node that has landed nothing and gets no slot leaves the state as it was before its registers were taken. -/
theorem failed_placement_restores (hb : Built pinned is rc dag) {bs : List TaggedBundle} {k : Nat} (hr : SchedulerRun rc dag bs w k)
    (he : w.Entered v) (ho : Orders dag.nodes.length w order) {u : World} {st : Stats}
    (hm : MidCycle rc dag.nodes emit (v, .zero) order i (u, st)) (hn : dag.nodes[i]? = some node)
    (hk : (classify node.instr.op).kind ≠ .gather) (h0 : u.place.val.lanesDone i = 0) {fresh : List Sym} {b : RegisterAllocator}
    {obl : Int} (haw : allocWrites rc node.instr u.alloc st.obligations = .ok (some fresh, b, obl)) {pool : FuncUnitPool}
    {place : Placement.Log} (hp : u.pool.place u.place i (classify node.instr.op)
      (if emit then some (resolveOperands node.instr b) else none) = .ok (none, pool, place)) :
    ∃ c, unallocWrites rc node.instr fresh b obl = .ok (c, st.obligations) ∧ Restored u.alloc c ∧
      runNode rc dag.nodes emit (u, st) i = .ok ({ u with alloc := c }, st) ∧
      (emit = true → greedyNode rc dag.nodes u i = .ok ({ u with alloc := c }, false, [])) := by
  obtain ⟨hlive, hf⟩ := he.ready hb (hr.live hb) ho hm
  have hc := (hlive.dag.frontier_iff.mp hf).2.1
  have hidx := hb.graph.wf.idx hn
  have hk' : (classify node.instr.op).kind ≠ .debug := by
    intro hd
    simp only [FuncUnitPool.place, hd] at hp
    split at hp <;> cases hp
  obtain ⟨hacq, rfl⟩ := allocWrites_eq_ok hlive.alloc haw
  have hfree : ∀ d, node.instr.op.dest? = some d → u.alloc.tab.val.assigned d.base = none := by
    intro d hd
    rw [← Option.not_isSome_iff_eq_none]
    intro hs
    have hpos : 0 < u.place.val.lanesDone i := hlive.sticky hn hd hk hs
    omega
  obtain ⟨c, hun, hrest, -⟩ := unallocWrites_restores hlive.alloc hacq hfree (st.obligations + promised rc fresh)
  rw [Int.add_sub_cancel] at hun
  obtain ⟨hplaced, hsame⟩ := FuncUnitPool.place_placed hk' (hlive.lanes_pending hn hc hk') (FuncUnitPool.lanesTotal_atomic hk' hk) hp
  obtain rfl := hsame rfl
  cases hplaced
  have hrun : runNode rc dag.nodes emit (u, st) i = .ok ({ u with alloc := c }, st) := by
    unfold runNode
    rw [hn]
    dsimp only
    split
    · exact absurd ‹_› hk'
    · exact absurd ‹_› hk
    · rw [Option.getD_some] at haw
      simp only [runRegular, haw, bind_ok, hidx, hp, h0, if_true, hun]
  refine ⟨c, hun, hrest, hrun, ?_⟩
  rintro rfl
  have hlike := greedyNode_like rc i hb.graph.rawOnly hlive.alloc st
  rw [hrun] at hlike
  cases hg : greedyNode rc dag.nodes u i with
  | error e =>
      rw [hg] at hlike
      cases hlike
  | ok g =>
      rw [hg] at hlike
      obtain ⟨h₁, h₂, h₃⟩ := hlike
      obtain ⟨w', done, unlocked⟩ := g
      cases h₁
      cases h₂
      cases done with
      | false => rfl
      | true => simp at h₃

/-- Three constants, for two load slots. -/
def threeConsts : List (Instr Operand) :=
  [⟨0, .const (.sym ⟨"x", false⟩) 1⟩, ⟨1, .const (.sym ⟨"y", false⟩) 2⟩, ⟨2, .const (.sym ⟨"z", false⟩) 3⟩]

/-- The third constant gets no slot in the first cycle. -/
theorem failed_placement_restores_threeConsts : ∃ is rc dag u st c, tagRawChains threeConsts PINNED = .ok (is, rc) ∧
    buildDag is PINNED = .ok dag ∧ [0, 1].foldlM (runNode rc dag.nodes true) (World.start dag .init, .zero) = .ok (u, st) ∧
    Restored u.alloc c ∧ runNode rc dag.nodes true (u, st) 2 = .ok ({ u with alloc := c }, st) := by
  have hrun : (do
      let (is, rc) ← tagRawChains threeConsts PINNED
      let dag ← buildDag is PINNED
      let q ← [0, 1].foldlM (runNode rc dag.nodes true) (World.start dag .init, .zero)
      let node ← getKey (dag.nodes[·]?) 2
      let aw ← allocWrites rc node.instr q.1.alloc q.2.obligations
      let pl ← q.1.pool.place q.1.place 2 (classify node.instr.op) (some (resolveOperands node.instr aw.2.1))
      .ok ((World.start dag .init).dag.val.ready dag.nodes.length, q.1.place.val.lanesDone 2, (classify node.instr.op).kind, aw.1.isSome,
        pl.1)) =
      (.ok ([0, 1, 2], 0, .load, true, none) : Except PyErr (List Nat × Nat × Kind × Bool × Option Bool)) := by decide +kernel
  obtain ⟨⟨is, rc⟩, htag, hrun⟩ := bind_eq_ok.mp hrun
  obtain ⟨dag, hdag, hrun⟩ := bind_eq_ok.mp hrun
  obtain ⟨⟨u, st⟩, hq, hrun⟩ := bind_eq_ok.mp hrun
  obtain ⟨node, hn, hrun⟩ := bind_eq_ok.mp hrun
  obtain ⟨⟨got, b, obl⟩, haw, hrun⟩ := bind_eq_ok.mp hrun
  obtain ⟨⟨res, pool, place⟩, hp, hrun⟩ := bind_eq_ok.mp hrun
  have hout := Except.ok.inj hrun
  simp only [Prod.mk.injEq] at hout
  obtain ⟨hready, h0, hk, hgot, rfl⟩ := hout
  obtain ⟨fresh, rfl⟩ := Option.isSome_iff_exists.mp hgot
  have ht := tagRawChains_tagged pinned_noHash htag
  have ho : Orders dag.nodes.length (World.start dag .init) [0, 1, 2] := ⟨hready ▸ .refl _⟩
  obtain ⟨c, -, hrest, hnode, -⟩ := failed_placement_restores ⟨ht, .of_ok ht.toSingleWriter hdag⟩ (.greedy (fun _ _ _ => 0) .start)
    (World.entered_fresh _) ho ⟨[0, 1], [], rfl, hq⟩ (getKey_eq_ok.mp hn) (by simp [hk]) h0 haw hp
  exact ⟨is, rc, dag, u, st, c, htag, hdag, hq, hrest, hnode⟩

end cycle
end Vliw
