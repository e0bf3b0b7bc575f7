import VliwKernel.Schedule.Node

/-!
# A cycle as a sequence of node steps

Every node step keeps the state invariant, touches no other node and is undone exactly by the
three journals; so does a whole cycle, tried or replayed.
-/

namespace Vliw
open RegisterAllocator

def OneWriter (nodes : List DNode) (rc : Sym → Option Int) : Prop :=
  ∀ {i j : Nat} {n m : DNode} {d e : Operand}, nodes[i]? = some n → nodes[j]? = some m →
    n.instr.op.dest? = some d → m.instr.op.dest? = some e → d.base = e.base → rc d.base ≠ none → i = j

theorem DagOf.oneWriter {pinned : List String} {is : List (Instr Operand)} {dag : Dag} {rc : Sym → Option Int}
    (h : DagOf pinned is dag) (hs : SingleWriter pinned is rc) : OneWriter dag.nodes rc := by
  intro i j n m d e hi hj hd he hde hrc
  have hp : isPinned pinned d.base = false := by
    rw [← Bool.not_eq_true]
    exact fun hp => hrc (hs.pinned_none hp)
  exact hs.unique hp ⟨n.instr, d, h.instr hi, hd, rfl⟩ ⟨m.instr, e, h.instr hj, he, hde.symm⟩

variable {rc : Sym → Option Int} {nodes : List DNode} {prev : Nat → Bool} {i : Nat} {ins : Instr Operand}
  {node : DNode} {w w' : World} {x : Option Landing} {done : Bool}

namespace NodeStep

theorem alloc_undoes (h : NodeStep rc nodes i ins w x done w') (hok : w.alloc.tab.val.Inv) :
    RegisterAllocator.Undoes rc w.alloc w'.alloc := by
  cases h with
  | idle _ _ _ hu => exact hu
  | held _ ha => exact ha.undoes
  | landed ha _ _ _ _ => exact ha.undoes
  | done ha _ _ _ _ hc =>
      obtain ⟨b, n, hb, hr⟩ := commitReads_released rc (ha.inv hok) ins
      cases hc.symm.trans hb
      exact ha.undoes.trans hr.undoes

theorem place_undoes (h : NodeStep rc nodes i ins w x done w') : Placement.Undoes w.place w'.place := by
  cases h with
  | idle _ _ _ _ => exact .refl _
  | held _ _ => exact .refl _
  | landed _ _ _ _ hu => exact hu
  | done _ _ _ _ hu _ => exact hu

theorem dag_undoes (h : NodeStep rc nodes i ins w x done w') (hc : w.dag.val.committed i = false) :
    Dag.Undoes w.dag w'.dag := by
  cases h with
  | idle _ _ _ _ => exact .refl _
  | held _ _ => exact .refl _
  | landed _ _ _ _ _ => exact .refl _
  | done _ _ _ _ _ _ => exact Dag.commit_undoes hc

theorem dag_eq (h : NodeStep rc nodes i ins w x done w') :
    w'.dag = if done then (Dag.commit nodes w.dag i).1 else w.dag := by
  cases h <;> rfl

theorem dag_inv (h : NodeStep rc nodes i ins w x done w') (hw : Dag.WellFormed nodes)
    (hd : Dag.Inv nodes prev w.dag.val) (hf : w.dag.val.frontier i = true) :
    Dag.Inv nodes prev w'.dag.val ∧
      w'.dag.val.committed = if done then Function.update w.dag.val.committed i true else w.dag.val.committed := by
  rw [h.dag_eq]
  cases done with
  | false => exact ⟨hd, rfl⟩
  | true => exact ⟨(hd.commit hw hf).2, (hd.commit hw hf).1⟩

theorem lanes_of_ne (h : NodeStep rc nodes i ins w x done w') {j : Nat} (hj : j ≠ i) :
    w'.place.val.lanesDone j = w.place.val.lanesDone j := by
  cases h with
  | idle _ _ _ _ => rfl
  | held _ _ => rfl
  | landed _ _ _ hl _ => rw [hl, Function.update_of_ne hj]
  | done _ _ _ hl _ _ => rw [hl, Function.update_of_ne hj]

theorem lanes_mono (h : NodeStep rc nodes i ins w x done w') (j : Nat) :
    w.place.val.lanesDone j ≤ w'.place.val.lanesDone j := by
  by_cases hj : j = i
  · subst hj
    cases h with
    | idle _ _ _ _ => exact Nat.le_refl _
    | held _ _ => exact Nat.le_refl _
    | landed _ _ _ hl _ => simp [hl]
    | done _ _ _ hl _ _ => simp [hl]
  · rw [h.lanes_of_ne hj]

theorem frontier_of_ne (h : NodeStep rc nodes i ins w x done w') (hw : Dag.WellFormed nodes)
    (hd : Dag.Inv nodes prev w.dag.val) (hf : w.dag.val.frontier i = true) {j : Nat} (hj : j ≠ i)
    (hfj : w.dag.val.frontier j = true) : w'.dag.val.frontier j = true := by
  obtain ⟨hd', hc⟩ := h.dag_inv hw hd hf
  obtain ⟨hjn, hcj, he⟩ := hd.frontier_iff.mp hfj
  have hmono : ∀ k, w.dag.val.committed k = true → w'.dag.val.committed k = true := by
    intro k hk
    rw [hc]
    cases done with
    | false => exact hk
    | true =>
        by_cases hki : k = i
        · simp [hki]
        · simpa [hki] using hk
  refine hd'.frontier_iff.mpr ⟨hjn, ?_, fun e hm => ⟨fun h0 => hmono _ ((he e hm).1 h0), (he e hm).2⟩⟩
  rw [hc]
  cases done with
  | false => exact hcj
  | true => simpa [hj] using hcj

/-- Only the destination of the node can become assigned, and only to stay so unless it was read. -/
theorem assigned_of (h : NodeStep rc nodes i ins w x done w') (hok : w.alloc.tab.val.Inv) {t : Sym}
    (hs : (w'.alloc.tab.val.assigned t).isSome) :
    (w.alloc.tab.val.assigned t).isSome ∨ ∃ d, ins.op.dest? = some d ∧ d.base = t ∧ rc t ≠ none ∧
      (ins.op.isGather = true ∨ 0 < w'.place.val.lanesDone i) := by
  have hacq : ∀ {fresh b}, Acquire rc ins w.alloc (some fresh) b → (b.tab.val.assigned t).isSome →
      (w.alloc.tab.val.assigned t).isSome ∨ ∃ d, ins.op.dest? = some d ∧ d.base = t ∧ rc t ≠ none := by
    intro fresh b ha hs
    by_cases hd : ∃ d, ins.op.dest? = some d ∧ d.base = t ∧ rc t ≠ none
    · exact .inr hd
    · refine .inl ?_
      rwa [(ha.assigned_of_ne fun d hd' hdt => by_contra fun hrc => hd ⟨d, hd', hdt, hrc⟩).1] at hs
  cases h with
  | idle _ ha _ _ => exact .inl (by rwa [← ha])
  | held hg ha =>
      rcases hacq ha hs with h | ⟨d, hd, hdt, hrc⟩
      · exact .inl h
      · exact .inr ⟨d, hd, hdt, hrc, hg⟩
  | landed ha hk _ hl _ =>
      rcases hacq ha hs with h | ⟨d, hd, hdt, hrc⟩
      · exact .inl h
      · exact .inr ⟨d, hd, hdt, hrc, .inr (by simp [hl, hk])⟩
  | @done fresh b c n k place pool ha hk _ hl _ hc =>
      obtain ⟨c', n', hc', hr⟩ := commitReads_released rc (ha.inv hok) ins
      cases hc.symm.trans hc'
      obtain ⟨y, hy⟩ := Option.isSome_iff_exists.mp hs
      rcases hacq ha (by rw [hr.assigned hy]; rfl) with h | ⟨d, hd, hdt, hrc⟩
      · exact .inl h
      · refine .inr ⟨d, hd, hdt, hrc, .inr ?_⟩
        rcases hk with hk | hk
        · simp [hl, hk]
        · revert hk
          cases hop : ins.op <;> simp [hop, Op.dest?] at hd <;> simp [classify, Op.engine, Op.isGather]

/-- What landed: the lanes between the old count and the new one, of the instruction resolved in the
state where its register had been acquired. -/
theorem landing {l : Landing} (h : NodeStep rc nodes i ins w (some l) done w') :
    l.lo = w.place.val.lanesDone i ∧ l.hi = w'.place.val.lanesDone i ∧
      (l.lo < l.hi ∨ ((classify ins.op).kind = .debug ∧ done = true)) ∧
      ∃ fresh b, Acquire rc ins w.alloc (some fresh) b ∧ l.instr = placedInstr ins b := by
  cases h with
  | landed ha hk _ hl _ => exact ⟨rfl, by simp [hl], .inl (by simp [hk]), _, _, ha, rfl⟩
  | done ha hk _ hl _ _ =>
      refine ⟨rfl, by simp [hl], ?_, _, _, ha, rfl⟩
      rcases hk with hk | hk
      · exact .inl (by simp [hk])
      · exact .inr ⟨hk, rfl⟩

theorem none_eq (h : NodeStep rc nodes i ins w none done w') : done = false ∧ w'.dag = w.dag ∧ w'.place = w.place ∧
    w'.pool = w.pool := by
  cases h <;> exact ⟨rfl, rfl, rfl, rfl⟩

theorem ok (h : NodeStep rc nodes i node.instr w x done w') (hw : Dag.WellFormed nodes) (h1 : OneWriter nodes rc)
    (hn : nodes[i]? = some node) (hok : w.Ok nodes prev) (hf : w.dag.val.frontier i = true) : w'.Ok nodes prev := by
  obtain ⟨hd, hcomm⟩ := h.dag_inv hw hok.dag hf
  obtain ⟨-, hci, hpre⟩ := hok.dag.frontier_iff.mp hf
  have hci' : ∀ {j}, j ≠ i → w'.dag.val.committed j = w.dag.val.committed j := by
    intro j hj
    rw [hcomm]
    cases done with
    | false => rfl
    | true => simp [hj]
  have hlanes : (w'.dag.val.committed i = false → (classify node.instr.op).kind ≠ .debug →
        w'.place.val.lanesDone i < (classify node.instr.op).lanesTotal) ∧
      (w'.dag.val.committed i = true → w'.place.val.lanesDone i = (classify node.instr.op).lanesTotal) ∧
      ((classify node.instr.op).kind = .debug → w'.place.val.lanesDone i = 0) := by
    have hlt := hok.lanes_pending hn hci
    have hdb := hok.lanes_debug hn
    have htot : (classify node.instr.op).kind = .debug → (classify node.instr.op).lanesTotal = 0 := by
      cases node.instr.op <;> simp [classify, Op.engine, Op.isGather]
    rw [hcomm]
    cases h with
    | idle _ _ _ _ => exact ⟨fun _ => hlt, by simp [hci], hdb⟩
    | held _ _ => exact ⟨fun _ => hlt, by simp [hci], hdb⟩
    | landed _ _ hlt' hl _ =>
        rw [hl]
        refine ⟨fun _ _ => by simpa using hlt', by simp [hci], fun hk => ?_⟩
        rw [htot hk] at hlt'
        omega
    | done _ _ heq hl _ _ =>
        rw [hl]
        refine ⟨by simp, fun _ => by simpa using heq, fun hk => ?_⟩
        rw [htot hk] at heq
        simpa using heq
  constructor
  case alloc =>
    cases h with
    | idle hb _ _ _ => exact hb
    | held _ ha => exact ha.inv hok.alloc
    | landed ha _ _ _ _ => exact ha.inv hok.alloc
    | done ha _ _ _ _ hc =>
        obtain ⟨b, n, hb, hr⟩ := commitReads_released rc (ha.inv hok.alloc) node.instr
        cases hc.symm.trans hb
        exact hr.inv
  case dag => exact hd
  case lanes_pending =>
    intro j m hj hc hk
    by_cases hji : j = i
    · subst hji
      cases hn.symm.trans hj
      exact hlanes.1 hc hk
    · rw [h.lanes_of_ne hji]
      exact hok.lanes_pending hj (by rwa [← hci' hji]) hk
  case lanes_done =>
    intro j m hj hc
    by_cases hji : j = i
    · subst hji
      cases hn.symm.trans hj
      exact hlanes.2.1 hc
    · rw [h.lanes_of_ne hji]
      exact hok.lanes_done hj (by rwa [← hci' hji])
  case lanes_debug =>
    intro j m hj hk
    by_cases hji : j = i
    · subst hji
      cases hn.symm.trans hj
      exact hlanes.2.2 hk
    · rw [h.lanes_of_ne hji]
      exact hok.lanes_debug hj hk
  case lanes_ready =>
    intro j hj e he
    by_cases hji : j = i
    · subst hji
      exact (hpre e he).2
    · exact hok.lanes_ready (by rwa [← h.lanes_of_ne hji]) e he
  case sticky =>
    intro j m d hj hd hk hs
    rcases h.assigned_of hok.alloc hs with hs | ⟨d', hd', hdt, hrc, hg⟩
    · exact Nat.lt_of_lt_of_le (hok.sticky hj hd hk hs) (h.lanes_mono j)
    · obtain rfl := h1 hn hj hd' hd hdt (by rwa [hdt])
      cases hn.symm.trans hj
      rcases hg with hg | hg
      · exact absurd (FuncUnitPool.kind_eq_gather.mpr hg) hk
      · exact hg

end NodeStep

/-- The steps of the nodes of an order, and the landings they add to a ledger. -/
inductive NodeSteps (rc : Sym → Option Int) (nodes : List DNode) :
    World → Ledger → List Nat → World → Ledger → Prop
  | nil {w M} : NodeSteps rc nodes w M [] w M
  | cons {w M i order node x done w₁ w' M'} : nodes[i]? = some node → w.dag.val.frontier i = true → M i = none →
      NodeStep rc nodes i node.instr w x done w₁ → NodeSteps rc nodes w₁ (M.note i x) order w' M' →
      NodeSteps rc nodes w M (i :: order) w' M'

def World.count (n : Nat) (w : World) : Nat := (List.range n).countP w.dag.val.committed

theorem countP_update {f : Nat → Bool} {i : Nat} (h : f i = false) {l : List Nat} (hnd : l.Nodup) (hi : i ∈ l) :
    l.countP (Function.update f i true) = l.countP f + 1 := by
  induction l with
  | nil => cases hi
  | cons x l ih =>
      obtain ⟨hx, hnd⟩ := List.nodup_cons.mp hnd
      rw [List.countP_cons, List.countP_cons]
      by_cases hxi : x = i
      · subst hxi
        have hrest : l.countP (Function.update f x true) = l.countP f := by
          refine List.countP_congr fun y hy => ?_
          rw [Function.update_of_ne]
          rintro rfl
          exact hx hy
        simp [hrest, h]
      · rw [ih hnd ((List.mem_cons.mp hi).resolve_left (Ne.symm hxi)), Function.update_of_ne hxi]
        omega

theorem NodeStep.count (h : NodeStep rc nodes i ins w x done w') (hw : Dag.WellFormed nodes)
    (hd : Dag.Inv nodes prev w.dag.val) (hf : w.dag.val.frontier i = true) :
    w'.count nodes.length = w.count nodes.length + done.toNat := by
  obtain ⟨hin, hci, -⟩ := hd.frontier_iff.mp hf
  rw [World.count, (h.dag_inv hw hd hf).2]
  cases done with
  | false => rfl
  | true => exact countP_update hci List.nodup_range (List.mem_range.mpr hin)

/-- A node that writes a tag without a read count, which no register can be had for. -/
def Uncounted (rc : Sym → Option Int) (nodes : List DNode) (i : Nat) : Prop :=
  ∃ node d, nodes[i]? = some node ∧ node.instr.op.dest? = some d ∧ rc d.base = none

theorem Ledger.note_of_ne {M : Ledger} {i j : Nat} (x : Option Landing) (h : j ≠ i) : M.note i x j = M j := by
  cases x with
  | none => rfl
  | some x => exact Function.update_of_ne h _ _

theorem NodeStep.due (h : NodeStep rc nodes i ins w x done w') (hw : Dag.WellFormed nodes) (hd : Dag.Inv nodes prev w.dag.val) {M : Ledger}
    {order : List Nat} (hio : i ∉ order) (hf : ∀ j ∈ i :: order, w.dag.val.frontier j = true ∧ M j = none) :
    ∀ j ∈ order, w'.dag.val.frontier j = true ∧ M.note i x j = none := by
  intro j hj
  have hne : j ≠ i := ne_of_mem_of_not_mem hj hio
  obtain ⟨hfj, hMj⟩ := hf j (by simp [hj])
  exact ⟨h.frontier_of_ne hw hd (hf i (by simp)).1 hne hfj, (Ledger.note_of_ne x hne).trans hMj⟩

theorem getElem?_of_frontier (hd : Dag.Inv nodes prev w.dag.val) (hf : w.dag.val.frontier i = true) :
    ∃ node, nodes[i]? = some node :=
  ⟨_, List.getElem?_eq_getElem (hd.frontier_iff.mp hf).1⟩

/-- Placing nodes of the frontier, each once, fails only on a tag without a read count. -/
theorem runNodes_ok (hw : Dag.WellFormed nodes) (h1 : OneWriter nodes rc) (emit : Bool) {M : Ledger}
    {order : List Nat} (hnd : order.Nodup) (hok : w.Ok nodes prev)
    (hf : ∀ i ∈ order, w.dag.val.frontier i = true ∧ M i = none) (hfit : FuncUnitPool.Fit emit M w.pool)
    (st : Stats) :
    (∃ w' st' M', order.foldlM (runNode rc nodes emit) (w, st) = .ok (w', st') ∧
      NodeSteps rc nodes w M order w' M' ∧ FuncUnitPool.Fit emit M' w'.pool ∧
      st'.committed + w.count nodes.length = st.committed + w'.count nodes.length) ∨
    ((∃ i ∈ order, Uncounted rc nodes i) ∧
      order.foldlM (runNode rc nodes emit) (w, st) = .error .keyError) := by
  induction order generalizing w M st with
  | nil => exact .inl ⟨w, st, M, rfl, .nil, hfit, rfl⟩
  | cons i order ih =>
      obtain ⟨hio, hnd⟩ := List.nodup_cons.mp hnd
      obtain ⟨hfi, hMi⟩ := hf i (by simp)
      obtain ⟨node, hn⟩ := getElem?_of_frontier hok.dag hfi
      have hidx := hw.idx hn
      have hci := (hok.dag.frontier_iff.mp hfi).2.1
      rw [List.foldlM_cons]
      rcases runNode_ok rc emit hn hidx hok hci hMi hfit st with
        ⟨x, done, w₁, st₁, hrun, hstep, hfit₁, hst⟩ | ⟨d, hd, hrc, -, hrun⟩
      · rw [hidx] at hstep hfit₁
        rw [hrun, bind_ok]
        rcases ih hnd (hstep.ok hw h1 hn hok hfi) (hstep.due hw hok.dag hio hf) hfit₁ st₁ with
          ⟨w', st', M', hrun', hsteps, hfit', hst'⟩ | ⟨⟨j, hj, hu⟩, herr⟩
        · have := hstep.count hw hok.dag hfi
          exact .inl ⟨w', st', M', hrun', .cons hn hfi hMi hstep hsteps, hfit', by omega⟩
        · exact .inr ⟨⟨j, by simp [hj], hu⟩, herr⟩
      · rw [hrun]
        exact .inr ⟨⟨i, by simp, node, d, hn, hd, hrc⟩, rfl⟩

namespace NodeSteps

variable {M M' : Ledger} {order : List Nat}

theorem ok (h : NodeSteps rc nodes w M order w' M') (hw : Dag.WellFormed nodes) (h1 : OneWriter nodes rc)
    (hok : w.Ok nodes prev) : w'.Ok nodes prev := by
  induction h with
  | nil => exact hok
  | cons hn hf _ hstep _ ih => exact ih (hstep.ok hw h1 hn hok hf)

/-- The journals undo a whole cycle. -/
theorem undoes (h : NodeSteps rc nodes w M order w' M') (hw : Dag.WellFormed nodes) (h1 : OneWriter nodes rc)
    (hok : w.Ok nodes prev) : RegisterAllocator.Undoes rc w.alloc w'.alloc ∧ Placement.Undoes w.place w'.place ∧
      Dag.Undoes w.dag w'.dag := by
  induction h with
  | nil => exact ⟨.refl _, .refl _, .refl _⟩
  | cons hn hf _ hstep _ ih =>
      obtain ⟨ha, hp, hd⟩ := ih (hstep.ok hw h1 hn hok hf)
      exact ⟨(hstep.alloc_undoes hok.alloc).trans ha, hstep.place_undoes.trans hp,
        (hstep.dag_undoes (hok.dag.frontier_iff.mp hf).2.1).trans hd⟩

theorem dag_inv (h : NodeSteps rc nodes w M order w' M') (hw : Dag.WellFormed nodes)
    (hd : Dag.Inv nodes prev w.dag.val) : Dag.Inv nodes prev w'.dag.val := by
  induction h with
  | nil => exact hd
  | cons _ hf _ hstep _ ih => exact ih (hstep.dag_inv hw hd hf).1

theorem frame (h : NodeSteps rc nodes w M order w' M') (hw : Dag.WellFormed nodes) (hd : Dag.Inv nodes prev w.dag.val)
    {j : Nat} (hj : j ∉ order ∨ (M j).isSome) : M' j = M j ∧
      w'.place.val.lanesDone j = w.place.val.lanesDone j ∧ w'.dag.val.committed j = w.dag.val.committed j := by
  induction h with
  | nil => exact ⟨rfl, rfl, rfl⟩
  | @cons w M i order node x done w₁ w' M' _ hf hM hstep _ ih =>
      have hne : j ≠ i := by
        rintro rfl
        rcases hj with hj | hj
        · simp at hj
        · simp [hM] at hj
      have hnote := Ledger.note_of_ne (M := M) x hne
      obtain ⟨h₁, h₂, h₃⟩ := ih (hstep.dag_inv hw hd hf).1 (by
        rcases hj with hj | hj
        · exact .inl fun hm => hj (by simp [hm])
        · exact .inr (by rwa [hnote]))
      refine ⟨h₁.trans hnote, h₂.trans (hstep.lanes_of_ne hne), h₃.trans ?_⟩
      rw [(hstep.dag_inv hw hd hf).2]
      cases done with
      | false => rfl
      | true => exact Function.update_of_ne hne _ _

/-- A cycle that lands nothing leaves the graph, the placements and the pool alone. -/
theorem idle (h : NodeSteps rc nodes w M order w' M') (hw : Dag.WellFormed nodes) (hd : Dag.Inv nodes prev w.dag.val)
    (hM : ∀ j, M' j = M j) : w'.dag = w.dag ∧ w'.place = w.place ∧ w'.pool = w.pool := by
  induction h with
  | nil => exact ⟨rfl, rfl, rfl⟩
  | @cons w M i order node x done w₁ w' M' _ hf hMi hstep hsteps ih =>
      have hd₁ := (hstep.dag_inv hw hd hf).1
      cases x with
      | none =>
          obtain ⟨-, hdag, hplace, hpool⟩ := hstep.none_eq
          obtain ⟨h₁, h₂, h₃⟩ := ih hd₁ hM
          exact ⟨h₁.trans hdag, h₂.trans hplace, h₃.trans hpool⟩
      | some l =>
          have hself : M.note i (some l) i = some l := Function.update_self _ _ _
          have := (hsteps.frame hw hd₁ (.inr (by rw [hself]; rfl))).1
          rw [hM, hMi, hself] at this
          cases this

theorem step_of_mem (h : NodeSteps rc nodes w M order w' M') (hw : Dag.WellFormed nodes) (h1 : OneWriter nodes rc)
    (hok : w.Ok nodes prev) (hnd : order.Nodup) {j : Nat} (hj : j ∈ order) :
    ∃ node x done u u' pre post Mu, order = pre ++ j :: post ∧ nodes[j]? = some node ∧
      NodeSteps rc nodes w M pre u Mu ∧ u.Ok nodes prev ∧ u.dag.val.frontier j = true ∧
      NodeStep rc nodes j node.instr u x done u' ∧ NodeSteps rc nodes u' (Mu.note j x) post w' M' ∧
      M' j = x ∧ u.place.val.lanesDone j = w.place.val.lanesDone j ∧
      w'.place.val.lanesDone j = u'.place.val.lanesDone j ∧ w'.dag.val.committed j = done := by
  induction h with
  | nil => cases hj
  | @cons w M i order node x done w₁ w' M' hn hf hM hstep hsteps ih =>
      obtain ⟨hio, hnd⟩ := List.nodup_cons.mp hnd
      have hd := hstep.dag_inv hw hok.dag hf
      rcases List.mem_cons.mp hj with rfl | hjo
      · obtain ⟨hM', hl, hc⟩ := hsteps.frame hw hd.1 (.inl hio)
        refine ⟨node, x, done, w, w₁, [], order, M, rfl, hn, .nil, hok, hf, hstep, hsteps, ?_, rfl, hl, ?_⟩
        · rw [hM']
          cases x with
          | none => exact hM
          | some x => exact Function.update_self _ _ _
        · rw [hc, hd.2]
          cases done with
          | false => exact (hok.dag.frontier_iff.mp hf).2.1
          | true => exact Function.update_self _ _ _
      · have hne : j ≠ i := by
          rintro rfl
          exact hio hjo
        obtain ⟨node', x', done', u, u', pre, post, Mu, ho, hn', hpre, huok, huf, hstep', hpost, hM', hl, hl', hc⟩ :=
          ih (hstep.ok hw h1 hn hok hf) hnd hjo
        exact ⟨node', x', done', u, u', i :: pre, post, Mu, by simp [ho], hn', .cons hn hf hM hstep hpre, huok, huf,
          hstep', hpost, hM', hl.trans (hstep.lanes_of_ne hne), hl', hc⟩

theorem count_le (h : NodeSteps rc nodes w M order w' M') (hw : Dag.WellFormed nodes)
    (hd : Dag.Inv nodes prev w.dag.val) : w.count nodes.length ≤ w'.count nodes.length := by
  induction h with
  | nil => exact Nat.le_refl _
  | cons _ hf _ hstep _ ih =>
      have := hstep.count hw hd hf
      have := ih (hstep.dag_inv hw hd hf).1
      omega

/-- What lands in a cycle is either some lanes or a debug node that is committed. -/
theorem landed (h : NodeSteps rc nodes w M order w' M') (hw : Dag.WellFormed nodes) (h1 : OneWriter nodes rc)
    (hok : w.Ok nodes prev) (hnd : order.Nodup) {j : Nat} {l : Landing} (hM : M j = none) (hj : M' j = some l) :
    l.lo < l.hi ∨ ((classify l.instr.op).kind = .debug ∧ w.count nodes.length < w'.count nodes.length) := by
  have hmem : j ∈ order := by
    by_contra hn
    rw [(h.frame hw hok.dag (.inl hn)).1, hM] at hj
    cases hj
  obtain ⟨node, x, done, u, u', pre, post, Mu, -, -, hpre, huok, huf, hstep, hpost, hM', -⟩ :=
    h.step_of_mem hw h1 hok hnd hmem
  obtain rfl : x = some l := hM'.symm.trans hj
  obtain ⟨-, -, hprog, fresh, b, -, hinstr⟩ := hstep.landing
  refine hprog.imp_right ?_
  rintro ⟨hk, rfl⟩
  refine ⟨by rwa [hinstr, classify_placedInstr], ?_⟩
  have hle := hpre.count_le hw hok.dag
  have hup := hstep.count hw huok.dag huf
  have hle' := hpost.count_le hw (hstep.dag_inv hw huok.dag huf).1
  simp only [Bool.toNat_true] at hup
  omega

end NodeSteps
end Vliw
