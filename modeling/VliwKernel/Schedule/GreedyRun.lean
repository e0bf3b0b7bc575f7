import VliwKernel.Schedule.Agreement
import VliwKernel.Schedule.Greedy
import Mathlib.Data.List.Sort
import Mathlib.Data.Prod.Lex

/-!
# A greedy cycle is a replay

Node by node the greedy scheduler does what the replay of the rollout scheduler does. On a graph
without WAR edges nothing enters the heap during a cycle, so the heap just sorts the ready nodes.
-/

namespace Vliw
open RegisterAllocator

variable {rc : Sym → Option Int} {nodes : List DNode} {w w' : World} {i : Nat} {node : DNode}

section node

theorem allocWrites_of_nil {ins : Instr Operand} (h : wrTags ins = []) (a : RegisterAllocator) (obl : Int) :
    allocWrites rc ins a obl = .ok (some [], a, obl) := by
  simp [allocWrites, h]

theorem allocWrites_of_cannot {ins : Instr Operand} {t : Sym} (h : wrTags ins = [t]) {a : RegisterAllocator}
    (hc : a.canWrite t = false) (obl : Int) : allocWrites rc ins a obl = .ok (none, a.warn, obl) := by
  simp [allocWrites, h, hc, warn]

/-- With a register to be had, `_alloc_writes` is the one `write`. -/
theorem allocWrites_of_can (rc : Sym → Option Int) {ins : Instr Operand} {t : Sym} (h : wrTags ins = [t]) {a : RegisterAllocator}
    (ha : a.tab.val.Inv) (hc : a.canWrite t = true) (obl : Int) :
    (∃ addr b fresh obl', a.write rc t = .ok (addr, b) ∧ b.tab.val.assigned t = some addr ∧
      allocWrites rc ins a obl = .ok (some fresh, b, obl') ∧ ∀ u ∈ fresh, rc u ≠ none) ∨
    (a.write rc t = .error .keyError ∧ allocWrites rc ins a obl = .error .keyError) := by
  cases hs : a.tab.val.assigned t with
  | some addr =>
      refine .inl ⟨addr, a, [], obl, write_sticky hs, hs, ?_, by simp⟩
      simp [allocWrites, h, hc, allocWrite, hs, write_sticky hs]
  | none =>
      cases hn : rc t with
      | none =>
          obtain ⟨addr, claimed, u, hu, -⟩ := ha.take hs hc
          refine .inr ⟨by simp [write, hs, hu, getKey, hn], ?_⟩
          simp [allocWrites, h, hc, allocWrite, hs, getKey, hn]
      | some n =>
          obtain ⟨addr, b, hw, hwrote⟩ := write_ok ha hs hc hn
          refine .inl ⟨addr, b, [t], obl + n, hw, by simp [hwrote.assigned], ?_, by simp [hn]⟩
          simp [allocWrites, h, hc, allocWrite, hs, getKey, hn, hw]

theorem unallocWrites_eq (ins : Instr Operand) {fresh : List Sym} (h : ∀ u ∈ fresh, rc u ≠ none)
    (a : RegisterAllocator) (obl : Int) : ∃ obl', unallocWrites rc ins fresh a obl =
      (wrTags ins).foldlM (RegisterAllocator.unwrite rc) a >>= fun a => .ok (a, obl') := by
  obtain ⟨obl', hobl⟩ : ∃ obl', fresh.foldlM (fun n t => do .ok (n - (← getKey rc t))) obl =
      (.ok obl' : Except PyErr Int) := by
    induction fresh generalizing obl with
    | nil => exact ⟨obl, rfl⟩
    | cons t fresh ih =>
        obtain ⟨n, hn⟩ := Option.ne_none_iff_exists'.mp (h t (by simp))
        obtain ⟨obl', hobl⟩ := ih (fun u hu => h u (by simp [hu])) (obl - n)
        exact ⟨obl', by simpa [getKey, hn] using hobl⟩
  exact ⟨obl', by simp only [unallocWrites, hobl, bind_ok]⟩

def RawOnly (nodes : List DNode) : Prop := ∀ i, ∀ e ∈ Dag.outEdges nodes i, e.2 ≠ 0

theorem RawOnly.unlocked (h : RawOnly nodes) (s : Dag.Log) (i : Nat) : (Dag.commit nodes s i).2 = [] := by
  have hloop : ∀ (es : List (Nat × Nat)) (s : Dag.Log), (∀ e ∈ es, e.2 ≠ 0) → (es.foldl Dag.relax (s, [])).2 = [] := by
    intro es
    induction es with
    | nil => exact fun _ _ => rfl
    | cons e es ih =>
        intro s hes
        have hrelax : (Dag.relax (s, []) e).2 = [] := by
          simp only [Dag.relax, if_neg (hes e (by simp))]
          split <;> rfl
        rw [List.foldl_cons, ← Prod.mk.eta (p := Dag.relax (s, []) e), hrelax]
        exact ih _ fun e he => hes e (by simp [he])
  exact hloop _ _ (h i)

def GreedyLike (st : Stats) (g : World × Bool × List Nat) (r : World × Stats) : Prop :=
  g.1 = r.1 ∧ g.2.2 = [] ∧ r.2.committed = st.committed + g.2.1.toNat

theorem greedyCommit_like (hraw : RawOnly nodes) (w : World) {st st' : Stats} (hst : st'.committed = st.committed) :
    Agree (GreedyLike st) (greedyCommit nodes node w) (commitNode nodes node w st') := by
  refine Agree.bind_left _ fun p => ⟨rfl, hraw.unlocked _ _, ?_⟩
  simp [hst]

theorem greedyGather_like (hraw : RawOnly nodes) (ha : w.alloc.tab.val.Inv)
    (hk : (classify node.instr.op).kind = .gather) (st : Stats) :
    Agree (GreedyLike st) (greedyGather rc nodes node w) (runGather rc nodes true node w st) := by
  obtain ⟨dest, addr, hop⟩ : ∃ dest addr, node.instr.op = .gather dest addr := by
    revert hk
    cases node.instr.op <;> simp [classify, Op.engine, Op.isGather]
  have hw1 : wrTags node.instr = [dest.base] := by simp [wrTags_eq, hop, Op.dest?]
  have hr1 : node.instr.readOperands = [addr] := by rw [Instr.readOperands, hop]; rfl
  simp only [greedyGather, runGather, hw1, hr1, List.all_cons, List.all_nil, Bool.and_true]
  cases hc : w.alloc.canWrite dest.base with
  | false =>
      rw [allocWrites_of_cannot hw1 hc]
      exact ⟨rfl, rfl, rfl⟩
  | true =>
      rcases allocWrites_of_can rc hw1 ha hc st.obligations with
        ⟨x, b, fresh, obl, hwrite, hx, haw, -⟩ | ⟨hwrite, haw⟩
      · rw [hwrite, haw]
        have hx' : b.addrOf (.sym dest.base) = x := by
          rw [addrOf, show (Operand.sym dest.base).base = dest.base from rfl, hx]
          rfl
        simp only [if_true, bind_ok, hx']
        refine Agree.ite (fun _ => ?_) (fun _ => ⟨rfl, rfl, rfl⟩)
        exact greedyCommit_like hraw _ rfl
      · rw [hwrite, haw]
        rfl

theorem greedyRegular_like (hraw : RawOnly nodes) (ha : w.alloc.tab.val.Inv) (st : Stats) :
    Agree (GreedyLike st) (greedyRegular rc nodes node w) (runRegular rc nodes true node w st) := by
  have hgot : ∀ {b : RegisterAllocator} {fresh : List Sym} {obl : Int}, (wrTags node.instr).all w.alloc.canWrite = true →
      (wrTags node.instr).foldlM (fun a t => do .ok (← a.write rc t).2) w.alloc = .ok b →
      allocWrites rc node.instr w.alloc st.obligations = .ok (some fresh, b, obl) → (∀ u ∈ fresh, rc u ≠ none) →
      Agree (GreedyLike st) (greedyRegular rc nodes node w) (runRegular rc nodes true node w st) := by
    intro b fresh obl hcan hfold haw hfresh
    simp only [greedyRegular, runRegular, hcan, if_true, hfold, haw, bind_ok]
    refine Agree.bind_left _ fun p => ?_
    obtain ⟨placed, pool, place⟩ := p
    rcases placed with _ | _ | _
    · refine Agree.ite (fun _ => ?_) (fun _ => ⟨rfl, rfl, rfl⟩)
      obtain ⟨obl', hun⟩ := unallocWrites_eq node.instr hfresh b obl
      rw [hun]
      cases (wrTags node.instr).foldlM (RegisterAllocator.unwrite rc) b with
      | error e => rfl
      | ok c => exact ⟨rfl, rfl, rfl⟩
    · exact ⟨rfl, rfl, rfl⟩
    · exact greedyCommit_like hraw _ rfl
  rcases hd : node.instr.op.dest? with _ | d
  · have hw0 : wrTags node.instr = [] := by simp [wrTags_eq, hd]
    exact hgot (by simp [hw0]) (by rw [hw0]; rfl) (allocWrites_of_nil hw0 _ _) (by simp)
  · have hw1 : wrTags node.instr = [d.base] := by simp [wrTags_eq, hd]
    cases hc : w.alloc.canWrite d.base with
    | false =>
        simp only [greedyRegular, runRegular, allocWrites_of_cannot hw1 hc]
        simp only [hw1, List.all_cons, List.all_nil, hc, Bool.false_and, Bool.false_eq_true, if_false]
        exact ⟨rfl, rfl, rfl⟩
    | true =>
        rcases allocWrites_of_can rc hw1 ha hc st.obligations with
          ⟨x, b, fresh, obl, hwrite, -, haw, hfresh⟩ | ⟨hwrite, haw⟩
        · exact hgot (by simp [hw1, hc]) (by rw [hw1, List.foldlM_cons, hwrite]; rfl) haw hfresh
        · simp only [greedyRegular, runRegular, haw]
          simp only [hw1, List.all_cons, List.all_nil, hc, Bool.and_true, if_true, List.foldlM_cons, hwrite,
            bind_error]
          rfl

theorem greedyNode_like (rc : Sym → Option Int) (i : Nat) (hraw : RawOnly nodes) (ha : w.alloc.tab.val.Inv) (st : Stats) :
    Agree (GreedyLike st) (greedyNode rc nodes w i) (runNode rc nodes true (w, st) i) := by
  unfold greedyNode runNode
  cases nodes[i]? with
  | none => rfl
  | some node =>
      dsimp only
      cases hk : (classify node.instr.op).kind with
      | debug =>
          simp only [greedyDebug, runDebug, if_true]
          exact Agree.bind_left _ fun p => greedyCommit_like hraw _ rfl
      | gather => exact greedyGather_like hraw ha hk st
      | _ => exact greedyRegular_like hraw ha st

end node
section heap

theorem pair_sublist_asymm {a b : Nat} {l : List Nat} (hnd : l.Nodup) (h : [a, b].Sublist l) : ¬ [b, a].Sublist l := by
  induction l with
  | nil => cases h
  | cons x l ih =>
      obtain ⟨hx, hnd⟩ := List.nodup_cons.mp hnd
      intro h'
      cases h with
      | cons _ h =>
          cases h' with
          | cons _ h' => exact ih hnd h h'
          | cons_cons _ h' => exact hx (h.subset (by simp))
      | cons_cons _ h =>
          cases h' with
          | cons _ h' => exact hx (h'.subset (by simp))
          | cons_cons _ h' => exact hx (h'.subset (by simp))

theorem mergeSort_key_pairwise (f : Nat → ℚ) {l : List Nat} (h : l.Pairwise (· < ·)) :
    (l.mergeSort fun i j => f i ≤ f j).Pairwise fun i j => toLex (f i, i) < toLex (f j, j) := by
  have htrans : ∀ a b c : Nat, decide (f a ≤ f b) = true → decide (f b ≤ f c) = true → decide (f a ≤ f c) = true := by
    simp only [decide_eq_true_eq]
    exact fun _ _ _ => le_trans
  have htotal : ∀ a b : Nat, (decide (f a ≤ f b) || decide (f b ≤ f a)) = true := by
    simp only [Bool.or_eq_true, decide_eq_true_eq]
    exact fun _ _ => le_total _ _
  have hnd : (l.mergeSort fun i j => f i ≤ f j).Nodup :=
    (List.mergeSort_perm l _).nodup_iff.mpr (h.imp Nat.ne_of_lt)
  rw [List.pairwise_iff_forall_sublist]
  intro i j hij
  have hle : f i ≤ f j := by
    have := List.pairwise_iff_forall_sublist.mp (List.pairwise_mergeSort htrans htotal l) hij
    simpa using this
  rw [Prod.Lex.toLex_lt_toLex']
  refine ⟨hle, fun heq => ?_⟩
  by_contra hlt
  have hne : i ≠ j := by
    rintro rfl
    simpa using hij.nodup hnd
  have hlt' : j < i := Nat.lt_of_le_of_ne (Nat.le_of_not_lt hlt) (Ne.symm hne)
  have hsub : [j, i] ⊆ l := by
    intro k hk
    refine (List.mergeSort_perm l _).mem_iff.mp (hij.subset ?_)
    simpa [or_comm] using hk
  have hji : [j, i].Sublist l :=
    List.sublist_of_subperm_of_pairwise (List.subperm_of_subset (by simp [Ne.symm hne]) hsub)
      (List.pairwise_pair.mpr (Nat.le_of_lt hlt')) (h.imp Nat.le_of_lt)
  exact pair_sublist_asymm hnd hij (List.pair_sublist_mergeSort htrans htotal (by simp [show f i = f j from heq]) hji)

theorem keyLt_iff {a b : ℚ × Nat} : keyLt a b = true ↔ toLex a < toLex b := by
  simp [keyLt, Prod.Lex.toLex_lt_toLex]

/-- `heapMin` finds a least pair. -/
theorem heapMin_spec (a : ℚ × Nat) (h : Heap) : heapMin a h ∈ a :: h ∧ ∀ x ∈ a :: h, toLex (heapMin a h) ≤ toLex x := by
  induction h generalizing a with
  | nil => simp [heapMin]
  | cons x h ih =>
      have hstep : heapMin a (x :: h) = heapMin (if keyLt x a then x else a) h := rfl
      obtain ⟨hm, hle⟩ := ih (if keyLt x a then x else a)
      rw [hstep]
      have hmin : toLex (if keyLt x a then x else a) ≤ toLex a ∧ toLex (if keyLt x a then x else a) ≤ toLex x := by
        split
        · next hlt => exact ⟨le_of_lt (keyLt_iff.mp hlt), le_refl _⟩
        · next hlt => exact ⟨le_refl _, not_lt.mp fun h => hlt (keyLt_iff.mpr h)⟩
      refine ⟨?_, fun y hy => ?_⟩
      · rcases List.mem_cons.mp hm with hm | hm
        · rw [hm]
          split <;> simp
        · simp [hm]
      · rcases List.mem_cons.mp hy with rfl | hy
        · exact le_trans (hle _ (by simp)) hmin.1
        · rcases List.mem_cons.mp hy with rfl | hy
          · exact le_trans (hle _ (by simp)) hmin.2
          · exact hle y (by simp [hy])

variable {prev : Nat → Bool} {M : Ledger}

/-- Without WAR edges the heap is drained in the order of its keys, each node as in the replay. -/
theorem drain_like (hw : Dag.WellFormed nodes) (h1 : OneWriter nodes rc) (hraw : RawOnly nodes) (key : KeyFunc)
    (C fuel : Nat) {l h : Heap} (hl : l.Perm h) (hsort : l.Pairwise fun a b => toLex a < toLex b)
    (hfuel : h.length ≤ fuel) (hnd : (l.map Prod.snd).Nodup) (hok : w.Ok nodes prev)
    (hf : ∀ i ∈ l.map Prod.snd, w.dag.val.frontier i = true ∧ M i = none) (hfit : FuncUnitPool.Inv M w.pool)
    (st : Stats) (c : Nat) :
    Agree (fun g r => g.1 = r.1 ∧ g.2 + st.committed = c + r.2.committed) (drain rc nodes key C fuel h w c)
      ((l.map Prod.snd).foldlM (runNode rc nodes true) (w, st)) := by
  induction l generalizing h fuel w M st c with
  | nil =>
      obtain rfl := List.nil_perm.mp hl
      cases fuel <;> exact ⟨rfl, rfl⟩
  | cons m l ih =>
      obtain ⟨a, h, rfl⟩ : ∃ a h', h = a :: h' := by
        cases h with
        | nil => cases hl.length_eq
        | cons a h => exact ⟨a, h, rfl⟩
      obtain ⟨fuel, rfl⟩ : ∃ f, fuel = f + 1 := by
        cases fuel with
        | zero => simp at hfuel
        | succ f => exact ⟨f, rfl⟩
      obtain ⟨hmem, hmin⟩ := heapMin_spec a h
      have hm : heapMin a h = m := by
        rcases List.mem_cons.mp (hl.mem_iff.mpr hmem) with heq | hin
        · exact heq
        · have hlt := (List.pairwise_cons.mp hsort).1 _ hin
          exact absurd hlt (not_lt.mpr (hmin m (hl.mem_iff.mp (by simp))))
      rw [List.map_cons] at hnd hf ⊢
      obtain ⟨hio, hnd⟩ := List.nodup_cons.mp hnd
      obtain ⟨hfi, hMi⟩ := hf m.2 (by simp)
      obtain ⟨node, hn⟩ := getElem?_of_frontier hok.dag hfi
      have hidx := hw.idx hn
      have hci := (hok.dag.frontier_iff.mp hfi).2.1
      have hperm : l.Perm ((a :: h).erase m) := by
        have := hl.erase m
        rwa [List.erase_cons_head] at this
      have hlen : ((a :: h).erase m).length ≤ fuel := by
        rw [List.length_erase_of_mem (hm ▸ hmem)]
        simpa using hfuel
      rw [List.foldlM_cons, drain, hm]
      refine (greedyNode_like rc m.2 hraw hok.alloc st).bind_of ?_
      rintro ⟨w₁, done', -⟩ ⟨v₁, st₁⟩ hrun ⟨rfl, rfl, hc⟩
      rcases runNode_ok rc true hn hidx hok hci hMi hfit st with ⟨x, done, v₁, st₁, hrun', hstep, hfit₁, -⟩ | ⟨-, -, -, -, herr⟩
      · cases hrun.symm.trans hrun'
        rw [hidx] at hstep hfit₁
        simp only [List.map_nil, List.append_nil]
        refine (ih fuel hperm (List.pairwise_cons.mp hsort).2 hlen hnd (hstep.ok hw h1 hn hok hfi) (hstep.due hw hok.dag hio hf) hfit₁ st₁
            (if done' then c + 1 else c)).mono ?_
        rintro p q ⟨hpq, hcount⟩
        refine ⟨hpq, ?_⟩
        cases done' <;> simp at hc hcount <;> omega
      · cases hrun.symm.trans herr

end heap
section cycle

variable {prev : Nat → Bool} {order : List Nat}

theorem DagOf.rawOnly {pinned : List String} {is : List (Instr Operand)} {dag : Dag} (h : DagOf pinned is dag) :
    RawOnly dag.nodes := by
  rintro i ⟨j, e⟩ he
  have := (h.edge.mp (h.wf.mem_outEdges.mp he)).1
  simp [this]

theorem ready_pairwise (n : Nat) (s : DagState) : (s.ready n).Pairwise (· < ·) :=
  List.pairwise_lt_range.filter _

/-- A greedy cycle is a cycle over the ready nodes sorted by their keys. -/
theorem greedyCycle_eq (hw : Dag.WellFormed nodes) (h1 : OneWriter nodes rc) (hraw : RawOnly nodes)
    (hok : w.Ok nodes prev) (key : KeyFunc) (C k : Nat)
    (ho : order = (w.dag.val.ready nodes.length).mergeSort fun i j =>
      key C { w with pool := .fresh } i ≤ key C { w with pool := .fresh } j) :
    greedyCycle rc nodes key C w k =
      (if (w.dag.val.ready nodes.length).isEmpty then .error (.frontierEmpty (nodes.length - k) C)
      else do
        let (v, s) ← runCycle rc nodes true order { w with pool := .fresh }
        let bundle ← emitBundle v.pool.bundle
        if bundle.keys.isEmpty ∧ k + s.committed < nodes.length then
          .error (.stuck C (w.dag.val.ready nodes.length).length v.alloc.exhaustionWarnings)
        else do
          let w' ← endCycle nodes.length v
          .ok (w', k + s.committed, bundle)) := by
  simp only [greedyCycle]
  split
  · rfl
  · set w₀ : World := { w with pool := .fresh } with hw₀
    have hperm : order.Perm (w.dag.val.ready nodes.length) := ho ▸ List.mergeSort_perm _ _
    have horders : Orders nodes.length w₀ order := ⟨hperm⟩
    have hok₀ : w₀.Ok nodes prev := hok.of_vals rfl rfl rfl
    have hsnd : ∀ l : List Nat, (l.map fun i => (key C w₀ i, i)).map Prod.snd = l := by
      intro l
      simp [Function.comp_def]
    have hsort : (order.map fun i => (key C w₀ i, i)).Pairwise fun a b => toLex a < toLex b := by
      rw [List.pairwise_map, ho]
      exact mergeSort_key_pairwise _ (ready_pairwise _ _)
    have hlike := drain_like (M := fun _ => none) hw h1 hraw key C ((w.dag.val.ready nodes.length).length + nodes.length)
      (hperm.map fun i => (key C w₀ i, i)) hsort (by simp) (by rw [hsnd]; exact horders.nodup)
      hok₀ (by rw [hsnd]; exact fun i hi => ⟨horders.frontier hi, rfl⟩) FuncUnitPool.Inv.fresh .zero k
    rw [hsnd] at hlike
    rw [runCycle_eq]
    cases hrun : order.foldlM (runNode rc nodes true) (w₀, .zero) with
    | error e =>
        rw [hlike.of_error hrun]
        rfl
    | ok p =>
        obtain ⟨⟨v, c⟩, hdr, hv, hc⟩ := hlike.of_ok hrun
        dsimp only at hv hc
        subst hv
        obtain rfl : c = k + p.2.committed := by simpa [Stats.zero] using hc
        rw [hdr]
        rfl

end cycle
end Vliw
