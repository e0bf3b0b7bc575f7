import VliwKernel.Regalloc.Capacity
import VliwKernel.Schedule.Progress
import VliwKernel.Schedule.Search
import VliwKernel.Schedule.Turns

/-!
# Cycles that complete nothing

Only a gather takes several cycles, and a cycle starts with a slot for everything else. So whether a cycle completes a node
can be told from the state it starts in: it only waits if every node of its order, up to the end, is short of a register, is a
gather that the two load slots do not finish, or needs a load slot after one.
-/

namespace Vliw
open RegisterAllocator Tables

/-- The registers left: granules for vectors, and the free words of the granules already split. -/
structure Spare where
  vectors : Nat
  words : Nat

namespace Spare

def fits (r : Spare) (tag : Sym) : Bool := 0 < r.vectors || (!tag.isVec && 0 < r.words)

theorem fits_iff {r : Spare} {tag : Sym} : r.fits tag = true ↔ 0 < r.vectors ∨ (tag.isVec = false ∧ 0 < r.words) := by
  simp [fits]

/-- The registers left after one for the tag; a scalar splits a granule only when no word is free. -/
def give (r : Spare) (tag : Sym) : Spare :=
  if tag.isVec then { r with vectors := r.vectors - 1 }
  else if 0 < r.words then { r with words := r.words - 1 } else ⟨r.vectors - 1, VLEN - 1⟩

end Spare

section spare

variable {rc : Sym → Option Int} {a b : RegisterAllocator} {s : Sym}

def Tables.spare (t : Tables) : Spare := ⟨t.freeVec.length, t.freeScalarCount⟩

theorem Tables.canWrite_spare (t : Tables) (s : Sym) : t.canWrite s = ((t.assigned s).isSome || t.spare.fits s) := by
  have hfit : t.bestFit.isSome = decide (0 < t.freeScalarCount) := by
    have hnone := @bestFit_none t
    cases hb : t.bestFit with
    | none =>
        have := hnone.mp hb
        simp [this]
    | some b =>
        have : t.freeScalarCount ≠ 0 := fun h => by simp [hnone.mpr h] at hb
        simp
        omega
  have hvec : (!t.freeVec.isEmpty) = decide (0 < t.freeVec.length) := by
    cases t.freeVec <;> simp
  rw [canWrite, hfit, hvec, spare, Spare.fits]
  cases s.isVec <;> simp [Bool.or_comm]

theorem RegisterAllocator.write_spare (h : a.tab.val.Inv) (hs : a.tab.val.assigned s = none) (hcan : a.canWrite s = true) {addr : Nat}
    (hb : a.write rc s = .ok (addr, b)) : b.tab.val.spare = a.tab.val.spare.give s := by
  rcases write_cases h hcan hb with ⟨hs', -⟩ | ⟨n, -, hn, hw⟩
  · rw [hs] at hs'
    cases hs'
  · obtain ⟨addr', claimed, u, htake, hu⟩ := h.take hs hcan
    have hclaims : b.tab.val.claims = u.claims := by
      simp only [write, hs, htake, getKey, hn, bind_ok] at hb
      cases hb
      rfl
    have hnot : s ∉ a.tab.val.live s.isVec := fun hm => by simp [Tables.live, hs] at hm
    obtain ⟨hfinv, hgr⟩ := h.granules
    obtain ⟨hfins, hwd⟩ := h.words_account
    have hgr' := hw.inv.granules.2
    have hwd' := hw.inv.words_account.2
    rw [canWrite, Tables.canWrite_spare, hs, Option.isSome_none, Bool.false_or, Spare.fits_iff] at hcan
    have hcl := take_claims h htake hu
    rw [← hclaims] at hcl
    cases hv : s.isVec with
    | true =>
        have hlive : b.tab.val.liveVectors = a.tab.val.liveVectors + 1 := by
          rw [liveVectors, ← hv, hw.live, Set.ncard_insert_of_notMem hnot (hv ▸ hfinv), liveVectors, hv]
        have hsame : b.tab.val.liveScalars = a.tab.val.liveScalars := by
          rw [liveScalars, hw.live_of_ne (by simp [hv]), liveScalars]
        simp only [hv, Bool.true_eq_false, false_and, or_false] at hcl
        rw [hcl] at hgr' hwd'
        simp only [Tables.spare, Spare.give, hv, if_true, Spare.mk.injEq]
        omega
    | false =>
        have hlive : b.tab.val.liveScalars = a.tab.val.liveScalars + 1 := by
          rw [liveScalars, ← hv, hw.live, Set.ncard_insert_of_notMem hnot (hv ▸ hfins), liveScalars, hv]
        have hsame : b.tab.val.liveVectors = a.tab.val.liveVectors := by
          rw [liveVectors, hw.live_of_ne (by simp [hv]), liveVectors]
        simp only [Tables.spare, hv, true_and] at hcan
        simp only [VLEN] at hwd hwd'
        simp only [Tables.spare, Spare.give, hv, Bool.false_eq_true, if_false]
        by_cases hpos : 0 < a.tab.val.freeScalarCount
        all_goals
          simp only [hpos, if_true, if_false, Spare.mk.injEq, VLEN]
          omega

theorem Restored.spare {c : RegisterAllocator} (h : Restored a c) : c.tab.val.spare = a.tab.val.spare := by
  obtain ⟨names, hc⟩ := h.tables
  rw [hc]
  rfl

end spare

/-- With the load slots and the registers that are left, no node of the order is completed: each one is short of a register, is a
gather with more lanes to go than there are slots, or needs a load slot where none is left. -/
def waitsWith (nodes : List DNode) (w : World) : Nat → Spare → List Nat → Bool
  | _, _, [] => true
  | slots, spare, i :: order =>
      match nodes[i]? with
      | none => false
      | some node =>
          let missing := (wrTags node.instr).filter fun t => (w.alloc.tab.val.assigned t).isNone
          if missing.all spare.fits then
            if node.instr.op.isGather then
              w.place.val.lanesDone i + slots < VLEN && waitsWith nodes w 0 (missing.foldl Spare.give spare) order
            else slots = 0 && node.instr.op.engine = .load && waitsWith nodes w slots spare order
          else waitsWith nodes w slots spare order

/-- A cycle that starts in `w` and places the nodes in this order only waits. -/
def waits (nodes : List DNode) (w : World) (order : List Nat) : Bool :=
  waitsWith nodes w (SLOT_LIMITS .load) w.alloc.tab.val.spare order

section cycle

variable {pinned : List String} {is : List (Instr Operand)} {rc : Sym → Option Int} {dag : Dag} {nodes : List DNode} {prev : Nat → Bool}
  {emit : Bool} {i slots : Nat} {order : List Nat} {w u v : World} {p r : World × Stats} {node : DNode} {spare : Spare}

/-- A cycle that has completed nothing so far: what it has left of slots and registers, and that the nodes to come stand as they did
at its start. -/
structure Partway (nodes : List DNode) (w : World) (slots : Nat) (spare : Spare) (order : List Nat) (u : World) : Prop where
  pool : u.pool.OnlyLoads slots
  spare : u.alloc.tab.val.spare = spare
  lanes : ∀ i ∈ order, u.place.val.lanesDone i = w.place.val.lanesDone i
  homes : ∀ i ∈ order, ∀ n, nodes[i]? = some n → ∀ t ∈ wrTags n.instr, u.alloc.tab.val.assigned t = w.alloc.tab.val.assigned t

theorem Partway.of_tables (h : Partway nodes w slots spare (i :: order) u) {b : RegisterAllocator}
    (hs : b.tab.val.spare = u.alloc.tab.val.spare) (ha : b.tab.val.assigned = u.alloc.tab.val.assigned) :
    Partway nodes w slots spare order { u with alloc := b } where
  pool := h.pool
  spare := hs.trans h.spare
  lanes j hj := h.lanes j (by simp [hj])
  homes j hj n hn t ht := (congrFun ha t).trans (h.homes j (by simp [hj]) n hn t ht)

theorem Partway.placeable (h : Partway nodes w slots spare (i :: order) u) (hn : nodes[i]? = some node) :
    placeable nodes u.alloc i = ((wrTags node.instr).filter fun t => (w.alloc.tab.val.assigned t).isNone).all spare.fits := by
  rw [placeable_eq hn, Bool.eq_iff_iff, List.all_eq_true, List.all_eq_true]
  refine ⟨fun hall t ht => ?_, fun hall t ht => ?_⟩
  · obtain ⟨ht, hnone⟩ := List.mem_filter.mp ht
    have hcan := hall t ht
    rw [RegisterAllocator.canWrite, Tables.canWrite_spare, h.spare, h.homes i (by simp) node hn t ht] at hcan
    rw [Option.isNone_iff_eq_none] at hnone
    simpa [hnone] using hcan
  · rw [RegisterAllocator.canWrite, Tables.canWrite_spare, h.spare, h.homes i (by simp) node hn t ht]
    cases hs : w.alloc.tab.val.assigned t with
    | some a => rfl
    | none => simpa using hall t (List.mem_filter.mpr ⟨ht, by simp [hs]⟩)

theorem allocWrites_spare {b : RegisterAllocator} {ins : Instr Operand} {fresh : List Sym} {obl obl' : Int} {a : RegisterAllocator}
    (h : a.tab.val.Inv) (haw : allocWrites rc ins a obl = .ok (some fresh, b, obl')) :
    b.tab.val.spare = ((wrTags ins).filter fun t => (a.tab.val.assigned t).isNone).foldl Spare.give a.tab.val.spare := by
  have hcan := allocWrites_canWrite haw
  obtain ⟨hacq, -⟩ := allocWrites_eq_ok h haw
  cases hacq with
  | noDest hd => simp [wrTags_eq, hd]
  | sticky hd hs => simp [wrTags_eq, hd, hs]
  | @fresh d n addr _ hd hs hn hw =>
      simp only [wrTags_eq, hd, Option.map_some, Option.toList_some, List.all_cons, List.all_nil, Bool.and_true] at hcan
      obtain ⟨addr', b', hwrite, -⟩ := write_ok h hs hcan hn
      simp [allocWrites, wrTags_eq, hd, hcan, allocWrite, hs, getKey, hn, hwrite] at haw
      rw [← haw.1, write_spare h hs hcan hwrite]
      simp [wrTags_eq, hd, hs]

/-- A gather that is not completed leaves the nodes to come as they were, without load slots. -/
theorem Partway.gather (h1 : OneWriter nodes rc) (h : Partway nodes w slots spare (i :: order) u) (hio : i ∉ order) (hn : nodes[i]? = some node)
    (hinv : u.alloc.tab.val.Inv) {fresh : List Sym} {b : RegisterAllocator} {obl obl' : Int}
    (haw : allocWrites rc node.instr u.alloc obl = .ok (some fresh, b, obl')) (hb : v.alloc = b) (hpool : v.pool.OnlyLoads 0)
    {k : Nat} (hlanes : v.place.val.lanesDone = Function.update u.place.val.lanesDone i k) :
    Partway nodes w 0 (((wrTags node.instr).filter fun t => (w.alloc.tab.val.assigned t).isNone).foldl Spare.give spare) order v where
  pool := hpool
  spare := by
    have hsame : ((wrTags node.instr).filter fun t => (u.alloc.tab.val.assigned t).isNone) =
        (wrTags node.instr).filter fun t => (w.alloc.tab.val.assigned t).isNone :=
      List.filter_congr fun t ht => by rw [h.homes i (by simp) node hn t ht]
    rw [hb, allocWrites_spare hinv haw, hsame, h.spare]
  lanes j hj := by
    have hne : j ≠ i := fun he => hio (he ▸ hj)
    rw [hlanes, Function.update_of_ne hne]
    exact h.lanes j (by simp [hj])
  homes j hj m hm t ht := by
    rw [hb, ← h.homes j (by simp [hj]) m hm t ht]
    obtain ⟨hacq, -⟩ := allocWrites_eq_ok hinv haw
    cases hacq with
    | noDest => rfl
    | sticky => rfl
    | @fresh d n addr _ hd hs hrc hw =>
        rw [hw.assigned, Function.update_of_ne]
        rintro rfl
        rw [wrTags_eq] at ht
        obtain ⟨e, he, hde⟩ := Option.map_eq_some_iff.mp (Option.mem_toList.mp ht)
        have hij := h1 hn hm hd he hde.symm (by simp [hrc])
        exact hio (hij ▸ hj)

theorem Turn.committed_le {st st' : Stats} (h : Turn rc nodes node w st v st') : st.committed ≤ st'.committed := by
  cases h with
  | done => exact Nat.le_succ _
  | full | refused | held | landed => exact Nat.le_refl _

theorem Turns.committed_le (h : Turns pinned rc nodes emit prev p order r) : p.2.committed ≤ r.2.committed := by
  induction h with
  | nil => exact Nat.le_refl _
  | cons _ _ _ _ hturn _ _ _ ih => exact hturn.committed_le.trans ih

/-- Without a load slot a load is passed over, and its register is given back. -/
theorem Turn.refused_load {st st' : Stats} (h : Turn rc nodes node u st v st') (hcan : (wrTags node.instr).all u.alloc.canWrite = true)
    (hload : node.instr.op.engine = .load) (hg : node.instr.op.isGather = false) (hlt : u.place.val.lanesDone node.idx < 1)
    (hpool : u.pool.OnlyLoads 0) : st' = st ∧ ∃ c, Restored u.alloc c ∧ v = { u with alloc := c } := by
  have hk : classify node.instr.op = ⟨.load, 1, .load⟩ := by simp [classify, hload, hg]
  have hrefuses : u.pool.refuses (classify node.instr.op) = true := by
    have hfree : u.pool.free .load = 0 := by rw [hpool, Function.update_self]
    simp [FuncUnitPool.refuses, hk, hfree]
  have hnot : ¬ ((classify node.instr.op).kind = .gather ∨ 0 < u.place.val.lanesDone node.idx ∨
      u.pool.refuses (classify node.instr.op) = false) := by
    rw [hrefuses, hk]
    simp
    omega
  cases h with
  | full hacq =>
      cases hacq with
      | full hd hfull => simp [wrTags_eq, hd, hfull] at hcan
  | refused _ _ _ _ _ hrest => exact ⟨rfl, _, hrest, rfl⟩
  | held hor =>
      rcases hor with ⟨hgather, -⟩ | hpos
      · simp [hk] at hgather
      · omega
  | landed hor => exact absurd hor hnot
  | done hor => exact absurd hor hnot

/-- From partway through a cycle to its end, nothing is completed exactly if the rest of the order waits. -/
theorem Turns.waits (hb : Built pinned is rc dag) (hnd : order.Nodup) (hp : Partway dag.nodes w slots spare order p.1)
    (h : Turns pinned rc dag.nodes emit prev p order r) : r.2.committed = p.2.committed ↔ waitsWith dag.nodes w slots spare order = true := by
  induction h generalizing slots spare with
  | nil => simp [waitsWith]
  | @cons p q r i node order hn hlive hf hstep hturn _ _ hrest ih =>
      obtain ⟨hio, hnd⟩ := List.nodup_cons.mp hnd
      obtain ⟨u, st⟩ := p
      obtain ⟨v, st'⟩ := q
      have hle := hrest.committed_le
      dsimp only at hlive hf hturn hp hle ⊢
      have hidx := hb.graph.wf.idx hn
      have hci := (hlive.dag.frontier_iff.mp hf).2.1
      have hlt := hlive.lanes_pending hn hci
      have hmore : st'.committed = st.committed + 1 → (r.2.committed = st.committed ↔ False) := by
        intro hdone
        simp only [iff_false]
        omega
      simp only [waitsWith, hn, ← hp.placeable hn]
      cases hpl : placeable dag.nodes u.alloc i with
      | false =>
          cases hstep.symm.trans (runNode_refused hn hpl st)
          rw [if_neg (by simp)]
          exact ih hnd (hp.of_tables rfl rfl)
      | true =>
          rw [if_pos rfl]
          have hcan := (placeable_eq hn u.alloc).symm.trans hpl
          cases hg : node.instr.op.isGather with
          | true =>
              have hk := FuncUnitPool.kind_eq_gather.mpr hg
              have hlt := hlt (by simp [hk])
              rw [FuncUnitPool.lanesTotal_gather hk] at hlt
              simp only [runNode, hn, hk] at hstep
              obtain ⟨hdone, hpart⟩ := runGather_lands hidx hk hlt hp.pool hcan hstep
              rw [if_pos rfl, ← hp.lanes i (by simp)]
              rcases Nat.lt_or_ge (u.place.val.lanesDone i + slots) VLEN with hlt' | hge
              · obtain ⟨hst, ⟨fresh, obl, haw⟩, hpool, hlanes⟩ := hpart hlt'
                have hnext := hp.gather hb.oneWriter hio hn hlive.alloc haw rfl hpool hlanes
                simp only [hlt', decide_true, Bool.true_and]
                rw [← ih hnd hnext]
                exact ⟨fun heq => heq.trans hst.symm, fun heq => heq.trans hst⟩
              · rw [hmore (hdone hge)]
                simp
                omega
          | false =>
              rw [if_neg (by simp)]
              by_cases hstall : slots = 0 ∧ node.instr.op.engine = .load
              · obtain ⟨rfl, hload⟩ := hstall
                have hk : classify node.instr.op = ⟨.load, 1, .load⟩ := by simp [classify, hload, hg]
                have hlt := hlt (by simp [hk])
                rw [hk] at hlt
                obtain ⟨rfl, c, hback, rfl⟩ := hturn.refused_load hcan hload hg (hidx ▸ hlt) hp.pool
                simp only [hload, decide_true, Bool.true_and]
                obtain ⟨names, hc⟩ := hback.tables
                exact ih hnd (hp.of_tables hback.spare (by rw [hc]))
              · rw [hmore (runNode_lands hn hidx hlive.toOk hci hg hp.pool (fun hload hzero => hstall ⟨hzero, hload⟩) hpl hstep)]
                simp only [false_iff, Bool.and_eq_true, decide_eq_true_eq, not_and]
                intro hpair
                exact absurd hpair hstall

variable {w' : World} {k k' C : Nat} {b : TaggedBundle}

end cycle
end Vliw
