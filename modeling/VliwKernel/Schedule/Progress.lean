import VliwKernel.Schedule.Lifetime
import VliwKernel.Schedule.Trial

/-!
# What a fresh pool does for a node

At the start of a cycle there is a slot for every node. So the first node that finds its registers
lands, and only a gather can be left unfinished by that.
-/

namespace Vliw
open RegisterAllocator

variable {rc : Sym → Option Int} {nodes : List DNode} {prev : Nat → Bool} {w w' v : World} {i : Nat} {node : DNode}
  {emit : Bool} {order : List Nat} {st st' : Stats}

def placeable (nodes : List DNode) (a : RegisterAllocator) (i : Nat) : Bool :=
  (nodes[i]?.map fun n => (wrTags n.instr).all a.canWrite).getD false

theorem placeable_eq (hn : nodes[i]? = some node) (a : RegisterAllocator) :
    placeable nodes a i = (wrTags node.instr).all a.canWrite := by
  simp [placeable, hn]

theorem placeable_congr {a b : RegisterAllocator} (h : b.tab.val = a.tab.val) (i : Nat) :
    placeable nodes b i = placeable nodes a i := by
  simp only [placeable, funext fun t => show b.canWrite t = a.canWrite t by rw [canWrite, canWrite, h]]

section refused

theorem allocWrites_refused {ins : Instr Operand} {a : RegisterAllocator} (h : (wrTags ins).all a.canWrite = false) (obl : Int) :
    allocWrites rc ins a obl = .ok (none, a.warn, obl) := by
  simp [allocWrites, h, warn]

/-- A node without its registers is passed over. -/
theorem runNode_refused (hn : nodes[i]? = some node) (hp : placeable nodes w.alloc i = false) (st : Stats) :
    runNode rc nodes emit (w, st) i = .ok ({ w with alloc := w.alloc.warn }, st) := by
  rw [placeable_eq hn] at hp
  have hk : (classify node.instr.op).kind ≠ .debug := by
    intro hk
    have hnil : wrTags node.instr = [] := by
      rw [wrTags_eq]
      revert hk
      cases node.instr.op <;> simp [classify, Op.engine, Op.isGather, Op.dest?]
    simp [hnil] at hp
  unfold runNode
  rw [hn]
  dsimp only
  split
  · next hd => exact absurd hd hk
  · simp only [runGather, allocWrites_refused hp, bind_ok]
  · simp only [runRegular, allocWrites_refused hp, bind_ok]

theorem runNodes_refused (h : ∀ i ∈ order, i < nodes.length ∧ placeable nodes w.alloc i = false) (st : Stats) :
    ∃ b, b.tab = w.alloc.tab ∧ order.foldlM (runNode rc nodes emit) (w, st) = .ok ({ w with alloc := b }, st) := by
  induction order generalizing w with
  | nil => exact ⟨w.alloc, rfl, rfl⟩
  | cons i order ih =>
      obtain ⟨hi, hp⟩ := h i (by simp)
      have hrest : ∀ j ∈ order, j < nodes.length ∧ placeable nodes w.alloc.warn j = false := fun j hj => h j (by simp [hj])
      obtain ⟨b, hb, hrun⟩ := @ih { w with alloc := w.alloc.warn } hrest
      refine ⟨b, hb, ?_⟩
      rw [List.foldlM_cons, runNode_refused (List.getElem?_eq_getElem hi) hp, bind_ok]
      exact hrun

end refused
section landed
open FuncUnitPool

variable {α : Type} {op : Op α} {pl pl' : Placement.Log} {p' : FuncUnitPool} {instr : Option (Instr Reg)} {res : Option Bool}

/-- The pool has given out nothing but load slots, of which some are left. -/
def FuncUnitPool.OnlyLoads (p : FuncUnitPool) (slots : Nat) : Prop := p.free = Function.update SLOT_LIMITS .load slots

theorem FuncUnitPool.OnlyLoads.fresh : FuncUnitPool.fresh.OnlyLoads (SLOT_LIMITS .load) := (Function.update_eq_self _ _).symm

variable {p : FuncUnitPool} {slots : Nat}

theorem spillAlu_lands (hp : p.OnlyLoads slots) (hlt : pl.val.lanesDone i < VLEN) (h : p.spillAlu pl i VLEN instr = .ok (res, p', pl')) :
    res = some true := by
  have hfree : p.free .alu = 12 := by rw [hp]; rfl
  simp only [spillAlu, hfree] at h
  split at h
  · simp only [VLEN] at *
    omega
  · have hres : res = some (decide (pl.val.lanesDone i + min (VLEN - pl.val.lanesDone i) 12 = VLEN)) := by
      cases instr with
      | none =>
          cases h
          rfl
      | some r =>
          obtain ⟨b, -, h⟩ := bind_eq_ok.mp h
          cases h
          rfl
    rw [hres, Option.some.injEq, decide_eq_true_eq]
    simp only [VLEN] at *
    omega

/-- While only load slots are given out, a node that needs none is completed, and so is one that finds one, gathers apart. -/
theorem place_lands (hp : p.OnlyLoads slots) (hg : (classify op).kind ≠ .gather) (hslot : op.engine = .load → slots ≠ 0)
    (hlt : (classify op).kind ≠ .debug → pl.val.lanesDone i < (classify op).lanesTotal)
    (h : p.place pl i (classify op) instr = .ok (res, p', pl')) : res = some true := by
  have hfree : (classify op).kind ≠ .debug → p.free (classify op).nativeEngine ≠ 0 := by
    rw [hp]
    revert hg hslot
    cases op <;> simp [classify, Op.engine, Op.isGather, SLOT_LIMITS]
  unfold place at h
  split at h
  · cases instr
    all_goals
      cases h
      rfl
  · next hk =>
      have hlt := hlt (by simp [hk])
      rw [lanesTotal_vecElem hk] at hlt h
      split at h
      · exact spillAlu_lands hp hlt h
      · split at h
        · cases h
          rfl
        · exact spillAlu_lands hp hlt h
  · next hd _ =>
      dsimp only at h
      rw [if_neg (hfree hd)] at h
      cases h
      rfl

/-- A gather lands as many lanes as there are load slots, or the last ones. -/
theorem placeGather_lands (hp : p.OnlyLoads slots) (pl : Placement.Log) (i : Nat) (addrs : Option (Nat × Nat)) :
    (pl.val.lanesDone i < VLEN → VLEN ≤ pl.val.lanesDone i + slots → (placeGather p pl i VLEN addrs).1 = some true) ∧
      (pl.val.lanesDone i + slots < VLEN → (placeGather p pl i VLEN addrs).1 ≠ some true ∧
        (placeGather p pl i VLEN addrs).2.1.OnlyLoads 0 ∧ (placeGather p pl i VLEN addrs).2.2.val.lanesDone =
          Function.update pl.val.lanesDone i (pl.val.lanesDone i + slots)) := by
  have hfree : p.free .load = slots := by rw [hp, Function.update_self]
  constructor
  · intro hlt hle
    have hne : min (VLEN - pl.val.lanesDone i) slots ≠ 0 := by omega
    simp only [placeGather, hfree, if_neg hne, Option.some.injEq, decide_eq_true_eq]
    omega
  · intro hlt
    have hmin : min (VLEN - pl.val.lanesDone i) slots = slots := by omega
    simp only [placeGather, hfree, hmin]
    split
    · next hzero => simpa [hzero] using hp
    · refine ⟨by simp; omega, ?_, Placement.setLanesDone_lanesDone ..⟩
      simp only [OnlyLoads, take, hfree, Nat.sub_self]
      rw [hp, Function.update_idem]

theorem commitNode_committed {k : Nat} (h : commitNode nodes node w st = .ok (w', st')) (hk : st.committed = k) :
    st'.committed = k + 1 := by
  obtain ⟨p, -, h⟩ := bind_eq_ok.mp h
  cases h
  rw [← hk]

variable {slots : Nat}

/-- A gather with its register is completed by as many slots as it has lanes left, and else takes them all. -/
theorem runGather_lands (hidx : node.idx = i) (hk : (classify node.instr.op).kind = .gather) (hlt : w.place.val.lanesDone i < VLEN)
    (hpool : w.pool.OnlyLoads slots) (hp : (wrTags node.instr).all w.alloc.canWrite = true)
    (h : runGather rc nodes emit node w st = .ok (w', st')) :
    (VLEN ≤ w.place.val.lanesDone i + slots → st'.committed = st.committed + 1) ∧
      (w.place.val.lanesDone i + slots < VLEN → st'.committed = st.committed ∧
        (∃ fresh obl, allocWrites rc node.instr w.alloc st.obligations = .ok (some fresh, w'.alloc, obl)) ∧ w'.pool.OnlyLoads 0 ∧
        w'.place.val.lanesDone = Function.update w.place.val.lanesDone i (w.place.val.lanesDone i + slots)) := by
  have htot := lanesTotal_gather hk
  obtain ⟨⟨got, a, obl⟩, ha, h⟩ := bind_eq_ok.mp h
  have hgot : ∃ fresh, got = some fresh := by
    simp only [allocWrites, hp, if_true] at ha
    obtain ⟨x, -, ha⟩ := bind_eq_ok.mp ha
    cases ha
    exact ⟨_, rfl⟩
  obtain ⟨fresh, rfl⟩ := hgot
  dsimp only at h
  split at h
  · next heq => cases heq
  · generalize (if emit = true then _ else none) = addrs at h
    obtain ⟨hdone, hpart⟩ := placeGather_lands hpool w.place i addrs
    rw [htot, hidx] at h
    constructor
    · intro hle
      rw [if_pos (hdone hlt hle)] at h
      exact commitNode_committed h rfl
    · intro hlt'
      obtain ⟨hne, honly, hlanes⟩ := hpart hlt'
      rw [if_neg hne] at h
      cases h
      exact ⟨rfl, ⟨fresh, obl, ha⟩, honly, hlanes⟩
  · cases h

/-- Any other node with its register is completed, unless it needs a load slot and none is left. -/
theorem runRegular_lands (hidx : node.idx = i) (hk : (classify node.instr.op).kind ≠ .gather)
    (hlt : (classify node.instr.op).kind ≠ .debug → w.place.val.lanesDone i < (classify node.instr.op).lanesTotal)
    (hpool : w.pool.OnlyLoads slots) (hslot : node.instr.op.engine = .load → slots ≠ 0)
    (hp : (wrTags node.instr).all w.alloc.canWrite = true)
    (h : runRegular rc nodes emit node w st = .ok (w', st')) : st'.committed = st.committed + 1 := by
  obtain ⟨⟨got, a, obl⟩, ha, h⟩ := bind_eq_ok.mp h
  simp only [allocWrites, hp, if_true] at ha
  obtain ⟨x, -, ha⟩ := bind_eq_ok.mp ha
  cases ha
  obtain ⟨⟨res, pool, place⟩, hplace, h⟩ := bind_eq_ok.mp h
  rw [hidx] at hplace
  obtain rfl := place_lands hpool hk hslot hlt hplace
  exact commitNode_committed h rfl

/-- A node other than a gather is completed where only load slots are given out, unless it needs one and none is left. -/
theorem runNode_lands (hn : nodes[i]? = some node) (hidx : node.idx = i) (hok : w.Ok nodes prev) (hc : w.dag.val.committed i = false)
    (hg : node.instr.op.isGather = false) (hpool : w.pool.OnlyLoads slots) (hslot : node.instr.op.engine = .load → slots ≠ 0)
    (hp : placeable nodes w.alloc i = true) (h : runNode rc nodes emit (w, st) i = .ok (w', st')) :
    st'.committed = st.committed + 1 := by
  rw [placeable_eq hn] at hp
  unfold runNode at h
  rw [hn] at h
  dsimp only at h
  split at h
  · cases emit with
    | false => exact commitNode_committed h rfl
    | true =>
        obtain ⟨p, -, h⟩ := bind_eq_ok.mp h
        exact commitNode_committed h rfl
  · next hk => simp [kind_eq_gather.mp hk] at hg
  · next hk => exact runRegular_lands hidx hk (hok.lanes_pending hn hc) hpool hslot hp h

/-- The first node of a cycle that finds its registers is committed, or is a gather with two more lanes. -/
theorem runNode_progress (hn : nodes[i]? = some node) (hidx : node.idx = i) (hok : w.Ok nodes prev)
    (hc : w.dag.val.committed i = false) (hpool : w.pool = .fresh) (hp : placeable nodes w.alloc i = true)
    (h : runNode rc nodes emit (w, st) i = .ok (w', st')) : st'.committed = st.committed + 1 ∨
      (classify node.instr.op).kind = .gather ∧ w'.place.val.lanesDone i = w.place.val.lanesDone i + 2 ∧
        w.place.val.lanesDone i + 2 < VLEN := by
  have honly : w.pool.OnlyLoads 2 := hpool ▸ .fresh
  cases hg : node.instr.op.isGather with
  | false => exact .inl (runNode_lands hn hidx hok hc hg honly (fun _ => by simp) hp h)
  | true =>
      have hk := kind_eq_gather.mpr hg
      have hlt := hok.lanes_pending hn hc (by simp [hk])
      rw [lanesTotal_gather hk] at hlt
      rw [placeable_eq hn] at hp
      simp only [runNode, hn, hk] at h
      obtain ⟨hdone, hpart⟩ := runGather_lands hidx hk hlt honly hp h
      rcases Nat.lt_or_ge (w.place.val.lanesDone i + 2) VLEN with hlt' | hle
      · obtain ⟨-, -, -, hlanes⟩ := hpart hlt'
        exact .inr ⟨hk, by rw [hlanes, Function.update_self], hlt'⟩
      · exact .inl (hdone hle)

end landed
section effort

/-- How many cycles a node can still take: a gather needs one for every two lanes left. -/
def World.nodeEffort (nodes : List DNode) (w : World) (i : Nat) : Nat :=
  if w.dag.val.committed i then 0
  else if ((nodes[i]?.map fun n => n.instr.op.isGather).getD false) then (VLEN + 1 - w.place.val.lanesDone i) / 2
  else 1

def World.effort (nodes : List DNode) (w : World) : Nat := ∑ i ∈ Finset.range nodes.length, w.nodeEffort nodes i

theorem World.nodeEffort_congr (hd : v.dag.val.committed = w.dag.val.committed) (hp : v.place.val = w.place.val) (i : Nat) :
    v.nodeEffort nodes i = w.nodeEffort nodes i := by
  rw [nodeEffort, nodeEffort, hd, hp]

theorem World.effort_congr (hd : v.dag.val.committed = w.dag.val.committed) (hp : v.place.val = w.place.val) :
    v.effort nodes = w.effort nodes := Finset.sum_congr rfl fun i _ => World.nodeEffort_congr hd hp i

theorem World.nodeEffort_le (hc : ∀ j, w.dag.val.committed j = true → w'.dag.val.committed j = true)
    (hl : ∀ j, w.place.val.lanesDone j ≤ w'.place.val.lanesDone j) (i : Nat) : w'.nodeEffort nodes i ≤ w.nodeEffort nodes i := by
  have := hl i
  simp only [nodeEffort]
  cases hci : w.dag.val.committed i with
  | true => simp [hc i hci]
  | false =>
      simp only [Bool.false_eq_true, if_false]
      split
      · exact Nat.zero_le _
      · split
        · omega
        · exact Nat.le_refl _

variable {x : Option Landing} {done : Bool} {M M' : Ledger}

theorem NodeStep.committed_mono (h : NodeStep rc nodes i node.instr w x done w') (hw : Dag.WellFormed nodes)
    (hd : Dag.Inv nodes prev w.dag.val) (hf : w.dag.val.frontier i = true) (j : Nat) (hj : w.dag.val.committed j = true) :
    w'.dag.val.committed j = true := by
  rw [(h.dag_inv hw hd hf).2]
  cases done with
  | false => exact hj
  | true => simp [Function.update_apply, hj]

theorem NodeSteps.effort_le (h : NodeSteps rc nodes w M order w' M') (hw : Dag.WellFormed nodes)
    (hd : Dag.Inv nodes prev w.dag.val) : w'.effort nodes ≤ w.effort nodes := by
  induction h with
  | nil => exact Nat.le_refl _
  | cons _ hf _ hstep _ ih =>
      refine (ih (hstep.dag_inv hw hd hf).1).trans ?_
      exact Finset.sum_le_sum fun j _ => World.nodeEffort_le (hstep.committed_mono hw hd hf) hstep.lanes_mono j

/-- A commit, or two more lanes of a gather, takes something off what is left. -/
theorem NodeStep.effort_lt (h : NodeStep rc nodes i node.instr w x done w') (hw : Dag.WellFormed nodes) (hok : w.Ok nodes prev)
    (hn : nodes[i]? = some node) (hf : w.dag.val.frontier i = true)
    (hprog : done = true ∨ (classify node.instr.op).kind = .gather ∧ w'.place.val.lanesDone i = w.place.val.lanesDone i + 2 ∧
      w.place.val.lanesDone i + 2 < VLEN) : w'.effort nodes < w.effort nodes := by
  obtain ⟨hin, hci, -⟩ := hok.dag.frontier_iff.mp hf
  have hle := fun j => @World.nodeEffort_le nodes w w' (h.committed_mono hw hok.dag hf) h.lanes_mono j
  refine Finset.sum_lt_sum (fun j _ => hle j) ⟨i, Finset.mem_range.mpr hin, ?_⟩
  have hlt := hok.lanes_pending hn hci
  have hgather : (nodes[i]?.map fun n => n.instr.op.isGather).getD false = node.instr.op.isGather := by simp [hn]
  have hkind := @FuncUnitPool.kind_eq_gather _ node.instr.op
  rcases hprog with rfl | ⟨hk, hl, hlt'⟩
  · have hzero : w'.nodeEffort nodes i = 0 := by
      rw [World.nodeEffort, (h.dag_inv hw hok.dag hf).2]
      simp
    rw [hzero, World.nodeEffort, hci, hgather]
    simp only [Bool.false_eq_true, if_false]
    split
    · next hg =>
        have := hlt (by simp [hkind.mpr hg])
        rw [FuncUnitPool.lanesTotal_gather (hkind.mpr hg)] at this
        omega
    · exact Nat.one_pos
  · have hg := hkind.mp hk
    simp only [World.nodeEffort, hci, hgather, hg, hl, Bool.false_eq_true, if_false, if_true]
    split
    · simp only [VLEN] at *
      omega
    · omega

/-- A cycle either passes over all its nodes, or takes something off what is left. -/
theorem runNodes_effort (hw : Dag.WellFormed nodes) (h1 : OneWriter nodes rc) (hnd : order.Nodup) (hok : w.Ok nodes prev)
    (hf : ∀ i ∈ order, w.dag.val.frontier i = true) (hpool : w.pool = .fresh)
    (hrun : order.foldlM (runNode rc nodes emit) (w, st) = .ok (w', st')) :
    (∀ i ∈ order, placeable nodes w.alloc i = false) ∨ w'.effort nodes < w.effort nodes := by
  induction order generalizing w with
  | nil => exact .inl fun i hi => by cases hi
  | cons i order ih =>
      obtain ⟨hio, hnd⟩ := List.nodup_cons.mp hnd
      have hfi := hf i (by simp)
      obtain ⟨node, hn⟩ := getElem?_of_frontier hok.dag hfi
      rw [List.foldlM_cons] at hrun
      cases hp : placeable nodes w.alloc i with
      | false =>
          rw [runNode_refused hn hp, bind_ok] at hrun
          have hok' : ({ w with alloc := w.alloc.warn } : World).Ok nodes prev := hok.of_vals rfl rfl rfl
          refine (ih hnd hok' (fun j hj => hf j (by simp [hj])) hpool hrun).imp_left fun hall j hj => ?_
          rcases List.mem_cons.mp hj with rfl | hj
          · exact hp
          · exact hall j hj
      | true =>
          right
          obtain ⟨⟨w₁, st₁⟩, h₁, hrun⟩ := bind_eq_ok.mp hrun
          have hidx := hw.idx hn
          have hci := (hok.dag.frontier_iff.mp hfi).2.1
          have hfit : FuncUnitPool.Fit emit (fun _ => none) w.pool := hpool ▸ FuncUnitPool.Fit.fresh emit
          have hprog := runNode_progress hn hidx hok hci hpool hp h₁
          rcases runNode_ok rc emit hn hidx hok hci rfl hfit st with ⟨x, done, w₂, st₂, h₂, hstep, hfit₁, hst⟩ | ⟨-, -, -, -, herr⟩
          · cases h₁.symm.trans h₂
            rw [hidx] at hstep hfit₁
            have hlt := hstep.effort_lt hw hok hn hfi (hprog.imp_left fun hc => by
              rw [hc] at hst
              cases done with
              | false => simp at hst
              | true => rfl)
            have hok₁ := hstep.ok hw h1 hn hok hfi
            have hdue := hstep.due hw hok.dag hio fun j hj => ⟨hf j hj, rfl⟩
            rcases runNodes_ok hw h1 emit hnd hok₁ hdue hfit₁ st₁ with ⟨w₃, st₃, M', h₃, hsteps, -⟩ | ⟨-, herr⟩
            · cases hrun.symm.trans h₃
              exact (hsteps.effort_le hw hok₁.dag).trans_lt hlt
            · cases hrun.symm.trans herr
          · cases h₁.symm.trans herr

/-- A cycle over an order of the ready nodes either finds no registers for any of them and changes no table, or takes
something off what is left. -/
theorem runCycle_effort (hw : Dag.WellFormed nodes) (h1 : OneWriter nodes rc) (hok : w.Ok nodes prev) (ho : Orders nodes.length w order)
    (hpool : w.pool = .fresh) (hrun : runCycle rc nodes emit order w = .ok (w', st')) :
    ((∀ i ∈ order, placeable nodes w.alloc i = false) ∧ st'.committed = 0 ∧ ∃ b, b.tab = w.alloc.tab ∧ w' = { w with alloc := b }) ∨
      w'.effort nodes < w.effort nodes := by
  rw [runCycle_eq] at hrun
  cases hnodes : order.foldlM (runNode rc nodes emit) (w, .zero) with
  | error e =>
      rw [hnodes] at hrun
      cases hrun
  | ok p =>
      rw [hnodes] at hrun
      cases hrun
      refine (runNodes_effort hw h1 ho.nodup hok (fun i hi => ho.frontier hi) hpool hnodes).imp_left fun hall => ⟨hall, ?_⟩
      obtain ⟨b, hb, hrun⟩ := @runNodes_refused rc nodes w emit order
        (fun i hi => ⟨(hok.dag.frontier_iff.mp (ho.frontier hi)).1, hall i hi⟩) .zero
      cases hnodes.symm.trans hrun
      exact ⟨rfl, b, hb, rfl⟩

theorem World.effort_pos (hok : w.Ok nodes prev) (h : w.count nodes.length < nodes.length) : 0 < w.effort nodes := by
  obtain ⟨i, hi, hc⟩ : ∃ i < nodes.length, w.dag.val.committed i = false := by
    by_contra hall
    push Not at hall
    have hcount : (List.range nodes.length).countP w.dag.val.committed = (List.range nodes.length).length :=
      List.countP_eq_length.mpr fun i hi => by simpa using hall i (List.mem_range.mp hi)
    rw [World.count, hcount, List.length_range] at h
    exact absurd h (Nat.lt_irrefl _)
  refine Finset.sum_pos' (fun _ _ => Nat.zero_le _) ⟨i, Finset.mem_range.mpr hi, ?_⟩
  have hn := List.getElem?_eq_getElem hi
  have hlt := hok.lanes_pending hn hc
  simp only [nodeEffort, hc, hn, Option.map_some, Option.getD_some, Bool.false_eq_true, if_false]
  split
  · next hg =>
      have hk := FuncUnitPool.kind_eq_gather.mpr hg
      have := hlt (by simp [hk])
      rw [FuncUnitPool.lanesTotal_gather hk] at this
      omega
  · exact Nat.one_pos

def gathers (is : List (Instr Operand)) : Nat := is.countP fun ins => ins.op.isGather

theorem World.effort_start (hc : ∀ i, w.dag.val.committed i = false) (hl : ∀ i, w.place.val.lanesDone i = 0) :
    w.effort nodes = nodes.length + 3 * gathers (nodes.map DNode.instr) := by
  simp only [effort, nodeEffort, hc, hl, Bool.false_eq_true, if_false, gathers]
  induction nodes using List.reverseRecOn with
  | nil => rfl
  | append_singleton l n ih =>
      have hrange : ∀ i ∈ Finset.range l.length, ((l ++ [n])[i]?.map fun n => n.instr.op.isGather) =
          l[i]?.map fun n => n.instr.op.isGather := by
        intro i hi
        rw [List.getElem?_append_left (Finset.mem_range.mp hi)]
      rw [List.length_append, List.length_singleton, Finset.sum_range_succ, List.map_append, List.countP_append,
        Finset.sum_congr rfl fun i hi => by rw [hrange i hi], ih]
      cases hg : n.instr.op.isGather
      all_goals
        simp [hg, VLEN]
        try omega

end effort
end Vliw
