import VliwKernel.Schedule.Latency
import Mathlib.Data.List.NodupEquivFin

/-!
# Every emitted bundle is legal, every node is emitted once

Slot limits, disjoint writes and scratch bounds in each bundle, and over the whole list the slots of
each node: one whole slot, or all its lanes once and in order.
-/

namespace Vliw
open RegisterAllocator

variable {pinned : List String} {is : List (Instr Operand)} {rc : Sym → Option Int} {dag : Dag}
  {prev : Nat → Bool} {w w' : World} {c : CycleRecord} {i : Nat} {l : Landing} {node : DNode}

def TaggedBundle.slotsOf (b : TaggedBundle) (e : Engine) : List TaggedSlot := (b.get? e).getD []

/-- No engine but debug has more slots than its limit. -/
def TaggedBundle.WithinLimits (b : TaggedBundle) : Prop := ∀ {e}, e ≠ .debug → (b.slotsOf e).length ≤ SLOT_LIMITS e

/-- No two slots write a common word, and none writes outside the registers. -/
structure TaggedBundle.Separate (b : TaggedBundle) : Prop where
  disjoint : ∀ {e e' : Engine} {p q : Nat} {s s' : TaggedSlot}, (b.slotsOf e)[p]? = some s → (b.slotsOf e')[q]? = some s' →
    (e, p) ≠ (e', q) → ∀ {wd}, wd ∈ s.slot.writes e → wd ∉ s'.slot.writes e'
  bounds : ∀ {e s wd}, s ∈ b.slotsOf e → wd ∈ s.slot.writes e → VLEN ≤ wd ∧ wd < SCRATCH_SIZE

theorem slotsOf_emitted (b : Dict Engine (List Entry)) (e : Engine) :
    (emitted b).slotsOf e = (FuncUnitPool.slots b e).map Entry.lowered := by
  cases hb : b.get? e with
  | none =>
      have hnone : (emitted b).get? e = none := by
        cases hg : (emitted b).get? e with
        | none => rfl
        | some ss =>
            have hmem := Dict.mem_items.mpr hg
            rw [items_emitted] at hmem
            obtain ⟨⟨e', es⟩, hes, heq⟩ := List.mem_map.mp hmem
            obtain ⟨rfl, -⟩ := Prod.mk.inj heq
            rw [Dict.mem_items.mp hes] at hb
            cases hb
      simp [TaggedBundle.slotsOf, FuncUnitPool.slots, hb, hnone]
  | some es =>
      have hmem : (e, es.map Entry.lowered) ∈ (emitted b).items := by
        rw [items_emitted]
        exact List.mem_map.mpr ⟨(e, es), Dict.mem_items.mpr hb, rfl⟩
      simp [TaggedBundle.slotsOf, FuncUnitPool.slots, hb, Dict.mem_items.mp hmem]

/-- Two places of a list that hold the same element keep it from being free of duplicates. -/
theorem not_nodup_filter {α : Type} {xs : List α} {p q : Nat} {x : α} {f : α → Bool} (hp : xs[p]? = some x)
    (hq : xs[q]? = some x) (hpq : p ≠ q) (hf : f x = true) : ¬ (xs.filter f).Nodup := by
  intro hnd
  have hdup : List.Duplicate x xs := by
    obtain ⟨hpl, hpx⟩ := List.getElem?_eq_some_iff.mp hp
    obtain ⟨hql, hqx⟩ := List.getElem?_eq_some_iff.mp hq
    rw [List.duplicate_iff_exists_distinct_get]
    rcases Nat.lt_or_gt_of_ne hpq with hlt | hlt
    · exact ⟨⟨p, hpl⟩, ⟨q, hql⟩, hlt, hpx.symm, hqx.symm⟩
    · exact ⟨⟨q, hql⟩, ⟨p, hpl⟩, hlt, hqx.symm, hpx.symm⟩
  have hsub := (List.duplicate_iff_sublist.mp hdup).filter f
  simp only [List.filter_cons, hf, if_true, List.filter_nil] at hsub
  exact List.nodup_iff_sublist.mp hnd x hsub

/-- The entries of one node of a bundle are distinct and on one engine, a single one or lanes. -/
theorem FuncUnitPool.Realised.distinct {b : Dict Engine (List Entry)} (h : FuncUnitPool.Realised b i l) :
    (∀ e, (FuncUnitPool.ofNode b e i).Nodup) ∧
      ∀ e e' x y, x ∈ FuncUnitPool.ofNode b e i → y ∈ FuncUnitPool.ofNode b e' i → e = e' ∧
        (x = y ∨ ∃ j k, x = .lane i j (laneSlot l.instr j) ∧ y = .lane i k (laneSlot l.instr k)) := by
  cases h with
  | whole _ _ _ hw =>
      refine ⟨fun e => ?_, fun e e' x y hx hy => ?_⟩
      · rw [hw]
        split <;> simp
      · rw [hw] at hx hy
        split at hx
        · next he =>
            split at hy
            · next he' =>
                refine ⟨he.trans he'.symm, .inl ?_⟩
                rw [List.mem_singleton.mp hx, List.mem_singleton.mp hy]
            · cases hy
        · cases hx
  | lanes _ hl =>
      refine ⟨fun e => ?_, fun e e' x y hx hy => ?_⟩
      · rw [hl]
        split
        · refine (List.nodup_range' _).map_on fun j _ j' _ hjj => ?_
          cases hjj
          rfl
        · exact List.nodup_nil
      · rw [hl] at hx hy
        split at hx
        · next he =>
            split at hy
            · next he' =>
                obtain ⟨j, -, rfl⟩ := List.mem_map.mp hx
                obtain ⟨k, -, rfl⟩ := List.mem_map.mp hy
                exact ⟨he.trans he'.symm, .inr ⟨j, k, rfl, rfl⟩⟩
            · cases hy
        · cases hx

theorem Cycle.withinLimits {nodes : List DNode} (hc : Cycle rc nodes w c w') : (emitted c.bundle).WithinLimits := by
  intro e he
  rw [slotsOf_emitted, List.length_map]
  exact (Nat.le_add_left _ _).trans_eq (hc.inv.free he)

theorem Cycle.separate (hc : Cycle rc dag.nodes w c w') (hb : Built pinned is rc dag) (h : w.Live pinned dag.nodes prev)
    (hs : ∀ ins ∈ is, ins.op.DestShaped) : (emitted c.bundle).Separate := by
  obtain ⟨-, -, hstop, -⟩ := hc.live hb h
  constructor
  case bounds =>
    intro e s wd hsm hwd
    rw [slotsOf_emitted] at hsm
    obtain ⟨x, hx, rfl⟩ := List.mem_map.mp hsm
    obtain ⟨d, a, -, -, ha, hlo, hhi, -⟩ := hc.writes_own hb h hs hx hwd
    have := hstop.alloc.bounds ha
    omega
  case disjoint =>
    intro e e' p q s s' hp hq hne wd hwd hwd'
    rw [slotsOf_emitted, List.getElem?_map, Option.map_eq_some_iff] at hp hq
    obtain ⟨x, hx, rfl⟩ := hp
    obtain ⟨y, hy, rfl⟩ := hq
    have hxm := List.mem_of_getElem? hx
    have hym := List.mem_of_getElem? hy
    obtain ⟨d, a, hw, hpd, ha, hlo, hhi, hlane⟩ := hc.writes_own hb h hs hxm hwd
    obtain ⟨d', a', hw', -, ha', hlo', hhi', hlane'⟩ := hc.writes_own hb h hs hym hwd'
    obtain rfl := hstop.alloc.disjoint ha ha' ⟨hlo, hhi⟩ ⟨hlo', hhi'⟩
    have hnode : x.node = y.node := hb.tagged.unique hpd hw hw'
    cases ha.symm.trans ha'
    -- both slots are of one node and write the same word, so they are the same entry
    obtain ⟨l, hM, -⟩ := hc.inv.entry hxm
    obtain ⟨hnd, hsame⟩ := (hc.inv.realised hM).distinct
    obtain ⟨rfl, hxy⟩ := hsame e e' x y (FuncUnitPool.mem_ofNode.mpr ⟨hxm, rfl⟩)
      (FuncUnitPool.mem_ofNode.mpr ⟨hym, hnode.symm⟩)
    obtain rfl : x = y := by
      rcases hxy with hxy | ⟨j, k, hxe, hye⟩
      · exact hxy
      · have h₁ := hlane hxe
        have h₂ := hlane' (hnode ▸ hye)
        obtain rfl : j = k := by omega
        rw [hxe, hye]
    refine not_nodup_filter hx hy (fun hpq => hne (by rw [hpq])) ?_ (hnd e)
    simp

section once

def Engine.all : List Engine := [.alu, .valu, .load, .store, .flow, .debug]

def bundleEntries (b : Dict Engine (List Entry)) (i : Nat) : List (Engine × Entry) :=
  Engine.all.flatMap fun e => (FuncUnitPool.ofNode b e i).map (Prod.mk e)

def entriesOf (bs : List (Dict Engine (List Entry))) (i : Nat) : List (Engine × Entry) :=
  bs.flatMap fun b => bundleEntries b i

theorem bundleEntries_eq {b : Dict Engine (List Entry)} {e₀ : Engine} {es : List Entry}
    (h : ∀ e, FuncUnitPool.ofNode b e i = if e = e₀ then es else []) : bundleEntries b i = es.map (Prod.mk e₀) := by
  simp only [bundleEntries, h, Engine.all]
  cases e₀ <;> simp

theorem bundleEntries_nil {b : Dict Engine (List Entry)} (h : ∀ e, FuncUnitPool.ofNode b e i = []) :
    bundleEntries b i = [] := by
  simp [bundleEntries, h]

/-- The first `n` lanes of a split instruction, as entries with their engine. -/
def lanePrefix (i : Nat) (r : Instr Reg) (n : Nat) : List (Engine × Entry) :=
  (List.range n).map fun j => (laneEngine r, .lane i j (laneSlot r j))

theorem lanePrefix_append (i : Nat) (r : Instr Reg) {lo hi : Nat} (h : lo ≤ hi) :
    lanePrefix i r lo ++ (laneEntries i r lo (hi - lo)).map (Prod.mk (laneEngine r)) = lanePrefix i r hi := by
  rw [lanePrefix, lanePrefix, laneEntries, List.map_map, List.range_eq_range', List.range_eq_range',
    show List.range' 0 hi = List.range' 0 lo ++ List.range' lo (hi - lo) by
      rw [show hi = lo + (hi - lo) by omega, ← List.range'_append_1, Nat.zero_add, Nat.add_sub_cancel_left], List.map_append]
  rfl

/-- `r` is the instruction with the registers that its tags hold in `w`. -/
def Resolved (pinned : List String) (ins : Instr Operand) (w : World) (r : Instr Reg) : Prop :=
  ∃ b : RegisterAllocator, r = placedInstr ins b ∧
    (∀ o ∈ ins.readOperands, if isPinned pinned o.base then b.tab.val.assigned o.base = none else
      ∃ a, b.tab.val.assigned o.base = some a ∧ w.alloc.tab.val.assigned o.base = some a) ∧
    ∀ d, ins.op.dest? = some d → ∃ a, b.tab.val.assigned d.base = some a ∧ w.alloc.tab.val.assigned d.base = some a

theorem Resolved.unique {ins : Instr Operand} {r r' : Instr Reg} (h : Resolved pinned ins w r) (h' : Resolved pinned ins w r') :
    r = r' := by
  obtain ⟨b, rfl, hrd, hd⟩ := h
  obtain ⟨b', rfl, hrd', hd'⟩ := h'
  have hread : ∀ o ∈ ins.readOperands, b.tab.val.assigned o.base = b'.tab.val.assigned o.base := by
    intro o ho
    have h₁ := hrd o ho
    have h₂ := hrd' o ho
    split at h₁
    · next hp =>
        rw [if_pos hp] at h₂
        rw [h₁, h₂]
    · next hp =>
        rw [if_neg hp] at h₂
        obtain ⟨a, ha, haw⟩ := h₁
        obtain ⟨a', ha', haw'⟩ := h₂
        rw [ha, ha', ← haw, ← haw']
  have hdest : ∀ d, ins.op.dest? = some d → b.tab.val.assigned d.base = b'.tab.val.assigned d.base := by
    intro d hdd
    obtain ⟨a, ha, haw⟩ := hd d hdd
    obtain ⟨a', ha', haw'⟩ := hd' d hdd
    rw [ha, ha', ← haw, ← haw']
  refine congrArg (Instr.mk ins.rid) (Op.rebuild_congr (fun o ho => ?_) fun d hdd => ?_)
  · rw [addrOf, addrOf, hread o ho]
  · congr 1
    split
    · rw [addrOf, addrOf, show (Operand.sym d.base).base = d.base from rfl, hdest d hdd]
    · rw [addrOf, addrOf, hdest d hdd]

theorem Resolved.leads {v : World} {r : Instr Reg} (h : Resolved pinned node.instr w r) (hn : dag.nodes[i]? = some node)
    (hl : w.Leads dag.nodes v) (hc : v.dag.val.committed i = false)
    (hd : ∀ d a, node.instr.op.dest? = some d → w.alloc.tab.val.assigned d.base = some a → v.Awaited dag.nodes d.base) :
    Resolved pinned node.instr v r := by
  obtain ⟨b, hr, hrd, hdest⟩ := h
  refine ⟨b, hr, fun o ho => ?_, fun d hdd => ?_⟩
  · have := hrd o ho
    split at this
    · next hp => rwa [if_pos hp]
    · next hp =>
        rw [if_neg hp]
        obtain ⟨a, ha, haw⟩ := this
        exact ⟨a, ha, hl.keeps haw (World.awaited_of_reader hn ho hc)⟩
  · obtain ⟨a, ha, haw⟩ := hdest d hdd
    exact ⟨a, ha, hl.keeps haw (hd d a hdd haw)⟩

/-- How far a node has been emitted, and what its slots are. -/
inductive EmittedTo (pinned : List String) (i : Nat) (ins : Instr Operand) (w : World) (xs : List (Engine × Entry)) : Prop
  | none : w.place.val.lanesDone i = 0 → w.dag.val.committed i = false → xs = [] → EmittedTo pinned i ins w xs
  | whole (b : RegisterAllocator) : w.dag.val.committed i = true → ins.op.isGather = false →
      xs = [(ins.engine, .whole i (placedInstr ins b))] → EmittedTo pinned i ins w xs
  | lanes (b : RegisterAllocator) : (classify ins.op).kind = .vecElem ∨ (classify ins.op).kind = .gather →
      0 < w.place.val.lanesDone i → xs = lanePrefix i (placedInstr ins b) (w.place.val.lanesDone i) →
      (w.dag.val.committed i = false → Resolved pinned ins w (placedInstr ins b)) → EmittedTo pinned i ins w xs

theorem Cycle.unlanded (hc : Cycle rc dag.nodes w c w') (hb : Built pinned is rc dag) (h : w.Live pinned dag.nodes prev)
    (hM : c.ledger i = none) : c.stop.place.val.lanesDone i = c.start.place.val.lanesDone i ∧
      c.stop.dag.val.committed i = c.start.dag.val.committed i := by
  obtain ⟨hstart, -⟩ := hc.live hb h
  by_cases hio : i ∈ c.order
  · obtain ⟨node, x, done, v, v', pre, post, Mv, -, -, -, -, -, hstep, -, hx, hlo, hhi, hcs⟩ :=
      hc.steps.step_of_mem hb.graph.wf hb.oneWriter hstart.toOk hc.orders.nodup hio
    obtain rfl : x = none := hx.symm.trans hM
    obtain ⟨rfl, -, hplace, -⟩ := hstep.none_eq
    refine ⟨by rw [hhi, hplace, hlo], ?_⟩
    rw [hcs, (hstart.dag.frontier_iff.mp (hc.orders.frontier hio)).2.1]
  · exact (hc.steps.frame hb.graph.wf hstart.dag (.inl hio)).2

theorem Landed.resolved {b : RegisterAllocator} (hl : Landed pinned is dag.nodes c i l node b) (hc : Cycle rc dag.nodes w c w')
    (hb : Built pinned is rc dag) (h : w.Live pinned dag.nodes prev) :
    (c.stop.dag.val.committed i = false → Resolved pinned node.instr c.stop (placedInstr node.instr b)) ∧
    ∀ {r}, Resolved pinned node.instr c.start r → r = placedInstr node.instr b := by
  obtain ⟨hstart, -, hstop, hlead, -⟩ := hc.live hb h
  refine ⟨fun hcs => ⟨b, rfl, fun o ho => ?_, fun d hd => (hl.dest hd).2⟩, fun {r} hr => ?_⟩
  · split
    · next hp => exact hl.zero hp
    · next hp =>
        obtain ⟨a, ha, hab⟩ := hl.reads ho (eq_false_of_ne_true hp)
        exact ⟨a, hab, hlead.keeps ha (World.awaited_of_reader hl.get ho hcs)⟩
  · refine hr.unique ⟨b, rfl, fun o ho => ?_, fun d hd => ?_⟩
    · split
      · next hp => exact hl.zero hp
      · next hp =>
          obtain ⟨a, ha, hab⟩ := hl.reads ho (eq_false_of_ne_true hp)
          exact ⟨a, hab, ha⟩
    · obtain ⟨hp, a, ha, has⟩ := hl.dest hd
      obtain ⟨_, -, -, hrd⟩ := hr
      obtain ⟨a', -, ha'⟩ := hrd d hd
      have hprev := hstart.dag.prev_false hl.frontier
      have := hlead.keeps ha' (hstop.awaited_dest hb (hb.writesTag hl.get hd) hp hprev)
      rw [has] at this
      exact ⟨a, ha, this ▸ ha'⟩

theorem Cycle.emittedTo (hc : Cycle rc dag.nodes w c w') (hb : Built pinned is rc dag) (h : w.Live pinned dag.nodes prev)
    (hn : dag.nodes[i]? = some node) {xs : List (Engine × Entry)} (he : EmittedTo pinned i node.instr w xs) :
    EmittedTo pinned i node.instr w' (xs ++ bundleEntries c.bundle i) := by
  obtain ⟨hstart, hws, hstop, hlead, hend, hlast⟩ := hc.live hb h
  have hsd : c.start.dag = w.dag := hc.like.dag
  have hsp : c.start.place = w.place := hc.like.place
  obtain ⟨u, hu, -, -, hcomm, hplace, -⟩ := hstop.toOk.endCycle
  cases hc.ends.symm.trans hu
  have hawait : w'.dag.val.committed i = false → ∀ {v : World}, v.Live pinned dag.nodes prev → ∀ d a,
      node.instr.op.dest? = some d → v.alloc.tab.val.assigned d.base = some a → w'.Awaited dag.nodes d.base :=
    fun hci v hv d a hd ha => hend.awaited_dest hb (hb.writesTag hn hd) (hv.owner ha).1 hci
  cases hM : c.ledger i with
  | none =>
      obtain ⟨hl, hcs⟩ := hc.unlanded hb h hM
      rw [hsp] at hl
      rw [hsd] at hcs
      rw [bundleEntries_nil (hc.inv.absent hM), List.append_nil]
      cases he with
      | none h0 hc0 hxs => exact .none (by rw [hplace, hl, h0]) (by rw [hcomm, hcs, hc0]) hxs
      | whole b hc1 hg hxs => exact .whole b (by rw [hcomm, hcs, hc1]) hg hxs
      | lanes b hk hpos hxs hr =>
          refine .lanes b hk (by rw [hplace, hl]; exact hpos) (by rw [hplace, hl]; exact hxs) fun hci => ?_
          refine (hr (by rw [← hcs, ← hcomm]; exact hci)).leads hn ((hws.trans hlead).trans hlast) hci (hawait hci h)
  | some l =>
      obtain ⟨m, b, hl⟩ := hc.landed hb h hM
      cases hn.symm.trans hl.get
      have hcl := classify_placedInstr node.instr b
      rw [← hl.instr] at hcl
      have hlo : l.lo = w.place.val.lanesDone i := by rw [hl.lo, hsp]
      have hhi : l.hi = w'.place.val.lanesDone i := by rw [hl.hi, hplace]
      obtain ⟨hres, huniq⟩ := hl.resolved hc hb h
      have hcs : w'.dag.val.committed i = true ↔ l.hi = (classify node.instr.op).lanesTotal := by
        rw [hcomm]
        exact hl.complete
      have hwc : w.dag.val.committed i = false := hsd ▸ hl.uncommitted
      have hlast' : w'.dag.val.committed i = false → Resolved pinned node.instr w' (placedInstr node.instr b) := fun hci =>
        (hres (hcomm ▸ hci)).leads hn hlast hci (hawait hci hstop)
      have hpart : (classify node.instr.op).kind = .vecElem ∨ (classify node.instr.op).kind = .gather → l.lo < l.hi := by
        intro hk
        rcases hl.progress with hlt | hdbg
        · exact hlt
        · rcases hk with hk | hk <;> simp [hdbg] at hk
      cases hc.inv.realised hM with
      | whole h0 htot hk hw =>
          rw [hcl] at htot hk
          have hg : node.instr.op.isGather = false := by
            rwa [ne_eq, FuncUnitPool.kind_eq_gather, Bool.not_eq_true] at hk
          have heng : l.instr.engine = node.instr.engine := by
            rw [hl.instr]
            exact Op.engine_rebuild _ _ _
          rw [bundleEntries_eq hw, heng, hl.instr, List.map_singleton]
          cases he with
          | none _ _ hxs => exact .whole b (hcs.mpr htot) hg (by rw [hxs, List.nil_append])
          | whole _ hc1 _ _ =>
              rw [hwc] at hc1
              cases hc1
          | lanes _ _ hpos _ _ => omega
      | lanes hk hlanes =>
          rw [hcl] at hk
          have hlt := hpart hk
          rw [bundleEntries_eq hlanes]
          cases he with
          | none h0 _ hxs =>
              refine .lanes b hk (by omega) ?_ hlast'
              have := lanePrefix_append i l.instr (Nat.le_of_lt hlt)
              rw [hxs, List.nil_append, ← hhi, ← hl.instr, ← this, hlo, h0]
              rfl
          | whole _ hc1 _ _ =>
              rw [hwc] at hc1
              cases hc1
          | lanes b' _ hpos hxs hr =>
              have heq : placedInstr node.instr b' = placedInstr node.instr b := by
                refine huniq ((hr hwc).leads hn hws hl.uncommitted fun d a hd ha => ?_)
                exact hstart.awaited_dest hb (hb.writesTag hn hd) (h.owner ha).1 (hstart.dag.prev_false hl.frontier)
              refine .lanes b hk (by omega) ?_ hlast'
              rw [hxs, heq, ← hhi, ← hl.instr, ← hlo]
              exact lanePrefix_append i l.instr (Nat.le_of_lt hlt)

theorem Cycles.emittedTo {cs : List CycleRecord} (hcs : Cycles rc dag.nodes w cs w') (hb : Built pinned is rc dag)
    (h : w.Live pinned dag.nodes w.dag.val.committed) (hn : dag.nodes[i]? = some node) {xs : List (Engine × Entry)}
    (he : EmittedTo pinned i node.instr w xs) :
    EmittedTo pinned i node.instr w' (xs ++ entriesOf (cs.map CycleRecord.bundle) i) := by
  induction hcs generalizing xs with
  | nil => simpa [entriesOf] using he
  | cons hc _ ih =>
      obtain ⟨-, -, -, -, hend, -⟩ := hc.live hb h
      have := ih hend (hc.emittedTo hb h hn he)
      simpa [entriesOf] using this

/-- A node's slots over the whole list: one on its own engine, or its eight lanes in order. -/
inductive RealisedOnce (i : Nat) (ins : Instr Operand) (xs : List (Engine × Entry)) : Prop
  | whole (b : RegisterAllocator) : ins.op.isGather = false → xs = [(ins.engine, .whole i (placedInstr ins b))] →
      RealisedOnce i ins xs
  | elem (b : RegisterAllocator) : (classify ins.op).kind = .vecElem →
      xs = (List.range VLEN).map (fun j => (.alu, .lane i j (laneSlot (placedInstr ins b) j))) → RealisedOnce i ins xs
  | gather (dest addr : Nat) : ins.op.isGather = true →
      xs = (List.range VLEN).map (fun j => (.load, .lane i j ⟨.load (dest + j) (addr + j), none⟩)) → RealisedOnce i ins xs

theorem EmittedTo.realisedOnce {xs : List (Engine × Entry)} (he : EmittedTo pinned i node.instr w xs)
    (hok : w.Ok dag.nodes prev) (hn : dag.nodes[i]? = some node) (hc : w.dag.val.committed i = true) :
    RealisedOnce i node.instr xs := by
  cases he with
  | none _ hc0 _ =>
      rw [hc] at hc0
      cases hc0
  | whole b _ hg hxs => exact .whole b hg hxs
  | lanes b hk _ hxs _ =>
      have hdone := hok.lanes_done hn hc
      rcases hk with hk | hk
      · have htot := FuncUnitPool.lanesTotal_vecElem hk
        have hg : (placedInstr node.instr b).op.isGather = false := by
          rw [← Bool.not_eq_true, ← FuncUnitPool.kind_eq_gather, classify_placedInstr, hk]
          simp
        refine .elem b hk ?_
        rw [hxs, hdone, htot, lanePrefix]
        simp only [laneEngine, hg, Bool.false_eq_true, if_false]
      · have hg := FuncUnitPool.kind_eq_gather.mp hk
        rw [FuncUnitPool.lanesTotal_gather hk] at hdone
        rw [hdone, lanePrefix] at hxs
        cases hop : node.instr.op with
        | gather dest addr =>
            refine .gather (b.addrOf (.sym dest.base)) (b.addrOf addr) hg (hxs.trans ?_)
            simp only [placedInstr, Instr.rebuild, hop, Op.rebuild, laneEngine, laneSlot, Op.isGather, if_true]
        | _ => simp [hop, Op.isGather] at hg

/-- The bundles that a scheduler returns realise each node once and nothing else. -/
theorem Cycles.realises (hb : Built pinned is rc dag) {cs : List CycleRecord} {k : Nat} (hcs : Cycles rc dag.nodes (.start dag .init) cs w)
    (hk : dag.nodes.length ≤ k) (hcount : k = w.count dag.nodes.length) :
    (∀ {i node}, dag.nodes[i]? = some node → RealisedOnce i node.instr (entriesOf (cs.map CycleRecord.bundle) i)) ∧
      ∀ {b e x}, b ∈ cs.map CycleRecord.bundle → x ∈ FuncUnitPool.slots b e → x.node < dag.nodes.length := by
  have h := hb.start_live.1
  obtain ⟨hw, -⟩ := hcs.live hb h
  refine ⟨fun {i node} hn => ?_, fun {b e x} hbm hx => ?_⟩
  · have hin := (List.getElem?_eq_some_iff.mp hn).1
    have hst : (World.start dag .init).dag = ⟨.initial dag.nodes, none⟩ := hb.graph.st
    have he := hcs.emittedTo hb h hn (.none rfl (by rw [hst]; rfl) rfl)
    exact he.realisedOnce hw.toOk hn (committed_of_count (hcount ▸ hk) hin)
  · obtain ⟨c, hc, rfl⟩ := List.mem_map.mp hbm
    obtain ⟨m, hm⟩ := List.getElem?_of_mem hc
    obtain ⟨u, v, hu, -, hcyc, -, -⟩ := hcs.at_index hb h hm
    obtain ⟨l, hM, -⟩ := hcyc.inv.entry hx
    obtain ⟨node, b, hl⟩ := hcyc.landed hb hu hM
    exact (List.getElem?_eq_some_iff.mp hl.get).1

end once

/-- The bundles that a scheduler returns for a tagged program: each keeps the slot limits and, if
destinations have the shape that their operations write, no two of its slots write a common word and
none outside the registers; over the whole list each node is realised once, and nothing else is. -/
theorem bundles_legal {bs : List TaggedBundle} (ht : Tagged pinned is rc) (hdag : buildDag is pinned = .ok dag)
    (hsched : Scheduled rc dag bs) :
    (∀ b ∈ bs, b.WithinLimits) ∧ ((∀ ins ∈ is, ins.op.DestShaped) → ∀ b ∈ bs, b.Separate) ∧
      ∃ es : List (Dict Engine (List Entry)), bs = es.map emitted ∧
        (∀ {i node}, dag.nodes[i]? = some node → RealisedOnce i node.instr (entriesOf es i)) ∧
        ∀ {b e x}, b ∈ es → x ∈ FuncUnitPool.slots b e → x.node < dag.nodes.length := by
  have hb : Built pinned is rc dag := ⟨ht, .of_ok ht.toSingleWriter hdag⟩
  obtain ⟨w, k, hrun, hk⟩ := hsched.run
  obtain ⟨cs, rfl, hcs, hcount⟩ := hrun.cycles hb
  have hcycle : ∀ c ∈ cs, ∃ u v, u.Live pinned dag.nodes u.dag.val.committed ∧ Cycle rc dag.nodes u c v := by
    intro c hc
    obtain ⟨m, hm⟩ := List.getElem?_of_mem hc
    obtain ⟨u, v, hu, -, hc, -, -⟩ := hcs.at_index hb hb.start_live.1 hm
    exact ⟨u, v, hu, hc⟩
  refine ⟨fun b hbm => ?_, fun hs b hbm => ?_, cs.map CycleRecord.bundle, by simp, hcs.realises hb hk hcount⟩
  · obtain ⟨c, hc, rfl⟩ := List.mem_map.mp hbm
    obtain ⟨u, v, -, hcyc⟩ := hcycle c hc
    exact hcyc.withinLimits
  · obtain ⟨c, hc, rfl⟩ := List.mem_map.mp hbm
    obtain ⟨u, v, hu, hcyc⟩ := hcycle c hc
    exact hcyc.separate hb hu hs

theorem bundles_legal_small : ∃ is rc dag bs, tagRawChains smallProgram PINNED = .ok (is, rc) ∧
    buildDag is PINNED = .ok dag ∧ Scheduled rc dag bs ∧ bs.length = 4 ∧ (∀ b ∈ bs, b.Separate) := by
  have hrun : (do
      let (is, rc) ← tagRawChains smallProgram PINNED
      let dag ← buildDag is PINNED
      let (bs, _) ← schedule dag rc (weightedPicker dag smallWeights) none .init
      .ok (is.all fun ins => decide ins.op.Shaped, bs.length)) = (.ok (true, 4) : Except PyErr (Bool × Nat)) := by
    decide +kernel
  obtain ⟨⟨is, rc⟩, htag, hrun⟩ := bind_eq_ok.mp hrun
  obtain ⟨dag, hdag, hrun⟩ := bind_eq_ok.mp hrun
  obtain ⟨⟨bs, w⟩, hg, hrun⟩ := bind_eq_ok.mp hrun
  obtain ⟨hshaped, hlen⟩ := Prod.mk.inj (Except.ok.inj hrun)
  have hsched : Scheduled rc dag bs := .greedy _ none w hg
  obtain ⟨-, hsep, -⟩ := bundles_legal (tagRawChains_tagged pinned_noHash htag) hdag hsched
  refine ⟨is, rc, dag, bs, htag, hdag, hsched, hlen, hsep fun ins hins => Op.Shaped.dest ?_⟩
  exact of_decide_eq_true (List.all_eq_true.mp hshaped ins hins)

/-- Two elementwise operations on the pinned zero vector, the first into a scalar. -/
def overlapping : List (Instr Operand) :=
  [⟨0, .vecElem .add (.sym ⟨"z", false⟩) (.sym ⟨"const_vec_0", true⟩) (.sym ⟨"const_vec_0", true⟩)⟩,
    ⟨1, .vecElem .add (.sym ⟨"u", true⟩) (.sym ⟨"const_vec_0", true⟩) (.sym ⟨"const_vec_0", true⟩)⟩]

/-- Both write word 16 in one cycle. -/
theorem overlapping_not_separate : ∃ is rc dag bs b, tagRawChains overlapping PINNED = .ok (is, rc) ∧
    buildDag is PINNED = .ok dag ∧ Scheduled rc dag bs ∧ b ∈ bs ∧ ¬ b.Separate := by
  have hrun : (do
      let (is, rc) ← tagRawChains overlapping PINNED
      let dag ← buildDag is PINNED
      let (bs, _) ← schedule dag rc (fun _ _ _ => 0) none .init
      .ok (bs.map fun b => b.slotsOf .valu)) =
      (.ok [[⟨.arith .add 15 0 0, some 0⟩, ⟨.arith .add 16 0 0, some 1⟩]] : Except PyErr _) := by decide +kernel
  obtain ⟨⟨is, rc⟩, htag, hrun⟩ := bind_eq_ok.mp hrun
  obtain ⟨dag, hdag, hrun⟩ := bind_eq_ok.mp hrun
  obtain ⟨⟨bs, w⟩, hg, hrun⟩ := bind_eq_ok.mp hrun
  obtain ⟨b, rfl, hb⟩ := List.map_eq_singleton_iff.mp (Except.ok.inj hrun)
  refine ⟨is, rc, dag, [b], b, htag, hdag, .greedy _ none w hg, by simp, fun hsep => ?_⟩
  have h₀ : (b.slotsOf .valu)[0]? = some ⟨.arith .add 15 0 0, some 0⟩ := by rw [hb]; rfl
  have h₁ : (b.slotsOf .valu)[1]? = some ⟨.arith .add 16 0 0, some 1⟩ := by rw [hb]; rfl
  have hboth : 16 ∈ (Slot.arith .add 15 0 0).writes .valu ∧ 16 ∈ (Slot.arith .add 16 0 0).writes .valu := by decide
  exact hsep.disjoint h₀ h₁ (by decide) hboth.1 hboth.2

end Vliw
