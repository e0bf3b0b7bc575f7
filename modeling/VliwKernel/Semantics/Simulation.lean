import VliwKernel.Schedule.Legal
import VliwKernel.Semantics.Bundles

/-!
# The simulator follows the schedule

At the end of every cycle each landed word of a register holds the value of its tag, and the memory has
the stores of the committed nodes. One bundle of a schedule keeps this.
-/

namespace Vliw
open RegisterAllocator

variable {pinned : List String} {is : List (Instr Operand)} {rc : Sym → Option Int} {dag : Dag} {nodes : List DNode}
  {w w' : World} {c : CycleRecord} {i : Nat} {l : Landing} {node : DNode} {b : RegisterAllocator}
  {mem mem' : List Nat} {V : Env} {m : Machine}

/-- Word `j` of the destination of node `i` has landed. -/
def World.LandedWord (w : World) (i j : Nat) : Prop := j < w.place.val.lanesDone i ∨ w.dag.val.committed i = true

/-- The simulator's scratch and memory in state `w` of the schedule. -/
structure Corresponds (nodes : List DNode) (mem : List Nat) (V : Env) (w : World) (scratch m : List Nat) : Prop where
  size : scratch.length = SCRATCH_SIZE
  zero : ∀ {a}, a < VLEN → scratch[a]? = some 0
  word : ∀ {i n d a j}, nodes[i]? = some n → n.instr.op.dest? = some d → w.alloc.tab.val.assigned d.base = some a →
    j < n.instr.op.width → w.LandedWord i j → scratch[a + j]? = some (V d.base j)
  length : m.length = mem.length
  stored : ∀ {i n p}, nodes[i]? = some n → w.dag.val.committed i = true → p ∈ n.instr.op.stores V.read → m[p.1]? = some p.2
  kept : ∀ {a}, (∀ {i n p}, nodes[i]? = some n → w.dag.val.committed i = true → p ∈ n.instr.op.stores V.read → p.1 ≠ a) →
    m[a]? = mem[a]?

theorem Instr.Checked.width {ins : Instr Operand} (h : ins.Checked pinned) {d : Operand} (hd : ins.op.dest? = some d) :
    ins.op.width = d.base.extent := by
  obtain ⟨-, t, rfl⟩ := h.writes hd
  have hsh := h.shaped.dest _ hd
  have hw : ins.op.width = 1 ∨ ins.op.width = VLEN := by
    revert hd
    cases ins.op <;> simp [Op.dest?, Op.width]
  rcases hw with hw | hw
  · rw [hw, if_pos rfl] at hsh
    have ht : t.isVec = false := by simpa [Operand.isScalar] using hsh
    simp [hw, Operand.base, Sym.extent, ht]
  · rw [hw, if_neg (by decide)] at hsh
    have ht : t.isVec = true := by simpa [Operand.isVector] using hsh
    simp [hw, Operand.base, Sym.extent, ht]

/-- What is committed is committed with all its ancestors. -/
theorem RawAncestor.committed {prev : Nat → Bool} {s : DagState} (hd : Dag.Inv nodes prev s) {j : Nat} (h : RawAncestor nodes i j)
    (hc : s.committed j = true) : s.committed i = true := by
  induction h with
  | single he => exact ((hd.closed hc).2 _ he).1
  | tail _ he ih => exact ih ((hd.closed hc).2 _ he).1

section cycle

variable (hc : Cycle rc dag.nodes w c w') (hb : Built pinned is rc dag) (h : w.Live pinned dag.nodes w.dag.val.committed)
  (hs : Checked pinned is) (hV : Meaning pinned is dag.nodes mem mem' V)
  (hm : Corresponds dag.nodes mem V w m.core.scratch m.mem)

include hc hb h hs hV hm

/-- A node that lands finds its operands in their registers and its words in memory. -/
theorem Cycle.ready (hl : Landed pinned is dag.nodes c i l node b) : Ready mem V b m node.instr := by
  have hi := hb.graph.instr hl.get
  obtain ⟨hstart, -⟩ := hc.live hb h
  have ha : c.start.alloc.tab.val = w.alloc.tab.val := congrArg Logged.val hc.like.tab
  constructor
  case reads =>
    intro o ho k hk
    cases hp : isPinned pinned o.base with
    | true =>
        have hlt : o.offset + k < VLEN := by
          refine Nat.lt_of_lt_of_le hk ?_
          unfold Sym.extent
          split <;> decide
        rw [addrOf, hl.zero hp, Option.getD_none, Nat.zero_add, hm.zero hlt, Env.read, hV.zero hp]
    | false =>
        obtain ⟨a, has, hab⟩ := hl.reads ho hp
        obtain ⟨-, -, k', hw, hk'⟩ := hstart.reads_assigned hb hl.get hl.frontier ho hp
        obtain ⟨n, d, hn, hd, hdo⟩ := hb.node_of_writes hw
        have hst := hs _ (List.mem_of_getElem? (hb.graph.instr hn))
        rw [addrOf, hab, Option.getD_some, Nat.add_assoc, Env.read, ← hdo]
        refine hm.word hn hd (by rw [hdo, ← ha, has]) ?_ (.inr hk')
        rw [hst.width hd, hdo]
        exact hk
  case loads =>
    intro a ha'
    refine hm.kept fun {j n p} hj hcj hp hpa => ?_
    have hanc := hV.apart hi (hb.graph.instr hj) (hpa ▸ ha') hp
    have := hanc.committed h.dag hcj
    have hunc := hl.uncommitted
    rw [show c.start.dag.val = w.dag.val from congrArg Logged.val hc.like.dag, this] at hunc
    cases hunc
  case lane => exact fun hj => hV.lane hi hj

end cycle

def Entry.effect (V : Env) (b : RegisterAllocator) (ins : Instr Operand) : Entry → Writes
  | .whole .. => ins.effect V b
  | .lane _ j _ => ins.laneEffect V b j

section effects

variable (hc : Cycle rc dag.nodes w c w') (hb : Built pinned is rc dag) (h : w.Live pinned dag.nodes w.dag.val.committed)
  (hs : Checked pinned is) (hl : Landed pinned is dag.nodes c i l node b) (hM : c.ledger i = some l)

include hc hb h hs hl hM

theorem Cycle.entry_exec (hV : Meaning pinned is dag.nodes mem mem' V) (hm : Corresponds dag.nodes mem V w m.core.scratch m.mem)
    {e : Engine} {x : Entry} (hx : x ∈ FuncUnitPool.slots c.bundle e) (hxi : x.node = i) :
    Machine.execSlot m e m.core x.lowered.slot = .ok (m.core, x.effect V b node.instr) := by
  have hst := hs _ (List.mem_of_getElem? (hb.graph.instr hl.get))
  have hready := hc.ready hb h hs hV hm hl
  have hcl := classify_placedInstr node.instr b
  rw [← hl.instr] at hcl
  obtain ⟨l', hl', hent⟩ := hc.inv.entry hx
  rw [hxi, hM] at hl'
  obtain rfl := Option.some.inj hl'
  rcases hent with ⟨hxw, he, hk, -, -⟩ | ⟨j, -, hjhi, hxl, he, hk⟩
  · obtain ⟨s, hlow⟩ := FuncUnitPool.lower_ok hk
    have hslot : x.lowered.slot = s := by rw [hxw, Entry.lowered_whole hlow]
    have heng : e = node.instr.op.engine := by
      rw [he, hl.instr]
      exact Op.engine_rebuild _ _ _
    rw [hl.instr] at hlow
    rw [hslot, heng, hready.whole hst hlow, hxw]
    rfl
  · rw [hcl] at hk
    obtain ⟨-, -, hstop, -⟩ := hc.live hb h
    have htot := hk.elim FuncUnitPool.lanesTotal_vecElem FuncUnitPool.lanesTotal_gather
    have hj : j < VLEN := by
      have := hstop.lanes_le hl.get
      rw [← hl.hi, htot] at this
      omega
    have hslot : x.lowered.slot = (laneSlot (placedInstr node.instr b) j).slot := by
      rw [hxl, hl.instr]
      rfl
    have := hready.laneSlot hst hk hV.word (hm.zero (by decide)) hj
    rw [hslot, he, hl.instr, this, hxl]
    rfl

theorem Cycle.entry_check (hV : Meaning pinned is dag.nodes mem mem' V) (hm : Corresponds dag.nodes mem V w m.core.scratch m.mem)
    {x : Entry} (hx : x ∈ FuncUnitPool.slots c.bundle .debug) (hxi : x.node = i) (hpass : node.instr.op.Passes V.read m.valueTrace) :
    Machine.debugCheck m.core m.valueTrace x.lowered.slot = .ok () := by
  obtain ⟨l', hl', hent⟩ := hc.inv.entry hx
  rw [hxi, hM] at hl'
  obtain rfl := Option.some.inj hl'
  rcases hent with ⟨hxw, he, hk, -, -⟩ | ⟨j, -, -, -, he, -⟩
  · obtain ⟨s, hlow⟩ := FuncUnitPool.lower_ok hk
    have hslot : x.lowered.slot = s := by rw [hxw, Entry.lowered_whole hlow]
    have heng : Engine.debug = node.instr.op.engine := by
      rw [he, hl.instr]
      exact Op.engine_rebuild _ _ _
    rw [hl.instr] at hlow
    rw [hslot]
    exact (hc.ready hb h hs hV hm hl).check (hs _ (List.mem_of_getElem? (hb.graph.instr hl.get))) hlow hpass heng.symm
  · unfold laneEngine at he
    split at he <;> cases he

/-- An entry writes words of the destination's register, each with its value, and stores only when the
node is complete. -/
theorem Cycle.entry_writes {e : Engine} {x : Entry} (hx : x ∈ FuncUnitPool.slots c.bundle e) (hxi : x.node = i) :
    (∀ p ∈ (x.effect V b node.instr).scratch, ∃ d a j, node.instr.op.dest? = some d ∧
      c.stop.alloc.tab.val.assigned d.base = some a ∧ j < node.instr.op.width ∧ p = (a + j, V d.base j)) ∧
    ∀ p ∈ (x.effect V b node.instr).mem, c.stop.dag.val.committed i = true ∧ p ∈ node.instr.op.stores V.read := by
  have hst := hs _ (List.mem_of_getElem? (hb.graph.instr hl.get))
  have hcl := classify_placedInstr node.instr b
  rw [← hl.instr] at hcl
  have haddr : ∀ {d}, node.instr.op.dest? = some d → ∃ a, c.stop.alloc.tab.val.assigned d.base = some a ∧ b.addrOf d = a := by
    intro d hd
    obtain ⟨-, a, hab, has⟩ := hl.dest hd
    obtain ⟨-, t, rfl⟩ := hst.writes hd
    exact ⟨a, has, by rw [addrOf, hab]; rfl⟩
  obtain ⟨l', hl', hent⟩ := hc.inv.entry hx
  rw [hxi, hM] at hl'
  obtain rfl := Option.some.inj hl'
  rcases hent with ⟨hxw, -, -, -, hhi⟩ | ⟨j, -, hjhi, hxl, -, hk⟩
  · rw [hxw]
    refine ⟨fun p hp => ?_, fun p hp => ⟨hl.complete.mpr (by rw [hhi, hcl]), hp⟩⟩
    cases hd : node.instr.op.dest? with
    | none => simp [Entry.effect, Instr.effect, hd] at hp
    | some d =>
        obtain ⟨a, has, hab⟩ := haddr hd
        simp only [Entry.effect, Instr.effect, hd, Option.map_some, Option.getD_some, List.mem_map, List.mem_range, hab] at hp
        obtain ⟨j, hj, rfl⟩ := hp
        exact ⟨d, a, j, rfl, has, hj, rfl⟩
  · rw [hxl]
    rw [hcl] at hk
    refine ⟨fun p hp => ?_, fun p hp => by cases hp⟩
    cases hd : node.instr.op.dest? with
    | none => simp [Entry.effect, Instr.laneEffect, hd] at hp
    | some d =>
        obtain ⟨a, has, hab⟩ := haddr hd
        simp only [Entry.effect, Instr.laneEffect, hd, Option.map_some, Option.getD_some, List.mem_singleton, hab] at hp
        obtain ⟨-, -, hstop, -⟩ := hc.live hb h
        have hle := hstop.lanes_le hl.get
        rw [← hl.hi] at hle
        have hwidth : (classify node.instr.op).lanesTotal = node.instr.op.width := by
          revert hk
          cases node.instr.op <;> simp [classify, Op.engine, Op.isGather, Op.width]
        exact ⟨d, a, j, rfl, has, by omega, hp⟩

omit h in
/-- Each word that lands in the cycle is written by some entry, and each store that is completed. -/
theorem Cycle.entry_covers :
    (∀ {d a j}, node.instr.op.dest? = some d → c.stop.alloc.tab.val.assigned d.base = some a → j < node.instr.op.width →
      c.stop.LandedWord i j → ¬ c.start.LandedWord i j → ∃ e, ∃ x ∈ FuncUnitPool.slots c.bundle e, x.node = i ∧
        (a + j, V d.base j) ∈ (x.effect V b node.instr).scratch) ∧
    ∀ {p}, p ∈ node.instr.op.stores V.read → ∃ e, ∃ x ∈ FuncUnitPool.slots c.bundle e, x.node = i ∧
      p ∈ (x.effect V b node.instr).mem := by
  have hst := hs _ (List.mem_of_getElem? (hb.graph.instr hl.get))
  have hcl := classify_placedInstr node.instr b
  rw [← hl.instr] at hcl
  have haddr : ∀ {d a}, node.instr.op.dest? = some d → c.stop.alloc.tab.val.assigned d.base = some a → b.addrOf d = a := by
    intro d a hd ha
    obtain ⟨-, a', hab, has⟩ := hl.dest hd
    obtain ⟨-, t, rfl⟩ := hst.writes hd
    cases has.symm.trans ha
    rw [addrOf, hab]
    rfl
  cases hc.inv.realised hM with
  | whole _ _ _ hw =>
      have hmem : Entry.whole i l.instr ∈ FuncUnitPool.ofNode c.bundle l.instr.engine i := by simp [hw]
      refine ⟨fun {d a j} hd ha hj _ _ => ⟨_, _, (FuncUnitPool.mem_ofNode.mp hmem).1, rfl, ?_⟩,
        fun hp => ⟨_, _, (FuncUnitPool.mem_ofNode.mp hmem).1, rfl, hp⟩⟩
      simp only [Entry.effect, Instr.effect, hd, Option.map_some, Option.getD_some, List.mem_map, List.mem_range, haddr hd ha]
      exact ⟨j, hj, rfl⟩
  | lanes hk hlanes =>
      rw [hcl] at hk
      have hwidth : (classify node.instr.op).lanesTotal = node.instr.op.width := by
        revert hk
        cases node.instr.op <;> simp [classify, Op.engine, Op.isGather, Op.width]
      refine ⟨fun {d a j} hd ha hj hland hnot => ?_, fun {p} hp => ?_⟩
      · have hlo : l.lo ≤ j := by
          rw [hl.lo]
          exact Nat.le_of_not_lt fun hlt => hnot (.inl hlt)
        have hhi : j < l.hi := by
          rcases hland with hlt | hdone
          · rwa [hl.hi]
          · rw [hl.complete.mp hdone, hwidth]
            exact hj
        have hmem : Entry.lane i j (laneSlot l.instr j) ∈ FuncUnitPool.ofNode c.bundle (laneEngine l.instr) i := by
          rw [hlanes, if_pos rfl]
          exact List.mem_map.mpr ⟨j, List.mem_range'_1.mpr ⟨hlo, by omega⟩, rfl⟩
        refine ⟨_, _, (FuncUnitPool.mem_ofNode.mp hmem).1, rfl, ?_⟩
        simp [Entry.effect, Instr.laneEffect, hd, haddr hd ha]
      · revert hk hp
        cases node.instr.op <;> simp [classify, Op.engine, Op.isGather, Op.stores]

end effects

def CycleRecord.Effect (c : CycleRecord) (V : Env) (nodes : List DNode) (pinned : List String) (is : List (Instr Operand)) (W : Writes) :
    Prop :=
  ∃ e x l node b, x ∈ FuncUnitPool.slots c.bundle e ∧ c.ledger x.node = some l ∧ Landed pinned is nodes c x.node l node b ∧
    W = x.effect V b node.instr

section writes

variable (hc : Cycle rc dag.nodes w c w') (hb : Built pinned is rc dag) (h : w.Live pinned dag.nodes w.dag.val.committed)
  (hs : Checked pinned is) {n : DNode} (hn : dag.nodes[i]? = some n) {W : Writes} {p q : Nat × Nat}

include hc hb h hs hn

/-- Every write into a register of the cycle's end is of the value of its tag. -/
theorem Cycle.write_agrees {d : Operand} {a j : Nat} (hd : n.instr.op.dest? = some d) (ha : c.stop.alloc.tab.val.assigned d.base = some a)
    (hj : j < n.instr.op.width) (hW : c.Effect V dag.nodes pinned is W) (hp : p ∈ W.scratch) (hpa : p.1 = a + j) : p.2 = V d.base j := by
  obtain ⟨-, -, hstop, -⟩ := hc.live hb h
  obtain ⟨e, x, l, node, b, hx, hM, hl, rfl⟩ := hW
  obtain ⟨d', a', j', hd', ha', hj', rfl⟩ := (hc.entry_writes hb h hs hl hM hx rfl).1 p hp
  rw [(hs _ (List.mem_of_getElem? (hb.graph.instr hn))).width hd] at hj
  rw [(hs _ (List.mem_of_getElem? (hb.graph.instr hl.get))).width hd'] at hj'
  dsimp only at hpa ⊢
  have hbase := hstop.alloc.disjoint ha ha' (w := a + j) (by omega) (by omega)
  rw [← hbase] at ha' ⊢
  cases ha.symm.trans ha'
  obtain rfl : j' = j := by omega
  rfl

/-- Every write of a word that a node stores is that node's. -/
theorem Cycle.store_agrees (hV : Meaning pinned is dag.nodes mem mem' V) (hp : p ∈ n.instr.op.stores V.read)
    (hW : c.Effect V dag.nodes pinned is W) (hq : q ∈ W.mem) (hqp : q.1 = p.1) : q = p := by
  obtain ⟨e, x, l, node, b, hx, hM, hl, rfl⟩ := hW
  exact (hV.once (hb.graph.instr hl.get) (hb.graph.instr hn) ((hc.entry_writes hb h hs hl hM hx rfl).2 q hq).2 hp hqp).2

theorem Cycle.word_written {d : Operand} {a j : Nat} (hd : n.instr.op.dest? = some d) (ha : c.stop.alloc.tab.val.assigned d.base = some a)
    (hj : j < n.instr.op.width) (hw : c.stop.LandedWord i j) (hnew : ¬ c.start.LandedWord i j) :
    ∃ W, c.Effect V dag.nodes pinned is W ∧ (a + j, V d.base j) ∈ W.scratch := by
  have hM : c.ledger i ≠ none := by
    intro hM
    obtain ⟨hlanes, hcs⟩ := hc.unlanded hb h hM
    refine hnew ?_
    rw [World.LandedWord] at hw ⊢
    rwa [← hlanes, ← hcs]
  obtain ⟨l, hM⟩ := Option.ne_none_iff_exists'.mp hM
  obtain ⟨node, b, hl⟩ := hc.landed hb h hM
  cases hl.get.symm.trans hn
  obtain ⟨e, x, hx, rfl, hp⟩ := (hc.entry_covers hb hs hl hM (V := V)).1 hd ha hj hw hnew
  exact ⟨_, ⟨e, x, l, n, b, hx, hM, hl, rfl⟩, hp⟩

theorem Cycle.store_written (hci : c.stop.dag.val.committed i = true) (hnew : ¬ c.start.dag.val.committed i = true)
    (hp : p ∈ n.instr.op.stores V.read) : ∃ W, c.Effect V dag.nodes pinned is W ∧ p ∈ W.mem := by
  have hM : c.ledger i ≠ none := by
    intro hM
    rw [(hc.unlanded hb h hM).2] at hci
    exact hnew hci
  obtain ⟨l, hM⟩ := Option.ne_none_iff_exists'.mp hM
  obtain ⟨node, b, hl⟩ := hc.landed hb h hM
  cases hl.get.symm.trans hn
  obtain ⟨e, x, hx, rfl, hpx⟩ := (hc.entry_covers hb hs hl hM (V := V)).2 hp
  exact ⟨_, ⟨e, x, l, n, b, hx, hM, hl, rfl⟩, hpx⟩

theorem Cycle.word_kept {d : Operand} {a j : Nat} (hd : n.instr.op.dest? = some d) (ha : c.stop.alloc.tab.val.assigned d.base = some a)
    (hw : c.start.LandedWord i j) : c.start.alloc.tab.val.assigned d.base = some a := by
  obtain ⟨hstart, -, hstop, hlead, -⟩ := hc.live hb h
  have hsd : c.start.dag.val = w.dag.val := congrArg Logged.val hc.like.dag
  have hpd := ((hs _ (List.mem_of_getElem? (hb.graph.instr hn))).writes hd).1
  by_cases hci : c.start.dag.val.committed i = true
  · exact hlead.settled hn hd hci ha
  · have hpos : 0 < c.start.place.val.lanesDone i := by
      have := hw.resolve_right hci
      omega
    have hprev : w.dag.val.committed i = false := by
      rw [← hsd]
      exact eq_false_of_ne_true hci
    obtain ⟨a', ha'⟩ := Option.isSome_iff_exists.mp (hstart.held hn hd hpd hpos
      (hstart.awaited_dest hb (hb.writesTag hn hd) hpd hprev))
    have := hlead.keeps ha' (hstop.awaited_dest hb (hb.writesTag hn hd) hpd hprev)
    rw [ha] at this
    rw [ha', this]

end writes

section bundle

variable (hc : Cycle rc dag.nodes w c w') (hb : Built pinned is rc dag) (h : w.Live pinned dag.nodes w.dag.val.committed)
  (hs : Checked pinned is) (hV : Meaning pinned is dag.nodes mem mem' V)
  (hm : Corresponds dag.nodes mem V w m.core.scratch m.mem)
  (hpass : m.enableDebug = true → ∀ {i ins}, is[i]? = some ins → c.ledger i ≠ none → ins.op.Passes V.read m.valueTrace)

include hc hb h hs hV hm hpass

theorem Cycle.step : ∃ ws wm scratch mem₁,
    m.step (emitted c.bundle).untag = .ok { m with core := { m.core with scratch := scratch }, mem := mem₁ } ∧
    Machine.applyWrites ws m.core.scratch = .ok scratch ∧ Machine.applyWrites wm m.mem = .ok mem₁ ∧
    (∀ p, p ∈ ws ↔ ∃ W, c.Effect V dag.nodes pinned is W ∧ p ∈ W.scratch) ∧
    ∀ p, p ∈ wm ↔ ∃ W, c.Effect V dag.nodes pinned is W ∧ p ∈ W.mem := by
  obtain ⟨-, -, hstop, -⟩ := hc.live hb h
  have hentry : ∀ {e x}, x ∈ FuncUnitPool.slots c.bundle e → ∃ W, c.Effect V dag.nodes pinned is W ∧
      Machine.execSlot m e m.core x.lowered.slot = .ok (m.core, W) := by
    intro e x hx
    obtain ⟨l, hM, -⟩ := hc.inv.entry hx
    obtain ⟨node, b, hl⟩ := hc.landed hb h hM
    exact ⟨_, ⟨e, x, l, node, b, hx, hM, hl, rfl⟩, hc.entry_exec hb h hs hl hM hV hm hx rfl⟩
  have hdebug : m.enableDebug = true → ∀ x ∈ FuncUnitPool.slots c.bundle .debug,
      Machine.debugCheck m.core m.valueTrace x.lowered.slot = .ok () := by
    intro hon x hx
    obtain ⟨l, hM, -⟩ := hc.inv.entry hx
    obtain ⟨node, b, hl⟩ := hc.landed hb h hM
    exact hc.entry_check hb h hs hl hM hV hm hx rfl (hpass hon (hb.graph.instr hl.get) (by rw [hM]; simp))
  have hscratch : ∀ {W}, c.Effect V dag.nodes pinned is W → ∀ p ∈ W.scratch, p.1 < m.core.scratch.length := by
    rintro W ⟨e, x, l, node, b, hx, hM, hl, rfl⟩ p hp
    obtain ⟨d, a, j, hd, ha, hj, rfl⟩ := (hc.entry_writes hb h hs hl hM hx rfl).1 p hp
    have hst := hs _ (List.mem_of_getElem? (hb.graph.instr hl.get))
    have := hstop.alloc.bounds ha
    rw [hst.width hd] at hj
    rw [hm.size]
    dsimp only
    omega
  have hmem : ∀ {W}, c.Effect V dag.nodes pinned is W → ∀ p ∈ W.mem, p.1 < m.mem.length := by
    rintro W ⟨e, x, l, node, b, hx, hM, hl, rfl⟩ p hp
    rw [hm.length]
    exact hV.inside (hb.graph.instr hl.get) ((hc.entry_writes hb h hs hl hM hx rfl).2 p hp).2
  have hiff : ∀ P : Writes → Prop, (∃ e x, x ∈ FuncUnitPool.slots c.bundle e ∧ P (m.slotWrites e x.lowered.slot)) ↔
      ∃ W, c.Effect V dag.nodes pinned is W ∧ P W := by
    intro P
    constructor
    · rintro ⟨e, x, hx, hP⟩
      obtain ⟨W, hW, hexec⟩ := hentry hx
      rw [Machine.slotWrites_eq hexec] at hP
      exact ⟨W, hW, hP⟩
    · rintro ⟨W, ⟨e, x, l, node, b, hx, hM, hl, rfl⟩, hP⟩
      exact ⟨e, x, hx, (Machine.slotWrites_eq (hc.entry_exec hb h hs hl hM hV hm hx rfl)).symm ▸ hP⟩
  have hexec : ∀ {e x}, x ∈ FuncUnitPool.slots c.bundle e → ∃ w, m.Executes (· = m.core.state) e x.lowered.slot w ∧
      (∀ q ∈ w.scratch, q.1 < m.core.scratch.length) ∧ ∀ q ∈ w.mem, q.1 < m.mem.length := by
    intro e x hx
    obtain ⟨W, hW, hexec⟩ := hentry hx
    refine ⟨W, ?_, hscratch hW, hmem hW⟩
    rintro _ rfl
    exact ⟨m.core.state, rfl, hexec⟩
  obtain ⟨ws, wm, _, scratch, mem₁, rfl, hstep, hws, hwm, hin, hinm⟩ := hc.inv.step_checked (R := (· = m.core.state)) rfl hdebug hexec
  exact ⟨ws, wm, scratch, mem₁, hstep, hws, hwm, fun q => (hin q).trans (hiff (q ∈ ·.scratch)), fun q => (hinm q).trans (hiff (q ∈ ·.mem))⟩

/-- A cycle and its bundle lead from corresponding states to corresponding states. -/
theorem Cycle.corresponds : ∃ scratch mem₁,
    m.step (emitted c.bundle).untag = .ok { m with core := { m.core with scratch := scratch }, mem := mem₁ } ∧
    Corresponds dag.nodes mem V w' scratch mem₁ := by
  obtain ⟨ws, wm, scratch, mem₁, hstep, hws, hwm, hin, hinm⟩ := hc.step hb h hs hV hm hpass
  obtain ⟨-, -, hstop, hlead, -⟩ := hc.live hb h
  have hsd : c.start.dag.val = w.dag.val := congrArg Logged.val hc.like.dag
  have hsp : c.start.place.val = w.place.val := congrArg Logged.val hc.like.place
  have hsa : c.start.alloc.tab.val = w.alloc.tab.val := congrArg Logged.val hc.like.tab
  obtain ⟨u, hu, -, -, hcomm, hplace, -, -, hass, -⟩ := hstop.toOk.endCycle
  cases hc.ends.symm.trans hu
  refine ⟨scratch, mem₁, hstep, ?_⟩
  constructor
  case size => rw [(Machine.applyWrites_length hws).1, hm.size]
  case zero =>
    intro a ha
    rw [Machine.applyWrites_of_ne hws, hm.zero ha]
    intro p hp
    obtain ⟨W, ⟨e, x, l, node, b, hx, hM, hl, rfl⟩, hp⟩ := (hin p).mp hp
    obtain ⟨d, a', j, -, ha', -, rfl⟩ := (hc.entry_writes hb h hs hl hM hx rfl).1 p hp
    have := hstop.alloc.bounds ha'
    dsimp only
    omega
  case word =>
    intro i n d a j hn hd ha hj hw
    rw [hass] at ha
    rw [World.LandedWord, hplace, hcomm] at hw
    refine Machine.applyWrites_settles hws (fun p hp hpa => ?_) ?_
    · obtain ⟨W, hW, hp⟩ := (hin p).mp hp
      exact hc.write_agrees hb h hs hn hd ha hj hW hp hpa
    · by_cases hold : c.start.LandedWord i j
      · left
        refine hm.word hn hd (hsa ▸ hc.word_kept hb h hs hn hd ha hold) hj ?_
        rw [World.LandedWord, hsp, hsd] at hold
        exact hold
      · right
        exact ⟨_, (hin _).mpr (hc.word_written hb h hs hn hd ha hj hw hold), rfl⟩
  case length => rw [(Machine.applyWrites_length hwm).1, hm.length]
  case stored =>
    intro i n p hn hci hp
    rw [hcomm] at hci
    refine Machine.applyWrites_settles hwm (fun q hq hqp => ?_) ?_
    · obtain ⟨W, hW, hq⟩ := (hinm q).mp hq
      rw [hc.store_agrees hb h hs hn hV hp hW hq hqp]
    · by_cases hold : c.start.dag.val.committed i = true
      · exact .inl (hm.stored hn (hsd ▸ hold) hp)
      · exact .inr ⟨p, (hinm p).mpr (hc.store_written hb h hs hn hci hold hp), rfl⟩
  case kept =>
    intro a ha
    rw [Machine.applyWrites_of_ne hwm, hm.kept fun {i n p} hn hci hp => ha hn ?_ hp]
    · rw [hcomm]
      exact hlead.committed (hsd ▸ hci)
    · intro p hp
      obtain ⟨W, ⟨e, x, l, node, b, hx, hM, hl, rfl⟩, hp⟩ := (hinm p).mp hp
      obtain ⟨hcs, hst⟩ := (hc.entry_writes hb h hs hl hM hx rfl).2 p hp
      exact ha hl.get (hcomm ▸ hcs) hst

end bundle
end Vliw
