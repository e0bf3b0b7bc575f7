import VliwKernel.Problem.Footprint
import VliwKernel.Schedule.Runs

/-!
# Latency and lifetimes in every schedule

A value is complete in an earlier cycle than any use of it, every operand is resolved while its tag
holds a register, and the register is the tag's alone from its first lane to its last read.
-/

namespace Vliw
open RegisterAllocator

variable {pinned : List String} {is : List (Instr Operand)} {rc : Sym → Option Int} {dag : Dag}
  {prev : Nat → Bool} {w w' u : World} {c : CycleRecord} {i : Nat} {l : Landing}

/-- A tag with a reader that is not committed is awaited. -/
theorem World.awaited_of_reader {nodes : List DNode} {j : Nat} {node : DNode} {o : Operand} (hj : nodes[j]? = some node)
    (ho : o ∈ node.instr.readOperands) (hc : w.dag.val.committed j = false) : w.Awaited nodes o.base :=
  .inl (Nat.lt_of_lt_of_le (occ_pos.mpr ⟨o, ho, rfl⟩) (occ_le_pendingReads hj hc o.base))

/-- The tags that a node of the frontier reads hold registers, and their writers are complete. -/
theorem World.Live.reads_assigned (hb : Built pinned is rc dag) (h : w.Live pinned dag.nodes prev) {node : DNode}
    (hn : dag.nodes[i]? = some node) (hf : w.dag.val.frontier i = true) {o : Operand} (ho : o ∈ node.instr.readOperands)
    (hp : isPinned pinned o.base = false) :
    ∃ a, w.alloc.tab.val.assigned o.base = some a ∧ ∃ k, WritesTag is k o.base ∧ prev k = true := by
  obtain ⟨k, -, hw, he⟩ := hb.writer_of_read hn ho hp
  obtain ⟨-, hc, hpre⟩ := h.dag.frontier_iff.mp hf
  have hk := (hpre _ he).2 rfl
  obtain ⟨m, d, hm, hd, hdt⟩ := hb.node_of_writes hw
  have hlanes := h.lanes_done hm (h.dag.prev_committed hk)
  have hpos : 0 < (classify m.instr.op).lanesTotal := by
    revert hd
    cases m.instr.op <;> simp [Op.dest?, classify, Op.engine, Op.isGather, VLEN]
  obtain ⟨a, ha⟩ := Option.isSome_iff_exists.mp (h.held hm hd (hdt ▸ hp) (by omega)
    (hdt ▸ World.awaited_of_reader hn ho hc))
  exact ⟨a, hdt ▸ ha, k, hw, hk⟩

/-- What is known of a node that landed in a cycle: it was resolved with the tables of `b`. -/
structure Landed (pinned : List String) (is : List (Instr Operand)) (nodes : List DNode) (c : CycleRecord) (i : Nat)
    (l : Landing) (node : DNode) (b : RegisterAllocator) : Prop where
  get : nodes[i]? = some node
  instr : l.instr = placedInstr node.instr b
  lo : l.lo = c.start.place.val.lanesDone i
  hi : l.hi = c.stop.place.val.lanesDone i
  progress : l.lo < l.hi ∨ (classify node.instr.op).kind = .debug
  uncommitted : c.start.dag.val.committed i = false
  complete : c.stop.dag.val.committed i = true ↔ l.hi = (classify node.instr.op).lanesTotal
  mem : i ∈ c.order
  frontier : c.start.dag.val.frontier i = true
  reads : ∀ {o}, o ∈ node.instr.readOperands → isPinned pinned o.base = false →
    ∃ a, c.start.alloc.tab.val.assigned o.base = some a ∧ b.tab.val.assigned o.base = some a
  zero : ∀ {t}, isPinned pinned t = true → b.tab.val.assigned t = none
  dest : ∀ {d}, node.instr.op.dest? = some d → isPinned pinned d.base = false ∧
    ∃ a, b.tab.val.assigned d.base = some a ∧ c.stop.alloc.tab.val.assigned d.base = some a

theorem Cycle.landed (hc : Cycle rc dag.nodes w c w') (hb : Built pinned is rc dag) (h : w.Live pinned dag.nodes prev)
    (hl : c.ledger i = some l) : ∃ node b, Landed pinned is dag.nodes c i l node b := by
  obtain ⟨hstart, -, hstop, -⟩ := hc.live hb h
  have hio : i ∈ c.order := by
    by_contra hio
    rw [(hc.steps.frame hb.graph.wf hstart.dag (.inl hio)).1] at hl
    cases hl
  obtain ⟨node, x, done, v, v', pre, post, Mv, ho, hn, hpre, -, huf, hstep, hpost, hM, hlo, hhi, hcommitted⟩ :=
    hc.steps.step_of_mem hb.graph.wf hb.oneWriter hstart.toOk hc.orders.nodup hio
  obtain rfl : x = some l := hM.symm.trans hl
  obtain ⟨hv, hsv⟩ := hpre.live hb hstart
  obtain ⟨hv', hvv'⟩ := hstep.live hb hv hn huf
  obtain ⟨-, hvs⟩ := hpost.live hb hv'
  obtain ⟨hllo, hlhi, hprog, -, -, -, -⟩ := hstep.landing
  obtain ⟨fresh, b, hacq, hinstr, hstay⟩ := hstep.landing_keeps hb hv hn huf
  obtain ⟨-, hkeep, hnew, hcnt, hdest⟩ := hv.acquire hb hn huf hacq
  have hf := hc.orders.frontier hio
  have hci : c.start.dag.val.committed i = false := (hstart.dag.frontier_iff.mp hf).2.1
  have hcomplete : c.stop.dag.val.committed i = true ↔ l.hi = (classify node.instr.op).lanesTotal := by
    rw [hlhi, ← hhi]
    refine ⟨hstop.lanes_done hn, fun htot => ?_⟩
    rcases hprog with hlt | ⟨-, hdone⟩
    · by_contra hcs
      rw [Bool.not_eq_true] at hcs
      by_cases hk : (classify node.instr.op).kind = .debug
      · have := hstop.lanes_debug hn hk
        omega
      · have := hstop.lanes_pending hn hcs hk
        omega
    · rw [hcommitted, hdone]
  have hunpinned : ∀ {t a}, b.tab.val.assigned t = some a → isPinned pinned t = false := by
    intro t a ht
    rcases hnew ht with ht | ⟨hp, -⟩
    · exact (hv.owner ht).1
    · exact hp
  refine ⟨node, b, hn, hinstr, hllo.trans hlo, hlhi.trans hhi.symm, hprog.imp_right And.left, hci, hcomplete, hio, hf,
    fun ho hp => ?_, fun {t} hp => ?_, fun hd => ?_⟩
  · obtain ⟨a, ha, -⟩ := hstart.reads_assigned hb hn hf ho hp
    exact ⟨a, ha, hkeep (hsv.keeps ha (World.awaited_of_reader hn ho (hv.dag.frontier_iff.mp huf).2.1))⟩
  · cases ht : b.tab.val.assigned t with
    | none => rfl
    | some a =>
        rw [hunpinned ht] at hp
        cases hp
  · obtain ⟨a, ha⟩ := Option.isSome_iff_exists.mp (hdest hd)
    have hp := hunpinned ha
    have hw := hb.writesTag hn hd
    have hprev := hv.dag.prev_false huf
    exact ⟨hp, a, ha, hvs.keeps (hstay ha (hv'.awaited_dest hb hw hp hprev)) (hstop.awaited_dest hb hw hp hprev)⟩

section footprint

def Entry.writes (e : Engine) (x : Entry) : List Nat := x.lowered.slot.writes e

/-- A whole instruction writes the words of its destination. -/
theorem lower_writes {op : Op Operand} {rd wr : Operand → Reg} {s : Slot} (h : (op.rebuild rd wr).lower = .ok s) :
    s.writes op.engine = ((op.dest?.map fun d => List.range' (wr d).addr op.width).getD []) := by
  cases op with
  | gather dest addr => cases h
  | _ =>
      cases h
      rfl

theorem isVector_iff {d : Operand} : d.isVector = true ↔ ∃ t, d = .sym t ∧ t.isVec = true := by
  cases d <;> simp [Operand.isVector]

theorem laneSlot_writes {ins : Instr Operand} {b : RegisterAllocator} (hs : ins.op.DestShaped) (j : Nat)
    (hk : (classify ins.op).kind = .vecElem ∨ (classify ins.op).kind = .gather) :
    ∃ d, ins.op.dest? = some d ∧ d.base.isVec = true ∧ (classify ins.op).lanesTotal = VLEN ∧
      (laneSlot (placedInstr ins b) j).slot.writes (laneEngine (placedInstr ins b)) = [b.addrOf (.sym d.base) + j] := by
  have hvec : ∀ {d}, ins.op.dest? = some d → ins.op.width = VLEN → ∃ t, d = .sym t ∧ t.isVec = true := by
    intro d hd hw
    have := hs d hd
    rw [hw, if_neg (by decide)] at this
    exact isVector_iff.mp this
  cases hop : ins.op with
  | vecElem op dest a1 a2 =>
      obtain ⟨t, rfl, ht⟩ := hvec (d := dest) (by rw [hop]; rfl) (by rw [hop]; rfl)
      exact ⟨.sym t, rfl, ht, rfl, by simp [laneSlot, laneEngine, placedInstr, Instr.rebuild, hop, Op.rebuild, Op.isGather,
        Slot.writes, Operand.base]⟩
  | vBroadcast dest src =>
      obtain ⟨t, rfl, ht⟩ := hvec (d := dest) (by rw [hop]; rfl) (by rw [hop]; rfl)
      exact ⟨.sym t, rfl, ht, rfl, by simp [laneSlot, laneEngine, placedInstr, Instr.rebuild, hop, Op.rebuild, Op.isGather,
        Slot.writes, Operand.base]⟩
  | gather dest addr =>
      obtain ⟨t, rfl, ht⟩ := hvec (d := dest) (by rw [hop]; rfl) (by rw [hop]; rfl)
      exact ⟨.sym t, rfl, ht, rfl, by simp [laneSlot, placedInstr, Instr.rebuild, hop, Op.rebuild, Op.isGather,
        Slot.writes, Operand.base]⟩
  | _ => rw [hop] at hk; simp [classify, Op.engine, Op.isGather] at hk

/-- Where an entry of a landed node writes: the words of its destination, or one lane of them. -/
theorem Landed.entry_writes {nodes : List DNode} {node : DNode} {b : RegisterAllocator} (hl : Landed pinned is nodes c i l node b)
    (hs : node.instr.op.DestShaped) (hinv : FuncUnitPool.Inv c.ledger c.stop.pool) (hM : c.ledger i = some l)
    (hhi : l.hi ≤ (classify node.instr.op).lanesTotal)
    {e : Engine} {x : Entry} (hx : x ∈ FuncUnitPool.slots c.bundle e) (hxi : x.node = i) {wd : Nat} (hwd : wd ∈ x.writes e) :
    ∃ d a, node.instr.op.dest? = some d ∧ b.tab.val.assigned d.base = some a ∧
      c.stop.alloc.tab.val.assigned d.base = some a ∧ a ≤ wd ∧ wd < a + d.base.extent ∧
      ∀ {j slot}, x = .lane i j slot → wd = a + j := by
  obtain ⟨l', hl', hent⟩ := hinv.entry hx
  rw [hxi, hM] at hl'
  obtain rfl := Option.some.inj hl'
  have hcl := classify_placedInstr node.instr b
  rw [← hl.instr] at hcl
  rcases hent with ⟨hxw, he, hk, -, -⟩ | ⟨j, hlo, hjhi, hxl, he, hk⟩
  · -- a whole instruction on its own engine
    rw [hcl] at hk
    have hg : node.instr.op.isGather = false := by
      rwa [ne_eq, FuncUnitPool.kind_eq_gather, Bool.not_eq_true] at hk
    obtain ⟨s, hlow⟩ := FuncUnitPool.lower_ok (show (classify l.instr.op).kind ≠ .gather by rwa [hcl])
    have hslot : x.lowered.slot = s := by rw [hxw, Entry.lowered_whole hlow]
    have heng : e = node.instr.op.engine := by
      rw [he, hl.instr]
      exact Op.engine_rebuild _ _ _
    rw [hl.instr] at hlow
    rw [Entry.writes, hslot, heng, lower_writes hlow] at hwd
    cases hd : node.instr.op.dest? with
    | none =>
        rw [hd] at hwd
        cases hwd
    | some d =>
        rw [hd] at hwd
        obtain ⟨-, a, ha, has⟩ := hl.dest hd
        have hshape := hs d hd
        simp only [Option.map_some, Option.getD_some, List.mem_range'_1, hg, Bool.false_eq_true, if_false, addrOf, ha] at hwd
        refine ⟨d, a, rfl, ha, has, by omega, ?_, ?_⟩
        · have hw : node.instr.op.width = 1 ∨ node.instr.op.width = VLEN := by
            revert hd
            cases node.instr.op <;> simp [Op.dest?, Op.width]
          rcases hw with hw | hw
          · rw [hw, if_pos rfl] at hshape
            cases d with
            | sym t =>
                have ht : t.isVec = false := by simpa [Operand.isScalar] using hshape
                simp only [Operand.base, Operand.offset, Sym.extent, ht, hw] at hwd ⊢
                simpa using hwd.2
            | lane v j =>
                obtain ⟨hv, hj⟩ : v.isVec = true ∧ j < VLEN := by simpa [Operand.isScalar] using hshape
                simp only [Operand.base, Operand.offset, Sym.extent, hv, hw, if_true] at hwd ⊢
                omega
          · rw [hw, if_neg (by decide)] at hshape
            cases d with
            | sym t =>
                have ht : t.isVec = true := by simpa [Operand.isVector] using hshape
                simp only [Operand.base, Operand.offset, Sym.extent, ht, hw, if_true] at hwd ⊢
                omega
            | lane v j => simp [Operand.isVector] at hshape
        · intro j slot hxl
          rw [hxw] at hxl
          cases hxl
  · -- one lane
    rw [hcl] at hk
    obtain ⟨d, hd, hv, htot, hw⟩ := laneSlot_writes (b := b) hs j hk
    obtain ⟨-, a, ha, has⟩ := hl.dest hd
    have hwr : x.writes e = [a + j] := by
      have haddr : b.addrOf (.sym d.base) = a := by
        rw [addrOf, show (Operand.sym d.base).base = d.base from rfl, ha]
        rfl
      rw [Entry.writes, hxl, he, hl.instr, ← haddr]
      exact hw
    rw [hwr, List.mem_singleton] at hwd
    refine ⟨d, a, hd, ha, has, by omega, ?_, ?_⟩
    · simp only [Sym.extent, hv, if_true]
      omega
    · intro j' slot hxl'
      rw [hxl] at hxl'
      cases hxl'
      exact hwd

theorem World.Ok.lanes_le {nodes : List DNode} (h : w.Ok nodes prev) {node : DNode} (hn : nodes[i]? = some node) :
    w.place.val.lanesDone i ≤ (classify node.instr.op).lanesTotal := by
  cases hc : w.dag.val.committed i with
  | true => exact Nat.le_of_eq (h.lanes_done hn hc)
  | false =>
      by_cases hk : (classify node.instr.op).kind = .debug
      · rw [h.lanes_debug hn hk]
        exact Nat.zero_le _
      · exact Nat.le_of_lt (h.lanes_pending hn hc hk)

/-- Every slot of a cycle writes into the register of its own node, which that node still holds at the
end of the cycle. -/
theorem Cycle.writes_own (hc : Cycle rc dag.nodes w c w') (hb : Built pinned is rc dag) (h : w.Live pinned dag.nodes prev)
    (hs : ∀ ins ∈ is, ins.op.DestShaped) {e : Engine} {x : Entry} (hx : x ∈ FuncUnitPool.slots c.bundle e) {wd : Nat}
    (hwd : wd ∈ x.writes e) : ∃ d a, WritesTag is x.node d ∧ isPinned pinned d = false ∧
      c.stop.alloc.tab.val.assigned d = some a ∧ a ≤ wd ∧ wd < a + d.extent ∧ ∀ {j slot}, x = .lane x.node j slot → wd = a + j := by
  obtain ⟨-, -, hstop, -⟩ := hc.live hb h
  obtain ⟨l, hM, -⟩ := hc.inv.entry hx
  obtain ⟨node, b, hl⟩ := hc.landed hb h hM
  have hshape := hs _ (List.mem_of_getElem? (hb.graph.instr hl.get))
  obtain ⟨d, a, hd, -, ha, hlo, hhi, hlane⟩ := hl.entry_writes hshape hc.inv hM (hl.hi ▸ hstop.lanes_le hl.get) hx rfl hwd
  exact ⟨d.base, a, hb.writesTag hl.get hd, (hl.dest hd).1, ha, hlo, hhi, hlane⟩

end footprint

section claims

variable {cs : List CycleRecord}

def CycleRecord.Emits (c : CycleRecord) (i : Nat) : Prop := ∃ e, ∃ x ∈ FuncUnitPool.slots c.bundle e, x.node = i

def CycleRecord.Point (rc : Sym → Option Int) (nodes : List DNode) (c : CycleRecord) (done todo : List Nat) (u : World) : Prop :=
  c.order = done ++ todo ∧ ∃ s, runCycle rc nodes true done c.start = .ok (u, s)

/-- Every slot of the source of an edge is emitted in an earlier cycle than any of its destination. -/
def RawLatency (nodes : List DNode) (cs : List CycleRecord) : Prop :=
  ∀ {src dst wt}, (src, wt) ∈ Dag.inEdges nodes dst → ∀ {k l : Nat} {c c' : CycleRecord}, cs[k]? = some c → cs[l]? = some c' →
    c.Emits src → c'.Emits dst → k < l

/-- Whenever a node of a cycle has got its registers and its operands are resolved, the tags of all of
them that are not pinned are assigned. -/
def OperandsAssigned (pinned : List String) (rc : Sym → Option Int) (nodes : List DNode) (cs : List CycleRecord) : Prop :=
  ∀ {c} {done todo : List Nat} {i : Nat} {node : DNode} {u : World} {obl obl' : Int} {fresh : List Sym} {b : RegisterAllocator},
    c ∈ cs → c.Point rc nodes done (i :: todo) u → nodes[i]? = some node →
    allocWrites rc node.instr u.alloc obl = .ok (some fresh, b, obl') →
    ∀ o ∈ node.instr.readOperands ++ node.instr.writeOperands, isPinned pinned o.base = false →
      (b.tab.val.assigned o.base).isSome

/-- In cycle `k` node `i` emits a lane of `t`, in cycle `l` node `j` one of a reader of `t`. -/
structure Span (pinned : List String) (is : List (Instr Operand)) (cs : List CycleRecord) (t : Sym) (i j k l : Nat) : Prop where
  unpinned : isPinned pinned t = false
  writer : WritesTag is i t
  reader : ∃ ins, is[j]? = some ins ∧ ∃ o ∈ ins.readOperands, o.base = t
  first : ∃ c, cs[k]? = some c ∧ c.Emits i
  last : ∃ c, cs[l]? = some c ∧ c.Emits j

/-- At every point from a lane of its writer until a lane of a reader the address of `t` is `a`. -/
def SteadyAt (rc : Sym → Option Int) (nodes : List DNode) (cs : List CycleRecord) (t : Sym) (i j k l a : Nat) : Prop :=
  ∀ {m c done todo u}, cs[m]? = some c → c.Point rc nodes done todo u → (k < m ∨ (k = m ∧ i ∈ done)) →
    (m < l ∨ (m = l ∧ j ∉ done)) → u.alloc.tab.val.assigned t = some a

/-- From cycle `k` until cycle `l` no slot of a node other than `i` writes a word of the register at `a`. -/
def UndisturbedAt (cs : List CycleRecord) (t : Sym) (i k l a : Nat) : Prop :=
  ∀ {m : Nat} {c : CycleRecord} {e x wd}, cs[m]? = some c → k ≤ m → m < l → x ∈ FuncUnitPool.slots c.bundle e →
    x.node ≠ i → wd ∈ x.writes e → ¬ (a ≤ wd ∧ wd < a + t.extent)

theorem Cycle.emits_iff (hc : Cycle rc dag.nodes w c w') (hb : Built pinned is rc dag) (h : w.Live pinned dag.nodes prev)
    (hi : c.Emits i) : ∃ l node b, c.ledger i = some l ∧ Landed pinned is dag.nodes c i l node b := by
  obtain ⟨e, x, hx, rfl⟩ := hi
  obtain ⟨l, hM, -⟩ := hc.inv.entry hx
  obtain ⟨node, b, hl⟩ := hc.landed hb h hM
  exact ⟨l, node, b, hM, hl⟩

theorem Cycle.point (hc : Cycle rc dag.nodes w c w') (hb : Built pinned is rc dag) (h : w.Live pinned dag.nodes prev)
    {done todo : List Nat} (hp : c.Point rc dag.nodes done todo u) : u.Live pinned dag.nodes prev ∧
      c.start.Leads dag.nodes u ∧ u.Leads dag.nodes c.stop ∧
      (∀ {j}, j ∉ done → u.dag.val.committed j = c.start.dag.val.committed j) ∧
      (∀ {j}, j ∈ done → c.stop.place.val.lanesDone j = u.place.val.lanesDone j) ∧
      ∀ {j}, j ∈ todo → u.dag.val.frontier j = true := by
  obtain ⟨hstart, -, -, -⟩ := hc.live hb h
  obtain ⟨ho, s, hrun⟩ := hp
  obtain ⟨s', hfull⟩ := hc.run
  have hnd := hc.orders.nodup
  rw [ho] at hfull hnd
  have hfront : ∀ i ∈ done ++ todo, c.start.dag.val.frontier i = true ∧ (fun _ => none : Ledger) i = none :=
    fun i hi => ⟨hc.orders.frontier (ho ▸ hi), rfl⟩
  obtain ⟨hnd₁, hnd₂, hdisj⟩ := List.nodup_append.mp hnd
  rw [runCycle_eq] at hrun hfull
  rw [List.foldlM_append] at hfull
  rcases runNodes_ok hb.graph.wf hb.oneWriter true hnd₁ hstart.toOk (fun i hi => hfront i (by simp [hi]))
      (hc.pool ▸ FuncUnitPool.Fit.fresh true) .zero with ⟨u', s₁, M, hrun', hsteps, hfit, -⟩ | ⟨-, herr⟩
  case inr =>
    rw [herr] at hrun
    cases hrun
  rw [hrun'] at hrun hfull
  obtain rfl : u = u' := (Prod.mk.inj (Except.ok.inj hrun)).1.symm
  obtain ⟨hu, hsu⟩ := hsteps.live hb hstart
  have hframe : ∀ {j}, j ∉ done → M j = none ∧ u.place.val.lanesDone j = c.start.place.val.lanesDone j ∧
      u.dag.val.committed j = c.start.dag.val.committed j :=
    fun hj => hsteps.frame hb.graph.wf hstart.dag (.inl hj)
  have hfront₂ : ∀ {j}, j ∈ todo → u.dag.val.frontier j = true := by
    intro j hj
    have hjd : j ∉ done := fun hjd => hdisj j hjd j hj rfl
    obtain ⟨hjn, hcj, he⟩ := hstart.dag.frontier_iff.mp (hfront j (by simp [hj])).1
    refine hu.dag.frontier_iff.mpr ⟨hjn, (hframe hjd).2.2.trans hcj, fun e hm => ⟨fun h0 => ?_, (he e hm).2⟩⟩
    exact hsu.committed ((he e hm).1 h0)
  rw [bind_ok] at hfull
  rcases runNodes_ok hb.graph.wf hb.oneWriter true hnd₂ hu.toOk (fun i hi => ⟨hfront₂ hi,
      (hframe fun hid => hdisj i hid i hi rfl).1⟩) hfit s₁ with ⟨v, s₂, M', hrun₂, hsteps₂, -⟩ | ⟨-, herr⟩
  case inr =>
    rw [herr] at hfull
    cases hfull
  rw [hrun₂] at hfull
  obtain rfl : c.stop = v := (Prod.mk.inj (Except.ok.inj hfull)).1.symm
  obtain ⟨-, hustop⟩ := hsteps₂.live hb hu
  refine ⟨hu, hsu, hustop, fun hj => (hframe hj).2.2, fun hj => ?_, hfront₂⟩
  exact (hsteps₂.frame hb.graph.wf hu.dag (.inl fun hjt => hdisj _ hj _ hjt rfl)).2.1

section run

variable (hcs : Cycles rc dag.nodes w cs w') (hb : Built pinned is rc dag) (h : w.Live pinned dag.nodes w.dag.val.committed)

include hcs hb h

theorem Cycles.rawLatency : RawLatency dag.nodes cs := by
  intro src dst wt he k l c c' hk hl hsrc hdst
  obtain ⟨u, v, hu, -, hc, -, -⟩ := hcs.at_index hb h hk
  obtain ⟨x, y, hx, -, hc', -, -⟩ := hcs.at_index hb h hl
  obtain ⟨_, _, _, -, hland⟩ := hc.emits_iff hb hu hsrc
  obtain ⟨_, _, _, -, hland'⟩ := hc'.emits_iff hb hx hdst
  obtain ⟨hstart, -, hstop, hlead, -⟩ := hc'.live hb hx
  have hw1 : wt = 1 := (hb.graph.edge.mp he).1
  have hprev := ((hstart.dag.frontier_iff.mp hland'.frontier).2.2 _ he).2 hw1
  have hcomm := hstart.dag.prev_committed hprev
  by_contra hkl
  rcases Nat.lt_or_eq_of_le (Nat.le_of_not_lt hkl) with hlt | rfl
  · have := (hcs.leads hb h hl hk hlt).committed (hlead.committed hcomm)
    rw [hland.uncommitted] at this
    cases this
  · cases hk.symm.trans hl
    rw [hland.uncommitted] at hcomm
    cases hcomm

theorem Cycles.operandsAssigned : OperandsAssigned pinned rc dag.nodes cs := by
  intro c done todo i node u obl obl' fresh b hcm hpt hn haw o ho hp
  obtain ⟨k, hk⟩ := List.getElem?_of_mem hcm
  obtain ⟨x, y, hx, -, hc, -, -⟩ := hcs.at_index hb h hk
  obtain ⟨hu, -, -, -, -, hfront⟩ := hc.point hb hx hpt
  have hf := hfront (j := i) (by simp)
  rcases allocWrites_cases rc node.instr hu.alloc obl with ⟨got, b', obl₂, haw', hacq⟩ | ⟨-, -, -, -, -, herr⟩
  · cases haw.symm.trans haw'
    obtain ⟨-, hkeep, -, -, hdest⟩ := hu.acquire hb hn hf hacq
    rcases List.mem_append.mp ho with ho | ho
    · obtain ⟨a, ha, -⟩ := hu.reads_assigned hb hn hf ho hp
      rw [hkeep ha]
      rfl
    · exact hdest (Op.mem_writeOperands.mp ho)
  · cases haw.symm.trans herr

/-- From its writer's lanes to its readers' a tag keeps its address, and if destinations have the shape
that their operations write, its register to itself. -/
theorem Cycles.lifetimes {t : Sym} {i j k l : Nat} (hsp : Span pinned is cs t i j k l) :
    ∃ a, SteadyAt rc dag.nodes cs t i j k l a ∧
      ((∀ ins ∈ is, ins.op.DestShaped) → UndisturbedAt cs t i k l a) := by
  obtain ⟨hp, hwt, ⟨ins, hj, o, ho, rfl⟩, ⟨c, hk, hi⟩, c', hl, hjem⟩ := hsp
  obtain ⟨x, y, hx, -, hc, -, -⟩ := hcs.at_index hb h hk
  obtain ⟨x', y', hx', -, hc', -, -⟩ := hcs.at_index hb h hl
  obtain ⟨_, nodei, _, -, hland⟩ := hc.emits_iff hb hx hi
  obtain ⟨_, nodej, _, -, hland'⟩ := hc'.emits_iff hb hx' hjem
  obtain ⟨n, d, hn, hd, hdt⟩ := hb.node_of_writes hwt
  cases hland.get.symm.trans hn
  obtain rfl : ins = nodej.instr := Option.some.inj (hj.symm.trans (hb.graph.instr hland'.get))
  have hkl : k < l := by
    obtain ⟨i', -, hw', he⟩ := hb.writer_of_read hland'.get ho hp
    obtain rfl := hb.tagged.unique hp hwt hw'
    exact hcs.rawLatency hb h he hk hl hi hjem
  -- the reader is not committed before its cycle, so its tag is awaited
  have hjc : ∀ {v : World}, v.Leads dag.nodes c'.start → v.Awaited dag.nodes o.base := by
    intro v hv
    refine World.awaited_of_reader hland'.get ho ?_
    by_contra hne
    have := hv.committed (Bool.eq_true_of_not_eq_false hne)
    rw [hland'.uncommitted] at this
    cases this
  have hstopl := hcs.leads hb h hk hl hkl
  obtain ⟨-, a, -, ha⟩ := hland.dest hd
  rw [hdt] at ha
  refine ⟨a, fun {m c'' done todo u} hm hpt hafter hbefore => ?_, fun hs m c'' e x wd hm hkm hml hxs hxi hwd hin => ?_⟩
  · obtain ⟨z, z', hz, -, hcm, -, -⟩ := hcs.at_index hb h hm
    obtain ⟨hu, hsu, hus, hcu, hlu, -⟩ := hcm.point hb hz hpt
    have hau : u.Awaited dag.nodes o.base := by
      rcases hbefore with hlt | ⟨rfl, hjd⟩
      · exact hjc (hus.trans (hcs.leads hb h hm hl hlt))
      · cases hl.symm.trans hm
        exact World.awaited_of_reader hland'.get ho ((hcu hjd).trans hland'.uncommitted)
    rcases hafter with hlt | ⟨rfl, hid⟩
    · exact ((hcs.leads hb h hk hm hlt).trans hsu).keeps ha hau
    · cases hk.symm.trans hm
      have hpos : 0 < u.place.val.lanesDone i := by
        rw [← hlu hid, ← hland.hi]
        rcases hland.progress with hlt | hdbg
        · omega
        · revert hdbg hd
          cases nodei.instr.op <;> simp [classify, Op.engine, Op.isGather, Op.dest?]
      obtain ⟨a', ha'⟩ := Option.isSome_iff_exists.mp (hu.held hn hd (hdt ▸ hp) hpos (hdt ▸ hau))
      rw [hdt] at ha'
      have := hus.keeps ha' (hjc hstopl)
      rw [ha] at this
      rw [ha', this]
  · obtain ⟨z, z', hz, -, hcm, -, -⟩ := hcs.at_index hb h hm
    obtain ⟨-, -, hstop, hss, -⟩ := hcm.live hb hz
    have hmid : c''.stop.alloc.tab.val.assigned o.base = some a := by
      rcases Nat.lt_or_eq_of_le hkm with hlt | rfl
      · exact ((hcs.leads hb h hk hm hlt).trans hss).keeps ha (hjc (hcs.leads hb h hm hl hml))
      · cases hk.symm.trans hm
        exact ha
    obtain ⟨d', a', hw', -, ha', hlo, hhi, -⟩ := hcm.writes_own hb hz hs hxs hwd
    obtain rfl := hstop.alloc.disjoint hmid ha' hin ⟨hlo, hhi⟩
    exact hxi (hb.tagged.unique hp hw' hwt)

end run

theorem Cycle.rid (hc : Cycle rc dag.nodes w c w') (hb : Built pinned is rc dag) (h : w.Live pinned dag.nodes prev)
    {e : Engine} {x : Entry} (hx : x ∈ FuncUnitPool.slots c.bundle e) {r : Nat} (hr : x.lowered.rid = some r) :
    ∃ ins, is[x.node]? = some ins ∧ ins.rid = r := by
  obtain ⟨l, hM, hent⟩ := hc.inv.entry hx
  obtain ⟨node, b, hl⟩ := hc.landed hb h hM
  refine ⟨node.instr, hb.graph.instr hl.get, ?_⟩
  have hrid : l.instr.rid = node.instr.rid := by
    rw [hl.instr]
    rfl
  rw [← hrid]
  rcases hent with ⟨hxw, -, hk, -, -⟩ | ⟨j, -, -, hxl, -, hk⟩
  · obtain ⟨s, hlow⟩ := FuncUnitPool.lower_ok hk
    rw [hxw, Entry.lowered_whole hlow] at hr
    exact Option.some.inj hr
  · rw [hxl] at hr
    revert hr hk
    cases hop : l.instr.op <;> simp [Entry.lowered, Entry.emit, laneSlot, hop, classify, Op.engine, Op.isGather]

theorem mem_slots_of_emitted {b : Dict Engine (List Entry)} {e : Engine} {s : TaggedSlot}
    (h : s ∈ ((emitted b).get? e).getD []) : ∃ x ∈ FuncUnitPool.slots b e, x.lowered = s := by
  cases hg : (emitted b).get? e with
  | none =>
      rw [hg] at h
      cases h
  | some ss =>
      rw [hg] at h
      have hmem := Dict.mem_items.mpr hg
      rw [items_emitted] at hmem
      obtain ⟨⟨e', es⟩, hes, heq⟩ := List.mem_map.mp hmem
      obtain ⟨rfl, rfl⟩ := Prod.mk.inj heq
      obtain ⟨x, hx, hxs⟩ := List.mem_map.mp h
      exact ⟨x, FuncUnitPool.mem_slots.mpr ⟨es, Dict.mem_items.mp hes, hx⟩, hxs⟩

/-- A slot of the bundles returned, when it carries an id, comes from the node that the id numbers. -/
theorem Cycles.emits_slot (hcs : Cycles rc dag.nodes w cs w') (hb : Built pinned is rc dag)
    (h : w.Live pinned dag.nodes w.dag.val.committed) (hrids : is.map Instr.rid = List.range is.length) {m r : Nat}
    {its : List (Engine × List TaggedSlot)} {e : Engine} {ss : List TaggedSlot} {s : TaggedSlot}
    (hm : (cs.map fun c => (emitted c.bundle).items)[m]? = some its) (hes : (e, ss) ∈ its) (hs : s ∈ ss) (hr : s.rid = some r) :
    ∃ c x, cs[m]? = some c ∧ x ∈ FuncUnitPool.slots c.bundle e ∧ x.lowered = s ∧ x.node = r := by
  rw [List.getElem?_map, Option.map_eq_some_iff] at hm
  obtain ⟨c, hc, rfl⟩ := hm
  have hget := Dict.mem_items.mp hes
  obtain ⟨x, hx, rfl⟩ := mem_slots_of_emitted (by rw [hget]; exact hs)
  obtain ⟨u, v, hu, -, hcyc, -, -⟩ := hcs.at_index hb h hc
  obtain ⟨ins, hins, rfl⟩ := hcyc.rid hb hu hx hr
  have hrid : (is.map Instr.rid)[x.node]? = some ins.rid := by rw [List.getElem?_map, hins]; rfl
  rw [hrids] at hrid
  obtain ⟨_, hrid⟩ := List.getElem?_eq_some_iff.mp hrid
  rw [List.getElem_range] at hrid
  exact ⟨c, x, hc, hx, rfl, hrid⟩

end claims

/-- Latency and lifetimes in every run of either scheduler on a tagged program, whatever the order of
each cycle. -/
theorem latency_and_lifetimes {bs : List TaggedBundle} {k : Nat} (ht : Tagged pinned is rc)
    (hdag : buildDag is pinned = .ok dag) (hrun : SchedulerRun rc dag bs w k) :
    ∃ cs : List CycleRecord, bs = cs.map (fun c => emitted c.bundle) ∧
      Cycles rc dag.nodes (.start dag .init) cs w ∧ RawLatency dag.nodes cs ∧
      OperandsAssigned pinned rc dag.nodes cs ∧
      ∀ {t i j k l}, Span pinned is cs t i j k l → ∃ a, SteadyAt rc dag.nodes cs t i j k l a ∧
        ((∀ ins ∈ is, ins.op.DestShaped) → UndisturbedAt cs t i k l a) := by
  have hb : Built pinned is rc dag := ⟨ht, .of_ok ht.toSingleWriter hdag⟩
  obtain ⟨cs, hbs, hcs, -⟩ := hrun.cycles hb
  have h := hb.start_live.1
  exact ⟨cs, hbs, hcs, hcs.rawLatency hb h, hcs.operandsAssigned hb h, hcs.lifetimes hb h⟩

def smallTagged : List (Instr Operand) :=
  [⟨0, .const (.sym ⟨"x#0", false⟩) 5⟩, ⟨1, .const (.sym ⟨"y#1", false⟩) 7⟩,
    ⟨2, .alu .add (.sym ⟨"z#2", false⟩) (.sym ⟨"x#0", false⟩) (.sym ⟨"y#1", false⟩)⟩,
    ⟨3, .vBroadcast (.sym ⟨"v#3", true⟩) (.sym ⟨"z#2", false⟩)⟩,
    ⟨4, .vStore (.sym ⟨"x#0", false⟩) (.sym ⟨"v#3", true⟩)⟩]

def smallBundles : List (List (Engine × List TaggedSlot)) :=
  [[(.load, [⟨.const 15 5, some 0⟩, ⟨.const 14 7, some 1⟩])], [(.alu, [⟨.arith .add 13 15 14, some 2⟩])],
    [(.valu, [⟨.vbroadcast 16 13, some 3⟩])], [(.store, [⟨.vstore 15 16, some 4⟩])]]

/-- In the small program's greedy run `x` lives from the first cycle to the last. -/
theorem latency_and_lifetimes_small : ∃ is rc dag bs w k cs, tagRawChains smallProgram PINNED = .ok (is, rc) ∧
    buildDag is PINNED = .ok dag ∧ SchedulerRun rc dag bs w k ∧ bs.length = 4 ∧
    bs = cs.map (fun c => emitted c.bundle) ∧ RawLatency dag.nodes cs ∧ OperandsAssigned PINNED rc dag.nodes cs ∧
    Span PINNED is cs ⟨"x#0", false⟩ 0 4 0 3 ∧
    ∃ a, SteadyAt rc dag.nodes cs ⟨"x#0", false⟩ 0 4 0 3 a ∧ UndisturbedAt cs ⟨"x#0", false⟩ 0 0 3 a := by
  have hrun : (do
      let (is, rc) ← tagRawChains smallProgram PINNED
      let dag ← buildDag is PINNED
      let (bs, _) ← schedule dag rc (weightedPicker dag smallWeights) none .init
      .ok (is, bs.map (·.items))) = (.ok (smallTagged, smallBundles) : Except PyErr _) := by decide +kernel
  obtain ⟨⟨is, rc⟩, htag, hrun⟩ := bind_eq_ok.mp hrun
  obtain ⟨dag, hdag, hrun⟩ := bind_eq_ok.mp hrun
  obtain ⟨⟨bs, w⟩, hg, hrun⟩ := bind_eq_ok.mp hrun
  obtain ⟨rfl, hitems⟩ := Prod.mk.inj (Except.ok.inj hrun)
  have ht := tagRawChains_tagged pinned_noHash htag
  have hb : Built PINNED smallTagged rc dag := ⟨ht, .of_ok ht.toSingleWriter hdag⟩
  obtain ⟨w', k, hreach, -⟩ := (Scheduled.greedy _ none w hg).run
  obtain ⟨cs, rfl, hcs, hraw, hops, hlife⟩ := latency_and_lifetimes ht hdag hreach
  have hlen : cs.length = 4 := by simpa [smallBundles] using congrArg List.length hitems
  rw [List.map_map] at hitems
  obtain ⟨c₀, x₀, hc₀, hx₀, -, hn₀⟩ := hcs.emits_slot hb hb.start_live.1 rfl (m := 0) (congrArg (·[0]?) hitems)
    (List.mem_singleton.mpr rfl) (s := ⟨.const 15 5, some 0⟩) (by decide) rfl
  obtain ⟨c₃, x₃, hc₃, hx₃, -, hn₃⟩ := hcs.emits_slot hb hb.start_live.1 rfl (m := 3) (congrArg (·[3]?) hitems)
    (List.mem_singleton.mpr rfl) (s := ⟨.vstore 15 16, some 4⟩) (by decide) rfl
  have hspan : Span PINNED smallTagged cs ⟨"x#0", false⟩ 0 4 0 3 :=
    ⟨by decide, ⟨_, .sym ⟨"x#0", false⟩, rfl, rfl, rfl⟩, ⟨_, rfl, .sym ⟨"x#0", false⟩, by decide, rfl⟩,
      ⟨c₀, hc₀, _, x₀, hx₀, hn₀⟩, c₃, hc₃, _, x₃, hx₃, hn₃⟩
  have hshaped : ∀ ins ∈ smallTagged, ins.op.DestShaped := by
    simp [smallTagged, Op.DestShaped, Op.dest?, Op.width, Operand.isScalar, Operand.isVector, VLEN]
  obtain ⟨a, hsteady, hundisturbed⟩ := hlife hspan
  exact ⟨smallTagged, rc, dag, _, w', k, cs, htag, hdag, hreach, by rw [List.length_map, hlen], rfl, hraw, hops, hspan, a, hsteady,
    hundisturbed hshaped⟩

section misshapen

/-- An elementwise operation whose destination is a scalar. -/
def misshapen : List (Instr Operand) :=
  [⟨0, .const (.sym ⟨"x", false⟩) 5⟩, ⟨1, .const (.sym ⟨"y", false⟩) 7⟩,
    ⟨2, .vBroadcast (.sym ⟨"v", true⟩) (.sym ⟨"x", false⟩)⟩,
    ⟨3, .vecElem .add (.sym ⟨"z", false⟩) (.sym ⟨"v", true⟩) (.sym ⟨"v", true⟩)⟩,
    ⟨4, .alu .add (.sym ⟨"s", false⟩) (.sym ⟨"z", false⟩) (.sym ⟨"x", false⟩)⟩,
    ⟨5, .alu .add (.sym ⟨"r", false⟩) (.sym ⟨"s", false⟩) (.sym ⟨"y", false⟩)⟩]

def misshapenTagged : List (Instr Operand) :=
  [⟨0, .const (.sym ⟨"x#0", false⟩) 5⟩, ⟨1, .const (.sym ⟨"y#1", false⟩) 7⟩,
    ⟨2, .vBroadcast (.sym ⟨"v#2", true⟩) (.sym ⟨"x#0", false⟩)⟩,
    ⟨3, .vecElem .add (.sym ⟨"z#3", false⟩) (.sym ⟨"v#2", true⟩) (.sym ⟨"v#2", true⟩)⟩,
    ⟨4, .alu .add (.sym ⟨"s#4", false⟩) (.sym ⟨"z#3", false⟩) (.sym ⟨"x#0", false⟩)⟩,
    ⟨5, .alu .add (.sym ⟨"r#5", false⟩) (.sym ⟨"s#4", false⟩) (.sym ⟨"y#1", false⟩)⟩]

def misshapenBundles : List (List (Engine × List TaggedSlot)) :=
  [[(.load, [⟨.const 15 5, some 0⟩, ⟨.const 14 7, some 1⟩])],
    [(.valu, [⟨.vbroadcast 16 15, some 2⟩])],
    [(.valu, [⟨.arith .add 13 16 16, some 3⟩])],
    [(.alu, [⟨.arith .add 12 13 15, some 4⟩])],
    [(.alu, [⟨.arith .add 15 12 14, some 5⟩])]]

/-- The eight lanes of `z` overwrite `y`, which a later instruction reads. -/
theorem misshapen_disturbed : ∃ is rc dag bs w k cs, tagRawChains misshapen PINNED = .ok (is, rc) ∧
    buildDag is PINNED = .ok dag ∧ (∀ ins ∈ is, ∀ d, ins.op.dest? = some d → isPinned PINNED d.base = false) ∧
    SchedulerRun rc dag bs w k ∧ bs = cs.map (fun c => emitted c.bundle) ∧
    Cycles rc dag.nodes (.start dag .init) cs w ∧ Span PINNED is cs ⟨"y#1", false⟩ 1 5 0 4 ∧
    ¬ ∃ a, SteadyAt rc dag.nodes cs ⟨"y#1", false⟩ 1 5 0 4 a ∧ UndisturbedAt cs ⟨"y#1", false⟩ 1 0 4 a := by
  have hrun : (do
      let (is, rc) ← tagRawChains misshapen PINNED
      let dag ← buildDag is PINNED
      let (bs, _) ← schedule dag rc (weightedPicker dag smallWeights) none .init
      .ok (is, bs.map (·.items))) = (.ok (misshapenTagged, misshapenBundles) : Except PyErr _) := by decide +kernel
  obtain ⟨⟨is, rc⟩, htag, hrun⟩ := bind_eq_ok.mp hrun
  obtain ⟨dag, hdag, hrun⟩ := bind_eq_ok.mp hrun
  obtain ⟨⟨bs, w⟩, hg, hrun⟩ := bind_eq_ok.mp hrun
  obtain ⟨rfl, hbs⟩ := Prod.mk.inj (Except.ok.inj hrun)
  have ht := tagRawChains_tagged pinned_noHash htag
  have hb : Built PINNED misshapenTagged rc dag := ⟨ht, .of_ok ht.toSingleWriter hdag⟩
  obtain ⟨w', k, hreach, -⟩ := (Scheduled.greedy _ none w hg).run
  obtain ⟨cs, rfl, hcs, -⟩ := hreach.cycles hb
  have h := hb.start_live.1
  rw [List.map_map] at hbs
  obtain ⟨c₀, x₀, hc₀, hx₀, hs₀, hn₀⟩ := hcs.emits_slot hb h rfl (m := 0) (congrArg (·[0]?) hbs) (List.mem_singleton.mpr rfl)
    (s := ⟨.const 14 7, some 1⟩) (by decide) rfl
  obtain ⟨c₂, x₂, hc₂, hx₂, hs₂, hn₂⟩ := hcs.emits_slot hb h rfl (m := 2) (congrArg (·[2]?) hbs) (List.mem_singleton.mpr rfl)
    (s := ⟨.arith .add 13 16 16, some 3⟩) (by decide) rfl
  obtain ⟨c₄, x₄, hc₄, hx₄, -, hn₄⟩ := hcs.emits_slot hb h rfl (m := 4) (congrArg (·[4]?) hbs) (List.mem_singleton.mpr rfl)
    (s := ⟨.arith .add 15 12 14, some 5⟩) (by decide) rfl
  refine ⟨misshapenTagged, rc, dag, _, w', k, cs, htag, hdag, by decide, hreach, rfl, hcs,
    ⟨by decide, ⟨_, .sym ⟨"y#1", false⟩, rfl, rfl, rfl⟩, ⟨_, rfl, .sym ⟨"y#1", false⟩, by decide, rfl⟩,
      ⟨c₀, hc₀, _, x₀, hx₀, hn₀⟩, c₄, hc₄, _, x₄, hx₄, hn₄⟩, ?_⟩
  rintro ⟨a, hsteady, hundisturbed⟩
  obtain ⟨u, v, hu, -, hc, -, -⟩ := hcs.at_index hb h hc₀
  obtain ⟨-, -, hstop, -⟩ := hc.live hb hu
  obtain ⟨l, hM, -⟩ := hc.inv.entry hx₀
  obtain ⟨node, b, hl⟩ := hc.landed hb hu hM
  have hins : node.instr = ⟨1, .const (.sym ⟨"y#1", false⟩) 7⟩ := by
    have := hb.graph.instr hl.get
    rw [hn₀] at this
    exact (Option.some.inj this).symm
  have hshape : node.instr.op.DestShaped := by
    rw [hins]
    exact (Op.Shaped.dest (o := .const _ _) rfl)
  have hwd : 14 ∈ x₀.writes .load := by
    rw [Entry.writes, hs₀]
    decide
  obtain ⟨d, a', hd, -, ha', hlo, hhi, -⟩ := hl.entry_writes hshape hc.inv hM (hl.hi ▸ hstop.lanes_le hl.get) hx₀ rfl hwd
  rw [hins] at hd
  cases hd
  obtain ⟨s, hstopped⟩ := hc.run
  have hpt : c₀.Point rc dag.nodes c₀.order [] c₀.stop := ⟨by simp, s, hstopped⟩
  have ha := hsteady hc₀ hpt (.inr ⟨rfl, hn₀ ▸ hl.mem⟩) (.inl (by decide))
  have haa : a = a' := Option.some.inj (ha.symm.trans ha')
  have hwd₂ : 14 ∈ x₂.writes .valu := by
    rw [Entry.writes, hs₂]
    decide
  refine hundisturbed hc₂ (by decide) (by decide) hx₂ (by rw [hn₂]; decide) hwd₂ ?_
  have hextent : (⟨"y#1", false⟩ : Sym).extent = 1 := rfl
  rw [show (Operand.sym ⟨"y#1", false⟩).base = ⟨"y#1", false⟩ from rfl] at hhi
  omega

end misshapen

end Vliw
