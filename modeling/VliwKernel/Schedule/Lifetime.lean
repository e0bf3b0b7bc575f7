import VliwKernel.Schedule.Trial
import Mathlib.Algebra.Order.BigOperators.Group.Finset

/-!
# Register lifetimes

A tag that holds a register expects exactly the reads of the nodes not yet committed, and a node
that has landed lanes holds its register until the last of them. So an address stays the same from
the first lane of the writer to the last read.
-/

namespace Vliw
open RegisterAllocator

/-- A tagged program with its read counts and its graph. -/
structure Built (pinned : List String) (is : List (Instr Operand)) (rc : Sym → Option Int) (dag : Dag) : Prop where
  tagged : Tagged pinned is rc
  graph : DagOf pinned is dag

def readsOf (nodes : List DNode) (t : Sym) (i : Nat) : Nat := ((nodes[i]?.map fun n => n.instr.occ t).getD 0)

def pendingReads (nodes : List DNode) (committed : Nat → Bool) (t : Sym) : Nat :=
  ∑ i ∈ Finset.range nodes.length, if committed i then 0 else readsOf nodes t i

section reads

variable {nodes : List DNode} {c c' : Nat → Bool} {t : Sym} {i : Nat} {node : DNode}

theorem readsOf_eq (h : nodes[i]? = some node) (t : Sym) : readsOf nodes t i = node.instr.occ t := by
  simp [readsOf, h]

theorem occ_eq_baseCount (ins : Instr Operand) (t : Sym) : ins.occ t = baseCount ins.readOperands t := rfl

theorem occ_pos {ins : Instr Operand} : 0 < ins.occ t ↔ ∃ o ∈ ins.readOperands, o.base = t := by
  simp [Instr.occ, List.count_pos_iff]

theorem pendingReads_anti (h : ∀ i, c i = true → c' i = true) (t : Sym) :
    pendingReads nodes c' t ≤ pendingReads nodes c t := by
  refine Finset.sum_le_sum fun i _ => ?_
  by_cases hi : c i = true
  · simp [hi, h i hi]
  · rw [if_neg hi]
    split
    · exact Nat.zero_le _
    · exact Nat.le_refl _

theorem pendingReads_commit (hi : nodes[i]? = some node) (hc : c i = false) (t : Sym) :
    pendingReads nodes (Function.update c i true) t + node.instr.occ t = pendingReads nodes c t := by
  have hmem : i ∈ Finset.range nodes.length := Finset.mem_range.mpr (List.getElem?_eq_some_iff.mp hi).1
  have hrest : ∀ j ∈ (Finset.range nodes.length).erase i, (if Function.update c i true j then 0 else readsOf nodes t j) =
      if c j then 0 else readsOf nodes t j := by
    intro j hj
    rw [Function.update_of_ne (Finset.ne_of_mem_erase hj)]
  rw [pendingReads, pendingReads, ← Finset.add_sum_erase _ _ hmem, ← Finset.add_sum_erase _ _ hmem,
    Finset.sum_congr rfl hrest]
  simp [hc, readsOf_eq hi, Nat.add_comm]

theorem occ_le_pendingReads (hi : nodes[i]? = some node) (hc : c i = false) (t : Sym) :
    node.instr.occ t ≤ pendingReads nodes c t := by
  rw [← pendingReads_commit hi hc]
  omega

theorem pendingReads_none (t : Sym) : pendingReads nodes (fun _ => false) t = totalOcc (nodes.map DNode.instr) t := by
  simp only [pendingReads, Bool.false_eq_true, if_false, totalOcc, List.map_map]
  induction nodes using List.reverseRecOn with
  | nil => rfl
  | append_singleton l n ih =>
      have hl : ∀ i ∈ Finset.range l.length, readsOf (l ++ [n]) t i = readsOf l t i := by
        intro i hi
        rw [readsOf, readsOf, List.getElem?_append_left (Finset.mem_range.mp hi)]
      rw [List.length_append, List.length_singleton, Finset.sum_range_succ, Finset.sum_congr rfl hl, ih]
      simp [readsOf]

end reads

namespace Built

variable {pinned : List String} {is : List (Instr Operand)} {rc : Sym → Option Int} {dag : Dag}
  {prev : Nat → Bool} {s : DagState} {i j : Nat} {node : DNode} {t : Sym} {d o : Operand}

theorem oneWriter (h : Built pinned is rc dag) : OneWriter dag.nodes rc := h.graph.oneWriter h.tagged.toSingleWriter

theorem instrs (h : Built pinned is rc dag) : dag.nodes.map DNode.instr = is := by
  refine List.ext_getElem? fun i => ?_
  rw [List.getElem?_map]
  cases hi : dag.nodes[i]? with
  | some n => exact (h.graph.instr hi).symm
  | none =>
      rw [List.getElem?_eq_none_iff, h.graph.length] at hi
      exact (List.getElem?_eq_none hi).symm

theorem writesTag (h : Built pinned is rc dag) (hi : dag.nodes[i]? = some node) (hd : node.instr.op.dest? = some d) :
    WritesTag is i d.base := ⟨node.instr, d, h.graph.instr hi, hd, rfl⟩

theorem node_of_writes (h : Built pinned is rc dag) (hw : WritesTag is i t) :
    ∃ n d, dag.nodes[i]? = some n ∧ n.instr.op.dest? = some d ∧ d.base = t := by
  obtain ⟨ins, d, hi, hd, hdt⟩ := hw
  have hlt := (List.getElem?_eq_some_iff.mp hi).1
  rw [← h.graph.length] at hlt
  have hn : dag.nodes[i]? = some dag.nodes[i] := List.getElem?_eq_getElem hlt
  have := (h.graph.instr hn).symm.trans hi
  cases this
  exact ⟨_, d, hn, hd, hdt⟩

/-- A read of a tag follows its writer in the list, along a RAW edge. -/
theorem writer_of_read (h : Built pinned is rc dag) (hj : dag.nodes[j]? = some node) (ho : o ∈ node.instr.readOperands)
    (hp : isPinned pinned o.base = false) :
    ∃ i < j, WritesTag is i o.base ∧ (i, 1) ∈ Dag.inEdges dag.nodes j := by
  obtain ⟨i, hij, hw⟩ := h.tagged.defined (h.graph.instr hj) ho hp
  exact ⟨i, hij, hw, h.graph.edge.mpr ⟨rfl, hij, node.instr, o, h.graph.instr hj, ho, hp, hw⟩⟩

/-- Up to the end of the cycle in which its writer is committed nothing has read a tag. -/
theorem pending_total (h : Built pinned is rc dag) (hd : Dag.Inv dag.nodes prev s) (hw : WritesTag is i t)
    (hp : isPinned pinned t = false) (hc : prev i = false) :
    pendingReads dag.nodes s.committed t = totalOcc is t := by
  rw [← h.instrs, ← pendingReads_none]
  refine Finset.sum_congr rfl fun j hj => ?_
  cases hcj : s.committed j with
  | false => rfl
  | true =>
      have hlt := Finset.mem_range.mp hj
      have hn : dag.nodes[j]? = some dag.nodes[j] := List.getElem?_eq_getElem hlt
      rw [if_pos rfl, if_neg (by simp), readsOf_eq hn]
      by_contra hne
      obtain ⟨o, ho, hot⟩ := occ_pos.mp (Nat.pos_of_ne_zero (Ne.symm hne))
      obtain ⟨k, -, hw', he⟩ := h.writer_of_read hn ho (hot ▸ hp)
      obtain rfl := h.tagged.unique hp hw (hot ▸ hw')
      rw [((hd.closed hcj).2 _ he).2 rfl] at hc
      cases hc

end Built

/-- The state invariant of a run from a fresh allocator. -/
structure World.Live (pinned : List String) (nodes : List DNode) (prev : Nat → Bool) (w : World) : Prop
    extends w.Ok nodes prev where
  owner : ∀ {t a}, w.alloc.tab.val.assigned t = some a → isPinned pinned t = false ∧ ∃ i n d, nodes[i]? = some n ∧
    n.instr.op.dest? = some d ∧ d.base = t ∧ (n.instr.op.isGather = true ∨ 0 < w.place.val.lanesDone i)
  counted : ∀ {t a}, w.alloc.tab.val.assigned t = some a →
    w.alloc.tab.val.remaining t = some (pendingReads nodes w.dag.val.committed t : Int)
  held : ∀ {i n d}, nodes[i]? = some n → n.instr.op.dest? = some d → isPinned pinned d.base = false →
    0 < w.place.val.lanesDone i →
    0 < pendingReads nodes w.dag.val.committed d.base ∨ totalOcc (nodes.map DNode.instr) d.base = 0 →
    (w.alloc.tab.val.assigned d.base).isSome

/-- The tag is read by a node not yet committed, or never. -/
def World.Awaited (nodes : List DNode) (w : World) (t : Sym) : Prop :=
  0 < pendingReads nodes w.dag.val.committed t ∨ totalOcc (nodes.map DNode.instr) t = 0

/-- `w'` comes after `w` in a run: nothing is uncommitted, awaited tags keep their registers, and a tag
whose writer is committed gets no new one. -/
structure World.Leads (nodes : List DNode) (w w' : World) : Prop where
  committed : ∀ {i}, w.dag.val.committed i = true → w'.dag.val.committed i = true
  lanes : ∀ i, w.place.val.lanesDone i ≤ w'.place.val.lanesDone i
  keeps : ∀ {t a}, w.alloc.tab.val.assigned t = some a → w'.Awaited nodes t → w'.alloc.tab.val.assigned t = some a
  settled : ∀ {i n d a}, nodes[i]? = some n → n.instr.op.dest? = some d → w.dag.val.committed i = true →
    w'.alloc.tab.val.assigned d.base = some a → w.alloc.tab.val.assigned d.base = some a

namespace World

variable {nodes : List DNode} {w v u : World} {t : Sym}

theorem Leads.refl (nodes : List DNode) (w : World) : w.Leads nodes w :=
  ⟨id, fun _ => Nat.le_refl _, fun h _ => h, fun _ _ _ h => h⟩

theorem Leads.awaited (h : w.Leads nodes v) (ha : v.Awaited nodes t) : w.Awaited nodes t :=
  ha.imp_left fun hp => Nat.lt_of_lt_of_le hp (pendingReads_anti (fun _ => h.committed) t)

theorem Leads.trans (h : w.Leads nodes v) (h' : v.Leads nodes u) : w.Leads nodes u :=
  ⟨fun hc => h'.committed (h.committed hc), fun i => Nat.le_trans (h.lanes i) (h'.lanes i),
    fun hs ha => h'.keeps (h.keeps hs (h'.awaited ha)) ha,
    fun hi hd hc ha => h.settled hi hd hc (h'.settled hi hd (h.committed hc) ha)⟩

theorem Leads.of_vals (nodes : List DNode) (hd : v.dag.val.committed = w.dag.val.committed) (hp : v.place.val = w.place.val)
    (ha : v.alloc.tab.val.assigned = w.alloc.tab.val.assigned) : w.Leads nodes v :=
  ⟨fun hc => hd ▸ hc, fun i => by rw [hp], fun hs _ => ha ▸ hs, fun _ _ _ hs => ha ▸ hs⟩

end World

section step

variable {pinned : List String} {is : List (Instr Operand)} {rc : Sym → Option Int} {dag : Dag}
  {prev : Nat → Bool} {w w' : World} {i : Nat} {node : DNode} {x : Option Landing} {done : Bool}

theorem World.Live.of_vals {nodes : List DNode} {v : World} (h : w.Live pinned nodes prev) (hd : v.dag.val = w.dag.val)
    (hp : v.place.val = w.place.val) (ha : v.alloc.tab.val = w.alloc.tab.val) : v.Live pinned nodes prev where
  toOk := h.toOk.of_vals hd hp ha
  owner := by simpa only [hp, ha] using @h.owner
  counted := by simpa only [hd, ha] using @h.counted
  held := by simpa only [hd, hp, ha] using @h.held

/-- A register acquired for a node of the frontier keeps the books. -/
theorem World.Live.acquire (hb : Built pinned is rc dag) (h : w.Live pinned dag.nodes prev) (hn : dag.nodes[i]? = some node)
    (hf : w.dag.val.frontier i = true) {fresh : List Sym} {b : RegisterAllocator}
    (ha : Acquire rc node.instr w.alloc (some fresh) b) :
    b.tab.val.Inv ∧ (∀ {t a}, w.alloc.tab.val.assigned t = some a → b.tab.val.assigned t = some a) ∧
      (∀ {t a}, b.tab.val.assigned t = some a → w.alloc.tab.val.assigned t = some a ∨
        (isPinned pinned t = false ∧ ∃ d, node.instr.op.dest? = some d ∧ d.base = t)) ∧
      (∀ {t a}, b.tab.val.assigned t = some a →
        b.tab.val.remaining t = some (pendingReads dag.nodes w.dag.val.committed t : Int)) ∧
      ∀ {d}, node.instr.op.dest? = some d → (b.tab.val.assigned d.base).isSome := by
  refine ⟨ha.inv h.alloc, ?_⟩
  cases ha with
  | noDest hd => exact ⟨id, .inl, h.counted, fun hd' => by rw [hd] at hd'; cases hd'⟩
  | @sticky d addr hd hs =>
      refine ⟨id, .inl, h.counted, fun hd' => ?_⟩
      cases hd.symm.trans hd'
      simp [hs]
  | @fresh d n addr _ hd hs hrc hw =>
      have hp : isPinned pinned d.base = false := by
        rw [← Bool.not_eq_true]
        intro hp
        rw [hb.tagged.pinned_none hp] at hrc
        cases hrc
      have hne : ∀ {t a}, w.alloc.tab.val.assigned t = some a → t ≠ d.base := by
        rintro t a ht rfl
        rw [hs] at ht
        cases ht
      have hc : prev i = false := h.dag.prev_false hf
      refine ⟨fun ht => ?_, fun {t a} ht => ?_, fun {t a} ht => ?_, fun hd' => ?_⟩
      · rw [hw.assigned, Function.update_of_ne (hne ht)]
        exact ht
      · by_cases htd : t = d.base
        · subst htd
          exact .inr ⟨hp, d, hd, rfl⟩
        · rw [hw.assigned, Function.update_of_ne htd] at ht
          exact .inl ht
      · by_cases htd : t = d.base
        · subst htd
          rw [hw.remaining, Function.update_self, hb.pending_total h.dag (hb.writesTag hn hd) hp hc,
            ← hb.tagged.count hp (hb.writesTag hn hd), hrc]
        · rw [hw.assigned, Function.update_of_ne htd] at ht
          rw [hw.remaining, Function.update_of_ne htd]
          exact h.counted ht
      · cases hd.symm.trans hd'
        simp [hw.assigned]

/-- Committing a node consumes its reads: a tag loses its register with its last read. -/
theorem commitReads_counted (hn : dag.nodes[i]? = some node)
    (hc : w.dag.val.committed i = false) {b c : RegisterAllocator} {n : Nat} (hinv : b.tab.val.Inv)
    (hcount : ∀ {t a}, b.tab.val.assigned t = some a →
      b.tab.val.remaining t = some (pendingReads dag.nodes w.dag.val.committed t : Int))
    (hr : commitReads node.instr b = .ok (c, n)) :
    c.tab.val.Inv ∧ (∀ {t a}, c.tab.val.assigned t = some a → b.tab.val.assigned t = some a) ∧
      (∀ {t a}, c.tab.val.assigned t = some a → c.tab.val.remaining t =
        some (pendingReads dag.nodes (Function.update w.dag.val.committed i true) t : Int)) ∧
      (∀ {t a}, b.tab.val.assigned t = some a →
        0 < pendingReads dag.nodes (Function.update w.dag.val.committed i true) t ∨
          totalOcc (dag.nodes.map DNode.instr) t = 0 → c.tab.val.assigned t = some a) ∧
      ∀ {t a}, c.tab.val.assigned t = some a → w.Awaited dag.nodes t →
        0 < pendingReads dag.nodes (Function.update w.dag.val.committed i true) t ∨
          totalOcc (dag.nodes.map DNode.instr) t = 0 := by
  have hpend := fun t => pendingReads_commit hn hc t
  have hle := fun t => occ_le_pendingReads hn hc t
  obtain ⟨c', hc', hcons⟩ := commitReads_ok (fun _ => none) (i := node.instr) hinv fun o ho hs => by
    obtain ⟨a, ha⟩ := Option.isSome_iff_exists.mp hs
    exact ⟨_, hcount ha, hle _⟩
  cases hr.symm.trans hc'
  have hass : ∀ {t a}, b.tab.val.assigned t = some a → c.tab.val.assigned t =
      if 0 < node.instr.occ t ∧ pendingReads dag.nodes w.dag.val.committed t = node.instr.occ t then none else some a := by
    intro t a ha
    rw [hcons.assigned, hcount ha, ha]
    simp only [← occ_eq_baseCount, Option.some.injEq, Nat.cast_inj]
  have hback : ∀ {t a}, c.tab.val.assigned t = some a → b.tab.val.assigned t = some a := by
    intro t a ha
    rw [hcons.assigned] at ha
    split at ha
    · cases ha
    · exact ha
  refine ⟨hcons.inv, hback, fun {t a} ha => ?_, fun {t a} ha hw => ?_, fun {t a} ha hw => ?_⟩
  · have hb := hass (hback ha)
    rw [ha] at hb
    split at hb
    · cases hb
    · next hfree =>
        rw [hcons.remaining, hcount (hback ha)]
        simp only [← occ_eq_baseCount, Option.some.injEq, Nat.cast_inj, if_neg hfree, Option.map_some]
        have := hpend t
        omega
  · rw [hass ha, if_neg]
    rintro ⟨hpos, heq⟩
    have := hpend t
    rcases hw with hw | hw
    · omega
    · have hle' : node.instr.occ t ≤ totalOcc (dag.nodes.map DNode.instr) t := by
        rw [← pendingReads_none]
        exact occ_le_pendingReads (c := fun _ => false) hn rfl t
      omega
  · refine hw.imp_left fun hpos => ?_
    have hb := hass (hback ha)
    rw [ha] at hb
    have := hpend t
    split at hb
    · cases hb
    · omega

/-- A tag whose writer is not yet resolved is awaited. -/
theorem World.Live.awaited_dest (hb : Built pinned is rc dag) (h : w.Live pinned dag.nodes prev) {t : Sym}
    (hw : WritesTag is i t) (hp : isPinned pinned t = false) (hc : prev i = false) : w.Awaited dag.nodes t := by
  have := hb.pending_total h.dag hw hp hc
  rw [World.Awaited, hb.instrs]
  omega

/-- A node step keeps the invariant and leads on. -/
theorem NodeStep.live (hb : Built pinned is rc dag) (h : w.Live pinned dag.nodes prev)
    (hn : dag.nodes[i]? = some node) (hf : w.dag.val.frontier i = true)
    (hs : NodeStep rc dag.nodes i node.instr w x done w') :
    w'.Live pinned dag.nodes prev ∧ w.Leads dag.nodes w' := by
  have hok := hs.ok hb.graph.wf hb.oneWriter hn h.toOk hf
  have hcomm := (hs.dag_inv hb.graph.wf h.dag hf).2
  have hmono : ∀ {j}, w.dag.val.committed j = true → w'.dag.val.committed j = true := by
    intro j hj
    rw [hcomm]
    cases done with
    | false => exact hj
    | true => simp [Function.update_apply, hj]
  have hlanes := hs.lanes_mono
  have hne := fun j => @NodeStep.lanes_of_ne _ _ _ _ _ _ _ _ hs j
  -- the two halves of the invariant that follow from what happens to the tables
  have key : (∀ {t a}, w'.alloc.tab.val.assigned t = some a → w.alloc.tab.val.assigned t = some a ∨
        (isPinned pinned t = false ∧ ∃ d, node.instr.op.dest? = some d ∧ d.base = t)) ∧
      (∀ {t a}, w'.alloc.tab.val.assigned t = some a → w'.alloc.tab.val.remaining t =
        some (pendingReads dag.nodes w'.dag.val.committed t : Int)) ∧
      (∀ {t a}, w.alloc.tab.val.assigned t = some a → w'.Awaited dag.nodes t →
        w'.alloc.tab.val.assigned t = some a) ∧
      ∀ {d}, node.instr.op.dest? = some d → isPinned pinned d.base = false → 0 < w'.place.val.lanesDone i →
        w'.Awaited dag.nodes d.base → (w'.alloc.tab.val.assigned d.base).isSome := by
    cases hs with
    | idle _ ha hr _ =>
        refine ⟨fun ht => .inl (ha ▸ ht), fun ht => ?_, fun ht _ => ha ▸ ht, fun hd hp hl hw => ?_⟩
        · rw [hr]
          exact h.counted (ha ▸ ht)
        · rw [ha]
          exact h.held hn hd hp hl hw
    | held _ ha =>
        obtain ⟨-, hkeep, hnew, hcnt, hdest⟩ := h.acquire hb hn hf ha
        exact ⟨hnew, hcnt, fun ht _ => hkeep ht, fun hd _ _ _ => hdest hd⟩
    | landed ha _ _ _ _ =>
        obtain ⟨-, hkeep, hnew, hcnt, hdest⟩ := h.acquire hb hn hf ha
        exact ⟨hnew, hcnt, fun ht _ => hkeep ht, fun hd _ _ _ => hdest hd⟩
    | done ha _ _ _ _ hr =>
        obtain ⟨hinv, hkeep, hnew, hcnt, hdest⟩ := h.acquire hb hn hf ha
        obtain ⟨-, hback, hcnt', hstay, -⟩ := commitReads_counted hn (h.dag.frontier_iff.mp hf).2.1 hinv hcnt hr
        refine ⟨fun ht => hnew (hback ht), fun ht => ?_, fun ht hw => ?_, fun hd _ _ hw => ?_⟩
        · rw [hcomm]
          exact hcnt' ht
        · rw [World.Awaited, hcomm] at hw
          exact hstay (hkeep ht) hw
        · obtain ⟨a, ha⟩ := Option.isSome_iff_exists.mp (hdest hd)
          rw [World.Awaited, hcomm] at hw
          rw [hstay ha hw]
          rfl
  obtain ⟨hnew, hcnt, hkeep, hdest⟩ := key
  refine ⟨⟨hok, fun {t a} ht => ?_, hcnt, fun {j n d} hj hd hp hl hw => ?_⟩, hmono, hlanes, hkeep,
    fun {j n d a} hj hd hc ha => (hnew ha).resolve_right ?_⟩
  · have hlane := (hs.assigned_of h.alloc (t := t) (by simp [ht]))
    rcases hnew ht with hold | ⟨hp, d, hd, hdt⟩
    · obtain ⟨hp, j, n, d, hj, hd, hdt, hg⟩ := h.owner hold
      exact ⟨hp, j, n, d, hj, hd, hdt, hg.imp_right fun hl => Nat.lt_of_lt_of_le hl (hlanes j)⟩
    · refine ⟨hp, i, node, d, hn, hd, hdt, ?_⟩
      rcases hlane with hold | ⟨-, -, -, -, hg⟩
      · obtain ⟨a', hold⟩ := Option.isSome_iff_exists.mp hold
        obtain ⟨-, j, m, e, hj, he, het, hg⟩ := h.owner hold
        obtain rfl := hb.tagged.unique hp (hdt ▸ hb.writesTag hn hd) (het ▸ hb.writesTag hj he)
        cases hn.symm.trans hj
        exact hg.imp_right fun hl => Nat.lt_of_lt_of_le hl (hlanes i)
      · exact hg
  · by_cases hji : j = i
    · subst hji
      cases hn.symm.trans hj
      exact hdest hd hp hl hw
    · have hbefore : w.Awaited dag.nodes d.base := hw.imp_left fun h0 => Nat.lt_of_lt_of_le h0 (pendingReads_anti (fun _ => hmono) _)
      obtain ⟨a, ha⟩ := Option.isSome_iff_exists.mp (h.held hj hd hp (hne j hji ▸ hl) hbefore)
      rw [hkeep ha hw]
      rfl
  · rintro ⟨hp, d', hd', hdd⟩
    obtain rfl := hb.tagged.unique hp (hdd ▸ hb.writesTag hn hd') (hb.writesTag hj hd)
    rw [(h.dag.frontier_iff.mp hf).2.1] at hc
    cases hc

theorem NodeStep.landing_keeps (hb : Built pinned is rc dag) (h : w.Live pinned dag.nodes prev)
    (hn : dag.nodes[i]? = some node) (hf : w.dag.val.frontier i = true) {l : Landing}
    (hs : NodeStep rc dag.nodes i node.instr w (some l) done w') :
    ∃ fresh b, Acquire rc node.instr w.alloc (some fresh) b ∧ l.instr = placedInstr node.instr b ∧
      ∀ {t a}, b.tab.val.assigned t = some a → w'.Awaited dag.nodes t → w'.alloc.tab.val.assigned t = some a := by
  have hcomm := (hs.dag_inv hb.graph.wf h.dag hf).2
  cases hs with
  | landed ha _ _ _ _ => exact ⟨_, _, ha, rfl, fun ht _ => ht⟩
  | done ha _ _ _ _ hr =>
      obtain ⟨hinv, -, -, hcnt, -⟩ := h.acquire hb hn hf ha
      obtain ⟨-, -, -, hstay, -⟩ := commitReads_counted hn (h.dag.frontier_iff.mp hf).2.1 hinv hcnt hr
      refine ⟨_, _, ha, rfl, fun ht hw => hstay ht ?_⟩
      rwa [World.Awaited, hcomm] at hw

end step
end Vliw
