import VliwKernel.Schedule.Cycle
import VliwKernel.Scheduler.Prune
import VliwKernel.Semantics.Orders

/-!
# Pruning keeps what the stores compute

The kept instructions of a tagged program are a tagged program with the pruned graph as its graph. Every tag
they write is read among them, and in their new order they leave the same memory.
-/

namespace Vliw

variable {pinned : List String} {is : List (Instr Operand)} {rc : Sym → Option Int} {dag dag' : Dag} {ids : List Nat}
  {i j k : Nat} {t : Sym} {ins : Instr Operand}

def Dag.instrs (dag : Dag) : List (Instr Operand) := dag.nodes.map DNode.instr

section counts

theorem totalOcc_eq_count (is : List (Instr Operand)) (t : Sym) :
    totalOcc is t = ((is.flatMap Instr.readOperands).map Operand.base).count t := by
  rw [List.map_flatMap, List.count_flatMap]
  rfl

theorem totalOcc_pos : 0 < totalOcc is t ↔ ∃ j, ReadsTag is j t := by
  rw [totalOcc_eq_count, List.count_pos_iff, List.mem_map]
  simp only [List.mem_flatMap]
  constructor
  · rintro ⟨o, ⟨ins, hins, ho⟩, hb⟩
    obtain ⟨j, hj⟩ := List.getElem?_of_mem hins
    exact ⟨j, ins, o, hj, ho, hb⟩
  · rintro ⟨j, ins, o, hj, ho, hb⟩
    exact ⟨o, ⟨ins, List.mem_of_getElem? hj, ho⟩, hb⟩

/-- The recomputed counts: the read occurrences of each tag that is read at all. -/
theorem recomputeReadCount_eq (is : List (Instr Operand)) (pinned : List String) (t : Sym) :
    recomputeReadCount is pinned t = if isPinned pinned t = true ∨ totalOcc is t = 0 then none else some (totalOcc is t : Int) := by
  have hloop : ∀ (os : List Operand) (counts : Sym → Option Int), os.foldl (fun (counts : Sym → Option Int) (o : Operand) =>
      if isPinned pinned o.base then counts
      else Function.update counts o.base (some ((counts o.base).getD 0 + 1))) counts t =
      if isPinned pinned t = true ∨ (os.map Operand.base).count t = 0 then counts t
      else some ((counts t).getD 0 + ((os.map Operand.base).count t : Nat)) := by
    intro os
    induction os with
    | nil => intro counts; simp
    | cons o os ih =>
        intro counts
        rw [List.foldl_cons, ih, List.map_cons]
        by_cases hot : o.base = t
        · subst hot
          cases hp : isPinned pinned o.base with
          | true => simp
          | false =>
              simp only [Bool.false_eq_true, false_or, if_false, Function.update_self, List.count_cons_self,
                Nat.succ_ne_zero, Option.getD_some]
              split
              · next h => simp [h]
              · push_cast
                congr 1
                omega
        · rw [List.count_cons_of_ne hot]
          have hc : (if isPinned pinned o.base = true then counts
              else Function.update counts o.base (some ((counts o.base).getD 0 + 1))) t = counts t := by
            split
            · rfl
            · exact Function.update_of_ne (Ne.symm hot) _ _
          rw [hc]
  rw [recomputeReadCount, hloop, totalOcc_eq_count]
  simp

end counts

section pruned

variable (ht : Tagged pinned is rc) (hd : DagOf pinned is dag) (hp : Pruned dag.nodes dag'.nodes ids)

include hd hp

theorem Pruned.instrs_getElem? (k : Nat) : dag'.instrs[k]? = ids[k]?.bind (is[·]?) := by
  rw [Dag.instrs, List.getElem?_map]
  cases hk : ids[k]? with
  | none =>
      rw [List.getElem?_eq_none (by rw [hp.length]; exact List.getElem?_eq_none_iff.mp hk)]
      rfl
  | some i =>
      have hn := List.getElem?_eq_getElem (hp.mem.mp (List.mem_of_getElem? hk)).1
      rw [hp.node hk hn, Option.map_some, Option.bind_some, hd.instr hn]

theorem Pruned.instrs_eq : dag'.instrs = reordered is ids := by
  have hlt : ∀ i ∈ ids, i < is.length := fun i hi => hd.length ▸ (hp.mem.mp hi).1
  refine List.ext_getElem? fun k => ?_
  rw [hp.instrs_getElem? hd, reordered_getElem? hlt]

theorem Pruned.writesTag_iff : WritesTag dag'.instrs k t ↔ ∃ i, ids[k]? = some i ∧ WritesTag is i t := by
  simp only [WritesTag, hp.instrs_getElem? hd, Option.bind_eq_some_iff]
  constructor
  · rintro ⟨ins, d, ⟨i, hi, hins⟩, h⟩
    exact ⟨i, hi, ins, d, hins, h⟩
  · rintro ⟨i, hi, ins, d, hins, h⟩
    exact ⟨ins, d, ⟨i, hi, hins⟩, h⟩

theorem Pruned.source_kept {w : Nat} (hj : j ∈ ids) (he : (i, w) ∈ Dag.inEdges dag.nodes j) : i ∈ ids := by
  obtain ⟨rfl, hij, -⟩ := hd.edge.mp he
  obtain ⟨hjn, hk⟩ := hp.mem.mp hj
  refine hp.mem.mpr ⟨by omega, .inl ?_⟩
  rcases hk with ⟨s, n, hn, hs, hpath⟩ | ⟨n, hn, -, hall⟩
  · exact ⟨s, n, hn, hs, hpath.head he⟩
  · exact hall (i, 1) (by simpa [Dag.inEdges, hn] using he) rfl

theorem Pruned.exists_reader (hi : i ∈ ids) (hw : WritesTag is i t) : isPinned pinned t = false ∧
    ∃ j ∈ ids, (i, 1) ∈ Dag.inEdges dag.nodes j ∧ ReadsTag is j t := by
  obtain ⟨ins, d, hins, hdd, rfl⟩ := hw
  obtain ⟨hin, hk⟩ := hp.mem.mp hi
  have hn := List.getElem?_eq_getElem hin
  have hins' : (dag.nodes[i]).instr = ins := Option.some.inj ((hd.instr hn).symm.trans hins)
  have hne : ∀ e, e = Engine.store ∨ e = Engine.debug → (dag.nodes[i]).engine ≠ e := by
    intro e he
    rw [DNode.engine, hins', Instr.engine]
    revert hdd
    cases ins.op <;> rcases he with rfl | rfl <;> simp [Op.dest?, Op.engine]
  rcases hk with ⟨s, n, hs, hstore, hpath⟩ | ⟨n, hn', hdebug, -⟩
  · rcases hpath.cases_head with rfl | ⟨j, he, hjs⟩
    · cases hn.symm.trans hs
      exact absurd hstore (hne _ (.inl rfl))
    · obtain ⟨-, hij, jns, o, hj, ho, hpo, ins₀, d₀, hins₀, hd₀, ho'⟩ := hd.edge.mp he
      cases hins.symm.trans hins₀
      cases hdd.symm.trans hd₀
      refine ⟨ho' ▸ hpo, j, hp.mem.mpr ⟨Dag.length_of_mem_inEdges he, .inl ⟨s, n, hs, hstore, hjs⟩⟩, he, jns, o, hj, ho, ho'.symm⟩
  · cases hn.symm.trans hn'
    exact absurd hdebug (hne _ (.inr rfl))

theorem Pruned.readsTag_iff : ReadsTag dag'.instrs k t ↔ ∃ j, ids[k]? = some j ∧ ReadsTag is j t := by
  simp only [ReadsTag, hp.instrs_getElem? hd, Option.bind_eq_some_iff]
  constructor
  · rintro ⟨ins, o, ⟨i, hi, hins⟩, h⟩
    exact ⟨i, hi, ins, o, hins, h⟩
  · rintro ⟨i, hi, ins, o, hins, h⟩
    exact ⟨ins, o, ⟨i, hi, hins⟩, h⟩

/-- Every tag that a kept instruction writes is read by a kept one, and counted as often as it is read. -/
theorem Pruned.count (hw : WritesTag dag'.instrs k t) : isPinned pinned t = false ∧ 0 < totalOcc dag'.instrs t ∧
    recomputeReadCount dag'.instrs pinned t = some (totalOcc dag'.instrs t : Int) := by
  obtain ⟨i, hi, hwi⟩ := (hp.writesTag_iff hd).mp hw
  obtain ⟨hpt, j, hj, -, hr⟩ := hp.exists_reader hd (List.mem_of_getElem? hi) hwi
  obtain ⟨l, hl⟩ := List.getElem?_of_mem hj
  have hpos : 0 < totalOcc dag'.instrs t := totalOcc_pos.mpr ⟨l, (hp.readsTag_iff hd).mpr ⟨j, hl, hr⟩⟩
  refine ⟨hpt, hpos, ?_⟩
  rw [recomputeReadCount_eq, if_neg]
  rintro (h | h)
  · rw [hpt] at h
    cases h
  · omega

include ht

theorem Pruned.tagged : Tagged pinned dag'.instrs (recomputeReadCount dag'.instrs pinned) := by
  have hdef : ∀ {k : Nat} {ins : Instr Operand} {o : Operand}, dag'.instrs[k]? = some ins → o ∈ ins.readOperands →
      isPinned pinned o.base = false → ∃ a < k, WritesTag dag'.instrs a o.base := by
    intro k ins o hk ho hpo
    rw [hp.instrs_getElem? hd, Option.bind_eq_some_iff] at hk
    obtain ⟨j, hj, hins⟩ := hk
    obtain ⟨i, hij, hw⟩ := ht.defined hins ho hpo
    have hi := hp.source_kept hd (List.mem_of_getElem? hj) (hd.edge.mpr ⟨rfl, hij, ins, o, hins, ho, hpo, hw⟩)
    obtain ⟨a, ha⟩ := List.getElem?_of_mem hi
    exact ⟨a, (hp.lt_iff ha hj).mp hij, (hp.writesTag_iff hd).mpr ⟨i, ha, hw⟩⟩
  refine ⟨⟨fun {a b t} htp ha hb => ?_, fun {t} hpt => ?_⟩, hdef, fun _ hw => (hp.count hd hw).2.2⟩
  · obtain ⟨i, hi, hwi⟩ := (hp.writesTag_iff hd).mp ha
    obtain ⟨j, hj, hwj⟩ := (hp.writesTag_iff hd).mp hb
    obtain rfl := ht.unique htp hwi hwj
    rw [← (hp.idxOf_eq (List.mem_of_getElem? hi)).mpr hi, (hp.idxOf_eq (List.mem_of_getElem? hj)).mpr hj]
  · rw [recomputeReadCount_eq, if_pos (.inl hpt)]

omit ht in
theorem Pruned.nodup_inEdges (b : Nat) : (Dag.inEdges dag'.nodes b).Nodup := by
  refine List.nodup_iff_count_le_one.mpr fun e => ?_
  by_cases he : e ∈ Dag.inEdges dag'.nodes b
  · have hb : b < ids.length := hp.length ▸ Dag.length_of_mem_inEdges he
    obtain ⟨i, hi, -⟩ := (hp.mem_inEdges (List.getElem?_eq_getElem hb)).mp he
    rw [(hp.edges (List.getElem?_eq_getElem hb)).1, hp.count_remap hi]
    exact List.nodup_iff_count_le_one.mp (hd.nodup _) _
  · rw [List.count_eq_zero.mpr he]
    omega

omit ht in
theorem Pruned.dagOf (hst : dag'.st = ⟨.initial dag'.nodes, none⟩) : DagOf pinned dag'.instrs dag' where
  length := (List.length_map _).symm
  instr := fun hn => by rw [Dag.instrs, List.getElem?_map, hn, Option.map_some]
  wf := hp.wellFormed hd.wf
  st := hst
  edge := by
    intro a b w
    have hget := hp.instrs_getElem? hd b
    cases hb : ids[b]? with
    | none =>
        rw [hb, Option.bind_none] at hget
        refine ⟨fun he => ?_, fun ⟨_, _, ins, o, hins, _⟩ => ?_⟩
        · have := Dag.length_of_mem_inEdges he
          rw [hp.length] at this
          exact absurd (List.getElem?_eq_none_iff.mp hb) (by omega)
        · rw [hget] at hins
          cases hins
    | some j =>
        rw [hb, Option.bind_some] at hget
        rw [hp.mem_inEdges hb, hget]
        constructor
        · rintro ⟨i, hi, he⟩
          obtain ⟨hw, hij, ins, o, hins, ho, hpo, hwr⟩ := hd.edge.mp he
          exact ⟨hw, (hp.lt_iff hi hb).mp hij, ins, o, hins, ho, hpo, (hp.writesTag_iff hd).mpr ⟨i, hi, hwr⟩⟩
        · rintro ⟨hw, hab, ins, o, hins, ho, hpo, hwr⟩
          obtain ⟨i, hi, hwi⟩ := (hp.writesTag_iff hd).mp hwr
          exact ⟨i, hi, hd.edge.mpr ⟨hw, (hp.lt_iff hi hb).mpr hab, ins, o, hins, ho, hpo, hwi⟩⟩
  nodup := hp.nodup_inEdges hd

end pruned

section memory

variable {s s' u v r : SymState}

def Dropped (is : List (Instr Operand)) (ids : List Nat) (i : Nat) : Prop := i < is.length ∧ i ∉ ids

/-- The pruned run beside the whole run: the same memory, and the same words but for what dropped instructions
write. -/
structure Trimmed (is : List (Instr Operand)) (ids : List Nat) (u r : SymState) : Prop where
  mem : r.mem = u.mem
  env : ∀ {t}, (∀ {i}, Dropped is ids i → ¬ WritesTag is i t) → r.env t = u.env t

theorem Env.write_congr {e e' : Env} (h : e t = e' t) (d : Operand) (vals : List Nat) : e.write d vals t = e'.write d vals t := by
  cases d with
  | sym x =>
      simp only [write, Function.update_apply]
      split
      · rfl
      · exact h
  | lane x l =>
      simp only [write, Function.update_apply]
      split
      · next hx => rw [← hx, h]
      · exact h

theorem Env.write_of_ne {e : Env} {d : Operand} (h : d.base ≠ t) (vals : List Nat) : e.write d vals t = e t := by
  cases d <;> exact Function.update_of_ne (Ne.symm h) _ _

theorem Trimmed.drop (h : Trimmed is ids u r) (hj : is[j]? = some ins) (hjd : j ∉ ids) (hns : ins.engine ≠ .store)
    (hv : u.step ins = .ok v) : Trimmed is ids v r := by
  obtain ⟨vals, -, hv⟩ := bind_eq_ok.mp hv
  obtain ⟨mem, hmem, hv⟩ := bind_eq_ok.mp hv
  cases hv
  have hstores : ins.op.stores u.env.read = [] := by
    revert hns
    rw [Instr.engine]
    cases ins.op <;> simp [Op.engine, Op.stores]
  rw [hstores] at hmem
  cases hmem
  refine ⟨h.mem, fun {t} hall => (h.env hall).trans ?_⟩
  cases hd : ins.op.dest? with
  | none => rfl
  | some d =>
      refine (Env.write_of_ne (fun hdt => ?_) vals).symm
      exact hall ⟨(List.getElem?_eq_some_iff.mp hj).1, hjd⟩ ⟨ins, d, hj, hd, hdt⟩

variable (ht : Tagged pinned is rc) (hd : DagOf pinned is dag) (hp : Pruned dag.nodes dag'.nodes ids)
  (hpin : ∀ {i t}, WritesTag is i t → isPinned pinned t = false)

include ht hd hp hpin

theorem Trimmed.reads (h : Trimmed is ids u r) (hj : is[j]? = some ins) (hjk : j ∈ ids) :
    ∀ o ∈ ins.op.readOperands, r.env.read o = u.env.read o := by
  intro o ho
  have hx : r.env o.base = u.env o.base := by
    refine h.env fun {i} hi hw => hi.2 ?_
    have hpo := hpin hw
    obtain ⟨k, hk, hwk⟩ := ht.defined hj ho hpo
    obtain rfl := ht.unique hpo hw hwk
    exact hp.source_kept hd hjk (hd.edge.mpr ⟨rfl, hk, ins, o, hj, ho, hpo, hw⟩)
  funext k
  rw [Env.read, Env.read, hx]

theorem Trimmed.keep (h : Trimmed is ids u r) (hj : is[j]? = some ins) (hjk : j ∈ ids) (hv : u.step ins = .ok v) :
    ∃ r', r.step ins = .ok r' ∧ Trimmed is ids v r' := by
  have hreads := h.reads ht hd hp hpin hj hjk
  obtain ⟨vals, hvals, hv⟩ := bind_eq_ok.mp hv
  obtain ⟨mem, hmem, hv⟩ := bind_eq_ok.mp hv
  cases hv
  refine ⟨_, bind_eq_ok.mpr ⟨vals, ?_, bind_eq_ok.mpr ⟨mem, ?_, rfl⟩⟩, rfl, fun {t} hall => ?_⟩
  · rw [← hvals, h.mem]
    exact mapM_congr fun k _ => Op.lane_congr hreads k
  · rw [← hmem, h.mem, Op.stores_congr hreads]
  · cases ins.op.dest? with
    | none => exact h.env hall
    | some d => exact Env.write_congr (h.env hall) d vals

theorem Trimmed.run {m : Nat} (hm : m ≤ is.length) (hu : SymState.run (is.take m) s = .ok u) :
    ∃ r, SymState.run (reordered is ((List.range m).filter (· ∈ ids))) s = .ok r ∧ Trimmed is ids u r := by
  induction m generalizing u with
  | zero =>
      cases hu
      exact ⟨s, rfl, rfl, fun _ => rfl⟩
  | succ m ih =>
      have hj := List.getElem?_eq_getElem hm
      rw [List.take_add_one, hj] at hu
      obtain ⟨v, hv, hstep⟩ := foldlM_append_ok.mp hu
      obtain ⟨w, hstep, hw⟩ := bind_eq_ok.mp hstep
      cases hw
      obtain ⟨r, hr, h⟩ := ih (Nat.le_of_lt hm) hv
      rw [List.range_succ, List.filter_append]
      by_cases hmk : m ∈ ids
      · obtain ⟨r', hr', h'⟩ := h.keep ht hd hp hpin hj hmk hstep
        refine ⟨r', ?_, h'⟩
        rw [List.filter_singleton, decide_eq_true hmk, cond_true, reordered, List.filterMap_append, SymState.run]
        refine foldlM_append_ok.mpr ⟨r, hr, ?_⟩
        rw [List.filterMap_cons, hj]
        exact bind_eq_ok.mpr ⟨r', hr', rfl⟩
      · refine ⟨r, ?_, h.drop hj hmk ?_ hstep⟩
        · rw [List.filter_singleton, decide_eq_false hmk, cond_false, List.append_nil]
          exact hr
        · intro hstore
          have hlt : m < dag.nodes.length := hd.length ▸ hm
          have hn := List.getElem?_eq_getElem hlt
          have hins := Option.some.inj ((hd.instr hn).symm.trans hj)
          refine hmk (hp.mem.mpr ⟨hlt, .inl ⟨m, _, hn, ?_, .refl⟩⟩)
          rw [DNode.engine, hins]
          exact hstore

end memory
section claim

/-- `nodes'` has the edges of `nodes` between the nodes `ids`, each once and at both ends. -/
structure Induced (nodes nodes' : List DNode) (ids : List Nat) : Prop where
  inEdge : ∀ {a b w}, (a, w) ∈ Dag.inEdges nodes' b ↔ ∃ i j, ids[a]? = some i ∧ ids[b]? = some j ∧ (i, w) ∈ Dag.inEdges nodes j
  outEdge : ∀ {a b w}, (b, w) ∈ Dag.outEdges nodes' a ↔ ∃ i j, ids[a]? = some i ∧ ids[b]? = some j ∧ (j, w) ∈ Dag.outEdges nodes i
  once : ∀ k, (Dag.inEdges nodes' k).Nodup ∧ (Dag.outEdges nodes' k).Nodup

/-- A node that is a store, has a RAW path to a store, or checks values whose producers are all in `ids`. -/
def NeededBy (nodes : List DNode) (ids : List Nat) (i : Nat) : Prop :=
  ∃ n, nodes[i]? = some n ∧ (n.engine = .store ∨ (∃ s m, nodes[s]? = some m ∧ m.engine = .store ∧ RawAncestor nodes i s) ∨
    (n.engine = .debug ∧ ∀ e ∈ n.inEdges, e.1 ∈ ids))

variable (hd : DagOf pinned is dag) (hp : Pruned dag.nodes dag'.nodes ids)

include hd hp

theorem Pruned.induced : Induced dag.nodes dag'.nodes ids := by
  have hwf := hp.wellFormed hd.wf
  have hin : ∀ {a b w}, (a, w) ∈ Dag.inEdges dag'.nodes b ↔
      ∃ i j, ids[a]? = some i ∧ ids[b]? = some j ∧ (i, w) ∈ Dag.inEdges dag.nodes j := by
    intro a b w
    constructor
    · intro he
      have hb : b < ids.length := hp.length ▸ Dag.length_of_mem_inEdges he
      obtain ⟨i, hi, hij⟩ := (hp.mem_inEdges (List.getElem?_eq_getElem hb)).mp he
      exact ⟨i, _, hi, List.getElem?_eq_getElem hb, hij⟩
    · rintro ⟨i, j, hi, hj, he⟩
      exact (hp.mem_inEdges hj).mpr ⟨i, hi, he⟩
  refine ⟨hin, fun {a b w} => ?_, fun k => ⟨hp.nodup_inEdges hd k, List.nodup_iff_count_le_one.mpr fun e => ?_⟩⟩
  · rw [hwf.mem_outEdges, hin]
    simp only [hd.wf.mem_outEdges]
  · rw [hwf.mirror k e.1 e.2]
    exact List.nodup_iff_count_le_one.mp (hp.nodup_inEdges hd e.1) _

theorem Pruned.mem_iff : i ∈ ids ↔ NeededBy dag.nodes ids i := by
  rw [NeededBy]
  constructor
  · intro hi
    obtain ⟨hin, hk⟩ := hp.mem.mp hi
    have hn := List.getElem?_eq_getElem hin
    refine ⟨_, hn, ?_⟩
    rcases hk with ⟨s, m, hs, hm, hpath⟩ | ⟨m, hm, hdebug, hall⟩
    · rcases Relation.reflTransGen_iff_eq_or_transGen.mp hpath with rfl | hpath
      · cases hn.symm.trans hs
        exact .inl hm
      · exact .inr (.inl ⟨s, m, hs, hm, hpath⟩)
    · cases hn.symm.trans hm
      refine .inr (.inr ⟨hdebug, fun e he => ?_⟩)
      exact hp.source_kept hd hi (w := e.2) (by simpa [Dag.inEdges, hn] using he)
  · rintro ⟨n, hn, hstore | ⟨s, m, hs, hm, hpath⟩ | ⟨hdebug, hall⟩⟩
    · exact hp.mem.mpr ⟨(List.getElem?_eq_some_iff.mp hn).1, .inl ⟨i, n, hn, hstore, .refl⟩⟩
    · exact hp.mem.mpr ⟨(List.getElem?_eq_some_iff.mp hn).1, .inl ⟨s, m, hs, hm, hpath.to_reflTransGen⟩⟩
    · refine hp.mem.mpr ⟨(List.getElem?_eq_some_iff.mp hn).1, .inr ⟨n, hn, hdebug, fun e he _ => ?_⟩⟩
      obtain ⟨-, huse | ⟨m, hm, hmd, -⟩⟩ := hp.mem.mp (hall e he)
      · exact huse
      · -- a debug node writes nothing, so it is nobody's producer
        have hedge : (e.1, e.2) ∈ Dag.inEdges dag.nodes i := by simpa [Dag.inEdges, hn] using he
        obtain ⟨-, -, -, -, -, -, -, ins, d, hins, hdd, -⟩ := hd.edge.mp hedge
        cases (hd.instr hm).symm.trans hins
        revert hmd hdd
        rw [DNode.engine, Instr.engine]
        cases m.instr.op <;> simp [Op.engine, Op.dest?]

omit hp in
/-- Pruning a tagged program: what is kept, its edges, its read counts and the memory it leaves. -/
theorem prune_keeps_stores (ht : Tagged pinned is rc) (hstore : ∃ ins ∈ is, ins.engine = .store) :
    ∃ dag' ids, pruneToStores dag = .ok dag' ∧
      (ids.Pairwise (· < ·) ∧ (∀ i, i ∈ ids ↔ NeededBy dag.nodes ids i) ∧ dag'.instrs = reordered is ids ∧
        Induced dag.nodes dag'.nodes ids) ∧
      (∀ n ∈ dag'.nodes, ∀ t ∈ wrTags n.instr, (∃ k, ReadsTag dag'.instrs k t) ∧ 0 < totalOcc dag'.instrs t ∧
        recomputeReadCount dag'.instrs pinned t = some (totalOcc dag'.instrs t : Int)) ∧
      ((∀ {i t}, WritesTag is i t → isPinned pinned t = false) → ∀ {s s'}, SymState.run is s = .ok s' →
        ∃ r, SymState.run dag'.instrs s = .ok r ∧ r.mem = s'.mem) := by
  obtain ⟨dag', ids, hprune, hp, -⟩ := pruneToStores_ok hd.wf (by
    obtain ⟨ins, hins, he⟩ := hstore
    obtain ⟨i, hi⟩ := List.getElem?_of_mem hins
    have hlt : i < dag.nodes.length := hd.length ▸ (List.getElem?_eq_some_iff.mp hi).1
    have hn := List.getElem?_eq_getElem hlt
    refine ⟨i, _, hn, ?_⟩
    rw [DNode.engine, Option.some.inj ((hd.instr hn).symm.trans hi)]
    exact he)
  refine ⟨dag', ids, hprune, ⟨hp.sorted, fun i => hp.mem_iff hd, hp.instrs_eq hd, hp.induced hd⟩, fun n hn t hwr => ?_,
    fun hpin s s' hrun => ?_⟩
  · obtain ⟨k, hk⟩ := List.getElem?_of_mem hn
    have hw : WritesTag dag'.instrs k t := by
      obtain ⟨d, hdd, rfl⟩ := List.mem_map.mp hwr
      refine ⟨n.instr, d, ?_, Option.mem_toList.mp hdd, rfl⟩
      rw [Dag.instrs, List.getElem?_map, hk, Option.map_some]
    obtain ⟨-, hpos, hcount⟩ := hp.count hd hw
    exact ⟨totalOcc_pos.mp hpos, hpos, hcount⟩
  · have hall : (List.range is.length).filter (· ∈ ids) = ids := by
      refine List.Perm.eq_of_pairwise (fun a b _ _ hab hba => absurd hba (Nat.lt_asymm hab)) (List.pairwise_lt_range.filter _) hp.sorted ?_
      refine (List.perm_ext_iff_of_nodup (List.nodup_range.filter _) hp.nodup).mpr fun i => ?_
      simp only [List.mem_filter, List.mem_range, decide_eq_true_eq, and_iff_right_iff_imp]
      exact fun hi => hd.length ▸ (hp.mem.mp hi).1
    obtain ⟨r, hr, htrim⟩ := Trimmed.run ht hd hp hpin (Nat.le_refl _) (by rw [List.take_length]; exact hrun)
    rw [hall, ← hp.instrs_eq hd] at hr
    exact ⟨r, hr, htrim.mem⟩

end claim

/-- A store, a check of the stored value, and a constant that nothing reads. -/
def deadConst : List (Instr Operand) :=
  [⟨0, .const (.sym ⟨"p", false⟩) 0⟩, ⟨1, .const (.sym ⟨"q", false⟩) 9⟩,
    ⟨2, .vBroadcast (.sym ⟨"v", true⟩) (.sym ⟨"p", false⟩)⟩, ⟨3, .debugVCompare (.sym ⟨"v", true⟩) []⟩,
    ⟨4, .vStore (.sym ⟨"p", false⟩) (.sym ⟨"v", true⟩)⟩]

/-- The dead constant is dropped, the check is kept, and the memory is the same. -/
theorem prune_keeps_stores_dead : ∃ is rc dag dag' r, tagRawChains deadConst PINNED = .ok (is, rc) ∧
    buildDag is PINNED = .ok dag ∧ pruneToStores dag = .ok dag' ∧ dag'.instrs.map Instr.rid = [0, 2, 3, 4] ∧
    SymState.run dag'.instrs ⟨.zero, List.range' 1 8⟩ = .ok r ∧ r.mem = List.replicate 8 0 := by
  have hcompile : (do
      let x ← tagRawChains deadConst PINNED
      let dag ← buildDag x.1 PINNED
      let dag' ← pruneToStores dag
      let s ← SymState.run x.1 ⟨.zero, List.range' 1 8⟩
      .ok (decide (∃ ins ∈ x.1, ins.engine = .store), decide (∀ ins ∈ x.1, ∀ d ∈ ins.op.dest?, isPinned PINNED d.base = false),
        dag'.instrs.map Instr.rid, s.mem)) =
        (.ok (true, true, [0, 2, 3, 4], List.replicate 8 0) : Except PyErr _) := by decide +kernel
  obtain ⟨⟨is, rc⟩, htag, hcompile⟩ := bind_eq_ok.mp hcompile
  obtain ⟨dag, hdag, hcompile⟩ := bind_eq_ok.mp hcompile
  obtain ⟨dag', hprune, hcompile⟩ := bind_eq_ok.mp hcompile
  obtain ⟨s, hs, hcompile⟩ := bind_eq_ok.mp hcompile
  have hout := Except.ok.inj hcompile
  simp only [Prod.mk.injEq, decide_eq_true_eq] at hout
  obtain ⟨hstore, hpin, hrid, hmem⟩ := hout
  have ht := tagRawChains_tagged pinned_noHash htag
  obtain ⟨dag₁, ids, hprune₁, -, -, hrun⟩ := prune_keeps_stores (.of_ok ht.toSingleWriter hdag) ht hstore
  cases hprune.symm.trans hprune₁
  obtain ⟨r, hr, hrmem⟩ := hrun (by
    rintro i _ ⟨ins, d, hi, hd, rfl⟩
    exact hpin ins (List.mem_of_getElem? hi) d hd) hs
  exact ⟨is, rc, dag, dag', r, htag, hdag, hprune, hrid, hr, hrmem.trans hmem⟩

/-- A store of the pinned constant, after a write to it. -/
def pinnedStore : List (Instr Operand) :=
  [⟨0, .const (.sym ⟨"x", false⟩) 7⟩, ⟨1, .vBroadcast (.sym ⟨"const_vec_0", true⟩) (.sym ⟨"x", false⟩)⟩,
    ⟨2, .const (.sym ⟨"p", false⟩) 0⟩, ⟨3, .vStore (.sym ⟨"p", false⟩) (.sym ⟨"const_vec_0", true⟩)⟩]

/-- No edge leads from a write of a pinned symbol to its readers, so pruning drops the write. -/
theorem prune_drops_pinned_write : ∃ is rc dag dag' s r, tagRawChains pinnedStore PINNED = .ok (is, rc) ∧ Tagged PINNED is rc ∧
    buildDag is PINNED = .ok dag ∧ pruneToStores dag = .ok dag' ∧ SymState.run is ⟨.zero, List.range 8⟩ = .ok s ∧
    SymState.run dag'.instrs ⟨.zero, List.range 8⟩ = .ok r ∧ s.mem = List.replicate 8 7 ∧ r.mem = List.replicate 8 0 := by
  have hcompile : (do
      let x ← tagRawChains pinnedStore PINNED
      let dag ← buildDag x.1 PINNED
      let dag' ← pruneToStores dag
      let s ← SymState.run x.1 ⟨.zero, List.range 8⟩
      let r ← SymState.run dag'.instrs ⟨.zero, List.range 8⟩
      .ok (s.mem, r.mem)) = (.ok (List.replicate 8 7, List.replicate 8 0) : Except PyErr _) := by decide +kernel
  obtain ⟨⟨is, rc⟩, htag, hcompile⟩ := bind_eq_ok.mp hcompile
  obtain ⟨dag, hdag, hcompile⟩ := bind_eq_ok.mp hcompile
  obtain ⟨dag', hprune, hcompile⟩ := bind_eq_ok.mp hcompile
  obtain ⟨s, hs, hcompile⟩ := bind_eq_ok.mp hcompile
  obtain ⟨r, hr, hcompile⟩ := bind_eq_ok.mp hcompile
  obtain ⟨hmem, hmem'⟩ := Prod.mk.inj (Except.ok.inj hcompile)
  exact ⟨is, rc, dag, dag', s, r, htag, tagRawChains_tagged pinned_noHash htag, hdag, hprune, hs, hr, hmem, hmem'⟩

end Vliw
