import VliwKernel.Lib.Wp
import VliwKernel.Semantics.InOrder
import VliwKernel.Regalloc.DataFlow

/-!
# What flows through a stream

A symbolic run of a stream that keeps, of each symbol, whether it is written, whether it has been stored through, and
which vector loads its value comes from. What is derived from a load is reached from it along the RAW edges.
-/

namespace Vliw

namespace Op

def WritesTo (o : Op Operand) (x : Sym) : Prop := ∃ d, o.dest? = some d ∧ d.base = x

def IsVLoad (o : Op Operand) : Prop := ∃ d a, o = .vLoad d a

end Op

structure Flow where
  defined : Sym → Prop
  stored : Sym → Prop
  /-- `derived s x`: the value of `x` comes from the vector load of `s`. -/
  derived : Sym → Sym → Prop

namespace Flow

variable {pinned : List String} {once : Sym → Prop} {is tagged : List (Instr Operand)} {rc : Sym → Option Int} {dag : Dag} {i j : Nat} {s x : Sym}
  {ins ins' : Instr Operand} {Q : Flow → Prop}

def init (pinned : List String) : Flow := ⟨fun x => isPinned pinned x = true, fun _ => False, fun _ _ => False⟩

def next (F : Flow) (o : Op Operand) : Flow where
  defined x := F.defined x ∨ o.WritesTo x
  stored x := F.stored x ∨ ∃ a v, o = .vStore a v ∧ a.base = x
  derived s x := o.WritesTo x ∧ (o.IsVLoad ∧ s = x ∨ ∃ a ∈ o.readOperands, F.derived s a.base) ∨ ¬ o.WritesTo x ∧ F.derived s x

def step (F : Flow) (o : Op Operand) : Except PyErr Flow := .ok (F.next o)

/-- The operation reads what is defined and writes nothing pinned; a vector that is loaded `once` is new to it, and a
store goes through a new symbol and writes what comes from the load of its vector. -/
structure Sound (pinned : List String) (once : Sym → Prop) (F : Flow) (o : Op Operand) : Prop where
  reads : ∀ a ∈ o.readOperands, F.defined a.base
  writes : ∀ x, o.WritesTo x → isPinned pinned x = false
  loads : ∀ x, o.IsVLoad → o.WritesTo x → once x → ¬ F.defined x
  stores : ∀ a v, o = .vStore a v → ¬ F.stored a.base ∧ F.derived v.base v.base

/-- What flows into instruction `j`. -/
def upTo (pinned : List String) (is : List (Instr Operand)) (j : Nat) : Flow := ((is.take j).map Instr.op).foldl next (init pinned)

theorem upTo_succ (h : is[j]? = some ins) : upTo pinned is (j + 1) = (upTo pinned is j).next ins.op := by
  rw [upTo, List.take_add_one, h, Option.toList_some, List.map_append, List.foldl_append]
  rfl

theorem foldlM_step (os : List (Op Operand)) (F : Flow) : os.foldlM step F = .ok (os.foldl next F) := by
  induction os generalizing F with
  | nil => rfl
  | cons o os ih => exact ih _

def VLoads (is : List (Instr Operand)) (i : Nat) (s : Sym) : Prop := ∃ ins, is[i]? = some ins ∧ ins.op.IsVLoad ∧ ins.op.WritesTo s

theorem writesTag_iff (h : is[i]? = some ins) : WritesTag is i x ↔ ins.op.WritesTo x := by
  constructor
  · rintro ⟨ins', d, hi, hd⟩
    cases h.symm.trans hi
    exact ⟨d, hd⟩
  · rintro ⟨d, hd⟩
    exact ⟨ins, d, h, hd⟩

theorem defined_iff : (upTo pinned is j).defined x ↔ isPinned pinned x = true ∨ ∃ i < j, WritesTag is i x := by
  induction j with
  | zero => simp [upTo, init]
  | succ j ih =>
      have hlast : (∃ i < j + 1, WritesTag is i x) ↔ (∃ i < j, WritesTag is i x) ∨ WritesTag is j x := by
        simp only [Nat.lt_succ_iff_lt_or_eq, or_and_right, exists_or, exists_eq_left]
      rw [hlast, ← or_assoc, ← ih]
      cases h : is[j]? with
      | some ins => rw [upTo_succ h, writesTag_iff h, next]
      | none =>
          have hend : upTo pinned is (j + 1) = upTo pinned is j := by
            rw [upTo, upTo, List.take_add_one, h, Option.toList_none, List.append_nil]
          have hno : ¬ WritesTag is j x := by
            rintro ⟨ins, d, hi, -⟩
            rw [h] at hi
            cases hi
          rw [hend, or_iff_left hno]

theorem stored_of (h : is[i]? = some ins) {a v : Operand} (hop : ins.op = .vStore a v) (hij : i < j) (hj : j ≤ is.length) :
    (upTo pinned is j).stored a.base := by
  induction j with
  | zero => cases hij
  | succ j ih =>
      have hget : is[j]? = some is[j] := List.getElem?_eq_getElem hj
      rw [upTo_succ hget]
      rcases Nat.lt_succ_iff_lt_or_eq.mp hij with hij | rfl
      · exact .inl (ih hij (by omega))
      · cases h.symm.trans hget
        exact .inr ⟨a, v, hop, rfl⟩

section sound

variable (hwp : Wp step (Sound pinned once) (is.map Instr.op) Q (init pinned))

include hwp

theorem sound_at (h : is[j]? = some ins) : Sound pinned once (upTo pinned is j) ins.op := by
  refine hwp.observe (by rw [List.getElem?_map, h, Option.map_some]) ?_
  rw [← List.map_take, foldlM_step, upTo]

theorem defined_stream : Defined pinned is where
  reads := by
    intro j ins o hj ho hp
    have := (defined_iff.mp ((sound_at hwp hj).reads o ho))
    rw [hp] at this
    exact this.resolve_left Bool.false_ne_true
  unpinned := by
    rintro i x ⟨ins, d, hi, hd⟩
    exact (sound_at hwp hi).writes x ⟨d, hd⟩

theorem vLoads_unique (hx : once x) (hi : VLoads is i x) (hj : VLoads is j x) : i = j := by
  have hlt : ∀ {i j}, VLoads is i x → VLoads is j x → ¬ i < j := by
    rintro i j ⟨ins, hi, -, hw⟩ ⟨ins', hj, hload, hw'⟩ hij
    exact (sound_at hwp hj).loads x hload hw' hx (defined_iff.mpr (.inr ⟨i, hij, (writesTag_iff hi).mpr hw⟩))
  have := hlt hi hj
  have := hlt hj hi
  omega

theorem stores_unique {a a' v v' : Operand} (hi : is[i]? = some ins) (hop : ins.op = .vStore a v) (hj : is[j]? = some ins')
    (hop' : ins'.op = .vStore a' v') (heq : a.base = a'.base) : i = j := by
  have hlt : ∀ {i j : Nat} {ins ins' : Instr Operand} {a a' v v' : Operand}, is[i]? = some ins → ins.op = .vStore a v → is[j]? = some ins' →
      ins'.op = .vStore a' v' → a.base = a'.base → ¬ i < j := by
    intro i j ins ins' a a' v v' hi hop hj hop' heq hij
    refine ((sound_at hwp hj).stores a' v' hop').1 (heq ▸ stored_of hi hop hij ?_)
    exact Nat.le_of_lt (List.getElem?_eq_some_iff.mp hj).1
  have := hlt hi hop hj hop' heq
  have := hlt hj hop' hi hop heq.symm
  omega

end sound
section reaches

theorem latestWrite_unique {i' : Nat} (h : LatestWrite is j x i) (h' : LatestWrite is j x i') : i = i' := by
  obtain ⟨hlt, hw, hmax⟩ := h
  obtain ⟨hlt', hw', hmax'⟩ := h'
  by_contra hne
  rcases Nat.lt_or_gt_of_ne hne with hlt'' | hgt
  · exact hmax i' hlt'' hlt' hw'
  · exact hmax' i hgt hlt hw

theorem raw_edge (hf : DataFlow pinned is tagged rc) (hd : DagOf pinned tagged dag) (hj : is[j]? = some ins) {o : Operand}
    (ho : o ∈ ins.readOperands) (hp : isPinned pinned o.base = false) (hl : LatestWrite is j o.base i) : (i, 1) ∈ Dag.inEdges dag.nodes j := by
  obtain ⟨rd, wr, hget, hr, -⟩ := hf.instr hj
  have ho' := hr o ho
  rw [hp, if_neg Bool.false_ne_true] at ho'
  obtain ⟨i', t, hl', hw, hrd⟩ := ho'
  obtain rfl := latestWrite_unique hl hl'
  have hbase : (rd o).base = t := by rw [hrd, Operand.base_withBase]
  refine hd.edge.mpr ⟨rfl, hl.1, _, rd o, hget, ?_, ?_, hbase.symm ▸ hw⟩
  · rw [Instr.readOperands, Instr.rebuild, Op.readOperands_rebuild]
    exact List.mem_map_of_mem ho
  · rw [hbase]
    exact hf.unpinned hw

theorem latestWrite_last (hj : is[j]? = some ins) (hw : ins.op.WritesTo x) : LatestWrite is (j + 1) x j :=
  ⟨Nat.lt_succ_self j, (writesTag_iff hj).mpr hw, fun _ hjk hk => by omega⟩

theorem latestWrite_keep (hj : is[j]? = some ins) (hw : ¬ ins.op.WritesTo x) (h : LatestWrite is j x i) : LatestWrite is (j + 1) x i := by
  obtain ⟨hlt, hwi, hmax⟩ := h
  refine ⟨by omega, hwi, fun k hik hk hwk => ?_⟩
  rcases Nat.lt_succ_iff_lt_or_eq.mp hk with hk | rfl
  · exact hmax k hik hk hwk
  · exact hw ((writesTag_iff hj).mp hwk)

theorem derived_reaches (hdef : Defined pinned is) (hf : DataFlow pinned is tagged rc) (hd : DagOf pinned tagged dag)
    (h : (upTo pinned is j).derived s x) (hj : j ≤ is.length) :
    ∃ w, LatestWrite is j x w ∧ ∃ i, VLoads is i s ∧ (i = w ∨ RawAncestor dag.nodes i w) := by
  induction j generalizing x with
  | zero => exact h.elim
  | succ j ih =>
      have hget : is[j]? = some is[j] := List.getElem?_eq_getElem hj
      rw [upTo_succ hget] at h
      rcases h with ⟨hw, ⟨hload, rfl⟩ | ⟨a, ha, hder⟩⟩ | ⟨hw, hder⟩
      · exact ⟨j, latestWrite_last hget hw, j, ⟨_, hget, hload, hw⟩, .inl rfl⟩
      · obtain ⟨w, hlatest, i, hi, hiw⟩ := ih hder (by omega)
        have hedge := raw_edge hf hd hget ha (hdef.unpinned hlatest.2.1) hlatest
        refine ⟨j, latestWrite_last hget hw, i, hi, .inr ?_⟩
        rcases hiw with rfl | hiw
        · exact .single hedge
        · exact hiw.tail hedge
      · obtain ⟨w, hlatest, hi⟩ := ih hder (by omega)
        exact ⟨w, latestWrite_keep hget hw hlatest, hi⟩

/-- The load of a vector is a RAW ancestor of the store of what comes from it. -/
theorem load_ancestor (hwp : Wp step (Sound pinned once) (is.map Instr.op) Q (init pinned)) (hf : DataFlow pinned is tagged rc)
    (hd : DagOf pinned tagged dag) {a v : Operand} (hi : VLoads is i v.base) (hx : once v.base) (hj : is[j]? = some ins)
    (hop : ins.op = .vStore a v) : RawAncestor dag.nodes i j := by
  have hdef := defined_stream hwp
  obtain ⟨w, hlatest, i', hi', hiw⟩ := derived_reaches hdef hf hd ((sound_at hwp hj).stores a v hop).2
    (Nat.le_of_lt (List.getElem?_eq_some_iff.mp hj).1)
  obtain rfl := vLoads_unique hwp hx hi hi'
  have hread : v ∈ ins.readOperands := by
    rw [Instr.readOperands, hop]
    simp [Op.readOperands]
  have hedge := raw_edge hf hd hj hread (hdef.unpinned hlatest.2.1) hlatest
  rcases hiw with rfl | hiw
  · exact .single hedge
  · exact hiw.tail hedge

end reaches

end Flow
end Vliw
