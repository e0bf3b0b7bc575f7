import VliwKernel.Problem.Control
import VliwKernel.Schedule.Filled
import VliwKernel.Semantics.Simulation

/-!
# The first bundle

At the start no value is computed, so what reads one has to wait: the first bundle of a schedule has no stores, no
checks and a free flow slot, if the program stores, selects and checks computed values alone.
-/

namespace Vliw

variable {pinned : List String} {is : List (Instr Operand)} {rc : Sym → Option Int} {dag : Dag} {w w' : World} {c : CycleRecord}
  {i : Nat} {l : Landing} {node : DNode} {b : RegisterAllocator}

/-- The engines whose instructions wait for a value. -/
def Engine.waits : Engine → Bool
  | .store | .flow | .debug => true
  | _ => false

/-- What has to wait reads a symbol that is not pinned. -/
def Instr.Waits (pinned : List String) (ins : Instr Operand) : Prop :=
  ins.engine.waits = true → ∃ o ∈ ins.readOperands, isPinned pinned o.base = false

instance (pinned : List String) (ins : Instr Operand) : Decidable (ins.Waits pinned) := by unfold Instr.Waits; infer_instance

def Waits (pinned : List String) (is : List (Instr Operand)) : Prop := ∀ ins ∈ is, ins.Waits pinned

instance (pinned : List String) (is : List (Instr Operand)) : Decidable (Waits pinned is) := by unfold Waits; infer_instance

section tagged

variable {st st' : TagState} {ins ins' : Instr Operand}

def TagState.Tags (st : TagState) : Prop := ∀ {x t}, st.current x = some t → ∃ k, t = freshTag x k

theorem Instr.Waits.tagged (hp : NoHash pinned) (h : ins.Waits pinned) (hst : st.Tags) (ht : st.instr pinned ins = .ok (ins', st')) :
    ins'.Waits pinned ∧ st'.Tags := by
  obtain ⟨st₁, hr, ht⟩ := bind_eq_ok.mp ht
  obtain ⟨hins, hst'⟩ := Prod.mk.inj (Except.ok.inj ht)
  obtain ⟨hc, -, hos, -⟩ := TagState.read_foldlM hr
  constructor
  · intro hw
    rw [← hins] at hw ⊢
    obtain ⟨o, ho, hpo⟩ := h ((congrArg Engine.waits (Op.engine_rebuild ..)).symm.trans hw)
    obtain ⟨t, htag⟩ := hos o ho hpo
    obtain ⟨k, rfl⟩ := hst htag
    refine ⟨_, (Op.readOperands_rebuild ..).symm ▸ List.mem_map_of_mem ho, ?_⟩
    rw [TagState.version_congr hc, TagState.version_of_current hpo htag, Operand.base_withBase]
    exact freshTag_unpinned hp _ _
  · intro x t ht
    rcases TagState.write_cases pinned st₁ ins with ⟨-, heq⟩ | ⟨d, -, -, heq⟩
    · rw [← hst', heq, hc] at ht
      exact hst ht
    · rw [← hst', heq] at ht
      dsimp only at ht
      by_cases hx : x = d.base
      · subst hx
        rw [Function.update_self] at ht
        cases ht
        exact ⟨_, rfl⟩
      · rw [Function.update_of_ne hx, hc] at ht
        exact hst ht

theorem tagRawChains_waits {is' : List (Instr Operand)} (hp : NoHash pinned) (hw : Waits pinned is) (ht : tagRawChains is pinned = .ok (is', rc)) :
    Waits pinned is' := by
  obtain ⟨⟨tagged, st⟩, htag, ht⟩ := bind_eq_ok.mp ht
  cases ht
  exact TagState.instrs_forall (I := TagState.Tags) (fun h hst ht => h.tagged hp hst ht) hw (fun h => by cases h) htag

end tagged

section opening

variable (hc : Cycle rc dag.nodes (.start dag .init) c w') (hb : Built pinned is rc dag) (hw : Waits pinned is)

include hc hb hw

theorem Cycle.opening (hl : Landed pinned is dag.nodes c i l node b) : node.instr.engine.waits = false := by
  refine eq_false_of_ne_true fun hwaits => ?_
  obtain ⟨o, ho, hp⟩ := hw _ (List.mem_of_getElem? (hb.graph.instr hl.get)) hwaits
  obtain ⟨hstart, -⟩ := hc.live hb hb.start_live.1
  obtain ⟨-, -, k, -, hk⟩ := hstart.reads_assigned hb hl.get hl.frontier ho hp
  rw [show (World.start dag .init).dag = ⟨.initial dag.nodes, none⟩ from hb.graph.st] at hk
  cases hk

theorem Cycle.opening_free {e : Engine} (he : e.waits = true) : (emitted c.bundle).untag.get? e = none := by
  cases hbundle : (emitted c.bundle).untag.get? e with
  | none => rfl
  | some ss =>
      obtain ⟨x, hx⟩ := hc.filled.exists_slot hbundle
      obtain ⟨l, hM, hent⟩ := hc.inv.entry hx
      obtain ⟨node, b, hl⟩ := hc.landed hb hb.start_live.1 hM
      have hfalse := hc.opening hb hw hl
      rcases hent with ⟨-, heng, -⟩ | ⟨j, -, -, -, heng, -⟩
      · rw [heng, hl.instr] at he
        rw [show (placedInstr node.instr b).engine = node.instr.engine from Op.engine_rebuild .., hfalse] at he
        cases he
      · rw [heng, laneEngine] at he
        split at he <;> cases he

end opening

theorem Op.lower_flow {op : Op Reg} {s : Slot} (he : op.engine = .flow) (hp : op ≠ .pause) (h : op.lower = .ok s) :
    ∃ d x y z, s = .vselect d x y z := by
  cases op with
  | vSelect dest cond a b =>
      cases h
      exact ⟨_, _, _, _, rfl⟩
  | pause => exact absurd rfl hp
  | _ => cases he

section slots

variable (hc : Cycle rc dag.nodes w c w') (hb : Built pinned is rc dag) (h : w.Live pinned dag.nodes w.dag.val.committed)
  (hs : Checked pinned is)

include hc hb h hs

theorem Cycle.flow_selects {s : Slot} (hsl : s ∈ (emitted c.bundle).untag.flowSlots) : ∃ d x y z, s = .vselect d x y z := by
  rw [Bundle.flowSlots] at hsl
  cases hget : (emitted c.bundle).untag.get? .flow with
  | none =>
      rw [hget] at hsl
      cases hsl
  | some ss =>
      rw [hget, Option.getD_some] at hsl
      obtain ⟨x, hx, rfl⟩ := mem_items_untag (Dict.mem_items.mpr hget) hsl
      obtain ⟨l, hM, hent⟩ := hc.inv.entry hx
      obtain ⟨node, b, hl⟩ := hc.landed hb h hM
      rcases hent with ⟨hxw, heng, hk, -⟩ | ⟨j, -, -, -, heng, -⟩
      · obtain ⟨s, hlow⟩ := FuncUnitPool.lower_ok hk
        rw [hxw, Entry.lowered_whole hlow]
        rw [hl.instr] at heng hlow
        exact Op.lower_flow heng.symm (Op.rebuild_ne_pause (hs _ (List.mem_of_getElem? (hb.graph.instr hl.get))).noPause _ _) hlow
      · unfold laneEngine at heng
        split at heng <;> cases heng

theorem Cycle.straight : (emitted c.bundle).untag.Straight := by
  constructor
  · intro s hsl
    obtain ⟨d, x, y, z, rfl⟩ := hc.flow_selects hb h hs hsl
    rfl
  · rw [Bundle.flowSlots]
    cases hget : (emitted c.bundle).untag.get? .flow with
    | none => exact Nat.zero_le 1
    | some ss =>
        have hmem := Dict.mem_items.mpr hget
        rw [items_untag] at hmem
        obtain ⟨⟨e, es⟩, hes, heq⟩ := List.mem_map.mp hmem
        obtain ⟨rfl, rfl⟩ := Prod.mk.inj heq
        have hslots : FuncUnitPool.slots c.bundle .flow = es := by rw [FuncUnitPool.slots, Dict.mem_items.mp hes, Option.getD_some]
        have hfree := hc.inv.free (e := .flow) (by decide)
        rw [hslots] at hfree
        rw [Option.getD_some, List.length_map]
        have : SLOT_LIMITS .flow = 1 := rfl
        dsimp only
        omega

end slots
end Vliw
