import VliwKernel.Schedule.Steps

/-!
# Emitting a bundle

A bundle that realises its landings can be lowered: a gather is only there as lanes. What a cycle
landed decides whether its bundle is empty and whether it used a slot.
-/

namespace Vliw

def Entry.lowered (x : Entry) : TaggedSlot :=
  match x.emit with
  | .ok s => s
  | .error _ => ⟨.halt, none⟩

theorem Entry.lowered_whole {i : Nat} {ins : Instr Reg} {s : Slot} (h : ins.op.lower = .ok s) :
    (Entry.whole i ins).lowered = ⟨s, some ins.rid⟩ := by
  simp only [lowered, emit, Instr.taggedLower, h, bind_ok]

def emitted (b : Dict Engine (List Entry)) : TaggedBundle :=
  .ofList (b.items.map fun p => (p.1, p.2.map Entry.lowered))

theorem items_emitted (b : Dict Engine (List Entry)) :
    (emitted b).items = b.items.map fun p => (p.1, p.2.map Entry.lowered) := by
  refine Dict.items_ofList ?_
  rw [List.map_map]
  exact b.nodup_items

namespace FuncUnitPool

theorem mem_slots {b : Dict Engine (List Entry)} {e : Engine} {x : Entry} :
    x ∈ slots b e ↔ ∃ es, b.get? e = some es ∧ x ∈ es := by
  cases h : b.get? e <;> simp [slots, h]

theorem mem_ofNode {b : Dict Engine (List Entry)} {e : Engine} {i : Nat} {x : Entry} :
    x ∈ ofNode b e i ↔ x ∈ slots b e ∧ x.node = i := by
  simp [ofNode]

theorem lower_ok {op : Op Reg} (h : (classify op).kind ≠ .gather) : ∃ s, op.lower = .ok s := by
  revert h
  cases op <;> simp [classify, Op.engine, Op.isGather, Op.lower]

variable {M : Ledger} {p : FuncUnitPool}

/-- What an entry of a bundle is: the whole of a landed instruction, or one of its lanes. -/
theorem Inv.entry (h : Inv M p) {e : Engine} {x : Entry} (hx : x ∈ slots p.bundle e) :
    ∃ l, M x.node = some l ∧
      ((x = .whole x.node l.instr ∧ e = l.instr.engine ∧ (classify l.instr.op).kind ≠ .gather ∧ l.lo = 0 ∧
          l.hi = (classify l.instr.op).lanesTotal) ∨
        ∃ j, l.lo ≤ j ∧ j < l.hi ∧ x = .lane x.node j (laneSlot l.instr j) ∧ e = laneEngine l.instr ∧
          ((classify l.instr.op).kind = .vecElem ∨ (classify l.instr.op).kind = .gather)) := by
  have hmem : x ∈ ofNode p.bundle e x.node := mem_ofNode.mpr ⟨hx, rfl⟩
  cases hM : M x.node with
  | none =>
      rw [h.absent hM] at hmem
      cases hmem
  | some l =>
      refine ⟨l, rfl, ?_⟩
      cases h.realised hM with
      | whole hlo hhi hk hw =>
          rw [hw] at hmem
          split at hmem
          · next he => exact .inl ⟨List.mem_singleton.mp hmem, he, hk, hlo, hhi⟩
          · cases hmem
      | lanes hk hl =>
          rw [hl] at hmem
          split at hmem
          · next he =>
              obtain ⟨j, hj, hxj⟩ := List.mem_map.mp hmem
              obtain ⟨hlo, hhi⟩ := List.mem_range'_1.mp hj
              exact .inr ⟨j, hlo, by omega, hxj.symm, he, hk⟩
          · cases hmem

theorem Inv.emits (h : Inv M p) : emitBundle p.bundle = .ok (emitted p.bundle) := by
  have hentry : ∀ q ∈ p.bundle.items, ∀ x ∈ q.2, x.emit = .ok x.lowered := by
    rintro ⟨e, es⟩ hq x hx
    obtain ⟨l, -, hl⟩ := h.entry (mem_slots.mpr ⟨es, Dict.mem_items.mp hq, hx⟩)
    rcases hl with ⟨hxe, -, hk, -⟩ | ⟨j, -, -, hxe, -⟩
    · obtain ⟨s, hs⟩ := lower_ok hk
      rw [hxe, Entry.lowered_whole hs]
      simp only [Entry.emit, Instr.taggedLower, hs, bind_ok]
    · rw [hxe]
      rfl
  have hitems : p.bundle.items.mapM (fun q => do .ok (q.1, ← q.2.mapM Entry.emit)) =
      (.ok (p.bundle.items.map fun q => (q.1, q.2.map Entry.lowered)) : Except PyErr _) := by
    refine mapM_ok fun q hq => ?_
    rw [mapM_ok (hentry q hq)]
    rfl
  rw [emitBundle, hitems]
  rfl

theorem Inv.mem_of_landing (h : Inv M p) {i : Nat} {l : Landing} (hM : M i = some l)
    (hl : l.lo < l.hi ∨ (classify l.instr.op).kind = .debug) :
    ∃ e x, x ∈ slots p.bundle e ∧ ((classify l.instr.op).kind ≠ .debug → e ≠ .debug) := by
  cases h.realised hM with
  | whole _ _ _ hw =>
      have hmem : Entry.whole i l.instr ∈ ofNode p.bundle l.instr.engine i := by simp [hw]
      refine ⟨_, _, (mem_ofNode.mp hmem).1, fun hk he => hk ?_⟩
      revert he
      cases hop : l.instr.op <;> simp [Instr.engine, hop, Op.engine, classify]
  | lanes hk hl' =>
      have hlt : l.lo < l.hi := by
        rcases hl with hl | hl
        · exact hl
        · rcases hk with hk | hk <;> simp [hl] at hk
      have hmem : Entry.lane i l.lo (laneSlot l.instr l.lo) ∈ ofNode p.bundle (laneEngine l.instr) i := by
        rw [hl', if_pos rfl]
        exact List.mem_map.mpr ⟨l.lo, List.mem_range'_1.mpr ⟨Nat.le_refl _, by omega⟩, rfl⟩
      refine ⟨_, _, (mem_ofNode.mp hmem).1, fun _ => ?_⟩
      unfold laneEngine
      split <;> simp

end FuncUnitPool

theorem emitted_ne_empty {b : Dict Engine (List Entry)} {e : Engine} {x : Entry}
    (hx : x ∈ FuncUnitPool.slots b e) : (emitted b).keys.isEmpty = false := by
  obtain ⟨es, he, -⟩ := FuncUnitPool.mem_slots.mp hx
  have hmem : (e, es.map Entry.lowered) ∈ (emitted b).items := by
    rw [items_emitted]
    exact List.mem_map.mpr ⟨(e, es), Dict.mem_items.mpr he, rfl⟩
  have := Dict.mem_keys_of_get? (Dict.mem_items.mp hmem)
  rw [List.isEmpty_eq_false_iff]
  exact List.ne_nil_of_mem this

end Vliw
