import VliwKernel.Problem.Run
import VliwKernel.Semantics.Slots

/-!
# Executing the bundle of a pool

If the slots of a pool can be executed one by one, so can its bundle, and it lands the writes of all of them.
-/

namespace Vliw

/-- A bundle as the simulator sees it: a tagged slot is a tuple like any other. -/
def TaggedBundle.untag (b : TaggedBundle) : Bundle := .ofList (b.items.map fun q => (q.1, q.2.map TaggedSlot.slot))

theorem items_untag (b : Dict Engine (List Entry)) :
    (emitted b).untag.items = b.items.map fun q => (q.1, q.2.map fun x => x.lowered.slot) := by
  rw [TaggedBundle.untag, Dict.items_ofList]
  · rw [items_emitted, List.map_map]
    refine List.map_congr_left fun q _ => ?_
    simp only [Function.comp_apply, List.map_map]
    rfl
  · rw [List.map_map]
    exact (emitted b).nodup_items

theorem mem_items_untag {b : Dict Engine (List Entry)} {e : Engine} {ss : List Slot} {s : Slot} (h : (e, ss) ∈ (emitted b).untag.items)
    (hs : s ∈ ss) : ∃ x ∈ FuncUnitPool.slots b e, x.lowered.slot = s := by
  rw [items_untag] at h
  obtain ⟨⟨e', es⟩, hes, heq⟩ := List.mem_map.mp h
  obtain ⟨rfl, rfl⟩ := Prod.mk.inj heq
  obtain ⟨x, hx, rfl⟩ := List.mem_map.mp hs
  exact ⟨x, FuncUnitPool.mem_slots.mpr ⟨es, Dict.mem_items.mp hes, hx⟩, rfl⟩

theorem exists_items_untag {b : Dict Engine (List Entry)} {e : Engine} {x : Entry} (h : x ∈ FuncUnitPool.slots b e) :
    ∃ ss, (e, ss) ∈ (emitted b).untag.items ∧ x.lowered.slot ∈ ss := by
  obtain ⟨es, hes, hx⟩ := FuncUnitPool.mem_slots.mp h
  refine ⟨es.map fun x => x.lowered.slot, ?_, List.mem_map_of_mem hx⟩
  rw [items_untag]
  exact List.mem_map.mpr ⟨(e, es), Dict.mem_items.mpr hes, rfl⟩

def Machine.slotWrites (m : Machine) (e : Engine) (s : Slot) : Writes := ((m.execSlot e m.core s).toOption.map Prod.snd).getD {}

theorem Machine.slotWrites_eq {m : Machine} {e : Engine} {s : Slot} {core : Core} {w : Writes} (h : m.execSlot e m.core s = .ok (core, w)) :
    m.slotWrites e s = w := by
  simp only [slotWrites, h, Except.toOption, Option.map_some, Option.getD_some]

/-- A slot that may take the core from one state that `R` allows to another. -/
def Machine.Executes (m : Machine) (R : CoreState → Prop) (e : Engine) (s : Slot) (w : Writes) : Prop :=
  ∀ st, R st → ∃ st', R st' ∧ m.execSlot e { m.core with state := st } s = .ok ({ m.core with state := st' }, w)

theorem Machine.Executes.slotWrites {m : Machine} {R : CoreState → Prop} {e : Engine} {s : Slot} {w : Writes} (h : m.Executes R e s w)
    (hst : R m.core.state) : m.slotWrites e s = w := by
  obtain ⟨st', -, hexec⟩ := h m.core.state hst
  exact slotWrites_eq hexec

/-- The simulator executes the bundle of a pool if it can execute each slot and its checks pass, and lands their writes. -/
theorem FuncUnitPool.Inv.step_checked {M : Ledger} {p : FuncUnitPool} (h : Inv M p) {m : Machine} {R : CoreState → Prop}
    (hst : R m.core.state) (hdebug : m.enableDebug = true → ∀ x ∈ slots p.bundle .debug,
      Machine.debugCheck m.core m.valueTrace x.lowered.slot = .ok ())
    (hexec : ∀ {e x}, x ∈ slots p.bundle e → ∃ w, m.Executes R e x.lowered.slot w ∧
      (∀ q ∈ w.scratch, q.1 < m.core.scratch.length) ∧ ∀ q ∈ w.mem, q.1 < m.mem.length) :
    ∃ ws wm st scratch mem, R st ∧
      m.step (emitted p.bundle).untag = .ok { m with core := { m.core with scratch := scratch, state := st }, mem := mem } ∧
      Machine.applyWrites ws m.core.scratch = .ok scratch ∧ Machine.applyWrites wm m.mem = .ok mem ∧
      (∀ q, q ∈ ws ↔ ∃ e x, x ∈ slots p.bundle e ∧ q ∈ (m.slotWrites e x.lowered.slot).scratch) ∧
      ∀ q, q ∈ wm ↔ ∃ e x, x ∈ slots p.bundle e ∧ q ∈ (m.slotWrites e x.lowered.slot).mem := by
  have hlands : ∀ q ∈ (emitted p.bundle).untag.items, Machine.Lands m R m.slotWrites q.1 q.2 := by
    intro q hq
    refine ⟨fun hdbg hon s hs => ?_, fun he => ?_, fun s hs => ?_⟩
    · obtain ⟨x, hx, rfl⟩ := mem_items_untag hq hs
      exact hdebug hon x (hdbg ▸ hx)
    · rw [items_untag] at hq
      obtain ⟨⟨e, es⟩, hes, rfl⟩ := List.mem_map.mp hq
      have hslots : slots p.bundle e = es := by rw [slots, Dict.mem_items.mp hes, Option.getD_some]
      rw [List.length_map]
      dsimp only at he ⊢
      have := h.free he
      rw [hslots] at this
      omega
    · obtain ⟨x, hx, rfl⟩ := mem_items_untag hq hs
      obtain ⟨w, hw, -⟩ := hexec hx
      rw [hw.slotWrites hst]
      exact hw
  have hrange : ∀ q ∈ (emitted p.bundle).untag.items, ∀ s ∈ q.2, (∀ r ∈ (m.slotWrites q.1 s).scratch, r.1 < m.core.scratch.length) ∧
      ∀ r ∈ (m.slotWrites q.1 s).mem, r.1 < m.mem.length := by
    intro q hq s hs
    obtain ⟨x, hx, rfl⟩ := mem_items_untag hq hs
    obtain ⟨w, hw, hin⟩ := hexec hx
    rwa [hw.slotWrites hst]
  have hiff : ∀ P : Writes → Prop, (∃ q ∈ (emitted p.bundle).untag.items, ∃ s ∈ q.2, P (m.slotWrites q.1 s)) ↔
      ∃ e x, x ∈ slots p.bundle e ∧ P (m.slotWrites e x.lowered.slot) := by
    intro P
    constructor
    · rintro ⟨q, hq, s, hs, hP⟩
      obtain ⟨x, hx, rfl⟩ := mem_items_untag hq hs
      exact ⟨q.1, x, hx, hP⟩
    · rintro ⟨e, x, hx, hP⟩
      obtain ⟨ss, hss, hs⟩ := exists_items_untag hx
      exact ⟨(e, ss), hss, _, hs, hP⟩
  obtain ⟨w, st, scratch, mem, hst', hstep, hws, hwm, hin, hinm⟩ := Machine.step_lands hlands hst
    (fun q hq s hs => (hrange q hq s hs).1) (fun q hq s hs => (hrange q hq s hs).2)
  exact ⟨w.scratch, w.mem, st, scratch, mem, hst', hstep, hws, hwm, fun q => (hin q).trans (hiff (q ∈ ·.scratch)),
    fun q => (hinm q).trans (hiff (q ∈ ·.mem))⟩

/-- The simulator executes the bundle of a pool if it can execute each slot, and lands their writes. -/
theorem FuncUnitPool.Inv.step {M : Ledger} {p : FuncUnitPool} (h : Inv M p) {m : Machine} {R : CoreState → Prop} (hst : R m.core.state)
    (hexec : ∀ {e x}, x ∈ slots p.bundle e → e ≠ .debug ∧ ∃ w, m.Executes R e x.lowered.slot w ∧
      (∀ q ∈ w.scratch, q.1 < m.core.scratch.length) ∧ ∀ q ∈ w.mem, q.1 < m.mem.length) :
    ∃ ws wm st scratch mem, R st ∧
      m.step (emitted p.bundle).untag = .ok { m with core := { m.core with scratch := scratch, state := st }, mem := mem } ∧
      Machine.applyWrites ws m.core.scratch = .ok scratch ∧ Machine.applyWrites wm m.mem = .ok mem ∧
      (∀ q, q ∈ ws ↔ ∃ e x, x ∈ slots p.bundle e ∧ q ∈ (m.slotWrites e x.lowered.slot).scratch) ∧
      ∀ q, q ∈ wm ↔ ∃ e x, x ∈ slots p.bundle e ∧ q ∈ (m.slotWrites e x.lowered.slot).mem :=
  h.step_checked hst (fun _ _ hx => absurd rfl (hexec hx).1) fun hx => (hexec hx).2

end Vliw
