import VliwKernel.Schedule.Runs
import VliwKernel.Semantics.Bundles

/-!
# No engine without a slot

An engine enters a bundle with its first slot, and a slot leaves only to make room for another on the same engine. So
an engine that a bundle names has a slot in it.
-/

namespace Vliw
open FuncUnitPool

def Filled (b : Dict Engine (List Entry)) : Prop := ∀ e, b.get? e ≠ some []

section place

variable {b : Dict Engine (List Entry)} {p p' : FuncUnitPool} {pl pl' : Placement.Log} {i : Nat} {c : Class} {r : Instr Reg} {res : Option Bool}

theorem Filled.empty : Filled .empty := fun _ h => by cases h

theorem get?_append (b : Dict Engine (List Entry)) (e : Engine) (x : Entry) (es : List Entry) (e' : Engine) :
    (append b e (x :: es)).get? e' = if e' = e then some (slots b e ++ x :: es) else b.get? e' := by
  rw [append, if_neg (by simp), Dict.get?_set]

theorem Filled.append (h : Filled b) (e : Engine) (es : List Entry) : Filled (append b e es) := by
  cases es with
  | nil => exact h
  | cons x es =>
      intro e'
      rw [get?_append]
      split
      · simp
      · exact h e'

theorem spillAlu_filled {total : Nat} (h : Filled p.bundle) (hp : p.spillAlu pl i total (some r) = .ok (res, p', pl')) : Filled p'.bundle := by
  rw [spillAlu] at hp
  split at hp
  · cases hp
    exact h
  · obtain ⟨xs, -, hp⟩ := bind_eq_ok.mp hp
    cases hp
    exact h.append .alu xs

/-- Eviction may empty `valu` alone. -/
theorem swapElemToAlu_filled {s : Bool} (h : Filled p.bundle) (hp : p.swapElemToAlu pl = .ok (s, p', pl')) :
    (s = false → p' = p) ∧ ∀ e, e ≠ .valu → p'.bundle.get? e ≠ some [] := by
  rw [swapElemToAlu] at hp
  split at hp
  · cases hp
    exact ⟨fun _ => rfl, fun e _ => h e⟩
  · split at hp
    · cases hp
      exact ⟨fun _ => rfl, fun e _ => h e⟩
    · dsimp only at hp
      split at hp
      · cases hp
        exact ⟨fun hs => (by cases hs), fun e _ => h e⟩
      · split at hp
        · cases hp
        · split at hp
          · obtain ⟨xs, -, hp⟩ := bind_eq_ok.mp hp
            cases hp
            refine ⟨fun hs => (by cases hs), fun e he => ?_⟩
            dsimp only
            cases xs with
            | nil =>
                rw [FuncUnitPool.append, List.isEmpty_nil, if_pos rfl, Dict.get?_set_of_ne _ he]
                exact h e
            | cons x xs =>
                rw [get?_append]
                split
                · simp
                · rw [Dict.get?_set_of_ne _ he]
                  exact h e
          · cases hp

theorem putWhole_filled (pl : Placement.Log) (c : Class) {e : Engine} (h : ∀ e', e' ≠ e → p.bundle.get? e' ≠ some []) :
    Filled (p.putWhole pl i c e (some r)).1.bundle := by
  intro e'
  dsimp only [putWhole]
  rw [get?_append]
  split
  · simp
  · next he => exact h e' he

theorem place_filled (h : Filled p.bundle) (hp : p.place pl i c (some r) = .ok (res, p', pl')) : Filled p'.bundle := by
  rw [place] at hp
  split at hp
  · cases hp
    exact h.append .debug [.whole i r]
  · split at hp
    · exact spillAlu_filled h hp
    · split at hp
      · cases hp
        exact putWhole_filled pl c fun e _ => h e
      · exact spillAlu_filled h hp
  · dsimp only at hp
    split at hp
    · split at hp
      · next he =>
          obtain ⟨⟨s, q, ql⟩, hs, hp⟩ := bind_eq_ok.mp hp
          obtain ⟨hfalse, hq⟩ := swapElemToAlu_filled h hs
          cases s with
          | true =>
              cases hp
              exact putWhole_filled ql c fun e hne => hq e (he ▸ hne)
          | false =>
              cases hp
              exact hfalse rfl ▸ h
      · cases hp
        exact h
    · cases hp
      exact putWhole_filled pl c fun e _ => h e

theorem placeGather_filled {total : Nat} {addrs : Nat × Nat} (h : Filled p.bundle) : Filled (placeGather p pl i total (some addrs)).2.1.bundle := by
  rw [placeGather]
  dsimp only
  split
  · exact h
  · exact h.append .load _

end place
section cycle

variable {rc : Sym → Option Int} {nodes : List DNode} {node : DNode} {w w' : World} {st st' : Stats} {i : Nat}

theorem commitNode_pool (h : commitNode nodes node w st = .ok (w', st')) : w'.pool = w.pool := by
  obtain ⟨x, -, h⟩ := bind_eq_ok.mp h
  cases h
  rfl

theorem runDebug_filled (hw : Filled w.pool.bundle) (h : runDebug nodes true node w st = .ok (w', st')) : Filled w'.pool.bundle := by
  obtain ⟨⟨res, pool, place⟩, hp, h⟩ := bind_eq_ok.mp h
  rw [commitNode_pool h]
  exact place_filled hw hp

theorem runGather_filled (hw : Filled w.pool.bundle) (h : runGather rc nodes true node w st = .ok (w', st')) : Filled w'.pool.bundle := by
  obtain ⟨⟨got, alloc, obligations⟩, -, h⟩ := bind_eq_ok.mp h
  dsimp only at h
  split at h
  · cases h
    exact hw
  · rw [if_pos rfl] at h
    split at h
    · rw [commitNode_pool h]
      exact placeGather_filled hw
    · cases h
      exact placeGather_filled hw
  · cases h

theorem runRegular_filled (hw : Filled w.pool.bundle) (h : runRegular rc nodes true node w st = .ok (w', st')) : Filled w'.pool.bundle := by
  obtain ⟨⟨got, alloc, obligations⟩, -, h⟩ := bind_eq_ok.mp h
  dsimp only at h
  split at h
  · cases h
    exact hw
  · rw [if_pos rfl] at h
    obtain ⟨⟨res, pool, place⟩, hp, h⟩ := bind_eq_ok.mp h
    have hpool := place_filled hw hp
    dsimp only at h
    split at h
    · split at h
      · obtain ⟨x, -, h⟩ := bind_eq_ok.mp h
        cases h
        exact hpool
      · cases h
        exact hpool
    · rw [commitNode_pool h]
      exact hpool
    · cases h
      exact hpool

theorem runNode_filled (hw : Filled w.pool.bundle) (h : runNode rc nodes true (w, st) i = .ok (w', st')) : Filled w'.pool.bundle := by
  rw [runNode] at h
  split at h
  · cases h
  · split at h
    · exact runDebug_filled hw h
    · exact runGather_filled hw h
    · exact runRegular_filled hw h

/-- Every engine of the bundle of a cycle has a slot. -/
theorem Cycle.filled {c : CycleRecord} (hc : Cycle rc nodes w c w') : Filled c.bundle := by
  obtain ⟨s, hrun⟩ := hc.run
  obtain ⟨⟨v, st⟩, hfold, h⟩ := bind_eq_ok.mp hrun
  cases h
  refine foldlM_inv (I := fun q : World × Stats => Filled q.1.pool.bundle) (fun i _ q q' h hq => runNode_filled hq h) hfold ?_
  rw [hc.pool]
  exact Filled.empty

theorem Filled.exists_slot {b : Dict Engine (List Entry)} (h : Filled b) {e : Engine} {ss : List Slot} (hb : (emitted b).untag.get? e = some ss) :
    ∃ x, x ∈ slots b e := by
  have hmem := Dict.mem_items.mpr hb
  rw [items_untag] at hmem
  obtain ⟨⟨e', es⟩, hes, heq⟩ := List.mem_map.mp hmem
  obtain ⟨rfl, -⟩ := Prod.mk.inj heq
  obtain ⟨x, es, rfl⟩ := List.exists_cons_of_ne_nil fun hnil : es = [] => h _ (hnil ▸ Dict.mem_items.mp hes)
  exact ⟨x, mem_slots.mpr ⟨_, Dict.mem_items.mp hes, List.mem_cons_self⟩⟩

end cycle
end Vliw
