import VliwKernel.Scheduler.Pool

/-!
# Dry placements

A trial places without materialising slots. Its pool has the same free slots and the same
evictable nodes as the pool of the replay, so it takes the same decisions.
-/

namespace Vliw
namespace FuncUnitPool
open Placement

def Dry (p : FuncUnitPool) : Prop := ∀ v ∈ p.valuElems, v.home = none

theorem swapElemToAlu_dry {p : FuncUnitPool} (h : p.Dry) (pl : Log) :
    ∃ swapped p' pl', p.swapElemToAlu pl = .ok (swapped, p', pl') ∧ p'.Dry := by
  simp only [swapElemToAlu]
  cases hv : p.valuElems with
  | nil => exact ⟨_, _, _, rfl, h⟩
  | cons v rest =>
      dsimp only
      split
      · exact ⟨_, _, _, rfl, h⟩
      · have hhome : v.home = none := h v (by simp [hv])
        rw [hhome]
        exact ⟨_, _, _, rfl, fun u hu => h u (by simp [hv, show u ∈ rest from hu])⟩

theorem place_dry {p : FuncUnitPool} (h : p.Dry) (pl : Log) (i : Nat) (c : Class) :
    ∃ res p' pl', p.place pl i c none = .ok (res, p', pl') ∧ p'.Dry := by
  have hspill : ∀ total, ∃ res p' pl', p.spillAlu pl i total none = .ok (res, p', pl') ∧ p'.Dry := by
    intro total
    simp only [spillAlu]
    split
    · exact ⟨_, _, _, rfl, h⟩
    · exact ⟨_, _, _, rfl, h⟩
  unfold place
  split
  · exact ⟨_, _, _, rfl, h⟩
  · split
    · exact hspill _
    · split
      · refine ⟨_, _, _, rfl, fun v hv => ?_⟩
        rcases List.mem_cons.mp hv with rfl | hv
        · rfl
        · exact h v hv
      · exact hspill _
  · dsimp only
    split
    · split
      · obtain ⟨swapped, p', pl', hs, hd⟩ := swapElemToAlu_dry h pl
        rw [hs]
        cases swapped with
        | false => exact ⟨_, _, _, rfl, hd⟩
        | true => exact ⟨_, _, _, rfl, hd⟩
      · exact ⟨_, _, _, rfl, h⟩
    · exact ⟨_, _, _, rfl, h⟩

/-- A dry pool and the pool it stands for. -/
structure Sim (p q : FuncUnitPool) : Prop where
  free : p.free = q.free
  elems : p.valuElems = q.valuElems.map fun v => ⟨v.node, none⟩

variable {p q q' : FuncUnitPool} {pl ql ql' : Log} {i : Nat} {c : Class} {r : Instr Reg} {res : Option Bool}

theorem Sim.fresh : Sim .fresh .fresh := ⟨rfl, rfl⟩

theorem Sim.take (h : Sim p q) (e : Engine) (n : Nat) (b b' : Dict Engine (List Entry)) :
    Sim { p.take e n with bundle := b } { q.take e n with bundle := b' } :=
  ⟨by simp only [FuncUnitPool.take, h.free], h.elems⟩

theorem setEngineChoice_congr (h : pl.val = ql.val) (i : Nat) (e : Engine) :
    (setEngineChoice pl i e).val = (setEngineChoice ql i e).val := by
  simp only [setEngineChoice, Logged.record_val, h]

theorem setLanesDone_congr (h : pl.val = ql.val) (i k : Nat) :
    (setLanesDone pl i k).val = (setLanesDone ql i k).val := by
  simp only [setLanesDone, Logged.record_val, h]

theorem putWhole_sim (h : Sim p q) (hpl : pl.val = ql.val) (e : Engine) :
    Sim (p.putWhole pl i c e none).1 (q.putWhole ql i c e (some r)).1 ∧
      (p.putWhole pl i c e none).2.val = (q.putWhole ql i c e (some r)).2.val :=
  ⟨h.take e 1 _ _, setEngineChoice_congr (setLanesDone_congr hpl i _) i e⟩

theorem spillAlu_sim {total : Nat} (h : Sim p q) (hpl : pl.val = ql.val)
    (hq : q.spillAlu ql i total (some r) = .ok (res, q', ql')) :
    ∃ p' pl', p.spillAlu pl i total none = .ok (res, p', pl') ∧ Sim p' q' ∧ pl'.val = ql'.val := by
  simp only [spillAlu, hpl, h.free] at hq ⊢
  split
  · next hn =>
      rw [if_pos hn] at hq
      cases hq
      exact ⟨p, pl, rfl, h, hpl⟩
  · next hn =>
      rw [if_neg hn] at hq
      obtain ⟨b, -, hq⟩ := bind_eq_ok.mp hq
      cases hq
      exact ⟨_, _, rfl, h.take .alu _ _ _, setEngineChoice_congr (setLanesDone_congr hpl i _) i .alu⟩

theorem swapElemToAlu_sim {swapped : Bool} (h : Sim p q) (hpl : pl.val = ql.val)
    (hq : q.swapElemToAlu ql = .ok (swapped, q', ql')) :
    ∃ p' pl', p.swapElemToAlu pl = .ok (swapped, p', pl') ∧ Sim p' q' ∧ pl'.val = ql'.val := by
  have hel := h.elems
  cases hv : q.valuElems with
  | nil =>
      simp only [swapElemToAlu, hv, Except.ok.injEq, Prod.mk.injEq] at hq
      obtain ⟨rfl, rfl, rfl⟩ := hq
      exact ⟨p, pl, by simp [swapElemToAlu, hel, hv], h, hpl⟩
  | cons v rest =>
      rw [hv, List.map_cons] at hel
      simp only [swapElemToAlu, hv, hel, h.free] at hq ⊢
      split
      · next halu =>
          rw [if_pos halu] at hq
          cases hq
          exact ⟨p, pl, rfl, h, hpl⟩
      · next halu =>
          rw [if_neg halu] at hq
          have hfound : ∃ b, (true, (⟨Function.update (Function.update q.free .valu (q.free .valu + 1)) .alu
              (Function.update q.free .valu (q.free .valu + 1) .alu - VLEN), b, rest⟩ : FuncUnitPool),
              setEngineChoice ql v.node .alu) = (swapped, q', ql') := by
            split at hq
            · exact ⟨_, Except.ok.inj hq⟩
            · split at hq
              · cases hq
              · split at hq
                · obtain ⟨es, -, hq⟩ := bind_eq_ok.mp hq
                  exact ⟨_, Except.ok.inj hq⟩
                · cases hq
          obtain ⟨b, hfound⟩ := hfound
          cases hfound
          exact ⟨_, _, rfl, ⟨rfl, rfl⟩, setEngineChoice_congr hpl _ _⟩

theorem place_sim (h : Sim p q) (hpl : pl.val = ql.val) (hq : q.place ql i c (some r) = .ok (res, q', ql')) :
    ∃ p' pl', p.place pl i c none = .ok (res, p', pl') ∧ Sim p' q' ∧ pl'.val = ql'.val := by
  unfold place at hq ⊢
  split at hq
  · cases hq
    exact ⟨p, pl, rfl, ⟨h.free, h.elems⟩, hpl⟩
  · simp only [hpl, h.free] at hq ⊢
    split
    · next hl =>
        rw [if_pos hl] at hq
        exact spillAlu_sim h hpl hq
    · next hl =>
        rw [if_neg hl] at hq
        split
        · next hv =>
            rw [if_pos hv] at hq
            cases hq
            obtain ⟨hsim, hval⟩ := putWhole_sim (i := i) (c := c) (r := r) h hpl .valu
            refine ⟨_, _, rfl, ⟨hsim.free, ?_⟩, hval⟩
            simp [h.elems]
        · next hv =>
            rw [if_neg hv] at hq
            exact spillAlu_sim h hpl hq
  · dsimp only at hq ⊢
    rw [h.free]
    split
    · next hf =>
        rw [if_pos hf] at hq
        split
        · next he =>
            rw [if_pos he] at hq
            obtain ⟨⟨swapped, q₁, ql₁⟩, hs, hq⟩ := bind_eq_ok.mp hq
            obtain ⟨p₁, pl₁, hs', hsim, hval⟩ := swapElemToAlu_sim h hpl hs
            rw [hs', bind_ok]
            cases swapped with
            | false =>
                cases hq
                exact ⟨_, _, rfl, hsim, hval⟩
            | true =>
                cases hq
                obtain ⟨hsim', hval'⟩ := putWhole_sim (i := i) (c := c) (r := r) hsim hval c.nativeEngine
                exact ⟨_, _, rfl, hsim', hval'⟩
        · next he =>
            rw [if_neg he] at hq
            cases hq
            exact ⟨_, _, rfl, h, hpl⟩
    · next hf =>
        rw [if_neg hf] at hq
        cases hq
        obtain ⟨hsim', hval'⟩ := putWhole_sim (i := i) (c := c) (r := r) h hpl c.nativeEngine
        exact ⟨_, _, rfl, hsim', hval'⟩

end FuncUnitPool
end Vliw
