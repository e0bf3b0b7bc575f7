import VliwKernel.Scheduler.DryRun
import VliwKernel.Scheduler.PoolInvariant

/-!
# What a placement does

A node either lands nothing and leaves everything alone, or lands some of its remaining lanes;
the placement log undoes it exactly. With emission on the pool's bundle keeps realising what
landed, and a dry run takes the same decisions.
-/

namespace Vliw

namespace Placement

/-- The entries between two logs undo the second exactly to the first. -/
abbrev Undoes (s t : Log) : Prop := Logged.Reverts PlaceEntry.undo Eq s t

theorem Undoes.trans {s t u : Log} (h : Undoes s t) (h' : Undoes t u) : Undoes s u :=
  Logged.Reverts.trans (Logged.Respects.eq _) Eq.trans h h'

theorem Undoes.refl (s : Log) : Undoes s s := Logged.Reverts.refl (fun _ => rfl) s

theorem setLanesDone_undoes (s : Log) (i k : Nat) : Undoes s (setLanesDone s i k) :=
  Logged.Reverts.of_record (w := s.val) (by simp [PlaceEntry.undo]) rfl

theorem setEngineChoice_undoes (s : Log) (i : Nat) (e : Engine) : Undoes s (setEngineChoice s i e) :=
  Logged.Reverts.of_record (w := s.val) (by simp [PlaceEntry.undo]) rfl

@[simp] theorem setLanesDone_lanesDone (s : Log) (i k : Nat) :
    (setLanesDone s i k).val.lanesDone = Function.update s.val.lanesDone i k := rfl

@[simp] theorem setEngineChoice_lanesDone (s : Log) (i : Nat) (e : Engine) :
    (setEngineChoice s i e).val.lanesDone = s.val.lanesDone := rfl

/-- How a placement ends: refused, or with some of the remaining lanes landed. -/
inductive Placed (pl : Log) (i total : Nat) : Option Bool → Log → Prop
  | refused : Placed pl i total none pl
  | landed {k b pl'} : 0 < k → pl.val.lanesDone i + k ≤ total → (b = true ↔ pl.val.lanesDone i + k = total) →
      pl'.val.lanesDone = Function.update pl.val.lanesDone i (pl.val.lanesDone i + k) → Undoes pl pl' →
      Placed pl i total (some b) pl'

theorem Placed.undoes {pl pl' : Log} {i total : Nat} {res : Option Bool} (h : Placed pl i total res pl') :
    Undoes pl pl' := by
  cases h with
  | refused => exact .refl _
  | landed _ _ _ _ h => exact h

end Placement

namespace FuncUnitPool
open Placement

variable {p p' : FuncUnitPool} {pl pl' : Log} {i : Nat} {c : Class}

theorem putWhole_placed (e : Engine) (instr : Option (Instr Reg)) (h0 : pl.val.lanesDone i = 0)
    (ht : 0 < c.lanesTotal) : Placed pl i c.lanesTotal (some true) (p.putWhole pl i c e instr).2 := by
  refine .landed (k := c.lanesTotal) ht (by omega) (by simp [h0]) ?_
    ((setLanesDone_undoes _ _ _).trans (setEngineChoice_undoes _ _ _))
  simp [putWhole, h0]

theorem spillAlu_placed {total : Nat} {instr : Option (Instr Reg)} {res : Option Bool}
    (h : p.spillAlu pl i total instr = .ok (res, p', pl')) : Placed pl i total res pl' ∧ (res = none → p' = p) := by
  simp only [spillAlu] at h
  split at h
  · cases h
    exact ⟨.refused, fun _ => rfl⟩
  · next hn =>
      obtain ⟨bundle, -, h⟩ : ∃ bundle : Dict Engine (List Entry), True ∧
          (some (decide (pl.val.lanesDone i + min (total - pl.val.lanesDone i) (p.free .alu) = total)),
            { p.take .alu (min (total - pl.val.lanesDone i) (p.free .alu)) with bundle := bundle },
            setEngineChoice (setLanesDone pl i (pl.val.lanesDone i +
              min (total - pl.val.lanesDone i) (p.free .alu))) i .alu) = (res, p', pl') := by
        cases instr with
        | none => exact ⟨_, trivial, Except.ok.inj h⟩
        | some r =>
            obtain ⟨b, -, h⟩ := bind_eq_ok.mp h
            exact ⟨_, trivial, Except.ok.inj h⟩
      cases h
      refine ⟨.landed (Nat.pos_of_ne_zero hn) (by omega) (by simp) rfl
        ((setLanesDone_undoes _ _ _).trans (setEngineChoice_undoes _ _ _)), ?_⟩
      simp

/-- An eviction lands and loses no lane; a refused one changes nothing. -/
theorem swapElemToAlu_spec {swapped : Bool} (h : p.swapElemToAlu pl = .ok (swapped, p', pl')) :
    pl'.val.lanesDone = pl.val.lanesDone ∧ Undoes pl pl' ∧ (swapped = false → p' = p ∧ pl' = pl) := by
  simp only [swapElemToAlu] at h
  split at h
  · cases h
    exact ⟨rfl, .refl _, fun _ => ⟨rfl, rfl⟩⟩
  · next v rest _ =>
      split at h
      · cases h
        exact ⟨rfl, .refl _, fun _ => ⟨rfl, rfl⟩⟩
      · have key : swapped = true ∧ pl' = setEngineChoice pl v.node .alu := by
          split at h
          · cases h
            exact ⟨rfl, rfl⟩
          · split at h
            · cases h
            · split at h
              · obtain ⟨es, -, h⟩ := bind_eq_ok.mp h
                cases h
                exact ⟨rfl, rfl⟩
              · cases h
        obtain ⟨rfl, rfl⟩ := key
        exact ⟨rfl, setEngineChoice_undoes _ _ _, by simp⟩

theorem Placed.of_lanesDone {pl pl₁ pl' : Log} {total : Nat} {res : Option Bool}
    (h : Placed pl₁ i total res pl') (hl : pl₁.val.lanesDone = pl.val.lanesDone) (hu : Undoes pl pl₁)
    (hres : res ≠ none) : Placed pl i total res pl' := by
  cases h with
  | refused => exact absurd rfl hres
  | landed hk hle hb hl' hu' =>
      rw [hl] at hle hb hl'
      exact .landed hk hle hb hl' (hu.trans hu')

theorem place_placed {instr : Option (Instr Reg)} {res : Option Bool} (hk : c.kind ≠ .debug)
    (hlt : pl.val.lanesDone i < c.lanesTotal) (hatom : c.kind ≠ .vecElem → c.lanesTotal = 1)
    (h : p.place pl i c instr = .ok (res, p', pl')) : Placed pl i c.lanesTotal res pl' ∧ (res = none → p' = p) := by
  unfold place at h
  split at h
  · next hd => exact absurd hd hk
  · split at h
    · exact spillAlu_placed h
    · next hz =>
        split at h
        · cases h
          exact ⟨putWhole_placed (p := p) .valu instr (by omega) (by omega), by simp⟩
        · exact spillAlu_placed h
  · next hd hv =>
      have h1 := hatom hv
      have h0 : pl.val.lanesDone i = 0 := by omega
      dsimp only at h
      split at h
      · split at h
        · obtain ⟨⟨swapped, p₁, pl₁⟩, hs, h⟩ := bind_eq_ok.mp h
          obtain ⟨hl, hu, hno⟩ := swapElemToAlu_spec hs
          cases swapped with
          | true =>
              simp only [if_true, Except.ok.injEq, Prod.mk.injEq] at h
              obtain ⟨rfl, rfl, rfl⟩ := h
              exact ⟨Placed.of_lanesDone (putWhole_placed _ _ (by rw [hl, h0]) (by omega)) hl hu (by simp), by simp⟩
          | false =>
              simp only [Bool.false_eq_true, if_false, Except.ok.injEq, Prod.mk.injEq] at h
              obtain ⟨rfl, rfl, rfl⟩ := h
              obtain ⟨rfl, rfl⟩ := hno rfl
              exact ⟨.refused, fun _ => rfl⟩
        · cases h
          exact ⟨.refused, fun _ => rfl⟩
      · cases h
        exact ⟨putWhole_placed _ _ h0 (by omega), by simp⟩

section emission

variable {M : Ledger} {r : Instr Reg}

theorem lanesTotal_atomic {α : Type} {op : Op α} (hk : (classify op).kind ≠ .debug)
    (hk' : (classify op).kind ≠ .gather) (hv : (classify op).kind ≠ .vecElem) : (classify op).lanesTotal = 1 := by
  revert hv hk hk'
  cases op <;> simp [classify, Op.engine, Op.isGather]

theorem lanesTotal_vecElem {α : Type} {op : Op α} (hk : (classify op).kind = .vecElem) : (classify op).lanesTotal = VLEN := by
  revert hk
  cases op <;> simp [classify, Op.engine, Op.isGather]

theorem lanesTotal_gather {α : Type} {op : Op α} (hk : (classify op).kind = .gather) : (classify op).lanesTotal = VLEN := by
  revert hk
  cases op <;> simp [classify, Op.engine, Op.isGather]

theorem aluLanes_ok (hk : (classify r.op).kind = .vecElem) (node lo n : Nat) :
    aluLanes node r (List.range' lo n) = .ok (laneEntries node r lo n) := by
  have hlane : ∀ j, aluLane r j = .ok (laneSlot r j) := by
    intro j
    revert hk
    cases hr : r.op <;> simp [classify, Op.engine, Op.isGather, aluLane, laneSlot, hr]
  simp only [aluLanes, hlane, bind_ok, laneEntries]
  exact List.mapM_pure

theorem engine_vecElem (hk : (classify r.op).kind = .vecElem) :
    r.engine = .valu ∧ laneEngine r = .alu ∧ (classify r.op).lanesTotal = VLEN := by
  revert hk
  cases hr : r.op <;> simp [classify, Op.engine, Op.isGather, laneEngine, Instr.engine, hr]

theorem spillAlu_emit (pl : Log) (hM : M i = none) (h : Inv M p) (hk : (classify r.op).kind = .vecElem) :
    ∃ res p' pl', p.spillAlu pl i VLEN (some r) = .ok (res, p', pl') ∧
      (res ≠ none → Inv (Function.update M i (some ⟨r, pl.val.lanesDone i, pl'.val.lanesDone i⟩)) p') := by
  obtain ⟨-, hle, -⟩ := engine_vecElem hk
  simp only [spillAlu]
  split
  · exact ⟨_, _, _, rfl, fun hn => absurd rfl hn⟩
  · refine ⟨_, _, _, by rw [aluLanes_ok hk]; rfl, fun _ => ?_⟩
    simp only [setEngineChoice_lanesDone, setLanesDone_lanesDone, Function.update_self]
    have := h.lanes hM (pl.val.lanesDone i) (min (VLEN - pl.val.lanesDone i) (p.free .alu)) (.inl hk)
      (by rw [hle]; omega) _ rfl
    rw [hle] at this
    exact this

theorem putWhole_emit (pl : Log) (hM : M i = none) (h : Inv M p) (hk : (classify r.op).kind ≠ .gather)
    (hfree : r.engine ≠ .debug → 0 < p.free r.engine)
    (h0 : pl.val.lanesDone i = 0) :
    Inv (Function.update M i (some ⟨r, pl.val.lanesDone i,
      (p.putWhole pl i (classify r.op) r.engine (some r)).2.val.lanesDone i⟩))
      (p.putWhole pl i (classify r.op) r.engine (some r)).1 := by
  simp only [putWhole, setEngineChoice_lanesDone, setLanesDone_lanesDone, Function.update_self, h0]
  refine h.whole hM hk hfree _ (fun v hv => .inl hv) h.sorted _ fun e he => ?_
  simp only [take, Function.update_apply]
  split
  · next h => rw [h]
  · rfl

theorem swapElemToAlu_emit (pl : Log) (h : Inv M p) : ∃ swapped p' pl', p.swapElemToAlu pl = .ok (swapped, p', pl') ∧
    Inv M p' ∧ (swapped = true → p'.free .valu = p.free .valu + 1) := by
  simp only [swapElemToAlu]
  cases hv : p.valuElems with
  | nil => exact ⟨_, _, _, rfl, h, by simp⟩
  | cons v rest =>
      dsimp only
      split
      · exact ⟨_, _, _, rfl, h, by simp⟩
      · next halu =>
          obtain ⟨r, slot, hhome, hk, hm, hs⟩ := h.elems v (by simp [hv])
          obtain ⟨valu, hb⟩ : ∃ valu, p.bundle.get? .valu = some valu := by
            cases hb : p.bundle.get? .valu with
            | none => simp [slots, hb] at hs
            | some valu => exact ⟨valu, rfl⟩
          have hslots : slots p.bundle .valu = valu := by simp [slots, hb]
          have hlt : slot < valu.length := hslots ▸ (List.getElem?_eq_some_iff.mp hs).1
          have hlanes : aluLanes v.node r (List.range VLEN) = .ok (laneEntries v.node r 0 VLEN) := by
            rw [List.range_eq_range']
            exact aluLanes_ok hk _ _ _
          simp only [hhome, hb, hlt, if_true, hlanes, bind_ok]
          refine ⟨_, _, _, rfl, ?_, fun _ => ?_⟩
          · have := h.evict hv hhome (Nat.le_of_not_lt halu)
              (Function.update (Function.update p.free .valu (p.free .valu + 1)) .alu
                (Function.update p.free .valu (p.free .valu + 1) .alu - VLEN))
              (by simp) (by simp) (fun e he he' => by simp [he, he'])
            rwa [evicted, hslots] at this
          · simp

/-- With emission on `place` does not raise, and the bundle realises what landed. -/
theorem place_emit (hM : M i = none) (h : Inv M p) (hk : (classify r.op).kind ≠ .debug)
    (hk' : (classify r.op).kind ≠ .gather) (hlt : pl.val.lanesDone i < (classify r.op).lanesTotal) :
    ∃ res p' pl', p.place pl i (classify r.op) (some r) = .ok (res, p', pl') ∧
      (res ≠ none → Inv (Function.update M i (some ⟨r, pl.val.lanesDone i, pl'.val.lanesDone i⟩)) p') := by
  have heng : (classify r.op).nativeEngine = r.engine := by
    cases hr : r.op <;> simp [classify, Op.engine, Op.isGather, Instr.engine, hr]
  by_cases hv : (classify r.op).kind = .vecElem
  · obtain ⟨hvalu, -, htot⟩ := engine_vecElem hv
    have hspill := spillAlu_emit pl hM h hv
    rw [← htot] at hspill
    simp only [place, hv]
    split
    · exact hspill
    · next hz =>
        split
        · next hfree =>
            refine ⟨_, _, _, rfl, fun _ => ?_⟩
            have h0 : pl.val.lanesDone i = 0 := by omega
            simp only [putWhole, setEngineChoice_lanesDone, setLanesDone_lanesDone, Function.update_self, h0]
            rw [← hvalu]
            refine h.whole hM hk' (fun _ => hvalu ▸ hfree) _ (fun v hm => ?_) ?_ _ fun e he => ?_
            · rcases List.mem_cons.mp hm with rfl | hm
              · refine .inr ⟨?_, hv⟩
                simp [slots_append, hvalu]
              · exact .inl hm
            · refine List.pairwise_cons.mpr ⟨fun u hu => ?_, h.sorted⟩
              obtain ⟨ru, su, hhome, -, -, hs⟩ := h.elems u hu
              have := (List.getElem?_eq_some_iff.mp hs).1
              simpa [slotOf, hhome, slots_append, hvalu] using this
            · simp only [take, Function.update_apply]
              split
              · next h => rw [h]
              · rfl
        · exact hspill
  · have h0 : pl.val.lanesDone i = 0 := by
      have := lanesTotal_atomic hk hk' hv
      omega
    have hplace : p.place pl i (classify r.op) (some r) =
        if p.free r.engine = 0 then
          if r.engine = .valu then do
            let x ← p.swapElemToAlu pl
            if x.1 then .ok (some true, x.2.1.putWhole x.2.2 i (classify r.op) r.engine (some r))
            else .ok (none, x.2)
          else .ok (none, p, pl)
        else .ok (some true, p.putWhole pl i (classify r.op) r.engine (some r)) := by
      rw [← heng]
      unfold place
      split
      · next hc => exact absurd hc hk
      · next hc => exact absurd hc hv
      · rfl
    rw [hplace]
    split
    · split
      · next hvalu =>
          obtain ⟨swapped, p', pl', hs, hinv, hfree⟩ := swapElemToAlu_emit pl h
          obtain ⟨hl, -, -⟩ := swapElemToAlu_spec hs
          rw [hs]
          cases swapped with
          | false => exact ⟨_, _, _, rfl, fun hn => absurd rfl hn⟩
          | true =>
              refine ⟨_, _, _, rfl, fun _ => ?_⟩
              have := putWhole_emit pl' hM hinv hk' (fun _ => by rw [hvalu, hfree rfl]; omega) (by rw [hl, h0])
              rwa [hl] at this
      · exact ⟨_, _, _, rfl, fun hn => absurd rfl hn⟩
    · next hfree =>
        exact ⟨_, _, _, rfl, fun _ => putWhole_emit pl hM h hk' (fun _ => Nat.pos_of_ne_zero hfree) h0⟩

theorem placeDebug_emit (pl : Log) (hM : M i = none) (h : Inv M p) (hk : (classify r.op).kind = .debug) :
    ∃ p', p.place pl i (classify r.op) (some r) = .ok (some true, p', pl) ∧
      Inv (Function.update M i (some ⟨r, 0, 0⟩)) p' := by
  have heng : r.engine = .debug ∧ (classify r.op).lanesTotal = 0 := by
    revert hk
    cases hr : r.op <;> simp [classify, Op.engine, Op.isGather, Instr.engine, hr]
  refine ⟨{ p with bundle := append p.bundle .debug [.whole i r] }, by simp [place, hk], ?_⟩
  have := h.whole hM (by simp [hk]) (fun he => absurd heng.1 he) p.valuElems (fun v hv => .inl hv) h.sorted p.free
    fun e he => by simp [heng.1, he]
  rwa [heng.1, heng.2] at this

/-- The pool is fit for a run: with emission on its bundle realises the ledger. -/
def Fit (emit : Bool) (M : Ledger) (p : FuncUnitPool) : Prop := if emit then Inv M p else p.Dry

theorem Fit.fresh (emit : Bool) : Fit emit (fun _ => none) .fresh := by
  cases emit with
  | false =>
      intro v hv
      simp [FuncUnitPool.fresh] at hv
  | true => exact Inv.fresh

theorem place_ok (r : Instr Reg) (pl : Log) (emit : Bool) (hM : M i = none) (h : Fit emit M p) (hk : (classify r.op).kind ≠ .debug)
    (hk' : (classify r.op).kind ≠ .gather) (hlt : pl.val.lanesDone i < (classify r.op).lanesTotal) :
    ∃ res p' pl', p.place pl i (classify r.op) (if emit then some r else none) = .ok (res, p', pl') ∧
      Placed pl i (classify r.op).lanesTotal res pl' ∧ (res = none → p' = p) ∧
      (res ≠ none → Fit emit (Function.update M i (some ⟨r, pl.val.lanesDone i, pl'.val.lanesDone i⟩)) p') := by
  cases emit with
  | false =>
      obtain ⟨res, p', pl', hp, hd⟩ := place_dry h pl i (classify r.op)
      obtain ⟨hplaced, hsame⟩ := place_placed hk hlt (lanesTotal_atomic hk hk') hp
      exact ⟨res, p', pl', hp, hplaced, hsame, fun _ => hd⟩
  | true =>
      obtain ⟨res, p', pl', hp, hinv⟩ := place_emit hM h hk hk' hlt
      obtain ⟨hplaced, hsame⟩ := place_placed hk hlt (lanesTotal_atomic hk hk') hp
      exact ⟨res, p', pl', hp, hplaced, hsame, hinv⟩

end emission

end FuncUnitPool
end Vliw
