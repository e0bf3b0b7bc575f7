import VliwKernel.Lib.Outcome
import VliwKernel.Problem.Machine

/-!
# What a slot writes

The scratch words that a slot writes, read off the slot, and that the simulator writes just these.
-/

namespace Vliw

/-- The scratch words that the slot writes on an engine. -/
def Slot.writes (e : Engine) : Slot → List Nat
  | .arith _ dest _ _ => List.range' dest (if e = .valu then VLEN else 1)
  | .vbroadcast dest _ | .multiplyAdd dest _ _ _ | .vload dest _ | .vselect dest _ _ _ => List.range' dest VLEN
  | .load dest _ | .const dest _ | .select dest _ _ _ | .addImm dest _ _ | .coreid dest => [dest]
  | .loadOffset dest _ offset => [dest + offset]
  | _ => []

namespace Machine

theorem mapM_fst {f : Nat → Except PyErr (Nat × Nat)} {g : Nat → Nat} (hf : ∀ {i p}, f i = .ok p → p.1 = g i) {l : List Nat}
    {ps : List (Nat × Nat)} (h : l.mapM f = .ok ps) : ps.map Prod.fst = l.map g := by
  induction l generalizing ps with
  | nil =>
      cases h
      rfl
  | cons i l ih =>
      rw [List.mapM_cons] at h
      obtain ⟨p, hp, h⟩ := bind_eq_ok.mp h
      obtain ⟨ps', hps, h⟩ := bind_eq_ok.mp h
      cases h
      simp [hf hp, ih hps]

theorem lanes_fst {f : Nat → Except PyErr (Nat × Nat)} {dest : Nat} (hf : ∀ {i p}, f i = .ok p → p.1 = dest + i)
    {ps : List (Nat × Nat)} (h : lanes f = .ok ps) : ps.map Prod.fst = List.range' dest VLEN := by
  rw [mapM_fst hf h, List.range_eq_range', List.map_add_range', Nat.add_zero]

theorem alu_fst {core : Core} {op : AluOp} {dest a1 a2 : Nat} {ps : List (Nat × Nat)}
    (h : alu core op dest a1 a2 = .ok ps) : ps.map Prod.fst = [dest] := by
  obtain ⟨x, -, h⟩ := bind_eq_ok.mp h
  obtain ⟨y, -, h⟩ := bind_eq_ok.mp h
  obtain ⟨r, -, h⟩ := bind_eq_ok.mp h
  cases h
  rfl

theorem valu_fst {core : Core} {s : Slot} {ps : List (Nat × Nat)} (h : valu core s = .ok ps) :
    ps.map Prod.fst = s.writes .valu := by
  cases s with
  | arith op dest a1 a2 =>
      refine lanes_fst (fun {i p} hp => ?_) h
      obtain ⟨x, -, hp⟩ := bind_eq_ok.mp hp
      obtain ⟨y, -, hp⟩ := bind_eq_ok.mp hp
      obtain ⟨r, -, hp⟩ := bind_eq_ok.mp hp
      cases hp
      rfl
  | vbroadcast dest src =>
      refine lanes_fst (fun {i p} hp => ?_) h
      obtain ⟨x, -, hp⟩ := bind_eq_ok.mp hp
      cases hp
      rfl
  | multiplyAdd dest a b c =>
      refine lanes_fst (fun {i p} hp => ?_) h
      obtain ⟨x, -, hp⟩ := bind_eq_ok.mp hp
      obtain ⟨y, -, hp⟩ := bind_eq_ok.mp hp
      obtain ⟨z, -, hp⟩ := bind_eq_ok.mp hp
      cases hp
      rfl
  | _ => cases h

theorem load_fst {core : Core} {mem : List Nat} {s : Slot} {ps : List (Nat × Nat)} (h : load core mem s = .ok ps) :
    ps.map Prod.fst = s.writes .load := by
  cases s with
  | load dest addr =>
      obtain ⟨x, -, h⟩ := bind_eq_ok.mp h
      obtain ⟨y, -, h⟩ := bind_eq_ok.mp h
      cases h
      rfl
  | loadOffset dest addr offset =>
      obtain ⟨x, -, h⟩ := bind_eq_ok.mp h
      obtain ⟨y, -, h⟩ := bind_eq_ok.mp h
      cases h
      rfl
  | vload dest addr =>
      obtain ⟨base, -, h⟩ := bind_eq_ok.mp h
      refine lanes_fst (fun {i p} hp => ?_) h
      obtain ⟨x, -, hp⟩ := bind_eq_ok.mp hp
      cases hp
      rfl
  | const dest val =>
      cases h
      rfl
  | _ => cases h

theorem flow_fst {core core' : Core} {pause : Bool} {s : Slot} {ps : List (Nat × Nat)}
    (h : flow core pause s = .ok (core', ps)) : ps.map Prod.fst = s.writes .flow := by
  cases s with
  | select dest cond a b =>
      obtain ⟨c, -, h⟩ := bind_eq_ok.mp h
      obtain ⟨x, -, h⟩ := bind_eq_ok.mp h
      cases h
      rfl
  | addImm dest a imm =>
      obtain ⟨x, -, h⟩ := bind_eq_ok.mp h
      cases h
      rfl
  | vselect dest cond a b =>
      obtain ⟨ws, hws, h⟩ := bind_eq_ok.mp h
      cases h
      refine lanes_fst (fun {i p} hp => ?_) hws
      obtain ⟨c, -, hp⟩ := bind_eq_ok.mp hp
      obtain ⟨x, -, hp⟩ := bind_eq_ok.mp hp
      cases hp
      rfl
  | traceWrite val =>
      obtain ⟨x, -, h⟩ := bind_eq_ok.mp h
      cases h
      rfl
  | condJump cond addr =>
      obtain ⟨x, -, h⟩ := bind_eq_ok.mp h
      cases h
      rfl
  | condJumpRel cond offset =>
      obtain ⟨x, -, h⟩ := bind_eq_ok.mp h
      cases h
      rfl
  | jumpIndirect addr =>
      obtain ⟨x, -, h⟩ := bind_eq_ok.mp h
      cases h
      rfl
  | halt | pause | jump _ | coreid _ =>
      cases h
      rfl
  | _ => cases h

/-- The simulator writes the words of `Slot.writes`, in that order. -/
theorem execSlot_writes {m : Machine} {e : Engine} {core core' : Core} {s : Slot} {w : Writes} (he : e ≠ .debug)
    (h : execSlot m e core s = .ok (core', w)) : w.scratch.map Prod.fst = s.writes e := by
  cases e with
  | alu =>
      cases s with
      | arith op dest a1 a2 =>
          obtain ⟨ps, hps, h⟩ := bind_eq_ok.mp h
          cases h
          exact alu_fst hps
      | _ => cases h
  | valu =>
      obtain ⟨ps, hps, h⟩ := bind_eq_ok.mp h
      cases h
      exact valu_fst hps
  | load =>
      obtain ⟨ps, hps, h⟩ := bind_eq_ok.mp h
      cases h
      exact load_fst hps
  | store =>
      obtain ⟨ps, hps, h⟩ := bind_eq_ok.mp h
      cases h
      cases s with
      | store addr src | vstore addr src => rfl
      | _ => cases hps
  | flow =>
      obtain ⟨⟨core₁, ps⟩, hps, h⟩ := bind_eq_ok.mp h
      cases h
      exact flow_fst hps
  | debug => exact absurd rfl he

end Machine
end Vliw
