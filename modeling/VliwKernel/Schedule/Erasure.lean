import VliwKernel.Schedule.Cycle
import Mathlib.Tactic.SplitIfs

/-!
# What a cycle does not look at

A cycle records in the journals and counts registers, and reads neither: with the journals closed and the counters
moved it takes the same turns, and the differences it reports are the same.
-/

namespace Vliw

variable {rc : Sym → Option Int} {nodes : List DNode} {node : DNode} {c a : RegisterAllocator} {w : World} {st : Stats}

def Logged.quiet {σ ε : Type} (s : Logged σ ε) : Logged σ ε := ⟨s.val, none⟩

-- no definitional unfolding: the decidability instances have to move along
@[simp] theorem Logged.quiet_val {σ ε : Type} (s : Logged σ ε) : s.quiet.val = s.val := (rfl)

@[simp] theorem Logged.quiet_record {σ ε : Type} (s : Logged σ ε) (v : σ) (e : ε) : s.quiet.record v e = (s.record v e).quiet := (rfl)

namespace RegisterAllocator

/-- A closed journal, and counters that are ahead by those of `c`. -/
def erased (c a : RegisterAllocator) : RegisterAllocator :=
  ⟨a.tab.quiet, a.exhaustionWarnings + c.exhaustionWarnings, a.nAlloc + c.nAlloc, a.nFree + c.nFree⟩

theorem erased_val : (erased c a).tab.val = a.tab.val := (rfl)

@[simp] theorem canWrite_erased : (erased c a).canWrite = a.canWrite := rfl

@[simp] theorem addrOf_erased : (erased c a).addrOf = a.addrOf := rfl

theorem write_erased (s : Sym) : (erased c a).write rc s = (a.write rc s).map (Prod.map id (erased c)) := by
  simp only [write, erased_val]
  cases a.tab.val.assigned s with
  | some addr => rfl
  | none =>
      simp only [bind_map]
      refine bind_congr fun x => bind_congr (x := getKey rc s) fun n => ?_
      simp only [Except.map, erased, Prod.map, id, Logged.quiet_record, Nat.add_right_comm]

theorem unwrite_erased (s : Sym) : (erased c a).unwrite rc s = (a.unwrite rc s).map (erased c) := by
  simp only [unwrite, erased_val, bind_map]
  refine bind_congr (x := getKey rc s) fun n => ?_
  split_ifs
  · rw [bind_map]
    rfl
  · simp only [bind_map]
    rfl
  · rfl

theorem read_erased (s : Sym) : (erased c a).read s = (a.read s).map (erased c) := by
  simp only [read, erased_val, bind_map]
  refine bind_congr fun n => ?_
  split_ifs
  · rw [bind_map]
    refine bind_congr fun x => ?_
    simp only [Except.map, erased, Logged.quiet_record, Nat.add_right_comm]
  · simp only [bind_map]
    refine bind_congr fun x => bind_congr (x := getKey x.2.wordGranule x.1) fun g => bind_congr (x := x.2.pushWord g x.1) fun t => ?_
    simp only [Except.map, erased, Logged.quiet_record, Nat.add_right_comm]
  · rfl

end RegisterAllocator

open RegisterAllocator

theorem resolveOperands_erased (i : Instr Operand) : resolveOperands i (erased c a) = resolveOperands i a := rfl

theorem commitReads_erased (i : Instr Operand) : commitReads i (erased c a) = (commitReads i a).map (Prod.map (erased c) id) := by
  refine foldlM_carry (t := fun _ : Unit => Prod.map (erased c) id) (g := fun i _ => i) ?_ () (a, 0)
  rintro o - - ⟨b, n⟩
  simp only [commitRead, Prod.map, erased_val, id]
  split_ifs
  · rw [read_erased, map_bind, bind_map]
    rfl
  · rfl

theorem allocWrites_erased (i : Instr Operand) (obl : Int) :
    allocWrites rc i (erased c a) obl = (allocWrites rc i a obl).map (Prod.map id (Prod.map (erased c) id)) := by
  rw [allocWrites, allocWrites, canWrite_erased]
  split_ifs
  · have hloop : (wrTags i).foldlM (allocWrite rc) ([], erased c a, obl) =
        ((wrTags i).foldlM (allocWrite rc) ([], a, obl)).map (Prod.map id (Prod.map (erased c) id)) := by
      refine foldlM_carry (t := fun _ : Unit => Prod.map id (Prod.map (erased c) id)) (g := fun i _ => i) ?_ () ([], a, obl)
      rintro t - - ⟨fs, b, m⟩
      simp only [allocWrite, Prod.map, erased_val, id]
      split_ifs
      · rw [write_erased, map_bind, bind_map]
        rfl
      · rw [bind_map]
        refine bind_congr fun n => ?_
        rw [write_erased, map_bind, bind_map]
        rfl
    rw [hloop, map_bind, bind_map]
    rfl
  · simp only [Except.map, Prod.map, id, erased, Nat.add_right_comm]

theorem unwrites_erased (ts : List Sym) : ts.foldlM (unwrite rc) (erased c a) = (ts.foldlM (unwrite rc) a).map (erased c) :=
  foldlM_carry (t := fun _ : Unit => erased c) (g := fun i _ => i) (fun t _ _ _ => unwrite_erased t) () a

theorem unallocWrites_erased (i : Instr Operand) (fresh : List Sym) (obl : Int) :
    unallocWrites rc i fresh (erased c a) obl = (unallocWrites rc i fresh a obl).map (Prod.map (erased c) id) := by
  rw [unallocWrites, unallocWrites, unwrites_erased, map_bind, bind_map]
  refine bind_congr fun b => ?_
  rw [bind_map]
  rfl

namespace FuncUnitPool

variable {p : FuncUnitPool} {pl : Placement.Log}

theorem spillAlu_quiet (i total : Nat) (r : Option (Instr Reg)) :
    p.spillAlu pl.quiet i total r = (p.spillAlu pl i total r).map (Prod.map id (Prod.map id Logged.quiet)) := by
  simp only [spillAlu, Logged.quiet_val]
  split_ifs
  · rfl
  · cases r with
    | none => rfl
    | some r =>
        simp only [bind_map]
        rfl

theorem swapElemToAlu_quiet : p.swapElemToAlu pl.quiet = (p.swapElemToAlu pl).map (Prod.map id (Prod.map id Logged.quiet)) := by
  unfold swapElemToAlu
  cases p.valuElems with
  | nil => rfl
  | cons v rest =>
      dsimp only
      split_ifs
      · rfl
      · cases v.home with
        | none => rfl
        | some home =>
            cases p.bundle.get? .valu with
            | none => rfl
            | some valu =>
                dsimp only
                split_ifs
                · simp only [bind_map]
                  rfl
                · rfl

theorem place_quiet (i : Nat) (k : Class) (r : Option (Instr Reg)) :
    p.place pl.quiet i k r = (p.place pl i k r).map (Prod.map id (Prod.map id Logged.quiet)) := by
  unfold place
  cases k.kind
  case debug => cases r <;> rfl
  case vecElem =>
    dsimp only
    rw [Logged.quiet_val]
    split_ifs
    · exact spillAlu_quiet ..
    · rfl
    · exact spillAlu_quiet ..
  all_goals
    dsimp only
    split_ifs
    · rw [swapElemToAlu_quiet, map_bind, bind_map]
      refine bind_congr fun x => ?_
      obtain ⟨swapped, p, pl⟩ := x
      cases swapped <;> rfl
    · rfl
    · rfl

end FuncUnitPool

namespace Dag

theorem foldl_quiet {α : Type} {f : Log × List Nat → α → Log × List Nat}
    (hf : ∀ s u x, f (s.quiet, u) x = Prod.map Logged.quiet id (f (s, u) x)) (l : List α) (s : Log) (u : List Nat) :
    l.foldl f (s.quiet, u) = Prod.map Logged.quiet id (l.foldl f (s, u)) := by
  induction l generalizing s u with
  | nil => rfl
  | cons x l ih =>
      rw [List.foldl_cons, List.foldl_cons, hf]
      exact ih _ _

theorem relax_quiet (s : Log) (u : List Nat) (e : Nat × Nat) :
    relax (s.quiet, u) e = Prod.map Logged.quiet id (relax (s, u) e) := by
  simp only [relax, addFrontier, Logged.quiet_val, Logged.quiet_record]
  split_ifs <;> rfl

theorem commit_quiet (nodes : List DNode) (s : Log) (i : Nat) :
    commit nodes s.quiet i = Prod.map Logged.quiet id (commit nodes s i) := by
  rw [commit, commit, ← foldl_quiet relax_quiet]
  simp only [Logged.quiet_val, Logged.quiet_record]
  split_ifs <;> rfl

theorem advance_quiet (n : Nat) (s : Log) : advance n s.quiet = Prod.map Logged.quiet id (advance n s) := by
  refine foldl_quiet (fun s u i => ?_) _ _ _
  simp only [resolve, addFrontier, Logged.quiet_val, Logged.quiet_record]
  split_ifs <;> rfl

end Dag

/-- The journals closed, and the allocator's counters ahead by those of `c`. -/
def World.erased (c : RegisterAllocator) (w : World) : World := ⟨w.dag.quiet, RegisterAllocator.erased c w.alloc, w.place.quiet, w.pool⟩

theorem commitNode_erased (d : Dag.Log) (pl : Placement.Log) (p : FuncUnitPool) : commitNode nodes node ⟨d.quiet, erased c a, pl.quiet, p⟩ st =
    (commitNode nodes node ⟨d, a, pl, p⟩ st).map (Prod.map (World.erased c) id) := by
  simp only [commitNode, commitReads_erased, map_bind, bind_map, Dag.commit_quiet]
  rfl

theorem runDebug_erased (emit : Bool) :
    runDebug nodes emit node (w.erased c) st = (runDebug nodes emit node w st).map (Prod.map (World.erased c) id) := by
  unfold runDebug
  split_ifs
  · simp only [World.erased, FuncUnitPool.place_quiet, resolveOperands_erased, map_bind, bind_map]
    exact bind_congr fun x => commitNode_erased _ x.2.2 _
  · exact commitNode_erased ..

theorem placeGather_quiet (p : FuncUnitPool) (pl : Placement.Log) (i total : Nat) (addrs : Option (Nat × Nat)) :
    placeGather p pl.quiet i total addrs = Prod.map id (Prod.map id Logged.quiet) (placeGather p pl i total addrs) := by
  simp only [placeGather, Logged.quiet_val]
  split <;> rfl

theorem runGather_erased (emit : Bool) :
    runGather rc nodes emit node (w.erased c) st = (runGather rc nodes emit node w st).map (Prod.map (World.erased c) id) := by
  simp only [runGather, World.erased, allocWrites_erased, map_bind, bind_map]
  refine bind_congr fun x => ?_
  obtain ⟨got, a, obl⟩ := x
  cases got with
  | none => rfl
  | some fresh =>
      cases wrTags node.instr with
      | nil => rfl
      | cons t ts =>
          cases node.instr.readOperands with
          | nil => rfl
          | cons addr as =>
              simp only [Prod.map, id, addrOf_erased, placeGather_quiet]
              generalize (if emit then some (a.addrOf (.sym t), a.addrOf addr) else none) = addrs
              split_ifs
              · exact commitNode_erased ..
              · rfl

theorem runRegular_erased (emit : Bool) :
    runRegular rc nodes emit node (w.erased c) st = (runRegular rc nodes emit node w st).map (Prod.map (World.erased c) id) := by
  simp only [runRegular, World.erased, allocWrites_erased, map_bind, bind_map]
  refine bind_congr fun x => ?_
  obtain ⟨got, a, obl⟩ := x
  cases got with
  | none => rfl
  | some fresh =>
      simp only [Prod.map, id, resolveOperands_erased, FuncUnitPool.place_quiet, map_bind, bind_map]
      refine bind_congr fun y => ?_
      obtain ⟨placed, p, pl⟩ := y
      rcases placed with _ | _ | _
      · dsimp only
        rw [Logged.quiet_val]
        split_ifs
        · rw [unallocWrites_erased, map_bind, bind_map]
          rfl
        · rfl
      · rfl
      · exact commitNode_erased ..

theorem runNode_erased (emit : Bool) (i : Nat) :
    runNode rc nodes emit (w.erased c, st) i = (runNode rc nodes emit (w, st) i).map (Prod.map (World.erased c) id) := by
  unfold runNode
  cases nodes[i]? with
  | none => rfl
  | some node =>
      dsimp only
      cases (classify node.instr.op).kind
      case debug => exact runDebug_erased emit
      case gather => exact runGather_erased emit
      all_goals exact runRegular_erased emit

/-- A cycle is the same with the journals closed and the counters moved, its statistics included. -/
theorem runCycle_erased (emit : Bool) (order : List Nat) (w : World) :
    runCycle rc nodes emit order (w.erased c) = (runCycle rc nodes emit order w).map (Prod.map (World.erased c) id) := by
  have hloop : order.foldlM (runNode rc nodes emit) (w.erased c, .zero) =
      (order.foldlM (runNode rc nodes emit) (w, .zero)).map (Prod.map (World.erased c) id) :=
    foldlM_carry (t := fun _ : Unit => Prod.map (World.erased c) id) (g := fun i _ => i)
      (fun i _ _ p => runNode_erased emit i) () (w, .zero)
  rw [runCycle, runCycle, hloop, map_bind, bind_map]
  refine bind_congr fun p => ?_
  obtain ⟨u, s⟩ := p
  simp only [Except.map, Prod.map, id, World.erased, erased, Nat.cast_add, add_sub_add_right_eq_sub]

end Vliw
