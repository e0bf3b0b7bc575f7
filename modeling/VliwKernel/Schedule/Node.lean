import VliwKernel.Regalloc.BuildDag
import VliwKernel.Schedule.Registers
import VliwKernel.Scheduler.Placing

/-!
# One node of a cycle

The few things that a scheduler can do with a node of the frontier: leave it, let it hold its
register, land some of its lanes, or complete and commit it. Trial and replay share the list.
-/

namespace Vliw
open RegisterAllocator

def Ledger.note (M : Ledger) (i : Nat) : Option Landing → Ledger
  | none => M
  | some x => Function.update M i (some x)

/-- An instruction as its slots show it: resolved, but a gather goes to the start of the register of
its destination. -/
def placedInstr (i : Instr Operand) (a : RegisterAllocator) : Instr Reg :=
  i.rebuild (fun o => ⟨a.addrOf o, o.isVec⟩)
    (fun o => ⟨a.addrOf (if i.op.isGather then .sym o.base else o), o.isVec⟩)

theorem placedInstr_eq {i : Instr Operand} (h : (classify i.op).kind ≠ .gather) (a : RegisterAllocator) :
    placedInstr i a = resolveOperands i a := by
  have hg : i.op.isGather = false := by
    rwa [ne_eq, FuncUnitPool.kind_eq_gather, Bool.not_eq_true] at h
  simp only [placedInstr, resolveOperands, hg, Bool.false_eq_true, if_false]

theorem classify_rebuild {α β : Type} (rd wr : α → β) (op : Op α) : classify (op.rebuild rd wr) = classify op := by
  cases op <;> rfl

theorem classify_placedInstr (i : Instr Operand) (a : RegisterAllocator) :
    classify (placedInstr i a).op = classify i.op := classify_rebuild _ _ _

/-- What holds of a scheduler's state between any two nodes, `prev` being what was committed at the
end of the last cycle. -/
structure World.Ok (nodes : List DNode) (prev : Nat → Bool) (w : World) : Prop where
  alloc : w.alloc.tab.val.Inv
  dag : Dag.Inv nodes prev w.dag.val
  lanes_pending : ∀ {i n}, nodes[i]? = some n → w.dag.val.committed i = false →
    (classify n.instr.op).kind ≠ .debug → w.place.val.lanesDone i < (classify n.instr.op).lanesTotal
  lanes_done : ∀ {i n}, nodes[i]? = some n → w.dag.val.committed i = true →
    w.place.val.lanesDone i = (classify n.instr.op).lanesTotal
  lanes_debug : ∀ {i n}, nodes[i]? = some n → (classify n.instr.op).kind = .debug → w.place.val.lanesDone i = 0
  lanes_ready : ∀ {i}, 0 < w.place.val.lanesDone i → ∀ e ∈ Dag.inEdges nodes i, e.2 = 1 → prev e.1 = true
  sticky : ∀ {i n d}, nodes[i]? = some n → n.instr.op.dest? = some d → (classify n.instr.op).kind ≠ .gather →
    (w.alloc.tab.val.assigned d.base).isSome → 0 < w.place.val.lanesDone i

section
variable (rc : Sym → Option Int) (nodes : List DNode) (i : Nat) (ins : Instr Operand) (w : World)

/-- What happens to a node: the lanes that landed, whether it was committed, the state after it. -/
inductive NodeStep : Option Landing → Bool → World → Prop
  | idle {b} : b.tab.val.Inv → b.tab.val.assigned = w.alloc.tab.val.assigned →
      b.tab.val.remaining = w.alloc.tab.val.remaining → Undoes rc w.alloc b →
      NodeStep none false { w with alloc := b }
  | held {fresh b} : ins.op.isGather = true ∨ 0 < w.place.val.lanesDone i → Acquire rc ins w.alloc (some fresh) b →
      NodeStep none false { w with alloc := b }
  | landed {fresh b k place pool} : Acquire rc ins w.alloc (some fresh) b → 0 < k →
      w.place.val.lanesDone i + k < (classify ins.op).lanesTotal →
      place.val.lanesDone = Function.update w.place.val.lanesDone i (w.place.val.lanesDone i + k) →
      Placement.Undoes w.place place →
      NodeStep (some ⟨placedInstr ins b, w.place.val.lanesDone i, w.place.val.lanesDone i + k⟩) false
        ⟨w.dag, b, place, pool⟩
  | done {fresh b c n k place pool} : Acquire rc ins w.alloc (some fresh) b →
      (0 < k ∨ (classify ins.op).kind = .debug) →
      w.place.val.lanesDone i + k = (classify ins.op).lanesTotal →
      place.val.lanesDone = Function.update w.place.val.lanesDone i (w.place.val.lanesDone i + k) →
      Placement.Undoes w.place place → commitReads ins b = .ok (c, n) →
      NodeStep (some ⟨placedInstr ins b, w.place.val.lanesDone i, w.place.val.lanesDone i + k⟩) true
        ⟨(Dag.commit nodes w.dag i).1, c, place, pool⟩

end

section registers

variable {rc : Sym → Option Int} {a b : RegisterAllocator} {ins : Instr Operand} {got : Option (List Sym)}

theorem Acquire.inv (h : a.tab.val.Inv) (ha : Acquire rc ins a got b) : b.tab.val.Inv := by
  cases ha with
  | full _ _ => exact h
  | noDest _ => exact h
  | sticky _ _ => exact h
  | fresh _ _ _ hw => exact hw.inv

theorem Acquire.undoes (ha : Acquire rc ins a got b) : Undoes rc a b := by
  cases ha with
  | full _ _ => exact Logged.Reverts.refl (fun _ => rfl) a.tab
  | noDest _ => exact .refl a
  | sticky _ _ => exact .refl a
  | fresh _ _ _ hw => exact hw.undoes

theorem Acquire.assigned_of_ne (ha : Acquire rc ins a got b) {t : Sym}
    (ht : ∀ d, ins.op.dest? = some d → d.base = t → rc t = none) :
    b.tab.val.assigned t = a.tab.val.assigned t ∧ b.tab.val.remaining t = a.tab.val.remaining t := by
  cases ha with
  | full _ _ => exact ⟨rfl, rfl⟩
  | noDest _ => exact ⟨rfl, rfl⟩
  | sticky _ _ => exact ⟨rfl, rfl⟩
  | @fresh d n addr _ hd _ hn hw =>
      have hne : t ≠ d.base := by
        rintro rfl
        rw [ht _ hd rfl] at hn
        cases hn
      rw [hw.assigned, hw.remaining, Function.update_of_ne hne, Function.update_of_ne hne]
      exact ⟨rfl, rfl⟩

theorem Acquire.idle {nodes : List DNode} {i : Nat} {w : World} (h : w.alloc.tab.val.Inv)
    (ha : Acquire rc ins w.alloc none b) : NodeStep rc nodes i ins w none false { w with alloc := b } := by
  have hu := ha.undoes
  cases ha with
  | full hd hcan => exact .idle h rfl rfl hu

structure Released (rc : Sym → Option Int) (a b : RegisterAllocator) : Prop where
  inv : b.tab.val.Inv
  undoes : Undoes rc a b
  assigned : ∀ {t x}, b.tab.val.assigned t = some x → a.tab.val.assigned t = some x

theorem Released.trans {c : RegisterAllocator} (h : Released rc a b) (h' : Released rc b c) : Released rc a c :=
  ⟨h'.inv, h.undoes.trans h'.undoes, fun hx => h.assigned (h'.assigned hx)⟩

theorem commitRead_released (rc : Sym → Option Int) (h : a.tab.val.Inv) (o : Operand) (k : Nat) :
    ∃ b n, commitRead (a, k) o = .ok (b, n) ∧ Released rc a b := by
  rcases commitRead_cases rc h o k with ⟨-, -, hread⟩ | ⟨addr, m, b, -, -, hread, hstep⟩
  · exact ⟨a, k, hread, h, .refl a, id⟩
  · refine ⟨b, k + 1, hread, hstep.inv, hstep.undoes, fun hx => ?_⟩
    rw [hstep.assigned] at hx
    split at hx
    · rw [Function.update_apply] at hx
      split at hx
      · cases hx
      · exact hx
    · exact hx

theorem commitReads_released (rc : Sym → Option Int) (h : a.tab.val.Inv) (ins : Instr Operand) :
    ∃ b n, commitReads ins a = .ok (b, n) ∧ Released rc a b := by
  have hloop : ∀ (os : List Operand) (a : RegisterAllocator) (k : Nat), a.tab.val.Inv →
      ∃ b n, os.foldlM commitRead (a, k) = .ok (b, n) ∧ Released rc a b := by
    intro os
    induction os with
    | nil => exact fun a k h => ⟨a, k, rfl, h, .refl a, id⟩
    | cons o os ih =>
        intro a k h
        obtain ⟨c, m, hc, hstep⟩ := commitRead_released rc h o k
        obtain ⟨b, n, hb, hr⟩ := ih c m hstep.inv
        exact ⟨b, n, by rw [List.foldlM_cons, hc, bind_ok, hb], hstep.trans hr⟩
  exact hloop _ a 0 h

end registers

section step

variable {rc : Sym → Option Int} {nodes : List DNode} {prev : Nat → Bool} {w : World} {i : Nat} {node : DNode}
  {M : Ledger} {emit : Bool}

open FuncUnitPool Placement

theorem placeGather_ok {ins : Instr Operand} {dest addr : Operand} {p : FuncUnitPool} {pl : Log}
    (hop : ins.op = .gather dest addr) (b : RegisterAllocator) (hM : M i = none) (h : Fit emit M p)
    (hlt : pl.val.lanesDone i < VLEN) :
    ∃ res p' pl', placeGather p pl i VLEN
        (if emit then some (b.addrOf (.sym dest.base), b.addrOf addr) else none) = (res, p', pl') ∧
      Placed pl i VLEN res pl' ∧ (res = none → p' = p) ∧ (res ≠ none →
        Fit emit (Function.update M i (some ⟨placedInstr ins b, pl.val.lanesDone i, pl'.val.lanesDone i⟩)) p') := by
  simp only [placeGather]
  split
  · exact ⟨_, _, _, rfl, .refused, fun _ => rfl, fun hn => absurd rfl hn⟩
  · next hn =>
      refine ⟨_, _, _, rfl, .landed (Nat.pos_of_ne_zero hn) (by omega) (by simp) rfl (setLanesDone_undoes _ _ _),
        by simp, fun _ => ?_⟩
      cases emit with
      | false => exact h
      | true =>
          have hop' : (placedInstr ins b).op = .gather ⟨b.addrOf (.sym dest.base), dest.isVec⟩ ⟨b.addrOf addr, addr.isVec⟩ := by
            simp [placedInstr, Instr.rebuild, hop, Op.rebuild, Op.isGather]
          have hk : (classify (placedInstr ins b).op).kind = .gather := by
            simp [hop', kind_eq_gather, Op.isGather]
          have hle : laneEngine (placedInstr ins b) = .load := by
            simp [laneEngine, hop', Op.isGather]
          have hlanes : ∀ lo n, gatherLanes i (b.addrOf (.sym dest.base)) (b.addrOf addr) (List.range' lo n) =
              laneEntries i (placedInstr ins b) lo n := by
            intro lo n
            simp [gatherLanes, laneEntries, laneSlot, hop']
          have hinv := Inv.lanes h hM (pl.val.lanesDone i) (min (VLEN - pl.val.lanesDone i) (p.free .load)) (.inr hk)
            (by rw [hle]; omega) _ rfl
          rw [hle] at hinv
          simp only [setLanesDone_lanesDone, Function.update_self, if_true, hlanes]
          exact hinv

theorem commitNode_eq {st : Stats} {c : RegisterAllocator} {n : Nat} (hidx : node.idx = i)
    (hc : commitReads node.instr w.alloc = .ok (c, n)) : commitNode nodes node w st =
      .ok (⟨(Dag.commit nodes w.dag i).1, c, w.place, w.pool⟩,
        { st with committed := st.committed + 1, reads := st.reads + n }) := by
  simp only [commitNode, hc, bind_ok, hidx]

/-- The tags of a node that landed nothing are taken back. -/
theorem unallocWrites_ok {ins : Instr Operand} {a b : RegisterAllocator} {fresh : List Sym} (h : a.tab.val.Inv)
    (ha : Acquire rc ins a (some fresh) b)
    (hsticky : ∀ d, ins.op.dest? = some d → a.tab.val.assigned d.base = none) (obl : Int) :
    ∃ c obl', unallocWrites rc ins fresh b obl = .ok (c, obl') ∧ c.tab.val.Inv ∧
      c.tab.val.assigned = a.tab.val.assigned ∧ c.tab.val.remaining = a.tab.val.remaining ∧ Undoes rc a c := by
  cases ha with
  | noDest hd => exact ⟨a, obl, by simp [unallocWrites, wrTags_eq, hd], h, rfl, rfl, .refl a⟩
  | sticky hd hs =>
      rw [hsticky _ hd] at hs
      cases hs
  | @fresh d n addr _ hd hs hn hw =>
      obtain ⟨c, hc, hval, hundo, -⟩ := unwrite_write h hs hn hw
      refine ⟨c, obl - n, ?_, ?_, ?_, ?_, hw.undoes.trans hundo⟩
      · simp [unallocWrites, wrTags_eq, hd, hc, getKey, hn]
      · rw [hval]
        exact h.setName _ _
      · rw [hval]
        rfl
      · rw [hval]
        rfl

/-- How `_run_cycle` deals with a node: by one of the steps, or a `KeyError` for a tag without a read
count. -/
def NodeOutcome (rc : Sym → Option Int) (nodes : List DNode) (emit : Bool) (M : Ledger) (node : DNode) (w : World)
    (st : Stats) (x : Except PyErr (World × Stats)) : Prop :=
  (∃ y done w' st', x = .ok (w', st') ∧ NodeStep rc nodes node.idx node.instr w y done w' ∧
    Fit emit (M.note node.idx y) w'.pool ∧ st'.committed = st.committed + done.toNat) ∨
  ∃ d, node.instr.op.dest? = some d ∧ rc d.base = none ∧ w.alloc.tab.val.assigned d.base = none ∧
    x = .error .keyError

theorem runDebug_ok (hn : nodes[i]? = some node) (hidx : node.idx = i) (hok : w.Ok nodes prev) (hM : M i = none)
    (hfit : Fit emit M w.pool) (hk : (classify node.instr.op).kind = .debug) (st : Stats) :
    NodeOutcome rc nodes emit M node w st (runDebug nodes emit node w st) := by
  obtain ⟨b, n, hb, hr⟩ := commitReads_released rc hok.alloc node.instr
  have h0 := hok.lanes_debug hn hk
  obtain ⟨htot, hdest⟩ : (classify node.instr.op).lanesTotal = 0 ∧ node.instr.op.dest? = none := by
    revert hk
    cases node.instr.op <;> simp [classify, Op.engine, Op.isGather, Op.dest?]
  have hstep : ∀ pool, NodeStep rc nodes i node.instr w (some ⟨placedInstr node.instr w.alloc, 0, 0⟩) true
      ⟨(Dag.commit nodes w.dag i).1, b, w.place, pool⟩ := by
    intro pool
    have : NodeStep rc nodes i node.instr w
        (some ⟨placedInstr node.instr w.alloc, w.place.val.lanesDone i, w.place.val.lanesDone i + 0⟩) true
        ⟨(Dag.commit nodes w.dag i).1, b, w.place, pool⟩ :=
      .done (.noDest hdest) (.inr hk) (by rw [h0, htot]) (by simp) (.refl _) hb
    rwa [h0] at this
  refine .inl ⟨some ⟨placedInstr node.instr w.alloc, 0, 0⟩, true, ?_⟩
  cases emit with
  | false =>
      refine ⟨_, _, commitNode_eq hidx hb, hidx ▸ hstep _, hfit, ?_⟩
      rfl
  | true =>
      obtain ⟨pool, hp, hinv⟩ := placeDebug_emit w.place hM hfit (by rwa [classify_placedInstr _ w.alloc])
      rw [classify_placedInstr, placedInstr_eq (by simp [hk])] at hp
      have hrun : runDebug nodes true node w st = commitNode nodes node { w with pool := pool } st := by
        simp only [runDebug, if_true, hidx, hp, bind_ok]
      refine ⟨_, _, hrun.trans (commitNode_eq hidx hb), hidx ▸ hstep pool, ?_, ?_⟩
      · simp only [hidx, Ledger.note]
        exact hinv
      · rfl

theorem landing_ok (hidx : node.idx = i) (hok : w.Ok nodes prev) (hfit : Fit emit M w.pool) {fresh : List Sym}
    {b : RegisterAllocator} (hacq : Acquire rc node.instr w.alloc (some fresh) b) {res : Option Bool}
    {place : Placement.Log} {pool : FuncUnitPool} {st : Stats} (obl : Int) {x : Except PyErr (World × Stats)}
    (hplaced : Placed w.place i (classify node.instr.op).lanesTotal res place) (hsame : res = none → pool = w.pool)
    (hfit' : res ≠ none → Fit emit (Function.update M i
      (some ⟨placedInstr node.instr b, w.place.val.lanesDone i, place.val.lanesDone i⟩)) pool)
    (hx : x = if res = some true then commitNode nodes node ⟨w.dag, b, place, pool⟩ { st with obligations := obl }
      else .ok (⟨w.dag, b, place, pool⟩, { st with obligations := obl }))
    (hheld : res = none → node.instr.op.isGather = true ∨ 0 < w.place.val.lanesDone i) :
    NodeOutcome rc nodes emit M node w st x := by
  subst hidx
  cases hplaced with
  | refused =>
      obtain rfl := hsame rfl
      exact .inl ⟨none, false, _, _, hx, .held (hheld rfl) hacq, hfit, rfl⟩
  | @landed k done _ hk hle hdone hl hu =>
      replace hfit' := hfit' (by simp)
      rw [hl, Function.update_self] at hfit'
      cases done with
      | false =>
          have hne : w.place.val.lanesDone node.idx + k ≠ (classify node.instr.op).lanesTotal := by
            simpa using hdone
          refine .inl ⟨_, false, _, _, hx, .landed hacq hk (by omega) hl hu, hfit', rfl⟩
      | true =>
          obtain ⟨c, n, hc, -⟩ := commitReads_released rc (hacq.inv hok.alloc) node.instr
          refine .inl ⟨_, true, _, _, hx.trans (commitNode_eq rfl hc), .done hacq (.inl hk) (hdone.mp rfl) hl hu hc,
            hfit', rfl⟩

theorem runGather_ok (hn : nodes[i]? = some node) (hidx : node.idx = i) (hok : w.Ok nodes prev)
    (hc : w.dag.val.committed i = false) (hM : M i = none) (hfit : Fit emit M w.pool)
    (hk : (classify node.instr.op).kind = .gather) (st : Stats) :
    NodeOutcome rc nodes emit M node w st (runGather rc nodes emit node w st) := by
  obtain ⟨dest, addr, hop⟩ : ∃ dest addr, node.instr.op = .gather dest addr := by
    revert hk
    cases node.instr.op <;> simp [classify, Op.engine, Op.isGather]
  have hcl : classify node.instr.op = ⟨.gather, VLEN, .load⟩ := by rw [hop]; rfl
  have hlt := hok.lanes_pending hn hc (by simp [hk])
  rw [hcl] at hlt
  rcases allocWrites_cases rc node.instr hok.alloc st.obligations with
    ⟨got, b, obl, haw, hacq⟩ | ⟨d, hd, hrc, hs, -, haw⟩
  · cases got with
    | none =>
        refine .inl ⟨none, false, { w with alloc := b }, { st with obligations := obl }, ?_, ?_, hfit, rfl⟩
        · simp only [runGather, haw, bind_ok]
        · exact hacq.idle hok.alloc
    | some fresh =>
        have hwr : wrTags node.instr = [dest.base] := by simp [wrTags_eq, hop, Op.dest?]
        have hrd : node.instr.readOperands = [addr] := by rw [Instr.readOperands, hop]; rfl
        obtain ⟨res, pool, place, hp, hplaced, hsame, hfit'⟩ := placeGather_ok hop b hM hfit hlt
        have hrun : runGather rc nodes emit node w st =
            if res = some true then
              commitNode nodes node ⟨w.dag, b, place, pool⟩ { st with obligations := obl }
            else .ok (⟨w.dag, b, place, pool⟩, { st with obligations := obl }) := by
          simp only [runGather, haw, bind_ok, hwr, hrd, hidx, hcl, hp]
        exact landing_ok hidx hok hfit hacq obl (hcl ▸ hplaced) hsame hfit' hrun (by simp [hop, Op.isGather])
  · refine .inr ⟨d, hd, hrc, hs, ?_⟩
    simp only [runGather, haw, bind_error]

theorem runRegular_ok (hn : nodes[i]? = some node) (hidx : node.idx = i) (hok : w.Ok nodes prev)
    (hc : w.dag.val.committed i = false) (hM : M i = none) (hfit : Fit emit M w.pool)
    (hk : (classify node.instr.op).kind ≠ .debug) (hk' : (classify node.instr.op).kind ≠ .gather) (st : Stats) :
    NodeOutcome rc nodes emit M node w st (runRegular rc nodes emit node w st) := by
  have hlt := hok.lanes_pending hn hc hk
  rcases allocWrites_cases rc node.instr hok.alloc st.obligations with
    ⟨got, b, obl, haw, hacq⟩ | ⟨d, hd, hrc, hs, -, haw⟩
  · cases got with
    | none =>
        refine .inl ⟨none, false, { w with alloc := b }, { st with obligations := obl }, ?_, ?_, hfit, rfl⟩
        · simp only [runRegular, haw, bind_ok]
        · exact hacq.idle hok.alloc
    | some fresh =>
        have hcl := classify_placedInstr node.instr b
        obtain ⟨res, pool, place, hp, hplaced, hsame, hfit'⟩ := place_ok (placedInstr node.instr b) w.place
          emit hM hfit (by rwa [hcl]) (by rwa [hcl]) (by rwa [hcl])
        rw [hcl, placedInstr_eq hk'] at hp
        rw [hcl] at hplaced
        have hrun : runRegular rc nodes emit node w st =
            if res = none ∧ place.val.lanesDone i = 0 then do
              let x ← unallocWrites rc node.instr fresh b obl
              .ok (⟨w.dag, x.1, place, pool⟩, { st with obligations := x.2 })
            else if res = some true then commitNode nodes node ⟨w.dag, b, place, pool⟩ { st with obligations := obl }
            else .ok (⟨w.dag, b, place, pool⟩, { st with obligations := obl }) := by
          simp only [runRegular, haw, bind_ok, hidx, hp]
          rcases res with _ | _ | _ <;> simp
        by_cases hnone : res = none ∧ w.place.val.lanesDone i = 0
        · obtain ⟨rfl, h0⟩ := hnone
          obtain rfl := hsame rfl
          cases hplaced
          have hfree : ∀ d, node.instr.op.dest? = some d → w.alloc.tab.val.assigned d.base = none := by
            intro d hd
            rw [← Option.not_isSome_iff_eq_none]
            intro hs
            have := hok.sticky hn hd hk' hs
            omega
          obtain ⟨c, obl', hun, hinv, ha, hr, hu⟩ := unallocWrites_ok hok.alloc hacq hfree obl
          refine .inl ⟨none, false, { w with alloc := c }, { st with obligations := obl' }, ?_, ?_, hfit, rfl⟩
          · rw [hrun, if_pos ⟨rfl, h0⟩, hun]
            rfl
          · exact .idle hinv ha hr hu
        · refine landing_ok hidx hok hfit hacq obl hplaced hsame hfit' ?_ fun hres => ?_
          · rw [hrun, if_neg]
            rintro ⟨rfl, h0⟩
            cases hplaced
            exact hnone ⟨rfl, h0⟩
          · exact .inr (Nat.pos_of_ne_zero fun h0 => hnone ⟨hres, h0⟩)
  · refine .inr ⟨d, hd, hrc, hs, ?_⟩
    simp only [runRegular, haw, bind_error]

theorem runNode_ok (rc : Sym → Option Int) (emit : Bool) (hn : nodes[i]? = some node) (hidx : node.idx = i) (hok : w.Ok nodes prev)
    (hc : w.dag.val.committed i = false) (hM : M i = none) (hfit : Fit emit M w.pool) (st : Stats) :
    NodeOutcome rc nodes emit M node w st (runNode rc nodes emit (w, st) i) := by
  unfold runNode
  rw [hn]
  split
  · next h => cases h
  · next node' hnode =>
      cases hnode
      split
      · next hk => exact runDebug_ok hn hidx hok hM hfit hk st
      · next hk => exact runGather_ok hn hidx hok hc hM hfit hk st
      · next hk hk' => exact runRegular_ok hn hidx hok hc hM hfit hk hk' st

end step
end Vliw
