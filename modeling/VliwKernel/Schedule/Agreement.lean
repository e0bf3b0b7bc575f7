import VliwKernel.Schedule.Trial

/-!
# Runs from equal states

A cycle reads the tables, the placements and the pool, and neither the journals nor the counters.
So a trial decides as the replay does, and a replay after trials as one without.
-/

namespace Vliw
open RegisterAllocator

variable {rc : Sym → Option Int} {a b : RegisterAllocator}

abbrev SameTab (a b : RegisterAllocator) : Prop := a.tab.val = b.tab.val

namespace SameTab

theorem write (h : SameTab a b) (s : Sym) :
    Agree (fun p q => p.1 = q.1 ∧ SameTab p.2 q.2) (a.write rc s) (b.write rc s) := by
  simp only [RegisterAllocator.write, h]
  cases b.tab.val.assigned s with
  | some addr => exact ⟨rfl, h⟩
  | none =>
      refine Agree.bind_left _ fun x => Agree.bind_left _ fun n => ⟨rfl, ?_⟩
      simp only [SameTab, Logged.record_val]

theorem read (h : SameTab a b) (s : Sym) : Agree SameTab (a.read s) (b.read s) := by
  simp only [RegisterAllocator.read, h, Logged.record_val]
  refine Agree.bind_left _ fun n => Agree.ite (fun _ => ?_) (fun _ => ?_)
  · refine Agree.bind_left _ fun x => Agree.ite (fun _ => ?_) (fun _ => ?_)
    · simp only [Agree.ok_iff, SameTab, Logged.record_val]
    · refine Agree.bind_left _ fun g => Agree.bind_left _ fun t => ?_
      simp only [Agree.ok_iff, SameTab, Logged.record_val]
  · simp only [Agree.ok_iff, SameTab, Logged.record_val]

theorem unwrite (h : SameTab a b) (s : Sym) : Agree SameTab (a.unwrite rc s) (b.unwrite rc s) := by
  simp only [RegisterAllocator.unwrite, h]
  refine Agree.bind_left _ fun n => Agree.ite (fun _ => ?_) (fun _ => ?_)
  · refine Agree.bind_left _ fun x => Agree.ite (fun _ => ?_) (fun _ => ?_)
    · simp only [Agree.ok_iff, SameTab, Logged.record_val]
    · refine Agree.bind_left _ fun p => ?_
      simp only [Agree.ok_iff, SameTab, Logged.record_val]
  · exact h

theorem collect (h : SameTab a b) : Agree SameTab a.collectScalarGarbage b.collectScalarGarbage := by
  simp only [RegisterAllocator.collectScalarGarbage, h]
  exact Agree.bind_left _ fun t => rfl

theorem canWrite (h : SameTab a b) : a.canWrite = b.canWrite := by
  funext s
  simp only [RegisterAllocator.canWrite, h]

theorem commitReads (h : SameTab a b) (i : Instr Operand) :
    Agree (fun p q => SameTab p.1 q.1 ∧ p.2 = q.2) (commitReads i a) (commitReads i b) := by
  refine Agree.foldlM ?_ _ ⟨h, rfl⟩
  rintro ⟨a, n⟩ ⟨b, m⟩ o ⟨hab, hnm⟩
  dsimp only at hab hnm
  subst hnm
  simp only [commitRead]
  rw [hab]
  refine Agree.ite (fun _ => ?_) (fun _ => ⟨hab, rfl⟩)
  exact (hab.read o.base).bind fun a' b' hab' => ⟨hab', rfl⟩

theorem allocWrites (h : SameTab a b) (i : Instr Operand) (obl : Int) :
    Agree (fun p q => p.1 = q.1 ∧ SameTab p.2.1 q.2.1 ∧ p.2.2 = q.2.2) (allocWrites rc i a obl)
      (allocWrites rc i b obl) := by
  simp only [Vliw.allocWrites, h.canWrite]
  refine Agree.ite (fun _ => ?_) (fun _ => ⟨rfl, h, rfl⟩)
  have hloop : Agree (fun (p q : List Sym × RegisterAllocator × Int) => p.1 = q.1 ∧ SameTab p.2.1 q.2.1 ∧ p.2.2 = q.2.2)
      ((wrTags i).foldlM (allocWrite rc) ([], a, obl)) ((wrTags i).foldlM (allocWrite rc) ([], b, obl)) := by
    refine Agree.foldlM ?_ _ ⟨rfl, h, rfl⟩
    rintro ⟨fs, a, m⟩ ⟨gs, b, k⟩ t ⟨hf, hab, hk⟩
    dsimp only at hf hab hk
    subst hf hk
    simp only [allocWrite, hab]
    refine Agree.ite (fun _ => ?_) (fun _ => ?_)
    · exact (hab.write t).bind fun p q hpq => ⟨rfl, hpq.2, rfl⟩
    · exact Agree.bind_left _ fun n => (hab.write t).bind fun p q hpq => ⟨rfl, hpq.2, rfl⟩
  refine hloop.bind fun p q hpq => ?_
  obtain ⟨hp, hq, hr⟩ := hpq
  exact ⟨congrArg some hp, hq, hr⟩

theorem unallocWrites (h : SameTab a b) (i : Instr Operand) (fresh : List Sym) (obl : Int) :
    Agree (fun p q => SameTab p.1 q.1 ∧ p.2 = q.2) (unallocWrites rc i fresh a obl) (unallocWrites rc i fresh b obl) := by
  simp only [Vliw.unallocWrites]
  refine (Agree.foldlM (fun a b t hab => hab.unwrite t) _ h).bind fun a' b' hab => ?_
  exact Agree.bind_left _ fun n => ⟨hab, rfl⟩

theorem addrOf (h : SameTab a b) : a.addrOf = b.addrOf := by
  funext o
  simp only [RegisterAllocator.addrOf, h]

theorem resolveOperands (h : SameTab a b) (i : Instr Operand) : resolveOperands i a = resolveOperands i b := by
  simp only [Vliw.resolveOperands, h.addrOf]

end SameTab

/-- A state of a trial or of a replay beside one of another replay. -/
structure World.Twin (emit : Bool) (w v : World) : Prop where
  tab : SameTab w.alloc v.alloc
  lanes : w.place.val = v.place.val
  dry : emit = false → w.pool.Sim v.pool
  same : emit = true → w.dag = v.dag ∧ w.place = v.place ∧ w.pool = v.pool

variable {nodes : List DNode} {prev : Nat → Bool} {w v : World} {M : Ledger} {emit : Bool} {i : Nat} {node : DNode}

namespace World.Twin

theorem alloc (h : w.Twin emit v) (hab : SameTab a b) :
    World.Twin emit { w with alloc := a } { v with alloc := b } :=
  ⟨hab, h.lanes, h.dry, h.same⟩

theorem commitNode (h : w.Twin emit v) (st : Stats) :
    Agree (fun p q => p.1.Twin emit q.1 ∧ p.2 = q.2) (commitNode nodes node w st) (commitNode nodes node v st) := by
  refine (h.tab.commitReads node.instr).bind ?_
  rintro ⟨a, n⟩ ⟨b, m⟩ ⟨hab, hnm⟩
  dsimp only at hab hnm
  subst hnm
  exact ⟨⟨hab, h.lanes, h.dry, fun he => ⟨by rw [(h.same he).1], (h.same he).2⟩⟩, rfl⟩

theorem place {r : Instr Reg} (h : w.Twin emit v) (hM : M i = none) (hfit : FuncUnitPool.Inv M v.pool)
    (hk : (classify r.op).kind ≠ .debug) (hk' : (classify r.op).kind ≠ .gather)
    (hlt : v.place.val.lanesDone i < (classify r.op).lanesTotal) :
    Agree (fun p q => p.1 = q.1 ∧ p.2.2.val = q.2.2.val ∧ (emit = false → p.2.1.Sim q.2.1) ∧
        (emit = true → p.2.1 = q.2.1 ∧ p.2.2 = q.2.2))
      (w.pool.place w.place i (classify r.op) (if emit then some r else none))
      (v.pool.place v.place i (classify r.op) (some r)) := by
  cases emit with
  | true =>
      obtain ⟨-, hp, hq⟩ := h.same rfl
      rw [hp, hq]
      refine Agree.refl (fun p => ?_) _
      exact ⟨rfl, rfl, (fun h => by cases h), fun _ => ⟨rfl, rfl⟩⟩
  | false =>
      obtain ⟨res, q, ql, hq, -⟩ := FuncUnitPool.place_emit hM hfit hk hk' hlt
      obtain ⟨p, pl, hp, hsim, hval⟩ := FuncUnitPool.place_sim (h.dry rfl) h.lanes hq
      rw [hq]
      simp only [Bool.false_eq_true, if_false, hp]
      exact ⟨rfl, hval, fun _ => hsim, fun h => by cases h⟩

end World.Twin

theorem placeGather_twin (h : w.Twin emit v) (i total : Nat) (addrs : Nat × Nat) :
    ∃ res p pl q ql, placeGather w.pool w.place i total (if emit then some addrs else none) = (res, p, pl) ∧
      placeGather v.pool v.place i total (some addrs) = (res, q, ql) ∧ pl.val = ql.val ∧ (emit = false → p.Sim q) ∧
      (emit = true → p = q ∧ pl = ql) := by
  cases emit with
  | true =>
      obtain ⟨-, hp, hq⟩ := h.same rfl
      rw [hp, hq]
      refine ⟨_, _, _, _, _, rfl, rfl, rfl, ?_, ?_⟩
      · intro h
        cases h
      · exact fun _ => ⟨rfl, rfl⟩
  | false =>
      have hsim := h.dry rfl
      simp only [placeGather, h.lanes, hsim.free]
      split
      · exact ⟨_, _, _, _, _, rfl, rfl, h.lanes, fun _ => hsim, fun h => by cases h⟩
      · refine ⟨_, _, _, _, _, rfl, rfl, FuncUnitPool.setLanesDone_congr h.lanes i _, fun _ => ?_, fun h => by cases h⟩
        exact hsim.take .load _ _ _

theorem runDebug_twin (h : w.Twin emit v) (hk : (classify node.instr.op).kind = .debug) (st : Stats) :
    Agree (fun p q => p.1.Twin emit q.1 ∧ p.2 = q.2) (runDebug nodes emit node w st) (runDebug nodes true node v st) := by
  cases emit with
  | true =>
      obtain ⟨-, hp, hq⟩ := h.same rfl
      simp only [runDebug, if_true, hp, hq, h.tab.resolveOperands]
      refine Agree.bind_left _ fun p => World.Twin.commitNode ?_ st
      exact ⟨h.tab, rfl, (fun h => by cases h), fun _ => ⟨(h.same rfl).1, rfl, rfl⟩⟩
  | false =>
      have hsim := h.dry rfl
      simp only [runDebug, Bool.false_eq_true, if_false, if_true, FuncUnitPool.place, hk, bind_ok]
      refine World.Twin.commitNode ?_ st
      exact ⟨h.tab, h.lanes, fun _ => ⟨hsim.free, hsim.elems⟩, fun h => by cases h⟩

theorem runGather_twin (h : w.Twin emit v) (st : Stats) :
    Agree (fun p q => p.1.Twin emit q.1 ∧ p.2 = q.2) (runGather rc nodes emit node w st)
      (runGather rc nodes true node v st) := by
  refine (h.tab.allocWrites node.instr st.obligations).bind ?_
  rintro ⟨got, a, obl⟩ ⟨got', b, obl'⟩ ⟨hg, hab, ho⟩
  dsimp only at hg hab ho
  subst hg ho
  have h' := h.alloc hab
  cases got with
  | none => exact ⟨h', rfl⟩
  | some fresh =>
      cases wrTags node.instr with
      | nil => rfl
      | cons t ts =>
          cases node.instr.readOperands with
          | nil => rfl
          | cons addr as =>
              obtain ⟨res, p, pl, q, ql, hp, hq, hval, hdry, hsame⟩ := placeGather_twin h' node.idx
                (classify node.instr.op).lanesTotal (b.addrOf (.sym t), b.addrOf addr)
              dsimp only at hp hq ⊢
              rw [hab.addrOf]
              simp only [hp, if_true, hq]
              have h'' : World.Twin emit ⟨w.dag, a, pl, p⟩ ⟨v.dag, b, ql, q⟩ :=
                ⟨hab, hval, hdry, fun he => ⟨(h.same he).1, (hsame he).2, (hsame he).1⟩⟩
              exact Agree.ite (fun _ => h''.commitNode _) (fun _ => ⟨h'', rfl⟩)

theorem runRegular_twin (h : w.Twin emit v) (hidx : node.idx = i) (hM : M i = none) (hfit : FuncUnitPool.Inv M v.pool)
    (hk : (classify node.instr.op).kind ≠ .debug) (hk' : (classify node.instr.op).kind ≠ .gather)
    (hlt : v.place.val.lanesDone i < (classify node.instr.op).lanesTotal) (st : Stats) :
    Agree (fun p q => p.1.Twin emit q.1 ∧ p.2 = q.2) (runRegular rc nodes emit node w st)
      (runRegular rc nodes true node v st) := by
  subst hidx
  refine (h.tab.allocWrites node.instr st.obligations).bind ?_
  rintro ⟨got, a, obl⟩ ⟨got', b, obl'⟩ ⟨hg, hab, ho⟩
  dsimp only at hg hab ho
  subst hg ho
  cases got with
  | none => exact ⟨h.alloc hab, rfl⟩
  | some fresh =>
      have hcl : classify (resolveOperands node.instr b).op = classify node.instr.op := classify_rebuild _ _ _
      have hplace := h.place (r := resolveOperands node.instr b) hM hfit (by rwa [hcl]) (by rwa [hcl]) (by rwa [hcl])
      rw [hcl] at hplace
      dsimp only
      rw [hab.resolveOperands]
      refine hplace.bind ?_
      rintro ⟨res, p, pl⟩ ⟨res', q, ql⟩ ⟨hres, hval, hdry, hsame⟩
      dsimp only at hres hval hdry hsame
      subst hres
      have h'' : World.Twin emit ⟨w.dag, a, pl, p⟩ ⟨v.dag, b, ql, q⟩ :=
        ⟨hab, hval, hdry, fun he => ⟨(h.same he).1, (hsame he).2, (hsame he).1⟩⟩
      rcases res with _ | _ | _
      · dsimp only
        rw [hval]
        refine Agree.ite (fun _ => ?_) (fun _ => ⟨h'', rfl⟩)
        refine (hab.unallocWrites node.instr fresh obl).bind ?_
        rintro ⟨a', m⟩ ⟨b', k⟩ ⟨hab', hmk⟩
        dsimp only at hab' hmk
        subst hmk
        exact ⟨h''.alloc hab', rfl⟩
      · exact ⟨h'', rfl⟩
      · exact h''.commitNode _

theorem runNode_twin (rc : Sym → Option Int) (h : w.Twin emit v) (hn : nodes[i]? = some node) (hidx : node.idx = i) (hok : v.Ok nodes prev)
    (hc : v.dag.val.committed i = false) (hM : M i = none) (hfit : FuncUnitPool.Inv M v.pool) (st : Stats) :
    Agree (fun p q => p.1.Twin emit q.1 ∧ p.2 = q.2) (runNode rc nodes emit (w, st) i)
      (runNode rc nodes true (v, st) i) := by
  unfold runNode
  rw [hn]
  dsimp only
  split
  · next hk => exact runDebug_twin h hk st
  · exact runGather_twin h st
  · next hk hk' => exact runRegular_twin h hidx hM hfit hk hk' (hok.lanes_pending hn hc hk) st

/-- A loop over nodes that are due agrees with the replay if each of its turns does. -/
theorem runNodes_agree (hw : Dag.WellFormed nodes) (h1 : OneWriter nodes rc) {f : World × Stats → Nat → Except PyErr (World × Stats)}
    {R : World → World → Prop} (hturn : ∀ {w v M i node}, R w v → nodes[i]? = some node → node.idx = i → v.Ok nodes prev →
      v.dag.val.committed i = false → M i = none → FuncUnitPool.Inv M v.pool → ∀ st,
      Agree (fun p q => R p.1 q.1 ∧ p.2 = q.2) (f (w, st) i) (runNode rc nodes true (v, st) i))
    {order : List Nat} (h : R w v) (hnd : order.Nodup) (hok : v.Ok nodes prev)
    (hf : ∀ i ∈ order, v.dag.val.frontier i = true ∧ M i = none) (hfit : FuncUnitPool.Inv M v.pool) (st : Stats) :
    Agree (fun p q => R p.1 q.1 ∧ p.2 = q.2) (order.foldlM f (w, st)) (order.foldlM (runNode rc nodes true) (v, st)) := by
  induction order generalizing w v M st with
  | nil => exact ⟨h, rfl⟩
  | cons i order ih =>
      obtain ⟨hio, hnd⟩ := List.nodup_cons.mp hnd
      obtain ⟨hfi, hMi⟩ := hf i (by simp)
      obtain ⟨node, hn⟩ := getElem?_of_frontier hok.dag hfi
      have hidx := hw.idx hn
      have hci := (hok.dag.frontier_iff.mp hfi).2.1
      rw [List.foldlM_cons, List.foldlM_cons]
      refine (hturn h hn hidx hok hci hMi hfit st).bind_of ?_
      rintro ⟨w₁, st₁⟩ ⟨v₁, -⟩ hrun ⟨h₁, rfl⟩
      rcases runNode_ok rc true hn hidx hok hci hMi hfit st with ⟨x, done, v₁, st₁, hrun', hstep, hfit₁, -⟩ | ⟨-, -, -, -, herr⟩
      · cases hrun.symm.trans hrun'
        rw [hidx] at hstep hfit₁
        exact ih h₁ hnd (hstep.ok hw h1 hn hok hfi) (hstep.due hw hok.dag hio hf) hfit₁ st₁
      · cases hrun.symm.trans herr

theorem runNodes_twin (hw : Dag.WellFormed nodes) (h1 : OneWriter nodes rc) {order : List Nat} (h : w.Twin emit v)
    (hnd : order.Nodup) (hok : v.Ok nodes prev) (hf : ∀ i ∈ order, v.dag.val.frontier i = true ∧ M i = none)
    (hfit : FuncUnitPool.Inv M v.pool) (st : Stats) :
    Agree (fun p q => p.1.Twin emit q.1 ∧ p.2 = q.2) (order.foldlM (runNode rc nodes emit) (w, st))
      (order.foldlM (runNode rc nodes true) (v, st)) :=
  runNodes_agree hw h1 (fun h hn hidx hok hc hM hfit => runNode_twin rc h hn hidx hok hc hM hfit) h hnd hok hf hfit st

theorem endCycle_twin (h : w.Twin true v) (n : Nat) : Agree (World.Twin true) (endCycle n w) (endCycle n v) := by
  obtain ⟨hd, hp, hq⟩ := h.same rfl
  refine h.tab.collect.bind fun a b hab => ?_
  exact ⟨hab, h.lanes, (fun h => by cases h), fun _ => ⟨by rw [hd], hp, hq⟩⟩

end Vliw
