import VliwKernel.Schedule.Search
import VliwKernel.Schedule.Termination
import VliwKernel.Scheduler.Props

/-!
# Scheduling a graph again

`DAG.reset` puts the counters of a graph back and leaves its journal as it is. Whatever an earlier run left in the
graph and in the journals, also one that raised inside a trial, both schedulers then do as on the fresh graph.
-/

namespace Vliw
open RegisterAllocator

/-- The counter lists have an entry for each of `n` nodes and no other. -/
def DagState.Sized (n : Nat) (s : DagState) : Prop := ∀ i, n ≤ i → s.raw i = 0 ∧ s.war i = 0

/-- What earlier runs leave behind: the state of the graph with its journal, and the journal of the placements, which
all graphs share. -/
structure Leftover where
  dag : Dag.Log
  place : Option (List PlaceEntry)

/-- The state a scheduler starts from on a graph that was reset after earlier runs. -/
def World.restart (dag : Dag) (l : Leftover) (a : RegisterAllocator) : World :=
  ⟨({ dag with st := l.dag } : Dag).reset.st, a, ⟨Placement.init.val, l.place⟩, .fresh⟩

/-- `schedule` on a graph that was reset after earlier runs. -/
def reschedule (dag : Dag) (l : Leftover) (rc : Sym → Option Int) (key : KeyFunc) (cap : Option Nat) (a : RegisterAllocator) :
    Except PyErr (List TaggedBundle × World) :=
  let cap := cap.getD (dag.nodes.length + 1)
  cycleLoop (greedyCycle rc dag.nodes key) dag.nodes.length cap cap (.restart dag l a) 0 []

/-- `schedule_rollout` on a graph that was reset after earlier runs. -/
def rescheduleRollout (dag : Dag) (l : Leftover) (rc : Sym → Option Int) (fs : List SortFunc) (sw : ScoreWeights)
    (cap : Option Nat) (a : RegisterAllocator) : Except PyErr (List TaggedBundle × World) :=
  let cap := cap.getD (dag.nodes.length + 1)
  cycleLoop (rolloutCycle rc dag fs sw) dag.nodes.length cap cap (.restart dag l a) 0 []

abbrev World.hushed (w : World) : World := w.erased .init

/-- A key that does not look into the journals. -/
def KeyFunc.Discreet (key : KeyFunc) : Prop := ∀ C w i, key C w.hushed i = key C w i

theorem weightedPicker_discreet (dag : Dag) (wts : Weights) : KeyFunc.Discreet (weightedPicker dag wts) := fun _ _ _ => rfl

variable {rc : Sym → Option Int} {nodes : List DNode} {prev : Nat → Bool} {w v : World} {node : DNode} {order : List Nat} {dag : Dag}

section reset

variable {α β : Type} {key : α → Nat} {val : α → β}

theorem foldl_update_other {l : List α} {i : Nat} (h : ∀ x ∈ l, key x ≠ i) (f : Nat → β) :
    l.foldl (fun f x => Function.update f (key x) (val x)) f i = f i := by
  induction l generalizing f with
  | nil => rfl
  | cons x l ih =>
      rw [List.foldl_cons, ih fun y hy => h y (by simp [hy])]
      exact Function.update_of_ne (h x (by simp)).symm _ _

theorem foldl_update_mem {l : List α} (hnd : (l.map key).Nodup) {x : α} (hx : x ∈ l) (f : Nat → β) :
    l.foldl (fun f x => Function.update f (key x) (val x)) f (key x) = val x := by
  induction l generalizing f with
  | nil => cases hx
  | cons y l ih =>
      obtain ⟨hy, hnd⟩ := List.nodup_cons.mp hnd
      rw [List.foldl_cons]
      rcases List.mem_cons.mp hx with rfl | hx
      · rw [foldl_update_other fun z hz hzx => hy (List.mem_map.mpr ⟨z, hz, hzx⟩)]
        exact Function.update_self ..
      · exact ih hnd hx _

theorem Dag.WellFormed.foldl_count (hw : Dag.WellFormed nodes) (w : Nat) {f : Nat → Int} (hf : ∀ i, nodes.length ≤ i → f i = 0) :
    nodes.foldl (fun f n => Function.update f n.idx (n.inEdges.countP (·.2 = w) : Nat)) f =
      fun i => (((nodes[i]?.map fun n => n.inEdges.countP (·.2 = w)).getD 0 : Nat) : Int) := by
  funext i
  cases hn : nodes[i]? with
  | none =>
      have hi := List.getElem?_eq_none_iff.mp hn
      rw [foldl_update_other, hf i hi]
      · rfl
      · intro n hmem hni
        obtain ⟨j, hj⟩ := List.getElem?_of_mem hmem
        have hlt := (List.getElem?_eq_some_iff.mp hj).1
        rw [← hw.idx hj, hni] at hlt
        exact absurd hlt (Nat.not_lt.mpr hi)
  | some n =>
      obtain rfl := hw.idx hn
      have hnd : (nodes.map DNode.idx).Nodup := by
        rw [hw.map_idx]
        exact List.nodup_range
      exact foldl_update_mem hnd (List.mem_of_getElem? hn) f

/-- `reset` gives back the state of a graph nothing of which is committed. -/
theorem Dag.reset_st (hw : Dag.WellFormed dag.nodes) (hs : dag.st.val.Sized dag.nodes.length) :
    dag.reset.st = ⟨.initial dag.nodes, dag.st.log⟩ := by
  have hraw := hw.foldl_count 1 fun i hi => (hs i hi).1
  have hwar := hw.foldl_count 0 fun i hi => (hs i hi).2
  have hloop : ∀ (ns : List DNode) (s : DagState), ns.foldl (fun (s : DagState) node =>
      { s with raw := Function.update s.raw node.idx (node.inEdges.countP (·.2 = 1) : Nat)
               war := Function.update s.war node.idx (node.inEdges.countP (·.2 = 0) : Nat) }) s =
      { s with raw := ns.foldl (fun f n => Function.update f n.idx (n.inEdges.countP (·.2 = 1) : Nat)) s.raw
               war := ns.foldl (fun f n => Function.update f n.idx (n.inEdges.countP (·.2 = 0) : Nat)) s.war } := by
    intro ns
    induction ns with
    | nil => exact fun _ => rfl
    | cons n ns ih => exact fun s => ih _
  rw [Dag.reset]
  dsimp only
  rw [hloop, hraw, hwar]
  simp only [DagState.initial, DagState.unblocked, Bool.and_assoc, Nat.cast_eq_zero]

end reset

section greedy

theorem greedyCommit_hushed : greedyCommit nodes node w.hushed = (greedyCommit nodes node w).map (Prod.map World.hushed id) := by
  simp only [greedyCommit, World.erased, commitReads_erased, map_bind, bind_map, Dag.commit_quiet]
  rfl

theorem greedyDebug_hushed : greedyDebug nodes node w.hushed = (greedyDebug nodes node w).map (Prod.map World.hushed id) := by
  simp only [greedyDebug, World.erased, FuncUnitPool.place_quiet, resolveOperands_erased, map_bind, bind_map]
  exact bind_congr fun x => greedyCommit_hushed (w := ⟨w.dag, w.alloc, x.2.2, x.2.1⟩)

theorem greedyGather_hushed : greedyGather rc nodes node w.hushed = (greedyGather rc nodes node w).map (Prod.map World.hushed id) := by
  unfold greedyGather
  rw [show w.hushed.alloc.canWrite = w.alloc.canWrite from canWrite_erased]
  split_ifs
  · cases wrTags node.instr with
    | nil => rfl
    | cons t ts =>
        cases node.instr.readOperands with
        | nil => rfl
        | cons o os =>
            simp only [World.erased, write_erased, map_bind, bind_map]
            refine bind_congr fun x => ?_
            obtain ⟨dest, a⟩ := x
            simp only [Prod.map, id, addrOf_erased, placeGather_quiet]
            split_ifs
            · exact greedyCommit_hushed (w := ⟨w.dag, a, _, _⟩)
            · rfl
  · rfl

theorem writes_erased (ts : List Sym) (a : RegisterAllocator) :
    ts.foldlM (fun (a : RegisterAllocator) t => (do .ok (← a.write rc t).2 : Except PyErr RegisterAllocator)) (erased .init a) =
      (ts.foldlM (fun (a : RegisterAllocator) t => (do .ok (← a.write rc t).2 : Except PyErr RegisterAllocator)) a).map (erased .init) := by
  refine foldlM_carry (t := fun _ : Unit => erased .init) (g := fun i _ => i) (fun t _ _ a => ?_) () a
  simp only [write_erased, map_bind, bind_map]
  rfl

theorem greedyRegular_hushed : greedyRegular rc nodes node w.hushed = (greedyRegular rc nodes node w).map (Prod.map World.hushed id) := by
  unfold greedyRegular
  rw [show w.hushed.alloc.canWrite = w.alloc.canWrite from canWrite_erased]
  split_ifs
  · simp only [World.erased, writes_erased, map_bind, bind_map]
    refine bind_congr fun a => ?_
    simp only [resolveOperands_erased, FuncUnitPool.place_quiet, map_bind]
    refine bind_congr fun y => ?_
    obtain ⟨placed, p, pl⟩ := y
    rcases placed with _ | _ | _
    · simp only [Prod.map, id, Logged.quiet_val, unwrites_erased]
      split_ifs
      · simp only [map_bind, bind_map]
        rfl
      · rfl
    · rfl
    · exact greedyCommit_hushed (w := ⟨w.dag, a, pl, p⟩)
  · rfl

theorem greedyNode_hushed (i : Nat) : greedyNode rc nodes w.hushed i = (greedyNode rc nodes w i).map (Prod.map World.hushed id) := by
  unfold greedyNode
  cases nodes[i]? with
  | none => rfl
  | some node =>
      dsimp only
      cases (classify node.instr.op).kind
      case debug => exact greedyDebug_hushed
      case gather => exact greedyGather_hushed
      all_goals exact greedyRegular_hushed

variable {key : KeyFunc}

theorem drain_hushed (hkey : key.Discreet) (C fuel : Nat) (heap : Heap) (w : World) (k : Nat) :
    drain rc nodes key C fuel heap w.hushed k = (drain rc nodes key C fuel heap w k).map (Prod.map World.hushed id) := by
  induction fuel generalizing heap w k with
  | zero => cases heap <;> rfl
  | succ fuel ih =>
      cases heap with
      | nil => rfl
      | cons a h =>
          simp only [drain, greedyNode_hushed, map_bind, bind_map]
          refine bind_congr fun x => ?_
          obtain ⟨v, done, unlocked⟩ := x
          simp only [Prod.map, id, hkey C v]
          exact ih ..

theorem collect_erased (a : RegisterAllocator) :
    (erased .init a).collectScalarGarbage = a.collectScalarGarbage.map (erased .init) := by
  simp only [collectScalarGarbage, erased_val, bind_map]
  rfl

theorem endCycle_hushed (n : Nat) (w : World) : endCycle n w.hushed = (endCycle n w).map World.hushed := by
  simp only [endCycle, World.erased, Dag.advance_quiet, collect_erased, map_bind, bind_map]
  rfl

/-- The greedy scheduler never opens a journal, and does not notice an open one. -/
theorem greedyCycle_hushed (hkey : key.Discreet) (C : Nat) (w : World) (k : Nat) :
    greedyCycle rc nodes key C w.hushed k = (greedyCycle rc nodes key C w k).map (Prod.map World.hushed id) := by
  unfold greedyCycle
  rw [show w.hushed.dag.val = w.dag.val from rfl]
  dsimp only
  split_ifs
  · rfl
  · have hdrain := @drain_hushed rc nodes key hkey C ((w.dag.val.ready nodes.length).length + nodes.length)
      ((w.dag.val.ready nodes.length).map fun i => (key C { w with pool := .fresh } i, i)) { w with pool := .fresh } k
    have hkeys : (fun i => (key C { w.hushed with pool := .fresh } i, i)) = fun i => (key C { w with pool := .fresh } i, i) := by
      funext i
      exact congrArg (·, i) (hkey C { w with pool := .fresh } i)
    rw [hkeys]
    refine (congrArg (· >>= _) hdrain).trans ?_
    rw [map_bind, bind_map]
    refine bind_congr fun x => ?_
    obtain ⟨v, k'⟩ := x
    rw [bind_map]
    refine bind_congr fun b => ?_
    dsimp only [Prod.map, id]
    split_ifs
    · rfl
    · rw [endCycle_hushed, map_bind, bind_map]
      rfl

end greedy

/-- Loops that take the same turns from states that differ in their journals return the same, or raise the same. -/
theorem cycleLoop_alike {cycle : Nat → World → Nat → Except PyErr (World × Nat × TaggedBundle)} {R : World → World → Prop}
    (hcycle : ∀ {C k w v}, R w v → Agree (fun p q => R p.1 q.1 ∧ p.2 = q.2) (cycle C w k) (cycle C v k))
    (n cap rem k : Nat) (bs : List TaggedBundle) (h : R w v) :
    Agree (fun p q => p.1 = q.1 ∧ R p.2 q.2) (cycleLoop cycle n cap rem w k bs) (cycleLoop cycle n cap rem v k bs) := by
  induction rem generalizing w v k bs with
  | zero =>
      unfold cycleLoop
      refine Agree.ite (fun _ => ?_) fun _ => ⟨rfl, h⟩
      exact (hcycle h).bind fun _ _ _ => rfl
  | succ rem ih =>
      unfold cycleLoop
      refine Agree.ite (fun _ => ?_) fun _ => ⟨rfl, h⟩
      refine (hcycle h).bind ?_
      rintro ⟨w', k', b⟩ ⟨v', k'', b'⟩ ⟨h', heq⟩
      cases heq
      exact ih k' (bs ++ [b]) h'

section rollout

theorem agree_of_hushed {β : Type} {x y : Except PyErr (World × β)} (h : x.map (Prod.map World.hushed id) = y.map (Prod.map World.hushed id)) :
    Agree (fun p q => p.1.hushed = q.1.hushed ∧ p.2 = q.2) x y :=
  (Agree.of_map h).mono fun _ _ hpq => Prod.mk.inj hpq

/-- Two states that differ in the journals of the graph and of the placements alone. -/
structure World.Alike (v w : World) : Prop where
  same : v.hushed = w.hushed
  left : v.alloc.tab.log = none
  right : w.alloc.tab.log = none

namespace World.Alike

theorem dag_val (h : v.Alike w) : v.dag.val = w.dag.val := congrArg (fun u => u.dag.val) h.same

theorem place_val (h : v.Alike w) : v.place.val = w.place.val := congrArg (fun u => u.place.val) h.same

theorem alloc (h : v.Alike w) : v.alloc = w.alloc := by
  have hall := congrArg World.alloc h.same
  have htab : v.alloc.tab = w.alloc.tab :=
    Logged.ext (congrArg (fun a => a.tab.val) hall) (h.left.trans h.right.symm)
  obtain ⟨d, ⟨t, x, y, z⟩, p, q⟩ := v
  obtain ⟨d', ⟨t', x', y', z'⟩, p', q'⟩ := w
  cases htab
  exact congrArg (fun a : RegisterAllocator => (⟨t, a.exhaustionWarnings, a.nAlloc, a.nFree⟩ : RegisterAllocator)) hall

theorem ok (h : v.Alike w) (hok : w.Ok nodes prev) : v.Ok nodes prev :=
  hok.of_vals h.dag_val h.place_val (congrArg (fun a => a.tab.val) h.alloc)

theorem orders (h : v.Alike w) {n : Nat} (ho : Orders n w order) : Orders n v order := ⟨h.dag_val ▸ ho.perm⟩

end World.Alike

theorem simulate_hushed (order : List Nat) (w : World) :
    simulate rc dag order w.hushed = (simulate rc dag order w).map (Prod.map World.hushed id) := by
  rw [simulate, simulate, runCycle_erased, map_bind, bind_map]
  refine bind_congr fun x => ?_
  simp only [Prod.map, World.erased, Dag.advance_quiet]
  rfl

theorem replay_hushed (order : List Nat) (w : World) (k : Nat) :
    replay rc dag order w.hushed k = (replay rc dag order w k).map (Prod.map World.hushed id) := by
  have hrun : runCycle rc dag.nodes true order ({ w with pool := .fresh } : World).hushed =
      (runCycle rc dag.nodes true order { w with pool := .fresh }).map (Prod.map World.hushed id) := runCycle_erased true order _
  refine (congrArg (· >>= _) hrun).trans ?_
  rw [map_bind, replay, bind_map]
  refine bind_congr fun x => ?_
  dsimp only [Prod.map, id]
  rw [endCycle_hushed, map_bind, bind_map]
  refine bind_congr fun u => ?_
  rw [bind_map]
  rfl

variable (hw : Dag.WellFormed dag.nodes) (h1 : OneWriter dag.nodes rc)

include hw h1

/-- A trial is rolled back over whatever was in the journals before it. -/
theorem rollback_hushed {t : World} {s : Stats} (hok : w.Ok dag.nodes prev) (ho : Orders dag.nodes.length w order) (hlog : w.alloc.tab.log = none)
    (hsim : simulate rc dag order w.checkpoint = .ok (t, s)) : ∃ u, w.rollback rc t = .ok u ∧ u.alloc.tab = w.alloc.tab ∧
      u.hushed = ⟨w.dag.quiet, { t.hushed.alloc with tab := w.alloc.tab.quiet }, w.place.quiet, t.pool⟩ := by
  have hok' : w.checkpoint.Ok dag.nodes prev := hok.of_vals rfl rfl rfl
  have ho' : Orders dag.nodes.length w.checkpoint order := ⟨ho.perm⟩
  obtain ⟨⟨x, s'⟩, hrun, hx⟩ := bind_eq_ok.mp hsim
  obtain ⟨rfl, rfl⟩ := Prod.mk.inj (Except.ok.inj hx)
  rcases runCycle_ok hw h1 hok' ho' false rfl with ⟨y, _, M, hrun', hsteps, -⟩ | ⟨-, herr⟩
  · cases hrun.symm.trans hrun'
    obtain ⟨ha, hp, hd⟩ := hsteps.undoes hw h1 hok'
    obtain ⟨p, rfl, hpr⟩ := Logged.rollback_of_reverts PyErr.assertion hp
    obtain ⟨a, rfl, har⟩ := Logged.rollback_closed PyErr.assertion hlog ha
    obtain ⟨d, rfl, hdr⟩ := Logged.rollback_of_reverts PyErr.assertion (hd.trans (Dag.advance_undoes dag.nodes.length x.dag))
    obtain ⟨lp, hpr⟩ : ∃ l, Placement.rollback w.place.checkpoint.1 x.place = .ok ⟨w.place.val, l⟩ := ⟨_, hpr⟩
    obtain ⟨ld, hdr⟩ : ∃ l, Dag.rollback w.dag.checkpoint.1 (Dag.advance dag.nodes.length x.dag).1 = .ok ⟨w.dag.val, l⟩ := ⟨_, hdr⟩
    refine ⟨⟨⟨w.dag.val, ld⟩, { x.alloc with tab := ⟨w.alloc.tab.val, none⟩ }, ⟨w.place.val, lp⟩, x.pool⟩, ?_, ?_, rfl⟩
    · simp only [World.rollback, hpr, bind_ok, RegisterAllocator.rollback, checkpoint, har, hdr]
    · exact Logged.ext rfl hlog.symm
  · cases hrun.symm.trans herr

/-- From either of two such states a trial ends in such states again, with the same score. -/
theorem trial_alike (h : v.Alike w) (hok : w.Ok dag.nodes prev) (ho : Orders dag.nodes.length w order) (sw : ScoreWeights) :
    Agree (fun p q => p.1.Alike q.1 ∧ p.2 = q.2 ∧ q.1.dag.val = w.dag.val ∧ q.1.place.val = w.place.val ∧ q.1.alloc.tab = w.alloc.tab)
      (trial rc dag sw order v) (trial rc dag sw order w) := by
  have hopen : v.checkpoint.hushed = w.checkpoint.hushed := by
    have hall := congrArg (fun u : World => ({ u with pool := .fresh } : World)) h.same
    exact hall
  have hsim : Agree (fun p q => p.1.hushed = q.1.hushed ∧ p.2 = q.2)
      (simulate rc dag order v.checkpoint) (simulate rc dag order w.checkpoint) := by
    apply agree_of_hushed
    rw [← simulate_hushed, ← simulate_hushed, hopen]
  cases hwsim : simulate rc dag order w.checkpoint with
  | error e =>
      have hvsim := hsim.of_error hwsim
      simp only [trial, hwsim, hvsim, bind_error, Agree.error_iff]
  | ok q =>
      obtain ⟨t', s⟩ := q
      obtain ⟨⟨t, s'⟩, hvsim, ht, hss⟩ := hsim.of_ok hwsim
      obtain rfl : s' = s := hss
      have hdag : t.hushed.dag.val = t'.hushed.dag.val := congrArg (fun w : World => w.dag.val) ht
      have hpool : t.hushed.pool = t'.hushed.pool := congrArg World.pool ht
      obtain ⟨u, hu, hutab, hushed⟩ := rollback_hushed hw h1 (h.ok hok) (h.orders ho) h.left hvsim
      obtain ⟨u', hu', hutab', hushed'⟩ := rollback_hushed hw h1 hok ho h.right hwsim
      obtain ⟨hstuck, hscore⟩ := @score_congr t t' hdag (congrArg FuncUnitPool.free hpool) s' sw dag.nodes.length
      have hback : u.hushed = u'.hushed := by
        rw [hushed, hushed', ht, h.alloc, show t.pool = t'.pool from hpool,
          show v.dag.quiet = w.dag.quiet from congrArg World.dag h.same,
          show v.place.quiet = w.place.quiet from congrArg World.place h.same]
      simp only [trial, hvsim, hwsim, bind_ok, hu, hu', Agree.ok_iff]
      have hval : u'.hushed.dag.val = w.dag.val := by rw [hushed', Logged.quiet_val]
      have hlanes : u'.hushed.place.val = w.place.val := by rw [hushed', Logged.quiet_val]
      refine ⟨⟨hback, by rw [hutab, h.left], by rw [hutab', h.right]⟩, ?_, hval, hlanes, hutab'⟩
      rw [hstuck, hscore]

theorem bestOrder_alike {os : List (List Nat)} (h : v.Alike w) (hok : w.Ok dag.nodes prev) (ho : ∀ o ∈ os, Orders dag.nodes.length w o)
    (sw : ScoreWeights) (sc : WithBot ℚ) (best : Option (List Nat)) (hbest : ∀ o ∈ best, Orders dag.nodes.length w o) :
    Agree (fun p q => p.1.Alike q.1 ∧ p.2 = q.2 ∧ q.1.Ok dag.nodes prev ∧ ∀ o ∈ q.2, Orders dag.nodes.length q.1 o)
      (bestOrder rc dag sw os v sc best) (bestOrder rc dag sw os w sc best) := by
  induction os generalizing v w sc best with
  | nil => exact ⟨h, rfl, hok, hbest⟩
  | cons o os ih =>
      refine (trial_alike hw h1 h hok (ho o (by simp)) sw).bind ?_
      rintro ⟨v', sc'⟩ ⟨w', -⟩ ⟨h', rfl, hd, hp, ha⟩
      have hok' : w'.Ok dag.nodes prev := hok.of_vals hd hp (congrArg Logged.val ha)
      have hkeep : ∀ {o}, Orders dag.nodes.length w o → Orders dag.nodes.length w' o := fun ho => ⟨hd ▸ ho.perm⟩
      have hrest := ih h' hok' fun o' hm => hkeep (ho o' (by simp [hm]))
      refine Agree.ite (fun _ => hrest sc' (some o) ?_) fun _ => hrest sc best ?_
      · intro o' hm
        cases hm
        exact hkeep (ho o (by simp))
      · exact fun o' hm => hkeep (hbest o' hm)

/-- A cycle placed for real keeps the state invariant and leaves the allocator's journal closed. -/
theorem replay_ok {w' : World} {k k' : Nat} {b : TaggedBundle} (hok : w.Ok dag.nodes prev) (ho : Orders dag.nodes.length w order)
    (hlog : w.alloc.tab.log = none) (h : replay rc dag order w k = .ok (w', k', b)) :
    w'.Ok dag.nodes w'.dag.val.committed ∧ w'.alloc.tab.log = none := by
  have hok' : ({ w with pool := .fresh } : World).Ok dag.nodes prev := hok.of_vals rfl rfl rfl
  obtain ⟨u, s, M, -, hsteps, -, hend, -⟩ := replay_cases hw h1 hok ho h
  obtain ⟨ha, -, -⟩ := hsteps.undoes hw h1 hok'
  obtain ⟨w'', hend', hok'', -, -, -, -, hlog', -⟩ := (hsteps.ok hw h1 hok').endCycle
  cases hend.symm.trans hend'
  exact ⟨hok'', hlog'.trans (ha.closed hlog)⟩

theorem rolloutCycle_alike {fs : List SortFunc} (hfs : Permuting fs) (h : v.Alike w) (hok : w.Ok dag.nodes prev) (sw : ScoreWeights) (C k : Nat) :
    Agree (fun p q => (p.1.Alike q.1 ∧ ∃ prev, q.1.Ok dag.nodes prev) ∧ p.2 = q.2)
      (rolloutCycle rc dag fs sw C v k) (rolloutCycle rc dag fs sw C w k) := by
  simp only [rolloutCycle, h.dag_val, h.place_val, h.alloc]
  refine Agree.ite (fun _ => rfl) fun _ => Agree.ite (fun _ => rfl) fun _ => ?_
  have horders : ∀ o ∈ fs.map fun f => f C ⟨w.alloc, k / dag.nodes.length⟩ w.place.val (w.dag.val.ready dag.nodes.length),
      Orders dag.nodes.length w o := fun o hm => candidates_orders hfs hm
  refine (bestOrder_alike hw h1 h hok horders sw ⊥ none (by simp)).bind ?_
  rintro ⟨v', best⟩ ⟨w', -⟩ ⟨h', rfl, hok', hbest⟩
  cases best with
  | none =>
      dsimp only
      rw [h'.alloc]
      rfl
  | some order =>
      have ho := hbest order rfl
      have hreplay : Agree (fun p q => p.1.hushed = q.1.hushed ∧ p.2 = q.2) (replay rc dag order v' k) (replay rc dag order w' k) := by
        apply agree_of_hushed
        rw [← replay_hushed, ← replay_hushed, h'.same]
      dsimp only
      cases hrun : replay rc dag order w' k with
      | error e => rw [hreplay.of_error hrun, Agree.error_iff]
      | ok q =>
          obtain ⟨p, hrunv, hsame, hrest⟩ := hreplay.of_ok hrun
          obtain ⟨hokq, hlog⟩ := replay_ok hw h1 hok' ho h'.right hrun
          obtain ⟨-, hlogv⟩ := replay_ok hw h1 (h'.ok hok') (h'.orders ho) h'.left hrunv
          rw [hrunv, Agree.ok_iff]
          exact ⟨⟨⟨hsame, hlogv, hlog⟩, _, hokq⟩, hrest⟩

end rollout

theorem World.Ok.sized (h : w.Ok nodes prev) : w.dag.val.Sized nodes.length := by
  intro i hi
  have hin : Dag.inEdges nodes i = [] := by
    rw [Dag.inEdges, List.getElem?_eq_none hi]
    rfl
  rw [h.dag.raw, h.dag.war, hin]
  exact ⟨rfl, rfl⟩

/-- After a reset both schedulers do what they do on the fresh graph, whatever is left of earlier runs: they return the
same bundles and the same state but for its journals, or raise the same. What they reach can be left behind in turn. -/
theorem reset_reschedules {pinned : List String} {is : List (Instr Operand)} (hs : SingleWriter pinned is rc)
    (hdag : buildDag is pinned = .ok dag) {a : RegisterAllocator} (ha : a.tab.val.Inv) (hlog : a.tab.log = none)
    (hfree : ∀ i t, WritesTag is i t → a.tab.val.assigned t = none) {l : Leftover} (hl : l.dag.val.Sized dag.nodes.length)
    (cap : Option Nat) :
    (∀ key : KeyFunc, key.Discreet → Agree (fun p q => p.1 = q.1 ∧ p.2.hushed = q.2.hushed)
      (reschedule dag l rc key cap a) (schedule dag rc key cap a) ∧
      ∀ bs w k, Reached (greedyCycle rc dag.nodes key) dag.nodes.length (.start dag a) bs w k → w.dag.val.Sized dag.nodes.length) ∧
    ∀ fs : List SortFunc, Permuting fs → ∀ sw : ScoreWeights, Agree (fun p q => p.1 = q.1 ∧ p.2.hushed = q.2.hushed)
      (rescheduleRollout dag l rc fs sw cap a) (scheduleRollout dag rc fs sw cap a) ∧
      ∀ bs w k, RolloutReached rc dag fs sw a bs w k → w.dag.val.Sized dag.nodes.length := by
  have hof : DagOf pinned is dag := .of_ok hs hdag
  have hstart : (World.restart dag l a).Alike (.start dag a) := by
    refine ⟨?_, hlog, hlog⟩
    have hst : ({ dag with st := l.dag } : Dag).reset.st = ⟨.initial dag.nodes, l.dag.log⟩ :=
      @Dag.reset_st { dag with st := l.dag } hof.wf hl
    rw [World.restart, hst, World.start, hof.st]
    rfl
  refine ⟨fun key hkey => ⟨?_, fun bs w k hreach => ?_⟩, fun fs hfs sw => ⟨?_, fun bs w k hreach => ?_⟩⟩
  · refine cycleLoop_alike (R := fun w v => w.hushed = v.hushed) (fun {C k w v} h => ?_) _ _ _ _ _ hstart.same
    apply agree_of_hushed
    rw [← greedyCycle_hushed hkey, ← greedyCycle_hushed hkey, h]
  · exact (greedyReached_ok hs hof ha hfree hlog hreach).1.sized
  · have hok := (start_ok hof ha hfree hlog).1
    refine (cycleLoop_alike (R := fun v w => v.Alike w ∧ ∃ prev, w.Ok dag.nodes prev) (fun {C k v w} h => ?_) _ _ _ _ _
      ⟨hstart, _, hok⟩).mono fun p q hpq => ⟨hpq.1, hpq.2.1.same⟩
    obtain ⟨halike, prev, hokw⟩ := h
    exact rolloutCycle_alike hof.wf (hof.oneWriter hs) hfs halike hokw sw C k
  · exact (hreach.ok hs hof hfs ha hfree hlog).1.sized

/-- What is left when every node is committed and a trial was cut off: the journals are still open. -/
def spent : Leftover := ⟨⟨⟨fun _ => 0, fun _ => 0, fun _ => 0, fun _ => true, fun _ => false⟩, some [.C 0]⟩, some [.lanesDone 0 0]⟩

/-- The small program, scheduled again by both schedulers with the code's own pickers. -/
theorem reset_reschedules_small : ∃ is rc dag, tagRawChains smallProgram PINNED = .ok (is, rc) ∧ buildDag is PINNED = .ok dag ∧
    (∃ bs w w', schedule dag rc (weightedPicker dag smallWeights) none .init = .ok (bs, w) ∧
      reschedule dag spent rc (weightedPicker dag smallWeights) none .init = .ok (bs, w')) ∧
    ∃ bs w w', scheduleRollout dag rc (defaultSortFuncs dag smallWeights 2 fun _ _ _ _ ready => ready.reverse) {} none .init = .ok (bs, w) ∧
      rescheduleRollout dag spent rc (defaultSortFuncs dag smallWeights 2 fun _ _ _ _ ready => ready.reverse) {} none .init = .ok (bs, w') := by
  have hrun : (do
      let (is, rc) ← tagRawChains smallProgram PINNED
      let dag ← buildDag is PINNED
      let (bs, _) ← schedule dag rc (weightedPicker dag smallWeights) none .init
      let (bs', _) ← scheduleRollout dag rc (defaultSortFuncs dag smallWeights 2 fun _ _ _ _ ready => ready.reverse) {} none .init
      .ok (bs.length, bs'.length)) = (.ok (4, 4) : Except PyErr (Nat × Nat)) := by
    set_option maxRecDepth 1500 in cbv
  obtain ⟨⟨is, rc⟩, htag, hrun⟩ := bind_eq_ok.mp hrun
  obtain ⟨dag, hdag, hrun⟩ := bind_eq_ok.mp hrun
  obtain ⟨⟨bs, w⟩, hgreedy, hrun⟩ := bind_eq_ok.mp hrun
  obtain ⟨⟨bs', v⟩, hrollout, -⟩ := bind_eq_ok.mp hrun
  have hs := (tagRawChains_tagged pinned_noHash htag).toSingleWriter
  obtain ⟨hagain, hagain'⟩ := reset_reschedules hs hdag (a := .init) Tables.Inv.init rfl (fun _ _ _ => rfl) (l := spent) (fun _ _ => ⟨rfl, rfl⟩) none
  obtain ⟨⟨_, w'⟩, hw', rfl, -⟩ := (hagain _ (weightedPicker_discreet dag smallWeights)).1.of_ok hgreedy
  obtain ⟨⟨_, v'⟩, hv', rfl, -⟩ := (hagain' _ (defaultSortFuncs_permuting smallWeights 2 fun _ => permuting_reverse) {}).1.of_ok hrollout
  exact ⟨is, rc, dag, htag, hdag, ⟨_, w, w', hgreedy, hw'⟩, _, v, v', hrollout, hv'⟩

end Vliw
