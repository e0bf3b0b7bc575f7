import VliwKernel.Scheduler.Protocol
import VliwKernel.Schedule.GreedyRun

/-!
# No scheduler finds an empty frontier

Whatever the allocator does, both schedulers change the graph by commits of ready nodes and ends of cycles
only. So a cycle starts with a ready node as long as some node is not committed.
-/

namespace Vliw

variable {rc : Sym → Option Int} {nodes : List DNode} {prev : Nat → Bool} {w w' : World} {i k k' : Nat}
  {s t : Dag.Log} {unlocked : List Nat}

inductive Moves (nodes : List DNode) (i : Nat) (s : Dag.Log) (k : Nat) : Dag.Log → Nat → List Nat → Prop
  | stay : Moves nodes i s k s k []
  | commit : Moves nodes i s k (Dag.commit nodes s i).1 (k + 1) (Dag.commit nodes s i).2

theorem Moves.add (h : Moves nodes i s k t k' unlocked) (m : Nat) : Moves nodes i s (m + k) t (m + k') unlocked := by
  cases h with
  | stay => exact .stay
  | commit => exact .commit

structure Tracked (nodes : List DNode) (prev : Nat → Bool) (s : Dag.Log) (k : Nat) : Prop where
  inv : Dag.Inv nodes prev s.val
  count : (List.range nodes.length).countP s.val.committed = k

section moves

variable {node : DNode} {st st' : Stats} {emit done : Bool}

theorem commitNode_moves (h : commitNode nodes node w st = .ok (w', st')) (hs : w.dag = s) (hk : st.committed = k) :
    ∃ unlocked, Moves nodes node.idx s k w'.dag st'.committed unlocked := by
  obtain ⟨a, -, h⟩ := bind_eq_ok.mp h
  cases h
  subst hs hk
  exact ⟨_, .commit⟩

theorem runDebug_moves (h : runDebug nodes emit node w st = .ok (w', st')) :
    ∃ unlocked, Moves nodes node.idx w.dag st.committed w'.dag st'.committed unlocked := by
  cases emit with
  | false => exact commitNode_moves h rfl rfl
  | true =>
      obtain ⟨p, -, h⟩ := bind_eq_ok.mp h
      exact commitNode_moves h rfl rfl

theorem runGather_moves (h : runGather rc nodes emit node w st = .ok (w', st')) :
    ∃ unlocked, Moves nodes node.idx w.dag st.committed w'.dag st'.committed unlocked := by
  obtain ⟨p, -, h⟩ := bind_eq_ok.mp h
  dsimp only at h
  split at h
  · cases h
    exact ⟨_, .stay⟩
  · generalize (if emit = true then _ else none) = addrs at h
    split at h
    · exact commitNode_moves h rfl rfl
    · cases h
      exact ⟨_, .stay⟩
  · cases h

theorem runRegular_moves (h : runRegular rc nodes emit node w st = .ok (w', st')) :
    ∃ unlocked, Moves nodes node.idx w.dag st.committed w'.dag st'.committed unlocked := by
  obtain ⟨⟨got, alloc, obligations⟩, -, h⟩ := bind_eq_ok.mp h
  cases got with
  | none =>
      cases h
      exact ⟨_, .stay⟩
  | some fresh =>
      obtain ⟨⟨placed, pool, place⟩, -, h⟩ := bind_eq_ok.mp h
      rcases placed with _ | _ | _
      · dsimp only at h
        split at h
        · obtain ⟨p, -, h⟩ := bind_eq_ok.mp h
          cases h
          exact ⟨_, .stay⟩
        · cases h
          exact ⟨_, .stay⟩
      · cases h
        exact ⟨_, .stay⟩
      · exact commitNode_moves h rfl rfl

theorem runNode_moves (hw : Dag.WellFormed nodes) (h : runNode rc nodes emit (w, st) i = .ok (w', st')) :
    ∃ unlocked, Moves nodes i w.dag st.committed w'.dag st'.committed unlocked := by
  unfold runNode at h
  split at h
  · cases h
  · next node hn =>
      rw [← hw.idx hn]
      dsimp only at h
      split at h
      · exact runDebug_moves h
      · exact runGather_moves h
      · exact runRegular_moves h

theorem greedyCommit_moves (h : greedyCommit nodes node w = .ok (w', done, unlocked)) (hs : w.dag = s) :
    Moves nodes node.idx s k w'.dag (if done then k + 1 else k) unlocked := by
  obtain ⟨a, -, h⟩ := bind_eq_ok.mp h
  cases h
  subst hs
  exact .commit

theorem greedyGather_moves (h : greedyGather rc nodes node w = .ok (w', done, unlocked)) :
    Moves nodes node.idx w.dag k w'.dag (if done then k + 1 else k) unlocked := by
  unfold greedyGather at h
  split at h
  · split at h
    · obtain ⟨p, -, h⟩ := bind_eq_ok.mp h
      dsimp only at h
      split at h
      · exact greedyCommit_moves h rfl
      · cases h
        exact .stay
    · cases h
  · cases h
    exact .stay

theorem greedyRegular_moves (h : greedyRegular rc nodes node w = .ok (w', done, unlocked)) :
    Moves nodes node.idx w.dag k w'.dag (if done then k + 1 else k) unlocked := by
  unfold greedyRegular at h
  split at h
  · obtain ⟨alloc, -, h⟩ := bind_eq_ok.mp h
    obtain ⟨⟨placed, pool, place⟩, -, h⟩ := bind_eq_ok.mp h
    rcases placed with _ | _ | _
    · dsimp only at h
      split at h
      · obtain ⟨p, -, h⟩ := bind_eq_ok.mp h
        cases h
        exact .stay
      · cases h
        exact .stay
    · cases h
      exact .stay
    · exact greedyCommit_moves h rfl
  · cases h
    exact .stay

theorem greedyNode_moves (hw : Dag.WellFormed nodes) (h : greedyNode rc nodes w i = .ok (w', done, unlocked)) :
    Moves nodes i w.dag k w'.dag (if done then k + 1 else k) unlocked := by
  unfold greedyNode at h
  split at h
  · cases h
  · next node hn =>
      rw [← hw.idx hn]
      split at h
      · obtain ⟨p, -, h⟩ := bind_eq_ok.mp h
        exact greedyCommit_moves h rfl
      · exact greedyGather_moves h
      · exact greedyRegular_moves h

end moves

/-- A ready node that moves: the others stay ready, those unlocked become ready, and the log undoes it. -/
theorem Tracked.move (hw : Dag.WellFormed nodes) (h : Tracked nodes prev s k) (hi : s.val.frontier i = true)
    (hm : Moves nodes i s k t k' unlocked) : Tracked nodes prev t k' ∧ Dag.Undoes s t ∧
      (∀ j ≠ i, s.val.frontier j = true → t.val.frontier j = true) ∧ unlocked.Nodup ∧
      ∀ j ∈ unlocked, t.val.frontier j = true ∧ s.val.frontier j = false := by
  cases hm with
  | stay => exact ⟨h, .refl s, fun _ _ hj => hj, List.nodup_nil, fun j hj => by cases hj⟩
  | commit =>
      obtain ⟨hin, hci, -⟩ := h.inv.frontier_iff.mp hi
      obtain ⟨hc, hinv⟩ := h.inv.commit hw hi
      have hr := @Dag.commit_returns nodes _ _ hi
      refine ⟨⟨hinv, ?_⟩, Dag.commit_undoes hci, fun j hj hfj => ?_, hr.nodup, fun j hj => (hr.mem j).mp hj⟩
      · rw [hc, countP_update hci List.nodup_range (List.mem_range.mpr hin), h.count]
      · obtain ⟨hjn, hcj, he⟩ := h.inv.frontier_iff.mp hfj
        have hmono : ∀ l, s.val.committed l = true → (Dag.commit nodes s i).1.val.committed l = true := by
          intro l hl
          by_cases hli : l = i
          · rw [hc, hli, Function.update_self]
          · rwa [hc, Function.update_of_ne hli]
        refine hinv.frontier_iff.mpr ⟨hjn, ?_, fun e hm => ⟨fun h0 => hmono _ ((he e hm).1 h0), (he e hm).2⟩⟩
        rwa [hc, Function.update_of_ne hj]

theorem runNodes_tracked (hw : Dag.WellFormed nodes) {emit : Bool} {order : List Nat} {st st' : Stats} (hnd : order.Nodup)
    (h : Tracked nodes prev w.dag (k + st.committed)) (hf : ∀ i ∈ order, w.dag.val.frontier i = true)
    (hrun : order.foldlM (runNode rc nodes emit) (w, st) = .ok (w', st')) :
    Tracked nodes prev w'.dag (k + st'.committed) ∧ Dag.Undoes w.dag w'.dag := by
  induction order generalizing w st with
  | nil =>
      cases hrun
      exact ⟨h, .refl _⟩
  | cons i order ih =>
      rw [List.foldlM_cons] at hrun
      obtain ⟨⟨v, st₁⟩, h₁, hrun⟩ := bind_eq_ok.mp hrun
      obtain ⟨hi, hnd⟩ := List.nodup_cons.mp hnd
      obtain ⟨unlocked, hm⟩ := runNode_moves hw h₁
      obtain ⟨h', hu, hkeep, -⟩ := h.move hw (hf i (by simp)) (hm.add k)
      have hf' : ∀ j ∈ order, v.dag.val.frontier j = true := by
        intro j hj
        refine hkeep j ?_ (hf j (by simp [hj]))
        rintro rfl
        exact hi hj
      obtain ⟨h'', hu'⟩ := ih hnd h' hf' hrun
      exact ⟨h'', hu.trans hu'⟩

theorem runCycle_tracked (hw : Dag.WellFormed nodes) {emit : Bool} {order : List Nat} {st : Stats} (ho : Orders nodes.length w order)
    (h : Tracked nodes prev w.dag k) (hrun : runCycle rc nodes emit order w = .ok (w', st)) :
    Tracked nodes prev w'.dag (k + st.committed) ∧ Dag.Undoes w.dag w'.dag := by
  obtain ⟨⟨v, st'⟩, hnodes, he⟩ := bind_eq_ok.mp hrun
  cases he
  have h₀ : Tracked nodes prev w.dag (k + Stats.zero.committed) := h
  have hnd := ho.nodup
  obtain ⟨h', hu⟩ := runNodes_tracked hw hnd h₀ (fun i hi => ho.frontier hi) hnodes
  exact ⟨h', hu⟩

theorem drain_tracked (hw : Dag.WellFormed nodes) {key : KeyFunc} {C fuel : Nat} {heap : Heap} (hnd : (heap.map Prod.snd).Nodup)
    (h : Tracked nodes prev w.dag k) (hf : ∀ i ∈ heap.map Prod.snd, w.dag.val.frontier i = true)
    (hrun : drain rc nodes key C fuel heap w k = .ok (w', k')) : Tracked nodes prev w'.dag k' := by
  induction fuel generalizing heap w k with
  | zero =>
      cases heap with
      | nil =>
          cases hrun
          exact h
      | cons a heap => cases hrun
  | succ fuel ih =>
      cases heap with
      | nil =>
          cases hrun
          exact h
      | cons a heap =>
          obtain ⟨⟨v, done, unlocked⟩, h₁, hrun⟩ := bind_eq_ok.mp hrun
          set m := heapMin a heap with hm
          have hperm := List.perm_cons_erase (heapMin_spec a heap).1
          rw [← hm] at hperm
          have hsnd := hperm.map Prod.snd
          obtain ⟨hmi, hnd⟩ := List.nodup_cons.mp (hsnd.nodup_iff.mp hnd)
          have hrest : ∀ i ∈ ((a :: heap).erase m).map Prod.snd, w.dag.val.frontier i = true := fun i hi =>
            hf i (hsnd.mem_iff.mpr (List.mem_cons_of_mem _ hi))
          obtain ⟨h', -, hkeep, hnd', hun⟩ := h.move hw (hf m.2 (hsnd.mem_iff.mpr List.mem_cons_self)) (greedyNode_moves hw h₁)
          have hmap : (((a :: heap).erase m) ++ unlocked.map fun u => (key C v u, u)).map Prod.snd =
              ((a :: heap).erase m).map Prod.snd ++ unlocked := by
            simp [Function.comp_def]
          refine ih ?_ h' ?_ hrun
          · rw [hmap]
            refine List.nodup_append.mpr ⟨hnd, hnd', fun i hi j hj hij => ?_⟩
            have := (hun j hj).2
            rw [← hij, hrest i hi] at this
            cases this
          · rw [hmap]
            intro i hi
            rcases List.mem_append.mp hi with hi | hi
            · refine hkeep i ?_ (hrest i hi)
              rintro rfl
              exact hmi hi
            · exact (hun i hi).1

/-- Between two cycles everything committed is resolved. -/
abbrev Awake (nodes : List DNode) (w : World) (k : Nat) : Prop := Tracked nodes w.dag.val.committed w.dag k

theorem Awake.nonempty (hw : Dag.WellFormed nodes) (h : Awake nodes w k) (hk : k < nodes.length) :
    w.dag.val.ready nodes.length ≠ [] := by
  obtain ⟨i, hi, hc⟩ : ∃ i < nodes.length, w.dag.val.committed i = false := by
    by_contra hall
    push Not at hall
    have hcount : (List.range nodes.length).countP w.dag.val.committed = (List.range nodes.length).length :=
      List.countP_eq_length.mpr fun i hi => by simpa using hall i (List.mem_range.mp hi)
    rw [h.count, List.length_range] at hcount
    omega
  obtain ⟨j, hj, hf⟩ := h.inv.nonempty hw hi hc
  exact List.ne_nil_of_mem (mem_ready.mpr ⟨hj, hf⟩)

theorem Tracked.endCycle (h : Tracked nodes prev w.dag k) (he : endCycle nodes.length w = .ok w') : Awake nodes w' k := by
  obtain ⟨a, -, he⟩ := bind_eq_ok.mp he
  cases he
  obtain ⟨hc, hinv⟩ := h.inv.advance
  exact ⟨by simpa only [hc] using hinv, by simpa only [hc] using h.count⟩

theorem greedyCycle_awake (hw : Dag.WellFormed nodes) {key : KeyFunc} {C : Nat} {b : TaggedBundle} (h : Awake nodes w k)
    (hcyc : greedyCycle rc nodes key C w k = .ok (w', k', b)) : Awake nodes w' k' := by
  unfold greedyCycle at hcyc
  dsimp only at hcyc
  split at hcyc
  · cases hcyc
  · obtain ⟨⟨v, c⟩, hd, hcyc⟩ := bind_eq_ok.mp hcyc
    obtain ⟨bundle, -, hcyc⟩ := bind_eq_ok.mp hcyc
    split at hcyc
    · cases hcyc
    · obtain ⟨u, he, hcyc⟩ := bind_eq_ok.mp hcyc
      cases hcyc
      have hmap : ((w.dag.val.ready nodes.length).map fun i => (key C { w with pool := .fresh } i, i)).map Prod.snd =
          w.dag.val.ready nodes.length := by
        simp [Function.comp_def]
      refine Tracked.endCycle (drain_tracked hw ?_ (w := { w with pool := .fresh }) h ?_ hd) he
      · rw [hmap]
        exact List.nodup_range.filter _
      · rw [hmap]
        exact fun i hi => (mem_ready.mp hi).2

section rollout

variable {dag : Dag} {sw : ScoreWeights} {order : List Nat}

theorem trial_dag (hw : Dag.WellFormed dag.nodes) (h : Awake dag.nodes w k) (hlog : w.dag.log = none)
    (ho : Orders dag.nodes.length w order) {sc : WithBot ℚ} (ht : trial rc dag sw order w = .ok (w', sc)) : w'.dag = w.dag := by
  obtain ⟨⟨t, s⟩, hs, ht⟩ := bind_eq_ok.mp ht
  obtain ⟨u, hu, ht⟩ := bind_eq_ok.mp ht
  cases ht
  obtain ⟨⟨v, st⟩, hrun, hs⟩ := bind_eq_ok.mp hs
  cases hs
  have h₀ : Tracked dag.nodes w.dag.val.committed w.checkpoint.dag k := ⟨h.inv, h.count⟩
  have ho₀ : Orders dag.nodes.length w.checkpoint order := ⟨ho.perm⟩
  obtain ⟨-, hundo⟩ := runCycle_tracked hw ho₀ h₀ hrun
  obtain ⟨place, -, hu⟩ := bind_eq_ok.mp hu
  obtain ⟨alloc, -, hu⟩ := bind_eq_ok.mp hu
  obtain ⟨d, hd, hu⟩ := bind_eq_ok.mp hu
  cases hu
  obtain ⟨v', rfl, hv'⟩ := Logged.rollback_closed PyErr.assertion hlog (hundo.trans (Dag.advance_undoes dag.nodes.length _))
  cases hd.symm.trans hv'
  rw [← hlog]

theorem bestOrder_dag (hw : Dag.WellFormed dag.nodes) (h : Awake dag.nodes w k) (hlog : w.dag.log = none) {os : List (List Nat)}
    (ho : ∀ o ∈ os, Orders dag.nodes.length w o) {sc : WithBot ℚ} {best best' : Option (List Nat)}
    (hb : bestOrder rc dag sw os w sc best = .ok (w', best')) : w'.dag = w.dag ∧ (best' = best ∨ ∃ o ∈ os, best' = some o) := by
  induction os generalizing w sc best with
  | nil =>
      cases hb
      exact ⟨rfl, .inl rfl⟩
  | cons o os ih =>
      obtain ⟨⟨v, sc'⟩, ht, hb⟩ := bind_eq_ok.mp hb
      have hv := trial_dag hw h hlog (ho o (by simp)) ht
      have ho' : ∀ o ∈ os, Orders dag.nodes.length v o := fun o' hm => ⟨by
        rw [hv]
        exact (ho o' (by simp [hm])).perm⟩
      have hrec : ∀ {sc best}, bestOrder rc dag sw os v sc best = .ok (w', best') →
          w'.dag = w.dag ∧ (best' = best ∨ ∃ o ∈ os, best' = some o) := by
        intro sc best hb
        rw [← hv]
        exact ih (by rw [Awake, hv]; exact h) (by rw [hv]; exact hlog) ho' hb
      dsimp only at hb
      split at hb
      · obtain ⟨hd, hbest⟩ := hrec hb
        refine ⟨hd, .inr ?_⟩
        rcases hbest with rfl | ⟨o', hm, rfl⟩
        · exact ⟨o, by simp, rfl⟩
        · exact ⟨o', by simp [hm], rfl⟩
      · obtain ⟨hd, hbest⟩ := hrec hb
        refine ⟨hd, hbest.imp_right ?_⟩
        rintro ⟨o', hm, rfl⟩
        exact ⟨o', by simp [hm], rfl⟩

theorem rolloutCycle_awake (hw : Dag.WellFormed dag.nodes) {fs : List SortFunc} (hfs : Permuting fs) {C : Nat} {b : TaggedBundle}
    (h : Awake dag.nodes w k) (hlog : w.dag.log = none) (hcyc : rolloutCycle rc dag fs sw C w k = .ok (w', k', b)) :
    Awake dag.nodes w' k' ∧ w'.dag.log = none := by
  unfold rolloutCycle at hcyc
  dsimp only at hcyc
  split at hcyc
  · cases hcyc
  · split at hcyc
    · cases hcyc
    · obtain ⟨⟨v, best⟩, hb, hcyc⟩ := bind_eq_ok.mp hcyc
      obtain ⟨hv, hbest⟩ := bestOrder_dag hw h hlog (fun o hm => by
        obtain ⟨f, hf, rfl⟩ := List.mem_map.mp hm
        exact ⟨hfs f hf _ _ _ _⟩) hb
      cases best with
      | none => cases hcyc
      | some order =>
          obtain ⟨⟨u, st⟩, hrun, hcyc⟩ := bind_eq_ok.mp hcyc
          obtain ⟨x, he, hcyc⟩ := bind_eq_ok.mp hcyc
          obtain ⟨b', -, hcyc⟩ := bind_eq_ok.mp hcyc
          cases hcyc
          have ho : Orders dag.nodes.length { v with pool := .fresh } order := by
            rcases hbest with hbest | ⟨o, hm, hbest⟩
            · cases hbest
            · cases hbest
              obtain ⟨f, hf, rfl⟩ := List.mem_map.mp hm
              refine ⟨?_⟩
              rw [hv]
              exact hfs f hf _ _ _ _
          have h' : Tracked dag.nodes w.dag.val.committed v.dag k := by
            rw [hv]
            exact h
          obtain ⟨htrack, hundo⟩ := runCycle_tracked hw (w := { v with pool := .fresh }) ho h' hrun
          refine ⟨htrack.endCycle he, ?_⟩
          obtain ⟨a, -, he⟩ := bind_eq_ok.mp he
          cases he
          exact (hundo.trans (Dag.advance_undoes _ _)).closed (by rw [hv]; exact hlog)

end rollout

section reached

variable {dag : Dag} {bs : List TaggedBundle}

theorem fromNodes_start (hd : Dag.fromNodes nodes = .ok dag) (a : RegisterAllocator) :
    dag.nodes = nodes ∧ dag.st = ⟨.initial nodes, none⟩ ∧ Awake nodes (.start dag a) 0 ∧ (World.start dag a).dag.log = none := by
  unfold Dag.fromNodes at hd
  split at hd
  · split at hd
    · cases hd
    · cases hd
      exact ⟨rfl, rfl, ⟨Dag.initial_inv, List.countP_eq_zero.mpr fun i _ => by simp [World.start, DagState.initial]⟩, rfl⟩
  · cases hd

/-- Every cycle of the greedy scheduler finds a ready node. -/
theorem greedy_awake (hw : Dag.WellFormed nodes) (hd : Dag.fromNodes nodes = .ok dag) {key : KeyFunc} {a : RegisterAllocator}
    (h : Reached (greedyCycle rc dag.nodes key) dag.nodes.length (.start dag a) bs w k) : Awake nodes w k := by
  obtain ⟨rfl, -, hstart, -⟩ := fromNodes_start hd a
  induction h with
  | start => exact hstart
  | cycle _ _ hcyc ih => exact greedyCycle_awake hw ih hcyc

/-- Every cycle of the rollout scheduler finds a ready node. -/
theorem rollout_awake (hw : Dag.WellFormed nodes) (hd : Dag.fromNodes nodes = .ok dag) {fs : List SortFunc} (hfs : Permuting fs)
    {sw : ScoreWeights} {a : RegisterAllocator} (h : RolloutReached rc dag fs sw a bs w k) :
    Awake nodes w k ∧ w.dag.log = none := by
  obtain ⟨rfl, -, hstart⟩ := fromNodes_start hd a
  induction h with
  | start => exact hstart
  | cycle _ _ hcyc ih => exact rolloutCycle_awake hw hfs ih.1 ih.2 hcyc

end reached

/-- The frontier holds exactly the nodes that are ready, the two operations return what they add to it, and no
cycle of a scheduler finds it empty. -/
theorem frontier_protocol {nodes : List DNode} (hw : Dag.WellFormed nodes) {dag : Dag} (hd : Dag.fromNodes nodes = .ok dag) :
    (∀ {prev s}, Dag.Run nodes dag.st prev s →
      (∀ i, s.val.frontier i = true ↔ i < nodes.length ∧ s.val.committed i = false ∧ ∀ e ∈ Dag.inEdges nodes i,
        (e.2 = 0 → s.val.committed e.1 = true) ∧ (e.2 = 1 → prev e.1 = true)) ∧
      (∀ {i}, s.val.frontier i = true → Dag.ReturnsAdded s (Dag.commit nodes s i)) ∧
      Dag.ReturnsAdded s (Dag.advance nodes.length s) ∧
      ∀ {i}, i < nodes.length → (Dag.advance nodes.length s).1.val.committed i = false →
        ∃ j < nodes.length, (Dag.advance nodes.length s).1.val.frontier j = true) ∧
    ∀ {rc a bs w k}, k < nodes.length →
      (∀ {key}, Reached (greedyCycle rc dag.nodes key) dag.nodes.length (.start dag a) bs w k →
        w.dag.val.ready nodes.length ≠ []) ∧
      ∀ {fs sw}, Permuting fs → RolloutReached rc dag fs sw a bs w k → w.dag.val.ready nodes.length ≠ [] := by
  refine ⟨fun {prev s} h => ?_, fun {rc a bs w k} hk => ⟨fun h => (greedy_awake hw hd h).nonempty hw hk,
    fun hfs h => (rollout_awake hw hd hfs h).1.nonempty hw hk⟩⟩
  have hinv : Dag.Inv nodes prev s.val := h.inv hw (by rw [(fromNodes_start hd .init).2.1])
  exact ⟨fun i => hinv.frontier_iff, fun hi => Dag.commit_returns hi, Dag.advance_returns _ _,
    fun hi hc => Dag.advance_nonempty hw hinv hi hc⟩

/-- A constant, its square and an overwrite that only has to wait for the square to be issued. -/
def overwrite : List DNode :=
  [⟨0, ⟨0, .const (.sym ⟨"x#0", false⟩) 3⟩, [], [(1, 1)]⟩,
    ⟨1, ⟨1, .alu .mul (.sym ⟨"y#1", false⟩) (.sym ⟨"x#0", false⟩) (.sym ⟨"x#0", false⟩)⟩, [(0, 1)], [(2, 0)]⟩,
    ⟨2, ⟨2, .const (.sym ⟨"x#0", false⟩) 5⟩, [(1, 0)], []⟩]

/-- The square is ready after the end of the constant's cycle, and its commit makes the overwrite ready. -/
theorem frontier_protocol_overwrite : ∃ dag prev s, Dag.fromNodes overwrite = .ok dag ∧ Dag.Run overwrite dag.st prev s ∧
    s.val.frontier 1 = true ∧ s.val.frontier 2 = false ∧ (Dag.commit overwrite s 1).1.val.frontier 2 = true ∧
    2 ∈ (Dag.commit overwrite s 1).2 := by
  have hwf : Dag.WellFormed overwrite := by decide
  obtain ⟨dag, hd⟩ : ∃ dag, Dag.fromNodes overwrite = .ok dag := ⟨_, rfl⟩
  obtain ⟨hruns, -⟩ := frontier_protocol hwf hd
  have hst := (fromNodes_start hd .init).2.1
  have h₀ : Dag.Run overwrite dag.st _ (Dag.commit overwrite dag.st 0).1 := .commit .start (by rw [hst]; decide)
  have h₁ := h₀.advance
  obtain ⟨hiff, hret, -⟩ := hruns h₁
  have hf : (Dag.advance overwrite.length (Dag.commit overwrite dag.st 0).1).1.val.frontier 1 = true := by
    rw [hst]
    decide
  have hadd := ((hret hf).mem 2).mpr
  refine ⟨dag, _, _, hd, h₁, hf, ?_, ?_, ?_⟩
  · rw [hst]
    decide
  · rw [hst]
    decide
  · refine hadd ⟨?_, ?_⟩
    all_goals
      rw [hst]
      decide

end Vliw
