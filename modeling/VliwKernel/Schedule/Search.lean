import Mathlib
import VliwKernel.Schedule.Erasure
import VliwKernel.Schedule.GreedyRollout
import VliwKernel.Schedule.Decisions

/-!
# What the trials are for

The rollout scheduler finds out what the candidate orders of a cycle earn by trying them on checkpoints. Beside it stands
a scheduler without trials, which is told what each order would earn if the cycle were really placed in it, and places
the first of the best. Cycle by cycle, and over whole runs, the two do the same.
-/

namespace Vliw
open RegisterAllocator

/-- Sort functions that look at the tables of the allocator and not at its counters. -/
def Blind (fs : List SortFunc) : Prop :=
  ∀ f ∈ fs, ∀ C (a b : RegisterAllocator) progress p ready, a.tab = b.tab → f C ⟨a, progress⟩ p ready = f C ⟨b, progress⟩ p ready

section
variable (rc : Sym → Option Int) (dag : Dag) (fs : List SortFunc) (sw : ScoreWeights)

/-- What the cycle earns that is placed in this order, with emission: the score of the state it leaves, `⊥` where it
places nothing. -/
def earned (order : List Nat) (w : World) : Except PyErr (WithBot ℚ) := do
  let (t, s) ← runCycle rc dag.nodes true order { w with pool := .fresh }
  let t := { t with dag := (Dag.advance dag.nodes.length t.dag).1 }
  .ok (if stuck t s then ⊥ else (score sw dag.nodes.length t s : ℚ))

def offers (orders : List (List Nat)) (w : World) : Except PyErr (List (List Nat × WithBot ℚ)) :=
  orders.mapM fun o => do .ok (o, ← earned rc dag sw o w)

/-- The first of the best offers, unless all of them are stuck. -/
def bestOffer (xs : List (List Nat × WithBot ℚ)) : Option (List Nat × WithBot ℚ) := (xs.filter fun x => ⊥ < x.2).argmax Prod.snd

def candidates (C : Nat) (w : World) (committed : Nat) : List (List Nat) :=
  fs.map fun f => f C ⟨w.alloc, committed / dag.nodes.length⟩ w.place.val (w.dag.val.ready dag.nodes.length)

def searchCycle (C : Nat) (w : World) (committed : Nat) : Except PyErr (World × Nat × TaggedBundle) := do
  let n := dag.nodes.length
  let ready := w.dag.val.ready n
  if ready.isEmpty then .error (.frontierEmpty (n - committed) C)
  else
    let orders := candidates dag fs C w committed
    if C = 0 ∧ ¬ orders.all (fun o => o.mergeSort = ready) then .error .assertion
    else
      match bestOffer (← offers rc dag sw orders w) with
      | none => .error (.deadlock C orders.length ready.length w.alloc.tab.val.freeVec.length w.alloc.tab.val.freeScalarCount)
      | some (order, _) => replay rc dag order w committed

end

def scheduleSearch (dag : Dag) (rc : Sym → Option Int) (fs : List SortFunc) (sw : ScoreWeights)
    (cap : Option Nat) (a : RegisterAllocator) : Except PyErr (List TaggedBundle × World) :=
  let cap := cap.getD (dag.nodes.length + 1)
  cycleLoop (searchCycle rc dag fs sw) dag.nodes.length cap cap (.start dag a) 0 []

variable {rc : Sym → Option Int} {nodes : List DNode} {prev : Nat → Bool} {w v w' : World} {order : List Nat} {dag : Dag}

section cycle

theorem advance_val {n : Nat} {s s' : Dag.Log} (h : s.val = s'.val) : (Dag.advance n s).1.val = (Dag.advance n s').1.val := by
  have hq : s.quiet = s'.quiet := by rw [Logged.quiet, Logged.quiet, h]
  have hs := congrArg (fun p => p.1.val) (Dag.advance_quiet n s)
  rw [hq, Dag.advance_quiet] at hs
  exact hs.symm

theorem score_congr {t t' : World} (hd : t.dag.val = t'.dag.val) (hf : t.pool.free = t'.pool.free) (s : Stats) (sw : ScoreWeights) (n : Nat) :
    stuck t s = stuck t' s ∧ score sw n t s = score sw n t' s := by
  have hused : t.pool.used = t'.pool.used := by
    funext e
    rw [FuncUnitPool.used, FuncUnitPool.used, hf]
  exact ⟨by rw [stuck, stuck, hused], by rw [score, score, hused, hd]⟩

/-- The cycle placed from a state whose journals are open does what it does in a state that is the same but for its
journals and counters. -/
theorem runCycle_checkpoint (hl : w.Like v) (emit : Bool) (order : List Nat) :
    Agree (fun p q => p.2 = q.2 ∧ p.1.dag.val = q.1.dag.val ∧ p.1.pool = q.1.pool) (runCycle rc nodes emit order v.checkpoint)
      (runCycle rc nodes emit order { w with pool := .fresh }) := by
  have heq : v.checkpoint.erased w.alloc = ({ w with pool := .fresh } : World).erased v.alloc := by
    simp only [World.erased, World.checkpoint, RegisterAllocator.erased, RegisterAllocator.checkpoint, Logged.quiet, Logged.checkpoint_val,
      hl.dag, hl.place, hl.tab, World.mk.injEq, RegisterAllocator.mk.injEq, true_and, and_true]
    exact ⟨Nat.add_comm .., Nat.add_comm .., Nat.add_comm ..⟩
  have hv : runCycle rc nodes emit order (v.checkpoint.erased w.alloc) =
      (runCycle rc nodes emit order v.checkpoint).map (Prod.map (World.erased w.alloc) id) := runCycle_erased emit order v.checkpoint
  rw [heq, runCycle_erased] at hv
  revert hv
  cases runCycle rc nodes emit order v.checkpoint with
  | error e =>
      cases runCycle rc nodes emit order { w with pool := .fresh } with
      | error e' => exact fun h => (Except.error.inj h).symm
      | ok q => exact fun h => by cases h
  | ok p =>
      cases runCycle rc nodes emit order { w with pool := .fresh } with
      | error e' => exact fun h => by cases h
      | ok q =>
          intro h
          have h := Except.ok.inj h
          refine ⟨(congrArg Prod.snd h).symm, ?_, ?_⟩
          · exact (congrArg (fun x => x.1.dag.val) h).symm
          · exact (congrArg (fun x => x.1.pool) h).symm

/-- A trial finds out what the order would earn. -/
theorem trial_earned (sw : ScoreWeights) (hw : Dag.WellFormed dag.nodes) (h1 : OneWriter dag.nodes rc) (hok : w.Ok dag.nodes prev) (hcl : w.Closed)
    (hl : w.Like v) (ho : Orders dag.nodes.length w order) :
    Agree (fun p sc => w.Like p.1 ∧ p.2 = sc) (trial rc dag sw order v) (earned rc dag sw order w) := by
  have hov : Orders dag.nodes.length v order := ⟨hl.dag ▸ ho.perm⟩
  have hov' : Orders dag.nodes.length v.checkpoint order := ⟨hov.perm⟩
  have hokv : v.checkpoint.Ok dag.nodes prev := (hok.like hl).of_vals rfl rfl rfl
  have hdry := runCycle_agree hw h1 hokv hov' rfl
  have hopen : Agree (fun p q => p.2 = q.2 ∧ p.1.dag.val = q.1.dag.val ∧ p.1.pool = q.1.pool)
      (runCycle rc dag.nodes true order v.checkpoint) (runCycle rc dag.nodes true order { w with pool := .fresh }) :=
    runCycle_checkpoint hl true order
  rcases simulate_rollback hw h1 (hok.like hl) (hcl.like hl) hov with ⟨t, s, v', hsim, hroll, hl'⟩ | ⟨-, herr⟩
  · obtain ⟨⟨t₀, s₀⟩, hrun, hsim'⟩ := bind_eq_ok.mp hsim
    obtain ⟨rfl, rfl⟩ := Prod.mk.inj (Except.ok.inj hsim')
    obtain ⟨⟨t₁, s₁⟩, hrun₁, hsame⟩ := hdry.to_ok hrun
    obtain ⟨⟨t₂, s₂⟩, hrun₂, hs, hd, hp⟩ := hopen.to_ok hrun₁
    have hval : (Dag.advance dag.nodes.length t₀.dag).1.val = (Dag.advance dag.nodes.length t₂.dag).1.val :=
      advance_val ((congrArg Logged.val hsame.dag).trans hd)
    have hfree : t₀.pool.free = t₂.pool.free := hsame.free.trans (congrArg FuncUnitPool.free hp)
    have hst : s₀ = s₂ := hsame.stats.trans hs
    obtain ⟨hstuck, hscore⟩ := @score_congr { t₀ with dag := (Dag.advance dag.nodes.length t₀.dag).1 }
      { t₂ with dag := (Dag.advance dag.nodes.length t₂.dag).1 } hval hfree s₀ sw dag.nodes.length
    subst hst
    simp only [trial, hsim, bind_ok, hroll, earned, hrun₂, Agree.ok_iff]
    exact ⟨hl.trans hl', by rw [hstuck, hscore]⟩
  · have hrun : runCycle rc dag.nodes false order v.checkpoint = .error .keyError := by
      cases hx : runCycle rc dag.nodes false order v.checkpoint with
      | error e =>
          simp only [simulate, hx, bind_error] at herr
          exact herr
      | ok p =>
          simp only [simulate, hx, bind_ok] at herr
          cases herr
    have hrun₁ : runCycle rc dag.nodes true order v.checkpoint = .error .keyError := Agree.to_error hdry hrun
    have hrun₂ : runCycle rc dag.nodes true order { w with pool := .fresh } = .error .keyError := Agree.to_error hopen hrun₁
    simp only [trial, herr, bind_error, earned, hrun₂, Agree.error_iff]

theorem offers_cons (sw : ScoreWeights) (o : List Nat) (os : List (List Nat)) (w : World) : offers rc dag sw (o :: os) w =
    earned rc dag sw o w >>= fun sc => offers rc dag sw os w >>= fun xs => .ok ((o, sc) :: xs) := by
  rw [offers, List.mapM_cons]
  cases earned rc dag sw o w <;> rfl

theorem argAux_offer (best : Option (List Nat × WithBot ℚ)) (o : List Nat) (sc : WithBot ℚ) (xs : List (List Nat × WithBot ℚ)) :
    (((o, sc) :: xs).filter fun x => ⊥ < x.2).foldl (List.argAux fun x y => y.2 < x.2) best =
      (xs.filter fun x => ⊥ < x.2).foldl (List.argAux fun x y => y.2 < x.2) (if best.elim ⊥ Prod.snd < sc then some (o, sc) else best) := by
  by_cases hsc : ⊥ < sc
  · rw [List.filter_cons_of_pos (by simpa using hsc), List.foldl_cons]
    cases best with
    | none => rw [Option.elim_none, if_pos hsc]; rfl
    | some b => rfl
  · have hnot : ¬ best.elim ⊥ Prod.snd < sc := fun h => hsc (bot_le.trans_lt h)
    rw [List.filter_cons_of_neg (by simpa using hsc), if_neg hnot]

/-- The trials of a cycle: from the best offer so far, `best`, to the best offer of all. -/
theorem bestOrder_offers (sw : ScoreWeights) (hw : Dag.WellFormed dag.nodes) (h1 : OneWriter dag.nodes rc) (hok : w.Ok dag.nodes prev) (hcl : w.Closed)
    {os : List (List Nat)} (ho : ∀ o ∈ os, Orders dag.nodes.length w o) (hl : w.Like v) (best : Option (List Nat × WithBot ℚ)) :
    Agree (fun p xs => w.Like p.1 ∧ p.2 = ((xs.filter fun x => ⊥ < x.2).foldl (List.argAux fun x y => y.2 < x.2) best).map Prod.fst)
      (bestOrder rc dag sw os v (best.elim ⊥ Prod.snd) (best.map Prod.fst)) (offers rc dag sw os w) := by
  induction os generalizing v best with
  | nil => exact ⟨hl, rfl⟩
  | cons o os ih =>
      rw [offers_cons, bestOrder]
      refine (trial_earned sw hw h1 hok hcl hl (ho o (by simp))).bind ?_
      rintro ⟨v', sc⟩ - ⟨hl', rfl⟩
      have ih' := fun best => ih (fun o ho' => ho o (by simp [ho'])) hl' best
      have hrest : ∀ best', Agree (fun p xs => w.Like p.1 ∧ p.2 = ((xs.filter fun x => ⊥ < x.2).foldl (List.argAux fun x y => y.2 < x.2) best').map Prod.fst)
          (bestOrder rc dag sw os v' (best'.elim ⊥ Prod.snd) (best'.map Prod.fst)) (offers rc dag sw os w) :=
        ih (fun o ho' => ho o (by simp [ho'])) hl'
      dsimp only
      by_cases hlt : best.elim ⊥ Prod.snd < sc
      · rw [if_pos hlt]
        refine (hrest (some (o, sc))).bind_right fun p xs hp => ⟨hp.1, ?_⟩
        rw [argAux_offer, if_pos hlt]
        exact hp.2
      · rw [if_neg hlt]
        refine (hrest best).bind_right fun p xs hp => ⟨hp.1, ?_⟩
        rw [argAux_offer, if_neg hlt]
        exact hp.2

theorem offers_mem {sw : ScoreWeights} {os : List (List Nat)} {xs : List (List Nat × WithBot ℚ)} (h : offers rc dag sw os w = .ok xs)
    {o : List Nat} {sc : WithBot ℚ} (hx : (o, sc) ∈ xs) : o ∈ os ∧ earned rc dag sw o w = .ok sc := by
  obtain ⟨o', ho', hpair⟩ := exists_of_mem_mapM h hx
  obtain ⟨sc', hsc', hpair⟩ := bind_eq_ok.mp hpair
  cases hpair
  exact ⟨ho', hsc'⟩

theorem bestOffer_mem {xs : List (List Nat × WithBot ℚ)} {x : List Nat × WithBot ℚ} (h : bestOffer xs = some x) :
    x ∈ xs ∧ ⊥ < x.2 := by
  obtain ⟨hmem, hlt⟩ := List.mem_filter.mp (List.argmax_mem h)
  exact ⟨hmem, of_decide_eq_true hlt⟩

theorem candidates_orders {fs : List SortFunc} (hfs : Permuting fs) {C k : Nat} {o : List Nat} (h : o ∈ candidates dag fs C w k) :
    Orders dag.nodes.length w o := by
  obtain ⟨f, hf, rfl⟩ := List.mem_map.mp h
  exact ⟨hfs f hf _ _ _ _⟩

/-- What earns something can be placed, from either of two states that are the same but for their counters. -/
theorem replay_like {sw : ScoreWeights} {sc : WithBot ℚ} (hw : Dag.WellFormed dag.nodes) (h1 : OneWriter dag.nodes rc)
    (hok : w.Ok dag.nodes prev) (hcl : w.Closed) (hl : w.Like v) (ho : Orders dag.nodes.length w order) (k : Nat)
    (h : earned rc dag sw order w = .ok sc) :
    ∃ v' w' k' b, replay rc dag order v k = .ok (v', k', b) ∧ replay rc dag order w k = .ok (w', k', b) ∧ w'.Like v' ∧
      w'.Ok dag.nodes w'.dag.val.committed ∧ w'.Closed := by
  obtain ⟨⟨w₁, s⟩, hrun, -⟩ := bind_eq_ok.mp h
  obtain ⟨u, v', b, hend, hemit, hv, hlv, hoku, hclu, -⟩ := replay_twin (k := k) hw hok h1 hcl hl ho hrun
  obtain ⟨u', w', b', hend', hemit', hw', hlw, -⟩ := replay_twin (k := k) hw hok h1 hcl (.refl w) ho hrun
  cases hend.symm.trans hend'
  cases hemit.symm.trans hemit'
  have hcom : w'.dag.val.committed = u.dag.val.committed := congrArg (fun d => d.val.committed) hlw.dag
  refine ⟨v', w', _, b, hv, hw', ?_, hcom ▸ hoku.like hlw, hclu.like hlw⟩
  exact ⟨hlv.dag.trans hlw.dag.symm, hlv.place.trans hlw.place.symm, hlv.tab.trans hlw.tab.symm⟩

/-- One cycle with trials beside one without, from states that are the same but for their counters. -/
theorem rolloutCycle_search {fs : List SortFunc} (sw : ScoreWeights) (hw : Dag.WellFormed dag.nodes) (h1 : OneWriter dag.nodes rc)
    (hok : w.Ok dag.nodes prev) (hcl : w.Closed) (hl : w.Like v) (hfs : Permuting fs) (C k : Nat)
    (hcand : candidates dag fs C v k = candidates dag fs C w k) :
    Agree (fun p q => q.1.Like p.1 ∧ p.2 = q.2 ∧ q.1.Ok dag.nodes q.1.dag.val.committed ∧ q.1.Closed)
      (rolloutCycle rc dag fs sw C v k) (searchCycle rc dag fs sw C w k) := by
  have horders : (fs.map fun f => f C ⟨v.alloc, k / dag.nodes.length⟩ v.place.val (v.dag.val.ready dag.nodes.length)) =
      candidates dag fs C w k := hcand
  simp only [rolloutCycle, horders]
  simp only [searchCycle, hl.dag]
  refine Agree.ite (fun _ => rfl) fun _ => Agree.ite (fun _ => rfl) fun _ => ?_
  refine (bestOrder_offers sw hw h1 hok hcl (fun o ho => candidates_orders hfs ho) hl none).bind_of ?_
  rintro ⟨v₁, best⟩ xs hxs ⟨hl₁, hbest⟩
  dsimp only at hl₁ hbest ⊢
  rw [show best = (bestOffer xs).map Prod.fst from hbest]
  cases hx : bestOffer xs with
  | none =>
      rw [Option.map_none, hl₁.tab]
      rfl
  | some x =>
      obtain ⟨ho, hearned⟩ := offers_mem hxs (bestOffer_mem hx).1
      obtain ⟨v', w', k', b, hv', hw', hlike, hok', hcl'⟩ := replay_like hw h1 hok hcl hl₁ (candidates_orders hfs ho) k hearned
      simp only [Option.map_some, hv', hw', Agree.ok_iff]
      exact ⟨hlike, trivial, hok', hcl'⟩

/-- Sort functions that do not look at the counters offer the same orders. -/
theorem candidates_like {fs : List SortFunc} (hblind : Blind fs) (hl : w.Like v) (C k : Nat) : candidates dag fs C v k = candidates dag fs C w k := by
  rw [candidates, candidates, hl.dag, hl.place]
  exact List.map_congr_left fun f hf => hblind f hf C _ _ _ _ _ hl.tab

theorem cycleLoop_search {fs : List SortFunc} (sw : ScoreWeights) (hw : Dag.WellFormed dag.nodes) (h1 : OneWriter dag.nodes rc)
    (hok : w.Ok dag.nodes prev) (hcl : w.Closed) (hl : w.Like v) (hfs : Permuting fs) (hblind : Blind fs) (cap rem k : Nat)
    (bs : List TaggedBundle) :
    Agree (fun p q => p.1 = q.1 ∧ q.2.Like p.2) (cycleLoop (rolloutCycle rc dag fs sw) dag.nodes.length cap rem v k bs)
      (cycleLoop (searchCycle rc dag fs sw) dag.nodes.length cap rem w k bs) := by
  induction rem generalizing prev w v k bs with
  | zero =>
      unfold cycleLoop
      refine Agree.ite (fun _ => ?_) fun _ => ⟨rfl, hl⟩
      exact (rolloutCycle_search sw hw h1 hok hcl hl hfs _ k (candidates_like hblind hl _ k)).bind fun _ _ _ => rfl
  | succ rem ih =>
      unfold cycleLoop
      refine Agree.ite (fun _ => ?_) fun _ => ⟨rfl, hl⟩
      refine (rolloutCycle_search sw hw h1 hok hcl hl hfs _ k (candidates_like hblind hl _ k)).bind ?_
      rintro ⟨v', k', b⟩ ⟨w', k'', b'⟩ ⟨hl', heq, hok', hcl'⟩
      cases heq
      exact ih hok' hcl' hl' k' (bs ++ [b])

end cycle

section sorting

theorem weightedGreedy_blind (wts : Weights) : Blind [weightedGreedy dag wts] := by
  intro f hf C a b progress p ready hab
  obtain rfl := List.mem_singleton.mp hf
  simp only [weightedGreedy, pressuredKey_congr (congrArg Logged.val hab)]

theorem interpGreedy_blind (w1 w2 : Weights) : Blind [interpGreedy dag w1 w2] := by
  intro f hf C a b progress p ready hab
  obtain rfl := List.mem_singleton.mp hf
  have hkey : ∀ i, interpKey dag w1 w2 ⟨a, progress⟩ p i = interpKey dag w1 w2 ⟨b, progress⟩ p i := by
    intro i
    simp only [interpKey, freeingRead, hab]
  simp only [interpGreedy, hkey]

theorem defaultSortFuncs_blind (wts : Weights) (trials : Nat) {shuffle : Nat → SortFunc} (h : ∀ k, Blind [shuffle k]) :
    Blind (defaultSortFuncs dag wts trials shuffle) := by
  intro f hf
  rcases List.mem_cons.mp hf with rfl | hf
  · exact weightedGreedy_blind wts _ (List.mem_singleton_self _)
  · obtain ⟨k, -, rfl⟩ := List.mem_map.mp hf
    exact h k _ (List.mem_singleton_self _)

end sorting

section runs

variable {pinned : List String} {is : List (Instr Operand)} {a : RegisterAllocator} {fs : List SortFunc} {sw : ScoreWeights}

/-- In every state that a rollout run reaches, the cycle with trials does what the one without does, so it places the first of
the orders that earn the most. Where the sort functions do not look at the counters, the two schedulers return the same
bundles and the same state, up to the counters of the allocator, or fail with the same exception. -/
theorem rollout_searches (hs : SingleWriter pinned is rc) (hdag : buildDag is pinned = .ok dag) (ha : a.tab.val.Inv) (hlog : a.tab.log = none)
    (hfree : ∀ i t, WritesTag is i t → a.tab.val.assigned t = none) (hfs : Permuting fs) (sw : ScoreWeights) :
    (∀ bs w k, RolloutReached rc dag fs sw a bs w k →
      Agree (fun p q => q.1.Like p.1 ∧ p.2 = q.2) (rolloutCycle rc dag fs sw bs.length w k) (searchCycle rc dag fs sw bs.length w k)) ∧
    (Blind fs → ∀ cap, Agree (fun p q => p.1 = q.1 ∧ q.2.Like p.2) (scheduleRollout dag rc fs sw cap a) (scheduleSearch dag rc fs sw cap a)) := by
  have hof : DagOf pinned is dag := .of_ok hs hdag
  refine ⟨fun bs w k hw => ?_, fun hblind cap => ?_⟩
  · obtain ⟨hok, hcl⟩ := hw.ok hs hof hfs ha hfree hlog
    exact (rolloutCycle_search sw hof.wf (hof.oneWriter hs) hok hcl (.refl w) hfs _ k rfl).mono fun p q h => ⟨h.1, h.2.1⟩
  · obtain ⟨hok, hcl⟩ := start_ok hof ha hfree hlog
    exact cycleLoop_search sw hof.wf (hof.oneWriter hs) hok hcl (.refl _) hfs hblind _ _ 0 []

/-- A constant, a sum and a difference of it, and a store. -/
def forkProgram : List (Instr Operand) :=
  [⟨0, .const (.sym ⟨"x", false⟩) 5⟩, ⟨1, .alu .add (.sym ⟨"y", false⟩) (.sym ⟨"x", false⟩) (.sym ⟨"x", false⟩)⟩,
    ⟨2, .alu .sub (.sym ⟨"z", false⟩) (.sym ⟨"x", false⟩) (.sym ⟨"x", false⟩)⟩,
    ⟨3, .vBroadcast (.sym ⟨"v", true⟩) (.sym ⟨"y", false⟩)⟩, ⟨4, .vStore (.sym ⟨"z", false⟩) (.sym ⟨"v", true⟩)⟩]

/-- The fork, searched and rolled out with the code's own sort functions: the default trials, of two orders, and the
interpolated greedy. -/
theorem rollout_searches_fork : ∃ is rc dag, tagRawChains forkProgram PINNED = .ok (is, rc) ∧ buildDag is PINNED = .ok dag ∧
    ∀ fs ∈ [defaultSortFuncs dag smallWeights 2 fun _ _ _ _ ready => ready.reverse, [interpGreedy dag smallWeights ⟨1, 0, 1, 0, -1, 1⟩]],
      ∃ bs w v, scheduleRollout dag rc fs {} none .init = .ok (bs, w) ∧ scheduleSearch dag rc fs {} none .init = .ok (bs, v) ∧ v.Like w := by
  have hrun : (do
      let (is, rc) ← tagRawChains forkProgram PINNED
      let dag ← buildDag is PINNED
      let (bs, _) ← scheduleSearch dag rc (defaultSortFuncs dag smallWeights 2 fun _ _ _ _ ready => ready.reverse) {} none .init
      let (bs', _) ← scheduleSearch dag rc [interpGreedy dag smallWeights ⟨1, 0, 1, 0, -1, 1⟩] {} none .init
      .ok (bs.length, bs'.length)) = (.ok (4, 4) : Except PyErr (Nat × Nat)) := by cbv
  obtain ⟨⟨is, rc⟩, htag, hrun⟩ := bind_eq_ok.mp hrun
  obtain ⟨dag, hdag, hrun⟩ := bind_eq_ok.mp hrun
  obtain ⟨⟨bs, v⟩, hv, hrun⟩ := bind_eq_ok.mp hrun
  obtain ⟨⟨bs', v'⟩, hv', -⟩ := bind_eq_ok.mp hrun
  have hlike : ∀ {fs : List SortFunc} {bs v}, Permuting fs → Blind fs → scheduleSearch dag rc fs {} none .init = .ok (bs, v) →
      ∃ bs w v, scheduleRollout dag rc fs {} none .init = .ok (bs, w) ∧ scheduleSearch dag rc fs {} none .init = .ok (bs, v) ∧ v.Like w := by
    intro fs bs v hfs hblind hv
    obtain ⟨⟨bs', w⟩, hw, heq, hl⟩ := ((rollout_searches (tagRawChains_tagged pinned_noHash htag).toSingleWriter hdag Tables.Inv.init rfl
      (fun _ _ _ => rfl) hfs {}).2 hblind none).of_ok hv
    cases heq
    exact ⟨_, w, v, hw, hv, hl⟩
  have hreverse : Blind [fun _ _ _ ready => ready.reverse] := by
    intro f hf C a b progress p ready _
    rw [List.mem_singleton.mp hf]
  refine ⟨is, rc, dag, htag, hdag, fun fs hfs => ?_⟩
  rcases List.mem_cons.mp hfs with rfl | hfs
  · exact hlike (defaultSortFuncs_permuting _ 2 fun _ => permuting_reverse) (defaultSortFuncs_blind _ 2 fun _ => hreverse) hv
  · obtain rfl := List.mem_singleton.mp hfs
    exact hlike (interpGreedy_permuting _ _) (interpGreedy_blind _ _) hv'

end runs
end Vliw
