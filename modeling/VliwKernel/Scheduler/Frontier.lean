import VliwKernel.Scheduler.Dag

/-!
# The frontier protocol

What commits and advances do to the counters of a well-formed graph: a node is in the frontier
exactly while it is uncommitted, its WAR predecessors are committed and its RAW predecessors
were committed before the last `advance`. Both operations are undone exactly by their log.
-/

namespace Vliw
namespace Dag

/-- Edges of weight 0 or 1 from lower to higher index, listed alike at both ends. -/
structure WellFormed (nodes : List DNode) : Prop where
  idx : ∀ {i : Nat} {n : DNode}, nodes[i]? = some n → n.idx = i
  weight : ∀ {i e}, e ∈ inEdges nodes i → e.2 = 0 ∨ e.2 = 1
  lt : ∀ {i e}, e ∈ inEdges nodes i → e.1 < i
  mirror : ∀ i j w, (outEdges nodes i).count (j, w) = (inEdges nodes j).count (i, w)

variable {nodes : List DNode} {s : Log} {i j : Nat}

theorem length_of_mem_inEdges {e : Nat × Nat} (h : e ∈ inEdges nodes i) : i < nodes.length := by
  by_contra hi
  simp [inEdges, List.getElem?_eq_none (Nat.le_of_not_lt hi)] at h

theorem WellFormed.mem_outEdges (hw : WellFormed nodes) {w : Nat} :
    (j, w) ∈ outEdges nodes i ↔ (i, w) ∈ inEdges nodes j := by
  rw [← List.count_pos_iff, hw.mirror, List.count_pos_iff]

section exactness

/-- The entries between two logs undo the second exactly to the first. -/
abbrev Undoes (s t : Log) : Prop := Logged.Reverts DagEntry.undo Eq s t

theorem Undoes.trans {s t u : Log} (h : Undoes s t) (h' : Undoes t u) : Undoes s u :=
  Logged.Reverts.trans (Logged.Respects.eq _) Eq.trans h h'

theorem Undoes.refl (s : Log) : Undoes s s := Logged.Reverts.refl (fun _ => rfl) s

theorem addFrontier_undoes (h : s.val.frontier i = false) : Undoes s (addFrontier s i) := by
  refine Logged.Reverts.of_record (w := s.val) ?_ rfl
  simp [DagEntry.undo, ← h]

theorem relax_undoes (acc : Log × List Nat) (e : Nat × Nat) : Undoes acc.1 (relax acc e).1 := by
  obtain ⟨s, unlocked⟩ := acc
  obtain ⟨dst, w⟩ := e
  simp only [relax]
  split
  · exact .refl _
  · split
    · have hwar : Undoes s (s.record
          { s.val with war := Function.update s.val.war dst (s.val.war dst - 1) } (.W dst)) :=
        Logged.Reverts.of_record (w := s.val) (by simp [DagEntry.undo]) rfl
      split
      · next h =>
          refine hwar.trans (addFrontier_undoes ?_)
          simp only [Logged.record_val, Bool.and_eq_true, Bool.not_eq_true'] at h
          exact h.2
      · exact hwar
    · exact Logged.Reverts.of_record (w := s.val) (by simp [DagEntry.undo]) rfl

theorem commit_undoes (h : s.val.committed i = false) : Undoes s (commit nodes s i).1 := by
  have hloop : ∀ s : Log, Undoes s ((outEdges nodes i).foldl relax (s, [])).1 := fun s =>
    Logged.Reverts.foldl (fun _ => rfl) (Logged.Respects.eq _) Eq.trans (π := Prod.fst) relax_undoes _ (s, [])
  refine .trans ?_ (hloop _)
  have hC : Undoes s (s.record { s.val with committed := Function.update s.val.committed i true } (.C i)) :=
    Logged.Reverts.of_record (w := s.val) (by simp [DagEntry.undo, ← h]) rfl
  split
  · next hf =>
      refine hC.trans (Logged.Reverts.of_record ?_ rfl)
      simp only [Logged.record_val] at hf ⊢
      simp [DagEntry.undo, ← hf]
  · exact hC

theorem resolve_undoes (acc : Log × List Nat) (i : Nat) : Undoes acc.1 (resolve acc i).1 := by
  obtain ⟨s, unlocked⟩ := acc
  simp only [resolve]
  split
  · exact .refl _
  · have hR : Undoes s (s.record
        { s.val with raw := Function.update s.val.raw i (s.val.raw i - s.val.pending i) }
        (.R i (s.val.pending i))) :=
      Logged.Reverts.of_record (w := s.val) (by simp [DagEntry.undo]) rfl
    have hZ : ∀ t : Log, Undoes t (t.record
        { t.val with pending := Function.update t.val.pending i 0 } (.Z i (t.val.pending i))) := fun t =>
      Logged.Reverts.of_record (w := t.val) (by simp [DagEntry.undo]) rfl
    split
    · next h =>
        refine (hR.trans (hZ _)).trans (addFrontier_undoes ?_)
        simp only [Logged.record_val, Bool.and_eq_true, Bool.not_eq_true'] at h
        exact h.2
    · exact hR.trans (hZ _)

theorem advance_undoes (n : Nat) (s : Log) : Undoes s (advance n s).1 :=
  Logged.Reverts.foldl (fun _ => rfl) (Logged.Respects.eq _) Eq.trans (π := Prod.fst) resolve_undoes _ (s, [])

end exactness

def FrontierOk (n : Nat) (s : DagState) : Prop :=
  ∀ i, s.frontier i = true ↔ i < n ∧ s.committed i = false ∧ s.raw i = 0 ∧ s.war i = 0

/-- The counters in terms of what is committed, `prev` being what was before the last `advance`. -/
structure Inv (nodes : List DNode) (prev : Nat → Bool) (s : DagState) : Prop where
  raw : ∀ i, s.raw i = (inEdges nodes i).countP fun e => e.2 = 1 && !prev e.1
  pending : ∀ i, s.pending i = (inEdges nodes i).countP fun e => e.2 = 1 && (s.committed e.1 && !prev e.1)
  war : ∀ i, s.war i = (inEdges nodes i).countP fun e => e.2 = 0 && !s.committed e.1
  frontier : FrontierOk nodes.length s
  prev_committed : ∀ {i}, prev i = true → s.committed i = true
  closed : ∀ {i}, s.committed i = true → i < nodes.length ∧
    ∀ e ∈ inEdges nodes i, s.committed e.1 = true ∧ (e.2 = 1 → prev e.1 = true)

theorem Inv.frontier_iff {prev : Nat → Bool} (h : Inv nodes prev s.val) :
    s.val.frontier i = true ↔ i < nodes.length ∧ s.val.committed i = false ∧
      ∀ e ∈ inEdges nodes i, (e.2 = 0 → s.val.committed e.1 = true) ∧ (e.2 = 1 → prev e.1 = true) := by
  rw [h.frontier, h.raw, h.war]
  simp only [Nat.cast_eq_zero, List.countP_eq_zero, Bool.and_eq_true, decide_eq_true_eq, Bool.not_eq_true',
    not_and, Bool.not_eq_false]
  constructor
  · rintro ⟨hi, hc, hr, hw⟩
    exact ⟨hi, hc, fun e he => ⟨hw e he, hr e he⟩⟩
  · rintro ⟨hi, hc, he⟩
    exact ⟨hi, hc, fun e hm => (he e hm).2, fun e hm => (he e hm).1⟩

theorem Inv.prev_false {prev : Nat → Bool} (h : Inv nodes prev s.val) (hf : s.val.frontier i = true) : prev i = false := by
  rw [← Bool.not_eq_true]
  intro hp
  have := (h.frontier_iff.mp hf).2.1
  rw [h.prev_committed hp] at this
  cases this

theorem initial_inv : Inv nodes (fun _ => false) (.initial nodes) := by
  have hcount : ∀ (p : Nat × Nat → Bool) i,
      ((nodes[i]?.map fun n => n.inEdges.countP p).getD 0 : Nat) = (inEdges nodes i).countP p := by
    intro p i
    cases h : nodes[i]? <;> simp [inEdges, h]
  constructor
  case raw => intro i; simp [DagState.initial, hcount]
  case pending => intro i; simp [DagState.initial]
  case war => intro i; simp [DagState.initial, hcount]
  case frontier => intro i; simp [DagState.initial, and_assoc]
  case prev_committed => intro i hi; cases hi
  case closed => intro i hi; cases hi

theorem DagState.unblocked_iff {s : DagState} : s.unblocked i = true ↔ s.raw i = 0 ∧ s.war i = 0 := by
  simp [DagState.unblocked]

theorem relax_war {n d : Nat} (hf : FrontierOk n s.val) (hd : s.val.committed d = false) (hdn : d < n)
    (hwd : 0 < s.val.war d) (unlocked : List Nat) :
    ∃ t u, relax (s, unlocked) (d, 0) = (t, u) ∧ t.val.committed = s.val.committed ∧ t.val.raw = s.val.raw ∧
      t.val.pending = s.val.pending ∧ t.val.war = Function.update s.val.war d (s.val.war d - 1) ∧
      FrontierOk n t.val := by
  have hnf : s.val.frontier d = false := by
    rw [← Bool.not_eq_true, hf d]
    omega
  simp only [relax, hd, Bool.false_eq_true, if_false, if_true]
  split
  · next hun =>
      refine ⟨_, _, rfl, rfl, rfl, rfl, rfl, fun i => ?_⟩
      rw [Bool.and_eq_true, DagState.unblocked_iff] at hun
      by_cases hi : i = d
      · subst hi
        simpa [addFrontier, hdn, hd] using hun.1
      · simpa [addFrontier, hi] using hf i
  · next hun =>
      refine ⟨_, _, rfl, rfl, rfl, rfl, rfl, fun i => ?_⟩
      rw [Bool.and_eq_true, DagState.unblocked_iff] at hun
      by_cases hi : i = d
      · subst hi
        simp only [Logged.record_val, hnf, Bool.not_false, and_true] at hun ⊢
        simp only [Bool.false_eq_true, false_iff]
        exact fun h => hun h.2.2
      · simpa [hi] using hf i

/-- Relaxing edges to uncommitted nodes lowers their counters and keeps the frontier in step. -/
theorem relax_foldl {n : Nat} (es : List (Nat × Nat)) (s : Log) (unlocked : List Nat) (hf : FrontierOk n s.val)
    (hes : ∀ e ∈ es, s.val.committed e.1 = false ∧ e.1 < n ∧ (e.2 = 0 ∨ e.2 = 1))
    (hwar : ∀ j, (es.count (j, 0) : Int) ≤ s.val.war j) :
    ∃ t u, es.foldl relax (s, unlocked) = (t, u) ∧ t.val.committed = s.val.committed ∧ t.val.raw = s.val.raw ∧
      (∀ j, t.val.pending j = s.val.pending j + es.count (j, 1)) ∧
      (∀ j, t.val.war j = s.val.war j - es.count (j, 0)) ∧ FrontierOk n t.val := by
  induction es generalizing s unlocked with
  | nil => exact ⟨s, unlocked, rfl, rfl, rfl, fun j => by simp, fun j => by simp, hf⟩
  | cons e es ih =>
      obtain ⟨d, w⟩ := e
      obtain ⟨hd, hdn, hw⟩ := hes (d, w) (by simp)
      have hes' : ∀ e ∈ es, s.val.committed e.1 = false ∧ e.1 < n ∧ (e.2 = 0 ∨ e.2 = 1) :=
        fun e he => hes e (by simp [he])
      have hcount : ∀ j v, List.count (j, v) ((d, w) :: es) = es.count (j, v) + if j = d ∧ v = w then 1 else 0 := by
        intro j v
        simp only [List.count_cons, beq_iff_eq, Prod.mk.injEq, @eq_comm _ d, @eq_comm _ w]
      simp only [List.foldl_cons]
      simp only [hcount] at hwar ⊢
      rcases hw with rfl | rfl
      · obtain ⟨t, u, ht, hc, hr, hp, hwt, hft⟩ := relax_war hf hd hdn (by
          have := hwar d
          simp only [and_self, if_true] at this
          show 0 < s.val.war d
          omega) unlocked
        obtain ⟨t', u', ht', hc', hr', hp', hw', hft'⟩ := ih t u hft (by simpa only [hc] using hes') (by
          intro j
          have := hwar j
          rw [hwt]
          by_cases hj : j = d
          · subst hj
            simp only [and_self, if_true, Function.update_self] at this ⊢
            omega
          · simpa [hj] using this)
        refine ⟨t', u', by rw [ht, ht'], hc'.trans hc, hr'.trans hr, fun j => ?_, fun j => ?_, hft'⟩
        · simp [hp', hp]
        · rw [hw', hwt]
          by_cases hj : j = d
          · subst hj
            simp only [and_self, if_true, Function.update_self]
            omega
          · simp [hj]
      · have ht : relax (s, unlocked) (d, 1) = (s.record
            { s.val with pending := Function.update s.val.pending d (s.val.pending d + 1) } (.P d), unlocked) := by
          simp [relax, hd]
        obtain ⟨t', u', ht', hc', hr', hp', hw', hft'⟩ := ih (s.record
            { s.val with pending := Function.update s.val.pending d (s.val.pending d + 1) } (.P d)) unlocked
          hf hes' (by simpa using hwar)
        refine ⟨t', u', by rw [ht, ht'], hc', hr', fun j => ?_, fun j => ?_, hft'⟩
        · rw [hp']
          by_cases hj : j = d
          · subst hj
            simp only [and_self, if_true, Logged.record_val, Function.update_self]
            omega
          · simp [hj]
        · simpa using hw' j

theorem countP_or_disjoint {α : Type} {p q : α → Bool} (l : List α) (h : ∀ a ∈ l, ¬ (p a ∧ q a)) :
    l.countP (fun a => p a || q a) = l.countP p + l.countP q := by
  induction l with
  | nil => rfl
  | cons a l ih =>
      have := h a (by simp)
      have := ih fun a ha => h a (by simp [ha])
      simp only [List.countP_cons]
      cases hp : p a <;> cases hq : q a <;> simp_all <;> omega

theorem Inv.commit {prev : Nat → Bool} (hw : WellFormed nodes) (h : Inv nodes prev s.val)
    (hi : s.val.frontier i = true) :
    (commit nodes s i).1.val.committed = Function.update s.val.committed i true ∧
      Inv nodes prev (commit nodes s i).1.val := by
  obtain ⟨hin, hci, hpre⟩ := h.frontier_iff.mp hi
  have hpi : prev i = false := by
    rw [← Bool.not_eq_true]
    intro hp
    simp [h.prev_committed hp] at hci
  set s₁ : Log := (s.record { s.val with committed := Function.update s.val.committed i true } (.C i)).record
    { s.val with committed := Function.update s.val.committed i true
                 frontier := Function.update s.val.frontier i false } (.Fdel i) with hs₁
  have hcommit : Dag.commit nodes s i = (outEdges nodes i).foldl relax (s₁, []) := by
    simp [Dag.commit, hi, hs₁]
  have hv₁ : s₁.val = { s.val with committed := Function.update s.val.committed i true
                                   frontier := Function.update s.val.frontier i false } := rfl
  have hf₁ : FrontierOk nodes.length s₁.val := by
    intro j
    rw [hv₁]
    by_cases hj : j = i
    · subst hj
      simp
    · simpa [hj] using h.frontier j
  obtain ⟨t, u, ht, hc, hr, hp, hwr, hft⟩ := relax_foldl (outEdges nodes i) s₁ [] hf₁ (by
    rintro ⟨j, w⟩ he
    have hj := hw.mem_outEdges.mp he
    have hij := hw.lt hj
    refine ⟨?_, length_of_mem_inEdges hj, (hw.weight hj :)⟩
    have hne : j ≠ i := Nat.ne_of_gt hij
    simp only [hv₁, Function.update_of_ne hne]
    rw [← Bool.not_eq_true]
    intro hcj
    simp [((h.closed hcj).2 _ hj).1] at hci) (by
    intro j
    rw [hv₁, h.war, hw.mirror, List.count_eq_countP]
    refine Int.ofNat_le.mpr (List.countP_mono_left fun e _ he => ?_)
    obtain rfl := eq_of_beq he
    simp [hci])
  rw [hcommit, ht]
  have hcomm : t.val.committed = Function.update s.val.committed i true := by rw [hc, hv₁]
  refine ⟨hcomm, ?_⟩
  have hnew : ∀ j w, (inEdges nodes j).countP (fun e => e.2 = w && e.1 = i) = (inEdges nodes j).count (i, w) := by
    intro j w
    rw [List.count_eq_countP]
    refine List.countP_congr fun e _ => ?_
    simp [Prod.ext_iff, and_comm]
  have hupd : ∀ k, t.val.committed k = (s.val.committed k || k = i) := by
    intro k
    by_cases hk : k = i <;> simp [hcomm, hk]
  constructor
  case raw => intro j; rw [hr, hv₁]; exact h.raw j
  case pending =>
    intro j
    rw [hp, hv₁, h.pending, hw.mirror, ← hnew, ← Nat.cast_add, ← countP_or_disjoint]
    · congr 1
      refine List.countP_congr fun e _ => ?_
      rw [hupd]
      by_cases he : e.1 = i
      · simp [he, hci, hpi]
      · simp [he]
    · rintro e _ ⟨h₁, h₂⟩
      simp only [Bool.and_eq_true, decide_eq_true_eq] at h₁ h₂
      rw [h₂.2, hci] at h₁
      exact absurd h₁.2.1 (by simp)
  case war =>
    intro j
    rw [hwr, hv₁, h.war, hw.mirror, ← hnew, sub_eq_iff_eq_add, ← Nat.cast_add, ← countP_or_disjoint]
    · congr 1
      refine List.countP_congr fun e _ => ?_
      rw [hupd]
      by_cases he : e.1 = i
      · simp [he, hci]
      · simp [he]
    · rintro e _ ⟨h₁, h₂⟩
      simp only [Bool.and_eq_true, decide_eq_true_eq] at h₁ h₂
      rw [hupd, h₂.2] at h₁
      simp at h₁
  case frontier => exact hft
  case prev_committed =>
    intro k hk
    simp [hupd, h.prev_committed hk]
  case closed =>
    intro k hk
    rw [hupd, Bool.or_eq_true, decide_eq_true_eq] at hk
    rcases hk with hk | rfl
    · obtain ⟨hkn, hk⟩ := h.closed hk
      exact ⟨hkn, fun e he => ⟨by simp [hupd, (hk e he).1], (hk e he).2⟩⟩
    · refine ⟨hin, fun e he => ⟨?_, (hpre e he).2⟩⟩
      rw [hupd, Bool.or_eq_true]
      rcases hw.weight he with h0 | h1
      · exact .inl ((hpre e he).1 h0)
      · exact .inl (h.prev_committed ((hpre e he).2 h1))

theorem resolve_step {n : Nat} (hf : FrontierOk n s.val) (hp : s.val.pending i ≠ 0 → s.val.raw i ≠ 0 ∧ i < n)
    (unlocked : List Nat) :
    ∃ t u, resolve (s, unlocked) i = (t, u) ∧ t.val.committed = s.val.committed ∧ t.val.war = s.val.war ∧
      t.val.raw = Function.update s.val.raw i (s.val.raw i - s.val.pending i) ∧
      t.val.pending = Function.update s.val.pending i 0 ∧ FrontierOk n t.val := by
  simp only [resolve]
  split
  · next h0 =>
      refine ⟨s, unlocked, rfl, rfl, rfl, ?_, ?_, hf⟩
      · simp [h0]
      · simp [← h0]
  · next h0 =>
      obtain ⟨hr, hin⟩ := hp h0
      have hnf : s.val.frontier i = false := by
        rw [← Bool.not_eq_true, hf i]
        exact fun h => hr h.2.2.1
      split
      · next hun =>
          refine ⟨_, _, rfl, rfl, rfl, rfl, rfl, fun j => ?_⟩
          rw [Bool.and_eq_true, Bool.and_eq_true, DagState.unblocked_iff] at hun
          by_cases hj : j = i
          · subst hj
            simpa [addFrontier, hin] using hun.1
          · simpa [addFrontier, hj] using hf j
      · next hun =>
          refine ⟨_, _, rfl, rfl, rfl, rfl, rfl, fun j => ?_⟩
          rw [Bool.and_eq_true, Bool.and_eq_true, DagState.unblocked_iff] at hun
          by_cases hj : j = i
          · subst hj
            simp only [Logged.record_val, hnf, Bool.not_false, and_true, Bool.not_eq_true'] at hun ⊢
            simp only [Bool.false_eq_true, false_iff]
            exact fun h => hun h.2
          · simpa [hj] using hf j

theorem resolve_foldl {n : Nat} (l : List Nat) (s : Log) (unlocked : List Nat) (hf : FrontierOk n s.val)
    (hp : ∀ i, s.val.pending i ≠ 0 → s.val.raw i ≠ 0 ∧ i < n) :
    ∃ t u, l.foldl resolve (s, unlocked) = (t, u) ∧ t.val.committed = s.val.committed ∧ t.val.war = s.val.war ∧
      (∀ j, t.val.raw j = if j ∈ l then s.val.raw j - s.val.pending j else s.val.raw j) ∧
      (∀ j, t.val.pending j = if j ∈ l then 0 else s.val.pending j) ∧ FrontierOk n t.val := by
  induction l generalizing s unlocked with
  | nil => exact ⟨s, unlocked, rfl, rfl, rfl, fun j => by simp, fun j => by simp, hf⟩
  | cons i l ih =>
      obtain ⟨t, u, ht, hc, hw, hr, hpe, hft⟩ := resolve_step hf (hp i) unlocked
      obtain ⟨t', u', ht', hc', hw', hr', hp', hft'⟩ := ih t u hft (by
        intro j
        rw [hr, hpe]
        by_cases hj : j = i
        · simp [hj]
        · simpa [hj] using hp j)
      refine ⟨t', u', by rw [List.foldl_cons, ht, ht'], hc'.trans hc, hw'.trans hw, fun j => ?_, fun j => ?_, hft'⟩
      · rw [hr', hr, hpe]
        by_cases hj : j = i <;> simp [hj]
      · rw [hp', hpe]
        by_cases hj : j = i <;> simp [hj]

/-- Between two cycles nothing is pending, and `advance` does nothing. -/
theorem Inv.advance_settled (h : Inv nodes s.val.committed s.val) (n : Nat) : (advance n s).1 = s := by
  have hpending : ∀ i, s.val.pending i = 0 := by
    intro i
    rw [h.pending, Nat.cast_eq_zero, List.countP_eq_zero]
    simp
  have hfold : ∀ (l : List Nat) (unlocked : List Nat), l.foldl resolve (s, unlocked) = (s, unlocked) := by
    intro l
    induction l with
    | nil => exact fun _ => rfl
    | cons i l ih =>
        intro unlocked
        rw [List.foldl_cons, show resolve (s, unlocked) i = (s, unlocked) by simp [resolve, hpending], ih]
  rw [advance, hfold]

/-- The end of a cycle: everything committed so far is now resolved. -/
theorem Inv.advance {prev : Nat → Bool} (h : Inv nodes prev s.val) :
    (advance nodes.length s).1.val.committed = s.val.committed ∧
      Inv nodes s.val.committed (advance nodes.length s).1.val := by
  have hsplit : ∀ i, (inEdges nodes i).countP (fun e => e.2 = 1 && !prev e.1) =
      (inEdges nodes i).countP (fun e => e.2 = 1 && (s.val.committed e.1 && !prev e.1)) +
        (inEdges nodes i).countP (fun e => e.2 = 1 && !s.val.committed e.1) := by
    intro i
    rw [← countP_or_disjoint]
    · refine List.countP_congr fun e _ => ?_
      have hpc := h.prev_committed (i := e.1)
      cases hp : prev e.1 <;> cases hc : s.val.committed e.1 <;> simp_all
    · rintro e _ ⟨h₁, h₂⟩
      simp only [Bool.and_eq_true, Bool.not_eq_true'] at h₁ h₂
      rw [h₂.2] at h₁
      exact absurd h₁.2.1 (by simp)
  obtain ⟨t, u, ht, hc, hwr, hr, hp, hft⟩ := resolve_foldl (List.range nodes.length) s [] h.frontier (by
    intro i hi
    rw [h.pending] at hi
    refine ⟨?_, ?_⟩
    · rw [h.raw, hsplit]
      omega
    · have hpos : 0 < (inEdges nodes i).countP (fun e => e.2 = 1 && (s.val.committed e.1 && !prev e.1)) := by omega
      obtain ⟨e, he, -⟩ := List.countP_pos_iff.mp hpos
      exact length_of_mem_inEdges he)
  rw [Dag.advance, ht]
  have hout : ∀ i, ¬ i < nodes.length → inEdges nodes i = [] := by
    intro i hi
    simp [inEdges, List.getElem?_eq_none (Nat.le_of_not_lt hi)]
  refine ⟨hc, ?_⟩
  constructor
  case raw =>
    intro i
    rw [hr, h.raw, h.pending, hsplit]
    by_cases hi : i < nodes.length
    · simp only [List.mem_range, hi, if_true]
      omega
    · simp [hout i hi]
  case pending =>
    intro i
    rw [hp, h.pending, hc]
    by_cases hi : i < nodes.length
    · simp [hi]
    · simp [hout i hi]
  case war => intro i; rw [hwr, hc]; exact h.war i
  case frontier => exact hft
  case prev_committed => intro i hi; rw [hc]; exact hi
  case closed =>
    intro i hi
    rw [hc] at hi ⊢
    obtain ⟨hin, he⟩ := h.closed hi
    exact ⟨hin, fun e hm => ⟨(he e hm).1, fun _ => (he e hm).1⟩⟩

end Dag
end Vliw
