import VliwKernel.Scheduler.Protocol

/-!
# Rolling the graph back

A rollback restores the counters and the frontier as they were when its token was taken, whatever was committed and
advanced since. Nested checkpoints compose as long as no inner one has token zero: the rollback to zero closes the
log over the outer one as well.
-/

namespace Vliw
namespace Dag

variable {nodes : List DNode} {s t u : Log} {i : Nat} {acc : Log × List Nat}

section apart

/-- No committed node is in the frontier. -/
def Apart (s : DagState) : Prop := ∀ i, s.frontier i = true → s.committed i = false

theorem Apart.initial (nodes : List DNode) : Apart (.initial nodes) := fun _ _ => rfl

theorem Apart.addFrontier (h : Apart s.val) (hc : s.val.committed i = false) : Apart (addFrontier s i).val := by
  intro j hj
  by_cases hji : j = i
  · rw [hji]
    exact hc
  · simp only [Dag.addFrontier, Logged.record_val, Function.update_of_ne hji] at hj
    exact h j hj

theorem Apart.congr {s t : DagState} (h : Apart s) (hf : t.frontier = s.frontier) (hc : t.committed = s.committed) : Apart t := by
  intro i hi
  rw [hc]
  exact h i (hf ▸ hi)

theorem Apart.relax (h : Apart acc.1.val) (e : Nat × Nat) : Apart (relax acc e).1.val := by
  obtain ⟨s, unlocked⟩ := acc
  obtain ⟨dst, w⟩ := e
  simp only [Dag.relax]
  split
  · exact h
  · next hc =>
      split
      · split
        · exact Apart.addFrontier (h.congr rfl rfl) (Bool.eq_false_iff.mpr hc)
        · exact h.congr rfl rfl
      · exact h.congr rfl rfl

theorem Apart.resolve (h : Apart acc.1.val) (i : Nat) : Apart (resolve acc i).1.val := by
  obtain ⟨s, unlocked⟩ := acc
  simp only [Dag.resolve]
  split
  · exact h
  · split
    · next hready =>
        simp only [Logged.record_val, Bool.and_eq_true, Bool.not_eq_true'] at hready
        exact Apart.addFrontier (h.congr rfl rfl) hready.1.1
    · exact h.congr rfl rfl

theorem Apart.foldl {α : Type} {step : Log × List Nat → α → Log × List Nat}
    (hstep : ∀ {acc}, Apart acc.1.val → ∀ a, Apart (step acc a).1.val) (l : List α) (h : Apart acc.1.val) :
    Apart (l.foldl step acc).1.val := by
  induction l generalizing acc with
  | nil => exact h
  | cons a l ih => exact ih (hstep h a)

theorem Apart.commit (h : Apart s.val) (i : Nat) : Apart (commit nodes s i).1.val := by
  refine Apart.foldl Apart.relax _ ?_
  intro j hj
  by_cases hji : j = i
  · subst hji
    exfalso
    revert hj
    cases hf : s.val.frontier j <;> simp [hf]
  · have hj' : s.val.frontier j = true := by
      revert hj
      cases hf : s.val.frontier i <;> simp [hf, hji]
    have := h j hj'
    cases hf : s.val.frontier i <;> simp [hf, hji, this]

theorem Apart.advance (h : Apart s.val) (n : Nat) : Apart (advance n s).1.val := Apart.foldl Apart.resolve _ h

end apart
section window

/-- A commit of a ready node, the end of a cycle, or another checkpoint. -/
inductive DagOp | commit (idx : Nat) | advance | checkpoint

def DagOp.run (nodes : List DNode) (s : Log) : DagOp → Log
  | .commit i => (Dag.commit nodes s i).1
  | .advance => (Dag.advance nodes.length s).1
  | .checkpoint => s.checkpoint.2

def DagOp.Enabled (s : Log) : DagOp → Prop
  | .commit i => s.val.frontier i = true
  | .advance | .checkpoint => True

inductive OpRun (nodes : List DNode) : Log → List DagOp → Log → Prop
  | nil {s : Log} : OpRun nodes s [] s
  | cons {s t : Log} {op : DagOp} {ops : List DagOp} : op.Enabled s → OpRun nodes (op.run nodes s) ops t → OpRun nodes s (op :: ops) t

theorem DagOp.apart {op : DagOp} (h : Apart s.val) : Apart (op.run nodes s).val := by
  cases op with
  | commit i => exact h.commit i
  | advance => exact h.advance nodes.length
  | checkpoint => exact h

theorem DagOp.undoes {op : DagOp} (h : Apart s.val) (hs : s.log ≠ none) (he : op.Enabled s) : Undoes s (op.run nodes s) := by
  cases op with
  | commit i => exact commit_undoes (h i he)
  | advance => exact advance_undoes nodes.length s
  | checkpoint =>
      rw [run, Logged.checkpoint_open hs]
      exact .refl s

variable {ops : List DagOp}

theorem OpRun.apart (hr : OpRun nodes s ops t) (h : Apart s.val) : Apart t.val := by
  induction hr with
  | nil => exact h
  | cons _ _ ih => exact ih (DagOp.apart h)

theorem OpRun.undoes (hr : OpRun nodes s ops t) (h : Apart s.val) (hs : s.log ≠ none) : Undoes s t := by
  induction hr with
  | nil => exact .refl _
  | cons he _ ih =>
      have hop : Undoes _ (DagOp.run nodes _ _) := DagOp.undoes h hs he
      exact hop.trans (ih (DagOp.apart h) (hop.log_ne_none hs))

theorem fromNodes_st {dag : Dag} (h : fromNodes nodes = .ok dag) : dag.st = ⟨.initial nodes, none⟩ := by
  unfold fromNodes at h
  split at h
  · split at h
    · cases h
    · cases h
      rfl
  · cases h

/-- A rollback restores the state in which its token was taken. -/
theorem rollback_exact {dag : Dag} (hdag : fromNodes nodes = .ok dag) {before after : List DagOp} (hs : OpRun nodes dag.st before s)
    (hu : OpRun nodes s.checkpoint.2 after u) : ∃ d, Dag.rollback s.checkpoint.1 u = .ok d ∧ d.val = s.val := by
  have hapart : Apart s.val := hs.apart (by rw [fromNodes_st hdag]; exact .initial nodes)
  obtain ⟨v, hv, hroll⟩ := Logged.rollback_of_reverts PyErr.assertion (hu.undoes hapart (by simp [Logged.checkpoint]))
  exact ⟨_, hroll, hv⟩

/-- A node with a WAR child and a RAW child, which also waits for the other. -/
def diamond : List DNode :=
  [⟨0, ⟨0, .const (.sym ⟨"x", false⟩) 1⟩, [], [(1, 0), (2, 1)]⟩, ⟨1, ⟨1, .const (.sym ⟨"y", false⟩) 2⟩, [(0, 0)], [(2, 1)]⟩,
    ⟨2, ⟨2, .const (.sym ⟨"z", false⟩) 3⟩, [(0, 1), (1, 1)], []⟩]

/-- All the nodes are committed over a token taken after the first, and taken back. -/
theorem rollback_exact_diamond : ∃ dag s u d, fromNodes diamond = .ok dag ∧ OpRun diamond dag.st [.commit 0] s ∧
    OpRun diamond s.checkpoint.2 [.commit 1, .advance, .checkpoint, .commit 2] u ∧ u.val.committed 2 = true ∧
    Dag.rollback s.checkpoint.1 u = .ok d ∧ d.val = s.val := by
  obtain ⟨dag, hdag⟩ : ∃ dag, fromNodes diamond = .ok dag := ⟨_, rfl⟩
  have hst := fromNodes_st hdag
  have hbefore : OpRun diamond dag.st [.commit 0] (commit diamond dag.st 0).1 := .cons (by rw [hst]; rfl) .nil
  have hafter : OpRun diamond (commit diamond dag.st 0).1.checkpoint.2 [.commit 1, .advance, .checkpoint, .commit 2] _ :=
    .cons (by rw [hst]; rfl) (.cons trivial (.cons trivial (.cons (by rw [hst]; rfl) .nil)))
  obtain ⟨d, hd, hval⟩ := rollback_exact hdag hbefore hafter
  exact ⟨dag, _, _, d, hdag, hbefore, hafter, by rw [hst]; decide +kernel, hd, hval⟩

end window
section nested

/-- The graph and the tokens not yet rolled back, newest first, each with the state it was taken in. -/
structure Session where
  dag : Log
  tokens : List (Nat × DagState)

/-- What a well-bracketed sequence reaches, every rollback being to the newest token, in a session in which `P` holds. -/
inductive Session.Reaches (nodes : List DNode) (P : Session → Prop) (s₀ : Log) : Session → Prop
  | start : Reaches nodes P s₀ ⟨s₀, []⟩
  | commit {s : Session} {i : Nat} : Reaches nodes P s₀ s → s.dag.val.frontier i = true →
      Reaches nodes P s₀ ⟨(Dag.commit nodes s.dag i).1, s.tokens⟩
  | advance {s : Session} : Reaches nodes P s₀ s → Reaches nodes P s₀ ⟨(Dag.advance nodes.length s.dag).1, s.tokens⟩
  | checkpoint {s : Session} : Reaches nodes P s₀ s →
      Reaches nodes P s₀ ⟨s.dag.checkpoint.2, (s.dag.checkpoint.1, s.dag.val) :: s.tokens⟩
  | rollback {s : Session} {token : Nat} {v : DagState} {tokens : List (Nat × DagState)} {d : Log} : Reaches nodes P s₀ s →
      s.tokens = (token, v) :: tokens → P s → Dag.rollback token s.dag = .ok d → Reaches nodes P s₀ ⟨d, tokens⟩

/-- The rollback to the newest token succeeds and restores the state it was taken in. -/
def Session.Restores (s : Session) : Prop :=
  ∀ {token v tokens}, s.tokens = (token, v) :: tokens → ∃ d, Dag.rollback token s.dag = .ok d ∧ d.val = v

/-- The newest token is not zero, or the only one. -/
def Session.Guarded (s : Session) : Prop := ∀ {token v tokens}, s.tokens = (token, v) :: tokens → token ≠ 0 ∨ tokens = []

/-- What holds as long as every rollback is guarded. -/
structure Session.Sound (s : Session) : Prop where
  windows : Logged.Windows DagEntry.undo s.dag s.tokens
  apart : Apart s.dag.val
  taken : ∀ p ∈ s.tokens, Apart p.2

theorem Session.Sound.restores {s : Session} (h : s.Sound) : s.Restores := by
  intro token v tokens ht
  have hw := h.windows
  rw [ht] at hw
  obtain ⟨d, hd, hv, -⟩ := hw.rollback PyErr.assertion
  exact ⟨d, hd, hv⟩

theorem Session.Reaches.sound {s₀ : Log} {s : Session} (h₀ : s₀ = ⟨.initial nodes, none⟩) (h : Reaches nodes Session.Guarded s₀ s) :
    s.Sound := by
  induction h with
  | start =>
      subst h₀
      exact ⟨.closed rfl, .initial nodes, by simp⟩
  | @commit s i _ hi ih => exact ⟨ih.windows.step (commit_undoes (ih.apart i hi)), ih.apart.commit i, ih.taken⟩
  | advance _ ih => exact ⟨ih.windows.step (advance_undoes _ _), ih.apart.advance _, ih.taken⟩
  | checkpoint _ ih => exact ⟨ih.windows.checkpoint, ih.apart, List.forall_mem_cons.mpr ⟨ih.apart, ih.taken⟩⟩
  | @rollback s token v tokens d _ ht hg hd ih =>
      have hw := ih.windows
      rw [ht] at hw
      obtain ⟨d', hd', rfl, hrest⟩ := hw.rollback PyErr.assertion
      cases hd.symm.trans hd'
      have htaken := ih.taken
      rw [ht] at htaken
      obtain ⟨hv, htaken⟩ := List.forall_mem_cons.mp htaken
      exact ⟨hrest (hg ht), hv, htaken⟩

/-- Nested rollbacks restore as long as no inner token is zero; one to an inner token zero leaves an outer token that
cannot be rolled back. -/
theorem nested_rollback {dag : Dag} (hdag : fromNodes nodes = .ok dag) {s : Session} (h : Session.Reaches nodes Session.Guarded dag.st s) :
    s.Restores ∧ ∀ {token v tokens d}, s.tokens = (token, v) :: tokens → Dag.rollback token s.dag = .ok d →
      ((⟨d, tokens⟩ : Session).Restores ↔ s.Guarded) := by
  have hsound := h.sound (fromNodes_st hdag)
  refine ⟨hsound.restores, fun {token v tokens d} ht hd => ⟨fun hrest => ?_, fun hg => ?_⟩⟩
  · intro token' v' tokens' ht'
    cases ht.symm.trans ht'
    by_contra hinner
    push Not at hinner
    obtain ⟨rfl, hne⟩ := hinner
    cases tokens with
    | nil => exact hne rfl
    | cons p tokens =>
        obtain ⟨outerToken, outerState⟩ := p
        obtain ⟨outer, hout, -⟩ := hrest rfl
        rw [Dag.rollback, Logged.rollback_zero hd] at hout
        cases hout
  · exact (Session.Reaches.rollback h ht hg hd).sound (fromNodes_st hdag) |>.restores

/-- An inner token taken after a commit is rolled back, then the outer one. -/
theorem nested_rollback_diamond : ∃ dag s d token v, fromNodes diamond = .ok dag ∧ Session.Reaches diamond Session.Guarded dag.st s ∧
    s.tokens = [(token, v)] ∧ s.dag.val.committed 0 = true ∧ Dag.rollback token s.dag = .ok d ∧ d.val = .initial diamond := by
  obtain ⟨dag, hdag⟩ : ∃ dag, fromNodes diamond = .ok dag := ⟨_, rfl⟩
  have hst := fromNodes_st hdag
  have hopen : Session.Reaches diamond Session.Guarded dag.st _ := .commit (.checkpoint .start) (show dag.st.val.frontier 0 = true by rw [hst]; rfl)
  have hinner := Session.Reaches.advance (.commit (.checkpoint hopen) (i := 1) (by rw [hst]; rfl))
  obtain ⟨inner, hroll, hval⟩ := (nested_rollback hdag hinner).1 rfl
  have houter := Session.Reaches.rollback hinner rfl (fun ht => by cases ht; exact .inl (by rw [hst]; decide +kernel)) hroll
  obtain ⟨d, hd, hinit⟩ := (nested_rollback hdag houter).1 rfl
  exact ⟨dag, _, d, _, _, hdag, houter, rfl, by rw [hval, hst]; rfl, hd, by rw [hinit, hst]⟩

/-- Two checkpoints in a row have token zero. The rollback to the second closes the log, and after the next commit the first
cannot be rolled back. -/
theorem nested_rollback_zero : ∃ dag s, fromNodes diamond = .ok dag ∧ Session.Reaches diamond (fun _ => True) dag.st s ∧
    s.tokens = [(0, .initial diamond)] ∧ s.dag.val.committed 0 = true ∧ Dag.rollback 0 s.dag = .error .assertion ∧ ¬ s.Restores := by
  obtain ⟨dag, hdag⟩ : ∃ dag, fromNodes diamond = .ok dag := ⟨_, rfl⟩
  have hst := fromNodes_st hdag
  have htwice : Session.Reaches diamond (fun _ => True) dag.st _ := .checkpoint (.checkpoint .start)
  have hinner : Session.Reaches diamond (fun _ => True) dag.st ⟨⟨.initial diamond, none⟩, [(0, .initial diamond)]⟩ := by
    rw [hst] at htwice ⊢
    exact .rollback htwice rfl trivial rfl
  have hraise : Dag.rollback 0 (Dag.commit diamond ⟨.initial diamond, none⟩ 0).1 = .error .assertion := rfl
  refine ⟨dag, _, hdag, .commit (i := 0) hinner rfl, rfl, rfl, hraise, fun hrest => ?_⟩
  obtain ⟨d, hd, -⟩ := hrest rfl
  cases hraise.symm.trans hd

end nested
end Dag
end Vliw
