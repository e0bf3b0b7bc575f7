import VliwKernel.Scheduler.Frontier
import Mathlib.Data.Nat.Find

/-!
# Runs of the frontier protocol

Any sequence of commits of ready nodes and ends of cycles. The lists that the two operations return are the
nodes they make ready, and after the end of a cycle some uncommitted node is ready.
-/

namespace Vliw
namespace Dag

variable {nodes : List DNode} {s : Log} {prev : Nat → Bool} {i : Nat}

theorem WellFormed.of_listed (hidx : ∀ i < nodes.length, ∀ n ∈ nodes[i]?, n.idx = i)
    (hin : ∀ i < nodes.length, ∀ e ∈ inEdges nodes i, (e.2 = 0 ∨ e.2 = 1) ∧ e.1 < i ∧
      (outEdges nodes e.1).count (i, e.2) = (inEdges nodes i).count e)
    (hout : ∀ i < nodes.length, ∀ e ∈ outEdges nodes i, (outEdges nodes i).count e = (inEdges nodes e.1).count (i, e.2)) :
    WellFormed nodes where
  idx := fun {i n} hn => hidx i (List.getElem?_eq_some_iff.mp hn).1 n hn
  weight := fun {i e} he => (hin i (length_of_mem_inEdges he) e he).1
  lt := fun {i e} he => (hin i (length_of_mem_inEdges he) e he).2.1
  mirror := by
    intro i j w
    by_cases hj : (i, w) ∈ inEdges nodes j
    · exact (hin j (length_of_mem_inEdges hj) _ hj).2.2
    · by_cases hi : (j, w) ∈ outEdges nodes i
      · refine hout i ?_ _ hi
        by_contra hn
        simp [outEdges, List.getElem?_eq_none (Nat.le_of_not_lt hn)] at hi
      · rw [List.count_eq_zero.mpr hi, List.count_eq_zero.mpr hj]

instance (nodes : List DNode) : Decidable (WellFormed nodes) :=
  decidable_of_iff ((∀ i < nodes.length, ∀ n ∈ nodes[i]?, n.idx = i) ∧
      (∀ i < nodes.length, ∀ e ∈ inEdges nodes i, (e.2 = 0 ∨ e.2 = 1) ∧ e.1 < i ∧
        (outEdges nodes e.1).count (i, e.2) = (inEdges nodes i).count e) ∧
      ∀ i < nodes.length, ∀ e ∈ outEdges nodes i, (outEdges nodes i).count e = (inEdges nodes e.1).count (i, e.2)) <| by
    refine ⟨fun h => .of_listed h.1 h.2.1 h.2.2, fun h => ⟨fun i _ n hn => h.idx hn, fun i _ e he => ?_, fun i _ e _ => ?_⟩⟩
    · exact ⟨h.weight he, h.lt he, h.mirror e.1 i e.2⟩
    · exact h.mirror i e.1 e.2

/-- What a graph goes through, `prev` being what was committed before the last `advance`. -/
inductive Run (nodes : List DNode) (s₀ : Log) : (Nat → Bool) → Log → Prop
  | start : Run nodes s₀ (fun _ => false) s₀
  | commit {prev : Nat → Bool} {s : Log} {i : Nat} : Run nodes s₀ prev s → s.val.frontier i = true →
      Run nodes s₀ prev (commit nodes s i).1
  | advance {prev : Nat → Bool} {s : Log} : Run nodes s₀ prev s → Run nodes s₀ s.val.committed (advance nodes.length s).1

theorem Run.inv {s₀ : Log} (hw : WellFormed nodes) (h₀ : s₀.val = .initial nodes) (h : Run nodes s₀ prev s) :
    Inv nodes prev s.val := by
  induction h with
  | start =>
      rw [h₀]
      exact initial_inv
  | commit _ hi ih => exact (ih.commit hw hi).2
  | advance _ ih => exact ih.advance.2

section added

/-- `added` are the nodes that have come into the frontier since it was `f`. -/
structure Grown (f : Nat → Bool) (acc : Log × List Nat) : Prop where
  nodup : acc.2.Nodup
  mem : ∀ j, acc.1.val.frontier j = (f j || decide (j ∈ acc.2))
  new : ∀ j ∈ acc.2, f j = false

variable {f : Nat → Bool} {acc : Log × List Nat}

theorem Grown.add (h : Grown f acc) (hi : acc.1.val.frontier i = false) {t : Log} (ht : t.val.frontier = acc.1.val.frontier) :
    Grown f (addFrontier t i, acc.2 ++ [i]) := by
  rw [h.mem, Bool.or_eq_false_iff, decide_eq_false_iff_not] at hi
  refine ⟨List.nodup_append.mpr ⟨h.nodup, by simp, fun a ha b hb hab => hi.2 ?_⟩, fun j => ?_, fun j hj => ?_⟩
  · rwa [← List.mem_singleton.mp hb, ← hab]
  · by_cases hj : j = i
    · simp [addFrontier, hj]
    · simp [addFrontier, hj, ht, h.mem]
  · rcases List.mem_append.mp hj with hj | hj
    · exact h.new j hj
    · rw [List.mem_singleton.mp hj]
      exact hi.1

theorem Grown.congr {s t : Log} {unlocked : List Nat} (h : Grown f (s, unlocked)) (ht : t.val.frontier = s.val.frontier) :
    Grown f (t, unlocked) := ⟨h.nodup, fun j => by rw [ht]; exact h.mem j, h.new⟩

theorem Grown.relax (h : Grown f acc) (e : Nat × Nat) : Grown f (relax acc e) := by
  obtain ⟨s, unlocked⟩ := acc
  obtain ⟨dst, w⟩ := e
  simp only [Dag.relax]
  split
  · exact h
  · split
    · split
      · next hun =>
          simp only [Logged.record_val, Bool.and_eq_true, Bool.not_eq_true'] at hun
          exact h.add hun.2 rfl
      · exact h.congr rfl
    · exact h.congr rfl

theorem Grown.resolve (h : Grown f acc) (i : Nat) : Grown f (resolve acc i) := by
  obtain ⟨s, unlocked⟩ := acc
  simp only [Dag.resolve]
  split
  · exact h
  · split
    · next hun =>
        simp only [Logged.record_val, Bool.and_eq_true, Bool.not_eq_true'] at hun
        exact h.add hun.2 rfl
    · exact h.congr rfl

theorem Grown.foldl {α : Type} {step : Log × List Nat → α → Log × List Nat} (hstep : ∀ {acc}, Grown f acc → ∀ a, Grown f (step acc a))
    (l : List α) (h : Grown f acc) : Grown f (l.foldl step acc) := by
  induction l generalizing acc with
  | nil => exact h
  | cons a l ih => exact ih (hstep h a)

/-- The returned list is, without repetition, what the operation has added to the frontier. -/
structure ReturnsAdded (s : Log) (r : Log × List Nat) : Prop where
  nodup : r.2.Nodup
  mem : ∀ j, j ∈ r.2 ↔ r.1.val.frontier j = true ∧ s.val.frontier j = false

theorem Grown.returnsAdded (h : Grown s.val.frontier acc) : ReturnsAdded s acc := by
  refine ⟨h.nodup, fun j => ⟨fun hj => ⟨by simp [h.mem, hj], h.new j hj⟩, fun hj => ?_⟩⟩
  simpa [h.mem, hj.2] using hj.1

theorem advance_returns (n : Nat) (s : Log) : ReturnsAdded s (advance n s) := by
  refine Grown.returnsAdded (Grown.foldl (fun h i => h.resolve i) _ ⟨List.nodup_nil, fun j => by simp, ?_⟩)
  exact fun j hj => by cases hj

theorem relax_committed {acc : Log × List Nat} {e : Nat × Nat} (hc : acc.1.val.committed i = true)
    (hf : acc.1.val.frontier i = false) :
    (relax acc e).1.val.committed i = true ∧ (relax acc e).1.val.frontier i = false := by
  obtain ⟨s, unlocked⟩ := acc
  obtain ⟨dst, w⟩ := e
  dsimp only at hc hf
  have hne : s.val.committed dst = false → i ≠ dst := by
    rintro h rfl
    rw [hc] at h
    cases h
  simp only [Dag.relax]
  split
  · exact ⟨hc, hf⟩
  · next hd =>
      have hid := hne (by simpa using hd)
      split
      · split
        · exact ⟨hc, by simpa [addFrontier, hid] using hf⟩
        · exact ⟨hc, hf⟩
      · exact ⟨hc, hf⟩

theorem relax_foldl_committed {es : List (Nat × Nat)} {acc : Log × List Nat} (hc : acc.1.val.committed i = true)
    (hf : acc.1.val.frontier i = false) : (es.foldl Dag.relax acc).1.val.frontier i = false := by
  induction es generalizing acc with
  | nil => exact hf
  | cons e es ih => exact ih (relax_committed hc hf).1 (relax_committed hc hf).2

theorem commit_returns (hi : s.val.frontier i = true) : ReturnsAdded s (commit nodes s i) := by
  set s₁ : Log := (s.record { s.val with committed := Function.update s.val.committed i true } (.C i)).record
    { s.val with committed := Function.update s.val.committed i true
                 frontier := Function.update s.val.frontier i false } (.Fdel i) with hs₁
  have hcommit : commit nodes s i = (outEdges nodes i).foldl relax (s₁, []) := by
    simp [commit, hi, hs₁]
  have hf₁ : s₁.val.frontier = Function.update s.val.frontier i false := rfl
  have hgone : (commit nodes s i).1.val.frontier i = false := by
    rw [hcommit]
    exact relax_foldl_committed (by simp [hs₁]) (by simp [hs₁])
  have h : ReturnsAdded s₁ (commit nodes s i) := by
    rw [hcommit]
    refine Grown.returnsAdded (Grown.foldl (fun h e => h.relax e) _ ⟨List.nodup_nil, fun j => by simp, ?_⟩)
    exact fun j hj => by cases hj
  refine ⟨h.nodup, fun j => ?_⟩
  rw [h.mem, hf₁]
  by_cases hj : j = i
  · subst hj
    simp [hgone]
  · rw [Function.update_of_ne hj]

end added

/-- Where everything committed is resolved, the least uncommitted node is ready. -/
theorem Inv.nonempty (hw : WellFormed nodes) (h : Inv nodes s.val.committed s.val) (hi : i < nodes.length)
    (hc : s.val.committed i = false) : ∃ j < nodes.length, s.val.frontier j = true := by
  have hex : ∃ j, j < nodes.length ∧ s.val.committed j = false := ⟨i, hi, hc⟩
  obtain ⟨hj, hcj⟩ := Nat.find_spec hex
  refine ⟨Nat.find hex, hj, h.frontier_iff.mpr ⟨hj, hcj, fun e he => ?_⟩⟩
  have he' : s.val.committed e.1 = true := by
    have hmin := Nat.find_min hex (hw.lt he)
    simpa [Nat.lt_trans (hw.lt he) hj] using hmin
  exact ⟨fun _ => he', fun _ => he'⟩

theorem advance_nonempty (hw : WellFormed nodes) (h : Inv nodes prev s.val) (hi : i < nodes.length)
    (hc : (advance nodes.length s).1.val.committed i = false) : ∃ j < nodes.length, (advance nodes.length s).1.val.frontier j = true := by
  obtain ⟨hcomm, h'⟩ := h.advance
  rw [← hcomm] at h'
  exact h'.nonempty hw hi hc

end Dag
end Vliw
