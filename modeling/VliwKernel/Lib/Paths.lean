import Mathlib.Data.List.Basic
import Mathlib.Logic.Function.Basic
import Mathlib.Order.Bounds.Basic
import Mathlib.Order.MinMax

/-!
# The best path

Weighted paths in a graph, and the recurrence of dynamic programming: a value that is at each vertex the best of the
vertex's own and of its successors', moved along the edges, is the best over all paths from the vertex. A sweep that
updates the vertices one by one, successors first, computes such a value.
-/

namespace Vliw

section best

variable {ε β γ : Type} [LinearOrder β] {l : List ε}

theorem isGreatest_foldl_max (g : ε → β) (b : β) (l : List ε) :
    IsGreatest {x | x = b ∨ ∃ e ∈ l, x = g e} (l.foldl (fun best e => max best (g e)) b) := by
  induction l generalizing b with
  | nil =>
      refine ⟨.inl rfl, ?_⟩
      rintro x (rfl | ⟨e, he, -⟩)
      · exact le_rfl
      · cases he
  | cons e l ih =>
      obtain ⟨hmem, hub⟩ := ih (max b (g e))
      rw [List.foldl_cons]
      constructor
      · rcases hmem with hmax | ⟨e', he', heq⟩
        · rcases max_choice b (g e) with hb | he
          · exact .inl (hmax.trans hb)
          · exact .inr ⟨e, by simp, hmax.trans he⟩
        · exact .inr ⟨e', by simp [he'], heq⟩
      · have hle : max b (g e) ≤ l.foldl (fun best e => max best (g e)) (max b (g e)) := hub (.inl rfl)
        rintro x (rfl | ⟨e', he', rfl⟩)
        · exact (le_max_left _ _).trans hle
        · rcases List.mem_cons.mp he' with rfl | he'
          · exact (le_max_right _ _).trans hle
          · exact hub (.inr ⟨e', he', rfl⟩)

theorem isGreatest_foldl_rank {step : γ → ε → γ} {rank : γ → β} {g : ε → β} {b : γ}
    (h : ∀ b, ∀ e ∈ l, rank (step b e) = max (rank b) (g e)) :
    IsGreatest {x | x = rank b ∨ ∃ e ∈ l, x = g e} (rank (l.foldl step b)) := by
  have hrank : rank (l.foldl step b) = l.foldl (fun best e => max best (g e)) (rank b) := by
    induction l generalizing b with
    | nil => rfl
    | cons e l ih =>
        rw [List.foldl_cons, List.foldl_cons, ih fun b e he => h b e (by simp [he]), h b e (by simp)]
  rw [hrank]
  exact isGreatest_foldl_max g (rank b) l

end best

section paths

variable {α β : Type} {E : α → α → Nat → Prop} {i j k : α} {d w : Nat}

inductive Path (E : α → α → Nat → Prop) : α → α → Nat → Prop
  | nil (i : α) : Path E i i 0
  | cons {i j k : α} {w d : Nat} : E i j w → Path E j k d → Path E i k (w + d)

theorem Path.concat (h : Path E i j d) (e : E j k w) : Path E i k (d + w) := by
  induction h with
  | nil i =>
      rw [Nat.add_comm]
      exact .cons e (.nil k)
  | cons e' _ ih =>
      rw [Nat.add_assoc]
      exact .cons e' (ih e)

theorem Path.flip (h : Path (fun i j w => E j i w) i j d) : Path E j i d := by
  induction h with
  | nil i => exact .nil i
  | cons e _ ih =>
      rw [Nat.add_comm]
      exact ih.concat e

variable [Preorder β] {act : Nat → β → β} {a f : α → β}

/-- How the values `a` move along paths. -/
structure Transport (act : Nat → β → β) (a : α → β) : Prop where
  zero : ∀ i, act 0 (a i) = a i
  add : ∀ w d x, act (w + d) x = act w (act d x)
  mono : ∀ w {x y}, x ≤ y → act w x ≤ act w y

/-- `f` is at each vertex the best of the vertex's own value and of its successors', moved along the edges. -/
def Recurrence (E : α → α → Nat → Prop) (act : Nat → β → β) (a f : α → β) : Prop :=
  ∀ i, IsGreatest {x | x = a i ∨ ∃ j w, E i j w ∧ x = act w (f j)} (f i)

/-- What satisfies the recurrence is the best over all paths. -/
theorem Recurrence.isGreatest (h : Recurrence E act a f) (hact : Transport act a) (hwf : WellFounded fun j i => ∃ w, E i j w) (i : α) :
    IsGreatest {x | ∃ k d, Path E i k d ∧ x = act d (a k)} (f i) := by
  constructor
  · induction i using hwf.induction with
    | _ i ih =>
        rcases (h i).1 with hown | ⟨j, w, he, hj⟩
        · exact ⟨i, 0, .nil i, by rw [hact.zero, hown]⟩
        · obtain ⟨k, d, hp, hk⟩ := ih j ⟨w, he⟩
          exact ⟨k, w + d, .cons he hp, by rw [hact.add, hj, hk]⟩
  · rintro _ ⟨k, d, hp, rfl⟩
    induction hp with
    | nil i =>
        rw [hact.zero]
        exact (h i).2 (.inl rfl)
    | cons he _ ih =>
        rw [hact.add]
        exact (hact.mono _ ih).trans ((h _).2 (.inr ⟨_, _, he, rfl⟩))

/-- A value that every vertex folds over its edges satisfies the recurrence, when a step of the fold keeps the better rank. -/
theorem Recurrence.of_foldl {β γ : Type} [LinearOrder β] {act : Nat → β → β} {es : α → List (α × Nat)} (rank : γ → β)
    (pick : γ → α × Nat → γ → γ) {b v : α → γ} (hv : ∀ i, v i = (es i).foldl (fun c e => pick c e (v e.1)) (b i))
    (hpick : ∀ c e x, rank (pick c e x) = max (rank c) (act e.2 (rank x))) :
    Recurrence (fun i j w => (j, w) ∈ es i) act (fun i => rank (b i)) fun i => rank (v i) := by
  intro i
  have h := isGreatest_foldl_rank (l := es i) (b := b i) (g := fun e => act e.2 (rank (v e.1))) fun c e _ => hpick c e (v e.1)
  rw [← hv] at h
  convert h using 1
  ext x
  simp only [Set.mem_ofPred_eq, Prod.exists]

theorem Transport.sum : Transport (fun w x => w + x) fun _ : α => 0 where
  zero _ := rfl
  add w d x := Nat.add_assoc w d x
  mono _ _ _ h := Nat.add_le_add_left h _

theorem Transport.const (a : α → β) : Transport (fun _ x => x) a where
  zero _ := rfl
  add _ _ _ := rfl
  mono _ _ _ h := h

theorem Transport.limited {n : Nat} {a : α → Natᵒᵈ} (ha : ∀ i, OrderDual.ofDual (a i) ≤ n) :
    Transport (fun w x => OrderDual.toDual (min n (w + OrderDual.ofDual x))) a where
  zero i := by
    have := ha i
    rw [Nat.zero_add, Nat.min_eq_right this, OrderDual.toDual_ofDual]
  add w d x := by
    simp only [OrderDual.ofDual_toDual, OrderDual.toDual_inj]
    omega
  mono w x y h := by
    have hle : OrderDual.ofDual y ≤ OrderDual.ofDual x := h
    refine OrderDual.toDual_le_toDual.mpr ?_
    omega

end paths

section sweep

variable {ι κ ω β : Type} [DecidableEq κ] {key : ι → κ} {F : ι → (κ → β) → β} {l pre post : List ι} {f : κ → β} {x : ι} {k : κ}

/-- `for x in reversed(l): f[key x] = F x f`. -/
def sweep (key : ι → κ) (F : ι → (κ → β) → β) (l : List ι) (f : κ → β) : κ → β :=
  l.foldr (fun x f => Function.update f (key x) (F x f)) f

theorem sweep_of_notMem (h : k ∉ l.map key) : sweep key F l f k = f k := by
  induction l with
  | nil => rfl
  | cons x l ih =>
      rw [List.map_cons, List.mem_cons, not_or] at h
      exact (Function.update_of_ne h.1 ..).trans (ih h.2)

theorem sweep_append : sweep key F (pre ++ post) f = sweep key F pre (sweep key F post f) := List.foldr_append

variable {es : ι → List (κ × ω)} {pick : β → κ × ω → β → β} {start : β → β} {out : ι → β → β}

/-- The value of a vertex from the value it has and those at the other ends of its edges. -/
def settle (key : ι → κ) (es : ι → List (κ × ω)) (pick : β → κ × ω → β → β) (start : β → β) (out : ι → β → β) (x : ι) (f : κ → β) : β :=
  out x ((es x).foldl (fun b e => pick b e (f e.1)) (start (f (key x))))

/-- A vertex is settled by the final values of its edges' other ends, when these come after it in the list. -/
theorem sweep_settle (hl : l = pre ++ x :: post) (hnd : (l.map key).Nodup) (hes : ∀ e ∈ es x, e.1 ∉ pre.map key ∧ e.1 ≠ key x) :
    sweep key (settle key es pick start out) l f (key x) =
      out x ((es x).foldl (fun b e => pick b e (sweep key (settle key es pick start out) l f e.1)) (start (f (key x)))) := by
  subst hl
  rw [List.map_append, List.map_cons, List.nodup_append, List.nodup_cons] at hnd
  obtain ⟨-, ⟨hpost, -⟩, hdis⟩ := hnd
  have hpre : key x ∉ pre.map key := fun h => hdis _ h _ (by simp) rfl
  have hcons : sweep key (settle key es pick start out) (x :: post) f = Function.update (sweep key (settle key es pick start out) post f)
      (key x) (settle key es pick start out x (sweep key (settle key es pick start out) post f)) := rfl
  rw [sweep_append, sweep_of_notMem hpre, hcons, Function.update_self, settle, sweep_of_notMem hpost]
  congr 1
  refine List.foldl_ext _ _ _ fun b e he => ?_
  obtain ⟨hne, hx⟩ := hes e he
  rw [sweep_of_notMem hne, Function.update_of_ne hx]

end sweep
end Vliw
