import VliwKernel.Lib.Outcome

/-!
# Weakest preconditions of straight-line programs

A program is a list of commands over a fallible step. `Wp step P is Q s` says that the commands all succeed
from `s`, each of them in a state where `P` holds of it, and end in a state that satisfies `Q`.
-/

namespace Vliw

variable {σ ι τ ε : Type} {step : σ → ι → Except ε σ} {P P' : σ → ι → Prop} {Q R : σ → Prop} {s : σ} {is is' : List ι}

def Wp (step : σ → ι → Except ε σ) (P : σ → ι → Prop) : List ι → (σ → Prop) → σ → Prop
  | [], Q, s => Q s
  | i :: is, Q, s => P s i ∧ ∃ s', step s i = .ok s' ∧ Wp step P is Q s'

namespace Wp

@[simp] theorem nil : Wp step P [] Q s ↔ Q s := .rfl

theorem cons {i : ι} : Wp step P (i :: is) Q s ↔ P s i ∧ ∃ s', step s i = .ok s' ∧ Wp step P is Q s' := .rfl

theorem append : Wp step P (is ++ is') Q s ↔ Wp step P is (Wp step P is' Q) s := by
  induction is generalizing s with
  | nil => exact .rfl
  | cons i is ih => exact and_congr_right fun _ => exists_congr fun s' => and_congr_right fun _ => ih

theorem mono (h : Wp step P is Q s) (hQ : ∀ s, Q s → R s) : Wp step P is R s := by
  induction is generalizing s with
  | nil => exact hQ s h
  | cons i is ih =>
      obtain ⟨hp, s', hs, h⟩ := h
      exact ⟨hp, s', hs, ih h⟩

/-- What every step of the program keeps holds at the end as well. -/
theorem inv (h : Wp step P is Q s) {I : σ → Prop} (hI : ∀ {s s' i}, i ∈ is → step s i = .ok s' → I s → I s') (h₀ : I s) :
    Wp step P is (fun s => Q s ∧ I s) s := by
  induction is generalizing s with
  | nil => exact ⟨h, h₀⟩
  | cons i is ih =>
      obtain ⟨hp, s', hs, h⟩ := h
      exact ⟨hp, s', hs, ih h (fun hi => hI (by simp [hi])) (hI (by simp) hs h₀)⟩

theorem flatMap_range {f : Nat → List ι} {n : Nat} {I : Nat → σ → Prop} (hI : ∀ k < n, ∀ s, I k s → Wp step P (f k) (I (k + 1)) s)
    (h₀ : I 0 s) : Wp step P ((List.range n).flatMap f) (I n) s := by
  induction n with
  | zero => exact h₀
  | succ n ih =>
      rw [List.range_succ, List.flatMap_append, append]
      refine (ih fun k hk => hI k (by omega)).mono fun s hs => ?_
      simpa using hI n (by omega) s hs

theorem flatten_range {f : Nat → Except τ (List ι)} {n : Nat} {I : Nat → σ → Prop} {xs : List (List ι)}
    (hI : ∀ k < n, ∀ is, f k = .ok is → ∀ s, I k s → Wp step P is (I (k + 1)) s) (hok : (List.range n).mapM f = .ok xs) (h₀ : I 0 s) :
    Wp step P xs.flatten (I n) s := by
  obtain ⟨hlen, hget⟩ := mapM_eq_ok hok
  have hxs : xs.flatten = (List.range n).flatMap fun k => xs.getD k [] := by
    rw [List.flatMap_def]
    congr 1
    apply List.ext_getElem (by simp [hlen])
    intro k hk hk'
    simp [hk]
  rw [hxs]
  refine flatMap_range (fun k hk => hI k hk _ ?_) h₀
  obtain ⟨is, his, hf⟩ := hget (List.getElem?_range hk)
  rw [hf, List.getD, his, Option.getD_some]

theorem range {step : σ → Nat → Except ε σ} {P : σ → Nat → Prop} {n : Nat} {I : Nat → σ → Prop}
    (hI : ∀ k < n, ∀ s, I k s → P s k ∧ ∃ s', step s k = .ok s' ∧ I (k + 1) s') (h₀ : I 0 s) :
    Wp step P (List.range n) (I n) s := by
  rw [← List.flatMap_singleton' (List.range n)]
  exact flatMap_range hI h₀

theorem foldlM (h : Wp step P is Q s) : ∃ s', is.foldlM step s = .ok s' ∧ Q s' := by
  induction is generalizing s with
  | nil => exact ⟨s, rfl, h⟩
  | cons i is ih =>
      obtain ⟨-, s', hs, h⟩ := h
      rw [List.foldlM_cons, hs]
      exact ih h

/-- The observation holds of each command, in the state the commands before it lead to. -/
theorem observe (h : Wp step P is Q s) {k : Nat} {i : ι} {u : σ} (hi : is[k]? = some i) (hu : (is.take k).foldlM step s = .ok u) :
    P u i := by
  induction is generalizing s k with
  | nil => simp at hi
  | cons i' is ih =>
      obtain ⟨hp, s', hs, h⟩ := h
      cases k with
      | zero =>
          cases hi
          cases hu
          exact hp
      | succ k =>
          rw [List.take_succ_cons, List.foldlM_cons, hs] at hu
          exact ih h hi hu

end Wp
end Vliw
