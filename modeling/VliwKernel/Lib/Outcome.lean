import Mathlib.Data.List.Basic

/-!
# Outcomes of fallible computations

Inversion of a successful `bind`, loops that succeed, and the relation between two computations that fail alike
and whose results are related. Loops (`foldlM`) inherit both from their bodies.
-/

namespace Vliw

variable {ε α β γ δ : Type}

@[simp] theorem bind_ok {a : α} {f : α → Except ε β} : (Except.ok a >>= f) = f a := rfl

@[simp] theorem bind_error {e : ε} {f : α → Except ε β} : (Except.error e >>= f) = .error e := rfl

theorem bind_map {x : Except ε α} {f : α → Except ε β} {g : β → γ} : (x >>= f).map g = x >>= fun a => (f a).map g := by
  cases x <;> rfl

theorem map_bind {x : Except ε α} {f : α → β} {g : β → Except ε γ} : x.map f >>= g = x >>= fun a => g (f a) := by
  cases x <;> rfl

theorem bind_congr_ok {x : Except ε α} {f g : α → Except ε β} (h : ∀ a, x = .ok a → f a = g a) : x >>= f = x >>= g := by
  cases x with
  | error e => rfl
  | ok a => exact h a rfl

theorem bind_eq_ok {x : Except ε α} {f : α → Except ε β} {b : β} :
    (x >>= f) = .ok b ↔ ∃ a, x = .ok a ∧ f a = .ok b := by
  cases x with
  | error e => simp
  | ok a => simp

theorem map_eq_ok {x : Except ε α} {f : α → β} {b : β} : x.map f = .ok b ↔ ∃ a, x = .ok a ∧ f a = b := by
  cases x with
  | error e => simp [Except.map]
  | ok a => simp [Except.map]

theorem toOption_eq_some {x : Except ε α} {a : α} : x.toOption = some a ↔ x = .ok a := by
  cases x <;> simp [Except.toOption]

theorem mapM_ok {f : α → Except ε β} {g : α → β} {l : List α} (h : ∀ x ∈ l, f x = .ok (g x)) :
    l.mapM f = .ok (l.map g) := by
  induction l with
  | nil => rfl
  | cons x l ih =>
      rw [List.mapM_cons, h x (by simp), ih fun y hy => h y (by simp [hy])]
      rfl

theorem mapM_congr {f g : α → Except ε β} {l : List α} (h : ∀ x ∈ l, f x = g x) : l.mapM f = l.mapM g := by
  induction l with
  | nil => rfl
  | cons x l ih => rw [List.mapM_cons, List.mapM_cons, h x (by simp), ih fun y hy => h y (by simp [hy])]

/-- A list that is mapped without an error, element by element. -/
theorem mapM_eq_ok {f : α → Except ε β} {l : List α} {ys : List β} (h : l.mapM f = .ok ys) :
    ys.length = l.length ∧ ∀ {i : Nat} {x : α}, l[i]? = some x → ∃ y, ys[i]? = some y ∧ f x = .ok y := by
  induction l generalizing ys with
  | nil =>
      cases h
      exact ⟨rfl, fun h => by cases h⟩
  | cons x l ih =>
      rw [List.mapM_cons] at h
      obtain ⟨y, hy, h⟩ := bind_eq_ok.mp h
      obtain ⟨ys', hys, h⟩ := bind_eq_ok.mp h
      cases h
      obtain ⟨hlen, hget⟩ := ih hys
      refine ⟨congrArg (· + 1) hlen, fun {i x'} hi => ?_⟩
      cases i with
      | zero =>
          cases hi
          exact ⟨y, rfl, hy⟩
      | succ i => exact hget hi

theorem mapM_some {f : α → Option β} {g : α → β} {l : List α} (h : ∀ x ∈ l, f x = some (g x)) : l.mapM f = some (l.map g) := by
  induction l with
  | nil => rfl
  | cons x l ih =>
      rw [List.mapM_cons, h x (by simp), ih fun y hy => h y (by simp [hy])]
      rfl

theorem exists_of_mem_mapM {f : α → Except ε β} {l : List α} {ys : List β} (h : l.mapM f = .ok ys) {y : β} (hy : y ∈ ys) :
    ∃ x ∈ l, f x = .ok y := by
  obtain ⟨hlen, hget⟩ := mapM_eq_ok h
  obtain ⟨i, hi⟩ := List.getElem?_of_mem hy
  obtain ⟨hlt, -⟩ := List.getElem?_eq_some_iff.mp hi
  obtain ⟨z, hz, hf⟩ := hget (List.getElem?_eq_getElem (hlen ▸ hlt))
  cases hi.symm.trans hz
  exact ⟨_, List.getElem_mem _, hf⟩

theorem foldlM_append_ok {f : β → α → Except ε β} {l l' : List α} {b c : β} :
    (l ++ l').foldlM f b = .ok c ↔ ∃ m, l.foldlM f b = .ok m ∧ l'.foldlM f m = .ok c := by
  rw [List.foldlM_append, bind_eq_ok]

theorem foldlM_inv {f : α → γ → Except ε α} {I : α → Prop} {l : List γ} (h : ∀ c ∈ l, ∀ a a', f a c = .ok a' → I a → I a') {a a' : α}
    (hr : l.foldlM f a = .ok a') (ha : I a) : I a' := by
  induction l generalizing a with
  | nil =>
      cases hr
      exact ha
  | cons c l ih =>
      obtain ⟨a₁, ha₁, hr⟩ := bind_eq_ok.mp ((List.foldlM_cons ..).symm.trans hr)
      exact ih (fun c hc => h c (by simp [hc])) hr (h c (by simp) a a₁ ha₁ ha)

/-- Two loops in lockstep: a relation that every pass keeps, in which both bodies succeed, holds of the two results. -/
theorem foldlM_lockstep {f : α → γ → Except ε α} {g : β → γ → Except ε β} {R : α → β → Prop} {l : List γ}
    (h : ∀ c ∈ l, ∀ a b, R a b → ∃ a' b', f a c = .ok a' ∧ g b c = .ok b' ∧ R a' b') {a : α} {b : β} (hab : R a b) :
    ∃ a' b', l.foldlM f a = .ok a' ∧ l.foldlM g b = .ok b' ∧ R a' b' := by
  induction l generalizing a b with
  | nil => exact ⟨a, b, rfl, rfl, hab⟩
  | cons c l ih =>
      obtain ⟨a₁, b₁, ha, hb, hab₁⟩ := h c (by simp) a b hab
      obtain ⟨a', b', hf, hg, hab'⟩ := ih (fun c hc => h c (by simp [hc])) hab₁
      refine ⟨a', b', ?_, ?_, hab'⟩
      · rw [List.foldlM_cons, ha, bind_ok, hf]
      · rw [List.foldlM_cons, hb, bind_ok, hg]

/-- A loop over states that each carry a tag which the body computes on its own. -/
theorem foldlM_carry {ι : Type} {f : α → γ → Except ε α} {f' : β → γ → Except ε β} {t : ι → α → β} {g : ι → γ → ι} {l : List γ}
    (h : ∀ c ∈ l, ∀ i a, f' (t i a) c = (f a c).map (t (g i c))) (i : ι) (a : α) :
    l.foldlM f' (t i a) = (l.foldlM f a).map (t (l.foldl g i)) := by
  induction l generalizing i a with
  | nil => rfl
  | cons c l ih =>
      rw [List.foldlM_cons, List.foldlM_cons, h c (by simp), List.foldl_cons]
      cases f a c with
      | error e => rfl
      | ok a' => exact ih (fun c hc => h c (by simp [hc])) (g i c) a'

theorem foldlM_congr {f g : α → γ → Except ε α} {l : List γ} (h : ∀ c ∈ l, ∀ a, f a c = g a c) (a : α) : l.foldlM f a = l.foldlM g a := by
  induction l generalizing a with
  | nil => rfl
  | cons c l ih =>
      rw [List.foldlM_cons, List.foldlM_cons, h c (by simp)]
      cases g a c with
      | error e => rfl
      | ok a' => exact ih (fun c hc => h c (by simp [hc])) a'

/-- Both fail with the same exception, or both succeed with related results. -/
def Agree (R : α → β → Prop) : Except ε α → Except ε β → Prop
  | .ok a, .ok b => R a b
  | .error e, .error e' => e = e'
  | _, _ => False

namespace Agree

variable {R : α → β → Prop} {S : γ → δ → Prop}

@[simp] theorem ok_iff {a : α} {b : β} : Agree R (.ok a : Except ε α) (.ok b) ↔ R a b := .rfl

@[simp] theorem error_iff {e e' : ε} : Agree R (.error e) (.error e') ↔ e = e' := .rfl

theorem refl {R : α → α → Prop} (hR : ∀ a, R a a) (x : Except ε α) : Agree R x x := by
  cases x with
  | error e => exact error_iff.mpr rfl
  | ok a => exact hR a

theorem of_ok {x : Except ε α} {y : Except ε β} {b : β} (h : Agree R x y) (hy : y = .ok b) :
    ∃ a, x = .ok a ∧ R a b := by
  subst hy
  cases x with
  | error e => exact h.elim
  | ok a => exact ⟨a, rfl, h⟩

theorem to_ok {x : Except ε α} {y : Except ε β} {a : α} (h : Agree R x y) (hx : x = .ok a) : ∃ b, y = .ok b ∧ R a b := by
  subst hx
  cases y with
  | error e => exact h.elim
  | ok b => exact ⟨b, rfl, h⟩

theorem of_error {x : Except ε α} {y : Except ε β} {e : ε} (h : Agree R x y) (hy : y = .error e) : x = .error e := by
  subst hy
  cases x with
  | error e' => exact congrArg Except.error h
  | ok a => exact h.elim

theorem to_error {x : Except ε α} {y : Except ε β} {e : ε} (h : Agree R x y) (hx : x = .error e) : y = .error e := by
  subst hx
  cases y with
  | error e' => exact congrArg Except.error h.symm
  | ok b => exact h.elim

theorem bind_of {x : Except ε α} {y : Except ε β} {f : α → Except ε γ} {g : β → Except ε δ}
    (h : Agree R x y) (hf : ∀ a b, y = .ok b → R a b → Agree S (f a) (g b)) : Agree S (x >>= f) (y >>= g) := by
  cases x with
  | error e =>
      cases y with
      | error e' => exact h
      | ok b => exact h.elim
  | ok a =>
      cases y with
      | error e' => exact h.elim
      | ok b => exact hf a b rfl h

theorem bind {x : Except ε α} {y : Except ε β} {f : α → Except ε γ} {g : β → Except ε δ}
    (h : Agree R x y) (hf : ∀ a b, R a b → Agree S (f a) (g b)) : Agree S (x >>= f) (y >>= g) :=
  h.bind_of fun a b _ => hf a b

theorem mono {R' : α → β → Prop} {x : Except ε α} {y : Except ε β} (h : Agree R x y)
    (hR : ∀ a b, R a b → R' a b) : Agree R' x y := by
  cases x with
  | error e =>
      cases y with
      | error e' => exact h
      | ok b => exact h.elim
  | ok a =>
      cases y with
      | error e' => exact h.elim
      | ok b => exact hR a b h

theorem bind_right {S : α → δ → Prop} {x : Except ε α} {y : Except ε β} {g : β → Except ε δ} (h : Agree R x y)
    (hg : ∀ a b, R a b → Agree S (.ok a) (g b)) : Agree S x (y >>= g) := by
  cases x with
  | error e =>
      cases y with
      | error e' => exact h
      | ok b => exact h.elim
  | ok a =>
      cases y with
      | error e' => exact h.elim
      | ok b => exact hg a b h

theorem bind_left (x : Except ε δ) {f : δ → Except ε α} {g : δ → Except ε β} (h : ∀ d, Agree R (f d) (g d)) :
    Agree R (x >>= f) (x >>= g) := by
  cases x with
  | error e => rfl
  | ok d => exact h d

theorem foldlM {f : α → γ → Except ε α} {g : β → γ → Except ε β}
    (h : ∀ a b c, R a b → Agree R (f a c) (g b c)) (l : List γ) {a : α} {b : β} (hab : R a b) :
    Agree R (l.foldlM f a) (l.foldlM g b) := by
  induction l generalizing a b with
  | nil => exact hab
  | cons c l ih =>
      rw [List.foldlM_cons, List.foldlM_cons]
      exact (h a b c hab).bind fun a' b' hab' => ih hab'

theorem ite {P : Prop} [Decidable P] {x x' : Except ε α} {y y' : Except ε β} (h : P → Agree R x y)
    (h' : ¬ P → Agree R x' y') : Agree R (if P then x else x') (if P then y else y') := by
  by_cases hP : P
  · simpa only [if_pos hP] using h hP
  · simpa only [if_neg hP] using h' hP

theorem of_map {f : α → γ} {g : β → γ} {x : Except ε α} {y : Except ε β} (h : x.map f = y.map g) :
    Agree (fun a b => f a = g b) x y := by
  cases x with
  | error e =>
      cases y with
      | error e' => exact Except.error.inj h
      | ok b => cases h
  | ok a =>
      cases y with
      | error e' => cases h
      | ok b => exact Except.ok.inj h

end Agree
end Vliw
