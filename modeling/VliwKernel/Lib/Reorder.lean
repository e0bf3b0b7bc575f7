import VliwKernel.Lib.Outcome
import Mathlib.Data.List.Perm.Basic

/-!
# Loops whose passes commute

A loop that succeeds over a list succeeds over any permutation of it, with a related result, if each pass respects the
relation and two passes that have to change places commute up to it.
-/

namespace Vliw

variable {α γ ε : Type} {f : α → γ → Except ε α} {R : α → α → Prop} {P : γ → γ → Prop} {l l' : List γ} {a b r : α}

theorem foldlM_related (hf : ∀ {a b a' c}, R a b → f a c = .ok a' → ∃ b', f b c = .ok b' ∧ R a' b') (hab : R a b)
    (hr : l.foldlM f a = .ok r) : ∃ r', l.foldlM f b = .ok r' ∧ R r r' := by
  induction l generalizing a b with
  | nil =>
      cases hr
      exact ⟨b, rfl, hab⟩
  | cons c l ih =>
      obtain ⟨a₁, ha, hr⟩ := bind_eq_ok.mp ((List.foldlM_cons ..).symm.trans hr)
      obtain ⟨b₁, hb, hab₁⟩ := hf hab ha
      obtain ⟨r', hr', hrr⟩ := ih hab₁ hr
      exact ⟨r', by rw [List.foldlM_cons, hb, bind_ok, hr'], hrr⟩

theorem foldlM_perm (hP : ∀ {c d}, P c d → P d c) (hrefl : ∀ a, R a a) (htrans : ∀ {a b c}, R a b → R b c → R a c)
    (hf : ∀ {a b a' c}, R a b → f a c = .ok a' → ∃ b', f b c = .ok b' ∧ R a' b')
    (hswap : ∀ {a a₁ a₂ c d}, P c d → f a c = .ok a₁ → f a₁ d = .ok a₂ → ∃ b₁ b₂, f a d = .ok b₁ ∧ f b₁ c = .ok b₂ ∧ R a₂ b₂)
    (h : l.Perm l') (hl : l.Pairwise P) (hab : R a b) (hr : l.foldlM f a = .ok r) : ∃ r', l'.foldlM f b = .ok r' ∧ R r r' := by
  induction h generalizing a b r with
  | nil => exact foldlM_related hf hab hr
  | cons c _ ih =>
      obtain ⟨a₁, ha, hr⟩ := bind_eq_ok.mp ((List.foldlM_cons ..).symm.trans hr)
      obtain ⟨b₁, hb, hab₁⟩ := hf hab ha
      obtain ⟨r', hr', hrr⟩ := ih (List.pairwise_cons.mp hl).2 hab₁ hr
      exact ⟨r', by rw [List.foldlM_cons, hb, bind_ok, hr'], hrr⟩
  | swap c d l =>
      obtain ⟨a₁, ha₁, hr⟩ := bind_eq_ok.mp ((List.foldlM_cons ..).symm.trans hr)
      obtain ⟨a₂, ha₂, hr⟩ := bind_eq_ok.mp ((List.foldlM_cons ..).symm.trans hr)
      obtain ⟨c₁, c₂, hc₁, hc₂, hac⟩ := hswap ((List.pairwise_cons.mp hl).1 c (by simp)) ha₁ ha₂
      obtain ⟨b₁, hb₁, hcb₁⟩ := hf hab hc₁
      obtain ⟨b₂, hb₂, hcb₂⟩ := hf hcb₁ hc₂
      obtain ⟨r', hr', hrr⟩ := foldlM_related hf (htrans hac hcb₂) hr
      exact ⟨r', by rw [List.foldlM_cons, hb₁, bind_ok, List.foldlM_cons, hb₂, bind_ok, hr'], hrr⟩
  | trans h _ ih ih' =>
      obtain ⟨r₁, hr₁, hrr₁⟩ := ih hl hab hr
      obtain ⟨r₂, hr₂, hrr₂⟩ := ih' (hl.perm h fun {_ _} => hP) (hrefl b) hr₁
      exact ⟨r₂, hr₂, htrans hrr₁ hrr₂⟩

end Vliw
