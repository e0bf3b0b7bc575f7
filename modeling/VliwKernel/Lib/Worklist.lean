import Mathlib.Logic.Relation
import Mathlib.Data.List.Basic
import Mathlib.Data.List.Perm.Subperm
import Mathlib.Data.List.Nodup

/-!
# Worklists

What is reachable from some roots, found with a stack: an element is marked when it is pushed, so it is popped
once. With as much fuel as there are elements the search ends, and marks exactly what the roots reach.
-/

namespace Vliw
namespace Worklist

variable {α : Type} [DecidableEq α] (next : α → List α)

def visit (acc : List α × List α) (x : α) : List α × List α :=
  if x ∈ acc.1 then acc else (acc.1 ++ [x], x :: acc.2)

/-- `while stack`: pop one element and visit its neighbours. -/
def search : Nat → List α → List α → Option (List α)
  | _, marked, [] => some marked
  | 0, _, _ :: _ => none
  | fuel + 1, marked, x :: stack =>
      let acc := (next x).foldl visit (marked, stack)
      search fuel acc.1 acc.2

abbrev Reaches : α → α → Prop := Relation.ReflTransGen fun x y => y ∈ next x

/-- The marked elements are reachable, and those whose neighbours may not be marked are on the stack. -/
structure Inv (roots marked stack : List α) : Prop where
  nodup : marked.Nodup
  start : ∀ r ∈ roots, r ∈ marked
  pushed : ∀ x ∈ stack, x ∈ marked
  sound : ∀ x ∈ marked, ∃ r ∈ roots, Reaches next r x
  closed : ∀ x ∈ marked, x ∈ stack ∨ ∀ y ∈ next x, y ∈ marked

variable {next} {roots marked stack : List α} {x : α}

theorem visit_foldl (ys marked stack : List α) : ∃ new, ys.foldl visit (marked, stack) = (marked ++ new.reverse, new ++ stack) ∧
    (∀ y ∈ new, y ∈ ys ∧ y ∉ marked) ∧ new.Nodup ∧ ∀ y ∈ ys, y ∈ marked ∨ y ∈ new := by
  induction ys generalizing marked stack with
  | nil => exact ⟨[], by simp, by simp, List.nodup_nil, by simp⟩
  | cons y ys ih =>
      by_cases hy : y ∈ marked
      · obtain ⟨new, hf, hnew, hnd, hall⟩ := ih marked stack
        refine ⟨new, by simpa [visit, hy] using hf, fun z hz => ⟨by simp [(hnew z hz).1], (hnew z hz).2⟩, hnd, ?_⟩
        rintro z hz
        rcases List.mem_cons.mp hz with rfl | hz
        · exact .inl hy
        · exact hall z hz
      · obtain ⟨new, hf, hnew, hnd, hall⟩ := ih (marked ++ [y]) (y :: stack)
        have hyn : y ∉ new := fun h => (hnew y h).2 (by simp)
        refine ⟨new ++ [y], by simpa [visit, hy] using hf, ?_, ?_, ?_⟩
        · intro z hz
          rcases List.mem_append.mp hz with hz | hz
          · exact ⟨by simp [(hnew z hz).1], fun h => (hnew z hz).2 (by simp [h])⟩
          · obtain rfl := List.mem_singleton.mp hz
            exact ⟨by simp, hy⟩
        · refine List.nodup_append.mpr ⟨hnd, by simp, fun a ha b hb hab => hyn ?_⟩
          rwa [← List.mem_singleton.mp hb, ← hab]
        · rintro z hz
          rcases List.mem_cons.mp hz with rfl | hz
          · simp
          · rcases hall z hz with h | h
            · rcases List.mem_append.mp h with h | h
              · exact .inl h
              · exact .inr (by simp [List.mem_singleton.mp h])
            · exact .inr (by simp [h])

theorem Inv.pop (h : Inv next roots marked (x :: stack)) : ∃ new, (next x).foldl visit (marked, stack) =
    (marked ++ new.reverse, new ++ stack) ∧ Inv next roots (marked ++ new.reverse) (new ++ stack) := by
  obtain ⟨new, hf, hnew, hnd, hall⟩ := visit_foldl (next x) marked stack
  refine ⟨new, hf, ?_⟩
  have hx := h.pushed x (by simp)
  constructor
  case nodup =>
    refine List.nodup_append.mpr ⟨h.nodup, List.nodup_reverse.mpr hnd, fun a ha b hb hab => ?_⟩
    exact (hnew b (List.mem_reverse.mp hb)).2 (hab ▸ ha)
  case start => exact fun r hr => List.mem_append_left _ (h.start r hr)
  case pushed =>
    intro y hy
    rcases List.mem_append.mp hy with hy | hy
    · simp [hy]
    · exact List.mem_append_left _ (h.pushed y (by simp [hy]))
  case sound =>
    intro y hy
    rcases List.mem_append.mp hy with hy | hy
    · exact h.sound y hy
    · obtain ⟨r, hr, hrx⟩ := h.sound x hx
      exact ⟨r, hr, hrx.tail (hnew y (List.mem_reverse.mp hy)).1⟩
  case closed =>
    intro y hy
    rcases List.mem_append.mp hy with hy | hy
    · rcases h.closed y hy with hys | hys
      · rcases List.mem_cons.mp hys with rfl | hys
        · refine .inr fun z hz => ?_
          rcases hall z hz with hz | hz
          · exact List.mem_append_left _ hz
          · simp [hz]
        · exact .inl (List.mem_append_right _ hys)
      · exact .inr fun z hz => List.mem_append_left _ (hys z hz)
    · exact .inl (List.mem_append_left _ (List.mem_reverse.mp hy))

omit [DecidableEq α] in
theorem Inv.done (h : Inv next roots marked []) : x ∈ marked ↔ ∃ r ∈ roots, Reaches next r x := by
  refine ⟨h.sound x, ?_⟩
  rintro ⟨r, hr, hrx⟩
  induction hrx with
  | refl => exact h.start r hr
  | tail _ hyz ih =>
      rcases h.closed _ ih with hs | hs
      · cases hs
      · exact hs _ hyz

/-- The search ends before it has popped as many elements as there are. -/
theorem search_ok {univ : List α} (hnext : ∀ x ∈ univ, ∀ y ∈ next x, y ∈ univ) {fuel : Nat} (h : Inv next roots marked stack)
    (huniv : ∀ x ∈ marked, x ∈ univ) (hfuel : stack.length + univ.length ≤ fuel + marked.length) :
    ∃ marked', search next fuel marked stack = some marked' ∧ ∀ x, x ∈ marked' ↔ ∃ r ∈ roots, Reaches next r x := by
  induction fuel generalizing marked stack with
  | zero =>
      have hlen : marked.length ≤ univ.length := (h.nodup.subperm huniv).length_le
      obtain rfl : stack = [] := List.length_eq_zero_iff.mp (by omega)
      exact ⟨marked, rfl, fun x => h.done⟩
  | succ fuel ih =>
      cases stack with
      | nil => exact ⟨marked, rfl, fun x => h.done⟩
      | cons x stack =>
          obtain ⟨new, hf, h'⟩ := h.pop
          have hx := huniv x (h.pushed x (by simp))
          have hnew : ∀ y ∈ new, y ∈ univ := by
            intro y hy
            obtain ⟨new', hf', hn, -⟩ := visit_foldl (next x) marked stack
            obtain rfl : new = new' := List.append_cancel_right (congrArg Prod.snd (hf.symm.trans hf'))
            exact hnext x hx y (hn y hy).1
          simp only [search, hf]
          refine ih h' ?_ ?_
          · intro y hy
            rcases List.mem_append.mp hy with hy | hy
            · exact huniv y hy
            · exact hnew y (List.mem_reverse.mp hy)
          · simp only [List.length_append, List.length_cons, List.length_reverse] at hfuel ⊢
            omega

/-- From the roots, each once, on the stack in any order. -/
theorem search_roots {univ : List α} (hnext : ∀ x ∈ univ, ∀ y ∈ next x, y ∈ univ) (hnd : roots.Nodup)
    (hroots : ∀ r ∈ roots, r ∈ univ) (hstack : stack.Perm roots) :
    ∃ marked, search next univ.length roots stack = some marked ∧ ∀ x, x ∈ marked ↔ ∃ r ∈ roots, Reaches next r x := by
  refine search_ok hnext ⟨hnd, fun r hr => hr, fun x hx => hstack.mem_iff.mp hx, fun x hx => ⟨x, hx, .refl⟩,
    fun x hx => .inl (hstack.mem_iff.mpr hx)⟩ hroots ?_
  have := hstack.length_eq
  omega

end Worklist
end Vliw
