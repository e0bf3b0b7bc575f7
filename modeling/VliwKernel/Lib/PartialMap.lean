import Mathlib.Algebra.BigOperators.Finprod
import Mathlib.Data.Set.Card

/-!
# Finite partial maps

The number of entries of a partial map and the total of their values, and what an update of one key does to both.
-/

namespace Vliw
namespace PartialMap

variable {κ ν : Type}

def dom (f : κ → Option ν) : Set κ := {k | (f k).isSome}

noncomputable def size (f : κ → Option ν) : Nat := (dom f).ncard

noncomputable def total (f : κ → Option Int) : Int := ∑ᶠ k, (f k).getD 0

theorem mem_dom {f : κ → Option ν} {k : κ} : k ∈ dom f ↔ (f k).isSome := .rfl

theorem dom_congr {ν' : Type} {f : κ → Option ν} {g : κ → Option ν'} (h : ∀ k, (f k).isSome = (g k).isSome) : dom f = dom g := by
  ext k
  rw [mem_dom, mem_dom, h]

variable [DecidableEq κ] {f : κ → Option ν} {k : κ}

theorem dom_insert (f : κ → Option ν) (k : κ) (v : ν) : dom (Function.update f k (some v)) = insert k (dom f) := by
  ext j
  by_cases hj : j = k <;> simp [mem_dom, hj]

theorem dom_erase (f : κ → Option ν) (k : κ) : dom (Function.update f k none) = dom f \ {k} := by
  ext j
  by_cases hj : j = k <;> simp [mem_dom, hj]

theorem size_insert (hf : (dom f).Finite) (hk : f k = none) (v : ν) : size (Function.update f k (some v)) = size f + 1 := by
  rw [size, dom_insert, Set.ncard_insert_of_notMem (by simp [mem_dom, hk]) hf, size]

theorem size_erase (hf : (dom f).Finite) {v : ν} (hk : f k = some v) : size (Function.update f k none) + 1 = size f := by
  rw [size, dom_erase, Set.ncard_sdiff_singleton_add_one (by simp [mem_dom, hk]) hf, size]

theorem total_update {f : κ → Option Int} (hf : (dom f).Finite) (k : κ) (o : Option Int) :
    total (Function.update f k o) = total f + (o.getD 0 - (f k).getD 0) := by
  have hsingle : ∑ᶠ j, (if j = k then o.getD 0 - (f k).getD 0 else 0) = o.getD 0 - (f k).getD 0 := by
    rw [finsum_eq_single _ k fun j hj => if_neg hj, if_pos rfl]
  have hsupp : Function.HasFiniteSupport fun j => (f j).getD 0 := by
    refine hf.subset fun j hj => ?_
    rw [mem_dom, Option.isSome_iff_ne_none]
    intro hnone
    rw [Function.mem_support, hnone] at hj
    exact hj rfl
  have hsupp' : Function.HasFiniteSupport fun j => if j = k then o.getD 0 - (f k).getD 0 else 0 := by
    refine (Set.finite_singleton k).subset fun j hj => ?_
    by_contra hne
    exact hj (if_neg hne)
  rw [total, total, ← hsingle, ← finsum_add_distrib hsupp hsupp']
  refine finsum_congr fun j => ?_
  by_cases hj : j = k
  · subst hj
    simp
  · simp [hj]

end PartialMap
end Vliw
