import Mathlib.Data.List.Nodup
import Mathlib.Logic.Function.Basic

/-!
# Insertion-ordered dictionaries

A finite map that remembers the order in which its keys were first inserted, as a
Python `dict` does. Overwriting a key keeps its place; deleting it and inserting it
again moves it to the end. The key list and the lookup function agree by construction.
-/

namespace Vliw

structure Dict (κ ν : Type) where
  keys : List κ
  get? : κ → Option ν
  nodup : keys.Nodup
  mem_keys : ∀ k, k ∈ keys ↔ (get? k).isSome

namespace Dict

variable {κ ν : Type}

theorem ext {d e : Dict κ ν} (hk : d.keys = e.keys) (hg : d.get? = e.get?) : d = e := by
  cases d
  cases e
  cases hk
  cases hg
  rfl

def empty : Dict κ ν := ⟨[], fun _ => none, List.nodup_nil, fun k => by simp⟩

@[simp] theorem get?_empty (k : κ) : (empty : Dict κ ν).get? k = none := rfl

@[simp] theorem keys_empty : (empty : Dict κ ν).keys = [] := rfl

theorem not_mem_keys {d : Dict κ ν} {k : κ} : k ∉ d.keys ↔ d.get? k = none := by
  rw [d.mem_keys, Option.not_isSome_iff_eq_none]

theorem mem_keys_of_get? {d : Dict κ ν} {k : κ} {v : ν} (h : d.get? k = some v) : k ∈ d.keys := by
  rw [d.mem_keys, h]
  rfl

def items (d : Dict κ ν) : List (κ × ν) := d.keys.filterMap fun k => (d.get? k).map (Prod.mk k)

theorem mem_items {d : Dict κ ν} {k : κ} {v : ν} : (k, v) ∈ d.items ↔ d.get? k = some v := by
  simp only [items, List.mem_filterMap, Option.map_eq_some_iff, Prod.mk.injEq]
  constructor
  · rintro ⟨k', -, v', h, rfl, rfl⟩
    exact h
  · intro h
    exact ⟨k, mem_keys_of_get? h, v, h, rfl, rfl⟩

theorem nodup_items (d : Dict κ ν) : (d.items.map Prod.fst).Nodup := by
  have hfst : d.items.map Prod.fst = d.keys := by
    have key : ∀ ks : List κ, (∀ k ∈ ks, (d.get? k).isSome) →
        (ks.filterMap fun k => (d.get? k).map (Prod.mk k)).map Prod.fst = ks := by
      intro ks
      induction ks with
      | nil => exact fun _ => rfl
      | cons k ks ih =>
          intro h
          obtain ⟨v, hv⟩ := Option.isSome_iff_exists.mp (h k (by simp))
          simp [hv, ih fun x hx => h x (by simp [hx])]
    exact key d.keys fun k hk => (d.mem_keys k).mp hk
  rw [hfst]
  exact d.nodup

theorem foldl_items {β : Type} {f : β → κ × ν → β} {k : κ} (hf : ∀ b q, q.1 ≠ k → f b q = b) (d : Dict κ ν) (b : β) :
    d.items.foldl f b = ((d.get? k).map fun v => f b (k, v)).getD b := by
  have hskip : ∀ (l : List (κ × ν)) (b : β), k ∉ l.map Prod.fst → l.foldl f b = b := by
    intro l
    induction l with
    | nil => exact fun _ _ => rfl
    | cons q l ih =>
        intro b hk
        rw [List.map_cons, List.mem_cons, not_or] at hk
        rw [List.foldl_cons, hf b q (Ne.symm hk.1), ih b hk.2]
  have hnd := d.nodup_items
  cases hv : d.get? k with
  | none =>
      refine hskip d.items b fun hk => ?_
      obtain ⟨⟨k', v⟩, hq, rfl⟩ := List.mem_map.mp hk
      cases hv.symm.trans (mem_items.mp hq)
  | some v =>
      obtain ⟨s, t, hst⟩ := List.append_of_mem (mem_items.mpr hv)
      rw [hst, List.map_append, List.map_cons, List.nodup_append] at hnd
      obtain ⟨-, ht, hdisj⟩ := hnd
      rw [hst, List.foldl_append, hskip s b fun hk => hdisj k hk k (by simp) rfl, List.foldl_cons, hskip t _ (List.nodup_cons.mp ht).1]
      rfl

variable [DecidableEq κ]

/-- `d[k] = v`. -/
def set (d : Dict κ ν) (k : κ) (v : ν) : Dict κ ν where
  keys := if (d.get? k).isSome then d.keys else d.keys ++ [k]
  get? := Function.update d.get? k (some v)
  nodup := by
    split
    · exact d.nodup
    · next h =>
      have hk : k ∉ d.keys := fun hm => h ((d.mem_keys k).mp hm)
      exact List.nodup_append.mpr ⟨d.nodup, List.nodup_singleton k, by
        rintro a ha b hb rfl
        exact hk (List.mem_singleton.mp hb ▸ ha)⟩
  mem_keys := by
    intro k'
    by_cases hk : k' = k
    · subst hk
      split <;> simp_all [d.mem_keys]
    · split <;> simp [hk, d.mem_keys]

/-- `del d[k]`, for a key that is present. -/
def erase (d : Dict κ ν) (k : κ) : Dict κ ν where
  keys := d.keys.erase k
  get? := Function.update d.get? k none
  nodup := d.nodup.erase k
  mem_keys := by
    intro k'
    rw [d.nodup.mem_erase_iff]
    by_cases hk : k' = k
    · simp [hk]
    · simp [hk, d.mem_keys]

theorem get?_set (d : Dict κ ν) (k k' : κ) (v : ν) :
    (d.set k v).get? k' = if k' = k then some v else d.get? k' := by
  simp [set, Function.update_apply]

@[simp] theorem get?_set_self (d : Dict κ ν) (k : κ) (v : ν) : (d.set k v).get? k = some v := by
  simp [set]

theorem get?_foldl_set {ι : Type} [DecidableEq ι] {key : ι → κ} (hkey : Function.Injective key) (val : ι → ν) (l : List ι) (d : Dict κ ν)
    (i : ι) : (l.foldl (fun d i => d.set (key i) (val i)) d).get? (key i) = if i ∈ l then some (val i) else d.get? (key i) := by
  induction l generalizing d with
  | nil => rfl
  | cons j l ih =>
      rw [List.foldl_cons, ih, get?_set]
      by_cases hl : i ∈ l
      · rw [if_pos hl, if_pos (List.mem_cons_of_mem j hl)]
      · rw [if_neg hl]
        by_cases hij : i = j
        · rw [if_pos (congrArg key hij), if_pos (by simp [hij]), hij]
        · rw [if_neg (hkey.ne hij), if_neg (by simp [hij, hl])]

theorem get?_set_of_ne (d : Dict κ ν) {k k' : κ} (h : k' ≠ k) (v : ν) :
    (d.set k v).get? k' = d.get? k' := by
  simp [set, h]

theorem get?_erase (d : Dict κ ν) (k k' : κ) :
    (d.erase k).get? k' = if k' = k then none else d.get? k' := by
  simp [erase, Function.update_apply]

theorem keys_set_of_none {d : Dict κ ν} {k : κ} (h : d.get? k = none) (v : ν) :
    (d.set k v).keys = d.keys ++ [k] := by
  simp [set, h]

theorem keys_set_of_some {d : Dict κ ν} {k : κ} {w : ν} (h : d.get? k = some w) (v : ν) :
    (d.set k v).keys = d.keys := by
  simp [set, h]

/-- Deleting a key that was just inserted gives the dictionary back, order included. -/
theorem erase_set {d : Dict κ ν} {k : κ} (h : d.get? k = none) (v : ν) : (d.set k v).erase k = d := by
  apply ext
  · simp only [erase, keys_set_of_none h]
    rw [List.erase_append_right _ (not_mem_keys.mpr h)]
    simp
  · simp [erase, set, ← h]

theorem set_set {d : Dict κ ν} {k : κ} {v : ν} (h : d.get? k = some v) (w : ν) :
    (d.set k w).set k v = d := by
  apply ext
  · rw [keys_set_of_some (get?_set_self d k w), keys_set_of_some h]
  · simp [set, ← h]

theorem set_idem (d : Dict κ ν) (k : κ) (v w : ν) : (d.set k v).set k w = d.set k w := by
  apply ext
  · rw [keys_set_of_some (get?_set_self _ _ _)]
    simp [set]
  · simp [set]

theorem erase_set_idem {d : Dict κ ν} {k : κ} {v : ν} (h : d.get? k = some v) (w : ν) :
    (d.set k w).erase k = d.erase k := by
  apply ext
  · simp [erase, keys_set_of_some h]
  · simp [erase, set]

/-- `{k: v for k, v in l}`. -/
def ofList (l : List (κ × ν)) : Dict κ ν := l.foldl (fun d kv => d.set kv.1 kv.2) empty

theorem mem_of_get?_ofList {l : List (κ × ν)} {k : κ} {v : ν} (h : (ofList l).get? k = some v) : (k, v) ∈ l := by
  have key : ∀ (l : List (κ × ν)) (d : Dict κ ν), (l.foldl (fun d kv => d.set kv.1 kv.2) d).get? k = some v →
      d.get? k = some v ∨ (k, v) ∈ l := by
    intro l
    induction l with
    | nil => exact fun _ => .inl
    | cons kv l ih =>
        intro d h
        rcases ih _ h with h | h
        · rw [get?_set] at h
          split at h
          · next hk =>
              cases h
              exact .inr (by simp [hk])
          · exact .inl h
        · exact .inr (List.mem_cons_of_mem kv h)
  rcases key l empty h with h | h
  · cases h
  · exact h

theorem items_set_of_none {d : Dict κ ν} {k : κ} (h : d.get? k = none) (v : ν) :
    (d.set k v).items = d.items ++ [(k, v)] := by
  have hk := not_mem_keys.mpr h
  rw [items, keys_set_of_none h, List.filterMap_append, items]
  congr 1
  · refine List.filterMap_congr fun x hx => ?_
    rw [get?_set_of_ne]
    rintro rfl
    exact hk hx
  · simp

theorem items_set_of_some {d : Dict κ ν} {k : κ} {w : ν} (h : d.get? k = some w) (v : ν) :
    (d.set k v).items = d.items.map fun q => if q.1 = k then (k, v) else q := by
  rw [items, keys_set_of_some h, items, List.map_filterMap]
  refine List.filterMap_congr fun x hx => ?_
  by_cases hk : x = k
  · simp [hk, h]
  · rw [get?_set_of_ne d hk]
    cases d.get? x with
    | none => rfl
    | some u => simp [hk]

/-- Distinct keys come out in the order they went in. -/
theorem items_ofList {l : List (κ × ν)} (h : (l.map Prod.fst).Nodup) : (ofList l).items = l := by
  have key : ∀ (l : List (κ × ν)) (d : Dict κ ν), (l.map Prod.fst).Nodup →
      (∀ kv ∈ l, d.get? kv.1 = none) →
      (l.foldl (fun d kv => d.set kv.1 kv.2) d).items = d.items ++ l := by
    intro l
    induction l with
    | nil => intro d _ _; simp
    | cons kv l ih =>
        intro d hnd hd
        obtain ⟨hkv, hnd⟩ := List.nodup_cons.mp hnd
        rw [List.foldl_cons, ih _ hnd, items_set_of_none (hd kv (by simp)), List.append_assoc]
        · rfl
        · intro x hx
          rw [get?_set_of_ne]
          · exact hd x (by simp [hx])
          · rintro hxk
            exact hkv (hxk ▸ List.mem_map_of_mem hx)
  rw [ofList, key l empty h fun _ _ => rfl]
  rfl

end Dict
end Vliw
