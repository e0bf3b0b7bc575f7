import VliwKernel.Scheduler.Pool
import Mathlib.Data.List.Basic

/-!
# The pool's bundle realises what landed

While a cycle is being filled, each node that landed lanes has exactly the entries for them: one
whole slot on its own engine, or one slot per lane. Eviction changes the form and nothing else.
-/

namespace Vliw

/-- What a node landed in this cycle: its resolved instruction and the lanes `lo .. hi - 1`. -/
structure Landing where
  instr : Instr Reg
  lo : Nat
  hi : Nat

abbrev Ledger := Nat → Option Landing

/-- The slot of one lane of an instruction that can be split into lanes. -/
def laneSlot (instr : Instr Reg) (j : Nat) : TaggedSlot :=
  match instr.op with
  | .vBroadcast dest src => ⟨.arith .add (dest.addr + j) src.addr 0, some instr.rid⟩
  | .vecElem op dest a1 a2 => ⟨.arith op (dest.addr + j) (a1.addr + j) (a2.addr + j), some instr.rid⟩
  | .gather dest addr => ⟨.load (dest.addr + j) (addr.addr + j), none⟩
  | _ => ⟨.halt, none⟩

def laneEntries (node : Nat) (instr : Instr Reg) (lo n : Nat) : List Entry :=
  (List.range' lo n).map fun j => .lane node j (laneSlot instr j)

def laneEngine (instr : Instr Reg) : Engine := if instr.op.isGather then .load else .alu

namespace FuncUnitPool

def ofNode (b : Dict Engine (List Entry)) (e : Engine) (i : Nat) : List Entry :=
  (slots b e).filter (·.node = i)

inductive Realised (b : Dict Engine (List Entry)) (i : Nat) (x : Landing) : Prop
  | whole : x.lo = 0 → x.hi = (classify x.instr.op).lanesTotal → (classify x.instr.op).kind ≠ .gather →
      (∀ e, ofNode b e i = if e = x.instr.engine then [.whole i x.instr] else []) → Realised b i x
  | lanes : (classify x.instr.op).kind = .vecElem ∨ (classify x.instr.op).kind = .gather →
      (∀ e, ofNode b e i = if e = laneEngine x.instr then laneEntries i x.instr x.lo (x.hi - x.lo) else []) →
      Realised b i x

/-- An evictable node is whole on `valu`, at the recorded index. -/
def Evictable (M : Ledger) (b : Dict Engine (List Entry)) (v : ValuElem) : Prop :=
  ∃ r slot, v.home = some (r, slot) ∧ (classify r.op).kind = .vecElem ∧ M v.node = some ⟨r, 0, VLEN⟩ ∧
    (slots b .valu)[slot]? = some (.whole v.node r)

def slotOf (v : ValuElem) : Nat := (v.home.map Prod.snd).getD 0

structure Inv (M : Ledger) (p : FuncUnitPool) : Prop where
  free : ∀ {e}, e ≠ .debug → p.free e + (slots p.bundle e).length = SLOT_LIMITS e
  absent : ∀ {i}, M i = none → ∀ e, ofNode p.bundle e i = []
  realised : ∀ {i x}, M i = some x → Realised p.bundle i x
  elems : ∀ v ∈ p.valuElems, Evictable M p.bundle v
  sorted : p.valuElems.Pairwise fun v u => slotOf u < slotOf v

theorem Inv.fresh : Inv (fun _ => none) fresh where
  free _ := by simp [FuncUnitPool.fresh, slots]
  absent _ e := by simp [FuncUnitPool.fresh, ofNode, slots]
  realised h := by cases h
  elems v h := by simp [FuncUnitPool.fresh] at h
  sorted := List.Pairwise.nil

theorem slots_append (b : Dict Engine (List Entry)) (e e' : Engine) (es : List Entry) :
    slots (append b e es) e' = if e' = e then slots b e ++ es else slots b e' := by
  cases es with
  | nil =>
      simp only [append, List.isEmpty_nil, if_true, List.append_nil]
      split
      · next h => rw [h]
      · rfl
  | cons x es =>
      simp only [append, List.isEmpty_cons, Bool.false_eq_true, if_false]
      rw [slots, Dict.get?_set]
      split <;> rfl

theorem ofNode_append {b : Dict Engine (List Entry)} {e : Engine} {es : List Entry} {i j : Nat}
    (h : ∀ x ∈ es, x.node = i) (e' : Engine) :
    ofNode (append b e es) e' j = ofNode b e' j ++ if e' = e ∧ j = i then es else [] := by
  rw [ofNode, slots_append]
  by_cases he : e' = e
  · subst he
    rw [if_pos rfl, List.filter_append, ofNode]
    congr 1
    by_cases hj : j = i
    · rw [if_pos ⟨rfl, hj⟩, List.filter_eq_self]
      intro x hx
      simp [h x hx, hj]
    · rw [if_neg fun hc => hj hc.2, List.filter_eq_nil_iff]
      intro x hx
      simpa [h x hx] using Ne.symm hj
  · rw [if_neg he, if_neg fun hc => he hc.1, List.append_nil, ofNode]

theorem getElem?_slots_append {b : Dict Engine (List Entry)} {e : Engine} {es : List Entry} {e' : Engine} {k : Nat}
    {x : Entry} (h : (slots b e')[k]? = some x) : (slots (append b e es) e')[k]? = some x := by
  rw [slots_append]
  split
  · next he =>
      subst he
      rw [List.getElem?_append_left (List.getElem?_eq_some_iff.mp h).1]
      exact h
  · exact h

theorem Realised.congr {b b' : Dict Engine (List Entry)} {i : Nat} {x : Landing}
    (h : ∀ e, ofNode b' e i = ofNode b e i) (hr : Realised b i x) : Realised b' i x := by
  cases hr with
  | whole h₁ h₂ h₃ h₄ => exact .whole h₁ h₂ h₃ fun e => (h e).trans (h₄ e)
  | lanes h₁ h₂ => exact .lanes h₁ fun e => (h e).trans (h₂ e)

theorem Inv.append {M : Ledger} {p : FuncUnitPool} (h : Inv M p) {e : Engine} {es : List Entry} {i : Nat}
    {x : Landing} (hM : M i = none) (hes : ∀ y ∈ es, y.node = i) (hfree : e ≠ .debug → es.length ≤ p.free e)
    (hx : Realised (append p.bundle e es) i x) (elems : List ValuElem)
    (helems : ∀ v ∈ elems, v ∈ p.valuElems ∨
      Evictable (Function.update M i (some x)) (FuncUnitPool.append p.bundle e es) v)
    (hsorted : elems.Pairwise fun v u => slotOf u < slotOf v) (free : Engine → Nat)
    (hnew : ∀ e', e' ≠ .debug → free e' = if e' = e then p.free e - es.length else p.free e') :
    Inv (Function.update M i (some x)) ⟨free, FuncUnitPool.append p.bundle e es, elems⟩ := by
  constructor
  case free =>
    intro e' he'
    have := h.free he'
    show free e' + (slots (FuncUnitPool.append p.bundle e es) e').length = SLOT_LIMITS e'
    rw [hnew e' he', slots_append]
    split
    · next hee =>
        subst hee
        have := hfree he'
        rw [List.length_append]
        omega
    · exact this
  case absent =>
    intro j hj e'
    have hji : j ≠ i := by
      rintro rfl
      simp at hj
    rw [ofNode_append hes, if_neg fun hc => hji hc.2, List.append_nil]
    exact h.absent (by simpa [hji] using hj) e'
  case realised =>
    intro j y hj
    by_cases hji : j = i
    · subst hji
      simp only [Function.update_self, Option.some.injEq] at hj
      subst hj
      exact hx
    · refine Realised.congr (fun e' => ?_) (h.realised (by simpa [hji] using hj))
      rw [ofNode_append hes, if_neg fun hc => hji hc.2, List.append_nil]
  case elems =>
    intro v hv
    rcases helems v hv with hv | hv
    · obtain ⟨r, slot, hhome, hk, hm, hs⟩ := h.elems v hv
      refine ⟨r, slot, hhome, hk, ?_, getElem?_slots_append hs⟩
      rw [Function.update_of_ne]
      · exact hm
      · rintro rfl
        rw [hM] at hm
        cases hm
    · exact hv
  case sorted => exact hsorted

section whole

variable {M : Ledger} {p : FuncUnitPool} {pl : Placement.Log} {i : Nat} {r : Instr Reg}

theorem kind_eq_gather {α : Type} {op : Op α} : (classify op).kind = .gather ↔ op.isGather = true := by
  cases op <;> simp [classify, Op.engine, Op.isGather]

/-- A whole instruction on its own engine, no matter how the free counts are bookkept. -/
theorem Inv.whole (h : Inv M p) (hM : M i = none) (hk : (classify r.op).kind ≠ .gather)
    (hfree : r.engine ≠ .debug → 0 < p.free r.engine) (elems : List ValuElem)
    (helems : ∀ v ∈ elems, v ∈ p.valuElems ∨ (v = ⟨i, some (r, (slots p.bundle .valu).length)⟩ ∧
      (classify r.op).kind = .vecElem))
    (hsorted : elems.Pairwise fun v u => slotOf u < slotOf v) (free : Engine → Nat)
    (hnew : ∀ e', e' ≠ .debug → free e' = if e' = r.engine then p.free e' - 1 else p.free e') :
    Inv (Function.update M i (some ⟨r, 0, (classify r.op).lanesTotal⟩))
      ⟨free, FuncUnitPool.append p.bundle r.engine [.whole i r], elems⟩ := by
  have hes : ∀ y ∈ [Entry.whole i r], y.node = i := by simp [Entry.node]
  refine h.append hM hes (fun he => by simpa using Nat.succ_le_of_lt (hfree he)) ?_ elems (fun v hv => ?_) hsorted free ?_
  · refine .whole rfl rfl hk fun e => ?_
    rw [ofNode_append hes, h.absent hM, List.nil_append]
    simp
  · rcases helems v hv with hv | ⟨rfl, hvk⟩
    · exact .inl hv
    · have heng : r.engine = .valu := by
        revert hvk
        cases hr : r.op <;> simp [classify, Op.engine, Instr.engine, hr, Op.isGather]
      refine .inr ⟨r, _, rfl, hvk, ?_, ?_⟩
      · rw [Function.update_self]
        congr 2
        revert hvk
        cases r.op <;> simp [classify, Op.engine, Op.isGather]
      · rw [slots_append, if_pos heng.symm, heng]
        simp
  · intro e' he'
    rw [hnew e' he']
    split
    · next hee => rw [hee]; rfl
    · rfl

end whole

theorem Inv.lanes {M : Ledger} {p : FuncUnitPool} {i : Nat} {r : Instr Reg} (h : Inv M p) (hM : M i = none)
    (lo n : Nat) (hk : (classify r.op).kind = .vecElem ∨ (classify r.op).kind = .gather) (hn : n ≤ p.free (laneEngine r))
    (bundle : Dict Engine (List Entry))
    (hb : bundle = FuncUnitPool.append p.bundle (laneEngine r) (laneEntries i r lo n)) :
    Inv (Function.update M i (some ⟨r, lo, lo + n⟩)) { p.take (laneEngine r) n with bundle := bundle } := by
  subst hb
  have hes : ∀ y ∈ laneEntries i r lo n, y.node = i := by
    intro y hy
    obtain ⟨j, -, rfl⟩ := List.mem_map.mp hy
    rfl
  have hlen : (laneEntries i r lo n).length = n := by simp [laneEntries]
  have he : laneEngine r ≠ .debug := by
    unfold laneEngine
    split <;> simp
  refine h.append hM hes (fun _ => by rwa [hlen]) (.lanes hk fun e => ?_) _ (fun v hv => .inl hv) h.sorted _ ?_
  · rw [ofNode_append hes, h.absent hM, List.nil_append, Nat.add_sub_cancel_left]
    simp
  · intro e' _
    rw [hlen]
    simp only [FuncUnitPool.take, Function.update_apply]

theorem filter_eraseIdx {l : List Entry} {k : Nat} {x : Entry} (hx : l[k]? = some x) (q : Entry → Bool) :
    (q x = false → (l.eraseIdx k).filter q = l.filter q) ∧
      (q x = true → l.filter q = [x] → (l.eraseIdx k).filter q = []) := by
  obtain ⟨hk, hlk⟩ := List.getElem?_eq_some_iff.mp hx
  have hl : l = l.take k ++ x :: l.drop (k + 1) := by
    rw [← hlk, List.getElem_cons_drop, List.take_append_drop]
  have he : l.eraseIdx k = l.take k ++ l.drop (k + 1) :=
    List.eraseIdx_eq_take_drop_succ l k
  refine ⟨fun hq => ?_, fun hq h1 => ?_⟩
  · conv_rhs => rw [hl]
    simp [he, List.filter_append, hq]
  · rw [hl] at h1
    have hlen := congrArg List.length h1
    simp only [List.filter_append, List.filter_cons, hq, if_true, List.length_append, List.length_cons,
      List.length_nil] at hlen
    rw [he, List.filter_append, List.append_eq_nil_iff]
    exact ⟨List.length_eq_zero_iff.mp (by omega), List.length_eq_zero_iff.mp (by omega)⟩

def evicted (b : Dict Engine (List Entry)) (i : Nat) (r : Instr Reg) (slot : Nat) : Dict Engine (List Entry) :=
  FuncUnitPool.append (b.set .valu ((slots b .valu).eraseIdx slot)) .alu (laneEntries i r 0 VLEN)

section evict

variable {M : Ledger} {p : FuncUnitPool} {i slot : Nat} {r : Instr Reg}

theorem Inv.ofNode_whole (h : Inv M p) (hk : (classify r.op).kind = .vecElem) (hm : M i = some ⟨r, 0, VLEN⟩)
    (hs : (slots p.bundle .valu)[slot]? = some (.whole i r)) (e : Engine) :
    ofNode p.bundle e i = if e = .valu then [.whole i r] else [] := by
  have heng : r.engine = .valu := by
    revert hk
    cases hr : r.op <;> simp [classify, Op.engine, Instr.engine, hr, Op.isGather]
  have hng : r.op.isGather = false := by
    rw [← Bool.not_eq_true, ← kind_eq_gather, hk]
    simp
  cases h.realised hm with
  | whole _ _ _ hw => exact heng ▸ hw e
  | lanes _ hl =>
      have hmem : Entry.whole i r ∈ ofNode p.bundle .valu i :=
        List.mem_filter.mpr ⟨List.mem_of_getElem? hs, by simp [Entry.node]⟩
      rw [hl] at hmem
      simp [laneEngine, hng] at hmem

theorem Inv.ofNode_evicted (h : Inv M p) (hk : (classify r.op).kind = .vecElem) (hm : M i = some ⟨r, 0, VLEN⟩)
    (hs : (slots p.bundle .valu)[slot]? = some (.whole i r)) (e : Engine) (j : Nat) :
    ofNode (evicted p.bundle i r slot) e j =
      if j = i then (if e = .alu then laneEntries i r 0 VLEN else []) else ofNode p.bundle e j := by
  have hmain := h.ofNode_whole hk hm hs
  have hes : ∀ y ∈ laneEntries i r 0 VLEN, y.node = i := by
    intro y hy
    obtain ⟨k, -, rfl⟩ := List.mem_map.mp hy
    rfl
  have hset : ofNode (p.bundle.set .valu ((slots p.bundle .valu).eraseIdx slot)) e j =
      if j = i ∧ e = .valu then [] else ofNode p.bundle e j := by
    rw [ofNode, slots, Dict.get?_set]
    by_cases he : e = .valu
    · subst he
      simp only [if_true, Option.getD_some, and_true]
      by_cases hi : j = i
      · subst hi
        rw [if_pos rfl]
        exact (filter_eraseIdx hs _).2 (by simp [Entry.node]) (by simpa [ofNode] using hmain .valu)
      · rw [if_neg hi]
        exact (filter_eraseIdx hs _).1 (decide_eq_false (Ne.symm hi))
    · rw [if_neg he, if_neg fun hc => he hc.2]
      rfl
  rw [evicted, ofNode_append hes, hset]
  by_cases hi : j = i
  · subst hi
    by_cases he : e = .valu
    · simp [he]
    · simp [he, hmain]
  · simp [hi]

theorem length_evicted {b : Dict Engine (List Entry)} {x : Entry} (hs : (slots b .valu)[slot]? = some x) (e : Engine) :
    (slots (evicted b i r slot) e).length =
      if e = .alu then (slots b .alu).length + VLEN else if e = .valu then (slots b .valu).length - 1 else (slots b e).length := by
  have hlt := (List.getElem?_eq_some_iff.mp hs).1
  rw [evicted, slots_append]
  by_cases hea : e = .alu
  · subst hea
    rw [if_pos rfl, if_pos rfl, List.length_append, slots, Dict.get?_set_of_ne _ (by simp)]
    simp [slots, laneEntries]
  · rw [if_neg hea, if_neg hea, slots, Dict.get?_set]
    by_cases hev : e = .valu
    · rw [if_pos hev, if_pos hev, Option.getD_some, List.length_eraseIdx, if_pos hlt]
    · rw [if_neg hev, if_neg hev]
      rfl

theorem Inv.evict {v : ValuElem} {rest : List ValuElem}
    (h : Inv M p) (hv : p.valuElems = v :: rest) (hhome : v.home = some (r, slot)) (halu : VLEN ≤ p.free .alu)
    (free : Engine → Nat) (hvalu : free .valu = p.free .valu + 1) (hfa : free .alu = p.free .alu - VLEN)
    (hother : ∀ e, e ≠ .valu → e ≠ .alu → free e = p.free e) :
    Inv M ⟨free, evicted p.bundle v.node r slot, rest⟩ := by
  obtain ⟨r', slot', hhome', hk, hm, hs⟩ := h.elems v (by simp [hv])
  obtain ⟨rfl, rfl⟩ : r' = r ∧ slot' = slot := by
    rw [hhome] at hhome'
    simpa [eq_comm] using hhome'
  have hnode := h.ofNode_evicted hk hm hs
  constructor
  case free =>
    intro e he
    have := h.free he
    have hlt := (List.getElem?_eq_some_iff.mp hs).1
    show free e + (slots (evicted p.bundle v.node r' slot') e).length = SLOT_LIMITS e
    rw [length_evicted hs]
    by_cases hea : e = .alu
    · subst hea
      rw [if_pos rfl, hfa]
      omega
    · rw [if_neg hea]
      by_cases hev : e = .valu
      · subst hev
        rw [if_pos rfl, hvalu]
        omega
      · rw [if_neg hev, hother e hev hea, this]
  case absent =>
    intro i hi e
    have hne : i ≠ v.node := by
      rintro rfl
      rw [hm] at hi
      cases hi
    show ofNode (evicted p.bundle v.node r' slot') e i = []
    rw [hnode, if_neg hne]
    exact h.absent hi e
  case realised =>
    intro i x hx
    show Realised (evicted p.bundle v.node r' slot') i x
    by_cases hi : i = v.node
    · subst hi
      cases hm.symm.trans hx
      have hng : r'.op.isGather = false := by
        rw [← Bool.not_eq_true, ← kind_eq_gather, hk]
        simp
      refine .lanes (.inl hk) fun e => ?_
      rw [hnode, if_pos rfl]
      simp [laneEngine, hng]
    · exact (h.realised hx).congr fun e => by rw [hnode, if_neg hi]
  case elems =>
    intro u hu
    obtain ⟨r'', slot'', hhome'', hk'', hm'', hs''⟩ := h.elems u (by simp [hv, hu])
    have hlt : slot'' < slot' := by
      have := (List.pairwise_cons.mp (hv ▸ h.sorted)).1 u hu
      simpa [slotOf, hhome, hhome''] using this
    refine ⟨r'', slot'', hhome'', hk'', hm'', ?_⟩
    show (slots (evicted p.bundle v.node r' slot') .valu)[slot'']? = _
    refine getElem?_slots_append ?_
    rw [slots, Dict.get?_set_self, Option.getD_some, List.getElem?_eraseIdx_of_lt hlt]
    exact hs''
  case sorted => exact (List.pairwise_cons.mp (hv ▸ h.sorted)).2

end evict

end FuncUnitPool
end Vliw
