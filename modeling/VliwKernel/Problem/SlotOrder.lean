import VliwKernel.Lib.Reorder
import VliwKernel.Problem.Footprint
import VliwKernel.Problem.Pausing

/-!
# The order of the slots

The simulator goes through the slots of a bundle one by one, but all effects wait for the end of the cycle. So a bundle may
list its engines and their slots in any order, if no two of its slots leave a word with different values.
-/

namespace Vliw

structure Bundle.Shuffled (b b' : Bundle) : Prop where
  keys : b.keys.Perm b'.keys
  slots : ∀ e, ((b.get? e).getD []).Perm ((b'.get? e).getD [])

structure Writes.Same (v w : Writes) : Prop where
  scratch : v.scratch.Perm w.scratch
  mem : v.mem.Perm w.mem

namespace Writes

variable {u v w v' w' : Writes}

theorem Same.refl (w : Writes) : w.Same w := ⟨.refl _, .refl _⟩

theorem Same.trans (h : u.Same v) (h' : v.Same w) : u.Same w := ⟨h.scratch.trans h'.scratch, h.mem.trans h'.mem⟩

theorem Same.append (h : v.Same w) (h' : v'.Same w') : (v.append v').Same (w.append w') :=
  ⟨h.scratch.append h'.scratch, h.mem.append h'.mem⟩

theorem Same.swap (u v w : Writes) : ((u.append v).append w).Same ((u.append w).append v) := by
  constructor
  · simp only [Writes.append, List.append_assoc]
    exact List.perm_append_comm.append_left _
  · simp only [Writes.append, List.append_assoc]
    exact List.perm_append_comm.append_left _

end Writes
namespace Machine

section passes

variable {m : Machine} {e : Engine} {cw cw' r : Core × Writes} {ss ss' : List Slot}

structure Same (cw cw' : Core × Writes) : Prop where
  core : cw'.1 = cw.1
  writes : cw.2.Same cw'.2

theorem Same.refl (cw : Core × Writes) : Same cw cw := ⟨rfl, .refl _⟩

theorem Same.trans {cw'' : Core × Writes} (h : Same cw cw') (h' : Same cw' cw'') : Same cw cw'' :=
  ⟨h'.core.trans h.core, h.writes.trans h'.writes⟩

def pass (m : Machine) (e : Engine) (cw : Core × Writes) (s : Slot) : Except PyErr (Core × Writes) :=
  (execSlot m e cw.1 s).map fun r => (r.1, cw.2.append r.2)

theorem execSlots_eq (m : Machine) (e : Engine) (ss : List Slot) (cw : Core × Writes) : execSlots m e ss cw = ss.foldlM (pass m e) cw := by
  induction ss generalizing cw with
  | nil => rfl
  | cons s ss ih =>
      rw [execSlots, List.foldlM_cons, pass, map_bind]
      exact bind_congr (m := Except PyErr) fun r => ih _

theorem pass_related {s : Slot} (h : Same cw cw') (hp : pass m e cw s = .ok r) : ∃ r', pass m e cw' s = .ok r' ∧ Same r r' := by
  obtain ⟨x, hx, rfl⟩ := map_eq_ok.mp hp
  exact ⟨(x.1, cw'.2.append x.2), by rw [pass, h.core, hx]; rfl, rfl, h.writes.append (.refl _)⟩

theorem pass_swap (he : e ≠ .flow) {s s' : Slot} {cw₁ cw₂ : Core × Writes} (h : pass m e cw s = .ok cw₁) (h' : pass m e cw₁ s' = .ok cw₂) :
    ∃ r₁ r₂, pass m e cw s' = .ok r₁ ∧ pass m e r₁ s = .ok r₂ ∧ Same cw₂ r₂ := by
  obtain ⟨⟨c, v⟩, hx, rfl⟩ := map_eq_ok.mp h
  obtain ⟨⟨c', w⟩, hy, rfl⟩ := map_eq_ok.mp h'
  obtain rfl : c = cw.1 := execSlot_core he hx
  obtain rfl : c' = cw.1 := execSlot_core he hy
  refine ⟨(cw.1, cw.2.append w), (cw.1, (cw.2.append w).append v), ?_, ?_, rfl, .swap _ _ _⟩
  · exact congrArg (Except.map _) hy
  · exact congrArg (Except.map _) hx

theorem execSlots_perm (he : e ≠ .flow) (h : ss.Perm ss') (hcw : Same cw cw') (hr : execSlots m e ss cw = .ok r) :
    ∃ r', execSlots m e ss' cw' = .ok r' ∧ Same r r' := by
  rw [execSlots_eq] at hr
  obtain ⟨r', hr', hsame⟩ := foldlM_perm (f := pass m e) (P := fun _ _ => True) (fun _ => trivial) Same.refl Same.trans (fun h hp => pass_related h hp)
    (fun _ hp hp' => pass_swap he hp hp') h (List.pairwise_of_forall fun _ _ => trivial) hcw hr
  exact ⟨r', (execSlots_eq ..).trans hr', hsame⟩

theorem execSlots_related (hcw : Same cw cw') (hr : execSlots m e ss cw = .ok r) : ∃ r', execSlots m e ss cw' = .ok r' ∧ Same r r' := by
  rw [execSlots_eq] at hr
  obtain ⟨r', hr', hsame⟩ := foldlM_related (f := pass m e) (fun h hp => pass_related h hp) hcw hr
  exact ⟨r', (execSlots_eq ..).trans hr', hsame⟩

theorem execEngine_perm (h : ss.Perm ss') (hcw : Same cw cw') (hr : execEngine m cw (e, ss) = .ok r) :
    ∃ r', execEngine m cw' (e, ss') = .ok r' ∧ Same r r' := by
  rw [execEngine] at hr
  rw [execEngine]
  by_cases hdebug : e = .debug
  · rw [if_pos hdebug] at hr ⊢
    cases hon : m.enableDebug with
    | false =>
        rw [hon] at hr
        cases hr
        exact ⟨cw', rfl, hcw⟩
    | true =>
        rw [hon] at hr
        obtain ⟨us, hus, hr⟩ := bind_eq_ok.mp hr
        cases hr
        have hpass : ∀ s ∈ ss, debugCheck cw.1 m.valueTrace s = .ok () := by
          intro s hs
          obtain ⟨i, hi⟩ := List.getElem?_of_mem hs
          obtain ⟨_, _, hcheck⟩ := (mapM_eq_ok hus).2 hi
          exact hcheck
        have hpass' : ss'.mapM (debugCheck cw'.1 m.valueTrace) = .ok (ss'.map fun _ => ()) := by
          refine mapM_ok fun s hs => ?_
          rw [hcw.core]
          exact hpass s (h.mem_iff.mpr hs)
        exact ⟨cw', by rw [if_pos rfl, hpass']; rfl, hcw⟩
  · rw [if_neg hdebug] at hr ⊢
    split at hr
    · next hlen =>
        rw [if_pos (h.length_eq ▸ hlen)]
        by_cases he : e = .flow
        · subst he
          rcases ss with _ | ⟨s, _ | ⟨s', ss⟩⟩
          · obtain rfl := h.nil_eq
            exact execSlots_related hcw hr
          · obtain rfl := List.singleton_perm.mp h
            exact execSlots_related hcw hr
          · exact absurd hlen (by simp [SLOT_LIMITS])
        · exact execSlots_perm he h hcw hr
    · cases hr

end passes
section items

variable {m : Machine} {c : Core} {cw cw' r : Core × Writes} {item item' : Engine × List Slot} {items items' : List (Engine × List Slot)}

theorem flow_scratch {c' : Core} {p : Bool} {s : Slot} {ws : List (Nat × Nat)} (h : flow c p s = .ok (c', ws)) : c'.scratch = c.scratch := by
  cases s with
  | select dest cond a b =>
      obtain ⟨x, -, h⟩ := bind_eq_ok.mp h
      obtain ⟨y, -, h⟩ := bind_eq_ok.mp h
      cases h
      rfl
  | addImm | vselect | traceWrite | jumpIndirect =>
      obtain ⟨x, -, h⟩ := bind_eq_ok.mp h
      cases h
      rfl
  | condJump | condJumpRel =>
      obtain ⟨x, -, h⟩ := bind_eq_ok.mp h
      cases h
      split <;> rfl
  | pause =>
      cases h
      split <;> rfl
  | halt | jump _ | coreid _ =>
      cases h
      rfl
  | _ => cases h

theorem execSlots_append (m : Machine) (e : Engine) (ss : List Slot) (c : Core) (v w : Writes) :
    execSlots m e ss (c, v.append w) = (execSlots m e ss (c, w)).map fun r => (r.1, v.append r.2) := by
  induction ss generalizing c w with
  | nil => rfl
  | cons s ss ih =>
      rw [execSlots, execSlots, bind_map]
      refine bind_congr (m := Except PyErr) fun r => ?_
      have hassoc : (v.append w).append r.2 = v.append (w.append r.2) := by simp only [Writes.append, List.append_assoc]
      dsimp only
      rw [hassoc]
      exact ih r.1 (w.append r.2)

theorem execEngine_append (m : Machine) (item : Engine × List Slot) (c : Core) (w : Writes) :
    execEngine m (c, w) item = (execEngine m (c, {}) item).map fun r => (r.1, w.append r.2) := by
  have hnil : w.append {} = w := by simp [Writes.append]
  rw [execEngine, execEngine]
  split
  · cases m.enableDebug with
    | false => exact congrArg (fun w => Except.ok (c, w)) hnil.symm
    | true =>
        simp only [if_true, bind_map]
        exact bind_congr (m := Except PyErr) fun _ => congrArg (fun w => Except.ok (c, w)) hnil.symm
  · split
    · have happend := execSlots_append m item.1 item.2 c w {}
      rwa [hnil] at happend
    · rfl

theorem execEngine_scratch (h : execEngine m cw item = .ok r) : r.1.scratch = cw.1.scratch := by
  by_cases he : item.1 = .flow
  · obtain ⟨e, ss⟩ := item
    obtain rfl : e = .flow := he
    rw [execEngine_flow] at h
    split at h
    · rw [execSlots_eq] at h
      refine foldlM_inv (I := fun r : Core × Writes => r.1.scratch = cw.1.scratch) (fun s _ a a' hp ha => ?_) h rfl
      obtain ⟨⟨c', w⟩, hx, rfl⟩ := map_eq_ok.mp hp
      obtain ⟨⟨c'', ws⟩, hflow, hx⟩ := bind_eq_ok.mp hx
      cases hx
      exact (flow_scratch hflow).trans ha
    · cases h
  · rw [execEngine_core he h]

theorem execEngine_related (h : Same cw cw') (hr : execEngine m cw item = .ok r) : ∃ r', execEngine m cw' item = .ok r' ∧ Same r r' :=
  execEngine_perm (.refl _) h hr

/-- Two engines may change places: only one of them takes the core further, and the other does not look at that. -/
theorem execEngine_swap (hne : item.1 ≠ item'.1) {cw₁ cw₂ : Core × Writes} (h : execEngine m cw item = .ok cw₁)
    (h' : execEngine m cw₁ item' = .ok cw₂) : ∃ r₁ r₂, execEngine m cw item' = .ok r₁ ∧ execEngine m r₁ item = .ok r₂ ∧ Same cw₂ r₂ := by
  obtain ⟨c, u⟩ := cw
  rw [execEngine_append] at h
  obtain ⟨⟨c₁, v⟩, hx, rfl⟩ := map_eq_ok.mp h
  rw [execEngine_append] at h'
  obtain ⟨⟨c₂, w⟩, hy, rfl⟩ := map_eq_ok.mp h'
  have hs₁ : c₁.scratch = c.scratch := execEngine_scratch hx
  have hs₂ : c₂.scratch = c₁.scratch := execEngine_scratch hy
  by_cases he : item'.1 = .flow
  · have hitem : item.1 ≠ .flow := fun h => hne (h.trans he.symm)
    obtain rfl : c₁ = c := execEngine_core hitem hx
    have hx' : execEngine m (c₂, {}) item = .ok (c₂, v) := by
      have hq : execEngine m (c₂, {}) item = (execEngine m (c₁, {}) item).map fun r => (c₂, r.2) :=
        execEngine_quiet ⟨rfl, rfl, rfl⟩ hs₂ hitem {}
      rw [hq, hx]
      rfl
    refine ⟨(c₂, u.append w), (c₂, (u.append w).append v), ?_, ?_, rfl, .swap _ _ _⟩
    · rw [execEngine_append, hy]
      rfl
    · rw [execEngine_append, hx']
      rfl
  · obtain rfl : c₂ = c₁ := execEngine_core he hy
    have hy' : execEngine m (c, {}) item' = .ok (c, w) := by
      have hq : execEngine m (c, {}) item' = (execEngine m (c₂, {}) item').map fun r => (c, r.2) :=
        execEngine_quiet ⟨rfl, rfl, rfl⟩ hs₁.symm he {}
      rw [hq, hy]
      rfl
    refine ⟨(c, u.append w), (c₂, (u.append w).append v), ?_, ?_, rfl, .swap _ _ _⟩
    · rw [execEngine_append, hy']
      rfl
    · rw [execEngine_append, hx]
      rfl

theorem execItems_shuffled (hkeys : (items.map Prod.fst).Nodup) {f : Engine × List Slot → List Slot} (hf : ∀ q ∈ items, q.2.Perm (f q))
    (h : (items.map fun q => (q.1, f q)).Perm items') (hcw : Same cw cw') (hr : items.foldlM (execEngine m) cw = .ok r) :
    ∃ r', items'.foldlM (execEngine m) cw' = .ok r' ∧ Same r r' := by
  have hslots : ∃ r', (items.map fun q => (q.1, f q)).foldlM (execEngine m) cw' = .ok r' ∧ Same r r' := by
    clear h hkeys
    induction items generalizing cw cw' with
    | nil =>
        cases hr
        exact ⟨cw', rfl, hcw⟩
    | cons q items ih =>
        obtain ⟨cw₁, hq, hr⟩ := bind_eq_ok.mp ((List.foldlM_cons ..).symm.trans hr)
        obtain ⟨cw₁', hq', hcw₁⟩ := execEngine_perm (hf q (by simp)) hcw hq
        obtain ⟨r', hr', hsame⟩ := ih (fun q hq => hf q (by simp [hq])) hcw₁ hr
        exact ⟨r', by rw [List.map_cons, List.foldlM_cons, hq', bind_ok, hr'], hsame⟩
  obtain ⟨r₁, hr₁, hsame₁⟩ := hslots
  have hpair : (items.map fun q => (q.1, f q)).Pairwise fun c d => c.1 ≠ d.1 := by
    rw [List.pairwise_map]
    exact List.pairwise_map.mp hkeys
  obtain ⟨r', hr', hsame⟩ := foldlM_perm (f := execEngine m) (fun h h' => h h'.symm) Same.refl Same.trans
    (fun h hp => execEngine_related h hp) (fun hne hp hp' => execEngine_swap hne hp hp') h hpair (.refl cw') hr₁
  exact ⟨r', hr', hsame₁.trans hsame⟩

end items
section step

variable {m r : Machine} {b b' : Bundle} {bs bs' : List Bundle} {p : Bool}

/-- Writes to one word have one value. -/
def Agree (ws : List (Nat × Nat)) : Prop := ∀ p ∈ ws, ∀ q ∈ ws, p.1 = q.1 → p.2 = q.2

/-- No two slots of the bundle leave a word with different values. -/
def Agrees (m : Machine) (b : Bundle) : Prop :=
  ∀ cw, b.items.foldlM (execEngine m) (m.core, {}) = .ok cw → Agree cw.2.scratch ∧ Agree cw.2.mem

theorem applyWrites_perm {ws ws' : List (Nat × Nat)} {xs ys : List Nat} (h : ws.Perm ws') (hag : Agree ws) (hys : applyWrites ws xs = .ok ys) :
    applyWrites ws' xs = .ok ys := by
  obtain ⟨hlen, hin⟩ := applyWrites_length hys
  obtain ⟨zs, hzs⟩ := @applyWrites_ok ws' xs fun p hp => hin p (h.mem_iff.mpr hp)
  rw [hzs]
  refine congrArg Except.ok (List.ext_getElem? fun a => ?_)
  by_cases ha : ∃ p ∈ ws, p.1 = a
  · obtain ⟨p, hp, rfl⟩ := ha
    rw [applyWrites_of_mem hys hp fun q hq hqp => hag q hq p hp hqp,
      applyWrites_of_mem hzs (h.mem_iff.mp hp) fun q hq hqp => hag q (h.mem_iff.mpr hq) p hp hqp]
  · rw [applyWrites_of_ne hys fun p hp hpa => ha ⟨p, hp, hpa⟩, applyWrites_of_ne hzs fun p hp hpa => ha ⟨p, h.mem_iff.mpr hp, hpa⟩]

theorem Shuffled.items (h : b.Shuffled b') : (b.items.map fun q => (q.1, (b'.get? q.1).getD [])).Perm b'.items := by
  have hnd : ((b.items.map fun q => (q.1, (b'.get? q.1).getD [])).map Prod.fst).Nodup := by
    rw [List.map_map]
    exact b.nodup_items
  refine (List.perm_ext_iff_of_nodup hnd.of_map b'.nodup_items.of_map).mpr fun q => ?_
  obtain ⟨e, ss⟩ := q
  rw [Dict.mem_items, List.mem_map]
  constructor
  · rintro ⟨q, hq, heq⟩
    cases heq
    have hmem : q.1 ∈ b'.keys := h.keys.mem_iff.mp (Dict.mem_keys_of_get? (Dict.mem_items.mp hq))
    obtain ⟨ss, hss⟩ := Option.isSome_iff_exists.mp ((b'.mem_keys q.1).mp hmem)
    rw [hss, Option.getD_some]
  · intro hss
    have hmem : e ∈ b.keys := h.keys.mem_iff.mpr (Dict.mem_keys_of_get? hss)
    obtain ⟨ss₀, hss₀⟩ := Option.isSome_iff_exists.mp ((b.mem_keys e).mp hmem)
    exact ⟨(e, ss₀), Dict.mem_items.mpr hss₀, by rw [hss, Option.getD_some]⟩

/-- A bundle whose writes agree does the same with its slots in any order. -/
theorem step_shuffled (hb : b.Shuffled b') (hag : m.Agrees b) (h : m.step b = .ok r) : m.step b' = .ok r := by
  obtain ⟨cw, hitems, h⟩ := bind_eq_ok.mp h
  obtain ⟨scratch, hs, h⟩ := bind_eq_ok.mp h
  obtain ⟨mem, hmem, h⟩ := bind_eq_ok.mp h
  have hslots : ∀ q ∈ b.items, q.2.Perm ((b'.get? q.1).getD []) := by
    intro q hq
    have hperm := hb.slots q.1
    rwa [Dict.mem_items.mp hq, Option.getD_some] at hperm
  obtain ⟨cw', hitems', hcore, hws, hwm⟩ := execItems_shuffled b.nodup_items hslots (Shuffled.items hb) (.refl _) hitems
  obtain ⟨hags, hagm⟩ := hag cw hitems
  have hs' : applyWrites cw'.2.scratch cw.1.scratch = .ok scratch := applyWrites_perm hws hags hs
  have hmem' : applyWrites cw'.2.mem m.mem = .ok mem := applyWrites_perm hwm hagm hmem
  cases h
  simp only [step, hitems', bind_ok, hs', hmem', hcore]

end step
section apart

variable {m : Machine} {b : Bundle} {e : Engine} {item : Engine × List Slot} {ss : List Slot} {cw cw' : Core × Writes} {w : Writes}

theorem Agree.of_nodup {ws : List (Nat × Nat)} (h : (ws.map Prod.fst).Nodup) : Agree ws :=
  fun _ hp _ hq heq => congrArg Prod.snd (List.inj_on_of_nodup_map h hp hq heq)

def itemWrites (item : Engine × List Slot) : List Nat := if item.1 = .debug then [] else item.2.flatMap (Slot.writes item.1)

theorem execSlots_writes (he : e ≠ .debug) (h : execSlots m e ss cw = .ok cw') :
    cw'.2.scratch.map Prod.fst = cw.2.scratch.map Prod.fst ++ ss.flatMap (Slot.writes e) := by
  induction ss generalizing cw with
  | nil =>
      cases h
      simp
  | cons s ss ih =>
      obtain ⟨r, hs, h⟩ := bind_eq_ok.mp h
      rw [ih h, List.flatMap_cons, ← List.append_assoc, ← execSlot_writes he hs]
      simp only [Writes.append, List.map_append]

theorem execEngine_writes (h : execEngine m cw item = .ok cw') :
    cw'.2.scratch.map Prod.fst = cw.2.scratch.map Prod.fst ++ itemWrites item := by
  rw [execEngine] at h
  rw [itemWrites]
  split at h
  · next he =>
      have heq : cw = cw' := by
        split at h
        · obtain ⟨_, -, h⟩ := bind_eq_ok.mp h
          exact Except.ok.inj h
        · exact Except.ok.inj h
      rw [if_pos he, List.append_nil, heq]
  · next he =>
      rw [if_neg he]
      split at h
      · exact execSlots_writes he h
      · cases h

theorem execItems_writes {items : List (Engine × List Slot)} (h : items.foldlM (execEngine m) cw = .ok cw') :
    cw'.2.scratch.map Prod.fst = cw.2.scratch.map Prod.fst ++ items.flatMap itemWrites := by
  induction items generalizing cw with
  | nil =>
      cases h
      simp
  | cons item items ih =>
      obtain ⟨r, hitem, h⟩ := bind_eq_ok.mp ((List.foldlM_cons ..).symm.trans h)
      rw [ih h, execEngine_writes hitem, List.flatMap_cons, List.append_assoc]

theorem store_nodup {c : Core} {s : Slot} {ws : List (Nat × Nat)} (h : store c s = .ok ws) : (ws.map Prod.fst).Nodup := by
  cases s with
  | store addr src =>
      obtain ⟨x, -, h⟩ := bind_eq_ok.mp h
      obtain ⟨y, -, h⟩ := bind_eq_ok.mp h
      cases h
      exact List.nodup_singleton _
  | vstore addr src =>
      obtain ⟨base, -, h⟩ := bind_eq_ok.mp h
      have hfst : ws.map Prod.fst = List.range' base VLEN := by
        refine lanes_fst (fun {i p} hp => ?_) h
        obtain ⟨x, -, hp⟩ := bind_eq_ok.mp hp
        cases hp
        rfl
      rw [hfst]
      exact List.nodup_range'
  | _ => cases h

theorem execSlot_mem {s : Slot} {c : Core} {r : Core × Writes} (he : e ≠ .store) (h : execSlot m e c s = .ok r) : r.2.mem = [] := by
  cases e with
  | alu =>
      cases s with
      | arith op dest a1 a2 =>
          obtain ⟨ws, -, h⟩ := bind_eq_ok.mp h
          cases h
          rfl
      | _ => cases h
  | store => exact absurd rfl he
  | valu | load | flow =>
      obtain ⟨ws, -, h⟩ := bind_eq_ok.mp h
      cases h
      rfl
  | debug =>
      cases h
      rfl

theorem execSlots_mem (he : e ≠ .store) (h : execSlots m e ss cw = .ok cw') : cw'.2.mem = cw.2.mem := by
  rw [execSlots_eq] at h
  refine foldlM_inv (I := fun r : Core × Writes => r.2.mem = cw.2.mem) (fun s _ a a' hp ha => ?_) h rfl
  obtain ⟨x, hx, rfl⟩ := map_eq_ok.mp hp
  simp only [Writes.append, execSlot_mem he hx, List.append_nil]
  exact ha

theorem execEngine_mem (he : item.1 ≠ .store) (h : execEngine m cw item = .ok cw') : cw'.2.mem = cw.2.mem := by
  rw [execEngine] at h
  split at h
  · split at h
    · obtain ⟨_, -, h⟩ := bind_eq_ok.mp h
      cases h
      rfl
    · cases h
      rfl
  · split at h
    · exact execSlots_mem he h
    · cases h

/-- A lone store writes each of its words once. -/
theorem execEngine_stores (hlen : ss.length ≤ 1) (hcw : cw.2.mem = []) (h : execEngine m cw (.store, ss) = .ok cw') :
    (cw'.2.mem.map Prod.fst).Nodup := by
  rw [execEngine, if_neg (show Engine.store ≠ .debug by decide)] at h
  split at h
  · rcases ss with _ | ⟨s, _ | ⟨s', ss⟩⟩
    · cases h
      simp [hcw]
    · obtain ⟨r, hs, h⟩ := bind_eq_ok.mp h
      obtain ⟨ws, hws, hs⟩ := bind_eq_ok.mp hs
      cases hs
      cases h
      simp only [Writes.append, hcw, List.nil_append]
      exact store_nodup hws
    · exact absurd hlen (by simp)
  · cases h

theorem execItems_stores {items : List (Engine × List Slot)} (hkeys : (items.map Prod.fst).Nodup)
    (hlen : ∀ item ∈ items, item.1 = .store → item.2.length ≤ 1) (hcw : cw.2.mem = []) (h : items.foldlM (execEngine m) cw = .ok cw') :
    (cw'.2.mem.map Prod.fst).Nodup := by
  induction items generalizing cw with
  | nil =>
      cases h
      simp [hcw]
  | cons item items ih =>
      obtain ⟨r, hitem, h⟩ := bind_eq_ok.mp ((List.foldlM_cons ..).symm.trans h)
      obtain ⟨hnot, hkeys⟩ := List.nodup_cons.mp hkeys
      by_cases he : item.1 = .store
      · have hmem : cw'.2.mem = r.2.mem := by
          refine foldlM_inv (I := fun u : Core × Writes => u.2.mem = r.2.mem) (fun q hq u v hu hI => ?_) h rfl
          have hne : q.1 ≠ .store := fun heq => hnot (List.mem_map.mpr ⟨q, hq, heq.trans he.symm⟩)
          exact (execEngine_mem hne hu).trans hI
        obtain ⟨e, ss⟩ := item
        obtain rfl : e = .store := he
        rw [hmem]
        exact execEngine_stores (hlen (.store, ss) (by simp) rfl) hcw hitem
      · exact ih hkeys (fun q hq => hlen q (by simp [hq])) ((execEngine_mem he hitem).trans hcw) h

/-- No two slots of the bundle write the same scratch word, and at most one of them stores. -/
structure Apart (b : Bundle) : Prop where
  scratch : (b.items.flatMap itemWrites).Nodup
  stores : ((b.get? .store).getD []).length ≤ 1

theorem Apart.agrees (h : Apart b) (m : Machine) : m.Agrees b := by
  intro cw hitems
  have hstores : ∀ item ∈ b.items, item.1 = .store → item.2.length ≤ 1 := by
    rintro ⟨e, ss⟩ hitem rfl
    have hlen := h.stores
    rwa [Dict.mem_items.mp hitem, Option.getD_some] at hlen
  refine ⟨.of_nodup ?_, .of_nodup (execItems_stores b.nodup_items hstores rfl hitems)⟩
  rw [execItems_writes hitems]
  exact h.scratch

end apart
section run

variable {m r : Machine} {prog : List Bundle} {fuel : Nat}

/-- The states between the passes of the loop of `run`. -/
inductive Reaches (m : Machine) : Machine → Prop
  | start : Reaches m m
  | tick {u v : Machine} : Reaches m u → u.core.state = .running → u.tick = .ok v → Reaches m v

def fetched (m : Machine) : Machine := { m with core := { m.core with pc := m.core.pc + 1 } }

/-- The bundles that the machine is about to take never leave a word with different values. -/
def AlwaysAgrees (m : Machine) : Prop :=
  ∀ u, Reaches m u → u.core.state = .running → ∀ b, fetch u.program u.core.pc = some b → u.fetched.Agrees b

theorem execEngine_program (m : Machine) (prog : List Bundle) : execEngine { m with program := prog } = execEngine m := by
  have hslots : ∀ e ss cw, execSlots { m with program := prog } e ss cw = execSlots m e ss cw := by
    intro e ss
    induction ss with
    | nil => exact fun _ => rfl
    | cons s ss ih =>
        intro cw
        have hslot : execSlot { m with program := prog } e cw.1 s = execSlot m e cw.1 s := by cases e <;> cases s <;> rfl
        rw [execSlots, execSlots, hslot]
        exact bind_congr (m := Except PyErr) fun r => ih _
  funext cw item
  rw [execEngine, execEngine, hslots]

theorem step_program (m : Machine) (prog : List Bundle) (b : Bundle) :
    ({ m with program := prog } : Machine).step b = (m.step b).map fun r => { r with program := prog } := by
  rw [step, step, execEngine_program]
  simp only [bind_map]
  rfl

theorem fetch_mem {prog : List Bundle} {pc : Int} {b : Bundle} (h : fetch prog pc = some b) : b ∈ prog := by
  unfold fetch at h
  split at h
  · exact List.mem_of_getElem? h
  · split at h
    · exact List.mem_of_getElem? h
    · cases h

theorem fetch_shuffled {prog prog' : List Bundle} (h : List.Forall₂ Bundle.Shuffled prog prog') {pc : Int} {b : Bundle}
    (hb : fetch prog pc = some b) : ∃ b', fetch prog' pc = some b' ∧ b.Shuffled b' := by
  have hget : ∀ {i : Nat}, prog[i]? = some b → ∃ b', prog'[i]? = some b' ∧ b.Shuffled b' := by
    intro i hi
    obtain ⟨hlt, rfl⟩ := List.getElem?_eq_some_iff.mp hi
    have hlt' : i < prog'.length := h.length_eq ▸ hlt
    exact ⟨prog'[i], List.getElem?_eq_getElem hlt', h.get hlt hlt'⟩
  unfold fetch at hb ⊢
  rw [← h.length_eq]
  split at hb
  · next hpc =>
      rw [if_pos hpc]
      exact hget hb
  · next hpc =>
      rw [if_neg hpc]
      split at hb
      · next hlen =>
          rw [if_pos hlen]
          exact hget hb
      · cases hb

theorem tick_program (h : m.tick = .ok r) : r.program = m.program := by
  rw [tick] at h
  split at h
  · cases h
    rfl
  · split at h
    · cases h
    · obtain ⟨u, hstep, h⟩ := bind_eq_ok.mp h
      obtain ⟨cw, -, hstep⟩ := bind_eq_ok.mp hstep
      obtain ⟨scratch, -, hstep⟩ := bind_eq_ok.mp hstep
      obtain ⟨mem, -, hstep⟩ := bind_eq_ok.mp hstep
      cases hstep
      cases h
      split <;> rfl

theorem tick_shuffled (hprog : List.Forall₂ Bundle.Shuffled m.program prog)
    (hag : ∀ b, fetch m.program m.core.pc = some b → m.fetched.Agrees b) (h : m.tick = .ok r) :
    ({ m with program := prog } : Machine).tick = .ok { r with program := prog } := by
  rw [tick] at h ⊢
  dsimp only
  rw [← hprog.length_eq]
  split at h
  · next hend =>
      cases h
      rw [if_pos hend]
  · next hend =>
      rw [if_neg hend]
      split at h
      · cases h
      · next instr hfetch =>
          obtain ⟨instr', hfetch', hsh⟩ := fetch_shuffled hprog hfetch
          obtain ⟨u, hstep, h⟩ := bind_eq_ok.mp h
          have hstep' : m.fetched.step instr' = .ok u := step_shuffled hsh (hag instr hfetch) hstep
          have hnext : ({ m.fetched with program := prog } : Machine).step instr' = .ok { u with program := prog } := by
            rw [step_program, hstep']
            rfl
          have hcounts : instr'.keys.any (· ≠ .debug) = instr.keys.any (· ≠ .debug) := hsh.keys.symm.any_eq
          rw [hfetch']
          refine (congrArg (· >>= _) hnext).trans ?_
          rw [bind_ok, hcounts]
          cases h
          split <;> rfl

theorem AlwaysAgrees.tick (hag : m.AlwaysAgrees) (hrun : m.core.state = .running) (h : m.tick = .ok r) : r.AlwaysAgrees := by
  intro u hu
  refine hag u ?_
  induction hu with
  | start => exact .tick .start hrun h
  | tick _ hstate htick ih => exact ih.tick hstate htick

theorem runLoop_shuffled (hprog : List.Forall₂ Bundle.Shuffled m.program prog) (hag : m.AlwaysAgrees) (h : m.runLoop fuel = .ok r) :
    ({ m with program := prog } : Machine).runLoop fuel = .ok { r with program := prog } := by
  induction fuel generalizing m with
  | zero =>
      rw [runLoop] at h ⊢
      split at h
      · cases h
      · next hstate =>
          cases h
          rw [if_neg hstate]
  | succ fuel ih =>
      rw [runLoop] at h ⊢
      split at h
      · next hstate =>
          obtain ⟨u, htick, h⟩ := bind_eq_ok.mp h
          have htick' := tick_shuffled hprog (hag m .start hstate) htick
          rw [if_pos hstate, htick', bind_ok]
          exact ih (tick_program htick ▸ hprog) (hag.tick hstate htick) h
      · next hstate =>
          cases h
          rw [if_neg hstate]

def resumed (m : Machine) : Machine := if m.core.state = .paused then { m with core := { m.core with state := .running } } else m

/-- Straight or looping, a program whose slots stay apart in each bundle may be shuffled. -/
theorem AlwaysAgrees.of_apart (h : ∀ b ∈ m.program, Apart b) : m.AlwaysAgrees := by
  intro u hu hstate b hb
  have hprog : u.program = m.program := by
    clear hb hstate
    induction hu with
    | start => rfl
    | tick _ _ htick ih => exact (tick_program htick).trans ih
  exact (h b (hprog ▸ fetch_mem hb)).agrees _

/-- A program may list the engines and slots of its bundles in any order, if it takes no bundle two of whose slots leave a word
with different values: its run ends with the same machine, jumps and loops included. -/
theorem run_shuffled (hprog : List.Forall₂ Bundle.Shuffled m.program prog) (hag : m.resumed.AlwaysAgrees) (h : m.run fuel = .ok r) :
    ({ m with program := prog } : Machine).run fuel = .ok { r with program := prog } := by
  rw [run] at h ⊢
  rw [resumed] at hag
  dsimp only
  split at h
  · next hstate =>
      rw [if_pos hstate] at hag ⊢
      exact runLoop_shuffled (m := { m with core := { m.core with state := .running } }) hprog hag h
  · next hstate =>
      rw [if_neg hstate] at hag ⊢
      exact runLoop_shuffled hprog hag h

/-- A word counted down to zero by a loop whose first bundle reads the word before it writes it. -/
def countdown (b : Bundle) : List Bundle :=
  [.ofList [(.load, [.const 0 3, .const 1 0])], b, .ofList [(.flow, [.condJump 0 1]), (.store, [.store 1 0])]]

theorem run_shuffled_countdown : ∃ r,
    (start true true [9] (fun _ => none) (countdown (.ofList [(.flow, [.addImm 0 0 (-1)]), (.alu, [.arith .add 2 0 2, .arith .sub 3 0 2])]))).run 9 =
      .ok r ∧
    (start true true [9] (fun _ => none) (countdown (.ofList [(.alu, [.arith .sub 3 0 2, .arith .add 2 0 2]), (.flow, [.addImm 0 0 (-1)])]))).run 9 =
      .ok { r with program := countdown (.ofList [(.alu, [.arith .sub 3 0 2, .arith .add 2 0 2]), (.flow, [.addImm 0 0 (-1)])]) } := by
  set b : Bundle := .ofList [(.flow, [.addImm 0 0 (-1)]), (.alu, [.arith .add 2 0 2, .arith .sub 3 0 2])]
  set b' : Bundle := .ofList [(.alu, [.arith .sub 3 0 2, .arith .add 2 0 2]), (.flow, [.addImm 0 0 (-1)])]
  have hends : ((start true true [9] (fun _ => none) (countdown b)).run 9).toBool = true := by decide +kernel
  have hsh : b.Shuffled b' := ⟨by decide, by intro e; cases e <;> decide⟩
  have hself : ∀ b : Bundle, b.Shuffled b := fun b => ⟨.refl _, fun e => .refl _⟩
  have hapart : ∀ u ∈ countdown b, Apart u := by
    intro u hu
    rcases List.mem_cons.mp hu with rfl | hu
    · exact ⟨by decide, by decide⟩
    rcases List.mem_cons.mp hu with rfl | hu
    · exact ⟨by decide, by decide⟩
    · rw [List.mem_singleton.mp hu]
      exact ⟨by decide, by decide⟩
  cases h : (start true true [9] (fun _ => none) (countdown b)).run 9 with
  | error e =>
      rw [h] at hends
      cases hends
  | ok r =>
      have hag : (start true true [9] (fun _ => none) (countdown b)).resumed.AlwaysAgrees := .of_apart hapart
      exact ⟨r, rfl, run_shuffled (m := start true true [9] (fun _ => none) (countdown b)) (.cons (hself _) (.cons hsh (.cons (hself _) .nil))) hag h⟩

end run
end Machine
end Vliw
