import VliwKernel.Problem.Control

/-!
# The oracle barriers

`_insert_pauses` puts one pause into the first bundle whose flow slot is free, ahead of every store, and one into the
last bundle or behind it. Without `enable_pause` they change nothing that is computed. With it the first run stops
before memory changes, and the second goes on to where the original list stops.
-/

namespace Vliw

namespace Bundle

/-- `setdefault("flow", []).append(Pause().lower())`. -/
def withPause (b : Bundle) : Bundle := b.set .flow (b.flowSlots ++ [.pause])

/-- The bundle that is emitted for the pause alone. -/
def barrier : Bundle := .ofList [(.flow, [.pause])]

end Bundle

/-- The loop of `_insert_pauses`. -/
def firstPause : List Bundle → Except PyErr (List Bundle)
  | [] => .ok []
  | b :: bs =>
    if (b.get? .store).isSome then .error .assertion
    else if b.flowSlots.length < 1 then .ok (b.withPause :: bs)
    else do .ok (b :: (← firstPause bs))

/-- What `_insert_pauses` does to the last bundle. -/
def lastPause (instrs : List Bundle) : Except PyErr (List Bundle) :=
  match instrs.getLast? with
  | none => .error .indexError
  | some last => .ok (if last.flowSlots.length < 1 then instrs.dropLast ++ [last.withPause] else instrs ++ [.barrier])

def insertPauses (instrs : List Bundle) : Except PyErr (List Bundle) := do lastPause (← firstPause instrs)

/-- The end of a list, closed with a pause. -/
inductive Closed : List Bundle → List Bundle → Prop
  | alone : Closed [] [.barrier]
  | last {b : Bundle} (hfree : b.flowSlots = []) : Closed [b] [b.withPause]
  | cons (b : Bundle) {bs bs' : List Bundle} (h : Closed bs bs') : Closed (b :: bs) (b :: bs')

/-- A list with both pauses: nothing is stored up to the first. -/
inductive Paused : List Bundle → List Bundle → Prop
  | alone : Paused [] [.barrier]
  | here {b : Bundle} {bs bs' : List Bundle} (hstore : b.get? .store = none) (hfree : b.flowSlots = []) (h : Closed bs bs') :
      Paused (b :: bs) (b.withPause :: bs')
  | cons {b : Bundle} {bs bs' : List Bundle} (hstore : b.get? .store = none) (h : Paused bs bs') : Paused (b :: bs) (b :: bs')

section insert

variable {b : Bundle} {is js bs bs' : List Bundle}

/-- What the second half of `_insert_pauses` makes of the bundles behind one that it passes. -/
def Closing (bs bs' : List Bundle) : Prop := bs = [] ∧ bs' = [.barrier] ∨ lastPause bs = .ok bs'

theorem flowSlots_withPause (b : Bundle) : b.withPause.flowSlots = b.flowSlots ++ [.pause] := by
  rw [Bundle.flowSlots, Bundle.withPause, Dict.get?_set_self, Option.getD_some]

theorem flowSlots_ridden (h : b.flowSlots = []) : b.withPause.flowSlots = [.pause] := by rw [flowSlots_withPause, h, List.nil_append]

theorem flowSlots_free (h : b.flowSlots.length < 1) : b.flowSlots = [] := List.eq_nil_of_length_eq_zero (by omega)

theorem lastPause_cons_cons (b c : Bundle) (bs : List Bundle) : lastPause (b :: c :: bs) = (lastPause (c :: bs)).map (b :: ·) := by
  rw [lastPause, lastPause, List.getLast?_cons_cons]
  cases (c :: bs).getLast? with
  | none => rfl
  | some last =>
      refine congrArg Except.ok ?_
      split <;> rfl

theorem Closing.cons (h : Closing (b :: bs) js) : b.flowSlots = [] ∧ bs = [] ∧ js = [b.withPause] ∨ ∃ bs', js = b :: bs' ∧ Closing bs bs' := by
  rcases h with ⟨h, -⟩ | h
  · cases h
  cases bs with
  | nil =>
      rw [lastPause] at h
      cases h
      split
      · next hfree => exact .inl ⟨flowSlots_free hfree, rfl, rfl⟩
      · exact .inr ⟨_, rfl, .inl ⟨rfl, rfl⟩⟩
  | cons c bs =>
      rw [lastPause_cons_cons] at h
      cases hlast : lastPause (c :: bs) with
      | error e =>
          rw [hlast] at h
          cases h
      | ok bs' =>
          rw [hlast] at h
          cases h
          exact .inr ⟨bs', rfl, .inr hlast⟩

theorem Closing.closed (h : Closing bs bs') : Closed bs bs' := by
  induction bs generalizing bs' with
  | nil =>
      rcases h with ⟨-, rfl⟩ | h
      · exact .alone
      · cases h
  | cons b bs ih =>
      rcases h.cons with ⟨hfree, rfl, rfl⟩ | ⟨bs', rfl, hrest⟩
      · exact .last hfree
      · exact .cons b (ih hrest)

theorem paused_of_closing {mid : List Bundle} (hfirst : firstPause is = .ok mid) (h : Closing mid js) : Paused is js := by
  induction is generalizing mid js with
  | nil =>
      cases hfirst
      rcases h with ⟨-, rfl⟩ | h
      · exact .alone
      · cases h
  | cons b bs ih =>
      rw [firstPause] at hfirst
      split at hfirst
      · cases hfirst
      next hstore =>
      have hstore : b.get? .store = none := Option.not_isSome_iff_eq_none.mp hstore
      split at hfirst
      · next hfree =>
          cases hfirst
          rcases h.cons with ⟨hnil, -⟩ | ⟨bs', rfl, hrest⟩
          · rw [flowSlots_withPause] at hnil
            simp at hnil
          · exact .here hstore (flowSlots_free hfree) hrest.closed
      · next htaken =>
          obtain ⟨mid', hmid, hfirst⟩ := bind_eq_ok.mp hfirst
          cases hfirst
          rcases h.cons with ⟨hfree, -⟩ | ⟨js', rfl, hrest⟩
          · exact absurd (by simp [hfree]) htaken
          · exact .cons hstore (ih hmid hrest)

theorem insertPauses_paused (h : insertPauses is = .ok js) : Paused is js := by
  obtain ⟨mid, hfirst, hlast⟩ := bind_eq_ok.mp h
  exact paused_of_closing hfirst (.inr hlast)

theorem lastPause_ok (h : is ≠ []) : ∃ js, lastPause is = .ok js := by
  rw [lastPause, List.getLast?_eq_some_getLast h]
  exact ⟨_, rfl⟩

/-- A first bundle without stores whose flow slot is free takes the first pause. -/
theorem insertPauses_opening (hstore : b.get? .store = none) (hfree : b.flowSlots = []) (bs : List Bundle) :
    ∃ bs', insertPauses (b :: bs) = .ok (b.withPause :: bs') ∧ Closed bs bs' := by
  obtain ⟨js, hjs⟩ := lastPause_ok (List.cons_ne_nil b.withPause bs)
  have hins : insertPauses (b :: bs) = .ok js := by
    rw [insertPauses, firstPause, hstore, if_neg (by decide), if_pos (by simp [hfree]), bind_ok, hjs]
  rcases Closing.cons (.inr hjs) with ⟨hnil, -⟩ | ⟨bs', rfl, hrest⟩
  · rw [flowSlots_withPause] at hnil
    simp at hnil
  · exact ⟨bs', hins, hrest.closed⟩

end insert

section bundles

open Machine

variable {m r : Machine} {b : Bundle}

theorem straight_of_pause (h : b.flowSlots = [.pause]) : b.Straight where
  jumps := by simp [h, Slot.jumps]
  single := by simp [h]

theorem store_withPause (b : Bundle) : b.withPause.get? .store = b.get? .store := Dict.get?_set_of_ne b (by decide) _

/-- Without `enable_pause`, a flow engine that is empty or only pauses does nothing. -/
theorem execEngine_idle (hm : m.enablePause = false) {ss : List Slot} (h : ss = [] ∨ ss = [.pause]) (cw : Core × Writes) :
    execEngine m cw (.flow, ss) = .ok cw := by
  obtain ⟨c, w⟩ := cw
  rcases h with rfl | rfl
  · rfl
  · have hslot : execSlot m .flow c .pause = .ok (c, {}) := by
      rw [execSlot, hm]
      rfl
    have happend : w.append {} = w := by simp [Writes.append]
    rw [execEngine, if_neg (by decide), if_pos (by decide), execSlots, hslot, bind_ok]
    exact congrArg (fun w => Except.ok (c, w)) happend

theorem step_withPause (hm : m.enablePause = false) (hfree : b.flowSlots = []) : m.step b.withPause = m.step b := by
  have hfold : b.withPause.items.foldlM (execEngine m) (m.core, {}) = b.items.foldlM (execEngine m) (m.core, {}) := by
    rw [Bundle.withPause, hfree, List.nil_append]
    cases hflow : b.get? .flow with
    | none =>
        have hlast : [(Engine.flow, [Slot.pause])].foldlM (execEngine m) = fun cw => Except.ok cw := by
          funext cw
          rw [List.foldlM_cons, execEngine_idle hm (.inr rfl)]
          rfl
        rw [Dict.items_set_of_none hflow, List.foldlM_append, hlast]
        cases b.items.foldlM (execEngine m) (m.core, {}) <;> rfl
    | some ss =>
        rw [Dict.items_set_of_some hflow, List.foldlM_map]
        refine foldlM_congr (fun q hq cw => ?_) _
        by_cases hq' : q.1 = .flow
        · have hss : q = (.flow, []) := by
            have hget := Dict.mem_items.mp (show (q.1, q.2) ∈ b.items from hq)
            rw [Bundle.flowSlots, ← hq', hget] at hfree
            exact Prod.ext hq' hfree
          rw [if_pos hq', hss, execEngine_idle hm (.inr rfl), execEngine_idle hm (.inl rfl)]
        · rw [if_neg hq']
  rw [step, step, hfold]

theorem step_barrier (hm : m.enablePause = false) : m.step .barrier = .ok m := by
  have hitems : Bundle.barrier.items = [(.flow, [.pause])] := rfl
  rw [step, hitems, List.foldlM_cons, execEngine_idle hm (.inr rfl)]
  rfl

theorem step_enablePause (h : m.step b = .ok r) : r.enablePause = m.enablePause := by
  obtain ⟨cw, -, h⟩ := bind_eq_ok.mp h
  obtain ⟨scratch, -, h⟩ := bind_eq_ok.mp h
  obtain ⟨mem, -, h⟩ := bind_eq_ok.mp h
  cases h
  rfl

theorem execSlot_mem {e : Engine} (he : e ≠ .store) {c c' : Core} {s : Slot} {w : Writes} (h : execSlot m e c s = .ok (c', w)) : w.mem = [] := by
  cases e with
  | store => exact absurd rfl he
  | alu =>
      cases s with
      | arith op dest a1 a2 =>
          obtain ⟨ws, -, h⟩ := bind_eq_ok.mp h
          cases h
          rfl
      | _ => cases h
  | debug =>
      cases h
      rfl
  | _ =>
      obtain ⟨ws, -, h⟩ := bind_eq_ok.mp h
      cases h
      rfl

theorem execSlots_mem {e : Engine} (he : e ≠ .store) {ss : List Slot} {cw cw' : Core × Writes} (h : execSlots m e ss cw = .ok cw')
    (hw : cw.2.mem = []) : cw'.2.mem = [] := by
  induction ss generalizing cw with
  | nil =>
      cases h
      exact hw
  | cons s ss ih =>
      obtain ⟨⟨c, w⟩, hs, h⟩ := bind_eq_ok.mp h
      refine ih h ?_
      rw [Writes.append, hw, execSlot_mem he hs]
      rfl

theorem step_mem (hstore : b.get? .store = none) (h : m.step b = .ok r) : r.mem = m.mem := by
  obtain ⟨⟨c, w⟩, hw, h⟩ := bind_eq_ok.mp h
  obtain ⟨scratch, -, h⟩ := bind_eq_ok.mp h
  obtain ⟨mem, hmem, h⟩ := bind_eq_ok.mp h
  have hnil : w.mem = [] := by
    refine foldlM_inv (I := fun cw => cw.2.mem = []) (fun q hq cw cw' hexec hcw => ?_) hw rfl
    have he : q.1 ≠ .store := by
      intro he
      have hget := Dict.mem_items.mp (show (q.1, q.2) ∈ b.items from hq)
      rw [he, hstore] at hget
      cases hget
    rw [execEngine] at hexec
    split at hexec
    · split at hexec
      · obtain ⟨_, -, hexec⟩ := bind_eq_ok.mp hexec
        cases hexec
        exact hcw
      · cases hexec
        exact hcw
    · split at hexec
      · exact execSlots_mem he hexec hcw
      · cases hexec
  rw [hnil] at hmem
  cases hmem
  cases h
  rfl

theorem foldlM_step_mem {bs : List Bundle} (h : ∀ b ∈ bs, b.get? .store = none) (hr : bs.foldlM step m = .ok r) : r.mem = m.mem :=
  foldlM_inv (I := fun r => r.mem = m.mem) (fun b hb _ _ hstep hmem => (step_mem (h b hb) hstep).trans hmem) hr rfl

end bundles

section runs

open Machine

variable {m r : Machine} {is js bs bs' : List Bundle}

theorem foldlM_barrier (p : Bool) (hm : m.enablePause = false) : (taken p [.barrier]).foldlM step m = .ok m := by
  rw [taken_single, List.foldlM_cons, step_barrier hm]
  rfl

/-- Behind a bundle of both lists a run computes the same if it does from the machine that the bundle leaves. -/
theorem taken_cons_congr {b : Bundle} {p : Bool}
    (h : ∀ r, m.step b = .ok r → (taken p bs').foldlM step r = (taken p bs).foldlM step r) :
    (taken p (b :: bs')).foldlM step m = (taken p (b :: bs)).foldlM step m := by
  rw [taken, taken, List.foldlM_cons, List.foldlM_cons]
  refine bind_congr_ok fun r hr => ?_
  split
  · exact h r hr
  · rfl

theorem Closed.foldlM (h : Closed bs bs') (p : Bool) (hm : m.enablePause = false) :
    (taken p bs').foldlM step m = (taken p bs).foldlM step m := by
  induction h generalizing m with
  | alone => exact foldlM_barrier p hm
  | last hfree => rw [taken_single, taken_single, List.foldlM_cons, List.foldlM_cons, step_withPause hm hfree]
  | cons b h ih => exact taken_cons_congr fun r hr => ih ((step_enablePause hr).trans hm)

theorem Paused.foldlM (h : Paused is js) (hm : m.enablePause = false) :
    (taken false js).foldlM step m = (taken false is).foldlM step m := by
  induction h generalizing m with
  | alone => exact foldlM_barrier false hm
  | @here b bs bs' hstore hfree h =>
      have hpause : b.withPause.state false .running = .running := Bundle.state_of_pause (flowSlots_ridden hfree)
      rw [taken_running hpause, taken_running (Bundle.state_of_free hfree), List.foldlM_cons, List.foldlM_cons, step_withPause hm hfree]
      exact bind_congr_ok fun r hr => h.foldlM false ((step_enablePause hr).trans hm)
  | cons hstore h ih => exact taken_cons_congr fun r hr => ih ((step_enablePause hr).trans hm)

/-- Nothing is stored before the first run stops. -/
theorem Paused.quiet (h : Paused is js) : ∀ b ∈ taken true js, b.get? .store = none := by
  induction h with
  | alone =>
      rw [taken_single]
      exact List.forall_mem_singleton.mpr rfl
  | @here b bs bs' hstore hfree h =>
      have hpause : b.withPause.state true .running = .paused := Bundle.state_of_pause (flowSlots_ridden hfree)
      rw [taken_halted (by rw [hpause]; decide)]
      exact List.forall_mem_singleton.mpr ((store_withPause b).trans hstore)
  | cons hstore h ih =>
      rw [taken]
      refine List.forall_mem_cons.mpr ⟨hstore, ?_⟩
      split
      · exact ih
      · simp

/-- The second run ends where the original list stops. -/
theorem Paused.resume (h : Paused is js) (his : ∀ b ∈ is, b.Straight) (hm : m.enablePause = false)
    (hr : (taken false is).foldlM step m = .ok r) : ∃ m₁ m₂ o, (taken true js).foldlM step m = .ok m₁ ∧
      (again js).foldlM step m₁ = .ok m₂ ∧ (taken true is).foldlM step m = .ok o ∧ m₂.mem = o.mem := by
  induction h generalizing m with
  | alone => exact ⟨m, m, m, foldlM_barrier true hm, rfl, rfl, rfl⟩
  | @here b bs bs' hstore hfree h =>
      -- the first run stops behind `b`, and what is left runs as it did without the pauses
      have hpause : b.withPause.state true .running = .paused := Bundle.state_of_pause (flowSlots_ridden hfree)
      obtain ⟨m₁, hstep, -⟩ := bind_eq_ok.mp ((List.foldlM_cons ..).symm.trans hr)
      obtain ⟨o, ho⟩ := taken_ok his hr
      refine ⟨m₁, o, o, foldlM_halted (by rw [hpause]; decide) ((step_withPause hm hfree).trans hstep), ?_, ho, rfl⟩
      rw [again, hpause, ← ho, foldlM_running (Bundle.state_of_free hfree) hstep]
      exact h.foldlM true ((step_enablePause hstep).trans hm)
  | @cons b bs bs' hstore h ih =>
      obtain ⟨m₁, hstep, hrest⟩ := bind_eq_ok.mp ((List.foldlM_cons ..).symm.trans hr)
      have hm₁ := (step_enablePause hstep).trans hm
      have hbs : ∀ b ∈ bs, b.Straight := fun b hb => his b (by simp [hb])
      rw [again]
      cases hb : b.state true .running with
      | running =>
          have hb' := (his b (by simp)).state_running (by rw [hb]; decide)
          rw [if_pos hb'] at hrest
          obtain ⟨m₁', m₂, o, h₁, h₂, ho, hmem⟩ := ih hbs hm₁ hrest
          exact ⟨m₁', m₂, o, (foldlM_running hb hstep).trans h₁, h₂, (foldlM_running hb hstep).trans ho, hmem⟩
      | paused =>
          -- the original list pauses at `b` as well; up to the inserted pause the second run stores nothing
          have hb' := (his b (by simp)).state_running (by rw [hb]; decide)
          rw [if_pos hb'] at hrest
          obtain ⟨m₁', -, -, h₁, -⟩ := ih hbs hm₁ hrest
          have hhalt : b.state true .running ≠ .running := by rw [hb]; decide
          exact ⟨m₁, m₁', m₁, foldlM_halted hhalt hstep, h₁, foldlM_halted hhalt hstep, foldlM_step_mem h.quiet h₁⟩
      | stopped =>
          have hhalt : b.state true .running ≠ .running := by rw [hb]; decide
          exact ⟨m₁, m₁, m₁, foldlM_halted hhalt hstep, rfl, foldlM_halted hhalt hstep, rfl⟩

theorem Closed.straight (h : Closed bs bs') (hbs : ∀ b ∈ bs, b.Straight) : ∀ b ∈ bs', b.Straight := by
  induction h with
  | alone => exact List.forall_mem_singleton.mpr (straight_of_pause rfl)
  | last hfree => exact List.forall_mem_singleton.mpr (straight_of_pause (flowSlots_ridden hfree))
  | cons b h ih => exact List.forall_mem_cons.mpr ⟨hbs b (by simp), ih fun b hb => hbs b (by simp [hb])⟩

theorem Paused.straight (h : Paused is js) (his : ∀ b ∈ is, b.Straight) : ∀ b ∈ js, b.Straight := by
  induction h with
  | alone => exact List.forall_mem_singleton.mpr (straight_of_pause rfl)
  | here hstore hfree h =>
      exact List.forall_mem_cons.mpr ⟨straight_of_pause (flowSlots_ridden hfree), h.straight fun b hb => his b (by simp [hb])⟩
  | cons hstore h ih => exact List.forall_mem_cons.mpr ⟨his _ (by simp), ih fun b hb => his b (by simp [hb])⟩

theorem Closed.length_le (h : Closed bs bs') : bs.length ≤ bs'.length := by
  induction h with
  | alone => exact Nat.zero_le _
  | last hfree => exact Nat.le_refl _
  | cons b h ih => exact Nat.succ_le_succ ih

theorem Paused.length_le (h : Paused is js) : is.length ≤ js.length := by
  induction h with
  | alone => exact Nat.zero_le _
  | here hstore hfree h => exact Nat.succ_le_succ h.length_le
  | cons hstore h ih => exact Nat.succ_le_succ ih

/-- Without `enable_pause` the pauses change neither scratch nor memory. With it the first run leaves the memory as it was and
the second leaves it as one run of the original list does, which is its end unless a bundle pauses by itself. -/
theorem insertPauses_split {mem : List Nat} {valueTrace : TraceKey → Option Nat} {debug : Bool} {fuel₀ fuel : Nat}
    (his : ∀ b ∈ is, b.Straight) (hjs : insertPauses is = .ok js) (hrun : (start false debug mem valueTrace is).run fuel₀ = .ok m)
    (hfuel : js.length < fuel) :
    (∃ m', (start false debug mem valueTrace js).run fuel = .ok m' ∧ m'.core.scratch = m.core.scratch ∧ m'.mem = m.mem) ∧
    ∃ m₁ m₂ o, (start true debug mem valueTrace js).run fuel = .ok m₁ ∧ m₁.mem = mem ∧ m₁.run fuel = .ok m₂ ∧
      (start true debug mem valueTrace is).run fuel = .ok o ∧ m₂.mem = o.mem ∧
      ((∀ b ∈ is, Slot.pause ∉ b.flowSlots) → o.mem = m.mem) := by
  have hp := insertPauses_paused hjs
  have hle := hp.length_le
  have hjs' := hp.straight his
  have hmono := run_mono hrun (Nat.le_max_left fuel₀ (is.length + 1))
  obtain ⟨r, hr, rfl⟩ := map_eq_ok.mp ((run_start his (Nat.le_max_right ..)).symm.trans hmono)
  have hm : (start false debug mem valueTrace []).enablePause = false := rfl
  obtain ⟨m₁, m₂, o, h₁, h₂, ho, hmem⟩ := hp.resume his hm hr
  constructor
  · refine ⟨r.put ((Control.start false js).run js), ?_, rfl, rfl⟩
    rw [run_start hjs' hfuel, hp.foldlM hm, hr]
    rfl
  · obtain ⟨k, hagain⟩ := run_resumed (m := m₁) hjs' hfuel
    refine ⟨m₁.put ((Control.start true js).run js), m₂.put k, o.put ((Control.start true is).run is), ?_, ?_, ?_, ?_, hmem,
      fun hnone => ?_⟩
    · rw [run_start hjs' hfuel, h₁]
      rfl
    · exact foldlM_step_mem hp.quiet h₁
    · rw [hagain, h₂]
      rfl
    · rw [run_start his (by omega), ho]
      rfl
    · rw [taken_congr hnone, hr] at ho
      cases ho
      rfl

def storing : List Bundle := [.ofList [(.load, [.const 1 5])], .ofList [(.store, [.store 0 1])]]

theorem insertPauses_split_storing : ∃ js m₁ m₂, insertPauses storing = .ok js ∧
    (start true false [0] (fun _ => none) js).run 3 = .ok m₁ ∧ m₁.mem = [0] ∧ m₁.run 3 = .ok m₂ ∧ m₂.mem = [5] := by
  have hstraight : ∀ b ∈ storing, b.Straight := by decide +kernel
  have hjs : insertPauses storing = .ok (storing.map Bundle.withPause) := rfl
  have hrun : ((start false false [0] (fun _ => none) storing).run 3).map Machine.mem = .ok [5] := by decide +kernel
  have hfuel : (storing.map Bundle.withPause).length < 3 := by decide
  obtain ⟨m, hm, hmem⟩ := map_eq_ok.mp hrun
  obtain ⟨-, m₁, m₂, o, h₁, hmem₁, h₂, -, hmem₂, hend⟩ := insertPauses_split hstraight hjs hm hfuel
  exact ⟨_, m₁, m₂, hjs, h₁, hmem₁, h₂, hmem₂.trans ((hend (by decide +kernel)).trans hmem)⟩

/-- A bundle that pauses by itself, ahead of the same program. -/
def selfPausing : List Bundle := .ofList [(.flow, [.pause])] :: storing

/-- The second run is spent on the way to the inserted pause. -/
theorem insertPauses_selfPausing : (∀ b ∈ selfPausing, b.Straight) ∧ (do
      let js ← insertPauses selfPausing
      let m ← (start false false [0] (fun _ => none) selfPausing).run 4
      let m₁ ← (start true false [0] (fun _ => none) js).run 4
      let m₂ ← m₁.run 4
      .ok (m.mem, m₁.mem, m₂.mem)) = (.ok ([5], [0], [0]) : Except PyErr _) := by
  decide +kernel

end runs
end Vliw
