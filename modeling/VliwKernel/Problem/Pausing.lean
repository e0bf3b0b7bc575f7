import VliwKernel.Problem.Control

/-!
# Pauses are transparent

A program may jump, loop, halt and pause as it likes. Calling `run` again for as long as it pauses comes to what one run
comes to that ignores the pauses, whether that ends or raises.
-/

namespace Vliw

def Core.unpaused (c : Core) : Core := if c.state = .paused then { c with state := .running } else c

namespace Machine

/-- The machine with `enable_pause = False`, going on from a pause. -/
def unpaused (m : Machine) : Machine := { m with core := m.core.unpaused, enablePause := false }

/-- `run`, called again up to `k` times for as long as it pauses. -/
def resume (fuel : Nat) : Nat → Machine → Except PyErr Machine
  | 0, m => .ok m
  | k + 1, m => do
      let m ← m.run fuel
      if m.core.state = .paused then resume fuel k m else .ok m

section core

variable {c : Core}

theorem unpaused_eq (h : c.state ≠ .paused) : c.unpaused = c := if_neg h

theorem unpaused_state (c : Core) : c.unpaused.state ≠ .paused := by
  unfold Core.unpaused
  split
  · exact CoreState.noConfusion
  · assumption

@[simp] theorem unpaused_scratch (c : Core) : c.unpaused.scratch = c.scratch := by
  unfold Core.unpaused
  split <;> rfl

theorem flow_unpaused (h : c.state = .running) (p : Bool) (s : Slot) : flow c false s = (flow c p s).map fun r => (r.1.unpaused, r.2) := by
  have hc : c.unpaused = c := unpaused_eq (by rw [h]; decide)
  have hpc : ∀ pc, ({ c with pc := pc } : Core).unpaused = { c with pc := pc } := fun pc => unpaused_eq (by rw [h]; decide)
  cases s with
  | pause =>
      cases p with
      | false => exact congrArg (fun c => Except.ok (c, [])) hc.symm
      | true =>
          refine congrArg (fun c => Except.ok (c, [])) ?_
          rw [if_pos rfl, Core.unpaused, if_pos rfl, ← h]
          rfl
  | condJump | condJumpRel =>
      simp only [flow, bind_map]
      refine bind_congr (m := Except PyErr) fun x => ?_
      split
      · exact congrArg (fun c => Except.ok (c, [])) (hpc _).symm
      · exact congrArg (fun c => Except.ok (c, [])) hc.symm
  | jumpIndirect =>
      simp only [flow, bind_map]
      exact bind_congr (m := Except PyErr) fun x => congrArg (fun c => Except.ok (c, [])) (hpc _).symm
  | traceWrite =>
      simp only [flow, bind_map]
      refine bind_congr (m := Except PyErr) fun x => congrArg (fun c => Except.ok (c, [])) (unpaused_eq ?_).symm
      rw [h]
      decide
  | jump => exact congrArg (fun c => Except.ok (c, [])) (hpc _).symm
  | select | addImm | vselect =>
      simp only [flow, bind_map]
      simp only [Except.map, hc]
  | coreid => exact congrArg (fun c => Except.ok (c, _)) hc.symm
  | halt => rfl
  | _ => rfl

end core
section slots

variable {m m' : Machine} {c c' : Core} {e : Engine}

structure SameData (m m' : Machine) : Prop where
  mem : m'.mem = m.mem
  valueTrace : m'.valueTrace = m.valueTrace
  enableDebug : m'.enableDebug = m.enableDebug

/-- A slot of another engine than `flow` leaves the core, and looks at its scratch only. -/
theorem execSlot_quiet (hd : SameData m m') (hs : c'.scratch = c.scratch) (he : e ≠ .flow) (s : Slot) :
    execSlot m' e c' s = (execSlot m e c s).map fun r => (c', r.2) := by
  cases e with
  | alu =>
      cases s with
      | arith =>
          simp only [execSlot, alu, hs, bind_map]
          rfl
      | _ => rfl
  | valu =>
      have hvalu : valu c' s = valu c s := by cases s <;> simp only [valu, hs]
      simp only [execSlot, hvalu, bind_map]
      rfl
  | load =>
      have hload : load c' m'.mem s = load c m.mem s := by cases s <;> simp only [load, hs, hd.mem]
      simp only [execSlot, hload, bind_map]
      rfl
  | store =>
      have hstore : store c' s = store c s := by cases s <;> simp only [store, hs]
      simp only [execSlot, hstore, bind_map]
      rfl
  | flow => exact absurd rfl he
  | debug => rfl

theorem execSlot_core {r : Core × Writes} {s : Slot} (he : e ≠ .flow) (h : execSlot m e c s = .ok r) : r.1 = c := by
  have heq := execSlot_quiet (c := c) (m := m) ⟨rfl, rfl, rfl⟩ rfl he s
  rw [h] at heq
  exact congrArg Prod.fst (Except.ok.inj heq)

theorem execSlots_quiet (hd : SameData m m') (hs : c'.scratch = c.scratch) (he : e ≠ .flow) (ss : List Slot) (w : Writes) :
    execSlots m' e ss (c', w) = (execSlots m e ss (c, w)).map fun r => (c', r.2) := by
  induction ss generalizing w with
  | nil => rfl
  | cons s ss ih =>
      rw [execSlots, execSlots, execSlot_quiet hd hs he s, bind_map]
      cases hr : execSlot m e c s with
      | error err => rfl
      | ok r =>
          simp only [bind_ok]
          rw [execSlot_core he hr]
          exact ih _

theorem execEngine_quiet (hd : SameData m m') (hs : c'.scratch = c.scratch) {item : Engine × List Slot} (he : item.1 ≠ .flow) (w : Writes) :
    execEngine m' (c', w) item = (execEngine m (c, w) item).map fun r => (c', r.2) := by
  by_cases hdebug : item.1 = .debug
  · have hchecks : debugCheck c' m'.valueTrace = debugCheck c m.valueTrace := by
      funext s
      rw [hd.valueTrace]
      cases s <;> simp only [debugCheck, hs]
    rw [execEngine, execEngine, if_pos hdebug, if_pos hdebug, hd.enableDebug, hchecks]
    cases m.enableDebug with
    | false => rfl
    | true =>
        simp only [if_true, bind_map]
        rfl
  · rw [execEngine, execEngine, if_neg hdebug, if_neg hdebug]
    split
    · exact execSlots_quiet hd hs he item.2 w
    · rfl

theorem execEngine_core {r : Core × Writes} {item : Engine × List Slot} {w : Writes} (he : item.1 ≠ .flow)
    (h : execEngine m (c, w) item = .ok r) : r.1 = c := by
  have heq := execEngine_quiet (c := c) (m := m) ⟨rfl, rfl, rfl⟩ rfl he w
  rw [h] at heq
  exact congrArg Prod.fst (Except.ok.inj heq)

end slots
section step

variable {m : Machine} {c : Core}

theorem sameData_unpaused (m : Machine) : SameData m m.unpaused := ⟨rfl, rfl, rfl⟩

theorem execEngine_flow (m : Machine) (cw : Core × Writes) (ss : List Slot) :
    execEngine m cw (.flow, ss) = if ss.length ≤ 1 then execSlots m .flow ss cw else .error .assertion := by
  rw [execEngine, if_neg Engine.noConfusion]
  rfl

theorem execFlow_unpaused (h : c.state = .running) (ss : List Slot) (w : Writes) :
    execEngine m.unpaused (c.unpaused, w) (.flow, ss) = (execEngine m (c, w) (.flow, ss)).map fun r => (r.1.unpaused, r.2) := by
  have hc : c.unpaused = c := unpaused_eq (by rw [h]; decide)
  rw [execEngine_flow, execEngine_flow]
  split
  · next hlen =>
      match ss with
      | [] => rfl
      | [s] =>
          have hflow : flow c m.unpaused.enablePause s = _ := flow_unpaused h m.enablePause s
          simp only [execSlots, execSlot, hc, hflow, bind_map, map_bind]
          cases flow c m.enablePause s <;> rfl
      | _ :: _ :: _ => exact absurd hlen (by simp)
  · rfl

theorem execItems_unpaused {items : List (Engine × List Slot)} (hnd : (items.map Prod.fst).Nodup)
    (h : c.state = .running ∨ .flow ∉ items.map Prod.fst) (w : Writes) :
    items.foldlM (execEngine m.unpaused) (c.unpaused, w) = (items.foldlM (execEngine m) (c, w)).map fun r => (r.1.unpaused, r.2) := by
  induction items generalizing c w with
  | nil => rfl
  | cons item items ih =>
      rw [List.map_cons, List.nodup_cons] at hnd
      rw [List.foldlM_cons, List.foldlM_cons, bind_map]
      by_cases he : item.1 = .flow
      · have hrun := h.resolve_right fun hf => hf (by simp [he])
        obtain ⟨e, ss⟩ := item
        obtain rfl : e = .flow := he
        rw [execFlow_unpaused hrun, map_bind]
        exact bind_congr (m := Except PyErr) fun r => ih hnd.2 (.inr hnd.1) r.2
      · rw [execEngine_quiet (sameData_unpaused m) (unpaused_scratch c) he w, map_bind]
        cases hr : execEngine m (c, w) item with
        | error err => rfl
        | ok r =>
            rw [bind_ok, bind_ok, ← execEngine_core he hr]
            refine ih hnd.2 ?_ r.2
            rw [execEngine_core he hr]
            exact h.imp_right fun hf hmem => hf (List.mem_cons_of_mem _ hmem)

/-- A running core takes a bundle alike with and without pauses, and may be paused behind it. -/
theorem step_unpaused (h : m.core.state = .running) (b : Bundle) : m.unpaused.step b = (m.step b).map unpaused := by
  have hitems := execItems_unpaused (m := m) (c := m.core) b.nodup_items (.inl h) {}
  rw [step, step, bind_map]
  refine (congrArg (· >>= _) hitems).trans ?_
  rw [map_bind]
  refine bind_congr (m := Except PyErr) fun r => ?_
  rw [bind_map]
  dsimp only
  rw [unpaused_scratch]
  refine bind_congr (m := Except PyErr) fun scratch => ?_
  rw [bind_map]
  refine bind_congr (m := Except PyErr) fun mem => congrArg Except.ok ?_
  unfold unpaused Core.unpaused
  dsimp only
  split <;> rfl

theorem tick_unpaused (h : m.core.state = .running) : m.unpaused.tick = m.tick.map unpaused := by
  have hcore : m.unpaused.core = m.core := unpaused_eq (by rw [h]; decide)
  have hend : m.unpaused.program = m.program := rfl
  rw [tick, tick, hcore, hend]
  split
  · rfl
  · cases fetch m.program m.core.pc with
    | none => rfl
    | some instr =>
        have hstep := step_unpaused (m := { m with core := { m.core with pc := m.core.pc + 1 } }) h instr
        have hnext : ({ m with core := { m.core with pc := m.core.pc + 1 } } : Machine).unpaused =
            { m.unpaused with core := { m.core with pc := m.core.pc + 1 } } := by
          rw [unpaused, unpaused_eq (by rw [h]; decide)]
          rfl
        rw [hnext] at hstep
        refine (congrArg (· >>= _) hstep).trans ?_
        rw [map_bind, bind_map]
        refine bind_congr (m := Except PyErr) fun r => congrArg Except.ok ?_
        split <;> rfl

end step
section run

variable {m : Machine} {fuel : Nat}

/-- More fuel does not change what a run comes to. -/
theorem runLoop_fuel {x : Except PyErr Machine} (h : m.runLoop fuel = x) (hx : x ≠ .error .outOfFuel) {fuel' : Nat} (hle : fuel ≤ fuel') :
    m.runLoop fuel' = x := by
  induction fuel generalizing m fuel' with
  | zero =>
      by_cases hrun : m.core.state = .running
      · rw [runLoop, if_pos hrun] at h
        exact absurd h.symm hx
      · rw [runLoop_halted hrun] at h ⊢
        exact h
  | succ fuel ih =>
      obtain ⟨fuel', rfl⟩ := Nat.exists_eq_succ_of_ne_zero (by omega : fuel' ≠ 0)
      by_cases hrun : m.core.state = .running
      · rw [runLoop_running hrun] at h ⊢
        cases htick : m.tick with
        | error e =>
            rw [htick] at h
            exact h
        | ok m' =>
            rw [htick] at h
            exact ih h (by omega)
      · rw [runLoop_halted hrun] at h ⊢
        exact h

/-- A run that ignores pauses goes the way of one that heeds them, which ends with it or stops at a pause on it. -/
theorem runLoop_unpaused (h : m.core.state ≠ .paused) {x : Except PyErr Machine} (hrun : m.unpaused.runLoop fuel = x)
    (hx : x ≠ .error .outOfFuel) :
    (x = (m.runLoop fuel).map unpaused ∧ ∀ r, m.runLoop fuel = .ok r → r.core.state ≠ .paused) ∨
      ∃ r fuel', fuel' < fuel ∧ m.runLoop fuel = .ok r ∧ r.core.state = .paused ∧ r.unpaused.runLoop fuel' = x := by
  by_cases hstate : m.core.state = .running
  · have hcore : m.unpaused.core.state = .running := by rw [← hstate]; exact congrArg Core.state (unpaused_eq h)
    induction fuel generalizing m with
    | zero =>
        rw [runLoop, if_pos hcore] at hrun
        exact absurd hrun.symm hx
    | succ fuel ih =>
        rw [runLoop_running hcore, tick_unpaused hstate, map_bind] at hrun
        rw [runLoop_running hstate]
        cases htick : m.tick with
        | error e =>
            rw [htick] at hrun
            exact .inl ⟨hrun.symm, fun r hr => by cases hr⟩
        | ok m' =>
            rw [htick, bind_ok] at hrun
            rw [bind_ok]
            cases hm' : m'.core.state with
            | running =>
                have hne : m'.core.state ≠ .paused := by rw [hm']; decide
                have hcore' : m'.unpaused.core.state = .running := by rw [← hm']; exact congrArg Core.state (unpaused_eq hne)
                refine (ih hne hrun hm' hcore').imp_right ?_
                rintro ⟨r, fuel', hlt, hr⟩
                exact ⟨r, fuel', by omega, hr⟩
            | paused => exact .inr ⟨m', fuel, Nat.lt_succ_self _, runLoop_halted (by rw [hm']; decide), hm', hrun⟩
            | stopped =>
                have hne : m'.core.state ≠ .paused := by rw [hm']; decide
                have hcore' : m'.unpaused.core.state ≠ .running := by
                  rw [show m'.unpaused.core = m'.core from unpaused_eq hne, hm']
                  decide
                rw [runLoop_halted hcore'] at hrun
                rw [runLoop_halted (by rw [hm']; decide)]
                refine .inl ⟨hrun.symm, fun r hr => ?_⟩
                cases hr
                exact hne
  · have hcore : m.unpaused.core.state ≠ .running := by
      rw [show m.unpaused.core = m.core from unpaused_eq h]
      exact hstate
    rw [runLoop_halted hcore] at hrun
    rw [runLoop_halted hstate]
    refine .inl ⟨hrun.symm, fun r hr => ?_⟩
    cases hr
    exact h

theorem run_eq (m : Machine) : ∃ m₀ : Machine, m₀.core.state ≠ .paused ∧ m₀.unpaused = m.unpaused ∧ ∀ fuel, m.run fuel = m₀.runLoop fuel := by
  by_cases h : m.core.state = .paused
  · refine ⟨{ m with core := { m.core with state := .running } }, CoreState.noConfusion, ?_, fun fuel => by rw [run, if_pos h]⟩
    rw [unpaused, unpaused, Core.unpaused, Core.unpaused, if_pos h]
    rfl
  · exact ⟨m, h, rfl, fun fuel => by rw [run, if_neg h]⟩

theorem resume_of_runLoop {x : Except PyErr Machine} {n : Nat} (hn : n ≤ fuel) (hrun : m.unpaused.runLoop n = x) (hx : x ≠ .error .outOfFuel) :
    ∃ k, ∀ k' ≥ k, (resume fuel k' m).map unpaused = x := by
  induction n using Nat.strongRecOn generalizing m with
  | ind n ih =>
      obtain ⟨m₀, h₀, heq, hrun₀⟩ := run_eq m
      rw [← heq] at hrun
      rcases runLoop_unpaused h₀ hrun hx with ⟨hend, hstate⟩ | ⟨r, n', hlt, hpause, hr, hrest⟩
      · have hne : m₀.runLoop n ≠ .error .outOfFuel := fun h => hx (by rw [hend, h]; rfl)
        have hfirst : m.run fuel = m₀.runLoop n := (hrun₀ fuel).trans (runLoop_fuel rfl hne hn)
        refine ⟨1, fun k' hk' => ?_⟩
        obtain ⟨k', rfl⟩ := Nat.exists_eq_succ_of_ne_zero (by omega : k' ≠ 0)
        rw [resume, hfirst, hend]
        cases hr : m₀.runLoop n with
        | error e => rfl
        | ok r => rw [bind_ok, if_neg (hstate r hr)]
      · have hfirst : m.run fuel = .ok r := (hrun₀ fuel).trans (runLoop_fuel hpause nofun hn)
        obtain ⟨k, hk⟩ := ih n' hlt (by omega) hrest
        refine ⟨k + 1, fun k' hk' => ?_⟩
        obtain ⟨k', rfl⟩ := Nat.exists_eq_succ_of_ne_zero (by omega : k' ≠ 0)
        rw [resume, hfirst, bind_ok, if_pos hr]
        exact hk k' (by omega)

/-- Running on for as long as the program pauses comes to what a run without pauses comes to, an exception or the machine
at its end. -/
theorem resume_unpaused (h : m.unpaused.run fuel ≠ .error .outOfFuel) : ∃ k, ∀ k' ≥ k, (resume fuel k' m).map unpaused = m.unpaused.run fuel := by
  have hrun : m.unpaused.run fuel = m.unpaused.runLoop fuel := congrArg (runLoop fuel) (if_neg (unpaused_state m.core))
  rw [hrun] at h ⊢
  exact resume_of_runLoop (Nat.le_refl _) rfl h

def pausingLoop : List Bundle :=
  [.ofList [(.load, [.const 0 3])], .ofList [(.flow, [.pause])], .ofList [(.flow, [.addImm 0 0 (-1)])], .ofList [(.flow, [.condJump 0 1])]]

theorem resume_unpaused_loop : ∃ k, ∀ k' ≥ k, (resume 20 k' (start true true [] (fun _ => none) pausingLoop)).map unpaused =
    (start true true [] (fun _ => none) pausingLoop).unpaused.run 20 := by
  refine resume_unpaused fun h => ?_
  have hends : ((start true true [] (fun _ => none) pausingLoop).unpaused.run 20).toBool = true := by decide +kernel
  rw [h] at hends
  cases hends

end run
end Machine
end Vliw
