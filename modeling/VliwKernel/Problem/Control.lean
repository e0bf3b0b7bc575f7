import VliwKernel.Problem.Run

/-!
# Running, pausing and resuming

What the machine computes with and what decides how far it runs are apart: the bundles of a program that never jumps
compute the same whatever the program counter, the state of the core and the pause flag are, and these follow from
the flow slots alone. A run takes the bundles up to the first that stops the core, and the next run goes on behind it.
-/

namespace Vliw

/-- The flow slots that set the program counter. -/
def Slot.jumps : Slot → Bool
  | .condJump .. | .condJumpRel .. | .jump _ | .jumpIndirect _ => true
  | _ => false

def Slot.state (p : Bool) (st : CoreState) : Slot → CoreState
  | .halt => .stopped
  | .pause => if p then .paused else st
  | _ => st

namespace Bundle

def flowSlots (b : Bundle) : List Slot := (b.get? .flow).getD []

/-- No flow slot sets the program counter, and there is at most one. -/
structure Straight (b : Bundle) : Prop where
  jumps : ∀ s ∈ b.flowSlots, s.jumps = false
  single : b.flowSlots.length ≤ 1

instance (b : Bundle) : Decidable b.Straight :=
  decidable_of_iff ((∀ s ∈ b.flowSlots, s.jumps = false) ∧ b.flowSlots.length ≤ 1) ⟨fun h => ⟨h.1, h.2⟩, fun h => ⟨h.jumps, h.single⟩⟩

def state (b : Bundle) (p : Bool) (st : CoreState) : CoreState := b.flowSlots.foldl (Slot.state p) st

end Bundle

/-- All of a machine that decides how far it runs. -/
structure Control where
  pc : Int
  state : CoreState
  program : List Bundle
  cycle : Nat
  enablePause : Bool

namespace Control

def start (p : Bool) (program : List Bundle) : Control := ⟨0, .running, program, 0, p⟩

def next (k : Control) (b : Bundle) : Control where
  pc := k.pc + 1
  state := b.state k.enablePause k.state
  program := k.program
  cycle := if b.keys.any (· ≠ .debug) then k.cycle + 1 else k.cycle
  enablePause := k.enablePause

def run : List Bundle → Control → Control
  | [], k => { k with state := .stopped }
  | b :: bs, k => if (k.next b).state = .running then run bs (k.next b) else k.next b

end Control

/-- The bundles that a run takes: up to the first that stops the core. -/
def taken (p : Bool) : List Bundle → List Bundle
  | [] => []
  | b :: bs => b :: if b.state p .running = .running then taken p bs else []

/-- The bundles that the second run takes, after a first has paused. -/
def again : List Bundle → List Bundle
  | [] => []
  | b :: bs =>
    match b.state true .running with
    | .running => again bs
    | .paused => taken true bs
    | .stopped => []

/-- A bundle takes a cycle unless all it has is checks. -/
def Bundle.counts (b : Bundle) : Bool := b.keys.any (· ≠ .debug)

def Core.put (c : Core) (pc : Int) (st : CoreState) : Core := { c with pc := pc, state := st }

def Machine.put (m : Machine) (k : Control) : Machine :=
  { m with core := m.core.put k.pc k.state, program := k.program, cycle := k.cycle, enablePause := k.enablePause }

section taken

variable {b : Bundle} {bs : List Bundle} {p : Bool} {st : CoreState}

theorem Bundle.state_of_free (h : b.flowSlots = []) : b.state p st = st := by
  rw [state, h]
  rfl

theorem Bundle.state_of_pause (h : b.flowSlots = [.pause]) : b.state p st = if p then .paused else st := by
  rw [state, h]
  rfl

theorem Bundle.state_of_computing (h : ∀ s ∈ b.flowSlots, ∀ st, s.state p st = st) : b.state p st = st :=
  (List.foldl_ext _ (fun st _ => st) st fun st s hs => h s hs st).trans (List.foldl_fixed _)

/-- Only a `halt` stops a core that ignores pauses. -/
theorem Bundle.Straight.state_running (h : b.Straight) (hs : b.state true .running ≠ .stopped) : b.state false .running = .running := by
  cases hslots : b.flowSlots with
  | nil => exact state_of_free hslots
  | cons s ss =>
      have hsingle := h.single
      rw [hslots, List.length_cons] at hsingle
      obtain rfl : ss = [] := List.eq_nil_of_length_eq_zero (by omega)
      rw [state, hslots] at hs ⊢
      cases s with
      | halt => exact absurd rfl hs
      | _ => rfl

theorem Bundle.state_congr (h : Slot.pause ∉ b.flowSlots) : b.state true st = b.state false st := by
  refine List.foldl_ext _ _ _ fun st s hs => ?_
  cases s with
  | pause => exact absurd hs h
  | _ => rfl

@[simp] theorem taken_nil : taken p [] = [] := rfl

@[simp] theorem taken_single : taken p [b] = [b] := by
  rw [taken]
  split <;> rfl

theorem taken_running (h : b.state p .running = .running) : taken p (b :: bs) = b :: taken p bs := by rw [taken, if_pos h]

theorem taken_halted (h : b.state p .running ≠ .running) : taken p (b :: bs) = [b] := by rw [taken, if_neg h]

theorem taken_all (h : ∀ b ∈ bs, b.state p .running = .running) : taken p bs = bs := by
  induction bs with
  | nil => rfl
  | cons b bs ih => rw [taken_running (h b (by simp)), ih fun b hb => h b (by simp [hb])]

theorem taken_congr (h : ∀ b ∈ bs, Slot.pause ∉ b.flowSlots) : taken true bs = taken false bs := by
  induction bs with
  | nil => rfl
  | cons b bs ih => rw [taken, taken, Bundle.state_congr (h b (by simp)), ih fun b hb => h b (by simp [hb])]

theorem Control.next_cycle (k : Control) (b : Bundle) : (k.next b).cycle = k.cycle + if b.counts then 1 else 0 := by
  rw [next, Bundle.counts]
  dsimp only
  split <;> rfl

theorem Control.run_cycle {k : Control} (hrun : k.state = .running) : (k.run bs).cycle = k.cycle + (taken k.enablePause bs).countP Bundle.counts := by
  induction bs generalizing k with
  | nil => rfl
  | cons b bs ih =>
      have hstate : (k.next b).state = b.state k.enablePause .running := by rw [← hrun]; rfl
      rw [run, hstate]
      by_cases hnext : b.state k.enablePause .running = .running
      · rw [if_pos hnext, taken_running hnext, ih (hstate.trans hnext), next_cycle, List.countP_cons, Nat.add_assoc, Nat.add_comm (ite _ _ _)]
        rfl
      · rw [if_neg hnext, taken_halted hnext, next_cycle, List.countP_singleton]

theorem Control.run_stopped {k : Control} (hrun : k.state = .running) (h : ∀ b ∈ bs, b.state k.enablePause .running = .running) :
    (k.run bs).state = .stopped := by
  induction bs generalizing k with
  | nil => rfl
  | cons b bs ih =>
      have hnext : (k.next b).state = .running := by rw [← h b (by simp), ← hrun]; rfl
      rw [run, if_pos hnext]
      exact ih hnext fun b hb => h b (by simp [hb])

end taken

namespace Machine

variable {m : Machine} {k : Control} {b : Bundle} {bs : List Bundle} {p : Bool} {st : CoreState} {n fuel : Nat}

section step

theorem flow_put {s : Slot} (h : s.jumps = false) (c : Core) (p q : Bool) (pc : Int) (st : CoreState) :
    flow (c.put pc st) p s = (flow c q s).map fun r => (r.1.put pc (s.state p st), r.2) := by
  cases s with
  | select | addImm | vselect | traceWrite =>
      simp only [flow, bind_map]
      rfl
  | pause => cases p <;> cases q <;> rfl
  | condJump | condJumpRel | jump | jumpIndirect => cases h
  | _ => rfl

/-- The state after all the slots of an engine. -/
def itemState (p : Bool) (st : CoreState) (item : Engine × List Slot) : CoreState :=
  if item.1 = .flow then item.2.foldl (Slot.state p) st else st

theorem execSlot_put {e : Engine} {s : Slot} (h : e = .flow → s.jumps = false) (c : Core) (pc : Int) (st : CoreState) :
    execSlot (m.put k) e (c.put pc st) s =
      (execSlot m e c s).map fun r => (r.1.put pc (if e = .flow then s.state k.enablePause st else st), r.2) := by
  cases e with
  | flow =>
      simp only [execSlot, flow_put (h rfl) c (m.put k).enablePause m.enablePause]
      cases flow c m.enablePause s <;> rfl
  | alu =>
      cases s with
      | arith op dest a1 a2 =>
          simp only [execSlot, bind_map]
          rfl
      | _ => rfl
  | debug => rfl
  | _ =>
      simp only [execSlot, bind_map]
      rfl

theorem execSlots_put {e : Engine} {ss : List Slot} (h : e = .flow → ∀ s ∈ ss, s.jumps = false) (c : Core) (w : Writes) (pc : Int)
    (st : CoreState) : execSlots (m.put k) e ss (c.put pc st, w) =
      (execSlots m e ss (c, w)).map fun r => (r.1.put pc (itemState k.enablePause st (e, ss)), r.2) := by
  induction ss generalizing c w st with
  | nil => simp [execSlots, itemState, Except.map]
  | cons s ss ih =>
      rw [execSlots, execSlots, execSlot_put (fun he => h he s (by simp)), bind_map]
      cases execSlot m e c s with
      | error err => rfl
      | ok r =>
          rw [bind_ok]
          refine (ih (fun he s hs => h he s (by simp [hs])) r.1 (w.append r.2) _).trans ?_
          by_cases he : e = .flow <;> simp [itemState, he]

theorem execEngine_put {item : Engine × List Slot} (h : item.1 = .flow → ∀ s ∈ item.2, s.jumps = false) (pc : Int) (st : CoreState)
    (cw : Core × Writes) : execEngine (m.put k) (cw.1.put pc st, cw.2) item =
      (execEngine m cw item).map fun r => (r.1.put pc (itemState k.enablePause st item), r.2) := by
  by_cases he : item.1 = .debug
  · have hst : itemState k.enablePause st item = st := by simp [itemState, he]
    have hdebug : (m.put k).enableDebug = m.enableDebug := rfl
    rw [execEngine, execEngine, if_pos he, if_pos he, hst, hdebug]
    cases m.enableDebug with
    | false => rfl
    | true =>
        simp only [if_true, bind_map]
        rfl
  · rw [execEngine, execEngine, if_neg he, if_neg he]
    split
    · exact execSlots_put h cw.1 cw.2 pc st
    · rfl

theorem foldl_itemState (b : Bundle) (p : Bool) (st : CoreState) : b.items.foldl (itemState p) st = b.state p st := by
  have hskip : ∀ st (q : Engine × List Slot), q.1 ≠ .flow → itemState p st q = st := fun st q hq => if_neg hq
  rw [Dict.foldl_items hskip, Bundle.state, Bundle.flowSlots]
  cases b.get? .flow <;> rfl

/-- A bundle that does not jump computes the same under any control, and moves it on. -/
theorem step_put (h : b.Straight) : (m.put k).step b = (m.step b).map fun r => r.put { k with state := b.state k.enablePause k.state } := by
  have hitems : ∀ q ∈ b.items, ∀ st cw, execEngine (m.put k) (cw.1.put k.pc st, cw.2) q =
      (execEngine m cw q).map fun r => (r.1.put k.pc (itemState k.enablePause st q), r.2) := by
    intro q hq st cw
    refine execEngine_put (fun hflow s hs => h.jumps s ?_) k.pc st cw
    rw [Bundle.flowSlots, ← hflow, Dict.mem_items.mp hq]
    exact hs
  have hfold := foldlM_carry (t := fun st (cw : Core × Writes) => (cw.1.put k.pc st, cw.2)) hitems k.state (m.core, {})
  rw [foldl_itemState] at hfold
  rw [step, step, bind_map]
  refine (congrArg (· >>= _) hfold).trans ?_
  rw [map_bind]
  refine bind_congr (m := Except PyErr) fun r => ?_
  rw [bind_map]
  refine bind_congr (m := Except PyErr) fun scratch => ?_
  rw [bind_map]
  rfl

end step

section run

@[simp] theorem put_state : (m.put k).core.state = k.state := rfl

theorem tick_end (hpc : k.pc = n) (hend : k.program.drop n = []) : (m.put k).tick = .ok (m.put { k with state := .stopped }) := by
  have hlen : (k.program.length : Int) ≤ k.pc := by
    rw [hpc]
    exact_mod_cast List.drop_eq_nil_iff.mp hend
  exact if_pos hlen

theorem tick_next (hpc : k.pc = n) (hdrop : k.program.drop n = b :: bs) (hb : b.Straight) :
    (m.put k).tick = (m.step b).map fun r => r.put (k.next b) := by
  have hget : k.program[n]? = some b := by rw [← List.head?_drop, hdrop, List.head?_cons]
  have hlt := (List.getElem?_eq_some_iff.mp hget).1
  have hlen : ¬ ((m.put k).program.length : Int) ≤ (m.put k).core.pc := by
    change ¬ (k.program.length : Int) ≤ k.pc
    omega
  have hfetch : fetch (m.put k).program (m.put k).core.pc = some b := (congrArg (fetch k.program) hpc).trans ((fetch_nat _ n).trans hget)
  rw [tick, if_neg hlen]
  simp only [hfetch]
  refine (congrArg (· >>= _) (step_put (m := m) (k := { k with pc := k.pc + 1 }) hb)).trans ?_
  rw [map_bind]
  cases m.step b with
  | error e => rfl
  | ok r =>
      refine congrArg Except.ok ?_
      unfold Control.next
      split <;> rfl

theorem runLoop_running (h : m.core.state = .running) : m.runLoop (fuel + 1) = m.tick >>= runLoop fuel := by rw [runLoop, if_pos h]

theorem runLoop_halted (h : m.core.state ≠ .running) : m.runLoop fuel = .ok m := by
  cases fuel <;> rw [runLoop, if_neg h]

theorem runLoop_mono {r : Machine} (h : m.runLoop fuel = .ok r) {fuel' : Nat} (hle : fuel ≤ fuel') : m.runLoop fuel' = .ok r := by
  induction fuel generalizing m fuel' with
  | zero =>
      by_cases hrun : m.core.state = .running
      · rw [runLoop, if_pos hrun] at h
        cases h
      · rw [runLoop_halted hrun] at h ⊢
        exact h
  | succ fuel ih =>
      obtain ⟨fuel', rfl⟩ := Nat.exists_eq_succ_of_ne_zero (by omega : fuel' ≠ 0)
      by_cases hrun : m.core.state = .running
      · rw [runLoop_running hrun] at h ⊢
        obtain ⟨m', htick, h⟩ := bind_eq_ok.mp h
        rw [htick, bind_ok]
        exact ih h (by omega)
      · rw [runLoop_halted hrun] at h ⊢
        exact h

theorem foldlM_running {r : Machine} (hb : b.state p .running = .running) (hstep : m.step b = .ok r) :
    (taken p (b :: bs)).foldlM step m = (taken p bs).foldlM step r := by rw [taken_running hb, List.foldlM_cons, hstep, bind_ok]

theorem foldlM_halted {r : Machine} (hb : b.state p .running ≠ .running) (hstep : m.step b = .ok r) :
    (taken p (b :: bs)).foldlM step m = .ok r := by
  rw [taken_halted hb, List.foldlM_cons, hstep]
  rfl

theorem run_mono {r : Machine} (h : m.run fuel = .ok r) {fuel' : Nat} (hle : fuel ≤ fuel') : m.run fuel' = .ok r := runLoop_mono h hle

/-- What runs to the end runs to its first pause. -/
theorem taken_ok {r : Machine} (hbs : ∀ b ∈ bs, b.Straight) (h : (taken false bs).foldlM step m = .ok r) :
    ∃ r', (taken true bs).foldlM step m = .ok r' := by
  induction bs generalizing m with
  | nil => exact ⟨m, rfl⟩
  | cons b bs ih =>
      obtain ⟨m₁, hstep, hrest⟩ := bind_eq_ok.mp ((List.foldlM_cons ..).symm.trans h)
      by_cases hb : b.state true .running = .running
      · have hb' := (hbs b (by simp)).state_running (by rw [hb]; decide)
        rw [if_pos hb'] at hrest
        obtain ⟨r', hr'⟩ := ih (fun b hb => hbs b (by simp [hb])) hrest
        exact ⟨r', (foldlM_running hb hstep).trans hr'⟩
      · exact ⟨m₁, foldlM_halted hb hstep⟩

theorem runLoop_put (hpc : k.pc = n) (hdrop : k.program.drop n = bs) (hbs : ∀ b ∈ bs, b.Straight) (hrun : k.state = .running)
    (hfuel : bs.length < fuel) : (m.put k).runLoop fuel = ((taken k.enablePause bs).foldlM step m).map fun r => r.put (k.run bs) := by
  induction bs generalizing m k n fuel with
  | nil =>
      obtain ⟨fuel, rfl⟩ := Nat.exists_eq_succ_of_ne_zero (by omega : fuel ≠ 0)
      rw [runLoop_running hrun, tick_end hpc hdrop, bind_ok]
      exact runLoop_halted CoreState.noConfusion
  | cons b bs ih =>
      obtain ⟨fuel, rfl⟩ := Nat.exists_eq_succ_of_ne_zero (by omega : fuel ≠ 0)
      rw [runLoop_running hrun, tick_next hpc hdrop (hbs b (by simp)), map_bind, taken, Control.run, List.foldlM_cons, bind_map]
      refine bind_congr (m := Except PyErr) fun r => ?_
      have hstate : (k.next b).state = b.state k.enablePause .running := by rw [← hrun]; rfl
      rw [hstate]
      by_cases hnext : b.state k.enablePause .running = .running
      · rw [if_pos hnext, if_pos hnext]
        have hpc' : (k.next b).pc = (n + 1 : Nat) := by simp [Control.next, hpc]
        have hdrop' : (k.next b).program.drop (n + 1) = bs := by
          rw [← List.tail_drop]
          exact congrArg List.tail hdrop
        exact ih hpc' hdrop' (fun b hb => hbs b (by simp [hb])) (hstate.trans hnext) (by simpa using hfuel)
      · rw [if_neg hnext, if_neg hnext]
        exact runLoop_halted (by rwa [put_state, hstate])

/-- The run after one that paused goes on behind the bundle that paused it. -/
theorem run_again (hpc : k.pc = n) (hdrop : k.program.drop n = bs) (hbs : ∀ b ∈ bs, b.Straight) (hrun : k.state = .running)
    (hp : k.enablePause = true) (hfuel : bs.length < fuel) :
    ∃ k', (m.put (k.run bs)).run fuel = ((again bs).foldlM step m).map (fun r => r.put k') ∧
      k'.cycle = (k.run bs).cycle + (again bs).countP Bundle.counts := by
  have hstopped : ∀ k : Control, k.state = .stopped → (m.put k).run fuel = .ok (m.put k) := by
    intro k hk
    rw [run, if_neg (by simp [hk])]
    exact runLoop_halted (by simp [hk])
  induction bs generalizing k n with
  | nil => exact ⟨_, hstopped _ rfl, rfl⟩
  | cons b bs ih =>
      have hpc' : (k.next b).pc = (n + 1 : Nat) := by simp [Control.next, hpc]
      have hdrop' : (k.next b).program.drop (n + 1) = bs := by
        rw [← List.tail_drop]
        exact congrArg List.tail hdrop
      have hbs' : ∀ b ∈ bs, b.Straight := fun b hb => hbs b (by simp [hb])
      have hfuel' : bs.length < fuel := by
        rw [List.length_cons] at hfuel
        omega
      have hstate : (k.next b).state = b.state true .running := by rw [← hp, ← hrun]; rfl
      rw [Control.run, again, hstate]
      cases hb : b.state true .running with
      | running =>
          rw [if_pos rfl]
          exact ih hpc' hdrop' hbs' (hstate.trans hb) hp hfuel'
      | paused =>
          rw [if_neg CoreState.noConfusion, run, put_state, if_pos (hstate.trans hb)]
          have hresume := runLoop_put (m := m) (k := { k.next b with state := .running }) hpc' hdrop' hbs' rfl hfuel'
          rw [show ({ k.next b with state := .running } : Control).enablePause = true from hp] at hresume
          refine ⟨_, hresume, ?_⟩
          rw [Control.run_cycle rfl]
          exact congrArg (fun p => (k.next b).cycle + (taken p bs).countP Bundle.counts) hp
      | stopped =>
          rw [if_neg CoreState.noConfusion]
          exact ⟨_, hstopped _ (hstate.trans hb), rfl⟩

variable {mem : List Nat} {valueTrace : TraceKey → Option Nat} {debug : Bool}

/-- `Machine.__init__` and the flags that the callers of `run` set. -/
def start (enablePause enableDebug : Bool) (mem : List Nat) (valueTrace : TraceKey → Option Nat) (program : List Bundle) : Machine :=
  { Machine.init mem program valueTrace with enablePause := enablePause, enableDebug := enableDebug }

theorem run_start (hbs : ∀ b ∈ bs, b.Straight) (hfuel : bs.length < fuel) : (start p debug mem valueTrace bs).run fuel =
    ((taken p bs).foldlM step (start false debug mem valueTrace [])).map fun r => r.put ((Control.start p bs).run bs) := by
  have hstart : start p debug mem valueTrace bs = (start false debug mem valueTrace []).put (Control.start p bs) := rfl
  rw [hstart, run, if_neg CoreState.noConfusion]
  exact runLoop_put (n := 0) rfl rfl hbs rfl hfuel

theorem run_counted (hbs : ∀ b ∈ bs, b.Straight) (hfuel : bs.length < fuel) :
    ∃ k', (m.put ((Control.start true bs).run bs)).run fuel = ((again bs).foldlM step m).map (fun r => r.put k') ∧
      k'.cycle = (taken true bs).countP Bundle.counts + (again bs).countP Bundle.counts := by
  obtain ⟨k', h, hcycle⟩ := run_again (m := m) (k := Control.start true bs) (n := 0) rfl rfl hbs rfl rfl hfuel
  refine ⟨k', h, hcycle.trans ?_⟩
  rw [Control.run_cycle rfl]
  exact congrArg (· + _) (Nat.zero_add _)

theorem run_resumed (hbs : ∀ b ∈ bs, b.Straight) (hfuel : bs.length < fuel) :
    ∃ k', (m.put ((Control.start true bs).run bs)).run fuel = ((again bs).foldlM step m).map fun r => r.put k' := by
  obtain ⟨k', h, -⟩ := run_counted hbs hfuel
  exact ⟨k', h⟩

end run
end Machine
end Vliw
