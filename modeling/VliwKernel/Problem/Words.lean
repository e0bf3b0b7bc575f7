import VliwKernel.Problem.Control
import VliwKernel.Semantics.Values

/-!
# What every run of the machine keeps

Whatever the program does, memory and scratch keep their lengths and hold 32-bit words, what has been traced stays, the
program is never rewritten and cycles only add up.
-/

namespace Vliw

structure Core.Words (c : Core) : Prop where
  scratch : ∀ x ∈ c.scratch, x < WORD
  traceBuf : ∀ x ∈ c.traceBuf, x < WORD
  id : c.id < WORD

/-- The core has the scratch that it had, and has at most traced more. -/
structure Core.Keeps (c c' : Core) : Prop where
  scratch : c'.scratch = c.scratch
  id : c'.id = c.id
  traceBuf : c.traceBuf <+: c'.traceBuf

structure Writes.Words (w : Writes) : Prop where
  scratch : ∀ p ∈ w.scratch, p.2 < WORD
  mem : ∀ p ∈ w.mem, p.2 < WORD

theorem Writes.Words.append {v w : Writes} (hv : v.Words) (hw : w.Words) : (v.append w).Words :=
  ⟨List.forall_mem_append.mpr ⟨hv.scratch, hw.scratch⟩, List.forall_mem_append.mpr ⟨hv.mem, hw.mem⟩⟩

theorem Core.Keeps.refl (c : Core) : c.Keeps c := ⟨rfl, rfl, List.prefix_rfl⟩

theorem Core.Keeps.trans {c c' c'' : Core} (h : c.Keeps c') (h' : c'.Keeps c'') : c.Keeps c'' :=
  ⟨h'.scratch.trans h.scratch, h'.id.trans h.id, h.traceBuf.trans h'.traceBuf⟩

namespace Machine

structure Words (m : Machine) : Prop where
  core : m.core.Words
  mem : ∀ x ∈ m.mem, x < WORD

/-- What no run of a machine changes, and what it only adds to. -/
structure Evolves (m m' : Machine) : Prop where
  scratch : m'.core.scratch.length = m.core.scratch.length
  mem : m'.mem.length = m.mem.length
  id : m'.core.id = m.core.id
  traceBuf : m.core.traceBuf <+: m'.core.traceBuf
  program : m'.program = m.program
  valueTrace : m'.valueTrace = m.valueTrace
  enablePause : m'.enablePause = m.enablePause
  enableDebug : m'.enableDebug = m.enableDebug
  cycle : m.cycle ≤ m'.cycle

theorem Evolves.refl (m : Machine) : m.Evolves m := ⟨rfl, rfl, rfl, List.prefix_rfl, rfl, rfl, rfl, rfl, Nat.le_refl _⟩

theorem Evolves.trans {m m' m'' : Machine} (h : m.Evolves m') (h' : m'.Evolves m'') : m.Evolves m'' where
  scratch := h'.scratch.trans h.scratch
  mem := h'.mem.trans h.mem
  id := h'.id.trans h.id
  traceBuf := h.traceBuf.trans h'.traceBuf
  program := h'.program.trans h.program
  valueTrace := h'.valueTrace.trans h.valueTrace
  enablePause := h'.enablePause.trans h.enablePause
  enableDebug := h'.enableDebug.trans h.enableDebug
  cycle := h.cycle.trans h'.cycle

section slot

variable {m : Machine} {c c' : Core} {e : Engine} {s : Slot} {ws : List (Nat × Nat)}

theorem at?_lt {xs : List Nat} {a x : Nat} (hx : ∀ x ∈ xs, x < WORD) (h : at? xs a = .ok x) : x < WORD :=
  hx x (List.mem_of_getElem? (at?_mem h))

theorem lanes_lt {f : Nat → Except PyErr (Nat × Nat)} (hf : ∀ {i p}, f i = .ok p → p.2 < WORD) (h : lanes f = .ok ws) :
    ∀ p ∈ ws, p.2 < WORD := by
  intro p hp
  obtain ⟨i, -, hi⟩ := exists_of_mem_mapM h hp
  exact hf hi

theorem alu_lt {op : AluOp} {dest a1 a2 : Nat} (h : alu c op dest a1 a2 = .ok ws) : ∀ p ∈ ws, p.2 < WORD := by
  obtain ⟨x, -, h⟩ := bind_eq_ok.mp h
  obtain ⟨y, -, h⟩ := bind_eq_ok.mp h
  obtain ⟨r, hr, h⟩ := bind_eq_ok.mp h
  cases h
  exact List.forall_mem_singleton.mpr (aluOp_lt hr)

theorem valu_lt (hc : c.Words) (h : valu c s = .ok ws) : ∀ p ∈ ws, p.2 < WORD := by
  cases s with
  | arith op dest a1 a2 =>
      refine lanes_lt (fun {i p} hp => ?_) h
      obtain ⟨x, -, hp⟩ := bind_eq_ok.mp hp
      obtain ⟨y, -, hp⟩ := bind_eq_ok.mp hp
      obtain ⟨r, hr, hp⟩ := bind_eq_ok.mp hp
      cases hp
      exact aluOp_lt hr
  | vbroadcast dest src =>
      refine lanes_lt (fun {i p} hp => ?_) h
      obtain ⟨x, hx, hp⟩ := bind_eq_ok.mp hp
      cases hp
      exact at?_lt hc.scratch hx
  | multiplyAdd dest a b d =>
      refine lanes_lt (fun {i p} hp => ?_) h
      obtain ⟨x, -, hp⟩ := bind_eq_ok.mp hp
      obtain ⟨y, -, hp⟩ := bind_eq_ok.mp hp
      obtain ⟨z, -, hp⟩ := bind_eq_ok.mp hp
      cases hp
      exact Nat.mod_lt _ WORD_pos
  | _ => cases h

theorem word_emod_lt (v : Int) : (v % WORD).toNat < WORD := by
  have hlt := Int.emod_lt_of_pos v (by decide : (0 : Int) < WORD)
  have hnn := Int.emod_nonneg v (by decide : (WORD : Int) ≠ 0)
  omega

theorem load_lt (hm : ∀ x ∈ m.mem, x < WORD) (h : load c m.mem s = .ok ws) : ∀ p ∈ ws, p.2 < WORD := by
  cases s with
  | load dest addr =>
      obtain ⟨x, -, h⟩ := bind_eq_ok.mp h
      obtain ⟨y, hy, h⟩ := bind_eq_ok.mp h
      cases h
      exact List.forall_mem_singleton.mpr (at?_lt hm hy)
  | loadOffset dest addr offset =>
      obtain ⟨x, -, h⟩ := bind_eq_ok.mp h
      obtain ⟨y, hy, h⟩ := bind_eq_ok.mp h
      cases h
      exact List.forall_mem_singleton.mpr (at?_lt hm hy)
  | vload dest addr =>
      obtain ⟨base, -, h⟩ := bind_eq_ok.mp h
      refine lanes_lt (fun {i p} hp => ?_) h
      obtain ⟨x, hx, hp⟩ := bind_eq_ok.mp hp
      cases hp
      exact at?_lt hm hx
  | const dest val =>
      cases h
      exact List.forall_mem_singleton.mpr (word_emod_lt val)
  | _ => cases h

theorem store_lt (hc : c.Words) (h : store c s = .ok ws) : ∀ p ∈ ws, p.2 < WORD := by
  cases s with
  | store addr src =>
      obtain ⟨x, -, h⟩ := bind_eq_ok.mp h
      obtain ⟨y, hy, h⟩ := bind_eq_ok.mp h
      cases h
      exact List.forall_mem_singleton.mpr (at?_lt hc.scratch hy)
  | vstore addr src =>
      obtain ⟨base, -, h⟩ := bind_eq_ok.mp h
      refine lanes_lt (fun {i p} hp => ?_) h
      obtain ⟨x, hx, hp⟩ := bind_eq_ok.mp hp
      cases hp
      exact at?_lt hc.scratch hx
  | _ => cases h

theorem flow_words {p : Bool} (hc : c.Words) (h : flow c p s = .ok (c', ws)) : c'.Words ∧ c.Keeps c' ∧ ∀ q ∈ ws, q.2 < WORD := by
  cases s with
  | select dest cond a b =>
      obtain ⟨x, -, h⟩ := bind_eq_ok.mp h
      obtain ⟨y, hy, h⟩ := bind_eq_ok.mp h
      cases h
      exact ⟨hc, .refl c, List.forall_mem_singleton.mpr (at?_lt hc.scratch hy)⟩
  | addImm dest a imm =>
      obtain ⟨x, -, h⟩ := bind_eq_ok.mp h
      cases h
      exact ⟨hc, .refl c, List.forall_mem_singleton.mpr (word_emod_lt _)⟩
  | vselect dest cond a b =>
      obtain ⟨vs, hvs, h⟩ := bind_eq_ok.mp h
      cases h
      refine ⟨hc, .refl c, lanes_lt (fun {i q} hq => ?_) hvs⟩
      obtain ⟨x, -, hq⟩ := bind_eq_ok.mp hq
      obtain ⟨y, hy, hq⟩ := bind_eq_ok.mp hq
      cases hq
      exact at?_lt hc.scratch hy
  | halt =>
      cases h
      exact ⟨⟨hc.scratch, hc.traceBuf, hc.id⟩, ⟨rfl, rfl, List.prefix_rfl⟩, by simp⟩
  | pause =>
      cases h
      cases p with
      | false => exact ⟨hc, .refl c, by simp⟩
      | true => exact ⟨⟨hc.scratch, hc.traceBuf, hc.id⟩, ⟨rfl, rfl, List.prefix_rfl⟩, by simp⟩
  | traceWrite val =>
      obtain ⟨x, hx, h⟩ := bind_eq_ok.mp h
      cases h
      refine ⟨⟨hc.scratch, fun y hy => ?_, hc.id⟩, ⟨rfl, rfl, List.prefix_append _ _⟩, by simp⟩
      rcases List.mem_append.mp hy with hy | hy
      · exact hc.traceBuf y hy
      · rw [List.mem_singleton.mp hy]
        exact at?_lt hc.scratch hx
  | condJump cond addr | condJumpRel cond addr =>
      obtain ⟨x, -, h⟩ := bind_eq_ok.mp h
      cases h
      split
      · exact ⟨⟨hc.scratch, hc.traceBuf, hc.id⟩, ⟨rfl, rfl, List.prefix_rfl⟩, by simp⟩
      · exact ⟨hc, .refl c, by simp⟩
  | jump addr =>
      cases h
      exact ⟨⟨hc.scratch, hc.traceBuf, hc.id⟩, ⟨rfl, rfl, List.prefix_rfl⟩, by simp⟩
  | jumpIndirect addr =>
      obtain ⟨x, -, h⟩ := bind_eq_ok.mp h
      cases h
      exact ⟨⟨hc.scratch, hc.traceBuf, hc.id⟩, ⟨rfl, rfl, List.prefix_rfl⟩, by simp⟩
  | coreid dest =>
      cases h
      exact ⟨hc, .refl c, List.forall_mem_singleton.mpr hc.id⟩
  | _ => cases h

end slot
section bundle

variable {m m' : Machine} {e : Engine} {s : Slot} {cw cw' : Core × Writes}

theorem execSlot_words (hm : m.Words) {c : Core} (hc : c.Words) (h : execSlot m e c s = .ok cw) : cw.1.Words ∧ c.Keeps cw.1 ∧ cw.2.Words := by
  cases e with
  | alu =>
      cases s with
      | arith op dest a1 a2 =>
          obtain ⟨ws, hws, h⟩ := bind_eq_ok.mp h
          cases h
          exact ⟨hc, .refl c, alu_lt hws, by simp⟩
      | _ => cases h
  | valu =>
      obtain ⟨ws, hws, h⟩ := bind_eq_ok.mp h
      cases h
      exact ⟨hc, .refl c, valu_lt hc hws, by simp⟩
  | load =>
      obtain ⟨ws, hws, h⟩ := bind_eq_ok.mp h
      cases h
      exact ⟨hc, .refl c, load_lt hm.mem hws, by simp⟩
  | store =>
      obtain ⟨ws, hws, h⟩ := bind_eq_ok.mp h
      cases h
      exact ⟨hc, .refl c, by simp, store_lt hc hws⟩
  | flow =>
      obtain ⟨⟨c', ws⟩, hws, h⟩ := bind_eq_ok.mp h
      cases h
      obtain ⟨hc', hk, hlt⟩ := flow_words hc hws
      exact ⟨hc', hk, hlt, by simp⟩
  | debug =>
      cases h
      exact ⟨hc, .refl c, by simp, by simp⟩

theorem execSlots_words (hm : m.Words) {ss : List Slot} (hc : cw.1.Words) (hw : cw.2.Words) (h : execSlots m e ss cw = .ok cw') :
    cw'.1.Words ∧ cw.1.Keeps cw'.1 ∧ cw'.2.Words := by
  induction ss generalizing cw with
  | nil =>
      cases h
      exact ⟨hc, .refl _, hw⟩
  | cons s ss ih =>
      obtain ⟨r, hs, h⟩ := bind_eq_ok.mp h
      obtain ⟨hc', hk, hw'⟩ := execSlot_words hm hc hs
      obtain ⟨hc'', hk', hw''⟩ := @ih (r.1, cw.2.append r.2) hc' (hw.append hw') h
      exact ⟨hc'', hk.trans hk', hw''⟩

theorem execEngine_words (hm : m.Words) {item : Engine × List Slot} (hc : cw.1.Words) (hw : cw.2.Words) (h : execEngine m cw item = .ok cw') :
    cw'.1.Words ∧ cw.1.Keeps cw'.1 ∧ cw'.2.Words := by
  rw [execEngine] at h
  split at h
  · have heq : cw = cw' := by
      split at h
      · obtain ⟨_, -, h⟩ := bind_eq_ok.mp h
        exact Except.ok.inj h
      · exact Except.ok.inj h
    subst heq
    exact ⟨hc, .refl _, hw⟩
  · split at h
    · exact execSlots_words hm hc hw h
    · cases h

theorem step_words (hm : m.Words) {b : Bundle} (h : m.step b = .ok m') : m'.Words ∧ m.Evolves m' := by
  obtain ⟨⟨c, w⟩, hitems, h⟩ := bind_eq_ok.mp h
  obtain ⟨scratch, hs, h⟩ := bind_eq_ok.mp h
  obtain ⟨mem, hmem, h⟩ := bind_eq_ok.mp h
  cases h
  have hinv : c.Words ∧ m.core.Keeps c ∧ w.Words := by
    refine foldlM_inv (I := fun cw : Core × Writes => cw.1.Words ∧ m.core.Keeps cw.1 ∧ cw.2.Words)
      (fun item _ cw cw' hx hI => ?_) hitems ⟨hm.core, .refl _, by simp, by simp⟩
    obtain ⟨hc, hk, hw⟩ := execEngine_words hm hI.1 hI.2.2 hx
    exact ⟨hc, hI.2.1.trans hk, hw⟩
  obtain ⟨hc, hk, hw⟩ := hinv
  refine ⟨⟨⟨applyWrites_forall hs hc.scratch hw.scratch, hc.traceBuf, hc.id⟩, applyWrites_forall hmem hm.mem hw.mem⟩, ?_⟩
  exact ⟨(applyWrites_length hs).1.trans (congrArg List.length hk.scratch), (applyWrites_length hmem).1, hk.id, hk.traceBuf, rfl, rfl, rfl, rfl,
    Nat.le_refl _⟩

end bundle
section run

variable {m m' : Machine} {fuel : Nat}

theorem tick_words (hm : m.Words) (h : m.tick = .ok m') : m'.Words ∧ m.Evolves m' := by
  rw [tick] at h
  split at h
  · cases h
    exact ⟨⟨⟨hm.core.scratch, hm.core.traceBuf, hm.core.id⟩, hm.mem⟩, rfl, rfl, rfl, List.prefix_rfl, rfl, rfl, rfl, rfl, Nat.le_refl _⟩
  · split at h
    · cases h
    · next instr _ =>
        obtain ⟨r, hstep, h⟩ := bind_eq_ok.mp h
        have hm₁ : ({ m with core := { m.core with pc := m.core.pc + 1 } } : Machine).Words :=
          ⟨⟨hm.core.scratch, hm.core.traceBuf, hm.core.id⟩, hm.mem⟩
        obtain ⟨hr, he⟩ := step_words hm₁ hstep
        have he' : m.Evolves r := ⟨he.scratch, he.mem, he.id, he.traceBuf, he.program, he.valueTrace, he.enablePause, he.enableDebug, he.cycle⟩
        split at h
        · cases h
          exact ⟨⟨hr.core, hr.mem⟩, he'.scratch, he'.mem, he'.id, he'.traceBuf, he'.program, he'.valueTrace, he'.enablePause, he'.enableDebug,
            he'.cycle.trans (Nat.le_succ _)⟩
        · cases h
          exact ⟨hr, he'⟩

theorem runLoop_inv {I : Machine → Prop} (hI : ∀ m m' : Machine, I m → m.tick = .ok m' → I m') (h : m.runLoop fuel = .ok m') (hm : I m) : I m' := by
  induction fuel generalizing m with
  | zero =>
      rw [runLoop] at h
      split at h
      · cases h
      · cases h
        exact hm
  | succ fuel ih =>
      rw [runLoop] at h
      split at h
      · obtain ⟨m₁, htick, h⟩ := bind_eq_ok.mp h
        exact ih h (hI m m₁ hm htick)
      · cases h
        exact hm

/-- In a run of any program the words of the machine stay 32-bit words and their number stays, the program, the trace and
the flags are left alone, and the traced words and the cycles only grow. -/
theorem run_words (hm : m.Words) (h : m.run fuel = .ok m') : m'.Words ∧ m.Evolves m' := by
  have hrun : ∀ m₀ : Machine, m₀.Words → m₀.runLoop fuel = .ok m' → m'.Words ∧ m₀.Evolves m' := fun m₀ hm₀ h₀ =>
    runLoop_inv (I := fun m => m.Words ∧ m₀.Evolves m)
      (fun _ _ hI htick => ⟨(tick_words hI.1 htick).1, hI.2.trans (tick_words hI.1 htick).2⟩) h₀ ⟨hm₀, .refl m₀⟩
  rw [run] at h
  split at h
  · obtain ⟨hw, he⟩ := hrun { m with core := { m.core with state := .running } } ⟨⟨hm.core.scratch, hm.core.traceBuf, hm.core.id⟩, hm.mem⟩ h
    exact ⟨hw, he.scratch, he.mem, he.id, he.traceBuf, he.program, he.valueTrace, he.enablePause, he.enableDebug, he.cycle⟩
  · exact hrun m hm h

theorem start_words {p debug : Bool} {mem : List Nat} (hmem : ∀ x ∈ mem, x < WORD) (valueTrace : TraceKey → Option Nat) (program : List Bundle) :
    (start p debug mem valueTrace program).Words := by
  refine ⟨⟨fun x hx => ?_, fun x hx => (List.not_mem_nil hx).elim, WORD_pos⟩, hmem⟩
  rw [List.eq_of_mem_replicate hx]
  exact WORD_pos

/-- A word is loaded, traced and stored. -/
def tracedStore : List Bundle :=
  [.ofList [(.load, [.const 0 1])], .ofList [(.load, [.load 1 0])], .ofList [(.flow, [.traceWrite 1]), (.store, [.store 2 1])]]

theorem run_words_tracedStore : ∃ m', (start true true [7, 8] (fun _ => none) tracedStore).run 4 = .ok m' ∧ m'.Words ∧
    (start true true [7, 8] (fun _ => none) tracedStore).Evolves m' := by
  have hends : ((start true true [7, 8] (fun _ => none) tracedStore).run 4).toBool = true := by decide +kernel
  cases h : (start true true [7, 8] (fun _ => none) tracedStore).run 4 with
  | error e =>
      rw [h] at hends
      cases hends
  | ok m' => exact ⟨m', rfl, run_words (start_words (by decide) _ _) h⟩

end run
end Machine
end Vliw
