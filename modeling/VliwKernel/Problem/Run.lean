import VliwKernel.Lib.Outcome
import VliwKernel.Problem.Machine

/-!
# Running bundles

A bundle whose slots only compute lands the writes of all of them at once, and a program of such
bundles runs from its first to its last.
-/

namespace Vliw.Machine

section writes

variable {ws : List (Nat × Nat)} {xs ys : List Nat}

theorem applyWrites_ok (h : ∀ p ∈ ws, p.1 < xs.length) : ∃ ys, applyWrites ws xs = .ok ys := by
  induction ws generalizing xs with
  | nil => exact ⟨xs, rfl⟩
  | cons p ws ih =>
      have hp := h p (by simp)
      obtain ⟨ys, hys⟩ := @ih (xs.set p.1 p.2) fun q hq => by
        rw [List.length_set]
        exact h q (by simp [hq])
      exact ⟨ys, by rw [applyWrites, if_pos hp, hys]⟩

theorem applyWrites_cons {p : Nat × Nat} (h : applyWrites (p :: ws) xs = .ok ys) :
    p.1 < xs.length ∧ applyWrites ws (xs.set p.1 p.2) = .ok ys := by
  rw [applyWrites] at h
  split at h
  · next hp => exact ⟨hp, h⟩
  · cases h

theorem applyWrites_length (h : applyWrites ws xs = .ok ys) : ys.length = xs.length ∧ ∀ p ∈ ws, p.1 < xs.length := by
  induction ws generalizing xs with
  | nil =>
      cases h
      exact ⟨rfl, by simp⟩
  | cons p ws ih =>
      obtain ⟨hp, h⟩ := applyWrites_cons h
      obtain ⟨hlen, hws⟩ := ih h
      rw [List.length_set] at hlen
      refine ⟨hlen, fun q hq => ?_⟩
      rcases List.mem_cons.mp hq with rfl | hq
      · exact hp
      · simpa using hws q hq

theorem applyWrites_forall {P : Nat → Prop} (h : applyWrites ws xs = .ok ys) (hx : ∀ x ∈ xs, P x) (hw : ∀ p ∈ ws, P p.2) :
    ∀ y ∈ ys, P y := by
  induction ws generalizing xs with
  | nil =>
      cases h
      exact hx
  | cons p ws ih =>
      obtain ⟨-, h⟩ := applyWrites_cons h
      refine ih h (fun x hxs => ?_) fun q hq => hw q (by simp [hq])
      rcases List.mem_or_eq_of_mem_set hxs with hxs | rfl
      · exact hx x hxs
      · exact hw p (by simp)

theorem applyWrites_append {ws' : List (Nat × Nat)} : applyWrites (ws ++ ws') xs = applyWrites ws xs >>= applyWrites ws' := by
  induction ws generalizing xs with
  | nil => rfl
  | cons p ws ih =>
      rw [List.cons_append, applyWrites, applyWrites]
      split
      · exact ih
      · rfl

theorem applyWrites_of_ne (h : applyWrites ws xs = .ok ys) {a : Nat} (ha : ∀ p ∈ ws, p.1 ≠ a) : ys[a]? = xs[a]? := by
  induction ws generalizing xs with
  | nil =>
      cases h
      rfl
  | cons p ws ih =>
      obtain ⟨-, h⟩ := applyWrites_cons h
      rw [ih h fun q hq => ha q (by simp [hq]), List.getElem?_set_ne (ha p (by simp))]

theorem applyWrites_of_mem (h : applyWrites ws xs = .ok ys) {p : Nat × Nat} (hp : p ∈ ws)
    (hall : ∀ q ∈ ws, q.1 = p.1 → q.2 = p.2) : ys[p.1]? = some p.2 := by
  induction ws generalizing xs with
  | nil => cases hp
  | cons q ws ih =>
      obtain ⟨hq, h⟩ := applyWrites_cons h
      by_cases hlater : ∃ r ∈ ws, r.1 = p.1
      · obtain ⟨r, hr, hrp⟩ := hlater
        have hrv := hall r (by simp [hr]) hrp
        obtain rfl : r = p := Prod.ext hrp hrv
        exact ih h hr fun q hq => hall q (by simp [hq])
      · obtain rfl : p = q := (List.mem_cons.mp hp).resolve_right fun hm => hlater ⟨p, hm, rfl⟩
        rw [applyWrites_of_ne h fun r hr hrp => hlater ⟨r, hr, hrp⟩, List.getElem?_set_self hq]

/-- A word whose writes all leave it with one value holds that value, if it is written or held it before. -/
theorem applyWrites_settles (h : applyWrites ws xs = .ok ys) {a v : Nat} (hall : ∀ p ∈ ws, p.1 = a → p.2 = v)
    (hold : xs[a]? = some v ∨ ∃ p ∈ ws, p.1 = a) : ys[a]? = some v := by
  by_cases hw : ∃ p ∈ ws, p.1 = a
  · obtain ⟨p, hp, rfl⟩ := hw
    rw [applyWrites_of_mem h hp fun q hq hqp => by rw [hall q hq hqp, hall p hp rfl], hall p hp rfl]
  · rw [applyWrites_of_ne h fun p hp hpa => hw ⟨p, hp, hpa⟩]
    exact hold.resolve_right hw

end writes

section bundle

variable {m : Machine} {E : Engine → Slot → Writes}

/-- On engine `e` the slots have the writes `E`, at most take the core from one state that `R` allows to another, and pass
if they are checks. -/
structure Lands (m : Machine) (R : CoreState → Prop) (E : Engine → Slot → Writes) (e : Engine) (ss : List Slot) : Prop where
  debug : e = .debug → m.enableDebug = true → ∀ s ∈ ss, debugCheck m.core m.valueTrace s = .ok ()
  limit : e ≠ .debug → ss.length ≤ SLOT_LIMITS e
  exec : ∀ s ∈ ss, ∀ st, R st → ∃ st', R st' ∧
    execSlot m e { m.core with state := st } s = .ok ({ m.core with state := st' }, E e s)

variable {R : CoreState → Prop} {st : CoreState}

theorem execSlots_ok {e : Engine} {ss : List Slot} (h : ∀ s ∈ ss, ∀ st, R st → ∃ st', R st' ∧
      execSlot m e { m.core with state := st } s = .ok ({ m.core with state := st' }, E e s)) (hst : R st) (w : Writes) :
    ∃ st', R st' ∧ execSlots m e ss ({ m.core with state := st }, w) =
      .ok ({ m.core with state := st' }, ss.foldl (fun w s => w.append (E e s)) w) := by
  induction ss generalizing w st with
  | nil => exact ⟨st, hst, rfl⟩
  | cons s ss ih =>
      obtain ⟨st₁, hst₁, hexec⟩ := h s (by simp) st hst
      obtain ⟨st₂, hst₂, hrest⟩ := ih (fun s hs => h s (by simp [hs])) hst₁ (w.append (E e s))
      refine ⟨st₂, hst₂, ?_⟩
      rw [execSlots, hexec, bind_ok]
      exact hrest

theorem debugCheck_congr {c c' : Core} (h : c.scratch = c'.scratch) (trace : TraceKey → Option Nat) (s : Slot) :
    debugCheck c trace s = debugCheck c' trace s := by
  cases s <;> simp only [debugCheck, h]

theorem execEngine_ok {e : Engine} {ss : List Slot} (h : Lands m R E e ss) (hst : R st) (w : Writes) :
    ∃ st', R st' ∧ execEngine m ({ m.core with state := st }, w) (e, ss) =
      .ok ({ m.core with state := st' }, ss.foldl (fun w s => w.append (E e s)) w) := by
  by_cases he : e = .debug
  · -- checks write nothing
    have hsilent : ss.foldl (fun w s => w.append (E e s)) w = w := by
      refine (List.foldl_ext _ (fun w _ => w) w fun w s hs => ?_).trans (List.foldl_fixed _)
      obtain ⟨_, -, hexec⟩ := h.exec s hs st hst
      rw [he] at hexec ⊢
      rw [← (Prod.mk.inj (Except.ok.inj hexec)).2]
      simp [Writes.append]
    refine ⟨st, hst, ?_⟩
    rw [execEngine, if_pos he, hsilent]
    cases hd : m.enableDebug with
    | false => rfl
    | true =>
        have hchecks : ss.mapM (debugCheck { m.core with state := st } m.valueTrace) = .ok (ss.map fun _ => ()) :=
          mapM_ok fun s hs => (debugCheck_congr rfl _ _).trans (h.debug he hd s hs)
        rw [if_pos rfl, hchecks]
        rfl
  · rw [execEngine, if_neg he, if_pos (h.limit he)]
    exact execSlots_ok h.exec hst w

theorem mem_foldl_append {α : Type} {f : α → Writes} {l : List α} {w : Writes} {p : Nat × Nat} :
    (p ∈ (l.foldl (fun w x => w.append (f x)) w).scratch ↔ p ∈ w.scratch ∨ ∃ x ∈ l, p ∈ (f x).scratch) ∧
      (p ∈ (l.foldl (fun w x => w.append (f x)) w).mem ↔ p ∈ w.mem ∨ ∃ x ∈ l, p ∈ (f x).mem) := by
  induction l generalizing w with
  | nil => simp
  | cons x l ih =>
      rw [List.foldl_cons, ih.1, ih.2]
      simp only [List.exists_mem_cons_iff, Writes.append, List.mem_append, or_assoc, and_self]

theorem execEngines_ok {items : List (Engine × List Slot)} (h : ∀ q ∈ items, Lands m R E q.1 q.2) (hst : R st) (w : Writes) :
    ∃ st' w', R st' ∧ items.foldlM (execEngine m) ({ m.core with state := st }, w) = .ok ({ m.core with state := st' }, w') ∧
      (∀ p, p ∈ w'.scratch ↔ p ∈ w.scratch ∨ ∃ q ∈ items, ∃ s ∈ q.2, p ∈ (E q.1 s).scratch) ∧
      ∀ p, p ∈ w'.mem ↔ p ∈ w.mem ∨ ∃ q ∈ items, ∃ s ∈ q.2, p ∈ (E q.1 s).mem := by
  induction items generalizing w st with
  | nil => exact ⟨st, w, hst, rfl, by simp, by simp⟩
  | cons q items ih =>
      obtain ⟨st₁, hst₁, hq⟩ := execEngine_ok (h q (by simp)) hst w
      obtain ⟨st', w', hst', hw', hs, hm⟩ := ih (fun q hq => h q (by simp [hq])) hst₁ (q.2.foldl (fun w s => w.append (E q.1 s)) w)
      refine ⟨st', w', hst', ?_, fun p => ?_, fun p => ?_⟩
      · rw [List.foldlM_cons, hq, bind_ok]
        exact hw'
      · rw [hs, mem_foldl_append.1, List.exists_mem_cons_iff, or_assoc]
      · rw [hm, mem_foldl_append.2, List.exists_mem_cons_iff, or_assoc]

theorem step_lands {b : Bundle} (h : ∀ q ∈ b.items, Lands m R E q.1 q.2) (hst : R m.core.state)
    (hs : ∀ q ∈ b.items, ∀ s ∈ q.2, ∀ p ∈ (E q.1 s).scratch, p.1 < m.core.scratch.length)
    (hm : ∀ q ∈ b.items, ∀ s ∈ q.2, ∀ p ∈ (E q.1 s).mem, p.1 < m.mem.length) :
    ∃ w : Writes, ∃ st scratch mem, R st ∧
      m.step b = .ok { m with core := { m.core with scratch := scratch, state := st }, mem := mem } ∧
      applyWrites w.scratch m.core.scratch = .ok scratch ∧ applyWrites w.mem m.mem = .ok mem ∧
      (∀ p, p ∈ w.scratch ↔ ∃ q ∈ b.items, ∃ s ∈ q.2, p ∈ (E q.1 s).scratch) ∧
      ∀ p, p ∈ w.mem ↔ ∃ q ∈ b.items, ∃ s ∈ q.2, p ∈ (E q.1 s).mem := by
  obtain ⟨st, w, hst', hw, hws, hwm⟩ := execEngines_ok h hst {}
  have hws' : ∀ p, p ∈ w.scratch ↔ ∃ q ∈ b.items, ∃ s ∈ q.2, p ∈ (E q.1 s).scratch := by simpa using hws
  have hwm' : ∀ p, p ∈ w.mem ↔ ∃ q ∈ b.items, ∃ s ∈ q.2, p ∈ (E q.1 s).mem := by simpa using hwm
  obtain ⟨scratch, hscratch⟩ := @applyWrites_ok w.scratch m.core.scratch fun p hp => by
    obtain ⟨q, hq, s, hs', hp⟩ := (hws' p).mp hp
    exact hs q hq s hs' p hp
  obtain ⟨mem, hmem⟩ := @applyWrites_ok w.mem m.mem fun p hp => by
    obtain ⟨q, hq, s, hs', hp⟩ := (hwm' p).mp hp
    exact hm q hq s hs' p hp
  refine ⟨w, st, scratch, mem, hst', ?_, hscratch, hmem, hws', hwm'⟩
  have hcore : ({ m.core with state := m.core.state } : Core) = m.core := rfl
  rw [hcore] at hw
  simp only [step, hw, bind_ok, hscratch, hmem]

end bundle

section run

variable {prog : List Bundle} {I : Nat → List Nat → List Nat → Prop}

/-- Every bundle only computes, from `I` before it to `I` after it. -/
def Advances (prog : List Bundle) (I : Nat → List Nat → List Nat → Prop) : Prop :=
  ∀ {k : Nat} {b : Bundle} {m : Machine}, prog[k]? = some b → I k m.core.scratch m.mem → ∃ scratch mem,
    m.step b = .ok { m with core := { m.core with scratch := scratch }, mem := mem } ∧ I (k + 1) scratch mem

theorem fetch_nat (prog : List Bundle) (k : Nat) : fetch prog k = prog[k]? := by simp [fetch]

/-- A program that advances runs to its end. -/
theorem runLoop_advances (h : Advances prog I) {rem : Nat} {m : Machine} (hprog : m.program = prog)
    (hrun : m.core.state = .running) {k fuel : Nat} (hpc : m.core.pc = k) (hk : k + rem = prog.length)
    (hI : I k m.core.scratch m.mem) (hfuel : rem < fuel) :
    ∃ m', runLoop fuel m = .ok m' ∧ m'.core.state = .stopped ∧ I prog.length m'.core.scratch m'.mem := by
  induction rem generalizing m k fuel with
  | zero =>
      obtain ⟨fuel, rfl⟩ := Nat.exists_eq_succ_of_ne_zero (by omega : fuel ≠ 0)
      obtain rfl : k = prog.length := hk
      refine ⟨{ m with core := { m.core with state := .stopped } }, ?_, rfl, hI⟩
      rw [runLoop, if_pos hrun, tick, if_pos (Int.le_of_eq (by rw [hprog, hpc])), bind_ok]
      cases fuel <;> rfl
  | succ rem ih =>
      obtain ⟨fuel, rfl⟩ := Nat.exists_eq_succ_of_ne_zero (by omega : fuel ≠ 0)
      have hlt : k < prog.length := by omega
      obtain ⟨scratch, mem, hstep, hI'⟩ :=
        h (m := { m with core := { m.core with pc := m.core.pc + 1 } }) (List.getElem?_eq_getElem hlt) hI
      have hfetch : fetch m.program m.core.pc = some prog[k] := by
        rw [hprog, hpc, fetch_nat, List.getElem?_eq_getElem hlt]
      have hnot : ¬ (m.program.length : Int) ≤ m.core.pc := by
        rw [hprog, hpc]
        omega
      obtain ⟨m₁, htick, hprog₁, hrun₁, hpc₁, hscratch₁, hmem₁⟩ : ∃ m₁, m.tick = .ok m₁ ∧ m₁.program = prog ∧
          m₁.core.state = .running ∧ m₁.core.pc = ((k + 1 : Nat) : Int) ∧ m₁.core.scratch = scratch ∧ m₁.mem = mem := by
        rw [tick, if_neg hnot]
        simp only [hfetch, hstep, bind_ok]
        refine ⟨_, rfl, ?_⟩
        split <;> exact ⟨hprog, hrun, by simp [hpc], rfl, rfl⟩
      obtain ⟨m', hm', hstop, hend⟩ := ih hprog₁ hrun₁ hpc₁ (by omega) (by rw [hscratch₁, hmem₁]; exact hI')
        (by omega : rem < fuel)
      exact ⟨m', by rw [runLoop, if_pos hrun, htick, bind_ok, hm'], hstop, hend⟩

end run
end Vliw.Machine
