import VliwKernel.Regalloc.Operations

/-!
# Runs of allocator operations

Any sequence of `write`, `read`, `unwrite` and garbage collection keeps the representation
invariant, so live registers never overlap.
-/

namespace Vliw

inductive AllocOp | write (tag : Sym) | read (tag : Sym) | unwrite (tag : Sym) | collect

/-- What the schedulers establish before they call an operation. -/
def AllocOp.Enabled (a : RegisterAllocator) : AllocOp → Prop
  | .write s => a.canWrite s = true
  | .read s => (a.tab.val.assigned s).isSome ∧ ∃ n, a.tab.val.remaining s = some n ∧ 0 < n
  | .unwrite _ | .collect => True

def AllocOp.run (rc : Sym → Option Int) (a : RegisterAllocator) : AllocOp → Except PyErr RegisterAllocator
  | .write s => do .ok (← a.write rc s).2
  | .read s => a.read s
  | .unwrite s => a.unwrite rc s
  | .collect => a.collectScalarGarbage

/-- A sequence of operations that return, each meeting `P` in the state it starts from. -/
inductive AllocRun (rc : Sym → Option Int) (P : RegisterAllocator → AllocOp → Prop) :
    RegisterAllocator → List AllocOp → RegisterAllocator → Prop
  | nil (a) : AllocRun rc P a [] a
  | cons {a b c op ops} : P a op → op.run rc a = .ok b → AllocRun rc P b ops c → AllocRun rc P a (op :: ops) c

instance (a : RegisterAllocator) : (op : AllocOp) → Decidable (op.Enabled a)
  | .write s => inferInstanceAs (Decidable (a.canWrite s = true))
  | .read s =>
      decidable_of_iff ((a.tab.val.assigned s).isSome ∧ 0 < (a.tab.val.remaining s).getD 0) (by
        simp only [AllocOp.Enabled]
        cases a.tab.val.remaining s <;> simp)
  | .unwrite _ | .collect => .isTrue trivial

/-- The state after a sequence of operations, when every one is enabled and returns. -/
def AllocOp.runAll? (rc : Sym → Option Int) : List AllocOp → RegisterAllocator → Option RegisterAllocator
  | [], a => some a
  | op :: ops, a => if op.Enabled a then (op.run rc a).toOption.bind (runAll? rc ops) else none

theorem AllocRun.of_runAll? {rc : Sym → Option Int} {ops : List AllocOp} {a b : RegisterAllocator}
    (h : AllocOp.runAll? rc ops a = some b) : AllocRun rc (fun a op => op.Enabled a) a ops b := by
  induction ops generalizing a with
  | nil =>
      cases h
      exact .nil _
  | cons op ops ih =>
      simp only [AllocOp.runAll?] at h
      split at h
      · next he =>
          cases hr : op.run rc a with
          | error e => simp [hr, Except.toOption] at h
          | ok c => exact .cons he hr (ih (by simpa [hr, Except.toOption] using h))
      · cases h

/-- `n` vectors, all kept. -/
def vectors (n : Nat) : List AllocOp := (List.range n).map fun i => .write ⟨toString i, true⟩

theorem AllocRun.mono {rc : Sym → Option Int} {P Q : RegisterAllocator → AllocOp → Prop} {ops : List AllocOp}
    {a b : RegisterAllocator} (h : AllocRun rc P a ops b) (hPQ : ∀ a, ∀ op ∈ ops, P a op → Q a op) :
    AllocRun rc Q a ops b := by
  induction h with
  | nil a => exact .nil a
  | cons hp hstep _ ih =>
      exact .cons (hPQ _ _ (by simp) hp) hstep (ih fun a op hop => hPQ a op (by simp [hop]))

def Sym.extent (s : Sym) : Nat := if s.isVec then VLEN else 1

namespace Tables

variable {t : Tables}

/-- A register lies inside scratch, above the pinned words. -/
theorem Inv.bounds (h : t.Inv) {s : Sym} {a : Nat} (hs : t.assigned s = some a) :
    VLEN ≤ a ∧ a + s.extent ≤ SCRATCH_SIZE := by
  cases hv : s.isVec with
  | true =>
      obtain ⟨⟨k, rfl⟩, hlo, hhi⟩ := h.vec_granule ⟨s, hv, hs⟩
      simp only [Sym.extent, hv, if_true, VLEN, SCRATCH_SIZE] at *
      omega
  | false =>
      obtain ⟨g, hg, hlo, hhi⟩ := h.word_claimed ⟨s, hv, hs⟩
      obtain ⟨⟨k, rfl⟩, hlo', hhi'⟩ := h.claimed_granule hg
      simp only [Sym.extent, hv, Bool.false_eq_true, if_false, VLEN, SCRATCH_SIZE] at *
      omega

/-- Two live registers share no word. -/
theorem Inv.disjoint (h : t.Inv) {s s' : Sym} {a a' w : Nat} (hs : t.assigned s = some a)
    (hs' : t.assigned s' = some a') (hw : a ≤ w ∧ w < a + s.extent) (hw' : a' ≤ w ∧ w < a' + s'.extent) :
    s = s' := by
  have hcross : ∀ {u v : Sym} {b c : Nat}, u.isVec = true → v.isVec = false → t.assigned u = some b →
      t.assigned v = some c → b ≤ c ∧ c < b + VLEN → False := by
    intro u v b c hu hv hb hc hr
    obtain ⟨g, hg, hr'⟩ := h.word_claimed ⟨v, hv, hc⟩
    have hbg := granule_of_word (h.vec_granule ⟨u, hu, hb⟩) (h.claimed_granule hg) hr hr'
    exact h.vec_claimed ⟨u, hu, hb⟩ (hbg ▸ hg)
  cases hv : s.isVec with
  | true =>
      simp only [Sym.extent, hv, if_true] at hw
      cases hv' : s'.isVec with
      | true =>
          simp only [Sym.extent, hv', if_true] at hw'
          obtain rfl := granule_of_word (h.vec_granule ⟨s, hv, hs⟩) (h.vec_granule ⟨s', hv', hs'⟩) hw hw'
          exact h.assigned_inj (hv.trans hv'.symm) hs hs'
      | false =>
          simp only [Sym.extent, hv', Bool.false_eq_true, if_false] at hw'
          exact (hcross hv hv' hs hs' (by omega)).elim
  | false =>
      simp only [Sym.extent, hv, Bool.false_eq_true, if_false] at hw
      cases hv' : s'.isVec with
      | true =>
          simp only [Sym.extent, hv', if_true] at hw'
          exact (hcross hv' hv hs' hs (by omega)).elim
      | false =>
          simp only [Sym.extent, hv', Bool.false_eq_true, if_false] at hw'
          obtain rfl : a = a' := by omega
          exact h.assigned_inj (hv.trans hv'.symm) hs hs'

end Tables

namespace RegisterAllocator
open Tables

variable {rc : Sym → Option Int} {a b : RegisterAllocator} {s : Sym}

theorem unwrite_cases (h : a.tab.val.Inv) (hb : a.unwrite rc s = .ok b) :
    b = a ∨ ∃ addr n p u, a.tab.val.assigned s = some addr ∧ a.tab.val.remaining s = some n ∧ rc s = some n ∧
      GiveBack a.tab.val s addr p u ∧
      b = { a with tab := a.tab.record u (.U s addr (a.tab.val.claimOf addr).isSome p) } := by
  cases hn : rc s with
  | none => simp [unwrite, getKey, hn] at hb
  | some n =>
      by_cases hc : a.tab.val.remaining s = some n ∧ (a.tab.val.assigned s).isSome
      · obtain ⟨addr, hs⟩ := Option.isSome_iff_exists.mp hc.2
        obtain ⟨p, u, hu, hok⟩ := unwrite_ok h hs hc.1 hn
        exact .inr ⟨addr, n, p, u, hs, hc.1, rfl, hu, (Except.ok.inj (hok.symm.trans hb)).symm⟩
      · simp only [unwrite, getKey, hn, bind_ok, if_neg hc, Except.ok.injEq] at hb
        exact .inl hb.symm

theorem write_cases (h : a.tab.val.Inv) (hcan : a.canWrite s = true) {addr : Nat}
    (hb : a.write rc s = .ok (addr, b)) :
    (a.tab.val.assigned s = some addr ∧ b = a) ∨
      ∃ n, a.tab.val.assigned s = none ∧ rc s = some n ∧ Wrote rc a s n addr b := by
  cases hs : a.tab.val.assigned s with
  | some addr' =>
      rw [write_sticky hs] at hb
      cases hb
      exact .inl ⟨rfl, rfl⟩
  | none =>
      cases hn : rc s with
      | some n =>
          obtain ⟨addr', b', hok, hw⟩ := write_ok h hs hcan hn
          cases hok.symm.trans hb
          exact .inr ⟨n, rfl, rfl, hw⟩
      | none =>
          obtain ⟨addr', claimed, u, htake, -⟩ := h.take hs hcan
          simp [write, hs, htake, getKey, hn] at hb

theorem Inv.op (h : a.tab.val.Inv) {op : AllocOp} (he : op.Enabled a) (hb : op.run rc a = .ok b) :
    b.tab.val.Inv := by
  cases op with
  | write s =>
      obtain ⟨⟨addr, b'⟩, hw, hb⟩ := bind_eq_ok.mp hb
      cases hb
      rcases write_cases h he hw with ⟨-, rfl⟩ | ⟨n, -, -, hw⟩
      · exact h
      · exact hw.inv
  | read s =>
      obtain ⟨hs, n, hn, -⟩ := he
      obtain ⟨addr, hs⟩ := Option.isSome_iff_exists.mp hs
      obtain ⟨b', hok, hr⟩ := read_ok rc h hs hn
      cases hok.symm.trans hb
      exact hr.inv
  | unwrite s =>
      rcases unwrite_cases h hb with rfl | ⟨addr, n, p, u, hs, -, -, hu, rfl⟩
      · exact h
      · exact h.giveBack hs hu
  | collect =>
      obtain ⟨u, hok, hu, -⟩ := collect_ok h
      cases hok.symm.trans hb
      exact hu

theorem Inv.run {P : RegisterAllocator → AllocOp → Prop} (hP : ∀ a op, P a op → op.Enabled a)
    {ops : List AllocOp} (h : a.tab.val.Inv) (hr : AllocRun rc P a ops b) : b.tab.val.Inv := by
  induction hr with
  | nil a => exact h
  | cons hp hstep _ ih => exact ih (Inv.op h (hP _ _ hp) hstep)

/-- In every reachable state the tables partition scratch, and live registers are disjoint and
stay clear of the pinned words. -/
theorem reachable_inv (rc : Sym → Option Int) (ops : List AllocOp) (a : RegisterAllocator)
    (hr : AllocRun rc (fun a op => op.Enabled a) .init ops a) :
    a.tab.val.Inv ∧
    (∀ s s' x x', s ≠ s' → a.tab.val.assigned s = some x → a.tab.val.assigned s' = some x' →
      ∀ w, ¬ ((x ≤ w ∧ w < x + s.extent) ∧ (x' ≤ w ∧ w < x' + s'.extent))) ∧
    (∀ s x, a.tab.val.assigned s = some x → VLEN ≤ x ∧ x + s.extent ≤ SCRATCH_SIZE) := by
  have h := Inv.run (fun _ _ hp => hp) Inv.init hr
  exact ⟨h, fun s s' x x' hne hs hs' w hw => hne (h.disjoint hs hs' hw.1 hw.2), fun s x hs => h.bounds hs⟩

/-- A vector write, two scalar writes from one claim, a read that frees, and a collection. -/
theorem reachable_inv_mixed : ∃ a, AllocRun (fun _ => some 1) (fun a op => op.Enabled a) .init
    [.write ⟨"v", true⟩, .write ⟨"x", false⟩, .write ⟨"y", false⟩, .read ⟨"x", false⟩, .collect] a ∧
    a.tab.val.Inv := by
  have hrun : (AllocOp.runAll? (fun _ => some 1) [.write ⟨"v", true⟩, .write ⟨"x", false⟩, .write ⟨"y", false⟩,
      .read ⟨"x", false⟩, .collect] .init).isSome = true := by decide +kernel
  obtain ⟨a, ha⟩ := Option.isSome_iff_exists.mp hrun
  exact ⟨a, .of_runAll? ha, (reachable_inv _ _ a (.of_runAll? ha)).1⟩

end RegisterAllocator
end Vliw
