import VliwKernel.Regalloc.Runs
import VliwKernel.Regalloc.Tagged
import VliwKernel.Schedule.Cycle

/-!
# What a node does to the allocator

Acquiring the register of a node's destination, giving it back, and consuming the node's reads:
the effect of each on the tag tables, and that the log undoes it exactly.
-/

namespace Vliw
open RegisterAllocator

variable {rc : Sym → Option Int} {a : RegisterAllocator} {i : Instr Operand}

def RegisterAllocator.warn (a : RegisterAllocator) : RegisterAllocator :=
  { a with exhaustionWarnings := a.exhaustionWarnings + 1 }

/-- How `_alloc_writes` ends: no register, no destination, a register held already, a fresh one. -/
inductive Acquire (rc : Sym → Option Int) (i : Instr Operand) (a : RegisterAllocator) :
    Option (List Sym) → RegisterAllocator → Prop
  | full {d} : i.op.dest? = some d → a.canWrite d.base = false → Acquire rc i a none a.warn
  | noDest : i.op.dest? = none → Acquire rc i a (some []) a
  | sticky {d addr} : i.op.dest? = some d → a.tab.val.assigned d.base = some addr → Acquire rc i a (some []) a
  | fresh {d n addr b} : i.op.dest? = some d → a.tab.val.assigned d.base = none → rc d.base = some n →
      Wrote rc a d.base n addr b → Acquire rc i a (some [d.base]) b

theorem wrTags_eq (i : Instr Operand) : wrTags i = (i.op.dest?.map Operand.base).toList := by
  cases h : i.op.dest? <;> simp [wrTags, Instr.writeOperands, Op.writeOperands, h]

/-- `_alloc_writes` fails only on a tag without a read count. -/
theorem allocWrites_cases (rc : Sym → Option Int) (i : Instr Operand) (h : a.tab.val.Inv) (obl : Int) :
    (∃ got b obl', allocWrites rc i a obl = .ok (got, b, obl') ∧ Acquire rc i a got b) ∨
      ∃ d, i.op.dest? = some d ∧ rc d.base = none ∧ a.tab.val.assigned d.base = none ∧
        a.canWrite d.base = true ∧ allocWrites rc i a obl = .error .keyError := by
  cases hd : i.op.dest? with
  | none => exact .inl ⟨some [], a, obl, by simp [allocWrites, wrTags_eq, hd], .noDest hd⟩
  | some d =>
      cases hcan : a.canWrite d.base with
      | false => exact .inl ⟨none, a.warn, obl, by simp [allocWrites, wrTags_eq, hd, hcan, warn], .full hd hcan⟩
      | true =>
          cases hs : a.tab.val.assigned d.base with
          | some addr =>
              refine .inl ⟨some [], a, obl, ?_, .sticky hd hs⟩
              simp [allocWrites, wrTags_eq, hd, hcan, allocWrite, hs, write_sticky hs]
          | none =>
              cases hn : rc d.base with
              | none =>
                  refine .inr ⟨d, rfl, hn, hs, hcan, ?_⟩
                  simp [allocWrites, wrTags_eq, hd, hcan, allocWrite, hs, getKey, hn]
              | some n =>
                  obtain ⟨addr, b, hw, hwrote⟩ := write_ok h hs hcan hn
                  refine .inl ⟨some [d.base], b, obl + n, ?_, .fresh hd hs hn hwrote⟩
                  simp [allocWrites, wrTags_eq, hd, hcan, allocWrite, hs, getKey, hn, hw]

def baseCount (os : List Operand) (t : Sym) : Nat := (os.map Operand.base).count t

/-- The allocator after the reads `os`, of which each assigned tag still expects as many. -/
structure Consumed (rc : Sym → Option Int) (os : List Operand) (a b : RegisterAllocator) : Prop where
  inv : b.tab.val.Inv
  undoes : Undoes rc a b
  assigned : ∀ t, b.tab.val.assigned t =
    if 0 < baseCount os t ∧ a.tab.val.remaining t = some (baseCount os t : Int) then none else a.tab.val.assigned t
  remaining : ∀ t, b.tab.val.remaining t =
    if 0 < baseCount os t ∧ a.tab.val.remaining t = some (baseCount os t : Int) then none
    else (a.tab.val.remaining t).map (· - (baseCount os t : Int))
  nAlloc : b.nAlloc = a.nAlloc
  warnings : b.exhaustionWarnings = a.exhaustionWarnings

theorem baseCount_cons (o : Operand) (os : List Operand) (t : Sym) :
    baseCount (o :: os) t = baseCount os t + if o.base = t then 1 else 0 := by
  simp [baseCount, List.count_cons]

/-- One read of `_commit_reads`: nothing, or the read of a live tag. -/
theorem commitRead_cases (rc : Sym → Option Int) (h : a.tab.val.Inv) (o : Operand) (k : Nat) :
    (a.tab.val.assigned o.base = none ∧ a.tab.val.remaining o.base = none ∧ commitRead (a, k) o = .ok (a, k)) ∨
      ∃ addr n b, a.tab.val.assigned o.base = some addr ∧ a.tab.val.remaining o.base = some n ∧
        commitRead (a, k) o = .ok (b, k + 1) ∧ ReadStep rc a o.base n b := by
  have hra := h.remaining_assigned o.base
  cases hs : a.tab.val.assigned o.base with
  | none => exact .inl ⟨rfl, by simpa [hs] using hra, by simp [commitRead, hs]⟩
  | some addr =>
      obtain ⟨n, hn⟩ := Option.isSome_iff_exists.mp (hra.trans (by rw [hs]; rfl))
      obtain ⟨b, hb, hstep⟩ := read_ok rc h hs hn
      exact .inr ⟨addr, n, b, rfl, hn, by simp [commitRead, hs, hb], hstep⟩

section reads

variable {t u : Sym} {o : Operand} {os : List Operand} {addr r : Nat} {b c : RegisterAllocator}

theorem RegisterAllocator.ReadStep.of_ne (h : ReadStep rc a t r b) (hu : u ≠ t) :
    b.tab.val.assigned u = a.tab.val.assigned u ∧ b.tab.val.remaining u = a.tab.val.remaining u := by
  rw [h.assigned, h.remaining]
  split <;> simp [hu]

theorem RegisterAllocator.ReadStep.self (h : ReadStep rc a t r b) (hs : a.tab.val.assigned t = some addr) (hr : 0 < r) :
    (r = 1 ∧ b.tab.val.assigned t = none ∧ b.tab.val.remaining t = none) ∨
      (r ≠ 1 ∧ b.tab.val.assigned t = some addr ∧ b.tab.val.remaining t = some ((r - 1 : Nat) : Int)) := by
  rw [h.assigned, h.remaining]
  by_cases h1 : r = 1
  · refine .inl ⟨h1, ?_, ?_⟩ <;> simp [h1]
  · have h1' : (r : Int) ≠ 1 := by omega
    refine .inr ⟨h1, ?_, ?_⟩
    · simp [h1', hs]
    · simp only [h1', if_false, Function.update_self, Option.some.injEq]
      omega

theorem Consumed.skip (h : Consumed rc os a b) (hs : a.tab.val.assigned o.base = none) (hr : a.tab.val.remaining o.base = none) :
    Consumed rc (o :: os) a b where
  inv := h.inv
  undoes := h.undoes
  assigned t := by
    rw [h.assigned, baseCount_cons]
    by_cases hot : o.base = t
    · subst hot
      simp [hr, hs]
    · simp [hot]
  remaining t := by
    rw [h.remaining, baseCount_cons]
    by_cases hot : o.base = t
    · subst hot
      simp [hr]
    · simp [hot]
  nAlloc := h.nAlloc
  warnings := h.warnings

theorem Consumed.read (h : Consumed rc os b c) (hstep : ReadStep rc a o.base r b) (hs : a.tab.val.assigned o.base = some addr)
    (hr : a.tab.val.remaining o.base = some (r : Int)) (hle : baseCount os o.base + 1 ≤ r) : Consumed rc (o :: os) a c where
  inv := h.inv
  undoes := hstep.undoes.trans h.undoes
  assigned t := by
    rw [h.assigned, baseCount_cons]
    by_cases ht : t = o.base
    · subst ht
      rcases hstep.self hs (by omega) with ⟨h1, hnone, -⟩ | ⟨h1, hsome, hrem⟩
      · have hzero : baseCount os o.base = 0 := by omega
        simp [hzero, hnone, hr, h1]
      · rw [hsome, hrem, hr, hs]
        simp only [if_true, Option.some.injEq, Nat.cast_inj]
        by_cases hb0 : 0 < baseCount os o.base ∧ r - 1 = baseCount os o.base
        · rw [if_pos hb0, if_pos (by omega)]
        · rw [if_neg hb0, if_neg (by omega)]
    · obtain ⟨ha, hb⟩ := hstep.of_ne ht
      rw [ha, hb]
      simp [Ne.symm ht]
  remaining t := by
    rw [h.remaining, baseCount_cons]
    by_cases ht : t = o.base
    · subst ht
      rcases hstep.self hs (by omega) with ⟨h1, -, hnone⟩ | ⟨h1, -, hrem⟩
      · have hzero : baseCount os o.base = 0 := by omega
        simp [hzero, hnone, hr, h1]
      · rw [hrem, hr]
        simp only [if_true, Option.some.injEq, Nat.cast_inj, Option.map_some]
        by_cases hb0 : 0 < baseCount os o.base ∧ r - 1 = baseCount os o.base
        · rw [if_pos hb0, if_pos (by omega)]
        · rw [if_neg hb0, if_neg (by omega)]
          congr 1
          push_cast
          omega
    · rw [(hstep.of_ne ht).2]
      simp [Ne.symm ht]
  nAlloc := h.nAlloc.trans hstep.nAlloc
  warnings := h.warnings.trans hstep.warnings

theorem RegisterAllocator.ReadStep.isSome_eq (h : ReadStep rc a o.base r b) (hs : a.tab.val.assigned o.base = some addr)
    (hle : baseCount os o.base + 1 ≤ r) {p : Operand} (hp : p ∈ os) :
    (b.tab.val.assigned p.base).isSome = (a.tab.val.assigned p.base).isSome := by
  by_cases hpo : p.base = o.base
  · rcases h.self hs (by omega) with ⟨h1, -⟩ | ⟨-, hsome, -⟩
    · have hzero : baseCount os o.base = 0 := by omega
      exact absurd (hpo ▸ List.mem_map_of_mem hp) (List.count_eq_zero.mp hzero)
    · rw [hpo, hsome, hs]
  · rw [(h.of_ne hpo).1]

end reads

theorem commitReads_foldlM (rc : Sym → Option Int) (os : List Operand) (k : Nat) (h : a.tab.val.Inv)
    (hr : ∀ o ∈ os, (a.tab.val.assigned o.base).isSome →
      ∃ r : Nat, a.tab.val.remaining o.base = some (r : Int) ∧ baseCount os o.base ≤ r) :
    ∃ b, os.foldlM commitRead (a, k) = .ok (b, k + os.countP fun o => (a.tab.val.assigned o.base).isSome) ∧
      Consumed rc os a b := by
  induction os generalizing a k with
  | nil =>
      refine ⟨a, rfl, h, .refl a, fun t => by simp [baseCount], fun t => ?_, rfl, rfl⟩
      simp [baseCount]
  | cons o os ih =>
      rw [List.foldlM_cons]
      rcases commitRead_cases rc h o k with ⟨hs, hrem, hread⟩ | ⟨addr, n, b, hs, hn, hread, hstep⟩
      · obtain ⟨b, hb, hc⟩ := ih k h fun o' ho' hs' => by
          obtain ⟨r, hr', hle⟩ := hr o' (by simp [ho']) hs'
          exact ⟨r, hr', by rw [baseCount_cons] at hle; omega⟩
        refine ⟨b, ?_, hc.skip hs hrem⟩
        simp [hread, hs, hb]
      · obtain ⟨r, hrem, hle⟩ := hr o (by simp) (by simp [hs])
        cases hn.symm.trans hrem
        rw [baseCount_cons, if_pos rfl] at hle
        obtain ⟨c, hc, hcons⟩ := ih (k + 1) hstep.inv fun o' ho' hs' => by
          by_cases hoo : o'.base = o.base
          · rw [hoo] at hs' ⊢
            rcases hstep.self hs (by omega) with ⟨-, hnone, -⟩ | ⟨-, -, hrem'⟩
            · simp [hnone] at hs'
            · exact ⟨r - 1, hrem', by omega⟩
          · obtain ⟨ha, hb'⟩ := hstep.of_ne hoo
            rw [ha] at hs'
            obtain ⟨r', hr', hle'⟩ := hr o' (by simp [ho']) hs'
            refine ⟨r', hb' ▸ hr', ?_⟩
            rw [baseCount_cons] at hle'
            omega
        have hcount : os.countP (fun o => (b.tab.val.assigned o.base).isSome) =
            os.countP (fun o => (a.tab.val.assigned o.base).isSome) :=
          List.countP_congr fun p hp => by rw [hstep.isSome_eq hs hle hp]
        refine ⟨c, ?_, hcons.read hstep hs hrem hle⟩
        simp only [hread, bind_ok, hc, hcount, List.countP_cons, hs, Option.isSome_some, if_true]
        congr 2
        omega

theorem commitReads_ok (rc : Sym → Option Int) (h : a.tab.val.Inv)
    (hr : ∀ o ∈ i.readOperands, (a.tab.val.assigned o.base).isSome →
      ∃ r : Nat, a.tab.val.remaining o.base = some (r : Int) ∧ i.occ o.base ≤ r) :
    ∃ b, commitReads i a = .ok (b, i.readOperands.countP fun o => (a.tab.val.assigned o.base).isSome) ∧
      Consumed rc i.readOperands a b := by
  obtain ⟨b, hb, hc⟩ := commitReads_foldlM rc i.readOperands 0 h hr
  exact ⟨b, by simpa only [commitReads, Nat.zero_add] using hb, hc⟩

end Vliw
