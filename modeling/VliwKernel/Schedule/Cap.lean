import VliwKernel.Schedule.Termination
import VliwKernel.Schedule.Waiting

/-!
# The default cap on the number of cycles

The default allows one cycle for each node and one more. A cycle that only waits for a gather is one too many, a cycle that
completes several nodes makes up for as many but one. So the cap suffices exactly for the runs in which the waiting is made up
for but once, wherever in the run either happens; a chain that waits for one gather breaks it.
-/

namespace Vliw
open RegisterAllocator

variable {pinned : List String} {is is' : List (Instr Operand)} {rc rc' : Sym → Option Int} {dag : Dag} {nodes : List DNode}
  {w w' w₀ : World} {k k' : Nat} {bs : List TaggedBundle} {b : TaggedBundle}

section loop

variable {cycle : Nat → World → Nat → Except PyErr (World × Nat × TaggedBundle)} {n : Nat}

theorem cycleLoop_length {cap rem : Nat} {bundles : List TaggedBundle} (h : cycleLoop cycle n cap rem w k bundles = .ok (bs, w')) :
    bundles.length ≤ bs.length := by
  induction rem generalizing w k bundles with
  | zero =>
      unfold cycleLoop at h
      split at h
      · obtain ⟨p, -, h⟩ := bind_eq_ok.mp h
        cases h
      · cases h
        exact Nat.le_refl _
  | succ rem ih =>
      unfold cycleLoop at h
      split at h
      · obtain ⟨⟨v, k', b⟩, -, h⟩ := bind_eq_ok.mp h
        exact (Nat.le_of_lt (by simp)).trans (ih h)
      · cases h
        exact Nat.le_refl _

/-- A run with what it waits and makes up for: how many of its cycles wait in the state they start from, and how many nodes the others
complete beyond one each. -/
inductive Tally (cycle : Nat → World → Nat → Except PyErr (World × Nat × TaggedBundle)) (n : Nat) (waiting : Nat → World → Nat → Bool)
    (w₀ : World) : List TaggedBundle → World → Nat → Nat → Nat → Prop
  | start : Tally cycle n waiting w₀ [] w₀ 0 0 0
  | wait {bs w k w' k' b idle extra} : Tally cycle n waiting w₀ bs w k idle extra → k < n → cycle bs.length w k = .ok (w', k', b) →
      waiting bs.length w k = true → Tally cycle n waiting w₀ (bs ++ [b]) w' k' (idle + 1) extra
  | land {bs w k w' k' b idle extra} : Tally cycle n waiting w₀ bs w k idle extra → k < n → cycle bs.length w k = .ok (w', k', b) →
      waiting bs.length w k = false → Tally cycle n waiting w₀ (bs ++ [b]) w' k' idle (extra + (k' - k - 1))

variable {waiting : Nat → World → Nat → Bool} {idle extra : Nat}

theorem Tally.reached (h : Tally cycle n waiting w₀ bs w k idle extra) : Reached cycle n w₀ bs w k := by
  induction h with
  | start => exact .start
  | wait _ hk hc _ ih => exact .cycle ih hk hc
  | land _ hk hc _ ih => exact .cycle ih hk hc

section waiting

variable {P : Prop} (hcycle : ∀ {bs w k w' k' b}, Reached cycle n w₀ bs w k → cycle bs.length w k = .ok (w', k', b) →
  k ≤ k' ∧ (k' = k ↔ waiting bs.length w k = true) ∧ (k < n → P → waiting bs.length w k = false))

include hcycle

/-- If the cycles that wait are those that complete nothing, the waiting is what the cycles are more than the nodes, and what they make
up for. -/
theorem Tally.balance (h : Tally cycle n waiting w₀ bs w k idle extra) : bs.length + extra = k + idle := by
  induction h with
  | start => rfl
  | @wait bs w k w' k' b idle extra ht _ hc hwait ih =>
      obtain ⟨-, heq, -⟩ := hcycle ht.reached hc
      have := heq.mpr hwait
      rw [List.length_append, List.length_singleton]
      omega
  | @land bs w k w' k' b idle extra ht _ hc hwait ih =>
      obtain ⟨hle, heq, -⟩ := hcycle ht.reached hc
      have : k' ≠ k := fun he => by simp [heq.mp he] at hwait
      rw [List.length_append, List.length_singleton]
      omega

end waiting
end loop
section runs

def gaveUp {α : Type} : Except PyErr α → Option PyErr
  | .ok _ => none
  | .error e => some e

theorem gaveUp_iff {α : Type} {x : Except PyErr α} {e : PyErr} : gaveUp x = some e ↔ x = .error e := by
  cases x <;> simp [gaveUp]

theorem SchedulerRun.underway (hb : Built pinned is rc dag) (h : SchedulerRun rc dag bs w k) : Underway dag.nodes w k := by
  obtain ⟨cs, -, hcs, hk⟩ := h.cycles hb
  exact ⟨(hcs.live hb hb.start_live.1).1.toOk, hk⟩

end runs
end Vliw
