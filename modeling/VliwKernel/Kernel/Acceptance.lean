import VliwKernel.Kernel.Accesses
import VliwKernel.Kernel.Failures
import VliwKernel.Kernel.ListReference
import VliwKernel.Kernel.Shapes

/-!
# The acceptance tests

`do_kernel_test`, as `perf_takehome.py` and as the submission tests have it, builds the kernel for a problem, runs it on the
simulator and compares the values with those of the reference kernel. Whatever the schedule, the tests pass if the last
round does not end a descent, and then return the cycles of the emitted bundles.
-/

namespace Vliw

open Name (val outAddr)

/-- The instructions that a `KernelBuilder` holds after `build_kernel`. -/
def kernelInstrs (mode : SchedulerMode) (prune : Bool) (tg : Toggles) (forestHeight nNodes batchSize rounds : Nat) : Except PyErr (List Bundle) := do
  let (prologue, body) ← buildKernel tg forestHeight nNodes batchSize rounds
  emitRegalloc mode prune (number 0 (prologue ++ body))

/-- The assertion of the tests on the `n` values at `ref_mem[6]`. -/
def assertValues (n : Nat) (mem refMem : List Nat) : Except PyErr Unit := do
  let inpValuesP ← at? refMem 6
  if slice mem inpValuesP n = slice refMem inpValuesP n then .ok () else .error .assertion

section tests

variable (mode : SchedulerMode) (prune : Bool) (tg : Toggles) (t : Tree) (inp : Input)

/-- `do_kernel_test` of `perf_takehome.py`: the generator yields before and after its rounds, which fill the trace, and the
machine runs up to a pause each time. -/
def doKernelTest : Except PyErr Nat := do
  let mem := buildMemImage t inp
  let instrs ← kernelInstrs mode prune tg t.height t.values.length inp.indices.length inp.rounds
  let machine := Machine.start true true mem (fun _ => none) instrs
  let _header ← readHeader mem
  -- the program never jumps, so no run takes a bundle twice
  let machine ← machine.run (instrs.length + 1)
  assertValues inp.values.length machine.mem mem
  let (refMem, trace) ← referenceKernel2 mem .empty
  let machine ← { machine with valueTrace := trace.get? }.run (instrs.length + 1)
  assertValues inp.values.length machine.mem refMem
  -- the speedup that is printed divides by the cycles
  if machine.cycle = 0 then .error .zeroDivision else .ok machine.cycle

/-- `do_kernel_test` of `submission_tests.py`: one run without pauses and checks. -/
def submissionTest : Except PyErr Nat := do
  let mem := buildMemImage t inp
  let instrs ← kernelInstrs mode prune tg t.height t.values.length inp.indices.length inp.rounds
  let machine ← (Machine.start false false mem (fun _ => none) instrs).run (instrs.length + 1)
  let (refMem, _) ← referenceKernel2 mem .empty
  assertValues inp.values.length machine.mem refMem
  .ok machine.cycle

/-- What the tests come to on the bundles of a kernel: values that are still xored fail them. -/
def verdict (rounds : Nat) (js : List Bundle) : Except PyErr Nat :=
  if rounds % 11 = 0 then .error .assertion else .ok (js.countP Bundle.counts)

end tests
section values

variable {a n : Nat} {mem mem' : List Nat}

theorem slice_eq_iff : slice mem a n = slice mem' a n ↔ ∀ k < n, mem[a + k]? = mem'[a + k]? := by
  have hget : ∀ (mem : List Nat) k, (slice mem a n)[k]? = if k < n then mem[a + k]? else none := by
    intro mem k
    rw [slice, List.getElem?_take, List.getElem?_drop]
  constructor
  · intro h k hk
    have := congrArg (·[k]?) h
    simpa only [hget, if_pos hk] using this
  · intro h
    refine List.ext_getElem? fun k => ?_
    rw [hget, hget]
    split
    · next hk => exact h k hk
    · rfl

theorem assertValues_self (h : mem[6]? = some a) : assertValues n mem mem = .ok () := by
  rw [assertValues, at?_of_getElem? h, bind_ok, if_pos rfl]

end values
section kernel

variable {t : Tree} {inp : Input}

theorem Canonical.image_lt (hc : Canonical t inp) (hr : inp.rounds < WORD) : ∀ x ∈ buildMemImage t inp, x < WORD := by
  rw [buildMemImage_eq (by rw [hc.nodes]; omega) (by rw [hc.indices_length, hc.batch]), layout, hc.nodes, hc.batch, hc.height, hc.indices]
  intro x hx
  rcases List.mem_append.mp hx with hx | hx
  · simp only [List.mem_cons, List.not_mem_nil, or_false, List.length_replicate] at hx
    rcases hx with rfl | rfl | rfl | rfl | rfl | rfl | rfl
    · exact hr
    all_goals decide
  · rcases List.mem_append.mp hx with hx | hx
    · exact hc.node_lt x hx
    · rcases List.mem_append.mp hx with hx | hx
      · rw [List.eq_of_mem_replicate hx]
        decide
      · exact hc.value_lt x hx

theorem Canonical.image_valuesP (hc : Canonical t inp) : (buildMemImage t inp)[6]? = some INP_VALUES_P := by
  rw [buildMemImage_eq (by rw [hc.nodes]; omega) (by rw [hc.indices_length, hc.batch]), layout, hc.nodes, hc.batch]
  rfl

/-- What the reference kernel records passes the checks of the stream. -/
theorem stream_passing (hc : Canonical t inp) {ops : List (Op Operand)} {trace : Trace} {Q : SymState → Prop} {c : Nat}
    (hwp : Wp SymState.exec (Observed t inp inp.rounds) ops Q ⟨.zero, buildMemImage t inp⟩) (hcov : trace.Covers t inp inp.rounds 0) :
    Passing trace.get? (number c ops) ⟨.zero, buildMemImage t inp⟩ := by
  intro i ins u hu
  have hobs := hwp.runsIn hu
  cases hop : ins.op with
  | debugVCompare loc keys =>
      rw [hop] at hobs
      obtain ⟨h, hh, g, hg, field, rfl, hlane⟩ := hobs
      rw [Op.Passes, laneKeys, List.mapM_map]
      refine mapM_some fun j hj => ?_
      have hj := List.mem_range.mp hj
      have hitem : g * VLEN + j < inp.values.length := by
        rw [hc.batch]
        rw [VLEN] at hj ⊢
        omega
      exact hcov h _ (.inl ⟨hh, hitem⟩) field _ (hlane j hj)
  | _ => trivial

theorem numbered_flow {rounds : Nat} {body : List (Op Operand)} (hbody : bodySlots .shipped 10 32 rounds rounds = .ok body) :
    FlowWp ((number 0 (prologue .shipped 32 ++ body)).map Instr.op) (fun _ => True) (.init PINNED) := by
  rw [number_map_op]
  exact Flow.stream_flow hbody

theorem stream_independent (hc : Canonical t inp) {body : List (Op Operand)} (hbody : bodySlots .shipped 10 32 inp.rounds inp.rounds = .ok body) :
    IndependentAccesses (number 0 (prologue .shipped 32 ++ body)) ⟨.zero, buildMemImage t inp⟩ := by
  intro tagged rc dag htag hdag
  have hflow := numbered_flow hbody
  obtain ⟨tagged', rc', htag', hf⟩ := tagRawChains_dataFlow pinned_noHash (Flow.defined_stream hflow)
  cases htag.symm.trans htag'
  exact independent_of_flow (fun hu => (stream_wp hc (Nat.le_refl _) hbody).runsIn hu) hflow hf
    (.of_ok (tagRawChains_tagged pinned_noHash htag).toSingleWriter hdag)

/-- The values of the reference kernel, against a memory that has what the kernel stores. -/
theorem assertValues_stored {mem refMem : List Nat} (hr : 1 ≤ inp.rounds) (hp : refMem[6]? = some INP_VALUES_P)
    (hwords : ∀ k < 256, mem[INP_VALUES_P + k]? = some (carried .shipped inp.rounds (item t inp inp.rounds k)) ∧
      refMem[INP_VALUES_P + k]? = some (item t inp inp.rounds k).2) :
    assertValues 256 mem refMem = if inp.rounds % 11 = 0 then .error .assertion else .ok () := by
  rw [assertValues, at?_of_getElem? hp, bind_ok]
  by_cases h : inp.rounds % 11 = 0
  · rw [if_neg, if_pos h]
    intro heq
    have hword := slice_eq_iff.mp heq 0 (by decide)
    rw [(hwords 0 (by decide)).1, (hwords 0 (by decide)).2] at hword
    exact (carried_shipped hr _).mp (Option.some.inj hword) h
  · rw [if_pos, if_neg h]
    refine slice_eq_iff.mpr fun k hk => ?_
    rw [(hwords k hk).1, (hwords k hk).2, (carried_shipped hr _).mpr h]

/-- The first bundle is no mere check. -/
theorem emitRegalloc_counts {instrs : List (Instr Operand)} (hwaits : Waits PINNED instrs) {mode : SchedulerMode} (hmode : mode.Permuting)
    {prune : Bool} {js : List Bundle} (h : emitRegalloc mode prune instrs = .ok js) : 0 < js.countP Bundle.counts := by
  obtain ⟨tagged, rc₀, is, rc, dag, -, -, c, cs, v, w, bs', hE⟩ := emitRegalloc_emits hwaits hmode h
  rw [hE.program, List.countP_pos_iff]
  refine ⟨_, List.mem_cons_self, ?_⟩
  rw [Bundle.counts, List.any_eq_true]
  exact ⟨.flow, Dict.mem_keys_of_get? (Dict.get?_set_self ..), rfl⟩

/-- The kernel is built for any number of rounds, unless the scheduler gives up. -/
theorem kernelInstrs_fails {rounds : Nat} (hr : 1 ≤ rounds) {mode : SchedulerMode} (hmode : mode.Permuting) (prune : Bool) :
    (∃ js, kernelInstrs mode prune .shipped 10 2047 256 rounds = .ok js) ∨
      ∃ n e, kernelInstrs mode prune .shipped 10 2047 256 rounds = .error e ∧ mode.GivesUp n e := by
  obtain ⟨body, hbody⟩ := bodySlots_ok .shipped rounds rounds
  have hformed : ∀ o ∈ prologue .shipped 32 ++ body, o.Formed := List.forall_mem_append.mpr ⟨prologue_formed, bodySlots_formed hbody⟩
  obtain ⟨hchecked, hwaits⟩ := number_formed (c := 0) hformed
  have hmem : (.vStore (outAddr 0) (val 0) : Op Operand) ∈ (number 0 (prologue .shipped 32 ++ body)).map Instr.op := by
    rw [number_map_op]
    exact List.mem_append_right _ (vStore_mem hr (by decide) hbody)
  obtain ⟨ins, hins, hop⟩ := List.mem_map.mp hmem
  have hkernel : kernelInstrs mode prune .shipped 10 2047 256 rounds = emitRegalloc mode prune (number 0 (prologue .shipped 32 ++ body)) := by
    simp only [kernelInstrs, buildKernel_eq hbody, bind_ok]
  rw [hkernel]
  refine (emitRegalloc_fails hchecked hwaits (Flow.defined_stream (numbered_flow hbody)) (List.ne_nil_of_mem hins) (fun _ => ⟨ins, hins, ?_⟩) hmode).imp_right ?_
  · rw [hop]
    rfl
  · rintro ⟨dag, rc, e, -, he, hgives⟩
    exact ⟨_, e, he, hgives⟩

/-- The bundles of a kernel run as the tests run them. -/
theorem kernelInstrs_runs (hc : Canonical t inp) (hr : 1 ≤ inp.rounds) (hlt : inp.rounds < WORD) {mode : SchedulerMode} (hmode : mode.Permuting)
    {prune : Bool} {js : List Bundle} (hjs : kernelInstrs mode prune .shipped 10 2047 256 inp.rounds = .ok js) :
    ∃ trace mem refMem, referenceKernel2 (buildMemImage t inp) .empty = .ok (refMem, trace) ∧ 0 < js.countP Bundle.counts ∧
    assertValues 256 mem refMem = (if inp.rounds % 11 = 0 then .error .assertion else .ok ()) ∧
    (∃ m₁ m₂, (Machine.start true true (buildMemImage t inp) (fun _ => none) js).run (js.length + 1) = .ok m₁ ∧ m₁.mem = buildMemImage t inp ∧
      ({ m₁ with valueTrace := trace.get? } : Machine).run (js.length + 1) = .ok m₂ ∧ m₂.mem = mem ∧ m₂.cycle = js.countP Bundle.counts) ∧
    ∃ m, (Machine.start false false (buildMemImage t inp) (fun _ => none) js).run (js.length + 1) = .ok m ∧ m.mem = mem ∧
      m.cycle = js.countP Bundle.counts := by
  obtain ⟨⟨pro, body⟩, hbuild, hemit⟩ := bind_eq_ok.mp hjs
  obtain ⟨body', hbody⟩ := bodySlots_ok .shipped inp.rounds inp.rounds
  cases (buildKernel_eq hbody).symm.trans hbuild
  obtain ⟨trace, href, hcov⟩ := hc.referenceKernel2
  obtain ⟨pro', body', s, refMem, trace', hbuild', hrun, href', hwords⟩ := kernel_stores hc .shipped
  cases hbuild.symm.trans hbuild'
  cases href.symm.trans href'
  have hformed : ∀ o ∈ prologue .shipped 32 ++ body, o.Formed := List.forall_mem_append.mpr ⟨prologue_formed, bodySlots_formed hbody⟩
  obtain ⟨hchecked, hwaits⟩ := number_formed (c := 0) hformed
  have hpass : Passing trace.get? (number 0 (prologue .shipped 32 ++ body)) ⟨.zero, buildMemImage t inp⟩ :=
    stream_passing hc (stream_wp hc (Nat.le_refl _) hbody) hcov
  have hruns := emitRegalloc_runs hchecked hwaits (hc.image_lt hlt) hrun hpass (stream_independent hc hbody) hmode hemit
  obtain ⟨m₁, m₂, h₁, hmem₁, h₂, hmem₂, hcycle₂⟩ := (hruns true (Nat.lt_succ_self js.length)).1 fun _ => none
  obtain ⟨m, hm, -, hmem, hcycle⟩ := (hruns false (Nat.lt_succ_self js.length)).2 (fun _ => none) nofun
  have hp : (walked t inp inp.rounds 0)[6]? = some INP_VALUES_P := by
    simp [walked, layout, hc.nodes, hc.batch, INP_VALUES_P]
  exact ⟨trace, s.mem, _, href, emitRegalloc_counts hwaits hmode hemit, assertValues_stored hr hp hwords,
    ⟨m₁, m₂, h₁, hmem₁, h₂, hmem₂, hcycle₂⟩, m, hm, hmem, hcycle⟩

/-- Whatever the schedule, both tests build the kernel and then pass, with the cycles of its bundles, unless the last round
ends a descent. -/
theorem kernel_tests (hc : Canonical t inp) (hr : 1 ≤ inp.rounds) (hlt : inp.rounds < WORD) {mode : SchedulerMode} (hmode : mode.Permuting)
    (prune : Bool) :
    doKernelTest mode prune .shipped t inp = (do verdict inp.rounds (← kernelInstrs mode prune .shipped 10 2047 256 inp.rounds)) ∧
    submissionTest mode prune .shipped t inp = (do verdict inp.rounds (← kernelInstrs mode prune .shipped 10 2047 256 inp.rounds)) := by
  have hlen : inp.indices.length = 256 := hc.indices_length
  rw [doKernelTest, submissionTest, hc.height, hc.nodes, hc.batch, hlen]
  cases hjs : kernelInstrs mode prune .shipped 10 2047 256 inp.rounds with
  | error e => exact ⟨rfl, rfl⟩
  | ok js =>
      obtain ⟨trace, mem, refMem, href, hpos, hassert, ⟨m₁, m₂, h₁, hmem₁, h₂, hmem₂, hcycle₂⟩, m, hm, hmem, hcycle⟩ :=
        kernelInstrs_runs hc hr hlt hmode hjs
      have hfirst : assertValues 256 m₁.mem (buildMemImage t inp) = .ok () := by
        rw [hmem₁]
        exact assertValues_self hc.image_valuesP
      simp only [bind_ok, hc.readHeader, h₁, hfirst, href, h₂, hm, hmem₂, hmem, hassert, verdict, hcycle₂, hcycle]
      split
      · exact ⟨rfl, rfl⟩
      · rw [bind_ok, if_neg hpos.ne']
        exact ⟨rfl, rfl⟩

/-- On zeros, over the sixteen rounds of the tests, by the shipped scheduler. -/
theorem kernel_tests_zero :
    doKernelTest SCHEDULER_MODE true .shipped zeroTree (zeroInput 16) =
      (do verdict 16 (← kernelInstrs SCHEDULER_MODE true .shipped 10 2047 256 16)) ∧
    submissionTest SCHEDULER_MODE true .shipped zeroTree (zeroInput 16) =
      (do verdict 16 (← kernelInstrs SCHEDULER_MODE true .shipped 10 2047 256 16)) :=
  kernel_tests (zero_canonical 16) (by decide) (by decide) SCHEDULER_MODE_permuting true

end kernel
end Vliw
