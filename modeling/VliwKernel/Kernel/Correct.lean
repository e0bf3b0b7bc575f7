import VliwKernel.Kernel.Rounds

/-!
# The kernel against its reference

The stream runs to its end under every setting of the toggles. Its compares see what the reference kernel recorded, its
lanes follow the items of the reference kernel, and what it stores are their values, unless the last round is the last
of a descent and leaves them xored.
-/

namespace Vliw

open Name (val addr)
open SymState

variable {t : Tree} {inp : Input} {tg : Toggles} {n r g : Nat}

section total

theorem roundSlots_ok (tg : Toggles) (rounds r n : Nat) : ∃ ops, roundSlots tg 10 rounds r n = .ok ops := by
  have hgroup : ∀ g, ∃ ops, groupSlots tg 10 rounds r g = .ok ops := fun g =>
    let ⟨_, _, h⟩ := groupSlots_ok tg r g rounds
    ⟨_, h⟩
  choose ops hops using hgroup
  exact ⟨_, by rw [roundSlots, mapM_ok fun g _ => hops g, bind_ok]⟩

theorem bodySlots_ok (tg : Toggles) (rounds n : Nat) : ∃ ops, bodySlots tg 10 32 rounds n = .ok ops := by
  choose ops hops using fun r => roundSlots_ok tg rounds r 32
  exact ⟨_, by rw [bodySlots, mapM_ok fun r _ => hops r, bind_ok]⟩

theorem buildKernel_eq {rounds : Nat} {body : List (Op Operand)} (h : bodySlots tg 10 32 rounds rounds = .ok body) :
    buildKernel tg 10 2047 256 rounds = .ok (prologue tg 32, body) := by
  have hgroups : 256 / VLEN = 32 := rfl
  rw [buildKernel, if_neg (by decide), if_neg (by decide), if_neg (by decide), if_neg (by decide), hgroups]
  dsimp only
  rw [h, bind_ok]

end total
section cut

theorem mapM_range_prefix {α : Type} {f : Nat → Except PyErr α} {m : Nat} (hmn : m ≤ n) {xs ys : List α} (hn : (List.range n).mapM f = .ok xs)
    (hm : (List.range m).mapM f = .ok ys) : ys.length = m ∧ ∃ zs, xs = ys ++ zs := by
  obtain ⟨hxs, hgetx⟩ := mapM_eq_ok hn
  obtain ⟨hys, hgety⟩ := mapM_eq_ok hm
  rw [List.length_range] at hxs hys
  have htake : ys = xs.take m := by
    apply List.ext_getElem? fun i => ?_
    rw [List.getElem?_take]
    split
    · next hi =>
        obtain ⟨x, hx, hfx⟩ := hgetx (List.getElem?_range (show i < n by omega))
        obtain ⟨y, hy, hfy⟩ := hgety (List.getElem?_range hi)
        rw [hx, hy]
        exact congrArg some (Except.ok.inj (hfy.symm.trans hfx))
    · next hi => rw [List.getElem?_eq_none (by omega)]
  exact ⟨hys, xs.drop m, by rw [htake, List.take_append_drop]⟩

/-- A stream can be cut after any group of any round. -/
theorem bodySlots_cut {rounds : Nat} (hr : r < rounds) (hg : g < 32) {body before upto : List (Op Operand)}
    (hbody : bodySlots tg 10 32 rounds rounds = .ok body) (hbefore : bodySlots tg 10 32 rounds r = .ok before)
    (hupto : roundSlots tg 10 rounds r (g + 1) = .ok upto) : ∃ rest, body = before ++ (upto ++ rest) := by
  obtain ⟨xs, hxs, hbody⟩ := bind_eq_ok.mp hbody
  obtain ⟨ys, hys, hbefore⟩ := bind_eq_ok.mp hbefore
  obtain ⟨us, hus, hupto⟩ := bind_eq_ok.mp hupto
  cases hbody
  cases hbefore
  cases hupto
  obtain ⟨z, hz, hround⟩ := (mapM_eq_ok hxs).2 (List.getElem?_range hr)
  obtain ⟨gs, hgs, hround⟩ := bind_eq_ok.mp hround
  cases hround
  obtain ⟨hlen, zs, rfl⟩ := mapM_range_prefix (Nat.le_of_lt hr) hxs hys
  obtain ⟨-, vs, rfl⟩ := mapM_range_prefix (by omega) hgs hus
  rw [List.getElem?_append_right (by omega), hlen, Nat.sub_self] at hz
  cases zs with
  | nil => cases hz
  | cons z zs =>
      cases hz
      exact ⟨vs.flatten ++ zs.flatten, by simp only [List.flatten_append, List.flatten_cons, List.append_assoc]⟩

end cut

theorem stream_wp (hc : Canonical t inp) (hn : n ≤ inp.rounds) {ops : List (Op Operand)} (hok : bodySlots tg 10 32 inp.rounds n = .ok ops) :
    Wp exec (Observed t inp inp.rounds) (prologue tg 32 ++ ops) (fun s' => Walking tg t inp n 0 s' ∧ s'.mem = storedMem tg t inp n 0)
      ⟨.zero, buildMemImage t inp⟩ := by
  refine Wp.append.mpr ((prologue_wp _ hc.imaged).mono ?_)
  rintro s ⟨hs, hp, hval, hm⟩
  exact bodySlots_wp hc hn hs hp hval hm hok

theorem Wp.run {P : SymState → Op Operand → Prop} {Q : SymState → Prop} {ops : List (Op Operand)} {s : SymState} (h : Wp exec P ops Q s) (c : Nat) :
    ∃ s', SymState.run (number c ops) s = .ok s' ∧ Q s' := by
  rw [run_eq_exec, number_map_op]
  exact h.foldlM

theorem Wp.runsIn {P : SymState → Op Operand → Prop} {Q : SymState → Prop} {ops : List (Op Operand)} {s u : SymState} (h : Wp exec P ops Q s)
    {c k : Nat} {ins : Instr Operand} (hk : RunsIn (number c ops) s k ins u) : P u ins.op := by
  obtain ⟨hi, hu⟩ := hk
  rw [run_eq_exec, List.map_take, number_map_op] at hu
  refine h.observe ?_ hu
  rw [← number_map_op c ops, List.getElem?_map, hi, Option.map_some]

theorem Canonical.reference (hc : Canonical t inp) (n : Nat) : ∃ trace,
    referenceRounds (.of t 256) n (buildMemImage t inp, .empty) = .ok (walked t inp n 0, trace) ∧ trace.Covers t inp n 0 := by
  have hlen : 0 < t.values.length := by rw [hc.nodes]; omega
  rw [buildMemImage_walked hlen (by rw [hc.indices, hc.batch]), ← hc.batch]
  exact referenceRounds_walked inp hlen n .empty

theorem Canonical.readHeader (hc : Canonical t inp) : readHeader (buildMemImage t inp) = .ok (inp.rounds, .of t 256) := by
  rw [buildMemImage_walked (by rw [hc.nodes]; omega) (by rw [hc.indices, hc.batch]), readHeader_walked, hc.batch]

theorem Canonical.referenceKernel2 (hc : Canonical t inp) : ∃ trace,
    referenceKernel2 (buildMemImage t inp) .empty = .ok (walked t inp inp.rounds 0, trace) ∧ trace.Covers t inp inp.rounds 0 :=
  referenceKernel2_image (by rw [hc.nodes]; omega) (by rw [hc.indices, hc.batch]) .empty

def zeroTree : Tree := ⟨10, .replicate 2047 0⟩

def zeroInput (rounds : Nat) : Input := ⟨.replicate 256 0, .replicate 256 0, rounds⟩

theorem zero_canonical (rounds : Nat) : Canonical zeroTree (zeroInput rounds) where
  height := rfl
  nodes := List.length_replicate
  node_lt v hv := by
    rw [List.eq_of_mem_replicate hv]
    exact WORD_pos
  indices := rfl
  batch := List.length_replicate
  value_lt v hv := by
    rw [List.eq_of_mem_replicate hv]
    exact WORD_pos

/-- Every compare of the stream finds the eight values that the reference kernel recorded under its keys. -/
theorem compares_agree (hc : Canonical t inp) (tg : Toggles) : ∃ pro body mem trace s', buildKernel tg 10 2047 256 inp.rounds = .ok (pro, body) ∧
    referenceKernel2 (buildMemImage t inp) .empty = .ok (mem, trace) ∧
    SymState.run (number 0 (pro ++ body)) ⟨.zero, buildMemImage t inp⟩ = .ok s' ∧
    ∀ {k ins u loc keys}, RunsIn (number 0 (pro ++ body)) ⟨.zero, buildMemImage t inp⟩ k ins u → ins.op = .debugVCompare loc keys →
      keys.map trace.get? = (List.range VLEN).map fun j => some (u.env.read loc j) := by
  obtain ⟨body, hbody⟩ := bodySlots_ok tg inp.rounds inp.rounds
  obtain ⟨trace, href, hcov⟩ := hc.referenceKernel2
  have hwp := stream_wp hc (Nat.le_refl _) hbody
  obtain ⟨s', hrun, -⟩ := hwp.run 0
  refine ⟨_, _, _, trace, s', buildKernel_eq hbody, href, hrun, fun {k ins u loc keys} hk hop => ?_⟩
  have hobs := hwp.runsIn hk
  rw [hop] at hobs
  obtain ⟨h, hh, g, hg, field, rfl, hlane⟩ := hobs
  rw [laneKeys, List.map_map]
  apply List.map_congr_left
  intro j hj
  have hj := List.mem_range.mp hj
  have hitem : g * VLEN + j < inp.values.length := by
    rw [hc.batch]
    rw [VLEN] at hj ⊢
    omega
  exact hcov h _ (.inl ⟨hh, hitem⟩) field _ (hlane j hj)

/-- On zeros, over a repaired root. -/
theorem compares_agree_zero : ∃ pro body mem trace s', buildKernel .shipped 10 2047 256 12 = .ok (pro, body) ∧
    referenceKernel2 (buildMemImage zeroTree (zeroInput 12)) .empty = .ok (mem, trace) ∧
    SymState.run (number 0 (pro ++ body)) ⟨.zero, buildMemImage zeroTree (zeroInput 12)⟩ = .ok s' ∧
    ∀ {k ins u loc keys}, RunsIn (number 0 (pro ++ body)) ⟨.zero, buildMemImage zeroTree (zeroInput 12)⟩ k ins u →
      ins.op = .debugVCompare loc keys → keys.map trace.get? = (List.range VLEN).map fun j => some (u.env.read loc j) :=
  compares_agree (zero_canonical 12) .shipped

/-- Right after round `r` of group `g`, its lanes hold the address and the value of their items, or the value xored at the
end of a deferred descent. -/
theorem lanes_follow (hc : Canonical t inp) (tg : Toggles) {r g j : Nat} (hr : r < inp.rounds) (hg : g < 32) (hj : j < VLEN) :
    ∃ pro before upto rest hd mem trace idx v s', buildKernel tg 10 2047 256 inp.rounds = .ok (pro, before ++ (upto ++ rest)) ∧
      bodySlots tg 10 32 inp.rounds r = .ok before ∧ roundSlots tg 10 inp.rounds r (g + 1) = .ok upto ∧
      SymState.run (number 0 (pro ++ (before ++ upto))) ⟨.zero, buildMemImage t inp⟩ = .ok s' ∧
      readHeader (buildMemImage t inp) = .ok (inp.rounds, hd) ∧
      referenceRounds hd (r + 1) (buildMemImage t inp, .empty) = .ok (mem, trace) ∧
      mem[hd.inpIndicesP + (g * VLEN + j)]? = some idx ∧ mem[hd.inpValuesP + (g * VLEN + j)]? = some v ∧
      s'.env (addr g) j = hd.forestValuesP + idx ∧
      s'.env (val g) j = if tg.wrapRootC5Defer = true ∧ r % 11 = 10 then v ^^^ 0xB55A4F09 else v := by
  obtain ⟨body, hbody⟩ := bodySlots_ok tg inp.rounds inp.rounds
  obtain ⟨before, hbefore⟩ := bodySlots_ok tg inp.rounds r
  obtain ⟨upto, hupto⟩ := roundSlots_ok tg inp.rounds r (g + 1)
  obtain ⟨rest, rfl⟩ := bodySlots_cut hr hg hbody hbefore hupto
  obtain ⟨trace, href, -⟩ := hc.reference (r + 1)
  have hwp : Wp exec (Observed t inp inp.rounds) (prologue tg 32 ++ (before ++ upto)) (Stepped tg t inp r (g + 1)) ⟨.zero, buildMemImage t inp⟩ := by
    rw [← List.append_assoc]
    exact Wp.append.mpr ((stream_wp hc (Nat.le_of_lt hr) hbefore).mono fun s hs => roundSlots_wp hc hr (by omega) hs.1 hs.2 hupto)
  obtain ⟨s', hrun, hstep⟩ := hwp.run 0
  have hcarries := hstep.walking.carries g hg j hj
  rw [roundsDone, if_pos (Nat.lt_succ_self g)] at hcarries
  have hitem : g * VLEN + j < inp.values.length := by
    rw [hc.batch]
    rw [VLEN] at hj ⊢
    omega
  have hval := @walked_val t inp (r + 1) _ hitem
  rw [hc.batch] at hval
  have hC5 : C5 = 0xB55A4F09 := rfl
  refine ⟨_, before, upto, rest, _, _, trace, _, _, s', buildKernel_eq hbody, hbefore, hupto, hrun, hc.readHeader, href,
    walked_idx hitem, hval, hcarries.addr (by omega), ?_⟩
  have hdefer : (tg.wrapRootC5Defer && level 10 r = 10) = true ↔ tg.wrapRootC5Defer = true ∧ r % 11 = 10 := by
    rw [Bool.and_eq_true, decide_eq_true_iff, level]
  refine hcarries.val.trans ?_
  simp only [carried_succ, hC5, hdefer]

/-- On zeros, the last lane at the end of a deferred descent. -/
theorem lanes_follow_zero : ∃ pro before upto rest hd mem trace idx v s',
    buildKernel .shipped 10 2047 256 12 = .ok (pro, before ++ (upto ++ rest)) ∧
      bodySlots .shipped 10 32 12 10 = .ok before ∧ roundSlots .shipped 10 12 10 32 = .ok upto ∧
      SymState.run (number 0 (pro ++ (before ++ upto))) ⟨.zero, buildMemImage zeroTree (zeroInput 12)⟩ = .ok s' ∧
      readHeader (buildMemImage zeroTree (zeroInput 12)) = .ok (12, hd) ∧
      referenceRounds hd 11 (buildMemImage zeroTree (zeroInput 12), .empty) = .ok (mem, trace) ∧
      mem[hd.inpIndicesP + (31 * VLEN + 7)]? = some idx ∧ mem[hd.inpValuesP + (31 * VLEN + 7)]? = some v ∧
      s'.env (addr 31) 7 = hd.forestValuesP + idx ∧
      s'.env (val 31) 7 = if Toggles.shipped.wrapRootC5Defer = true ∧ 10 % 11 = 10 then v ^^^ 0xB55A4F09 else v :=
  lanes_follow (zero_canonical 12) .shipped (by decide) (by decide) (by decide)

theorem kernel_stores (hc : Canonical t inp) (tg : Toggles) : ∃ pro body s' mem trace, buildKernel tg 10 2047 256 inp.rounds = .ok (pro, body) ∧
    SymState.run (number 0 (pro ++ body)) ⟨.zero, buildMemImage t inp⟩ = .ok s' ∧
    referenceKernel2 (buildMemImage t inp) .empty = .ok (mem, trace) ∧
    ∀ k < 256, s'.mem[INP_VALUES_P + k]? = some (carried tg inp.rounds (item t inp inp.rounds k)) ∧
      mem[INP_VALUES_P + k]? = some (item t inp inp.rounds k).2 := by
  obtain ⟨body, hbody⟩ := bodySlots_ok tg inp.rounds inp.rounds
  obtain ⟨trace, href, -⟩ := hc.referenceKernel2
  obtain ⟨s', hrun, -, hmem⟩ := (stream_wp hc (Nat.le_refl _) hbody).run 0
  refine ⟨_, _, s', _, trace, buildKernel_eq hbody, hrun, href, fun k hk => ⟨?_, ?_⟩⟩
  · rw [hc.word, hmem, storedMem, layout_val hc.indices_length (by rw [List.length_map, List.length_range]), List.getElem?_map,
      List.getElem?_range hk, Option.map_some, storedWord, roundsDone, if_neg (Nat.not_lt_zero _), if_pos rfl]
  · rw [hc.word, ← hc.batch]
    exact walked_val (by rw [hc.batch]; exact hk)

/-- A value is carried as it is but between a deferred descent and its repair. -/
theorem carried_shipped {rounds : Nat} (hr : 1 ≤ rounds) (p : Nat × Nat) : carried .shipped rounds p = p.2 ↔ rounds % 11 ≠ 0 := by
  have hrep : repairs .shipped 10 rounds = decide (rounds % 11 = 0) := by
    rw [repairs, decide_eq_true (show rounds ≠ 0 by omega), Bool.and_true]
    rfl
  rw [carried, hrep]
  by_cases h : rounds % 11 = 0
  · have hne : p.2 ^^^ C5 ≠ p.2 := by
      intro heq
      have hzero := congrArg (p.2 ^^^ ·) heq
      simp only [Nat.xor_xor_cancel_left, Nat.xor_self] at hzero
      exact absurd hzero (by decide)
    simp [h, hne]
  · simp [h]

/-- The kernel leaves the values of the reference kernel if and only if its last round does not end a descent. -/
theorem kernel_correct_iff (hc : Canonical t inp) (hr : 1 ≤ inp.rounds) : ∃ pro body s' mem trace,
    buildKernel .shipped 10 2047 256 inp.rounds = .ok (pro, body) ∧
    SymState.run (number 0 (pro ++ body)) ⟨.zero, buildMemImage t inp⟩ = .ok s' ∧
    referenceKernel2 (buildMemImage t inp) .empty = .ok (mem, trace) ∧
    ((∀ k < 256, s'.mem[INP_VALUES_P + k]? = mem[INP_VALUES_P + k]?) ↔ inp.rounds % 11 ≠ 0) := by
  obtain ⟨pro, body, s', mem, trace, hbuild, hrun, href, hwords⟩ := kernel_stores hc .shipped
  refine ⟨pro, body, s', mem, trace, hbuild, hrun, href, fun h => ?_, fun h k hk => ?_⟩
  · obtain ⟨hs, hm⟩ := hwords 0 (by decide)
    have heq := h 0 (by decide)
    rw [hs, hm] at heq
    exact (carried_shipped hr _).mp (Option.some.inj heq)
  · obtain ⟨hs, hm⟩ := hwords k hk
    rw [hs, hm, (carried_shipped hr _).mpr h]

/-- On zeros, over the sixteen rounds of the tests. -/
theorem kernel_correct_zero : ∃ pro body s' mem trace,
    buildKernel .shipped 10 2047 256 (zeroInput 16).rounds = .ok (pro, body) ∧
    SymState.run (number 0 (pro ++ body)) ⟨.zero, buildMemImage zeroTree (zeroInput 16)⟩ = .ok s' ∧
    referenceKernel2 (buildMemImage zeroTree (zeroInput 16)) .empty = .ok (mem, trace) ∧
    ((∀ k < 256, s'.mem[INP_VALUES_P + k]? = mem[INP_VALUES_P + k]?) ↔ (zeroInput 16).rounds % 11 ≠ 0) :=
  kernel_correct_iff (zero_canonical 16) (by decide)

/-- After eleven rounds the first value is stored xored. -/
theorem kernel_stores_xored : ∃ pro body s' mem trace,
    buildKernel .shipped 10 2047 256 11 = .ok (pro, body) ∧
    SymState.run (number 0 (pro ++ body)) ⟨.zero, buildMemImage zeroTree (zeroInput 11)⟩ = .ok s' ∧
    referenceKernel2 (buildMemImage zeroTree (zeroInput 11)) .empty = .ok (mem, trace) ∧
    s'.mem[INP_VALUES_P]? ≠ mem[INP_VALUES_P]? := by
  obtain ⟨pro, body, s', mem, trace, hbuild, hrun, href, hwords⟩ := kernel_stores (zero_canonical 11) .shipped
  obtain ⟨hs, hm⟩ := hwords 0 (by decide)
  refine ⟨pro, body, s', mem, trace, hbuild, hrun, href, fun heq => ?_⟩
  exact (carried_shipped (by decide) _).mp (Option.some.inj (hs.symm.trans (heq.trans hm))) rfl

end Vliw
