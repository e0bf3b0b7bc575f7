import VliwKernel.Kernel.Prologue

/-!
# The rounds

A round prepares its vectors and then steps its groups one by one; after every group, each lane carries its item as far
as the reference kernel has taken it.
-/

namespace Vliw

open Name (val addr path outAddr tree tree0Xor5 eight header K l4PlA l4PlB l4Addr)
open SymState

variable {tg : Toggles} {t : Tree} {inp : Input} {r n g : Nat} {s s' : SymState}

section prelude

def outLocal : Name → Bool
  | outAddr _ => true
  | _ => false

theorem outAddrs_wp (hp : s.env (header .inpValuesP) 0 = INP_VALUES_P) : Wp exec (Observed t inp inp.rounds) (outAddrs 32)
    (fun s' => (∀ g < 32, s'.env (outAddr g) 0 = INP_VALUES_P + g * VLEN) ∧ Keeps outLocal s s') s := by
  apply wp_keeps
  · refine (Wp.flatMap_range (I := fun k (s' : SymState) => s'.env (header .inpValuesP) 0 = INP_VALUES_P ∧
      ∀ g < k, s'.env (outAddr g) 0 = INP_VALUES_P + g * VLEN) ?_ ⟨hp, fun g h => absurd h (Nat.not_lt_zero g)⟩).mono fun s' h => h.2
    rintro k hk s₁ ⟨hp₁, hout₁⟩
    refine wp_const (by rw [VLEN, WORD]; omega) fun s₂ h₂ => ?_
    refine wp_add (v := INP_VALUES_P + k * VLEN) ?_ (by rw [INP_VALUES_P, VLEN, WORD]; omega) fun s₃ h₃ => ?_
    · show s₂.env (outAddr k) 0 + s₂.env (header .inpValuesP) 0 = _
      rw [h₂.val 0 (by decide), h₂.env _ (by simp), hp₁, Nat.add_comm]
    · refine ⟨by rw [h₃.env _ (by simp), h₂.env _ (by simp), hp₁], fun g hg => ?_⟩
      rcases Nat.lt_succ_iff_lt_or_eq.mp hg with hg | rfl
      · rw [h₃.env _ (by simp only [ne_eq, Name.outAddr.injEq]; omega), h₂.env _ (by simp only [ne_eq, Name.outAddr.injEq]; omega), hout₁ g hg]
      · exact h₃.val 0 (by decide)
  · intro o ho
    simp only [outAddrs, List.mem_flatMap] at ho
    obtain ⟨k, -, ho⟩ := ho
    revert o
    simp [outLocal]

def jitLocal : Name → Bool
  | l4PlA | l4PlB | l4Addr | tree _ => true
  | _ => false

def preludeLocal (n : Name) : Bool := n = tree0Xor5 || jitLocal n

theorem Primed.prelude (h : Primed tg t s) (hk : Keeps preludeLocal s s') (hn : ∀ i, HasNode t i s → HasNode t i s') : Primed tg t s' := by
  refine ⟨fun j hj n v hv => ?_, ?_, ?_⟩
  · by_cases hp : preludeLocal n = true
    · cases n with
      | tree i =>
          rw [constOf] at hv
          split at hv
          · next hi =>
              cases hv
              exact hn i (fun k hk => h.consts k hk (tree i) _ (if_pos hi)) j hj
          · cases hv
      | tree0Xor5 | l4PlA | l4PlB | l4Addr => cases hv
      | _ => cases hp
    · exact (hk.lane j n (by simpa using hp)).trans (h.consts j hj n v hv)
  · rw [hk.env _ rfl, h.eight]
  · rw [hk.env _ rfl, h.forestValuesP]

theorem repair_wp (hs : Primed tg t s) (ht : Planted t s.mem) : Wp exec (Observed t inp inp.rounds)
    (if repairs tg 10 r then [.vecElem .xor tree0Xor5 (tree 0) (K 5)] else []) (fun s' =>
      (repairs tg 10 r = true → ∀ j < VLEN, s'.env tree0Xor5 j = t.values.getD 0 0 ^^^ C5) ∧ Keeps (fun n => n = tree0Xor5) s s') s := by
  split
  · apply wp_keeps
    · refine wp_sets (v := fun _ => t.values.getD 0 0 ^^^ C5) trivial rfl (by simp [Op.engine]) (fun j hj => ?_) fun s' h _ => h.val
      have h0 : s.env.read (tree 0) j = t.values.getD 0 0 := (congrArg (s.env _) (Nat.zero_add j)).trans ((hs.consts j hj).node (by decide))
      have h5 : s.env.read (K 5) j = C5 := (congrArg (s.env _) (Nat.zero_add j)).trans (hs.consts j hj (K 5) _ rfl)
      rw [Op.lane, aluOp, h0, h5, Nat.mod_eq_of_lt (xor_lt (ht.node_lt (by decide)) (by decide))]
    · simp
  · next hr => exact ⟨fun h => absurd h hr, rfl, fun _ _ => rfl⟩

theorem jit_wp (hs : Primed tg t s) (ht : Planted t s.mem) : Wp exec (Observed t inp inp.rounds)
    (if tg.preloadL4Groups > 0 ∧ tg.preloadL4Jit ∧ level 10 r = 4 ∧ selectsL4 tg 10 r then
      [.const l4Addr 15,
        .alu .add l4Addr l4Addr (header .forestValuesP),
        .vLoad l4PlA l4Addr,
        .alu .add l4Addr l4Addr eight,
        .vLoad l4PlB l4Addr] ++
      ((List.range 8).map fun i => .vBroadcast (tree (15 + i)) (l4PlA.lane i)) ++
      (List.range 8).map fun i => .vBroadcast (tree (15 + (8 + i))) (l4PlB.lane i)
    else []) (fun s' => ((∀ i, HasNode t i s → HasNode t i s') ∧
      (tg.preloadL4Groups > 0 ∧ tg.preloadL4Jit ∧ level 10 r = 4 ∧ selectsL4 tg 10 r → ∀ i < 16, HasNode t (15 + i) s')) ∧
      Keeps jitLocal s s') s := by
  split
  · apply wp_keeps
    · simp only [List.cons_append, List.nil_append]
      refine wp_const (v := 15) (by decide) fun s₁ h₁ => ?_
      refine wp_add (v := 22) ?_ (by decide) fun s₂ h₂ => ?_
      · show s₁.env l4Addr 0 + s₁.env (header .forestValuesP) 0 = 22
        rw [h₁.val 0 (by decide), h₁.env _ (by simp), hs.forestValuesP]
      refine wp_vLoad (h₂.val 0 (by decide)) (v := fun j => t.values.getD (15 + j) 0) (fun j hj => ?_) (.inl (by decide)) fun s₃ h₃ => ?_
      · rw [h₂.mem, h₁.mem, show 22 + j = 7 + (15 + j) by omega]
        exact ht.node (by rw [VLEN] at hj; omega)
      refine wp_add (v := 30) ?_ (by decide) fun s₄ h₄ => ?_
      · show s₃.env l4Addr 0 + s₃.env eight 0 = 30
        rw [h₃.env _ (by simp), h₂.val 0 (by decide), h₃.env _ (by simp), h₂.env _ (by simp), h₁.env _ (by simp), hs.eight]
      refine wp_vLoad (h₄.val 0 (by decide)) (v := fun j => t.values.getD (23 + j) 0) (fun j hj => ?_) (.inl (by decide)) fun s₅ h₅ => ?_
      · rw [h₄.mem, h₃.mem, h₂.mem, h₁.mem, show 30 + j = 7 + (23 + j) by omega]
        exact ht.node (by rw [VLEN] at hj; omega)
      have hnode₅ : ∀ i, HasNode t i s → HasNode t i s₅ := by
        intro i hi j hj
        rw [h₅.env _ (by simp), h₄.env _ (by simp), h₃.env _ (by simp), h₂.env _ (by simp), h₁.env _ (by simp), hi j hj]
      refine Wp.append.mpr ((treeBroadcasts_wp (d := fun i => 15 + i) (p := l4PlA) rfl fun i hi => ?_).mono ?_)
      · rw [h₅.env _ (by simp), h₄.env _ (by simp), h₃.val i hi]
      rintro s₆ ⟨hn₆, k₆⟩
      refine (treeBroadcasts_wp (d := fun i => 15 + (8 + i)) (p := l4PlB) rfl fun i hi => ?_).mono ?_
      · rw [k₆.env _ rfl, h₅.val i hi, show 23 + i = 15 + (8 + i) by omega]
      rintro s' ⟨hn, -⟩
      refine ⟨fun i hi => hn i (.inl (hn₆ i (.inl (hnode₅ i hi)))), fun _ i hi => hn _ ?_⟩
      by_cases h8 : 8 ≤ i
      · exact .inr ⟨i - 8, by omega, by omega⟩
      · exact .inl (hn₆ _ (.inr ⟨i, by omega, rfl⟩))
    · simp [or_imp, forall_and, jitLocal]
  · next hno => exact ⟨⟨fun _ h => h, fun h => absurd h hno⟩, rfl, fun _ _ => rfl⟩

theorem roundPrelude_wp (hs : Primed tg t s) (ht : Planted t s.mem) :
    Wp exec (Observed t inp inp.rounds) (roundPrelude tg 10 r) (fun s' => (Primed tg t s' ∧ ∀ j < VLEN, Prepared tg t r (s'.lane j)) ∧
      Keeps preludeLocal s s') s := by
  refine Wp.append.mpr ((repair_wp hs ht).mono ?_)
  rintro s₁ ⟨hroot, k₁⟩
  have hk₁ : Keeps preludeLocal s s₁ := ⟨k₁.mem, fun n hn => k₁.env n (by simp_all [preludeLocal])⟩
  have hs₁ : Primed tg t s₁ := hs.prelude hk₁ fun i h j hj => by rw [k₁.env _ (by simp), h j hj]
  refine (jit_wp hs₁ (k₁.mem ▸ ht)).mono ?_
  rintro s' ⟨⟨hkept, hlevel⟩, k⟩
  have hk : Keeps preludeLocal s₁ s' := ⟨k.mem, fun n hn => k.env n (by simp_all [preludeLocal])⟩
  refine ⟨⟨hs₁.prelude hk hkept, fun j hj => ⟨fun hrep => ?_, fun hgroups hl hsel i hi => ?_⟩⟩, hk₁.trans hk⟩
  · exact (k.lane j tree0Xor5 rfl).trans (hroot hrep j hj)
  · by_cases hjit : tg.preloadL4Jit = true
    · exact hlevel ⟨hgroups, hjit, hl, hsel⟩ i hi j hj
    · have hconst : constOf tg t (tree (15 + i)) = some (t.values.getD (15 + i) 0) :=
        if_pos (.inr ⟨by omega, hgroups, by simpa using hjit⟩)
      exact hkept _ (fun k hk => hs₁.consts k hk _ _ hconst) j hj

end prelude
section walk

/-- How many rounds group `g` has done when round `r` has stepped `n` groups. -/
def roundsDone (r n g : Nat) : Nat := if g < n then r + 1 else r

/-- The lanes when round `r` has stepped `n` groups. -/
structure Walking (tg : Toggles) (t : Tree) (inp : Input) (r n : Nat) (s : SymState) : Prop where
  primed : Primed tg t s
  out : ∀ g < 32, s.env (outAddr g) 0 = INP_VALUES_P + g * VLEN
  carries : ∀ g < 32, ∀ j < VLEN, Carries tg g (roundsDone r n g) (item t inp (roundsDone r n g) (g * VLEN + j)) (s.lane j)

/-- Word `k` of the values when round `r` has stepped `n` groups: stored in the last round. -/
def storedWord (tg : Toggles) (t : Tree) (inp : Input) (r n k : Nat) : Nat :=
  if roundsDone r n (k / VLEN) = inp.rounds then carried tg inp.rounds (item t inp inp.rounds k) else inp.values.getD k 0

/-- Memory when round `r` has stepped `n` groups. -/
def storedMem (tg : Toggles) (t : Tree) (inp : Input) (r n : Nat) : List Nat :=
  layout t inp.rounds inp.indices ((List.range 256).map (storedWord tg t inp r n))

theorem Canonical.planted (hc : Canonical t inp) (r n : Nat) : Planted t (storedMem tg t inp r n) := by
  refine ⟨hc.nodes, hc.node_lt, fun i hi => ?_⟩
  rw [storedMem, layout_node (by rw [hc.nodes]; exact hi)]

theorem storedMem_length (hc : Canonical t inp) (r n : Nat) : (storedMem tg t inp r n).length = 2566 := by
  rw [storedMem, length_layout, hc.nodes, hc.indices, List.length_replicate, List.length_map, List.length_range]

/-- A round's groups are those of the next before it has stepped any. -/
theorem roundsDone_turn {g : Nat} (hg : g < 32) (r : Nat) : roundsDone r 32 g = roundsDone (r + 1) 0 g := by
  rw [roundsDone, roundsDone, if_pos hg, if_neg (Nat.not_lt_zero g)]

theorem roundsDone_of_ne {g' : Nat} (h : g' ≠ g) (r : Nat) : roundsDone r (g + 1) g' = roundsDone r g g' := by
  rw [roundsDone, roundsDone]
  simp only [show g' < g + 1 ↔ g' < g by omega]

theorem Walking.turn (h : Walking tg t inp r 32 s) : Walking tg t inp (r + 1) 0 s := by
  refine ⟨h.primed, h.out, fun g hg j hj => ?_⟩
  rw [← roundsDone_turn hg]
  exact h.carries g hg j hj

theorem storedMem_congr {F : Nat → Nat} (h : ∀ k < 256, storedWord tg t inp r n k = F k) :
    storedMem tg t inp r n = layout t inp.rounds inp.indices ((List.range 256).map F) :=
  congrArg (layout t inp.rounds inp.indices) (List.map_congr_left fun k hk => h k (List.mem_range.mp hk))

theorem storedMem_turn (r : Nat) : storedMem tg t inp r 32 = storedMem tg t inp (r + 1) 0 :=
  storedMem_congr fun k hk => by rw [storedWord, storedWord, roundsDone_turn (by rw [VLEN]; omega)]

theorem storedWord_succ (hr : r < inp.rounds) (g k : Nat) : storedWord tg t inp r (g + 1) k =
    if r + 1 = inp.rounds ∧ g * VLEN ≤ k ∧ k < g * VLEN + VLEN then carried tg inp.rounds (item t inp inp.rounds k)
    else storedWord tg t inp r g k := by
  have hdone : ∀ n, roundsDone r n (k / VLEN) = inp.rounds ↔ k / VLEN < n ∧ r + 1 = inp.rounds := by
    intro n
    rw [roundsDone]
    split <;> omega
  have hk : g * VLEN ≤ k ∧ k < g * VLEN + VLEN ↔ k / VLEN = g := by
    rw [VLEN]
    omega
  simp only [storedWord, hdone, hk]
  by_cases hlast : r + 1 = inp.rounds
  · by_cases heq : k / VLEN = g
    · simp [hlast, heq]
    · simp only [hlast, heq, and_true, and_false, if_false, show k / VLEN < g + 1 ↔ k / VLEN < g by omega]
  · simp [hlast]

theorem applyWrites_values {F G : Nat → Nat} (hidx : inp.indices.length = 256) {b n : Nat} (hn : b + n ≤ 256) :
    Machine.applyWrites ((List.range n).map fun j => (7 + t.values.length + 256 + b + j, G (b + j)))
      (layout t inp.rounds inp.indices ((List.range 256).map F)) =
      .ok (layout t inp.rounds inp.indices ((List.range 256).map fun k => if b ≤ k ∧ k < b + n then G k else F k)) := by
  have hlen : ∀ F : Nat → Nat, ((List.range 256).map F).length = 256 := fun F => by rw [List.length_map, List.length_range]
  induction n with
  | zero =>
      have hF : ∀ k, (if b ≤ k ∧ k < b + 0 then G k else F k) = F k := fun k => if_neg (by omega)
      simp only [hF]
      rfl
  | succ n ih =>
      rw [List.range_succ, List.map_append, Machine.applyWrites_append, ih (by omega), bind_ok, List.map_singleton, Machine.applyWrites,
        if_pos (by rw [length_layout, hlen, hidx]; omega), Machine.applyWrites, Nat.add_assoc _ b n, layout_set_val _ hidx (hlen _)]
      congr 2
      apply List.ext_getElem (by simp)
      intro k hk hk'
      simp only [List.length_map, List.length_range] at hk'
      simp only [List.getElem_set, List.getElem_map, List.getElem_range]
      split
      · next heq => rw [if_pos (by omega), heq]
      · next hne => simp only [show (k < b + (n + 1)) ↔ (k < b + n) by omega]

theorem Frame.carries {W : Name → Bool} {p : Nat × Nat} {f f' : Sym → Nat} (hf : Frame W f f') (hval : W (val g) = false)
    (haddr : W (addr g) = false) (hpath : ∀ l, W (path g l) = false) (h : Carries tg g r p f) : Carries tg g r p f' := by
  have hbit : ∀ l, f' (path g l) = f (path g l) := fun l => hf _ (hpath l)
  refine ⟨(hf _ hval).trans h.val, fun hr => (hf _ haddr).trans (h.addr hr), ?_, ?_, h.lt⟩
  · simpa only [hbit] using h.idx
  · simpa only [hbit] using h.bits

theorem constOf_groupLocal {m : Name} (h : (constOf tg t m).isSome) : groupLocal g m = false := by
  cases m with
  | val g' | addr g' | path g' l | t i | nv => cases h
  | _ => rfl

/-- The lanes after the next group has been stepped. -/
theorem Walking.step (h : Walking tg t inp r g s) (hlane : ∀ j < VLEN,
    Carries tg g (r + 1) (t.step (item t inp r (g * VLEN + j))) (s'.lane j) ∧ Frame (groupLocal g) (s.lane j) (s'.lane j)) :
    Walking tg t inp r (g + 1) s' := by
  refine ⟨⟨fun j hj => (h.primed.consts j hj).frame (hlane j hj).2 fun _ => constOf_groupLocal, ?_, ?_⟩, fun g' hg' => ?_, fun g' hg' j hj => ?_⟩
  · exact ((hlane 0 (by decide)).2 eight rfl).trans h.primed.eight
  · exact ((hlane 0 (by decide)).2 (header .forestValuesP) rfl).trans h.primed.forestValuesP
  · exact ((hlane 0 (by decide)).2 (outAddr g') rfl).trans (h.out g' hg')
  · by_cases heq : g' = g
    · rw [heq, roundsDone, if_pos (Nat.lt_succ_self g), item_succ]
      exact (hlane j hj).1
    · rw [roundsDone_of_ne heq]
      exact (hlane j hj).2.carries (decide_eq_false heq) (decide_eq_false heq) (fun _ => decide_eq_false heq) (h.carries g' hg' j hj)

theorem Walking.store (h : Walking tg t inp r n s) (mem : List Nat) : Walking tg t inp r n ⟨s.env, mem⟩ :=
  ⟨⟨h.primed.consts, h.primed.eight, h.primed.forestValuesP⟩, h.out, h.carries⟩

theorem Frame.prepared {f f' : Sym → Nat} (hf : Frame (groupLocal g) f f') (h : Prepared tg t r f) : Prepared tg t r f' :=
  ⟨fun hr => (hf _ rfl).trans (h.root hr), fun h4 hl hs i hi => (hf _ rfl).trans (h.level4 h4 hl hs i hi)⟩

theorem Canonical.indices_length (hc : Canonical t inp) : inp.indices.length = 256 := by
  rw [hc.indices, List.length_replicate]

/-- The state when round `r` has stepped `n` groups, and the next one may go. -/
structure Stepped (tg : Toggles) (t : Tree) (inp : Input) (r n : Nat) (s : SymState) : Prop where
  walking : Walking tg t inp r n s
  mem : s.mem = storedMem tg t inp r n
  prepared : ∀ j < VLEN, Prepared tg t r (s.lane j)

/-- Round `r` of group `g`. -/
theorem groupSlots_wp (hc : Canonical t inp) (hr : r < inp.rounds) (hg : g < 32) (hs : Stepped tg t inp r g s) {ops : List (Op Operand)}
    (hok : groupSlots tg 10 inp.rounds r g = .ok ops) : Wp exec (Observed t inp inp.rounds) ops (Stepped tg t inp r (g + 1)) s := by
  obtain ⟨hash, hhash, hslots⟩ := groupSlots_ok tg r g inp.rounds
  cases hslots.symm.trans hok
  have hplanted : Planted t s.mem := hs.mem ▸ hc.planted r g
  have hcarries : ∀ j < VLEN, Carries tg g r (item t inp r (g * VLEN + j)) (s.lane j) := by
    intro j hj
    have h := hs.walking.carries g hg j hj
    rwa [roundsDone, if_neg (Nat.lt_irrefl g)] at h
  have hcore := wp_lanes (observed_of_lanes (E := fun j field w => t.recorded (item t inp r (g * VLEN + j)) field = some w)
    fun j _ field w h => ⟨⟨hr, hg⟩, h⟩) fun j hj => coreSlots_lane hplanted (hs.walking.primed.consts j hj) (hs.prepared j hj) (hcarries j hj) hhash
  refine Wp.append.mpr (hcore.mono ?_)
  rintro s₁ ⟨hmem₁, hlane₁⟩
  have hwalk : Walking tg t inp r (g + 1) s₁ := hs.walking.step hlane₁
  have hprep : ∀ j < VLEN, Prepared tg t r (s₁.lane j) := fun j hj => (hlane₁ j hj).2.prepared (hs.prepared j hj)
  split
  · next hlast =>
      have hlast : r + 1 = inp.rounds := by omega
      have hread : ∀ j, s₁.env.read (val g) j = s₁.env (val g) j := fun j => congrArg (s₁.env _) (Nat.zero_add j)
      have hout : s₁.env.read (outAddr g) 0 = INP_VALUES_P + g * VLEN := hwalk.out g hg
      have hval : ∀ j < VLEN, s₁.env.read (val g) j = carried tg inp.rounds (item t inp inp.rounds (g * VLEN + j)) := by
        intro j hj
        rw [hread, ← hlast, item_succ]
        exact (hlane₁ j hj).1.val
      have hstores : (Op.vStore (outAddr g) (val g) : Op Operand).stores s₁.env.read = (List.range VLEN).map fun j =>
          (7 + t.values.length + 256 + g * VLEN + j, carried tg inp.rounds (item t inp inp.rounds (g * VLEN + j))) := by
        apply List.map_congr_left
        intro j hj
        rw [hout, hval j (List.mem_range.mp hj), hc.nodes, INP_VALUES_P]
      have hmem : storedMem tg t inp r (g + 1) = layout t inp.rounds inp.indices ((List.range 256).map fun k =>
          if g * VLEN ≤ k ∧ k < g * VLEN + VLEN then carried tg inp.rounds (item t inp inp.rounds k) else storedWord tg t inp r g k) :=
        storedMem_congr fun k _ => by simp only [storedWord_succ hr, hlast, true_and]
      have hwrites := applyWrites_values (t := t) (F := storedWord tg t inp r g) (G := fun k => carried tg inp.rounds (item t inp inp.rounds k))
        (b := g * VLEN) (n := VLEN) hc.indices_length (by rw [VLEN]; omega)
      refine ⟨⟨g, hg, rfl, rfl, hout⟩, ⟨s₁.env, storedMem tg t inp r (g + 1)⟩, ?_, hwalk.store _, rfl, hprep⟩
      rw [← hstores, ← hmem] at hwrites
      rw [exec, SymState.step, hmem₁, hs.mem, storedMem, hwrites]
      rfl
  · next hmore =>
      refine ⟨hwalk, ?_, hprep⟩
      have hlast : r + 1 ≠ inp.rounds := by omega
      rw [hmem₁, hs.mem]
      exact (storedMem_congr fun k _ => by simp only [storedWord_succ hr, hlast, false_and, if_false]).symm

theorem roundSlots_wp (hc : Canonical t inp) (hr : r < inp.rounds) (hn : n ≤ 32) (hw : Walking tg t inp r 0 s) (hm : s.mem = storedMem tg t inp r 0)
    {ops : List (Op Operand)} (hok : roundSlots tg 10 inp.rounds r n = .ok ops) :
    Wp exec (Observed t inp inp.rounds) ops (Stepped tg t inp r n) s := by
  obtain ⟨groups, hgroups, hok⟩ := bind_eq_ok.mp hok
  cases hok
  refine Wp.append.mpr ((roundPrelude_wp hw.primed (hm ▸ hc.planted r 0)).mono ?_)
  rintro s₁ ⟨⟨hprimed, hprep⟩, k₁⟩
  refine Wp.flatten_range (fun g hg ops hok s hs => groupSlots_wp hc hr (by omega) hs hok) hgroups ⟨⟨hprimed, fun g hg => ?_, fun g hg j hj => ?_⟩,
    k₁.mem.trans hm, hprep⟩
  · rw [k₁.env _ rfl, hw.out g hg]
  · exact (k₁.lane j).carries rfl rfl (fun _ => rfl) (hw.carries g hg j hj)

/-- Every lane at the start, before its address is valid. -/
theorem Canonical.carries (hc : Canonical t inp) {g j : Nat} (hg : g < 32) (hj : j < VLEN) {f : Sym → Nat}
    (hval : f (val g) = inp.values.getD (g * VLEN + j) 0) : Carries tg g 0 (item t inp 0 (g * VLEN + j)) f := by
  have hlt : g * VLEN + j < inp.values.length := by
    rw [hc.batch]
    rw [VLEN] at hj ⊢
    omega
  refine ⟨?_, fun h => absurd rfl h, rfl, fun l hl => absurd hl (Nat.not_lt_zero l), ?_⟩
  · rw [hval, carried, if_neg (by simp [repairs])]
    rfl
  · show inp.values.getD (g * VLEN + j) 0 < WORD
    rw [List.getD_eq_getElem _ _ hlt]
    exact hc.value_lt _ (List.getElem_mem _)

theorem storedMem_zero (hc : Canonical t inp) : storedMem tg t inp 0 0 = buildMemImage t inp := by
  have hword : ∀ k < 256, storedWord tg t inp 0 0 k = inp.values.getD k 0 := by
    intro k hk
    rw [storedWord, roundsDone, if_neg (Nat.not_lt_zero _)]
    split
    · next h0 =>
        rw [← h0, carried, if_neg (by simp [repairs])]
        rfl
    · rfl
  rw [storedMem_congr hword, buildMemImage_eq (by rw [hc.nodes]; omega) (by rw [hc.indices_length, hc.batch])]
  congr 1
  apply List.ext_getElem (by simp [hc.batch])
  intro k hk hk'
  simp [hk']

theorem bodySlots_wp (hc : Canonical t inp) (hn : n ≤ inp.rounds) (hs : Primed tg t s) (hp : s.env (header .inpValuesP) 0 = INP_VALUES_P)
    (hval : ∀ g < 32, ∀ j < VLEN, s.env (val g) j = inp.values.getD (g * VLEN + j) 0) (hm : s.mem = buildMemImage t inp)
    {ops : List (Op Operand)} (hok : bodySlots tg 10 32 inp.rounds n = .ok ops) : Wp exec (Observed t inp inp.rounds) ops
      (fun s' => Walking tg t inp n 0 s' ∧ s'.mem = storedMem tg t inp n 0) s := by
  obtain ⟨rs, hrs, hok⟩ := bind_eq_ok.mp hok
  cases hok
  refine Wp.append.mpr ((outAddrs_wp hp).mono ?_)
  rintro s₁ ⟨hout, k₁⟩
  have hprimed : Primed tg t s₁ := by
    refine ⟨fun j hj => (hs.consts j hj).frame (k₁.lane j) fun m hm => ?_, ?_, ?_⟩
    · cases m with
      | outAddr g => cases hm
      | _ => rfl
    · rw [k₁.env _ rfl, hs.eight]
    · rw [k₁.env _ rfl, hs.forestValuesP]
  refine Wp.flatten_range (I := fun r s => Walking tg t inp r 0 s ∧ s.mem = storedMem tg t inp r 0) (fun r hr ops hok s hs => ?_) hrs
    ⟨⟨hprimed, hout, fun g hg j hj => ?_⟩, ?_⟩
  · refine (roundSlots_wp hc (by omega) (Nat.le_refl 32) hs.1 hs.2 hok).mono fun s' hs' => ⟨hs'.walking.turn, ?_⟩
    rw [hs'.mem, storedMem_turn]
  · rw [roundsDone, if_neg (Nat.not_lt_zero g)]
    refine hc.carries hg hj ?_
    exact (k₁.lane j (val g) rfl).trans (hval g hg j hj)
  · rw [k₁.mem, hm, storedMem_zero hc]

theorem Canonical.word (hc : Canonical t inp) (k : Nat) : INP_VALUES_P + k = 7 + t.values.length + 256 + k := by
  rw [hc.nodes, INP_VALUES_P]

theorem Canonical.imaged (hc : Canonical t inp) : Imaged t inp (buildMemImage t inp) := by
  rw [buildMemImage_eq (by rw [hc.nodes]; omega) (by rw [hc.indices_length, hc.batch])]
  refine ⟨?_, ?_, ?_, fun i hi => ?_, fun i hi => ?_⟩
  · rw [length_layout]
    omega
  · rfl
  · show some (7 + t.values.length + inp.values.length) = _
    rw [hc.nodes, hc.batch, INP_VALUES_P]
  · have hlt : i < t.values.length := by rw [hc.nodes]; exact hi
    rw [layout_node hlt, List.getElem?_eq_getElem hlt, List.getD_eq_getElem _ _ hlt]
  · have hlt : i < inp.values.length := by rw [hc.batch]; exact hi
    rw [hc.word, layout_val hc.indices_length hc.batch, List.getElem?_eq_getElem hlt, List.getD_eq_getElem _ _ hlt]

end walk
end Vliw
