import VliwKernel.Kernel.Execution

/-!
# The prologue

What the prologue leaves behind: the header, the values, the constants and the top of the tree.
-/

namespace Vliw

open Name (val addr outAddr tree constVec eight header addrA)

section loads

open SymState

variable {t : Tree} {inp : Input} {rounds : Nat} {s : SymState}

/-- The words of the image that the kernel loads. -/
structure Imaged (t : Tree) (inp : Input) (mem : List Nat) : Prop where
  header : 7 ≤ mem.length
  forestValuesP : mem[4]? = some 7
  inpValuesP : mem[6]? = some INP_VALUES_P
  node : ∀ i < 2047, mem[7 + i]? = some (t.values.getD i 0)
  val : ∀ i < 256, mem[INP_VALUES_P + i]? = some (inp.values.getD i 0)

def headerLocal : Name → Bool
  | header _ | addrA => true
  | _ => false

theorem headerLoads_wp (hi : Imaged t inp s.mem) : Wp exec (Observed t inp rounds) headerLoads
    (fun s' => (s'.env (header .forestValuesP) 0 = 7 ∧ s'.env (header .inpValuesP) 0 = INP_VALUES_P) ∧ Keeps headerLocal s s') s := by
  have hloads : headerLoads = (List.range 7).flatMap fun i => [.const addrA i, .load (header (INIT_VARS.getD i .rounds)) addrA] := rfl
  have hdistinct : ∀ i < 7, ∀ k < i, header (INIT_VARS.getD k .rounds) ≠ header (INIT_VARS.getD i .rounds) := by decide
  apply wp_keeps
  · refine Wp.mono (Q := fun s' => s'.mem = s.mem ∧ ∀ i < 7, s'.env (header (INIT_VARS.getD i .rounds)) 0 = s.mem.getD i 0) ?_ ?_
    · rw [hloads]
      refine Wp.flatMap_range (I := fun k (s' : SymState) => s'.mem = s.mem ∧
        ∀ i < k, s'.env (header (INIT_VARS.getD i .rounds)) 0 = s.mem.getD i 0) ?_ ⟨rfl, fun i h => absurd h (Nat.not_lt_zero i)⟩
      intro k hk s₁ ⟨hmem₁, hval₁⟩
      have hlen := hi.header
      refine wp_const (by rw [WORD]; omega) fun s₂ h₂ => ?_
      have hword : s₂.mem[k]? = some (s.mem.getD k 0) := by
        rw [h₂.mem, hmem₁, List.getElem?_eq_getElem (by omega), List.getD_eq_getElem _ _ (by omega)]
      refine wp_load (h₂.val 0 (by decide)) hword (by rw [INP_VALUES_P]; omega) fun s₃ h₃ => ?_
      refine ⟨h₃.mem.trans (h₂.mem.trans hmem₁), fun i hik => ?_⟩
      rcases Nat.lt_succ_iff_lt_or_eq.mp hik with hik | rfl
      · rw [h₃.env _ (hdistinct k hk i hik), h₂.env _ (by simp), hval₁ i hik]
      · exact h₃.val 0 (by decide)
    · rintro s' ⟨-, h⟩
      refine ⟨(h 4 (by decide)).trans ?_, (h 6 (by decide)).trans ?_⟩
      · rw [List.getD, hi.forestValuesP, Option.getD_some]
      · rw [List.getD, hi.inpValuesP, Option.getD_some]
  · simp [headerLoads, INIT_VARS, headerLocal]

def valueLocal : Name → Bool
  | val _ | addrA => true
  | _ => false

theorem valueLoads_wp (hi : Imaged t inp s.mem) (h8 : s.env eight 0 = 8) (h0 : s.env (constVec 0) 0 = 0)
    (hp : s.env (header .inpValuesP) 0 = INP_VALUES_P) : Wp exec (Observed t inp rounds) (valueLoads 32)
    (fun s' => (∀ g < 32, ∀ j < VLEN, s'.env (val g) j = inp.values.getD (g * VLEN + j) 0) ∧ Keeps valueLocal s s') s := by
  apply wp_keeps
  · refine wp_add (v := INP_VALUES_P) ?_ (by decide) fun s₁ h₁ => ?_
    · show s.env (header .inpValuesP) 0 + s.env (constVec 0) 0 = _
      rw [hp, h0, Nat.add_zero]
    refine (Wp.flatMap_range (I := fun k (s' : SymState) => s'.mem = s.mem ∧ s'.env eight 0 = 8 ∧
      (k < 32 → s'.env addrA 0 = INP_VALUES_P + k * VLEN) ∧ ∀ g < k, ∀ j < VLEN, s'.env (val g) j = inp.values.getD (g * VLEN + j) 0)
      ?_ ⟨h₁.mem, ?_, fun _ => h₁.val 0 (by decide), fun g h => absurd h (Nat.not_lt_zero g)⟩).mono fun s' h => h.2.2.2
    · rintro k hk s₂ ⟨hmem₂, h8₂, ha₂, hval₂⟩
      refine wp_vLoad (ha₂ hk) (v := fun j => inp.values.getD (k * VLEN + j) 0) (fun j hj => ?_) (.inr ⟨k, hk, rfl, rfl⟩) fun s₃ h₃ => ?_
      · rw [hmem₂, Nat.add_assoc, hi.val _ (by rw [VLEN] at hj ⊢; omega)]
      have hval₃ : ∀ g < k + 1, ∀ j < VLEN, s₃.env (val g) j = inp.values.getD (g * VLEN + j) 0 := by
        intro g hg j hj
        rcases Nat.lt_succ_iff_lt_or_eq.mp hg with hg | rfl
        · rw [h₃.env _ (by simp only [ne_eq, Name.val.injEq]; omega), hval₂ g hg j hj]
        · exact h₃.val j hj
      have h8₃ : s₃.env eight 0 = 8 := by rw [h₃.env _ (by simp), h8₂]
      have ha₃ : s₃.env addrA 0 = INP_VALUES_P + k * VLEN := by rw [h₃.env _ (by simp), ha₂ hk]
      split
      · refine wp_add (v := INP_VALUES_P + (k + 1) * VLEN) ?_ (by rw [INP_VALUES_P, WORD, VLEN]; omega) fun s₄ h₄ => ?_
        · show s₃.env addrA 0 + s₃.env eight 0 = _
          rw [ha₃, h8₃, VLEN]
          omega
        · refine ⟨h₄.mem.trans (h₃.mem.trans hmem₂), by rw [h₄.env _ (by simp), h8₃], fun _ => h₄.val 0 (by decide), fun g hg j hj => ?_⟩
          rw [h₄.env _ (by simp), hval₃ g hg j hj]
      · exact ⟨h₃.mem.trans hmem₂, h8₃, fun h => by omega, hval₃⟩
    · rw [h₁.env _ (by simp), h8]
  · intro o ho
    simp only [valueLoads, List.mem_cons, List.mem_flatMap] at ho
    rcases ho with rfl | ⟨k, -, rfl | ho⟩
    · simp [valueLocal]
    · simp [valueLocal]
    · split at ho
      · simp [List.mem_singleton.mp ho, valueLocal]
      · cases ho

/-- The broadcasts of scalar constants; `seen` are those that have been loaded. -/
theorem broadcasts_wp {l : List (Name × Nat)} {seen : List Nat} (hnodup : (l.map Prod.fst).Nodup) (hvec : ∀ p ∈ l, ∀ v, p.1 ≠ .constScalar v)
    (hlt : ∀ p ∈ l, p.2 < WORD) (hseen : ∀ v ∈ seen, s.env (Name.constScalar v) 0 = v) :
    Wp exec (Observed t inp rounds) (broadcasts l seen) (fun s' => (∀ p ∈ l, ∀ j < VLEN, s'.env p.1 j = p.2) ∧
      s'.mem = s.mem ∧ ∀ n : Name, n ∉ l.map Prod.fst → (∀ v, n ≠ .constScalar v) → s'.env n = s.env n) s := by
  induction l generalizing s seen with
  | nil => exact ⟨fun p hp => absurd hp List.not_mem_nil, rfl, fun _ _ _ => rfl⟩
  | cons p l ih =>
      obtain ⟨vec, value⟩ := p
      obtain ⟨hnew, hnodup⟩ := List.nodup_cons.mp hnodup
      -- the broadcast and the rest, once the scalar is there
      have hrest : ∀ {seen : List Nat} {s₁ : SymState}, (∀ v ∈ seen, s₁.env (Name.constScalar v) 0 = v) → value ∈ seen →
          s₁.mem = s.mem → (∀ n : Name, (∀ v, n ≠ .constScalar v) → s₁.env n = s.env n) →
          Wp exec (Observed t inp rounds) (.vBroadcast vec (Name.constScalar value) :: broadcasts l seen)
            (fun s' => (∀ p ∈ (vec, value) :: l, ∀ j < VLEN, s'.env p.1 j = p.2) ∧ s'.mem = s.mem ∧
              ∀ n : Name, n ∉ ((vec, value) :: l).map Prod.fst → (∀ v, n ≠ .constScalar v) → s'.env n = s.env n) s₁ := by
        intro seen s₁ hseen₁ hv hmem₁ henv₁
        refine wp_vBroadcast (hseen₁ value hv) fun s₂ h₂ => ?_
        have hseen₂ : ∀ v ∈ seen, s₂.env (Name.constScalar v) 0 = v := by
          intro v hv
          rw [h₂.env _ fun h => hvec _ List.mem_cons_self v h.symm, hseen₁ v hv]
        refine (ih hnodup (fun p hp => hvec p (by simp [hp])) (fun p hp => hlt p (by simp [hp])) hseen₂).mono ?_
        rintro s' ⟨hval, hmem, henv⟩
        refine ⟨?_, hmem.trans (h₂.mem.trans hmem₁), fun n hn hns => ?_⟩
        · rintro p (_ | ⟨_, hp⟩) j hj
          · rw [henv vec hnew (hvec _ List.mem_cons_self), h₂.val j hj]
          · exact hval p hp j hj
        · simp only [List.map_cons, List.mem_cons, not_or] at hn
          rw [henv n hn.2 hns, h₂.env n hn.1, henv₁ n hns]
      rw [broadcasts]
      split
      · next hv => exact hrest hseen hv rfl fun _ _ => rfl
      · refine wp_const (hlt _ List.mem_cons_self) fun s₁ h₁ => hrest ?_ List.mem_cons_self h₁.mem fun n hn => h₁.env n (hn value)
        rintro v (_ | ⟨_, hv⟩)
        · exact h₁.val 0 (by decide)
        · by_cases heq : v = value
          · rw [heq]
            exact h₁.val 0 (by decide)
          · rw [h₁.env _ (by simp [heq]), hseen v hv]

end loads
section small

variable {tg : Toggles} {t : Tree} {f : Sym → Nat} {mem : List Nat} {known : List Nat}

abbrev QuietWp (mem : List Nat) : List (Op Operand) → ((Sym → Nat) → Prop) → (Sym → Nat) → Prop := LaneWp mem 0 0 fun _ _ => False

/-- The small constants that are in place: those loaded, and the computed ones in `known`. -/
def Known (tg : Toggles) (known : List Nat) (f : Sym → Nat) : Prop :=
  ∀ v, v ∈ known ∨ (v ∈ SMALL_CONSTS ∧ v ∉ tg.computedConsts) → f (constVec v) = v

def smallLocal (n : Name) : Bool := n ∈ (64 :: 16896 :: SMALL_CONSTS).map constVec

theorem computed_lane {v : Nat} {ops : List (Op Operand)} (hk : Known tg known f) (hv : v ∈ SMALL_CONSTS) (h64 : 64 ∉ known)
    (hops : v ∈ tg.computedConsts → QuietWp mem ops (fun f' => f' (constVec v) = v) f)
    (hw : ∀ o ∈ ops, o.Writes fun n => n = constVec v || n = constVec 64) :
    QuietWp mem (computed tg v ops) (fun f' => Known tg (v :: known) f' ∧ Frame smallLocal f f') f := by
  unfold computed
  split
  · next hc =>
      refine (LaneWp.frame (hops hc) hw).mono ?_
      rintro f' ⟨hval, hframe⟩
      refine ⟨fun u hu => ?_, hframe.mono fun n hn => ?_⟩
      · by_cases heq : u = v
        · rw [heq, hval]
        · have hu64 : u ≠ 64 := by
            rintro rfl
            rcases hu with hu | hu
            · rcases List.mem_cons.mp hu with hu | hu
              · exact heq hu
              · exact h64 hu
            · exact absurd hu.1 (by decide)
          rw [hframe (constVec u) (by simp [heq, hu64])]
          exact hk u (hu.imp_left fun hu => (List.mem_cons.mp hu).resolve_left heq)
      · simp only [Bool.or_eq_true, decide_eq_true_eq] at hn
        rcases hn with rfl | rfl
        · exact decide_eq_true (List.mem_map_of_mem (List.mem_cons_of_mem _ (List.mem_cons_of_mem _ hv)))
        · rfl
  · next hc =>
      refine ⟨fun u hu => ?_, .refl _ f⟩
      rcases hu with hu | hu
      · rcases List.mem_cons.mp hu with rfl | hu
        · exact hk u (.inr ⟨hv, hc⟩)
        · exact hk u (.inl hu)
      · exact hk u (.inr hu)

theorem computed_elem {op : AluOp} {v a b : Nat} (hk : Known tg known f) (hv : v ∈ SMALL_CONSTS) (h64 : 64 ∉ known) (ha : a ∈ known)
    (hb : b ∈ known) (hop : aluOp op a b = .ok v) : QuietWp mem (computed tg v [.vecElem op (constVec v) (constVec a) (constVec b)])
      (fun f' => Known tg (v :: known) f' ∧ Frame smallLocal f f') f := by
  have ha := hk a (.inl ha)
  have hb := hk b (.inl hb)
  refine computed_lane hk hv h64 (fun _ => ?_) ?_
  · simp [Wp.cons, LaneObs, Op.lanewise, Op.laneStep, Op.lane, Op.dest?, Operand.base, ha, hb, hop]
  · simp [Op.Writes, Op.dest?, Operand.base]

theorem smallConsts_lane (hk : Known tg [0] f) : QuietWp mem (smallConsts tg) (fun f' =>
    ((∀ v ∈ 0 :: SMALL_CONSTS, f' (constVec v) = v) ∧ (tg.fuseHashStages23 → f' (constVec 16896) = 16896)) ∧ Frame smallLocal f f') f := by
  simp only [smallConsts, Wp.append]
  refine (computed_elem hk (by decide) (by decide) (by decide) (by decide) rfl).mono ?_
  rintro f₁ ⟨hk₁, k₁⟩
  refine (computed_elem hk₁ (by decide) (by decide) (by decide) (by decide) rfl).mono ?_
  rintro f₂ ⟨hk₂, k₂⟩
  refine (computed_elem hk₂ (by decide) (by decide) (by decide) (by decide) rfl).mono ?_
  rintro f₃ ⟨hk₃, k₃⟩
  refine (computed_elem hk₃ (by decide) (by decide) (by decide) (by decide) rfl).mono ?_
  rintro f₉ ⟨hk₉, k₉⟩
  refine (computed_elem hk₉ (by decide) (by decide) (by decide) (by decide) rfl).mono ?_
  rintro f₁₆ ⟨hk₁₆, k₁₆⟩
  refine (computed_elem hk₁₆ (by decide) (by decide) (by decide) (by decide) rfl).mono ?_
  rintro f₁₉ ⟨hk₁₉, k₁₉⟩
  have h16 : f₁₉ (constVec 16) = 16 := hk₁₉ 16 (.inl (by decide))
  have h2 : f₁₉ (constVec 2) = 2 := hk₁₉ 2 (.inl (by decide))
  have h1 : f₁₉ (constVec 1) = 1 := hk₁₉ 1 (.inl (by decide))
  refine (computed_lane hk₁₉ (v := 33) (by decide) (by decide) (fun _ => ?_) ?_).mono ?_
  · simp [Wp.cons, LaneObs, Op.lanewise, Op.laneStep, Op.lane, Op.dest?, Operand.base, h16, h2, h1, WORD]
  · simp [Op.Writes, Op.dest?, Operand.base]
  rintro f₃₃ ⟨hk₃₃, k₃₃⟩
  have h16 : f₃₃ (constVec 16) = 16 := hk₃₃ 16 (.inl (by decide))
  have h2 : f₃₃ (constVec 2) = 2 := hk₃₃ 2 (.inl (by decide))
  have h1 : f₃₃ (constVec 1) = 1 := hk₃₃ 1 (.inl (by decide))
  -- 4097 is made over 64, which is no constant of its own
  refine (computed_lane hk₃₃ (v := 4097) (by decide) (by decide) (fun _ => ?_) ?_).mono ?_
  · simp [Wp.cons, LaneObs, Op.lanewise, Op.laneStep, Op.lane, Op.dest?, Operand.base, aluOp, h16, h2, h1, WORD]
  · simp [Op.Writes, Op.dest?, Operand.base]
  rintro f' ⟨hk', k'⟩
  have hall : ∀ v ∈ 0 :: SMALL_CONSTS, f' (constVec v) = v := fun v hv => hk' v (.inl (by revert v; decide))
  have k : Frame smallLocal f f' := (((((((k₁.trans k₂).trans k₃).trans k₉).trans k₁₆).trans k₁₉).trans k₃₃).trans k')
  split
  · have h33 : f' (constVec 33) = 33 := hall 33 (by decide)
    have h9 : f' (constVec 9) = 9 := hall 9 (by decide)
    refine (LaneWp.frame (Q := fun f'' => f'' (constVec 16896) = 16896) (W := fun n => n = constVec 16896) ?_ ?_).mono ?_
    · simp [Wp.cons, LaneObs, Op.lanewise, Op.laneStep, Op.lane, Op.dest?, Operand.base, aluOp, h33, h9, WORD]
    · simp [Op.Writes, Op.dest?, Operand.base]
    · rintro f'' ⟨hval, hframe⟩
      refine ⟨⟨fun v hv => ?_, fun _ => hval⟩, k.trans (hframe.mono fun n hn => ?_)⟩
      · rw [hframe (constVec v) (by revert v; decide), hall v hv]
      · rw [of_decide_eq_true hn]
        rfl
  · next hfuse => exact ⟨⟨hall, fun h => absurd h hfuse⟩, k⟩

def offsetLocal : Name → Bool
  | .negFp1 | .posFp _ => true
  | _ => false

theorem offsets_lane (hsmall : ∀ v ∈ 0 :: SMALL_CONSTS, f (constVec v) = v) (hp : f Name.forestP = 7) : QuietWp mem offsets
    (fun f' => (f' Name.negFp1 = WORD - 6 ∧ f' (Name.posFp 7) = 14) ∧ Frame offsetLocal f f') f := by
  have h1 : f (constVec 1) = 1 := hsmall 1 (by decide)
  have h2 : f (constVec 2) = 2 := hsmall 2 (by decide)
  have h3 : f (constVec 3) = 3 := hsmall 3 (by decide)
  have hneg : aluOp .sub 1 7 = .ok (WORD - 6) := rfl
  have h5 : aluOp .add 2 3 = .ok 5 := rfl
  have h12 : aluOp .add 5 7 = .ok 12 := rfl
  have h4 : aluOp .add 2 2 = .ok 4 := rfl
  have h7 : aluOp .add 4 3 = .ok 7 := rfl
  have h14 : aluOp .add 7 7 = .ok 14 := rfl
  apply LaneWp.frame
  · simp [offsets, Wp.cons, LaneObs, Op.lanewise, Op.laneStep, Op.lane, Op.dest?, Operand.base, h1, h2, h3, hp, hneg, h5, h12, h4, h7, h14]
  · simp [offsets, Op.Writes, Op.dest?, Operand.base, offsetLocal]

end small
section trees

open SymState

variable {t : Tree} {inp : Input} {rounds : Nat} {s : SymState}

/-- The vector of node `i` holds it, in every lane. -/
def HasNode (t : Tree) (i : Nat) (s : SymState) : Prop := ∀ j < VLEN, s.env (tree i) j = t.values.getD i 0

def treeLocal : Name → Bool
  | tree _ => true
  | _ => false

theorem treeBroadcasts_wp {n : Nat} {d : Nat → Nat} {p : Name} (hp : treeLocal p = false) (hval : ∀ i < n, s.env p i = t.values.getD (d i) 0) :
    Wp exec (Observed t inp rounds) ((List.range n).map fun i => .vBroadcast (tree (d i)) (p.lane i))
      (fun s' => (∀ k, HasNode t k s ∨ (∃ i < n, d i = k) → HasNode t k s') ∧ Keeps treeLocal s s') s := by
  have hne : ∀ k, p ≠ tree k := fun k h => by
    rw [h] at hp
    cases hp
  apply wp_keeps
  · rw [List.map_eq_flatMap]
    refine (Wp.flatMap_range (I := fun k (s' : SymState) => s'.env p = s.env p ∧
      ∀ m, HasNode t m s ∨ (∃ i < k, d i = m) → HasNode t m s') ?_ ⟨rfl, ?_⟩).mono fun s' h => h.2
    · rintro k hk s₁ ⟨hp₁, hnode₁⟩
      refine wp_vBroadcast (v := t.values.getD (d k) 0) ?_ fun s₂ h₂ => ⟨by rw [h₂.env _ (hne _), hp₁], fun m hm => ?_⟩
      · show s₁.env p (k + 0) = _
        rw [hp₁, Nat.add_zero, hval k hk]
      · by_cases hmk : m = d k
        · intro j hj
          rw [hmk, h₂.val j hj]
        · intro j hj
          rw [h₂.env _ (by simp [hmk])]
          refine hnode₁ m (hm.imp_right fun ⟨i, hi, him⟩ => ⟨i, ?_, him⟩) j hj
          rcases Nat.lt_succ_iff_lt_or_eq.mp hi with hi | rfl
          · exact hi
          · exact absurd him.symm hmk
    · rintro m (hm | ⟨i, hi, -⟩)
      · exact hm
      · cases hi
  · simp [treeLocal]

def treeLoadLocal : Name → Bool
  | tree _ | .treePreload _ | addrA => true
  | _ => false

theorem treeLoads_wp (hi : Imaged t inp s.mem) (h8 : s.env eight 0 = 8) (h0 : s.env (constVec 0) 0 = 0)
    (hp : s.env (header .forestValuesP) 0 = 7) : Wp exec (Observed t inp rounds) treeLoads (fun s' =>
      ((∀ k < 15, HasNode t k s') ∧ s'.env addrA 0 = 15 ∧ s'.env (Name.treePreload 2) 7 = t.values.getD 15 0) ∧ Keeps treeLoadLocal s s') s := by
  apply wp_keeps
  · simp only [treeLoads, List.append_assoc, List.cons_append, List.nil_append]
    refine wp_add (v := 7) ?_ (by decide) fun s₁ h₁ => ?_
    · show s.env (header .forestValuesP) 0 + s.env (constVec 0) 0 = 7
      rw [hp, h0]
    refine wp_vLoad (h₁.val 0 (by decide)) (v := fun j => t.values.getD j 0) (fun j hj => ?_) (.inl (by decide)) fun s₂ h₂ => ?_
    · rw [h₁.mem]
      exact hi.node j (by rw [VLEN] at hj; omega)
    have ha₂ : s₂.env addrA 0 = 7 := by rw [h₂.env _ (by simp), h₁.val 0 (by decide)]
    refine wp_add (v := 15) ?_ (by decide) fun s₃ h₃ => ?_
    · show s₂.env addrA 0 + s₂.env eight 0 = 15
      rw [ha₂, h₂.env _ (by simp), h₁.env _ (by simp), h8]
    refine wp_vLoad (h₃.val 0 (by decide)) (v := fun j => t.values.getD (8 + j) 0) (fun j hj => ?_) (.inl (by decide)) fun s₄ h₄ => ?_
    · rw [h₃.mem, h₂.mem, h₁.mem, show 15 + j = 7 + (8 + j) by omega]
      exact hi.node _ (by rw [VLEN] at hj; omega)
    have hpl0 : ∀ j < VLEN, s₄.env (Name.treePreload 0) j = t.values.getD j 0 := by
      intro j hj
      rw [h₄.env _ (by simp), h₃.env _ (by simp), h₂.val j hj]
    refine Wp.append.mpr ((treeBroadcasts_wp (d := fun i => i) (p := .treePreload 0) rfl fun i hi => hpl0 i (by rw [VLEN]; omega)).mono ?_)
    rintro s₅ ⟨hn₅, k₅⟩
    refine wp_vBroadcast (v := t.values.getD 7 0) ?_ fun s₆ h₆ => ?_
    · show s₅.env (Name.treePreload 0) 7 = _
      rw [k₅.env _ rfl, hpl0 7 (by decide)]
    have hpl2 : ∀ j < VLEN, s₆.env (Name.treePreload 2) j = t.values.getD (8 + j) 0 := by
      intro j hj
      rw [h₆.env _ (by simp), k₅.env _ rfl, h₄.val j hj]
    refine (treeBroadcasts_wp (d := fun i => 8 + i) (p := .treePreload 2) rfl fun i hi => hpl2 i (by rw [VLEN]; omega)).mono ?_
    rintro s' ⟨hn, k⟩
    refine ⟨fun m hm => hn m ?_, ?_, ?_⟩
    · by_cases h8 : 8 ≤ m
      · exact .inr ⟨m - 8, by omega, by omega⟩
      · refine .inl fun j hj => ?_
        by_cases h7 : m = 7
        · rw [h7, h₆.val j hj]
        · rw [h₆.env _ (by simp [h7])]
          exact hn₅ m (.inr ⟨m, by omega, rfl⟩) j hj
    · rw [k.env _ rfl, h₆.env _ (by simp), k₅.env _ rfl, h₄.env _ (by simp), h₃.val 0 (by decide)]
    · rw [k.env _ rfl, hpl2 7 (by decide)]
  · simp [treeLoads, or_imp, forall_and, treeLoadLocal]

theorem level4Loads_wp (hi : Imaged t inp s.mem) (h8 : s.env eight 0 = 8) (ha : s.env addrA 0 = 15)
    (hpl2 : s.env (Name.treePreload 2) 7 = t.values.getD 15 0) (htop : ∀ k < 15, HasNode t k s) :
    Wp exec (Observed t inp rounds) level4Loads (fun s' => (∀ k < 31, HasNode t k s') ∧ Keeps treeLoadLocal s s') s := by
  apply wp_keeps
  · simp only [level4Loads, List.cons_append, List.nil_append]
    refine wp_add (v := 23) ?_ (by decide) fun s₁ h₁ => ?_
    · show s.env addrA 0 + s.env eight 0 = 23
      rw [ha, h8]
    refine wp_vLoad (h₁.val 0 (by decide)) (v := fun j => t.values.getD (16 + j) 0) (fun j hj => ?_) (.inl (by decide)) fun s₂ h₂ => ?_
    · rw [h₁.mem, show 23 + j = 7 + (16 + j) by omega]
      exact hi.node _ (by rw [VLEN] at hj; omega)
    refine wp_add (v := 31) ?_ (by decide) fun s₃ h₃ => ?_
    · show s₂.env addrA 0 + s₂.env eight 0 = 31
      rw [h₂.env _ (by simp), h₁.val 0 (by decide), h₂.env _ (by simp), h₁.env _ (by simp), h8]
    refine wp_vLoad (h₃.val 0 (by decide)) (v := fun j => t.values.getD (24 + j) 0) (fun j hj => ?_) (.inl (by decide)) fun s₄ h₄ => ?_
    · rw [h₃.mem, h₂.mem, h₁.mem, show 31 + j = 7 + (24 + j) by omega]
      exact hi.node _ (by rw [VLEN] at hj; omega)
    refine wp_vBroadcast (v := t.values.getD 15 0) ?_ fun s₅ h₅ => ?_
    · show s₄.env (Name.treePreload 2) 7 = _
      rw [h₄.env _ (by simp), h₃.env _ (by simp), h₂.env _ (by simp), h₁.env _ (by simp), hpl2]
    have h₁₅ : ∀ k < 16, HasNode t k s₅ := by
      intro k hk j hj
      by_cases heq : k = 15
      · rw [heq, h₅.val j hj]
      · rw [h₅.env _ (by simp [heq]), h₄.env _ (by simp), h₃.env _ (by simp), h₂.env _ (by simp), h₁.env _ (by simp)]
        exact htop k (by omega) j hj
    refine Wp.append.mpr ((treeBroadcasts_wp (d := fun i => 15 + (1 + i)) (p := .treePreload 3) rfl fun i hi => ?_).mono ?_)
    · rw [h₅.env _ (by simp), h₄.env _ (by simp), h₃.env _ (by simp), h₂.val i hi, show 16 + i = 15 + (1 + i) by omega]
    rintro s₆ ⟨hn₆, k₆⟩
    refine (treeBroadcasts_wp (d := fun i => 15 + (9 + i)) (p := .treePreload 4) rfl fun i hi => ?_).mono ?_
    · rw [k₆.env _ rfl, h₅.env _ (by simp), h₄.val i (by rw [VLEN]; omega), show 24 + i = 15 + (9 + i) by omega]
    rintro s' ⟨hn, -⟩ m hm
    apply hn
    by_cases h24 : 24 ≤ m
    · exact .inr ⟨m - 24, by omega, by omega⟩
    · refine .inl (hn₆ m ?_)
      by_cases h16 : 16 ≤ m
      · exact .inr ⟨m - 16, by omega, by omega⟩
      · exact .inl (h₁₅ m (by omega))
  · simp [level4Loads, or_imp, forall_and, treeLoadLocal]

end trees
section assembly

open SymState

variable {tg : Toggles} {t : Tree} {inp : Input} {rounds : Nat} {s : SymState}

theorem wp_quiet {os : List (Op Operand)} {Q : Nat → (Sym → Nat) → Prop} (h : ∀ j < VLEN, QuietWp s.mem os (Q j) (s.lane j)) :
    Wp exec (Observed t inp rounds) os (fun s' => s'.mem = s.mem ∧ ∀ j < VLEN, Q j (s'.lane j)) s :=
  wp_lanes (observed_of_lanes (r := 0) (g := 0) (E := fun _ _ _ => False) fun _ _ _ _ h => h.elim) h

/-- Where the shared vectors come from. -/
theorem constOf_cases {n : Name} {v : Nat} (h : constOf tg t n = some v) :
    ((n, v) ∈ vecBcasts tg ∧ smallLocal n = false ∧ offsetLocal n = false) ∨
    (n = constVec v ∧ (v ∈ 0 :: SMALL_CONSTS ∨ v = 16896 ∧ tg.fuseHashStages23 = true)) ∨ (n = .negFp1 ∧ v = WORD - 6) ∨
    (n = .posFp 7 ∧ v = 14) ∨
    ∃ i, n = tree i ∧ (i < 15 ∨ (i < 31 ∧ 0 < tg.preloadL4Groups ∧ !tg.preloadL4Jit)) ∧ v = t.values.getD i 0 := by
  unfold constOf at h
  split at h
  case h_1 u =>
    split at h
    · next hu =>
        cases h
        exact .inr (.inl ⟨rfl, hu⟩)
    · cases h
  case h_10 => exact .inr (.inr (.inl ⟨rfl, (Option.some.inj h).symm⟩))
  case h_11 => exact .inr (.inr (.inr (.inl ⟨rfl, (Option.some.inj h).symm⟩)))
  case h_12 i =>
    split at h
    · next hi => exact .inr (.inr (.inr (.inr ⟨i, rfl, hi, (Option.some.inj h).symm⟩)))
    · cases h
  case h_13 => cases h
  all_goals
    left
    cases hfuse : tg.fuseHashStages23 <;> simp [hfuse, C5, HASH_STAGES] at h <;> subst h <;> simp [vecBcasts, hfuse, smallLocal, offsetLocal]

def constLocal : Name → Bool
  | constVec v => v ≠ 0
  | .constScalar _ | .K _ | .K2S9 | .negFp1 | .posFp _ => true
  | _ => false

theorem vecBcasts_local {p : Name × Nat} (h : p ∈ vecBcasts tg) : constLocal p.1 = true ∧ (∀ v, p.1 ≠ .constScalar v) ∧ p.2 < WORD := by
  have hsmall : ∀ v ∈ SMALL_CONSTS, v ≠ 0 ∧ v < WORD := by decide
  simp only [vecBcasts, List.mem_append, List.mem_map, List.mem_filter] at h
  rcases h with (h | h) | ⟨v, ⟨hv, -⟩, rfl⟩
  · revert p
    simp [constLocal, WORD]
  · revert p
    cases tg.fuseHashStages23 <;> simp [constLocal, WORD, FUSED23_ADD1, FUSED23_ADD2, HASH_STAGES]
  · simp [constLocal, hsmall v hv]

theorem vecBcasts_nodup : ((vecBcasts tg).map Prod.fst).Nodup := by
  have hsmall : ((SMALL_CONSTS.filter (· ∉ tg.computedConsts)).map constVec).Nodup :=
    List.Nodup.map (fun _ _ h => Name.constVec.inj h) (List.Nodup.filter _ (by decide))
  simp only [vecBcasts, List.map_append, List.map_map]
  rw [List.nodup_append]
  refine ⟨?_, hsmall, ?_⟩
  · cases tg.fuseHashStages23 <;> decide
  · intro n hn m hm
    obtain ⟨v, -, rfl⟩ := List.mem_map.mp hm
    revert n
    cases tg.fuseHashStages23 <;> simp

/-- The constants and the offsets, on top of the broadcast of `forest_values_p`. -/
theorem constants_wp (h0 : ∀ j < VLEN, s.env (constVec 0) j = 0) (hp : ∀ j < VLEN, s.env Name.forestP j = 7) :
    Wp exec (Observed t inp rounds) (broadcasts (vecBcasts tg) [] ++ (smallConsts tg ++ offsets)) (fun s' => s'.mem = s.mem ∧
      ∀ j < VLEN, (∀ n v, constOf tg t n = some v → treeLocal n = false → s'.lane j n = v) ∧ Frame constLocal (s.lane j) (s'.lane j)) s := by
  refine Wp.append.mpr ((broadcasts_wp vecBcasts_nodup (fun p hp => (vecBcasts_local hp).2.1) (fun p hp => (vecBcasts_local hp).2.2)
    fun v hv => absurd hv List.not_mem_nil).mono ?_)
  rintro s₁ ⟨hval₁, hmem₁, henv₁⟩
  have k₁ : ∀ j, Frame constLocal (s.lane j) (s₁.lane j) := by
    intro j n hn
    refine congrFun (henv₁ n (fun hmem => ?_) fun v hv => ?_) j
    · obtain ⟨p, hp, rfl⟩ := List.mem_map.mp hmem
      rw [(vecBcasts_local hp).1] at hn
      cases hn
    · rw [hv] at hn
      cases hn
  have hknown : ∀ j < VLEN, Known tg [0] (s₁.lane j) := by
    rintro j hj v (hv | ⟨hv, hc⟩)
    · rw [List.mem_singleton.mp hv]
      exact (k₁ j _ rfl).trans (h0 j hj)
    · refine hval₁ (constVec v, v) ?_ j hj
      exact List.mem_append_right _ (List.mem_map.mpr ⟨v, List.mem_filter.mpr ⟨hv, decide_eq_true hc⟩, rfl⟩)
  rw [← hmem₁]
  refine (wp_quiet (Q := fun j f' => (∀ n v, constOf tg t n = some v → treeLocal n = false → f' n = v) ∧
    Frame constLocal (s₁.lane j) f') fun j hj => ?_).mono fun s' h => ⟨h.1, fun j hj => ⟨(h.2 j hj).1, (k₁ j).trans (h.2 j hj).2⟩⟩
  refine Wp.append.mpr ((smallConsts_lane (hknown j hj)).mono ?_)
  rintro f₂ ⟨⟨hsmall, hfused⟩, k₂⟩
  refine (offsets_lane hsmall ?_).mono ?_
  · rw [k₂ _ rfl, k₁ j _ rfl]
    exact hp j hj
  rintro f₃ ⟨⟨hneg, hpos⟩, k₃⟩
  have hk₂ : ∀ n, smallLocal n = true → constLocal n = true := by
    intro n hn
    obtain ⟨v, hv, rfl⟩ := List.mem_map.mp (of_decide_eq_true hn)
    exact (by decide : ∀ v ∈ 64 :: 16896 :: SMALL_CONSTS, constLocal (constVec v) = true) v hv
  have hk₃ : ∀ n, offsetLocal n = true → constLocal n = true := by
    intro n hn
    cases n with
    | negFp1 | posFp i => rfl
    | _ => cases hn
  refine ⟨fun n v hn hnt => ?_, (k₂.mono hk₂).trans (k₃.mono hk₃)⟩
  rcases constOf_cases hn with ⟨hb, hs, ho⟩ | ⟨rfl, hv⟩ | ⟨rfl, rfl⟩ | ⟨rfl, rfl⟩ | ⟨i, rfl, -⟩
  · rw [k₃ n ho, k₂ n hs]
    exact hval₁ (n, v) hb j hj
  · rw [k₃ _ rfl]
    rcases hv with hv | ⟨rfl, hf⟩
    · exact hsmall v hv
    · exact hfused hf
  · exact hneg
  · exact hpos
  · cases hnt

theorem trees_wp (hi : Imaged t inp s.mem) (h8 : s.env eight 0 = 8) (h0 : s.env (constVec 0) 0 = 0)
    (hp : s.env (header .forestValuesP) 0 = 7) :
    Wp exec (Observed t inp rounds) (treeLoads ++ if tg.preloadL4Groups > 0 ∧ !tg.preloadL4Jit then level4Loads else []) (fun s' =>
      (∀ i, i < 15 ∨ (i < 31 ∧ 0 < tg.preloadL4Groups ∧ !tg.preloadL4Jit) → HasNode t i s') ∧ Keeps treeLoadLocal s s') s := by
  refine Wp.append.mpr ((treeLoads_wp hi h8 h0 hp).mono ?_)
  rintro s₁ ⟨⟨hnode, ha, hpl⟩, k₁⟩
  split
  · refine (level4Loads_wp (k₁.mem ▸ hi) (by rw [k₁.env _ rfl, h8]) ha hpl hnode).mono ?_
    rintro s' ⟨hnode', k⟩
    exact ⟨fun i hi => hnode' i (by omega), k₁.trans k⟩
  · next hno => exact ⟨fun i hi => hnode i (hi.resolve_right fun h => hno h.2), k₁⟩

structure Primed (tg : Toggles) (t : Tree) (s : SymState) : Prop where
  consts : ∀ j < VLEN, Consts tg t (s.lane j)
  eight : s.env eight 0 = 8
  forestValuesP : s.env (header .forestValuesP) 0 = 7

theorem prologue_wp (mem : List Nat) (hi : Imaged t inp mem) : Wp exec (Observed t inp rounds) (prologue tg 32) (fun s' => Primed tg t s' ∧
    s'.env (header .inpValuesP) 0 = INP_VALUES_P ∧ (∀ g < 32, ∀ j < VLEN, s'.env (val g) j = inp.values.getD (g * VLEN + j) 0) ∧
    s'.mem = mem) ⟨.zero, mem⟩ := by
  simp only [prologue, List.append_assoc, List.cons_append, List.nil_append]
  refine wp_const (v := 8) (by decide) fun s₁ h₁ => ?_
  refine Wp.append.mpr ((headerLoads_wp (h₁.mem ▸ hi)).mono ?_)
  rintro s₂ ⟨⟨hp, hv⟩, k₂⟩
  have h8₂ : s₂.env eight 0 = 8 := by rw [k₂.env _ rfl, h₁.val 0 (by decide)]
  have h0₂ : ∀ j, s₂.env (constVec 0) j = 0 := by
    intro j
    rw [k₂.env _ rfl, h₁.env _ (by simp)]
    rfl
  have hmem₂ : s₂.mem = mem := k₂.mem.trans h₁.mem
  refine Wp.append.mpr ((valueLoads_wp (hmem₂ ▸ hi) h8₂ (h0₂ 0) hv).mono ?_)
  rintro s₃ ⟨hval, k₃⟩
  refine wp_vBroadcast (v := 7) ?_ fun s₄ h₄ => ?_
  · show s₃.env (header .forestValuesP) 0 = 7
    rw [k₃.env _ rfl, hp]
  have h0₄ : ∀ j, s₄.env (constVec 0) j = 0 := by
    intro j
    rw [h₄.env _ (by simp), k₃.env _ rfl, h0₂]
  have hmem₄ : s₄.mem = mem := h₄.mem.trans (k₃.mem.trans hmem₂)
  rw [← List.append_assoc, ← List.append_assoc]
  refine Wp.append.mpr ?_
  rw [List.append_assoc]
  refine (constants_wp (fun j _ => h0₄ j) h₄.val).mono ?_
  rintro s₅ ⟨hmem₅, hconst⟩
  have k₅ : ∀ n, constLocal n = false → ∀ j < VLEN, s₅.env n j = s₄.env n j := fun n hn j hj => (hconst j hj).2 n hn
  have hscalar : ∀ n : Name, constLocal n = false → valueLocal n = false → n ≠ .forestP → s₅.env n 0 = s₂.env n 0 := by
    intro n hc hv hn
    rw [k₅ n hc 0 (by decide), h₄.env n hn, k₃.env n hv]
  refine (trees_wp (hmem₅.trans hmem₄ ▸ hi) ((hscalar eight rfl rfl (by simp)).trans h8₂) ((hscalar _ rfl rfl (by simp)).trans (h0₂ 0))
    ((hscalar (header .forestValuesP) rfl rfl (by simp)).trans hp)).mono ?_
  rintro s' ⟨hnode, k'⟩
  refine ⟨⟨fun j hj n v hn => ?_, ?_, ?_⟩, ?_, fun g hg j hj => ?_, k'.mem.trans (hmem₅.trans hmem₄)⟩
  · cases hnt : treeLocal n with
    | true =>
        cases n with
        | tree i =>
            rw [constOf] at hn
            split at hn
            · next hi =>
                cases hn
                exact hnode i hi j hj
            · cases hn
        | _ => cases hnt
    | false =>
        have hkeep : treeLoadLocal n = false := by
          cases n with
          | tree i => cases hnt
          | treePreload i | addrA => cases hn
          | _ => rfl
        exact (k'.lane j n hkeep).trans ((hconst j hj).1 n v hn hnt)
  · rw [k'.env _ rfl, hscalar eight rfl rfl (by simp), h8₂]
  · rw [k'.env _ rfl, hscalar (header .forestValuesP) rfl rfl (by simp), hp]
  · rw [k'.env _ rfl, hscalar (header .inpValuesP) rfl rfl (by simp), hv]
  · rw [k'.env _ rfl, k₅ _ rfl j hj, h₄.env _ (by simp), hval g hg j hj]

end assembly
end Vliw
