import VliwKernel.Kernel.Correct
import VliwKernel.Semantics.Flow

/-!
# What flows through the kernel

Under the shipped toggles the stream reads only what it has written, loads the values of each group once, and what it
stores for a group comes from that load.
-/

namespace Vliw

open Name (val addr path outAddr tree tree0Xor5 nv constVec eight header addrA K l4PlA l4PlB l4Addr)

def IsValue (x : Sym) : Prop := ∃ g, x = val g

abbrev FlowWp : List (Op Operand) → (Flow → Prop) → Flow → Prop := Wp Flow.step (Flow.Sound PINNED IsValue)

namespace Flow

section ops

variable {F : Flow} {n m : Name} {a b c : Operand} {op : AluOp} {s x : Sym}

theorem isPinned_iff : isPinned PINNED n = true ↔ n = constVec 0 := by
  have hname : (constVec 0).sym.name = "const_vec_0" := rfl
  refine ⟨fun h => ?_, fun h => by rw [h]; rfl⟩
  have heq : n.sym.name = (constVec 0).sym.name := by simpa [isPinned, PINNED, hname] using h
  have hdecode := congrArg (fun cs : String => Name.decode cs.toList) heq
  simpa only [Name.decode_sym, Option.some.injEq] using hdecode

theorem sound_iff {o : Op Operand} (hd : o.dest? = some (Operand.sym n)) (hl : ¬ o.IsVLoad) (hs : o.engine ≠ .store) :
    Sound PINNED IsValue F o ↔ (∀ a ∈ o.readOperands, F.defined a.base) ∧ n ≠ constVec 0 := by
  constructor
  · intro h
    refine ⟨h.reads, fun hn => ?_⟩
    have := h.writes n ⟨_, hd, rfl⟩
    rw [isPinned_iff.mpr hn] at this
    cases this
  · rintro ⟨hr, hn⟩
    refine ⟨hr, fun x hx => ?_, fun x h => absurd h hl, fun a v h => by subst h; exact absurd rfl hs⟩
    obtain ⟨d, hd', rfl⟩ := hx
    cases hd.symm.trans hd'
    rw [← Bool.not_eq_true]
    exact fun h => hn (isPinned_iff.mp h)

@[simp] theorem sound_alu : Sound PINNED IsValue F (.alu op n a b) ↔ (F.defined a.base ∧ F.defined b.base) ∧ n ≠ constVec 0 := by
  rw [sound_iff (n := n) rfl (by simp [Op.IsVLoad]) (by simp [Op.engine])]
  simp [Op.readOperands]

@[simp] theorem sound_vecElem : Sound PINNED IsValue F (.vecElem op n a b) ↔ (F.defined a.base ∧ F.defined b.base) ∧ n ≠ constVec 0 := by
  rw [sound_iff (n := n) rfl (by simp [Op.IsVLoad]) (by simp [Op.engine])]
  simp [Op.readOperands]

@[simp] theorem sound_vecFma :
    Sound PINNED IsValue F (.vecFma n a b c) ↔ (F.defined a.base ∧ F.defined b.base ∧ F.defined c.base) ∧ n ≠ constVec 0 := by
  rw [sound_iff (n := n) rfl (by simp [Op.IsVLoad]) (by simp [Op.engine])]
  simp [Op.readOperands]

@[simp] theorem sound_vSelect :
    Sound PINNED IsValue F (.vSelect n a b c) ↔ (F.defined a.base ∧ F.defined b.base ∧ F.defined c.base) ∧ n ≠ constVec 0 := by
  rw [sound_iff (n := n) rfl (by simp [Op.IsVLoad]) (by simp [Op.engine])]
  simp [Op.readOperands]

@[simp] theorem sound_vBroadcast : Sound PINNED IsValue F (.vBroadcast n a) ↔ F.defined a.base ∧ n ≠ constVec 0 := by
  rw [sound_iff (n := n) rfl (by simp [Op.IsVLoad]) (by simp [Op.engine])]
  simp [Op.readOperands]

@[simp] theorem sound_const {v : Int} : Sound PINNED IsValue F (.const n v) ↔ n ≠ constVec 0 := by
  rw [sound_iff (n := n) rfl (by simp [Op.IsVLoad]) (by simp [Op.engine])]
  simp [Op.readOperands]

@[simp] theorem sound_load : Sound PINNED IsValue F (.load n a) ↔ F.defined a.base ∧ n ≠ constVec 0 := by
  rw [sound_iff (n := n) rfl (by simp [Op.IsVLoad]) (by simp [Op.engine])]
  simp [Op.readOperands]

@[simp] theorem sound_gather : Sound PINNED IsValue F (.gather n a) ↔ F.defined a.base ∧ n ≠ constVec 0 := by
  rw [sound_iff (n := n) rfl (by simp [Op.IsVLoad]) (by simp [Op.engine])]
  simp [Op.readOperands]

@[simp] theorem sound_debugVCompare {keys : List TraceKey} : Sound PINNED IsValue F (.debugVCompare a keys) ↔ F.defined a.base := by
  constructor
  · exact fun h => h.reads a (by simp [Op.readOperands])
  · intro h
    refine ⟨by simpa [Op.readOperands] using h, fun x hx => ?_, fun x h => ?_, fun a v h => by cases h⟩
    · obtain ⟨d, hd, -⟩ := hx
      cases hd
    · obtain ⟨d, a, h⟩ := h
      cases h

@[simp] theorem sound_vLoad : Sound PINNED IsValue F (.vLoad n a) ↔ F.defined a.base ∧ n ≠ constVec 0 ∧ ((∃ g, n = val g) → ¬ F.defined n) := by
  have hw : ∀ x, (Op.vLoad n a : Op Operand).WritesTo x ↔ n.sym = x := by simp [Op.WritesTo, Op.dest?, Operand.base]
  constructor
  · intro h
    refine ⟨h.reads a (by simp [Op.readOperands]), fun hn => ?_, fun hv => h.loads n ⟨_, _, rfl⟩ ((hw _).mpr rfl) (hv.imp fun _ => congrArg Name.sym)⟩
    have := h.writes n ((hw _).mpr rfl)
    rw [isPinned_iff.mpr hn] at this
    cases this
  · rintro ⟨ha, hn, hl⟩
    refine ⟨by simpa [Op.readOperands] using ha, fun x hx => ?_, fun x _ hx hv => ?_, fun a v h => by cases h⟩
    · rw [← (hw x).mp hx, ← Bool.not_eq_true]
      exact fun h => hn (isPinned_iff.mp h)
    · obtain ⟨g, rfl⟩ := hv
      have hng : n = val g := Name.sym_inj.mp ((hw _).mp hx)
      rw [← hng]
      exact hl ⟨g, hng⟩

@[simp] theorem sound_vStore : Sound PINNED IsValue F (.vStore a b) ↔
    (F.defined a.base ∧ F.defined b.base) ∧ ¬ F.stored a.base ∧ F.derived b.base b.base := by
  constructor
  · exact fun h => ⟨⟨h.reads a (by simp [Op.readOperands]), h.reads b (by simp [Op.readOperands])⟩, h.stores a b rfl⟩
  · rintro ⟨⟨ha, hb⟩, hst⟩
    refine ⟨by simp [Op.readOperands, ha, hb], fun x hx => ?_, fun x h => ?_, fun a' v' h => by cases h; exact hst⟩
    · obtain ⟨d, hd, -⟩ := hx
      cases hd
    · obtain ⟨d, a, h⟩ := h
      cases h

theorem next_defined {o : Op Operand} (hd : o.dest? = some (Operand.sym n)) : (F.next o).defined m ↔ F.defined m ∨ n = m := by
  simp [next, Op.WritesTo, hd, Operand.base]

/-- Outside of `W` nothing changes, and nothing is stored. -/
structure Kept (W : Name → Bool) (F F' : Flow) : Prop where
  mono : ∀ x, F.defined x → F'.defined x
  defined : ∀ n : Name, W n = false → (F'.defined n ↔ F.defined n)
  derived : ∀ s (n : Name), W n = false → F.derived s n → F'.derived s n
  stored : F'.stored = F.stored

theorem Kept.refl (W : Name → Bool) (F : Flow) : Kept W F F := ⟨fun _ h => h, fun _ _ => .rfl, fun _ _ _ h => h, rfl⟩

theorem Kept.trans {W : Name → Bool} {F' F'' : Flow} (h : Kept W F F') (h' : Kept W F' F'') : Kept W F F'' where
  mono x hx := h'.mono x (h.mono x hx)
  defined n hn := (h'.defined n hn).trans (h.defined n hn)
  derived s n hn hd := h'.derived s n hn (h.derived s n hn hd)
  stored := h'.stored.trans h.stored

theorem next_kept {W : Name → Bool} {o : Op Operand} (ho : SymState.Local W o) : Kept W F (F.next o) := by
  obtain ⟨hst, hw⟩ := ho
  have hno : ∀ n : Name, W n = false → ¬ o.WritesTo n := by
    rintro n hn ⟨d, hd, hdn⟩
    obtain ⟨m, hm, hW⟩ := hw d hd
    rw [hdn, Name.sym_inj] at hm
    rw [← hm, hn] at hW
    cases hW
  refine ⟨fun x h => .inl h, fun n hn => or_iff_left (hno n hn), fun s n hn h => .inr ⟨hno n hn, h⟩, ?_⟩
  funext x
  refine propext (or_iff_left ?_)
  rintro ⟨a, v, rfl, -⟩
  exact hst rfl

theorem wp_kept {W : Name → Bool} {os : List (Op Operand)} {Q : Flow → Prop} (h : FlowWp os Q F) (ho : ∀ o ∈ os, SymState.Local W o) :
    FlowWp os (fun F' => Q F' ∧ Kept W F F') F :=
  h.inv (I := Kept W F) (fun hi hs hk => by cases hs; exact hk.trans (next_kept (ho _ hi))) (.refl W F)

theorem wp_mono {os : List (Op Operand)} {Q : Flow → Prop} (h : FlowWp os Q F) :
    FlowWp os (fun F' => Q F' ∧ ∀ x, F.defined x → F'.defined x) F :=
  h.inv (I := fun F' => ∀ x, F.defined x → F'.defined x) (fun _ hs hk => by cases hs; exact fun x hx => .inl (hk x hx)) fun _ h => h

theorem wp_cons {o : Op Operand} {os : List (Op Operand)} {Q : Flow → Prop} (hd : o.dest? = some (Operand.sym n)) (hP : Sound PINNED IsValue F o)
    (hQ : ∀ F' : Flow, (∀ x, F.defined x → F'.defined x) → F'.defined n → FlowWp os Q F') : FlowWp (o :: os) Q F :=
  ⟨hP, F.next o, rfl, hQ _ (fun _ h => .inl h) ((next_defined hd).mpr (.inr rfl))⟩

@[simp] theorem defined_next {o : Op Operand} : (F.next o).defined x ↔ F.defined x ∨ o.WritesTo x := .rfl

end ops
section prologue

variable {F : Flow}

theorem headerLoads_flow : FlowWp headerLoads (fun F' => (∀ v, F'.defined (header v)) ∧ Kept headerLocal F F') F := by
  apply wp_kept
  · simp [headerLoads, INIT_VARS, Wp.cons, step, Op.WritesTo, Op.dest?, Operand.base]
    intro v
    cases v <;> simp
  · simp [headerLoads, INIT_VARS, headerLocal]

/-- The values of the first `k` groups are loaded, and no others. -/
structure Loaded (k : Nat) (F : Flow) : Prop where
  cursor : F.defined addrA
  step : F.defined eight
  values : ∀ g < k, F.defined (val g) ∧ F.derived (val g) (val g)
  rest : ∀ g, k ≤ g → ¬ F.defined (val g)

theorem Loaded.load {k : Nat} (h : Loaded k F) : Loaded (k + 1) (F.next (.vLoad (val k) addrA)) := by
  have hw : ∀ n : Name, (Op.vLoad (val k) addrA : Op Operand).WritesTo n ↔ val k = n := by simp [Op.WritesTo, Op.dest?, Operand.base]
  refine ⟨.inl h.cursor, .inl h.step, fun g hg => ?_, fun g hg => ?_⟩
  · rcases Nat.lt_succ_iff_lt_or_eq.mp hg with hg | rfl
    · obtain ⟨hdef, hder⟩ := h.values g hg
      exact ⟨.inl hdef, .inr ⟨by rw [hw, Name.val.injEq]; omega, hder⟩⟩
    · have hval := (hw (val g)).mpr rfl
      exact ⟨.inr hval, .inl ⟨hval, .inl ⟨⟨_, _, rfl⟩, rfl⟩⟩⟩
  · rw [defined_next, hw, Name.val.injEq]
    exact not_or.mpr ⟨h.rest g (by omega), by omega⟩

theorem Loaded.add {k : Nat} (h : Loaded k F) (a b : Operand) : Loaded k (F.next (.alu .add addrA a b)) := by
  have hw : ∀ g, ¬ (Op.alu .add addrA a b : Op Operand).WritesTo (val g) := by simp [Op.WritesTo, Op.dest?, Operand.base]
  refine ⟨.inl h.cursor, .inl h.step, fun g hg => ?_, fun g hg => ?_⟩
  · obtain ⟨hdef, hder⟩ := h.values g hg
    exact ⟨.inl hdef, .inr ⟨hw g, hder⟩⟩
  · exact not_or.mpr ⟨h.rest g hg, hw g⟩

theorem valueLoads_flow (h8 : F.defined eight) (h0 : F.defined (constVec 0)) (hp : F.defined (header .inpValuesP))
    (hnew : ∀ g, ¬ F.defined (val g)) :
    FlowWp (valueLoads 32) (fun F' => (∀ g < 32, F'.defined (val g) ∧ F'.derived (val g) (val g)) ∧ Kept valueLocal F F') F := by
  apply wp_kept
  · refine ⟨by simp [Name.lane, Operand.base, hp, h0], F.next (.alu .add addrA (header .inpValuesP) ((constVec 0).lane 0)), rfl, ?_⟩
    refine (Wp.flatMap_range (I := Loaded) ?_ ?_).mono fun F' h => h.values
    · rintro k hk F₁ h
      refine ⟨by simp [Operand.base, h.cursor, h.rest k], F₁.next (.vLoad (val k) addrA), rfl, ?_⟩
      split
      · exact ⟨by simp [Operand.base, h.cursor, h.step], _, rfl, h.load.add _ _⟩
      · exact h.load
    · refine ⟨.inr ⟨_, rfl, rfl⟩, .inl h8, fun g hg => absurd hg (Nat.not_lt_zero g), fun g _ => ?_⟩
      simp [Op.WritesTo, Op.dest?, Operand.base, hnew g]
  · intro o ho
    simp only [valueLoads, List.mem_cons, List.mem_flatMap] at ho
    rcases ho with rfl | ⟨k, -, rfl | ho⟩
    · simp [valueLocal]
    · simp [valueLocal]
    · split at ho
      · simp [List.mem_singleton.mp ho, valueLocal]
      · cases ho

theorem broadcasts_flow {l : List (Name × Nat)} {seen : List Nat} (hl : ∀ p ∈ l, p.1 ≠ constVec 0)
    (hseen : ∀ v ∈ seen, F.defined (Name.constScalar v)) :
    FlowWp (broadcasts l seen) (fun F' => (∀ x, F.defined x → F'.defined x) ∧ ∀ p ∈ l, F'.defined p.1) F := by
  induction l generalizing F seen with
  | nil => exact ⟨fun _ h => h, fun p hp => absurd hp List.not_mem_nil⟩
  | cons p l ih =>
      obtain ⟨vec, value⟩ := p
      -- the broadcast and the rest, once the scalar is there
      have hrest : ∀ {seen : List Nat} {F₁ : Flow}, (∀ v ∈ seen, F₁.defined (Name.constScalar v)) → value ∈ seen →
          (∀ x, F.defined x → F₁.defined x) → FlowWp (.vBroadcast vec (Name.constScalar value) :: broadcasts l seen)
            (fun F' => (∀ x, F.defined x → F'.defined x) ∧ ∀ p ∈ (vec, value) :: l, F'.defined p.1) F₁ := by
        intro seen F₁ hseen₁ hv hF₁
        refine wp_cons (n := vec) rfl (sound_vBroadcast.mpr ⟨hseen₁ value hv, hl _ List.mem_cons_self⟩) fun F₂ hF₂ hvec => ?_
        refine (ih (fun p hp => hl p (by simp [hp])) fun v hv => hF₂ _ (hseen₁ v hv)).mono ?_
        rintro F' ⟨hF', hall⟩
        refine ⟨fun x hx => hF' x (hF₂ x (hF₁ x hx)), ?_⟩
        rintro p (_ | ⟨_, hp⟩)
        · exact hF' _ hvec
        · exact hall p hp
      rw [broadcasts]
      split
      · next hv => exact hrest hseen hv fun _ h => h
      · refine wp_cons (n := Name.constScalar value) rfl (by simp) fun F₁ hF₁ hdef => hrest ?_ List.mem_cons_self hF₁
        rintro v (_ | ⟨_, hv⟩)
        · exact hdef
        · exact hF₁ _ (hseen v hv)

theorem constants_flow (h0 : F.defined (constVec 0)) (hp : F.defined Name.forestP) : FlowWp (smallConsts .shipped ++ offsets) (fun F' =>
    (∀ v ∈ 16896 :: SMALL_CONSTS, F'.defined (constVec v)) ∧ F'.defined Name.negFp1 ∧ F'.defined (Name.posFp 7)) F := by
  simp [smallConsts, computed, Toggles.shipped, SMALL_CONSTS, offsets, Wp.cons, step, Op.WritesTo, Op.dest?, Operand.base, h0, hp]

theorem treeLoads_flow (h0 : F.defined (constVec 0)) (h8 : F.defined eight) (hp : F.defined (header .forestValuesP)) :
    FlowWp treeLoads (fun F' => ∀ i < 15, F'.defined (tree i)) F := by
  simp [treeLoads, Name.lane, List.range_succ, Wp.cons, step, Op.WritesTo, Op.dest?, Operand.base, h0, h8, hp]
  omega

def others : Name → Bool
  | val _ => false
  | _ => true

theorem broadcasts_local {l : List (Name × Nat)} {seen : List Nat} (hl : ∀ p ∈ l, others p.1 = true) :
    ∀ o ∈ broadcasts l seen, SymState.Local others o := by
  induction l generalizing seen with
  | nil => simp [broadcasts]
  | cons p l ih =>
      have hp := hl p List.mem_cons_self
      have hrest : ∀ seen, ∀ o ∈ broadcasts l seen, SymState.Local others o := fun _ => ih fun p hp => hl p (by simp [hp])
      have hscalar : others (Name.constScalar p.2) = true := rfl
      rw [broadcasts]
      split
      · simpa [hp] using hrest _
      · simpa [hp, hscalar] using hrest _

/-- What the rounds find defined. -/
structure Primed (t : Tree) (F : Flow) : Prop where
  consts : ∀ n v, constOf .shipped t n = some v → F.defined n
  eight : F.defined eight
  forestValuesP : F.defined (header .forestValuesP)

variable {t : Tree}

theorem Primed.mono {F' : Flow} (h : Primed t F) (hF : ∀ x, F.defined x → F'.defined x) : Primed t F' :=
  ⟨fun n v hn => hF _ (h.consts n v hn), hF _ h.eight, hF _ h.forestValuesP⟩

/-- The constants and the top of the tree. -/
theorem constants_primed (h0 : F.defined (constVec 0)) (h8 : F.defined eight) (hp : F.defined (header .forestValuesP)) :
    FlowWp (.vBroadcast Name.forestP (header .forestValuesP) :: (broadcasts (vecBcasts .shipped) [] ++ ((smallConsts .shipped ++ offsets) ++ treeLoads)))
      (Primed t) F := by
  refine wp_cons (n := Name.forestP) rfl (by simp [Operand.base, hp]) fun F₁ hF₁ hforest => ?_
  refine Wp.append.mpr ((broadcasts_flow (by decide) fun v hv => absurd hv List.not_mem_nil).mono ?_)
  rintro F₂ ⟨hF₂, hvec⟩
  refine Wp.append.mpr ((wp_mono (constants_flow (hF₂ _ (hF₁ _ h0)) (hF₂ _ hforest))).mono ?_)
  rintro F₃ ⟨⟨hconst, hneg, hpos⟩, hF₃⟩
  have hF : ∀ x, F.defined x → F₃.defined x := fun x hx => hF₃ x (hF₂ x (hF₁ x hx))
  refine (wp_mono (treeLoads_flow (hF _ h0) (hF _ h8) (hF _ hp))).mono ?_
  rintro F' ⟨htree, hF'⟩
  refine ⟨fun n v hn => ?_, hF' _ (hF _ h8), hF' _ (hF _ hp)⟩
  rcases constOf_cases hn with ⟨hb, -, -⟩ | ⟨rfl, hv⟩ | ⟨rfl, -⟩ | ⟨rfl, -⟩ | ⟨i, rfl, hi, -⟩
  · exact hF' _ (hF₃ _ (hvec _ hb))
  · by_cases h : v = 0
    · rw [h]
      exact hF' _ (hF _ h0)
    · refine hF' _ (hconst v ?_)
      rcases hv with hv | ⟨rfl, -⟩
      · exact List.mem_cons_of_mem _ ((List.mem_cons.mp hv).resolve_left h)
      · exact List.mem_cons_self
  · exact hF' _ hneg
  · exact hF' _ hpos
  · exact htree i (hi.resolve_right (by simp [Toggles.shipped]))

theorem prologue_flow : FlowWp (prologue .shipped 32) (fun F' => Primed t F' ∧ F'.defined (header .inpValuesP) ∧
    (∀ g < 32, F'.defined (val g) ∧ F'.derived (val g) (val g)) ∧ F'.stored = fun _ => False) (init PINNED) := by
  have hno : ¬ (Toggles.shipped.preloadL4Groups > 0 ∧ !Toggles.shipped.preloadL4Jit) := by simp [Toggles.shipped]
  have hnames : ∀ p ∈ vecBcasts .shipped, others p.1 = true := by decide
  simp only [prologue, if_neg hno, List.append_nil, List.append_assoc, List.cons_append, List.nil_append]
  refine ⟨by simp, _, rfl, ?_⟩
  refine Wp.append.mpr (headerLoads_flow.mono ?_)
  rintro F₂ ⟨hheader, k₂⟩
  have h0 : F₂.defined (constVec 0) := k₂.mono _ (.inl (isPinned_iff.mpr rfl))
  have h8 : F₂.defined eight := k₂.mono _ (.inr ⟨_, rfl, rfl⟩)
  have hnew : ∀ g, ¬ F₂.defined (val g) := by
    intro g
    rw [k₂.defined (val g) rfl]
    simp [Op.WritesTo, Op.dest?, Operand.base, init, isPinned_iff]
  refine Wp.append.mpr ((valueLoads_flow h8 h0 (hheader _) hnew).mono ?_)
  rintro F₃ ⟨hval, k₃⟩
  refine (wp_kept (W := others) (constants_primed (t := t) (k₃.mono _ h0) (k₃.mono _ h8) (k₃.mono _ (hheader _))) ?_).mono ?_
  · have hconsts : ∀ o ∈ smallConsts .shipped ++ offsets ++ treeLoads, SymState.Local others o := by
      simp [smallConsts, computed, Toggles.shipped, offsets, treeLoads, or_imp, forall_and, others]
    simp only [List.mem_cons, List.mem_append]
    rintro o (rfl | ho | ho)
    · simp [others]
    · exact broadcasts_local hnames o ho
    · exact hconsts o (by simpa only [List.mem_append] using ho)
  · rintro F' ⟨hprimed, k'⟩
    refine ⟨hprimed, k'.mono _ (k₃.mono _ (hheader _)), fun g hg => ⟨k'.mono _ (hval g hg).1, k'.derived _ (val g) rfl (hval g hg).2⟩, ?_⟩
    rw [k'.stored, k₃.stored, k₂.stored]
    funext x
    simp [next, init]

end prologue
section hash

variable {T : HashTable} {fuse deferC5 : Bool} {F : Flow} {r g base : Nat} {fma irr : Dict Nat Sym} {ops : List (Op Operand)}

theorem hashSlots_flow (hval : F.defined (val g)) (hder : F.derived (val g) (val g)) (hfma : ∀ k x, fma.get? k = some x → F.defined x)
    (hirr : ∀ k x, irr.get? k = some x → F.defined x) {hi : Nat} {st : HashStage}
    (hok : hashSlots (val g) (Name.t 1) (Name.t 2) r base fma irr deferC5 hi st = .ok ops) :
    FlowWp ops (fun F' => F'.derived (val g) (val g) ∧ Kept (hashLocal g) F F') F := by
  unfold hashSlots at hok
  split at hok
  · obtain ⟨shift, hs, hok⟩ := bind_eq_ok.mp hok
    cases hok
    have hs := hirr _ _ (lookup_eq_ok.mp hs)
    apply wp_kept
    · simp [Wp.cons, step, next, Op.WritesTo, Op.dest?, Operand.base, Op.readOperands, Op.IsVLoad, hval, hder, hs]
    · simp [hashLocal]
  · split at hok
    · obtain ⟨mult, hm, hok⟩ := bind_eq_ok.mp hok
      obtain ⟨addend, ha, hok⟩ := bind_eq_ok.mp hok
      cases hok
      have hm := hfma _ _ (lookup_eq_ok.mp hm)
      have ha := hfma _ _ (lookup_eq_ok.mp ha)
      apply wp_kept
      · simp [Wp.cons, step, next, Op.WritesTo, Op.dest?, Operand.base, Op.readOperands, Op.IsVLoad, hval, hder, hm, ha]
      · simp [hashLocal]
    · obtain ⟨k, hk, hok⟩ := bind_eq_ok.mp hok
      obtain ⟨shift, hs, hok⟩ := bind_eq_ok.mp hok
      cases hok
      have hk := hirr _ _ (lookup_eq_ok.mp hk)
      have hs := hirr _ _ (lookup_eq_ok.mp hs)
      apply wp_kept
      · simp [Wp.cons, step, next, Op.WritesTo, Op.dest?, Operand.base, Op.readOperands, Op.IsVLoad, hval, hder, hk, hs]
      · simp [hashLocal]

theorem fusedSlots_flow (hval : F.defined (val g)) (hder : F.derived (val g) (val g)) (hfma : ∀ k x, fma.get? k = some x → F.defined x)
    (hok : fusedSlots T (val g) (Name.t 1) (Name.t 2) r base fma = .ok ops) :
    FlowWp ops (fun F' => F'.derived (val g) (val g) ∧ Kept (hashLocal g) F F') F := by
  obtain ⟨m2, hm2, hok⟩ := bind_eq_ok.mp hok
  obtain ⟨add1, ha1, hok⟩ := bind_eq_ok.mp hok
  obtain ⟨mult, hm, hok⟩ := bind_eq_ok.mp hok
  obtain ⟨add2, ha2, hok⟩ := bind_eq_ok.mp hok
  cases hok
  have hm2 := hfma _ _ (lookup_eq_ok.mp hm2)
  have ha1 := hfma _ _ (lookup_eq_ok.mp ha1)
  have hm := hfma _ _ (lookup_eq_ok.mp hm)
  have ha2 := hfma _ _ (lookup_eq_ok.mp ha2)
  apply wp_kept
  · simp [Wp.cons, step, next, Op.WritesTo, Op.dest?, Operand.base, Op.readOperands, Op.IsVLoad, hval, hder, hm2, ha1, hm, ha2]
  · simp [hashLocal]

theorem hashLoop_flow (hval : F.defined (val g)) (hder : F.derived (val g) (val g)) (hfma : ∀ k x, fma.get? k = some x → F.defined x)
    (hirr : ∀ k x, irr.get? k = some x → F.defined x) {n hi : Nat}
    (hok : hashLoop T fuse (val g) (Name.t 1) (Name.t 2) r base fma irr deferC5 n hi = .ok ops) :
    FlowWp ops (fun F' => F'.derived (val g) (val g) ∧ Kept (hashLocal g) F F') F := by
  induction n generalizing hi F ops with
  | zero =>
      cases hok
      exact ⟨hder, .refl _ F⟩
  | succ n ih =>
      -- the rest of the loop, after the slots of one pass
      have hrest : ∀ {slots rest hi'}, FlowWp slots (fun F' => F'.derived (val g) (val g) ∧ Kept (hashLocal g) F F') F →
          hashLoop T fuse (val g) (Name.t 1) (Name.t 2) r base fma irr deferC5 n hi' = .ok rest →
          FlowWp (slots ++ rest) (fun F' => F'.derived (val g) (val g) ∧ Kept (hashLocal g) F F') F := by
        intro slots rest hi' hslots hrest
        refine Wp.append.mpr (hslots.mono ?_)
        rintro F₁ ⟨hder₁, k₁⟩
        refine (ih (k₁.mono _ hval) hder₁ (fun k x h => k₁.mono _ (hfma k x h)) (fun k x h => k₁.mono _ (hirr k x h)) hrest).mono ?_
        exact fun F' h => ⟨h.1, k₁.trans h.2⟩
      rw [hashLoop] at hok
      split at hok
      · split at hok
        · obtain ⟨slots, hslots, hok⟩ := bind_eq_ok.mp hok
          obtain ⟨rest, hloop, hok⟩ := bind_eq_ok.mp hok
          cases hok
          exact hrest (fusedSlots_flow hval hder hfma hslots) hloop
        · obtain ⟨slots, hslots, hok⟩ := bind_eq_ok.mp hok
          obtain ⟨rest, hloop, hok⟩ := bind_eq_ok.mp hok
          cases hok
          exact hrest (hashSlots_flow hval hder hfma hirr hslots) hloop
      · cases hok
        exact ⟨hder, .refl _ F⟩

end hash
section group

variable {t : Tree} {F F' : Flow} {r g : Nat}

structure Prepared (r : Nat) (F : Flow) : Prop where
  root : repairs .shipped 10 r = true → F.defined tree0Xor5
  level4 : level 10 r = 4 → selectsL4 .shipped 10 r = true → ∀ i < 16, F.defined (tree (15 + i))

theorem Prepared.mono (h : Prepared r F) (hF : ∀ x, F.defined x → F'.defined x) : Prepared r F' :=
  ⟨fun hr => hF _ (h.root hr), fun hl hs i hi => hF _ (h.level4 hl hs i hi)⟩

theorem Primed.node (h : Primed t F) {i : Nat} (hi : i < 15) : F.defined (tree i) := h.consts (tree i) _ (if_pos (.inl hi))

theorem Primed.small (h : Primed t F) {v : Nat} (hv : v ∈ 0 :: SMALL_CONSTS) : F.defined (constVec v) :=
  h.consts (constVec v) v (if_pos (.inl hv))

theorem nodeSlots_flow (hF : Primed t F) (hp : Prepared r F) (haddr : r ≠ 0 → F.defined (addr g))
    (hpath : ∀ l < level 10 r, F.defined (path g l)) : FlowWp (nodeSlots .shipped 10 r g).2
      (fun F' => F'.defined (nodeSlots .shipped 10 r g).1 ∧ Kept nodeLocal F F') F := by
  have hgather : level 10 r ≠ 0 → FlowWp [.gather Name.nv (addr g)] (fun F' => F'.defined Name.nv ∧ Kept nodeLocal F F') F := by
    intro hl
    apply wp_kept
    · simp [Wp.cons, step, Op.WritesTo, Op.dest?, Operand.base, haddr (Carries.ne_zero hl)]
    · simp [nodeLocal]
  unfold nodeSlots
  split
  · next hl =>
      refine ⟨?_, .refl _ F⟩
      split
      · next hr => exact hp.root (by simpa [repairs, hl] using hr)
      · exact hF.node (by decide)
  · next hl =>
      rw [hl] at hpath
      apply wp_kept
      · simp [Wp.cons, step, Op.WritesTo, Op.dest?, Operand.base, hF.node, hpath]
      · simp [nodeLocal]
  · next hl =>
      rw [hl] at hpath
      apply wp_kept
      · simp [Wp.cons, step, Op.WritesTo, Op.dest?, Operand.base, hF.node, hpath]
      · simp [nodeLocal]
  · next hl =>
      rw [hl] at hpath
      apply wp_kept
      · simp [level3Slots, Toggles.shipped, Wp.cons, step, Op.WritesTo, Op.dest?, Operand.base, hF.node, hpath]
      · simp [level3Slots, Toggles.shipped, nodeLocal]
  · next hl =>
      rw [hl] at hpath
      dsimp only
      split
      · next hsel =>
          have hnode : ∀ i, 15 ≤ i → i < 31 → F.defined (tree i) := by
            intro i hi hi'
            have := hp.level4 hl hsel.2 (i - 15) (by omega)
            rwa [Nat.add_sub_cancel' hi] at this
          apply wp_kept
          · simp [level4Slots, Wp.cons, step, Op.WritesTo, Op.dest?, Operand.base, hnode, hpath]
          · simp [level4Slots, nodeLocal]
      · exact hgather (by omega)
  · next h0 _ _ _ _ => exact hgather h0

theorem updateSlots_flow (hF : Primed t F) (hval : F.defined (val g)) (haddr : r ≠ 0 → F.defined (addr g)) :
    FlowWp (updateSlots 10 r g) (fun F' => (F'.defined (addr g) ∧ (level 10 r ≠ 10 → F'.defined (path g (level 10 r)))) ∧
      Kept (updateLocal g r) F F') F := by
  have h1 : F.defined (constVec 1) := hF.small (by decide)
  have h2 : F.defined (constVec 2) := hF.small (by decide)
  have hneg : F.defined Name.negFp1 := hF.consts .negFp1 _ rfl
  unfold updateSlots
  split
  · next hl =>
      apply wp_kept
      · simp [Wp.cons, step, Op.WritesTo, Op.dest?, Operand.base, h1, hneg, hl]
      · simp [updateLocal]
  · apply wp_kept
    · split
      · simp [Wp.cons, step, Op.WritesTo, Op.dest?, Operand.base, h1, h2, hneg, hval]
      · next hr => simp [Wp.cons, step, Op.WritesTo, Op.dest?, Operand.base, h1, h2, hneg, hval, haddr hr]
    · split <;> simp [updateLocal]

theorem Kept.mono_local {W W' : Name → Bool} (h : Kept W F F') (hW : ∀ n, W' n = false → W n = false) : Kept W' F F' :=
  ⟨h.mono, fun n hn => h.defined n (hW n hn), fun s n hn => h.derived s n (hW n hn), h.stored⟩

theorem next_compare {loc : Operand} {keys : List TraceKey} : F.next (.debugVCompare loc keys) = F := by
  simp [next, Op.WritesTo, Op.dest?]

theorem compares_flow {Q : Flow → Prop} {l : List (Name × TraceField)} {base : Nat} (hc : ∀ c ∈ l, F.defined c.1) (hQ : Q F) :
    FlowWp (l.map fun c => .debugVCompare c.1 (laneKeys r base c.2)) Q F := by
  induction l with
  | nil => exact hQ
  | cons c l ih =>
      refine ⟨sound_debugVCompare.mpr (hc c List.mem_cons_self), F, ?_, ih fun c' hc' => hc c' (by simp [hc'])⟩
      rw [step, next_compare]

theorem entry_flow {n : Name} (hval : F.defined (val g)) (hder : F.derived (val g) (val g)) (hn : F.defined n) :
    FlowWp [.vecElem .xor (val g) (val g) n] (fun F' => F'.derived (val g) (val g) ∧ Kept (hashLocal g) F F') F := by
  apply wp_kept
  · simp [Wp.cons, step, next, Op.WritesTo, Op.dest?, Operand.base, Op.readOperands, Op.IsVLoad, hval, hder, hn]
  · simp [hashLocal]

theorem Primed.dict (h : Primed t F) {l : List (Nat × Name)} (hl : ∀ p ∈ l, constOf .shipped t p.2 = some p.1) {k : Nat} {x : Sym}
    (hk : (constDict l).get? k = some x) : F.defined x := by
  obtain ⟨⟨k, n⟩, hn, heq⟩ := List.mem_map.mp (Dict.mem_of_get?_ofList hk)
  cases heq
  exact h.consts n k (hl _ hn)

theorem coreSlots_flow (hF : Primed t F) (hp : Prepared r F) (hval : F.defined (val g)) (hder : F.derived (val g) (val g))
    (haddr : r ≠ 0 → F.defined (addr g)) (hpath : ∀ l < level 10 r, F.defined (path g l)) {hash : List (Op Operand)}
    (hhash : buildVecHash HASH_STAGES (Toggles.shipped).fuseHashStages23 (val g) (Name.t 1) (Name.t 2) r (g * VLEN) (fmaVecConsts .shipped)
      irrVecConsts ((Toggles.shipped).wrapRootC5Defer && level 10 r = 10) = .ok hash) :
    FlowWp (coreSlots .shipped r g hash) (fun F' => F'.derived (val g) (val g) ∧ F'.defined (addr g) ∧
      (level 10 r ≠ 10 → F'.defined (path g (level 10 r))) ∧ Kept (groupLocal g) F F') F := by
  simp only [coreSlots, FlowWp, Wp.append]
  refine (nodeSlots_flow hF hp haddr hpath).mono ?_
  rintro F₁ ⟨hnode, k₁⟩
  have hval₁ := k₁.mono _ hval
  have hcmp : ∀ {Q : Flow → Prop}, Q F₁ → FlowWp (if repairs .shipped 10 r then [] else
      [.debugVCompare (nodeSlots .shipped 10 r g).1 (laneKeys r (g * VLEN) .nodeVal), .debugVCompare (val g) (laneKeys r (g * VLEN) .val)]) Q F₁ := by
    intro Q hQ
    split
    · exact hQ
    · exact compares_flow (l := [((nodeSlots .shipped 10 r g).1, .nodeVal), (val g, .val)]) (by simp [hnode, hval₁]) hQ
  refine hcmp ?_
  refine (entry_flow hval₁ (k₁.derived _ (val g) rfl hder) hnode).mono ?_
  rintro F₂ ⟨hder₂, k₂⟩
  have hF₂ : Primed t F₂ := hF.mono fun x hx => k₂.mono _ (k₁.mono _ hx)
  have hfma : ∀ k x, (fmaVecConsts .shipped).get? k = some x → F₂.defined x := by
    intro k x
    apply hF₂.dict
    simp [constOf, Toggles.shipped]
    decide
  have hirr : ∀ k x, (constDict (irrUsed .shipped)).get? k = some x → F₂.defined x := by
    intro k x
    apply hF₂.dict
    simp [irrUsed, constOf, Toggles.shipped]
    decide
  rw [buildVecHash_irrUsed] at hhash
  refine (hashLoop_flow (k₂.mono _ hval₁) hder₂ hfma hirr hhash).mono ?_
  rintro F₃ ⟨hder₃, k₃⟩
  have hval₃ := k₃.mono _ (k₂.mono _ hval₁)
  have hcmp₃ : ∀ {Q : Flow → Prop}, Q F₃ → FlowWp (if (Toggles.shipped).wrapRootC5Defer && level 10 r = 10 then [] else
      [.debugVCompare (val g) (laneKeys r (g * VLEN) .hashedVal)]) Q F₃ := by
    intro Q hQ
    split
    · exact hQ
    · exact compares_flow (l := [(val g, .hashedVal)]) (by simp [hval₃]) hQ
  refine hcmp₃ ?_
  refine (updateSlots_flow (hF₂.mono k₃.mono) hval₃ fun hr => k₃.mono _ (k₂.mono _ (k₁.mono _ (haddr hr)))).mono ?_
  rintro F' ⟨⟨haddr', hpath'⟩, k₄⟩
  refine ⟨k₄.derived _ (val g) ?_ hder₃, haddr', hpath', ?_⟩
  · simp [updateLocal]
  have hnodes : ∀ n, groupLocal g n = false → nodeLocal n = false := fun n hn => (Bool.or_eq_false_iff.mp (groupLocal_false hn r).1).1
  have hhashes : ∀ n, groupLocal g n = false → hashLocal g n = false := by
    intro n hn
    cases n with
    | val g' => simpa [groupLocal, hashLocal] using hn
    | t i => cases hn
    | _ => rfl
  exact (((k₁.mono_local hnodes).trans (k₂.mono_local hhashes)).trans (k₃.mono_local hhashes)).trans
    (k₄.mono_local fun n hn => (groupLocal_false hn r).2)

end group
section walk

variable {t : Tree} {F F' : Flow} {rounds r n g : Nat}

/-- What has flown when round `r` has stepped `n` groups. -/
structure Flowing (t : Tree) (rounds r n : Nat) (F : Flow) : Prop where
  primed : Primed t F
  values : ∀ g < 32, F.defined (val g) ∧ F.derived (val g) (val g)
  out : ∀ g < 32, F.defined (outAddr g)
  addr : ∀ g < 32, roundsDone r n g ≠ 0 → F.defined (addr g)
  path : ∀ g < 32, ∀ l < 10, l < roundsDone r n g → F.defined (path g l)
  stored : ∀ g < 32, roundsDone r n g < rounds → ¬ F.stored (outAddr g)

theorem Flowing.kept {W : Name → Bool} (h : Flowing t rounds r n F) (hk : Kept W F F') (hW : ∀ g, W (val g) = false) : Flowing t rounds r n F' where
  primed := h.primed.mono hk.mono
  values g hg := ⟨hk.mono _ (h.values g hg).1, hk.derived _ _ (hW g) (h.values g hg).2⟩
  out g hg := hk.mono _ (h.out g hg)
  addr g hg hr := hk.mono _ (h.addr g hg hr)
  path g hg l hl hr := hk.mono _ (h.path g hg l hl hr)
  stored g hg hr := hk.stored ▸ h.stored g hg hr

theorem Flowing.turn (h : Flowing t rounds r 32 F) : Flowing t rounds (r + 1) 0 F where
  primed := h.primed
  values := h.values
  out := h.out
  addr g hg hr := h.addr g hg (roundsDone_turn hg r ▸ hr)
  path g hg l hl hr := h.path g hg l hl (roundsDone_turn hg r ▸ hr)
  stored g hg hr := h.stored g hg (roundsDone_turn hg r ▸ hr)

theorem Flowing.step (h : Flowing t rounds r g F) (hk : Kept (groupLocal g) F F') (hder : F'.derived (val g) (val g)) (haddr : F'.defined (Name.addr g))
    (hpath : level 10 r ≠ 10 → F'.defined (Name.path g (level 10 r))) : Flowing t rounds r (g + 1) F' where
  primed := h.primed.mono hk.mono
  values g' hg' := by
    refine ⟨hk.mono _ (h.values g' hg').1, ?_⟩
    by_cases heq : g' = g
    · rw [heq]
      exact hder
    · exact hk.derived _ (val g') (decide_eq_false heq) (h.values g' hg').2
  out g' hg' := hk.mono _ (h.out g' hg')
  addr g' hg' hr := by
    by_cases heq : g' = g
    · rw [heq]
      exact haddr
    · exact hk.mono _ (h.addr g' hg' (roundsDone_of_ne heq r ▸ hr))
  path g' hg' l hl hr := by
    by_cases heq : g' = g
    · rw [heq, roundsDone, if_pos (Nat.lt_succ_self g)] at hr
      rw [heq]
      by_cases hlevel : l = level 10 r
      · rw [hlevel]
        exact hpath (by omega)
      · refine hk.mono _ (h.path g (heq ▸ hg') l hl ?_)
        rw [roundsDone, if_neg (Nat.lt_irrefl g)]
        rw [level] at hlevel
        omega
    · exact hk.mono _ (h.path g' hg' l hl (roundsDone_of_ne heq r ▸ hr))
  stored g' hg' hr := by
    rw [hk.stored]
    refine h.stored g' hg' (Nat.lt_of_le_of_lt ?_ hr)
    rw [roundsDone, roundsDone]
    split <;> split <;> omega

theorem Flowing.store (h : Flowing t rounds r (g + 1) F) (hr : r + 1 = rounds) : Flowing t rounds r (g + 1) (F.next (.vStore (outAddr g) (val g))) := by
  have hno : ∀ x, ¬ (Op.vStore (outAddr g) (val g) : Op Operand).WritesTo x := by
    rintro x ⟨d, hd, -⟩
    cases hd
  refine ⟨h.primed.mono fun _ => .inl, fun g' hg' => ⟨.inl (h.values g' hg').1, .inr ⟨hno _, (h.values g' hg').2⟩⟩, fun g' hg' => .inl (h.out g' hg'),
    fun g' hg' hd => .inl (h.addr g' hg' hd), fun g' hg' l hl hd => .inl (h.path g' hg' l hl hd), fun g' hg' hd => ?_⟩
  rintro (hst | ⟨a, v, hop, heq⟩)
  · exact h.stored g' hg' hd hst
  · cases hop
    obtain rfl : g = g' := by simpa [Operand.base] using heq
    rw [roundsDone, if_pos (Nat.lt_succ_self g)] at hd
    omega

theorem outAddrs_flow (hp : F.defined (header .inpValuesP)) :
    FlowWp (outAddrs 32) (fun F' => (∀ g < 32, F'.defined (outAddr g)) ∧ Kept outLocal F F') F := by
  apply wp_kept
  · refine (Wp.flatMap_range (I := fun k (F' : Flow) => F'.defined (header .inpValuesP) ∧ ∀ g < k, F'.defined (outAddr g)) ?_
      ⟨hp, fun g hg => absurd hg (Nat.not_lt_zero g)⟩).mono fun F' h => h.2
    rintro k hk F₁ ⟨hp₁, hout₁⟩
    refine wp_cons (n := outAddr k) rfl (by simp) fun F₂ hF₂ hk₂ => ?_
    refine wp_cons (n := outAddr k) rfl (by simp [Operand.base, hk₂, hF₂ _ hp₁]) fun F₃ hF₃ hk₃ => ?_
    refine ⟨hF₃ _ (hF₂ _ hp₁), fun g hg => ?_⟩
    rcases Nat.lt_succ_iff_lt_or_eq.mp hg with hg | rfl
    · exact hF₃ _ (hF₂ _ (hout₁ g hg))
    · exact hk₃
  · intro o ho
    simp only [outAddrs, List.mem_flatMap] at ho
    obtain ⟨k, -, ho⟩ := ho
    revert o
    simp [outLocal]

theorem roundPrelude_flow (hF : Primed t F) :
    FlowWp (roundPrelude .shipped 10 r) (fun F' => Prepared r F' ∧ Kept preludeLocal F F') F := by
  have h0 : F.defined (tree 0) := hF.node (by decide)
  have h5 : F.defined (K 5) := hF.consts (K 5) _ rfl
  refine Wp.append.mpr ?_
  refine Wp.mono (Q := fun F' => (repairs .shipped 10 r = true → F'.defined tree0Xor5) ∧ Kept preludeLocal F F') ?_ ?_
  · split
    · apply wp_kept
      · simp [Wp.cons, step, Op.WritesTo, Op.dest?, Operand.base, h0, h5]
      · simp [preludeLocal]
    · next hr => exact ⟨fun h => absurd h hr, .refl _ F⟩
  rintro F₁ ⟨hroot, k₁⟩
  split
  · have h8 := k₁.mono _ hF.eight
    have hp := k₁.mono _ hF.forestValuesP
    refine (wp_kept (W := preludeLocal) (Q := fun F' => ∀ i < 16, F'.defined (tree (15 + i))) ?_ ?_).mono ?_
    · simp [Name.lane, List.range_succ, Wp.cons, step, Op.WritesTo, Op.dest?, Operand.base, h8, hp]
      omega
    · simp [or_imp, forall_and, preludeLocal, jitLocal]
    · rintro F' ⟨htree, k'⟩
      exact ⟨⟨fun hr => k'.mono _ (hroot hr), fun _ _ => htree⟩, k₁.trans k'⟩
  · next hno => exact ⟨⟨hroot, fun hl hs => absurd ⟨by decide, rfl, hl, hs⟩ hno⟩, k₁⟩

theorem groupSlots_flow (hr : r < rounds) (hg : g < 32) (hF : Flowing t rounds r g F) (hp : Prepared r F) {ops : List (Op Operand)}
    (hok : groupSlots .shipped 10 rounds r g = .ok ops) : FlowWp ops (fun F' => Flowing t rounds r (g + 1) F' ∧ Prepared r F') F := by
  obtain ⟨hash, hhash, hslots⟩ := groupSlots_ok .shipped r g rounds
  cases hslots.symm.trans hok
  have hdone : roundsDone r g g = r := if_neg (Nat.lt_irrefl g)
  have hcore := coreSlots_flow hF.primed hp (hF.values g hg).1 (hF.values g hg).2 (fun hr => hF.addr g hg (hdone.symm ▸ hr))
    (fun l hl => hF.path g hg l (by have := level_le r; omega) (by rw [hdone]; have := Nat.mod_le r 11; rw [level] at hl; omega)) hhash
  refine Wp.append.mpr (hcore.mono ?_)
  rintro F₁ ⟨hder₁, haddr₁, hpath₁, k₁⟩
  have hstep := hF.step k₁ hder₁ haddr₁ hpath₁
  have hp₁ : Prepared r F₁ := hp.mono k₁.mono
  split
  · next hlast =>
      have hnew : ¬ F₁.stored (outAddr g) := by
        rw [k₁.stored]
        exact hF.stored g hg (hdone.symm ▸ hr)
      have hval := hstep.values g hg
      exact ⟨sound_vStore.mpr ⟨⟨hstep.out g hg, hval.1⟩, hnew, hval.2⟩, _, rfl, hstep.store (by omega), hp₁.mono fun x hx => .inl hx⟩
  · exact ⟨hstep, hp₁⟩

theorem roundSlots_flow (hr : r < rounds) (hF : Flowing t rounds r 0 F) {ops : List (Op Operand)}
    (hok : roundSlots .shipped 10 rounds r 32 = .ok ops) : FlowWp ops (Flowing t rounds (r + 1) 0) F := by
  obtain ⟨groups, hgroups, hok⟩ := bind_eq_ok.mp hok
  cases hok
  refine Wp.append.mpr ((roundPrelude_flow hF.primed).mono ?_)
  rintro F₁ ⟨hp₁, k₁⟩
  exact (Wp.flatten_range (I := fun g F' => Flowing t rounds r g F' ∧ Prepared r F') (fun g hg ops hok F h => groupSlots_flow hr hg h.1 h.2 hok)
    hgroups ⟨hF.kept k₁ fun _ => rfl, hp₁⟩).mono fun F' h => h.1.turn

theorem stream_flow {body : List (Op Operand)} (hok : bodySlots .shipped 10 32 rounds rounds = .ok body) :
    FlowWp (prologue .shipped 32 ++ body) (fun _ => True) (init PINNED) := by
  obtain ⟨rs, hrs, hok⟩ := bind_eq_ok.mp hok
  cases hok
  refine Wp.append.mpr ((prologue_flow (t := zeroTree)).mono ?_)
  rintro F₁ ⟨hprimed, hp, hval, hstored⟩
  refine Wp.append.mpr ((outAddrs_flow hp).mono ?_)
  rintro F₂ ⟨hout, k₂⟩
  refine (Wp.flatten_range (I := fun r => Flowing zeroTree rounds r 0) (fun r hr ops hok F h => roundSlots_flow hr h hok) hrs
    ⟨hprimed.mono k₂.mono, fun g hg => ⟨k₂.mono _ (hval g hg).1, k₂.derived _ (val g) rfl (hval g hg).2⟩, hout, ?_, ?_, ?_⟩).mono fun _ _ => trivial
  · exact fun g _ h => absurd (if_neg (Nat.not_lt_zero g)) h
  · intro g _ l _ h
    rw [roundsDone, if_neg (Nat.not_lt_zero g)] at h
    cases h
  · intro g _ _
    rw [k₂.stored, hstored]
    exact id

end walk

end Flow
end Vliw
