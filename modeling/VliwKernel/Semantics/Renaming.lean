import VliwKernel.Regalloc.Tagged
import VliwKernel.Semantics.InOrder

/-!
# Tags do not change the meaning

The tagged program runs in step with the original one: the current version of a symbol holds what the
symbol holds. Whole symbols are written, so a fresh version has all the lanes.
-/

namespace Vliw

variable {pinned : List String}

/-- No pause and no debug check. -/
def Op.isPlain {α : Type} : Op α → Bool
  | pause | debugVCompare .. => false
  | _ => true

/-- An instruction of straight-line code: it has an effect, its operands have the shape it needs, and it
writes a whole symbol that is not pinned, if any. -/
structure Instr.Straight (pinned : List String) (ins : Instr Operand) : Prop where
  plain : ins.op.isPlain = true
  shaped : ins.op.Shaped
  writes : ∀ {d}, ins.op.dest? = some d → isPinned pinned d.base = false ∧ ∃ x, d = .sym x

def Straight (pinned : List String) (is : List (Instr Operand)) : Prop := ∀ ins ∈ is, ins.Straight pinned

/-- Every write is of a whole symbol that is not pinned. -/
def WholeWrites (pinned : List String) (is : List (Instr Operand)) : Prop :=
  ∀ ins ∈ is, ∀ {d}, ins.op.dest? = some d → isPinned pinned d.base = false ∧ ∃ x, d = .sym x

theorem Straight.wholeWrites {is : List (Instr Operand)} (h : Straight pinned is) : WholeWrites pinned is :=
  fun ins hins _ hd => (h ins hins).writes hd

/-- Straight-line code that may also check values. -/
structure Instr.Checked (pinned : List String) (ins : Instr Operand) : Prop where
  noPause : ins.op ≠ .pause
  shaped : ins.op.Shaped
  writes : ∀ {d}, ins.op.dest? = some d → isPinned pinned d.base = false ∧ ∃ x, d = .sym x

def Checked (pinned : List String) (is : List (Instr Operand)) : Prop := ∀ ins ∈ is, ins.Checked pinned

theorem Instr.Straight.checked {ins : Instr Operand} (h : ins.Straight pinned) : ins.Checked pinned where
  noPause hp := by
    have := h.plain
    rw [hp] at this
    cases this
  shaped := h.shaped
  writes := h.writes

theorem Instr.Straight.passes {ins : Instr Operand} (h : ins.Straight pinned) (rd : Operand → Nat → Nat) (trace : TraceKey → Option Nat) :
    ins.op.Passes rd trace := by
  have hplain := h.plain
  cases hop : ins.op with
  | debugVCompare loc keys =>
      rw [hop] at hplain
      cases hplain
  | _ => trivial

theorem Straight.checked {is : List (Instr Operand)} (h : Straight pinned is) : Checked pinned is :=
  fun ins hins => (h ins hins).checked

theorem Checked.wholeWrites {is : List (Instr Operand)} (h : Checked pinned is) : WholeWrites pinned is :=
  fun ins hins _ hd => (h ins hins).writes hd

section shapes

variable {st st' : TagState} {ins ins' : Instr Operand} {is is' : List (Instr Operand)}

def TagState.SameShape (st : TagState) : Prop := ∀ {x t}, st.current x = some t → t.isVec = x.isVec

theorem shape_withBase {o : Operand} {t : Sym} (h : t.isVec = o.base.isVec) :
    (o.withBase t).isScalar = o.isScalar ∧ (o.withBase t).isVector = o.isVector := by
  cases o <;> simp_all [Operand.withBase, Operand.isScalar, Operand.isVector, Operand.base]

theorem TagState.SameShape.version (h : st.SameShape) (o : Operand) :
    (st.version pinned o).isScalar = o.isScalar ∧ (st.version pinned o).isVector = o.isVector := by
  unfold TagState.version
  split
  · exact ⟨rfl, rfl⟩
  · refine shape_withBase ?_
    cases ht : st.current o.base with
    | none => rfl
    | some t => exact h ht

theorem Op.Shaped.rebuild {op : Op Operand} (h : op.Shaped) {rd wr : Operand → Operand}
    (hr : ∀ o, (rd o).isScalar = o.isScalar ∧ (rd o).isVector = o.isVector)
    (hw : ∀ o, (wr o).isScalar = o.isScalar ∧ (wr o).isVector = o.isVector) : (op.rebuild rd wr).Shaped := by
  cases op <;> simp_all [Op.rebuild, Op.Shaped]

theorem Op.isPlain_rebuild {α β : Type} (rd wr : α → β) (op : Op α) : (op.rebuild rd wr).isPlain = op.isPlain := by
  cases op <;> rfl

theorem Op.rebuild_ne_pause {α β : Type} {op : Op α} (h : op ≠ .pause) (rd wr : α → β) : op.rebuild rd wr ≠ .pause := by
  cases op <;> simp_all [Op.rebuild]

theorem Instr.Checked.tagged (hp : NoHash pinned) (h : ins.Checked pinned) (hsh : st.SameShape)
    (ht : st.instr pinned ins = .ok (ins', st')) : ins'.Checked pinned ∧ st'.SameShape := by
  obtain ⟨st₁, hr, ht⟩ := bind_eq_ok.mp ht
  obtain ⟨hins, hst⟩ := Prod.mk.inj (Except.ok.inj ht)
  rw [hst] at hins
  obtain ⟨hc, -⟩ := TagState.read_foldlM hr
  have hsh₁ : st₁.SameShape := by
    intro x t ht
    rw [hc] at ht
    exact hsh ht
  have hsh' : st'.SameShape := by
    rcases TagState.write_cases pinned st₁ ins with ⟨-, heq⟩ | ⟨d, -, -, heq⟩
    · rw [← hst, heq]
      exact hsh₁
    · intro x t ht
      rw [← hst, heq] at ht
      dsimp only at ht
      by_cases hx : x = d.base
      · subst hx
        rw [Function.update_self] at ht
        cases ht
        rfl
      · rw [Function.update_of_ne hx] at ht
        exact hsh₁ ht
  refine ⟨⟨?_, ?_, fun {d'} hd' => ?_⟩, hsh'⟩
  · rw [← hins]
    exact Op.rebuild_ne_pause h.noPause _ _
  · rw [← hins]
    exact h.shaped.rebuild hsh₁.version hsh'.version
  · rw [← hins, TagState.dest?_rebuild, Option.map_eq_some_iff] at hd'
    obtain ⟨d, hd, rfl⟩ := hd'
    obtain ⟨hpd, x, rfl⟩ := h.writes hd
    rcases TagState.write_cases pinned st₁ ins with ⟨hd', -⟩ | ⟨d', hd', -, heq⟩
    · rw [hd' _ hd] at hpd
      cases hpd
    · cases hd.symm.trans hd'
      rw [TagState.version_of_current hpd (by rw [← hst, heq]; exact Function.update_self _ _ _)]
      exact ⟨freshTag_unpinned hp _ _, _, rfl⟩

theorem Instr.Straight.tagged (hp : NoHash pinned) (h : ins.Straight pinned) (hsh : st.SameShape)
    (ht : st.instr pinned ins = .ok (ins', st')) : ins'.Straight pinned ∧ st'.SameShape := by
  obtain ⟨hc, hsh'⟩ := h.checked.tagged hp hsh ht
  refine ⟨⟨?_, hc.shaped, hc.writes⟩, hsh'⟩
  obtain ⟨st₁, -, ht⟩ := bind_eq_ok.mp ht
  obtain ⟨rfl, -⟩ := Prod.mk.inj (Except.ok.inj ht)
  exact (Op.isPlain_rebuild ..).trans h.plain

/-- What tagging keeps of one instruction, under an invariant of its state, it keeps of all. -/
theorem TagState.instrs_forall {P : Instr Operand → Prop} {I : TagState → Prop} (hP : ∀ {st st' : TagState} {ins ins' : Instr Operand}, P ins →
      I st → st.instr pinned ins = .ok (ins', st') → P ins' ∧ I st') (h : ∀ ins ∈ is, P ins) (hI : I st)
    (ht : TagState.instrs pinned is st = .ok (is', st')) : ∀ ins ∈ is', P ins := by
  induction is generalizing st is' with
  | nil =>
      cases ht
      exact h
  | cons i is ih =>
      obtain ⟨⟨i', st₁⟩, hi, ht⟩ := bind_eq_ok.mp ht
      obtain ⟨⟨rest, st₂⟩, hrest, ht⟩ := bind_eq_ok.mp ht
      cases ht
      obtain ⟨hi', hI₁⟩ := hP (h i (by simp)) hI hi
      exact List.forall_mem_cons.mpr ⟨hi', ih (fun j hj => h j (by simp [hj])) hI₁ hrest⟩

theorem Straight.tagged (hp : NoHash pinned) (h : Straight pinned is) (hsh : st.SameShape)
    (ht : TagState.instrs pinned is st = .ok (is', st')) : Straight pinned is' :=
  TagState.instrs_forall (fun h => h.tagged hp) h hsh ht

theorem Checked.tagged (hp : NoHash pinned) (h : Checked pinned is) (hsh : st.SameShape)
    (ht : TagState.instrs pinned is st = .ok (is', st')) : Checked pinned is' :=
  TagState.instrs_forall (fun h => h.tagged hp) h hsh ht

end shapes

/-- `r` is `s` under the current versions. -/
structure Renamed (pinned : List String) (st : TagState) (s r : SymState) : Prop where
  mem : r.mem = s.mem
  zero : ∀ {x}, isPinned pinned x = true → r.env x = s.env x
  version : ∀ {x t}, isPinned pinned x = false → st.current x = some t → r.env t = s.env x
  fresh : ∀ {x t}, st.current x = some t → ∃ k < st.counter, t = freshTag x k

namespace Renamed

variable {st st' : TagState} {s s' r : SymState} {ins ins' : Instr Operand} {is is' : List (Instr Operand)}

theorem init (s : SymState) : Renamed pinned .init s s where
  mem := rfl
  zero _ := rfl
  version _ h := by cases h
  fresh h := by cases h

theorem read (h : Renamed pinned st s r) {o : Operand}
    (ho : isPinned pinned o.base = false → ∃ t, st.current o.base = some t) :
    r.env.read (st.version pinned o) = s.env.read o := by
  funext j
  cases hp : isPinned pinned o.base with
  | true => rw [TagState.version_of_pinned hp, Env.read, Env.read, h.zero hp]
  | false =>
      obtain ⟨t, ht⟩ := ho hp
      rw [TagState.version_of_current hp ht, Env.read, Env.read, Operand.base_withBase, Operand.offset_withBase,
        h.version hp ht]

/-- A tagged instruction has the operands of the original one under versions that read the same. -/
theorem rebuilt (h : Renamed pinned st s r) (ht : st.instr pinned ins = .ok (ins', st')) :
    ∃ rd wr, ins' = ⟨ins.rid, ins.op.rebuild rd wr⟩ ∧ ∀ o ∈ ins.op.readOperands, r.env.read (rd o) = s.env.read o := by
  obtain ⟨st₁, hr, ht⟩ := bind_eq_ok.mp ht
  obtain ⟨rfl, -⟩ := Prod.mk.inj (Except.ok.inj ht)
  obtain ⟨hc, -, hos, -⟩ := TagState.read_foldlM hr
  refine ⟨_, _, rfl, fun o ho => ?_⟩
  rw [TagState.version_congr hc]
  exact h.read (hos o ho)

theorem reads (h : Renamed pinned st s r) (ht : st.instr pinned ins = .ok (ins', st')) :
    (∀ mem, ins'.op.lane r.env.read mem = ins.op.lane s.env.read mem) ∧
      ins'.op.loads r.env.read = ins.op.loads s.env.read ∧ ins'.op.stores r.env.read = ins.op.stores s.env.read := by
  obtain ⟨rd, wr, rfl, hread⟩ := h.rebuilt ht
  refine ⟨fun mem => ?_, ?_, ?_⟩
  · funext j
    exact (Op.lane_rebuild ..).trans (Op.lane_congr hread j)
  · exact (Op.loads_rebuild ..).trans (Op.loads_congr hread)
  · exact (Op.stores_rebuild ..).trans (Op.stores_congr hread)

theorem passes (h : Renamed pinned st s r) (ht : st.instr pinned ins = .ok (ins', st')) {trace : TraceKey → Option Nat} :
    ins'.op.Passes r.env.read trace ↔ ins.op.Passes s.env.read trace := by
  obtain ⟨rd, wr, rfl, hread⟩ := h.rebuilt ht
  exact (Op.passes_rebuild ..).trans (Op.passes_congr hread)

theorem step (hp : NoHash pinned) (h : Renamed pinned st s r)
    (hw : ∀ {d}, ins.op.dest? = some d → isPinned pinned d.base = false ∧ ∃ x, d = .sym x)
    (ht : st.instr pinned ins = .ok (ins', st')) (hs : s.step ins = .ok s') :
    ∃ r', r.step ins' = .ok r' ∧ Renamed pinned st' s' r' := by
  obtain ⟨hlane, -, hstores⟩ := h.reads ht
  obtain ⟨vals, hvals, hs⟩ := bind_eq_ok.mp hs
  obtain ⟨mem, hmem, hs⟩ := bind_eq_ok.mp hs
  obtain ⟨st₁, hr, ht⟩ := bind_eq_ok.mp ht
  obtain ⟨hins, hst⟩ := Prod.mk.inj (Except.ok.inj ht)
  rw [hst] at hins
  obtain ⟨hc, hn, -⟩ := TagState.read_foldlM hr
  have hwidth : ins'.op.width = ins.op.width := hins ▸ Op.width_rebuild _ _ _
  have hdest : ins'.op.dest? = ins.op.dest?.map (st'.version pinned) := hins ▸ Op.dest?_rebuild _ _ _
  have hrun : r.step ins' = .ok ⟨((ins.op.dest?.map (st'.version pinned)).map fun d => r.env.write d vals).getD r.env, mem⟩ := by
    simp only [SymState.step, hlane, hstores, h.mem, hdest, hwidth, hvals, hmem, bind_ok]
  refine ⟨_, hrun, ?_⟩
  cases hs
  rcases TagState.write_cases pinned st₁ ins with ⟨hd, heq⟩ | ⟨d, hd, hpd, heq⟩
  · have hnone : ins.op.dest? = none := by
      cases hd' : ins.op.dest? with
      | none => rfl
      | some d =>
          have := (hw hd').1
          rw [hd d hd'] at this
          cases this
    obtain rfl : st₁ = st' := heq.symm.trans hst
    rw [hnone]
    refine ⟨rfl, h.zero, fun hx ht => ?_, fun ht => ?_⟩
    · rw [hc] at ht
      exact h.version hx ht
    · rw [hc] at ht
      obtain ⟨k, hk, rfl⟩ := h.fresh ht
      exact ⟨k, hn ▸ hk, rfl⟩
  · obtain ⟨-, x, rfl⟩ := hw hd
    obtain rfl := heq.symm.trans hst
    rw [hd, Option.map_some, Option.map_some, Option.map_some, Option.getD_some, Option.getD_some,
      TagState.version_of_current hpd (Function.update_self _ _ _)]
    simp only [Operand.base, Operand.withBase, Env.write]
    refine ⟨rfl, fun {y} hy => ?_, fun {y t} hy ht => ?_, fun {y t} ht => ?_⟩
    · dsimp only
      rw [Function.update_of_ne, Function.update_of_ne, h.zero hy]
      · rintro rfl
        rw [show isPinned pinned y = false from hpd] at hy
        cases hy
      · rintro rfl
        rw [freshTag_unpinned hp] at hy
        cases hy
    · dsimp only at ht ⊢
      by_cases hyx : y = x
      · subst hyx
        rw [Function.update_self] at ht
        cases ht
        rw [Function.update_self, Function.update_self]
      · rw [Function.update_of_ne hyx, hc] at ht
        have hne : t ≠ freshTag x st₁.counter := by
          rintro rfl
          obtain ⟨k, hk, hkt⟩ := h.fresh ht
          have := freshTag_inj hkt
          omega
        rw [Function.update_of_ne hne, Function.update_of_ne hyx, h.version hy ht]
    · dsimp only at ht ⊢
      by_cases hyx : y = x
      · subst hyx
        rw [Function.update_self] at ht
        cases ht
        exact ⟨_, Nat.lt_succ_self _, rfl⟩
      · rw [Function.update_of_ne hyx, hc] at ht
        obtain ⟨k, hk, rfl⟩ := h.fresh ht
        exact ⟨k, by rw [hn]; omega, rfl⟩

theorem steps (hp : NoHash pinned) (hw : WholeWrites pinned is) (h : Renamed pinned st s r)
    (ht : TagState.instrs pinned is st = .ok (is', st')) (hs : SymState.run is s = .ok s') :
    is'.length = is.length ∧ (∃ r', SymState.run is' r = .ok r' ∧ Renamed pinned st' s' r') ∧
      ∀ {i ins' u'}, RunsIn is' r i ins' u' → ∃ ins u st₁ st₂, RunsIn is s i ins u ∧ Renamed pinned st₁ u u' ∧
        st₁.instr pinned ins = .ok (ins', st₂) := by
  induction is generalizing st s r is' with
  | nil =>
      cases ht
      cases hs
      refine ⟨rfl, ⟨r, rfl, h⟩, ?_⟩
      rintro i ins' u' ⟨hi, -⟩
      cases hi
  | cons ins is ih =>
      obtain ⟨⟨ins', st₁⟩, hi, ht⟩ := bind_eq_ok.mp ht
      obtain ⟨⟨rest, st₂⟩, hrest, ht⟩ := bind_eq_ok.mp ht
      cases ht
      rw [SymState.run, List.foldlM_cons] at hs
      obtain ⟨s₁, hs₁, hs⟩ := bind_eq_ok.mp hs
      obtain ⟨r₁, hr₁, h₁⟩ := h.step hp (hw ins (by simp)) hi hs₁
      obtain ⟨hlen, ⟨r', hr', h'⟩, hruns⟩ := ih (fun j hj _ => hw j (by simp [hj])) h₁ hrest hs
      refine ⟨congrArg (· + 1) hlen, ⟨r', ?_, h'⟩, ?_⟩
      · rw [SymState.run, List.foldlM_cons, hr₁]
        exact hr'
      · rintro i jns u' ⟨hj, hu⟩
        cases i with
        | zero =>
            cases hj
            cases hu
            exact ⟨ins, s, st, st₁, ⟨rfl, rfl⟩, h, hi⟩
        | succ i =>
            rw [List.take_succ_cons, SymState.run, List.foldlM_cons, hr₁] at hu
            obtain ⟨kns, u, st₃, st₄, ⟨hk, hku⟩, hrest⟩ := hruns ⟨hj, hu⟩
            refine ⟨kns, u, st₃, st₄, ⟨hk, ?_⟩, hrest⟩
            rw [List.take_succ_cons, SymState.run, List.foldlM_cons, hs₁]
            exact hku

theorem run (hp : NoHash pinned) (hw : WholeWrites pinned is) (h : Renamed pinned st s r)
    (ht : TagState.instrs pinned is st = .ok (is', st')) (hs : SymState.run is s = .ok s') :
    is'.length = is.length ∧ (∃ r', SymState.run is' r = .ok r' ∧ Renamed pinned st' s' r') ∧
      ∀ {i ins' u'}, RunsIn is' r i ins' u' → ∃ ins u, RunsIn is s i ins u ∧ u'.mem = u.mem ∧
        (∀ mem, ins'.op.lane u'.env.read mem = ins.op.lane u.env.read mem) ∧
        ins'.op.loads u'.env.read = ins.op.loads u.env.read ∧ ins'.op.stores u'.env.read = ins.op.stores u.env.read := by
  obtain ⟨hlen, hend, hruns⟩ := h.steps hp hw ht hs
  refine ⟨hlen, hend, fun {i ins' u'} hu => ?_⟩
  obtain ⟨ins, u, st₁, st₂, hu, hr, hi⟩ := hruns hu
  exact ⟨ins, u, hu, hr.mem, hr.reads hi⟩

end Renamed

section whole

variable {is is' : List (Instr Operand)} {rc : Sym → Option Int} {s s' : SymState} {nodes : List DNode}

/-- The tagged program ends with the same memory, is as independent, and passes the same checks. -/
theorem tagRawChains_steps (hp : NoHash pinned) (hw : WholeWrites pinned is) (ht : tagRawChains is pinned = .ok (is', rc))
    (hs : SymState.run is s = .ok s') : ∃ r', SymState.run is' s = .ok r' ∧ r'.mem = s'.mem ∧
      (Independent is s nodes → Independent is' s nodes) ∧ ∀ {trace}, Passing trace is s → Passing trace is' s := by
  obtain ⟨⟨tagged, st⟩, htag, ht⟩ := bind_eq_ok.mp ht
  cases ht
  obtain ⟨-, ⟨r', hr', h'⟩, hsteps⟩ := (Renamed.init s).steps hp hw htag hs
  obtain ⟨-, -, hruns⟩ := (Renamed.init s).run hp hw htag hs
  have hstores : ∀ {i a}, StoresAt is' s i a → StoresAt is s i a := by
    rintro i a ⟨ins', u', hu, ha⟩
    obtain ⟨ins, u, hr, -, -, -, hst⟩ := hruns hu
    exact ⟨ins, u, hr, hst ▸ ha⟩
  refine ⟨r', hr', h'.mem, fun hi => ⟨fun h₁ h₂ => hi.stores (hstores h₁) (hstores h₂), ?_⟩, fun hpass i ins' u' hu => ?_⟩
  · rintro i j a ⟨ins', u', hu, ha⟩ h₂
    obtain ⟨ins, u, hr, -, -, hld, -⟩ := hruns hu
    exact hi.loads ⟨ins, u, hr, hld ▸ ha⟩ (hstores h₂)
  · obtain ⟨ins, u, st₁, st₂, hr, hren, hi⟩ := hsteps hu
    exact (hren.passes hi).mpr (hpass hr)

/-- The tagged program is straight-line code too, ends with the same memory and is as independent. -/
theorem tagRawChains_run (hp : NoHash pinned) (hw : Straight pinned is) (ht : tagRawChains is pinned = .ok (is', rc))
    (hs : SymState.run is s = .ok s') (hi : Independent is s nodes) :
    Straight pinned is' ∧ ∃ r', SymState.run is' s = .ok r' ∧ r'.mem = s'.mem ∧ Independent is' s nodes := by
  obtain ⟨r', hr', hmem, hind, -⟩ := @tagRawChains_steps _ _ _ _ _ _ nodes hp hw.wholeWrites ht hs
  obtain ⟨⟨tagged, st⟩, htag, ht⟩ := bind_eq_ok.mp ht
  cases ht
  exact ⟨hw.tagged hp (fun h => by cases h) htag, r', hr', hmem, hind hi⟩

theorem tagRawChains_checked (hp : NoHash pinned) (hw : Checked pinned is) (ht : tagRawChains is pinned = .ok (is', rc)) : Checked pinned is' := by
  obtain ⟨⟨tagged, st⟩, htag, ht⟩ := bind_eq_ok.mp ht
  cases ht
  exact hw.tagged hp (fun h => by cases h) htag

end whole
end Vliw
