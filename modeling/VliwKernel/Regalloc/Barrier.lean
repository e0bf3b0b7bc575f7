import VliwKernel.Regalloc.DataFlow

/-!
# Pauses in the graph

A `Pause` has no operands, so the edges that `build_dag` draws never touch its node. Only a program that tagging
rejects, or one that is nothing but the pause, keeps it in its place.
-/

namespace Vliw

def ReadsDefined (pinned : List String) (is : List (Instr Operand)) : Prop :=
  ∀ (j : Nat) (ins : Instr Operand) (o : Operand), is[j]? = some ins → o ∈ ins.readOperands →
    isPinned pinned o.base = false → ∃ i < j, WritesTag is i o.base

namespace TagState

variable {pinned : List String} {done is : List (Instr Operand)} {st st' : TagState} {ins ins' : Instr Operand} {os : List Operand}

/-- The symbols with a version are those written so far, and every version has a read count. -/
structure Versioned (pinned : List String) (done : List (Instr Operand)) (st : TagState) : Prop where
  current : ∀ {x}, isPinned pinned x = false → ((∃ t, st.current x = some t) ↔ ∃ i, WritesTag done i x)
  counted : ∀ {x t}, st.current x = some t → (st.readCount t).isSome

theorem Versioned.init : Versioned pinned [] .init where
  current _ := by simp [TagState.init, WritesTag]
  counted h := by cases h

theorem read_isSome {t : Sym} (h : os.foldlM (read pinned) st = .ok st') (ht : (st.readCount t).isSome) : (st'.readCount t).isSome := by
  refine foldlM_inv (I := fun st => (st.readCount t).isSome) (fun o _ st st₁ h₁ ht => ?_) h ht
  rcases read_cases h₁ with ⟨-, rfl⟩ | ⟨tag, n, -, -, -, rfl⟩
  · exact ht
  · dsimp only
    rw [Function.update_apply]
    split
    · rfl
    · exact ht

theorem Versioned.instr_ok (h : Versioned pinned done st) : (∃ r, st.instr pinned ins = .ok r) ↔
    ∀ o ∈ ins.readOperands, isPinned pinned o.base = false → ∃ i, WritesTag done i o.base := by
  constructor
  · rintro ⟨r, hr⟩ o ho hp
    obtain ⟨st₁, hread, -⟩ := bind_eq_ok.mp hr
    exact (h.current hp).mp ((read_foldlM hread).2.2.1 o ho hp)
  · intro hreads
    obtain ⟨st₁, hread⟩ := @reads_ok pinned st ins.readOperands fun o ho hp => by
      obtain ⟨t, ht⟩ := (h.current hp).mpr (hreads o ho hp)
      obtain ⟨n, hn⟩ := Option.isSome_iff_exists.mp (h.counted ht)
      exact ⟨t, n, ht, hn⟩
    exact ⟨_, bind_eq_ok.mpr ⟨st₁, hread, rfl⟩⟩

theorem Versioned.instr (h : Versioned pinned done st) (hi : st.instr pinned ins = .ok (ins', st')) :
    Versioned pinned (done ++ [ins]) st' := by
  obtain ⟨st₁, hread, hi⟩ := bind_eq_ok.mp hi
  obtain ⟨-, rfl⟩ := Prod.mk.inj (Except.ok.inj hi)
  obtain ⟨hc, -⟩ := read_foldlM hread
  rcases write_cases pinned st₁ ins with ⟨hpin, hw⟩ | ⟨d, hd, -, hw⟩
  · rw [hw]
    constructor
    · intro x hx
      rw [hc, h.current hx]
      simp only [writesTag_append]
      refine exists_congr fun i => ⟨.inl, fun hi => hi.resolve_right ?_⟩
      rintro ⟨-, d, hd, rfl⟩
      rw [hpin d hd] at hx
      cases hx
    · intro x t ht
      exact read_isSome hread (h.counted (hc ▸ ht))
  · rw [hw]
    constructor
    · intro x hx
      simp only [Function.update_apply, writesTag_append, exists_or, hd, Option.some.injEq, exists_eq_left', exists_eq_left]
      split
      · next hxd => simp [hxd]
      · next hxd => simp [hc, h.current hx, Ne.symm hxd]
    · intro x t ht
      simp only [Function.update_apply] at ht ⊢
      split
      · rfl
      · next hne =>
          split at ht
          · exact absurd (Option.some.inj ht).symm hne
          · exact read_isSome hread (h.counted (hc ▸ ht))

/-- Tagging fails exactly at a read of a symbol that nothing before it writes. -/
theorem Versioned.instrs_ok (h : Versioned pinned done st) : (∃ r, TagState.instrs pinned is st = .ok r) ↔
    ∀ (j : Nat) (ins : Instr Operand) (o : Operand), done.length ≤ j → (done ++ is)[j]? = some ins → o ∈ ins.readOperands →
      isPinned pinned o.base = false → ∃ i < j, WritesTag (done ++ is) i o.base := by
  induction is generalizing done st with
  | nil =>
      refine ⟨fun _ j ins o hj hget => ?_, fun _ => ⟨_, rfl⟩⟩
      rw [List.append_nil, List.getElem?_eq_none hj] at hget
      cases hget
  | cons ins is ih =>
      have hat : (done ++ ins :: is)[done.length]? = some ins := by simp
      have hwrites : ∀ {x}, (∃ i < done.length, WritesTag (done ++ ins :: is) i x) ↔ ∃ i, WritesTag done i x := by
        refine ⟨fun ⟨i, hi, hw⟩ => ⟨i, (WritesTag.append_left hi).mp hw⟩, fun ⟨i, hw⟩ => ?_⟩
        exact ⟨i, hw.lt, (WritesTag.append_left hw.lt).mpr hw⟩
      rw [TagState.instrs]
      constructor
      · rintro ⟨r, hr⟩ j jns o hj hget ho hp
        obtain ⟨⟨ins', st₁⟩, h₁, hr⟩ := bind_eq_ok.mp hr
        obtain ⟨r', hr', -⟩ := bind_eq_ok.mp hr
        rcases Nat.lt_or_eq_of_le hj with hj | rfl
        · have hrest := (ih (h.instr h₁)).mp ⟨r', hr'⟩
          rw [← List.append_cons] at hrest
          exact hrest _ _ _ (by rwa [List.length_append]) hget ho hp
        · cases hat.symm.trans hget
          exact hwrites.mpr (h.instr_ok.mp ⟨_, h₁⟩ o ho hp)
      · intro hreads
        obtain ⟨⟨ins', st₁⟩, h₁⟩ := h.instr_ok.mpr fun o ho hp => hwrites.mp (hreads _ _ _ (Nat.le_refl _) hat ho hp)
        obtain ⟨r, hr⟩ := (ih (h.instr h₁)).mpr fun j jns o hj hget ho hp => by
          rw [← List.append_cons] at hget ⊢
          rw [List.length_append] at hj
          exact hreads _ _ _ (by omega) hget ho hp
        exact ⟨_, bind_eq_ok.mpr ⟨_, h₁, bind_eq_ok.mpr ⟨_, hr, rfl⟩⟩⟩

theorem instrs_getElem? {is' : List (Instr Operand)} (h : TagState.instrs pinned is st = .ok (is', st')) (j : Nat) :
    is'[j]? = none ∧ is[j]? = none ∨ ∃ ins rd wr, is[j]? = some ins ∧ is'[j]? = some (ins.rebuild rd wr) := by
  induction is generalizing st is' j with
  | nil =>
      cases h
      exact .inl ⟨rfl, rfl⟩
  | cons ins is ih =>
      obtain ⟨⟨ins', st₁⟩, h₁, h⟩ := bind_eq_ok.mp h
      obtain ⟨⟨is'', st₂⟩, h₂, h⟩ := bind_eq_ok.mp h
      cases h
      cases j with
      | succ j => exact ih h₂ j
      | zero =>
          obtain ⟨st₀, -, h₁⟩ := bind_eq_ok.mp h₁
          cases h₁
          exact .inr ⟨ins, _, _, rfl, rfl⟩

end TagState

/-- `tag_raw_chains` raises exactly on a read that is not defined. -/
theorem tagRawChains_isOk {pinned : List String} {is : List (Instr Operand)} :
    (∃ r, tagRawChains is pinned = .ok r) ↔ ReadsDefined pinned is := by
  have hok : (∃ r, tagRawChains is pinned = .ok r) ↔ ∃ r, TagState.instrs pinned is .init = .ok r := by
    constructor
    · rintro ⟨r, hr⟩
      obtain ⟨r', hr', -⟩ := bind_eq_ok.mp hr
      exact ⟨r', hr'⟩
    · rintro ⟨r, hr⟩
      exact ⟨_, bind_eq_ok.mpr ⟨r, hr, rfl⟩⟩
  rw [hok, TagState.Versioned.init.instrs_ok]
  exact ⟨fun h j ins o => h j ins o (Nat.zero_le j), fun h j ins o _ => h j ins o⟩

namespace BuildDag

variable {pinned : List String} {done is : List (Instr Operand)} {st : State}

/-- Edges lead from instructions that write to instructions that read. -/
structure Touching (done : List (Instr Operand)) (st : State) : Prop where
  length : st.nodes.length = done.length
  writer : ∀ {t i}, st.writer t = some i → ∃ x, WritesTag done i x
  source : ∀ {i j w}, (i, w) ∈ Dag.inEdges st.nodes j → ∃ x, WritesTag done i x
  target : ∀ {i j w}, (i, w) ∈ Dag.inEdges st.nodes j → ∃ ins, done[j]? = some ins ∧ ins.readOperands ≠ []
  weight : ∀ {i j w}, (i, w) ∈ Dag.inEdges st.nodes j → w = 1

theorem mem_inEdges_step {ins : Instr Operand} {i j w : Nat} : (i, w) ∈ Dag.inEdges (step pinned st ins).nodes j ↔
    if j = st.nodes.length then w = 1 ∧ i ∈ sources pinned st.writer ins else (i, w) ∈ Dag.inEdges st.nodes j := by
  rw [inEdges_step]
  split
  · simp [and_comm, @eq_comm _ w]
  · exact .rfl

theorem Touching.step (h : Touching done st) (ins : Instr Operand) : Touching (done ++ [ins]) (step pinned st ins) where
  length := by rw [length_step, h.length, List.length_append, List.length_singleton]
  writer := by
    intro t i ht
    rw [writer_step] at ht
    split at ht
    · next hc =>
        obtain ⟨-, d, hd, rfl⟩ := hc
        cases ht
        exact ⟨d.base, writesTag_append.mpr (.inr ⟨h.length, d, hd, rfl⟩)⟩
    · obtain ⟨x, hx⟩ := h.writer ht
      exact ⟨x, writesTag_append.mpr (.inl hx)⟩
  source := by
    intro i j w he
    rw [mem_inEdges_step] at he
    split at he
    · obtain ⟨o, -, -, hw⟩ := mem_sources.mp he.2
      obtain ⟨x, hx⟩ := h.writer hw
      exact ⟨x, writesTag_append.mpr (.inl hx)⟩
    · obtain ⟨x, hx⟩ := h.source he
      exact ⟨x, writesTag_append.mpr (.inl hx)⟩
  target := by
    intro i j w he
    rw [mem_inEdges_step] at he
    split at he
    · next hj =>
        obtain ⟨o, ho, -⟩ := mem_sources.mp he.2
        refine ⟨ins, by rw [hj, h.length, List.getElem?_concat_length], ?_⟩
        exact List.ne_nil_of_mem ho
    · obtain ⟨jns, hj, hne⟩ := h.target he
      exact ⟨jns, by rw [List.getElem?_append_left (List.getElem?_eq_some_iff.mp hj).1, hj], hne⟩
  weight := by
    intro i j w he
    rw [mem_inEdges_step] at he
    split at he
    · exact he.1
    · exact h.weight he

theorem Touching.foldl (h : Touching done st) : Touching (done ++ is) (is.foldl (BuildDag.step pinned) st) := by
  induction is generalizing done st with
  | nil => simpa using h
  | cons ins is ih =>
      rw [List.append_cons, List.foldl_cons]
      exact ih (h.step ins)

theorem Touching.init : Touching [] ⟨[], fun _ => none⟩ where
  length := rfl
  writer h := by cases h
  source h := by simp [Dag.inEdges] at h
  target h := by simp [Dag.inEdges] at h
  weight h := by simp [Dag.inEdges] at h

end BuildDag

/-- `build_dag` raises on the empty program only. -/
theorem buildDag_isOk (pinned : List String) {is : List (Instr Operand)} (h : is ≠ []) :
    ∃ dag, buildDag is pinned = .ok dag ∧ dag.nodes = (is.foldl (BuildDag.step pinned) ⟨[], fun _ => none⟩).nodes := by
  have ht : BuildDag.Touching ([] ++ is) (is.foldl (BuildDag.step pinned) ⟨[], fun _ => none⟩) := BuildDag.Touching.init.foldl
  rw [List.nil_append] at ht
  exact ⟨_, buildDag_eq rfl ht.length h ht.weight, rfl⟩

def Before (nodes : List DNode) : Nat → Nat → Prop := Relation.TransGen fun i j => ∃ w, (i, w) ∈ Dag.inEdges nodes j

/-- The graph, if there is one, has every pause after all that precedes it and before all that follows. -/
def BarrierKept (pinned : List String) (is : List (Instr Operand)) : Prop :=
  ∀ {tagged rc dag}, tagRawChains is pinned = .ok (tagged, rc) → buildDag tagged pinned = .ok dag →
    ∀ {p ins}, is[p]? = some ins → ins.op = .pause →
      (∀ i < p, Before dag.nodes i p) ∧ ∀ j, p < j → j < is.length → Before dag.nodes p j

section pause

variable {pinned : List String} {is tagged : List (Instr Operand)} {rc : Sym → Option Int} {dag : Dag} {p : Nat} {ins : Instr Operand}

theorem tagRawChains_pause (h : tagRawChains is pinned = .ok (tagged, rc)) (hp : is[p]? = some ins) (hop : ins.op = .pause) :
    ∃ ins', tagged[p]? = some ins' ∧ ins'.op = .pause := by
  obtain ⟨⟨tagged, st⟩, hi, h⟩ := bind_eq_ok.mp h
  cases h
  rcases TagState.instrs_getElem? hi p with ⟨-, hnone⟩ | ⟨ins₀, rd, wr, h₀, h'⟩
  · rw [hnone] at hp
    cases hp
  · cases hp.symm.trans h₀
    exact ⟨_, h', by rw [Instr.rebuild, hop]; rfl⟩

/-- No edge touches a pause. -/
theorem not_before_pause (hdag : buildDag tagged pinned = .ok dag) (hp : tagged[p]? = some ins) (hop : ins.op = .pause) (i : Nat) :
    ¬ Before dag.nodes i p ∧ ¬ Before dag.nodes p i := by
  have hne : tagged ≠ [] := by
    rintro rfl
    cases hp
  obtain ⟨dag', hdag', hnodes⟩ := buildDag_isOk pinned hne
  cases hdag.symm.trans hdag'
  have ht : BuildDag.Touching ([] ++ tagged) (tagged.foldl (BuildDag.step pinned) ⟨[], fun _ => none⟩) := BuildDag.Touching.init.foldl
  rw [List.nil_append] at ht
  rw [hnodes]
  constructor
  · intro hb
    obtain ⟨k, -, w, he⟩ := Relation.TransGen.tail'_iff.mp hb
    obtain ⟨jns, hj, hne⟩ := ht.target he
    cases hp.symm.trans hj
    rw [Instr.readOperands, hop] at hne
    exact hne rfl
  · intro hb
    obtain ⟨k, ⟨w, he⟩, -⟩ := Relation.TransGen.head'_iff.mp hb
    obtain ⟨x, jns, d, hj, hd, -⟩ := ht.source he
    cases hp.symm.trans hj
    rw [hop] at hd
    cases hd

/-- A program with a pause is kept in order exactly if tagging rejects it or the pause is all there is. -/
theorem barrierKept_iff (hpause : ∃ ins ∈ is, ins.op = .pause) : BarrierKept pinned is ↔ ¬ ReadsDefined pinned is ∨ is.length = 1 := by
  obtain ⟨ins, hmem, hop⟩ := hpause
  obtain ⟨p, hp⟩ := List.getElem?_of_mem hmem
  have hlt := (List.getElem?_eq_some_iff.mp hp).1
  constructor
  · intro hkept
    by_contra hnot
    obtain ⟨hdef, hlen⟩ := not_or.mp hnot
    obtain ⟨⟨tagged, rc⟩, htag⟩ := tagRawChains_isOk.mpr (not_not.mp hdef)
    obtain ⟨ins', hp', hop'⟩ := tagRawChains_pause htag hp hop
    have hne : tagged ≠ [] := by
      rintro rfl
      cases hp'
    obtain ⟨dag, hdag, -⟩ := buildDag_isOk pinned hne
    obtain ⟨hbefore, hafter⟩ := hkept htag hdag hp hop
    rcases Nat.eq_zero_or_pos p with rfl | hpos
    · exact (not_before_pause hdag hp' hop' 1).2 (hafter 1 (by omega) (by omega))
    · exact (not_before_pause hdag hp' hop' 0).1 (hbefore 0 hpos)
  · intro hcond tagged rc dag htag hdag q jns hq hjop
    have hdef : ReadsDefined pinned is := tagRawChains_isOk.mp ⟨_, htag⟩
    have hlen := hcond.resolve_left (not_not.mpr hdef)
    have hqlt := (List.getElem?_eq_some_iff.mp hq).1
    exact ⟨fun i hi => by omega, fun j hj hj' => by omega⟩

/-- A sum behind a pause, whose second operand nothing writes. -/
def undefinedSum : List (Instr Operand) :=
  [⟨0, .const (.sym ⟨"a", false⟩) 1⟩, ⟨1, .pause⟩, ⟨2, .alu .add (.sym ⟨"c", false⟩) (.sym ⟨"a", false⟩) (.sym ⟨"b", false⟩)⟩]

theorem undefinedSum_rejected : ¬ ReadsDefined PINNED undefinedSum := by
  rw [← tagRawChains_isOk]
  rintro ⟨r, hr⟩
  cases hr

theorem barrierKept_iff_undefinedSum : ¬ ReadsDefined PINNED undefinedSum ∧ BarrierKept PINNED undefinedSum :=
  ⟨undefinedSum_rejected, (barrierKept_iff ⟨⟨1, .pause⟩, by decide, rfl⟩).mpr (.inl undefinedSum_rejected)⟩

/-- A pause between two writes is in the graph, apart from both. -/
theorem barrier_leaks : ¬ BarrierKept PINNED [⟨0, .const (.sym ⟨"a", false⟩) 1⟩, ⟨1, .pause⟩, ⟨2, .const (.sym ⟨"b", false⟩) 2⟩] := by
  intro hkept
  obtain ⟨tagged, rc, htag, hp⟩ : ∃ tagged rc, tagRawChains [⟨0, .const (.sym ⟨"a", false⟩) 1⟩, ⟨1, .pause⟩,
      ⟨2, .const (.sym ⟨"b", false⟩) 2⟩] PINNED = .ok (tagged, rc) ∧ tagged[1]? = some ⟨1, .pause⟩ := ⟨_, _, rfl, rfl⟩
  have hne : tagged ≠ [] := by
    rintro rfl
    cases hp
  obtain ⟨dag, hdag, -⟩ := buildDag_isOk PINNED hne
  exact (not_before_pause hdag hp rfl 0).1 ((hkept htag hdag (p := 1) rfl rfl).1 0 (by decide))

end pause
end Vliw
