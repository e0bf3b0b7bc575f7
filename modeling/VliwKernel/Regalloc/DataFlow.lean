import VliwKernel.Regalloc.BuildDag

/-!
# Tags and edges are the data flow

Tagging a program whose reads are all defined succeeds, and each read gets the tag of the latest earlier
write of its symbol. The graph of the tagged program has one edge from each writer to each reader.
-/

namespace Vliw

/-- Every read that is not pinned comes after a write of its symbol, and nothing pinned is written. -/
structure Defined (pinned : List String) (is : List (Instr Operand)) : Prop where
  reads : ∀ {j : Nat} {ins : Instr Operand} {o : Operand}, is[j]? = some ins → o ∈ ins.readOperands →
    isPinned pinned o.base = false → ∃ i < j, WritesTag is i o.base
  unpinned : ∀ {i x}, WritesTag is i x → isPinned pinned x = false

def LatestWrite (is : List (Instr Operand)) (j : Nat) (x : Sym) (i : Nat) : Prop :=
  i < j ∧ WritesTag is i x ∧ ∀ k, i < k → k < j → ¬ WritesTag is k x

/-- The tagged instruction `j`: the operands under the tags of their latest writes, the destination under
a tag of its own. -/
def TaggedAt (pinned : List String) (is tagged : List (Instr Operand)) (j : Nat) (ins : Instr Operand) : Prop :=
  ∃ rd wr, tagged[j]? = some (ins.rebuild rd wr) ∧
    (∀ o ∈ ins.readOperands, if isPinned pinned o.base then rd o = o else
      ∃ i t, LatestWrite is j o.base i ∧ WritesTag tagged i t ∧ rd o = o.withBase t) ∧
    ∀ {d}, ins.op.dest? = some d → ∃ t, wr d = d.withBase t ∧ isPinned pinned t = false

structure DataFlow (pinned : List String) (is tagged : List (Instr Operand)) (rc : Sym → Option Int) : Prop where
  length : tagged.length = is.length
  instr : ∀ {j ins}, is[j]? = some ins → TaggedAt pinned is tagged j ins
  unpinned : ∀ {i t}, WritesTag tagged i t → isPinned pinned t = false
  unique : ∀ {i j t}, WritesTag tagged i t → WritesTag tagged j t → i = j
  count : ∀ {i t}, WritesTag tagged i t → rc t = some (totalOcc tagged t : Int)

section decidable

variable {is : List (Instr Operand)} {pinned : List String}

instance (i : Nat) (t : Sym) : Decidable (WritesTag is i t) :=
  decidable_of_iff (((is[i]?.bind fun ins => ins.op.dest?).map Operand.base) = some t) <| by
    simp only [WritesTag, Option.map_eq_some_iff, Option.bind_eq_some_iff]
    exact ⟨fun ⟨d, ⟨ins, hi, hd⟩, ht⟩ => ⟨ins, d, hi, hd, ht⟩, fun ⟨ins, d, hi, hd, ht⟩ => ⟨d, ⟨ins, hi, hd⟩, ht⟩⟩

instance : Decidable (Defined pinned is) :=
  decidable_of_iff (∀ j < is.length, (∀ o ∈ (is[j]?.map Instr.readOperands).getD [], isPinned pinned o.base = false →
      ∃ i < j, WritesTag is i o.base) ∧ ∀ d ∈ is[j]?.bind fun ins => ins.op.dest?, isPinned pinned d.base = false) <| by
    refine ⟨fun h => ⟨fun {j ins o} hj ho hp => ?_, ?_⟩, fun h j hj => ⟨fun o ho hp => ?_, fun d hd => ?_⟩⟩
    · exact (h j (List.getElem?_eq_some_iff.mp hj).1).1 o (by rw [hj]; exact ho) hp
    · rintro i _ ⟨ins, d, hi, hd, rfl⟩
      exact (h i (List.getElem?_eq_some_iff.mp hi).1).2 d (by rw [hi]; exact hd)
    · rw [List.getElem?_eq_getElem hj] at ho
      exact h.reads (List.getElem?_eq_getElem hj) ho hp
    · obtain ⟨ins, hi, hd⟩ := Option.bind_eq_some_iff.mp hd
      exact h.unpinned ⟨ins, d, hi, hd, rfl⟩

end decidable

section append

variable {is is' : List (Instr Operand)} {pinned : List String} {i j : Nat} {x : Sym} {ins : Instr Operand}

theorem WritesTag.append_left (h : i < is.length) : WritesTag (is ++ is') i x ↔ WritesTag is i x := by
  simp only [WritesTag, List.getElem?_append_left h]

theorem LatestWrite.append_left (h : j ≤ is.length) : LatestWrite (is ++ is') j x i ↔ LatestWrite is j x i := by
  refine and_congr_right fun hi => and_congr (WritesTag.append_left (by omega)) ?_
  refine forall_congr' fun k => imp_congr_right fun _ => imp_congr_right fun hk => not_congr ?_
  exact WritesTag.append_left (by omega)

/-- The latest write stays the latest past an instruction that writes something else. -/
theorem LatestWrite.push (hne : ∀ d, ins.op.dest? = some d → d.base ≠ x) (h : LatestWrite is is.length x i) :
    LatestWrite (is ++ [ins]) (is ++ [ins]).length x i := by
  obtain ⟨hi, hw, hmax⟩ := h
  rw [List.length_append, List.length_singleton]
  refine ⟨by omega, (WritesTag.append_left hw.lt).mpr hw, fun k hik hk hwk => ?_⟩
  rcases writesTag_append.mp hwk with hwk | ⟨-, d, hd, hdx⟩
  · exact hmax k hik hwk.lt hwk
  · exact hne d hd hdx

theorem latestWrite_concat {d : Operand} (hd : ins.op.dest? = some d) : LatestWrite (is ++ [ins]) (is ++ [ins]).length d.base is.length := by
  refine ⟨by simp, writesTag_append.mpr (.inr ⟨rfl, d, hd, rfl⟩), fun k hk hk' => ?_⟩
  rw [List.length_append, List.length_singleton] at hk'
  omega

theorem Defined.append_left (h : Defined pinned (is ++ is')) : Defined pinned is where
  reads := by
    intro j ins o hj ho hp
    have hlt := (List.getElem?_eq_some_iff.mp hj).1
    obtain ⟨i, hi, hw⟩ := h.reads (by rw [List.getElem?_append_left hlt]; exact hj) ho hp
    exact ⟨i, hi, (WritesTag.append_left (by omega)).mp hw⟩
  unpinned := fun hw => h.unpinned ((WritesTag.append_left hw.lt).mpr hw)

theorem TaggedAt.append_left {tagged tagged' : List (Instr Operand)} (hlen : tagged.length = is.length) (hj : j < is.length)
    (h : TaggedAt pinned is tagged j ins) : TaggedAt pinned (is ++ is') (tagged ++ tagged') j ins := by
  obtain ⟨rd, wr, hget, hr, hw⟩ := h
  refine ⟨rd, wr, by rw [List.getElem?_append_left (by omega)]; exact hget, fun o ho => ?_, hw⟩
  have := hr o ho
  split
  · next hp => rwa [if_pos hp] at this
  · next hp =>
      rw [if_neg hp] at this
      obtain ⟨i, t, hl, ht, ho⟩ := this
      exact ⟨i, t, (LatestWrite.append_left (by omega)).mpr hl, (WritesTag.append_left (by have := hl.1; omega)).mpr ht, ho⟩

end append

namespace TagState

variable {pinned : List String} {done tagged is is' : List (Instr Operand)} {st st' : TagState} {ins ins' : Instr Operand}

/-- The state after tagging `done` as `tagged`: the current version of a symbol is the tag of its latest write. -/
structure Follows (pinned : List String) (done tagged : List (Instr Operand)) (st : TagState) : Prop where
  length : tagged.length = done.length
  current : ∀ {x t}, isPinned pinned x = false → st.current x = some t →
    ∃ i, LatestWrite done done.length x i ∧ WritesTag tagged i t
  none : ∀ {x i}, isPinned pinned x = false → st.current x = none → ¬ WritesTag done i x
  instr : ∀ {j ins}, done[j]? = some ins → TaggedAt pinned done tagged j ins

theorem Follows.init : Follows pinned [] [] .init where
  length := rfl
  current _ h := by cases h
  none _ _ h := by simp [WritesTag] at h
  instr h := by cases h

theorem reads_ok {os : List Operand} (h : ∀ o ∈ os, isPinned pinned o.base = false →
    ∃ t n, st.current o.base = some t ∧ st.readCount t = some n) : ∃ st', os.foldlM (read pinned) st = .ok st' := by
  induction os generalizing st with
  | nil => exact ⟨st, rfl⟩
  | cons o os ih =>
      have hstep : ∃ st₁, st.read pinned o = .ok st₁ ∧ st₁.current = st.current ∧
          ∀ t, (st.readCount t).isSome → (st₁.readCount t).isSome := by
        cases hp : isPinned pinned o.base with
        | true => exact ⟨st, by simp [read, hp], rfl, fun _ h => h⟩
        | false =>
            obtain ⟨t, n, ht, hn⟩ := h o (by simp) hp
            refine ⟨{ st with readCount := Function.update st.readCount t (some (n + 1)) }, by simp [read, hp, getKey, ht, hn],
              rfl, fun s hs => ?_⟩
            by_cases hst : s = t
            · simp [hst]
            · simpa [hst] using hs
      obtain ⟨st₁, h₁, hc, hrc⟩ := hstep
      obtain ⟨st', h'⟩ := @ih st₁ fun o' ho' hp => by
        obtain ⟨t, n, ht, hn⟩ := h o' (by simp [ho']) hp
        obtain ⟨n', hn'⟩ := Option.isSome_iff_exists.mp (hrc t (by simp [hn]))
        exact ⟨t, n', by rw [hc, ht], hn'⟩
      exact ⟨st', by rw [List.foldlM_cons, h₁]; exact h'⟩

/-- Every read has a version: the tag of the latest write. -/
theorem Follows.version (h : Follows pinned done tagged st) (hdef : Defined pinned (done ++ [ins])) {o : Operand} (ho : o ∈ ins.readOperands)
    (hpo : isPinned pinned o.base = false) : ∃ i t, LatestWrite done done.length o.base i ∧ WritesTag tagged i t ∧ st.current o.base = some t := by
  cases ht : st.current o.base with
  | some t =>
      obtain ⟨i, hl, hw⟩ := h.current hpo ht
      exact ⟨i, t, hl, hw, rfl⟩
  | none =>
      obtain ⟨i, hi, hw⟩ := hdef.reads (List.getElem?_concat_length) ho hpo
      exact absurd ((WritesTag.append_left hi).mp hw) (h.none hpo ht)

theorem write_current {d : Operand} (hd : ins.op.dest? = some d) (hpd : isPinned pinned d.base = false) :
    (ins.writeOperands.foldl (write pinned) st).current = Function.update st.current d.base (some (freshTag d.base st.counter)) := by
  rcases write_cases pinned st ins with ⟨hpin, -⟩ | ⟨d', hd', -, heq⟩
  · have := hpin d hd
    rw [hpd] at this
    cases this
  · cases hd.symm.trans hd'
    rw [heq]

theorem write_current_of_ne {x : Sym} (hx : ∀ d, ins.op.dest? = some d → d.base ≠ x) :
    (ins.writeOperands.foldl (write pinned) st).current x = st.current x := by
  rcases write_cases pinned st ins with ⟨-, heq⟩ | ⟨d, hd, -, heq⟩
  · rw [heq]
  · rw [heq]
    exact Function.update_of_ne (Ne.symm (hx d hd)) _ _

/-- The new instruction reads the tags of the latest writes and writes a tag of its own. -/
theorem Follows.taggedAt (hp : NoHash pinned) (h : Follows pinned done tagged st) (hdef : Defined pinned (done ++ [ins])) {st₁ : TagState}
    (hv : st₁.version pinned = st.version pinned)
    (hwr : ∀ {d}, ins.op.dest? = some d → (ins.writeOperands.foldl (write pinned) st₁).version pinned d = d.withBase (freshTag d.base st₁.counter)) :
    TaggedAt pinned (done ++ [ins])
      (tagged ++ [ins.rebuild (st₁.version pinned) ((ins.writeOperands.foldl (write pinned) st₁).version pinned)]) done.length ins := by
  refine ⟨_, _, by rw [← h.length]; exact List.getElem?_concat_length, fun o ho => ?_, fun {d} hd => ⟨_, hwr hd, freshTag_unpinned hp _ _⟩⟩
  cases hpo : isPinned pinned o.base with
  | true => rw [if_pos rfl, version_of_pinned hpo]
  | false =>
      obtain ⟨i, t, hl, hw, ht⟩ := h.version hdef ho hpo
      rw [if_neg Bool.false_ne_true]
      refine ⟨i, t, (LatestWrite.append_left (Nat.le_refl _)).mpr hl, (WritesTag.append_left hw.lt).mpr hw, ?_⟩
      rw [hv, version_of_current hpo ht]

theorem Follows.step (hp : NoHash pinned) (h : Follows pinned done tagged st) (hok : Ok pinned tagged st)
    (hdef : Defined pinned (done ++ [ins])) :
    ∃ ins' st', st.instr pinned ins = .ok (ins', st') ∧ Follows pinned (done ++ [ins]) (tagged ++ [ins']) st' := by
  obtain ⟨st₁, hr⟩ := @reads_ok pinned st ins.readOperands fun o ho hpo => by
    obtain ⟨i, t, -, hw, ht⟩ := h.version hdef ho hpo
    have hpt : isPinned pinned t = false := by
      obtain ⟨k, -, rfl, -⟩ := hok.current ht
      exact freshTag_unpinned hp _ _
    exact ⟨t, _, ht, hok.count hpt hw⟩
  obtain ⟨hc, -, -, -, -⟩ := read_foldlM hr
  refine ⟨_, ins.writeOperands.foldl (write pinned) st₁, bind_eq_ok.mpr ⟨st₁, hr, rfl⟩, ?_⟩
  have hdest : ∀ {d}, ins.op.dest? = some d → isPinned pinned d.base = false := fun hd =>
    hdef.unpinned (writesTag_append.mpr (.inr ⟨rfl, _, hd, rfl⟩))
  have hnew : ∀ {d}, ins.op.dest? = some d → (ins.writeOperands.foldl (write pinned) st₁).current d.base = some (freshTag d.base st₁.counter) :=
    fun hd => by rw [write_current hd (hdest hd), Function.update_self]
  have hwr : ∀ {d}, ins.op.dest? = some d → (ins.writeOperands.foldl (write pinned) st₁).version pinned d = d.withBase (freshTag d.base st₁.counter) :=
    fun hd => version_of_current (hdest hd) (hnew hd)
  have hat := h.taggedAt hp hdef (version_congr hc) hwr
  constructor
  case length => simp [h.length]
  case current =>
    intro x t hx ht
    by_cases hdx : ∃ d, ins.op.dest? = some d ∧ d.base = x
    · obtain ⟨d, hd, rfl⟩ := hdx
      rw [hnew hd] at ht
      cases ht
      refine ⟨done.length, latestWrite_concat hd, writesTag_append.mpr (.inr ⟨h.length.symm, d.withBase (freshTag d.base st₁.counter), ?_, ?_⟩)⟩
      · rw [dest?_rebuild, hd, Option.map_some, hwr hd]
      · exact Operand.base_withBase _ _
    · have hne : ∀ d, ins.op.dest? = some d → d.base ≠ x := fun d hd hb => hdx ⟨d, hd, hb⟩
      rw [write_current_of_ne hne, hc] at ht
      obtain ⟨i, hl, hw⟩ := h.current hx ht
      exact ⟨i, hl.push hne, (WritesTag.append_left hw.lt).mpr hw⟩
  case none =>
    intro x i hx ht hw
    by_cases hdx : ∃ d, ins.op.dest? = some d ∧ d.base = x
    · obtain ⟨d, hd, rfl⟩ := hdx
      rw [hnew hd] at ht
      cases ht
    · have hne : ∀ d, ins.op.dest? = some d → d.base ≠ x := fun d hd hb => hdx ⟨d, hd, hb⟩
      rw [write_current_of_ne hne, hc] at ht
      rcases writesTag_append.mp hw with hw | ⟨-, d, hd, hb⟩
      · exact h.none hx ht hw
      · exact hne d hd hb
  case instr =>
    intro j jns hj
    rcases Nat.lt_trichotomy j done.length with hlt | rfl | hgt
    · rw [List.getElem?_append_left hlt] at hj
      exact (h.instr hj).append_left h.length hlt
    · rw [List.getElem?_concat_length] at hj
      cases hj
      exact hat
    · rw [List.getElem?_eq_none (by simp; omega)] at hj
      cases hj

theorem Follows.instrs (hp : NoHash pinned) (h : Follows pinned done tagged st) (hok : Ok pinned tagged st)
    (hdef : Defined pinned (done ++ is)) :
    ∃ is' st', TagState.instrs pinned is st = .ok (is', st') ∧ Follows pinned (done ++ is) (tagged ++ is') st' := by
  induction is generalizing done tagged st with
  | nil => exact ⟨[], st, rfl, by simpa using h⟩
  | cons ins is ih =>
      rw [List.append_cons] at hdef
      obtain ⟨ins', st₁, hi, h₁⟩ := h.step hp hok hdef.append_left
      obtain ⟨is', st', his, h'⟩ := ih h₁ (hok.instr hp hi) hdef
      refine ⟨ins' :: is', st', bind_eq_ok.mpr ⟨_, hi, bind_eq_ok.mpr ⟨_, his, rfl⟩⟩, ?_⟩
      simpa using h'

end TagState

/-- Tagging a program whose reads are defined succeeds, and follows the data flow. -/
theorem tagRawChains_dataFlow {pinned : List String} (hp : NoHash pinned) {is : List (Instr Operand)} (h : Defined pinned is) :
    ∃ tagged rc, tagRawChains is pinned = .ok (tagged, rc) ∧ DataFlow pinned is tagged rc := by
  obtain ⟨tagged, st, hi, hf⟩ := TagState.Follows.init.instrs hp .init h
  have ht : tagRawChains is pinned = .ok (tagged, st.readCount) := bind_eq_ok.mpr ⟨_, hi, rfl⟩
  have htag := tagRawChains_tagged hp ht
  rw [List.nil_append, List.nil_append] at hf
  -- every destination is under a tag that is not pinned
  have hpin : ∀ {i t}, WritesTag tagged i t → isPinned pinned t = false := by
    rintro i t ⟨ins', d', hi', hd', rfl⟩
    have hlt : i < is.length := hf.length ▸ (List.getElem?_eq_some_iff.mp hi').1
    obtain ⟨rd, wr, hget, -, hw⟩ := hf.instr (List.getElem?_eq_getElem hlt)
    cases hi'.symm.trans hget
    rw [TagState.dest?_rebuild, Option.map_eq_some_iff] at hd'
    obtain ⟨d, hd, rfl⟩ := hd'
    obtain ⟨t, ht, htp⟩ := hw hd
    rw [ht, Operand.base_withBase]
    exact htp
  exact ⟨tagged, st.readCount, ht, hf.length, hf.instr, hpin, fun hw hw' => htag.unique (hpin hw) hw hw',
    fun hw => htag.count (hpin hw) hw⟩

end Vliw
