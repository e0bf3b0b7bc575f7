import VliwKernel.Regalloc.Ssa
import VliwKernel.Scheduler.Frontier

/-!
# Tagged programs

What the schedulers rely on: every tag has one writer, which precedes its readers, and its
read count is the number of its read occurrences. `tag_raw_chains` establishes it.
-/

namespace Vliw

def Instr.occ (t : Sym) (i : Instr Operand) : Nat := (i.readOperands.map Operand.base).count t

/-- Instruction `i` of the list writes `t`. -/
def WritesTag (is : List (Instr Operand)) (i : Nat) (t : Sym) : Prop :=
  ∃ ins d, is[i]? = some ins ∧ ins.op.dest? = some d ∧ d.base = t

def totalOcc (is : List (Instr Operand)) (t : Sym) : Nat := (is.map (Instr.occ t)).sum

/-- What a DAG of tags stands on: a tag has one writer, and pinned symbols are not counted. -/
structure SingleWriter (pinned : List String) (is : List (Instr Operand)) (rc : Sym → Option Int) : Prop where
  unique : ∀ {i j t}, isPinned pinned t = false → WritesTag is i t → WritesTag is j t → i = j
  pinned_none : ∀ {t}, isPinned pinned t = true → rc t = none

structure Tagged (pinned : List String) (is : List (Instr Operand)) (rc : Sym → Option Int) : Prop
    extends SingleWriter pinned is rc where
  defined : ∀ {j : Nat} {ins : Instr Operand} {o : Operand}, is[j]? = some ins → o ∈ ins.readOperands →
    isPinned pinned o.base = false → ∃ i < j, WritesTag is i o.base
  count : ∀ {i t}, isPinned pinned t = false → WritesTag is i t → rc t = some (totalOcc is t : Int)

theorem WritesTag.lt {is : List (Instr Operand)} {i : Nat} {t : Sym} (h : WritesTag is i t) : i < is.length := by
  obtain ⟨_, _, hi, -⟩ := h
  exact (List.getElem?_eq_some_iff.mp hi).1

theorem writesTag_append {is : List (Instr Operand)} {ins : Instr Operand} {i : Nat} {t : Sym} :
    WritesTag (is ++ [ins]) i t ↔ WritesTag is i t ∨ (i = is.length ∧ ∃ d, ins.op.dest? = some d ∧ d.base = t) := by
  simp only [WritesTag]
  rcases Nat.lt_trichotomy i is.length with h | h | h
  · rw [List.getElem?_append_left h]
    simp [Nat.ne_of_lt h]
  · subst h
    simp
  · rw [List.getElem?_eq_none (by simp; omega), List.getElem?_eq_none (by omega)]
    simp [Nat.ne_of_gt h]

section freshness

theorem hash_notMem_digits (n : Nat) : '#' ∉ Nat.toDigits 10 n := by
  intro h
  have := Nat.isDigit_of_mem_toDigits (by omega) (by omega) h
  simp [Char.isDigit] at this

theorem freshTag_toList (x : Sym) (n : Nat) :
    (freshTag x n).name.toList = x.name.toList ++ '#' :: Nat.toDigits 10 n := by
  simp [freshTag, Nat.toList_repr]

/-- What follows the last `#` of a tag's name is its number. -/
theorem split_hash {l l' d d' : List Char} (hd : '#' ∉ d) (hd' : '#' ∉ d')
    (h : l ++ '#' :: d = l' ++ '#' :: d') : l = l' ∧ d = d' := by
  rcases List.append_eq_append_iff.mp h with ⟨m, hl, hm⟩ | ⟨m, hl, hm⟩
  · cases m with
    | nil => exact ⟨by simpa using hl.symm, by simpa using hm⟩
    | cons c m => exact absurd ((List.cons.inj hm).2 ▸ by simp) hd
  · cases m with
    | nil => exact ⟨by simpa using hl, by simpa using hm.symm⟩
    | cons c m => exact absurd ((List.cons.inj hm).2 ▸ by simp) hd'

theorem freshTag_inj {x y : Sym} {m n : Nat} (h : freshTag x m = freshTag y n) : m = n := by
  have hname := congrArg (fun s : Sym => s.name.toList) h
  simp only [freshTag_toList] at hname
  obtain ⟨-, hd⟩ := split_hash (hash_notMem_digits m) (hash_notMem_digits n) hname
  rw [← Nat.ofDigitChars_ten_toDigits (n := m), hd, Nat.ofDigitChars_ten_toDigits]

def NoHash (pinned : List String) : Prop := ∀ p ∈ pinned, '#' ∉ p.toList

theorem freshTag_unpinned {pinned : List String} (hp : NoHash pinned) (x : Sym) (n : Nat) :
    isPinned pinned (freshTag x n) = false := by
  rw [isPinned, decide_eq_false_iff_not]
  intro hmem
  exact hp _ hmem (by rw [freshTag_toList]; simp)

theorem pinned_noHash : NoHash PINNED := by
  intro p hp
  obtain rfl := List.mem_singleton.mp hp
  decide

end freshness

namespace TagState

variable {pinned : List String}

/-- What holds after the instructions `done`, already tagged. -/
structure Ok (pinned : List String) (done : List (Instr Operand)) (st : TagState) : Prop where
  current : ∀ {x t}, st.current x = some t → ∃ k < st.counter, t = freshTag x k ∧ ∃ i, WritesTag done i t
  fresh : ∀ {i t}, isPinned pinned t = false → WritesTag done i t → ∃ x, ∃ k < st.counter, t = freshTag x k
  unique : ∀ {i j t}, isPinned pinned t = false → WritesTag done i t → WritesTag done j t → i = j
  defined : ∀ {j : Nat} {ins : Instr Operand} {o : Operand}, done[j]? = some ins → o ∈ ins.readOperands →
    isPinned pinned o.base = false → ∃ i < j, WritesTag done i o.base
  count : ∀ {i t}, isPinned pinned t = false → WritesTag done i t → st.readCount t = some (totalOcc done t : Int)
  count_some : ∀ {t}, (st.readCount t).isSome → isPinned pinned t = false ∧ ∃ i, WritesTag done i t

theorem Ok.init : Ok pinned [] .init where
  current h := by cases h
  fresh _ h := by simp [WritesTag] at h
  unique _ h := by simp [WritesTag] at h
  defined h := by simp at h
  count _ h := by simp [WritesTag] at h
  count_some h := by cases h

theorem version_congr {st st' : TagState} (h : st'.current = st.current) : st'.version pinned = st.version pinned := by
  funext o
  simp only [version, h]

theorem version_of_pinned {st : TagState} {o : Operand} (h : isPinned pinned o.base = true) :
    st.version pinned o = o := by
  simp [version, h]

theorem version_of_current {st : TagState} {o : Operand} {t : Sym} (h : isPinned pinned o.base = false)
    (ht : st.current o.base = some t) : st.version pinned o = o.withBase t := by
  simp [version, h, ht]

/-- A read that succeeds. -/
theorem read_cases {st st' : TagState} {o : Operand} (h : st.read pinned o = .ok st') :
    (isPinned pinned o.base = true ∧ st' = st) ∨ ∃ t n, isPinned pinned o.base = false ∧
      st.current o.base = some t ∧ st.readCount t = some n ∧
      st' = { st with readCount := Function.update st.readCount t (some (n + 1)) } := by
  by_cases hp : isPinned pinned o.base = true
  · simp only [read, hp, if_true, Except.ok.injEq] at h
    exact .inl ⟨hp, h.symm⟩
  · rw [Bool.not_eq_true] at hp
    simp only [read, hp, Bool.false_eq_true, if_false] at h
    obtain ⟨t, ht, h⟩ := bind_eq_ok.mp h
    obtain ⟨n, hn, h⟩ := bind_eq_ok.mp h
    refine .inr ⟨t, n, hp, ?_, ?_, (Except.ok.inj h).symm⟩
    · cases hx : st.current o.base <;> simp_all [getKey]
    · cases hx : st.readCount t <;> simp_all [getKey]

theorem read_foldlM {st st' : TagState} {os : List Operand} (h : os.foldlM (read pinned) st = .ok st') :
    st'.current = st.current ∧ st'.counter = st.counter ∧
      (∀ o ∈ os, isPinned pinned o.base = false → ∃ t, st.current o.base = some t) ∧
      (∀ t, (st'.readCount t).isSome → (st.readCount t).isSome) ∧
      ∀ t, isPinned pinned t = false → st'.readCount t =
        (st.readCount t).map fun n => n + (((os.map fun o => (st.version pinned o).base).count t : Nat) : Int) := by
  induction os generalizing st with
  | nil =>
      cases h
      exact ⟨rfl, rfl, by simp, fun _ h => h, fun t _ => by simp⟩
  | cons o os ih =>
      rw [List.foldlM_cons] at h
      obtain ⟨st₁, h₁, h⟩ := bind_eq_ok.mp h
      obtain ⟨hc, hn, hos, hsome, hrc⟩ := ih h
      rcases read_cases h₁ with ⟨hp, rfl⟩ | ⟨tag, n, hp, htag, hcnt, rfl⟩
      · refine ⟨hc, hn, ?_, hsome, fun t ht => ?_⟩
        · rintro o' ho' hp'
          rcases List.mem_cons.mp ho' with rfl | ho'
          · simp [hp] at hp'
          · exact hos o' ho' hp'
        · have hne : o.base ≠ t := by
            rintro rfl
            simp [hp] at ht
          rw [hrc t ht, List.map_cons, version_of_pinned hp, List.count_cons_of_ne hne]
      · have hv : ({ st with readCount := Function.update st.readCount tag (some (n + 1)) } : TagState).version pinned =
            st.version pinned := version_congr rfl
        refine ⟨hc, hn, ?_, fun t ht => ?_, fun t ht => ?_⟩
        · rintro o' ho' hp'
          rcases List.mem_cons.mp ho' with rfl | ho'
          · exact ⟨tag, htag⟩
          · exact hos o' ho' hp'
        · have := hsome t ht
          by_cases htt : t = tag
          · simp [htt, hcnt]
          · simpa [htt] using this
        · rw [hrc t ht, hv, List.map_cons, version_of_current hp htag, Operand.base_withBase]
          by_cases htt : tag = t
          · subst htt
            simp only [Function.update_self, hcnt, Option.map_some, List.count_cons_self, Option.some.injEq]
            push_cast
            omega
          · rw [List.count_cons_of_ne htt]
            simp [Ne.symm htt]

theorem totalOcc_append (is : List (Instr Operand)) (ins : Instr Operand) (t : Sym) :
    totalOcc (is ++ [ins]) t = totalOcc is t + ins.occ t := by
  simp [totalOcc]

theorem write_cases (pinned : List String) (st : TagState) (ins : Instr Operand) :
    (∀ d, ins.op.dest? = some d → isPinned pinned d.base = true) ∧
        ins.writeOperands.foldl (write pinned) st = st ∨
      ∃ d, ins.op.dest? = some d ∧ isPinned pinned d.base = false ∧
        ins.writeOperands.foldl (write pinned) st =
          { current := Function.update st.current d.base (some (freshTag d.base st.counter))
            readCount := Function.update st.readCount (freshTag d.base st.counter) (some 0)
            counter := st.counter + 1 } := by
  cases hd : ins.op.dest? with
  | none => exact .inl ⟨by simp, by simp [Instr.writeOperands, Op.writeOperands, hd]⟩
  | some d =>
      by_cases hp : isPinned pinned d.base = true
      · refine .inl ⟨by simpa using hp, ?_⟩
        simp [Instr.writeOperands, Op.writeOperands, hd, write, hp]
      · refine .inr ⟨d, rfl, by simpa using hp, ?_⟩
        simp [Instr.writeOperands, Op.writeOperands, hd, write, hp]

theorem dest?_rebuild (rd wr : Operand → Operand) (ins : Instr Operand) :
    (ins.rebuild rd wr).op.dest? = ins.op.dest?.map wr := Op.dest?_rebuild rd wr ins.op

theorem occ_rebuild (rd wr : Operand → Operand) (ins : Instr Operand) (t : Sym) :
    (ins.rebuild rd wr).occ t = (ins.readOperands.map fun o => (rd o).base).count t := by
  simp [Instr.occ, Instr.rebuild, Instr.readOperands, Function.comp_def]

/-- What holds between the reads and the write of `ins`: its reads are counted already. -/
structure Counted (pinned : List String) (done : List (Instr Operand)) (ins : Instr Operand) (st : TagState) : Prop where
  current : ∀ {x t}, st.current x = some t → ∃ k < st.counter, t = freshTag x k ∧ ∃ i, WritesTag done i t
  fresh : ∀ {i t}, isPinned pinned t = false → WritesTag done i t → ∃ x, ∃ k < st.counter, t = freshTag x k
  unique : ∀ {i j t}, isPinned pinned t = false → WritesTag done i t → WritesTag done j t → i = j
  defined : ∀ {j : Nat} {ins : Instr Operand} {o : Operand}, done[j]? = some ins → o ∈ ins.readOperands →
    isPinned pinned o.base = false → ∃ i < j, WritesTag done i o.base
  reads : ∀ {o}, o ∈ ins.readOperands → isPinned pinned o.base = false → ∃ i, WritesTag done i o.base
  count : ∀ {i t}, isPinned pinned t = false → WritesTag done i t → st.readCount t = some (totalOcc (done ++ [ins]) t : Int)
  count_some : ∀ {t}, (st.readCount t).isSome → isPinned pinned t = false ∧ ∃ i, WritesTag done i t

section counted

variable {done : List (Instr Operand)} {ins ins' : Instr Operand} {st st' : TagState}

theorem Ok.reads (h : Ok pinned done st) (hr : ins.readOperands.foldlM (read pinned) st = .ok st') (wr : Operand → Operand) :
    Counted pinned done (ins.rebuild (st'.version pinned) wr) st' := by
  obtain ⟨hc, hn, hos, hsome, hrc⟩ := read_foldlM hr
  have hv : st'.version pinned = st.version pinned := version_congr hc
  refine ⟨fun hx => ?_, fun ht hw => ?_, h.unique, h.defined, fun {o} ho hpo => ?_, fun {i t} ht hw => ?_, fun ht => h.count_some (hsome _ ht)⟩
  · rw [hn]
    exact h.current (hc ▸ hx)
  · rw [hn]
    exact h.fresh ht hw
  · simp only [Instr.rebuild, Instr.readOperands, Op.readOperands_rebuild, List.mem_map, hv] at ho
    obtain ⟨o₀, ho₀, rfl⟩ := ho
    by_cases hp₀ : isPinned pinned o₀.base = true
    · rw [version_of_pinned hp₀, hp₀] at hpo
      cases hpo
    · rw [Bool.not_eq_true] at hp₀
      obtain ⟨t, ht⟩ := hos o₀ ho₀ hp₀
      rw [version_of_current hp₀ ht, Operand.base_withBase]
      obtain ⟨k, hk, -, hi⟩ := h.current ht
      exact hi
  · rw [hrc t ht, h.count ht hw, totalOcc_append, occ_rebuild, hv]
    simp

theorem Counted.defined_append (h : Counted pinned done ins st) {j : Nat} {jns : Instr Operand} {o : Operand} (hj : (done ++ [ins])[j]? = some jns)
    (ho : o ∈ jns.readOperands) (hpo : isPinned pinned o.base = false) : ∃ i < j, WritesTag (done ++ [ins]) i o.base := by
  rcases Nat.lt_trichotomy j done.length with hlt | rfl | hgt
  · rw [List.getElem?_append_left hlt] at hj
    obtain ⟨i, hij, hw⟩ := h.defined hj ho hpo
    exact ⟨i, hij, writesTag_append.mpr (.inl hw)⟩
  · rw [List.getElem?_concat_length] at hj
    cases hj
    obtain ⟨i, hw⟩ := h.reads ho hpo
    exact ⟨i, hw.lt, writesTag_append.mpr (.inl hw)⟩
  · rw [List.getElem?_eq_none (by simp; omega)] at hj
    cases hj

theorem Counted.unwritten (h : Counted pinned done ins st) (hd : ∀ d, ins.op.dest? = some d → isPinned pinned d.base = true) :
    Ok pinned (done ++ [ins]) st := by
  have hnone : ∀ {i t}, isPinned pinned t = false → WritesTag (done ++ [ins]) i t → WritesTag done i t := by
    intro i t ht hwt
    rcases writesTag_append.mp hwt with hwt | ⟨-, d, hd', rfl⟩
    · exact hwt
    · rw [hd d hd'] at ht
      cases ht
  refine ⟨fun hx => ?_, fun ht hwt => h.fresh ht (hnone ht hwt), fun ht hi hj => h.unique ht (hnone ht hi) (hnone ht hj), h.defined_append,
    fun ht hwt => h.count ht (hnone ht hwt), fun ht => ?_⟩
  · obtain ⟨k, hk, hkt, i, hwi⟩ := h.current hx
    exact ⟨k, hk, hkt, i, writesTag_append.mpr (.inl hwi)⟩
  · obtain ⟨hpt, i, hwt⟩ := h.count_some ht
    exact ⟨hpt, i, writesTag_append.mpr (.inl hwt)⟩

theorem Counted.unread (h : Counted pinned done ins st) {t : Sym} (ht : isPinned pinned t = false) (hnew : ∀ i, ¬ WritesTag done i t) :
    totalOcc (done ++ [ins]) t = 0 := by
  rw [totalOcc, List.sum_eq_zero_iff_forall_eq_nat]
  rintro _ hm
  obtain ⟨jns, hj, rfl⟩ := List.mem_map.mp hm
  obtain ⟨j, hj⟩ := List.getElem?_of_mem hj
  rw [Instr.occ, List.count_eq_zero]
  intro hmem
  obtain ⟨o, ho, rfl⟩ := List.mem_map.mp hmem
  rcases List.mem_append.mp (List.mem_of_getElem? hj) with hin | hin
  · obtain ⟨k, hk⟩ := List.getElem?_of_mem hin
    obtain ⟨i, -, hwi⟩ := h.defined hk ho ht
    exact hnew i hwi
  · rw [List.mem_singleton.mp hin] at ho
    obtain ⟨i, hwi⟩ := h.reads ho ht
    exact hnew i hwi

theorem Counted.write (hp : NoHash pinned) (h : Counted pinned done ins st) {x : Sym} {d : Operand} (hd : ins.op.dest? = some d)
    (hdx : d.base = freshTag x st.counter) : Ok pinned (done ++ [ins])
      { current := Function.update st.current x (some (freshTag x st.counter))
        readCount := Function.update st.readCount (freshTag x st.counter) (some 0)
        counter := st.counter + 1 } := by
  set tag := freshTag x st.counter with htag
  have hptag : isPinned pinned tag = false := freshTag_unpinned hp _ _
  have hunwritten : ∀ i, ¬ WritesTag done i tag := by
    intro i hwt
    obtain ⟨x, k, hk, hkt⟩ := h.fresh hptag hwt
    have := freshTag_inj hkt
    omega
  have hold : ∀ {i t}, WritesTag done i t → t ≠ tag := by
    rintro i t hwt rfl
    exact hunwritten i hwt
  have hnew : WritesTag (done ++ [ins]) done.length tag := writesTag_append.mpr (.inr ⟨rfl, d, hd, hdx⟩)
  have hcases : ∀ {i t}, WritesTag (done ++ [ins]) i t → WritesTag done i t ∨ (i = done.length ∧ t = tag) := by
    intro i t hwt
    rcases writesTag_append.mp hwt with hwt | ⟨hi, d', hd', rfl⟩
    · exact .inl hwt
    · cases hd.symm.trans hd'
      exact .inr ⟨hi, hdx⟩
  constructor
  case current =>
    intro y t hy
    simp only [Function.update_apply] at hy
    split at hy
    · next hyx =>
        cases hy
        exact ⟨st.counter, by simp, by rw [hyx], _, hnew⟩
    · obtain ⟨k, hk, hkt, i, hwi⟩ := h.current hy
      exact ⟨k, by simp only; omega, hkt, i, writesTag_append.mpr (.inl hwi)⟩
  case fresh =>
    intro i t ht hwt
    rcases hcases hwt with hwt | ⟨-, rfl⟩
    · obtain ⟨y, k, hk, hkt⟩ := h.fresh ht hwt
      exact ⟨y, k, by simp only; omega, hkt⟩
    · exact ⟨x, st.counter, by simp, rfl⟩
  case unique =>
    intro i j t ht hi hj
    rcases hcases hi with hi | ⟨rfl, rfl⟩
    · rcases hcases hj with hj | ⟨rfl, rfl⟩
      · exact h.unique ht hi hj
      · exact absurd rfl (hold hi)
    · rcases hcases hj with hj | ⟨rfl, -⟩
      · exact absurd rfl (hold hj)
      · rfl
  case defined => exact h.defined_append
  case count =>
    intro i t ht hwt
    rcases hcases hwt with hwt | ⟨-, rfl⟩
    · simp only [Function.update_of_ne (hold hwt)]
      exact h.count ht hwt
    · simp [h.unread hptag hunwritten]
  case count_some =>
    intro t ht
    by_cases htt : t = tag
    · subst htt
      exact ⟨hptag, _, hnew⟩
    · simp only [Function.update_of_ne htt] at ht
      obtain ⟨hpt, i, hwt⟩ := h.count_some ht
      exact ⟨hpt, i, writesTag_append.mpr (.inl hwt)⟩

/-- One instruction keeps `Ok`. -/
theorem Ok.instr (hp : NoHash pinned) (h : Ok pinned done st) (hi : st.instr pinned ins = .ok (ins', st')) : Ok pinned (done ++ [ins']) st' := by
  obtain ⟨st₁, hr, hi⟩ := bind_eq_ok.mp hi
  obtain ⟨rfl, rfl⟩ := Prod.mk.inj (Except.ok.inj hi)
  have hcounted := h.reads hr ((ins.writeOperands.foldl (TagState.write pinned) st₁).version pinned)
  rcases write_cases pinned st₁ ins with ⟨hpin, hw⟩ | ⟨d, hd, hpd, hw⟩
  · rw [hw] at hcounted ⊢
    refine hcounted.unwritten fun d' hd' => ?_
    rw [dest?_rebuild] at hd'
    obtain ⟨d, hd, rfl⟩ := Option.map_eq_some_iff.mp hd'
    rw [version_of_pinned (hpin d hd), hpin d hd]
  · rw [hw] at hcounted ⊢
    refine hcounted.write hp (d := d.withBase (freshTag d.base st₁.counter)) ?_ (Operand.base_withBase _ _)
    rw [dest?_rebuild, hd, Option.map_some, version_of_current hpd (t := freshTag d.base st₁.counter) (by simp)]

end counted

theorem Ok.instrs (hp : NoHash pinned) {is done is' : List (Instr Operand)} {st st' : TagState}
    (h : Ok pinned done st) (hi : TagState.instrs pinned is st = .ok (is', st')) : Ok pinned (done ++ is') st' := by
  induction is generalizing done st is' with
  | nil =>
      cases hi
      simpa using h
  | cons i is ih =>
      obtain ⟨⟨i', st₁⟩, h₁, hi⟩ := bind_eq_ok.mp hi
      obtain ⟨⟨is'', st₂⟩, h₂, hi⟩ := bind_eq_ok.mp hi
      cases hi
      simpa using ih (h.instr hp h₁) h₂

end TagState

/-- `tag_raw_chains` yields a tagged program. -/
theorem tagRawChains_tagged {pinned : List String} (hp : NoHash pinned) {instrs is : List (Instr Operand)}
    {rc : Sym → Option Int} (h : tagRawChains instrs pinned = .ok (is, rc)) : Tagged pinned is rc := by
  obtain ⟨⟨is', st⟩, hi, h⟩ := bind_eq_ok.mp h
  cases h
  have hok : TagState.Ok pinned ([] ++ is) st := TagState.Ok.init.instrs hp hi
  rw [List.nil_append] at hok
  refine ⟨⟨hok.unique, fun {t} ht => ?_⟩, hok.defined, hok.count⟩
  rw [← Option.not_isSome_iff_eq_none]
  intro hs
  simp [(hok.count_some hs).1] at ht

end Vliw
