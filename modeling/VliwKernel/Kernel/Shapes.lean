import VliwKernel.Kernel.Accesses
import VliwKernel.Semantics.Opening

/-!
# The shape of the kernel

Under every setting of the toggles the stream is straight-line code with checks: its operands have the shapes that its
operations need, it writes whole variables and never the pinned one, and what it selects, stores and checks are variables.
-/

namespace Vliw

open Name (val addr path outAddr tree tree0Xor5 nv constVec constScalar eight header addrA K l4PlA l4PlB l4Addr treePreload)

/-- An operation of the stream. -/
structure Op.Formed (o : Op Operand) : Prop where
  noPause : o ≠ .pause
  shaped : o.Shaped
  writes : ∀ d, o.dest? = some d → isPinned PINNED d.base = false ∧ ∃ x, d = .sym x
  waits : o.engine.waits = true → ∃ a ∈ o.readOperands, isPinned PINNED a.base = false

section ops

variable {n m : Name} {a b c : Operand} {x y z u : Sym}

@[simp] theorem isPinned_sym : isPinned PINNED n.sym = false ↔ n ≠ constVec 0 := by
  rw [← Bool.not_eq_true, Flow.isPinned_iff]

theorem formed_iff {o : Op Operand} (hp : o ≠ .pause) (hd : o.dest? = some (.sym x)) (hw : o.engine.waits = false) :
    o.Formed ↔ o.Shaped ∧ isPinned PINNED x = false := by
  refine ⟨fun h => ⟨h.shaped, (h.writes _ hd).1⟩, fun h => ⟨hp, h.1, fun d hd' => ?_, fun hw' => ?_⟩⟩
  · cases hd.symm.trans hd'
    exact ⟨h.2, x, rfl⟩
  · rw [hw] at hw'
    cases hw'

@[simp] theorem formed_alu {op : AluOp} : (Op.alu op (.sym x) a b).Formed ↔
    (x.isVec = false ∧ a.isScalar = true ∧ b.isScalar = true) ∧ isPinned PINNED x = false := by
  rw [formed_iff (by simp) rfl rfl]
  simp [Op.Shaped, Operand.isScalar]

@[simp] theorem formed_vecElem {op : AluOp} : (Op.vecElem op (.sym x) a b).Formed ↔
    (x.isVec = true ∧ a.isVector = true ∧ b.isVector = true) ∧ isPinned PINNED x = false := by
  rw [formed_iff (by simp) rfl rfl]
  simp [Op.Shaped, Operand.isVector]

@[simp] theorem formed_vecFma : (Op.vecFma (.sym x) a b c).Formed ↔
    (x.isVec = true ∧ a.isVector = true ∧ b.isVector = true ∧ c.isVector = true) ∧ isPinned PINNED x = false := by
  rw [formed_iff (by simp) rfl rfl]
  simp [Op.Shaped, Operand.isVector]

@[simp] theorem formed_vBroadcast : (Op.vBroadcast (.sym x) a).Formed ↔ (x.isVec = true ∧ a.isScalar = true) ∧ isPinned PINNED x = false := by
  rw [formed_iff (by simp) rfl rfl]
  simp [Op.Shaped, Operand.isVector]

@[simp] theorem formed_load : (Op.load (.sym x) a).Formed ↔ (x.isVec = false ∧ a.isScalar = true) ∧ isPinned PINNED x = false := by
  rw [formed_iff (by simp) rfl rfl]
  simp [Op.Shaped, Operand.isScalar]

@[simp] theorem formed_vLoad : (Op.vLoad (.sym x) a).Formed ↔ (x.isVec = true ∧ a.isScalar = true) ∧ isPinned PINNED x = false := by
  rw [formed_iff (by simp) rfl rfl]
  simp [Op.Shaped, Operand.isVector]

@[simp] theorem formed_gather : (Op.gather (.sym x) a).Formed ↔ (x.isVec = true ∧ a.isVector = true) ∧ isPinned PINNED x = false := by
  rw [formed_iff (by simp) rfl rfl]
  simp [Op.Shaped, Operand.isVector]

@[simp] theorem formed_const {v : Int} : (Op.const (.sym x) v).Formed ↔ x.isVec = false ∧ isPinned PINNED x = false := by
  rw [formed_iff (by simp) rfl rfl]
  simp [Op.Shaped, Operand.isScalar]

@[simp] theorem formed_vSelect (hy : isPinned PINNED y = false) : (Op.vSelect (.sym x) (.sym y) a b).Formed ↔
    (x.isVec = true ∧ y.isVec = true ∧ a.isVector = true ∧ b.isVector = true) ∧ isPinned PINNED x = false := by
  refine ⟨fun h => ⟨h.shaped, (h.writes _ rfl).1⟩, fun h => ⟨by simp, h.1, fun d hd => ?_, fun _ => ⟨.sym y, List.mem_cons_self, hy⟩⟩⟩
  cases hd
  exact ⟨h.2, x, rfl⟩

@[simp] theorem formed_vStore (hy : isPinned PINNED y = false) : (Op.vStore a (.sym y)).Formed ↔ a.isScalar = true ∧ y.isVec = true :=
  ⟨fun h => h.shaped, fun h => ⟨by simp, h, fun d hd => (by cases hd), fun _ => ⟨.sym y, by simp [Op.readOperands], hy⟩⟩⟩

@[simp] theorem formed_debugVCompare (hy : isPinned PINNED y = false) {keys : List TraceKey} :
    (Op.debugVCompare (.sym y) keys).Formed ↔ y.isVec = true :=
  ⟨fun h => h.shaped, fun h => ⟨by simp, h, fun d hd => (by cases hd), fun _ => ⟨.sym y, List.mem_cons_self, hy⟩⟩⟩

end ops

def Name.isVec : Name → Bool
  | outAddr _ | l4Addr | eight | header _ | addrA | constScalar _ => false
  | _ => true

section names

variable {n : Name} {j : Nat}

@[simp] theorem sym_isVec : n.sym.isVec = n.isVec := by cases n <;> rfl

@[simp] theorem isScalar_sym : (Operand.sym n.sym).isScalar = !n.isVec := congrArg (! ·) sym_isVec

@[simp] theorem isVector_sym : (Operand.sym n.sym).isVector = n.isVec := sym_isVec

@[simp] theorem isScalar_lane : (n.lane j).isScalar = (n.isVec && decide (j < VLEN)) := congrArg (· && _) sym_isVec

end names
section prologue

variable {tg : Toggles} {nGroups : Nat}

theorem headerLoads_formed : ∀ o ∈ headerLoads, o.Formed := by
  simp [headerLoads, INIT_VARS, Name.isVec]

theorem valueLoads_formed : ∀ o ∈ valueLoads nGroups, o.Formed := by
  intro o ho
  simp only [valueLoads, List.mem_cons, List.mem_flatMap] at ho
  rcases ho with rfl | ⟨k, -, rfl | ho⟩
  · simp [Name.isVec, VLEN]
  · simp [Name.isVec]
  · split at ho
    · simp [List.mem_singleton.mp ho, Name.isVec]
    · cases ho

theorem broadcasts_formed {l : List (Name × Nat)} {seen : List Nat} (hl : ∀ p ∈ l, p.1.isVec = true ∧ p.1 ≠ constVec 0) :
    ∀ o ∈ broadcasts l seen, o.Formed := by
  induction l generalizing seen with
  | nil => simp [broadcasts]
  | cons p l ih =>
      have hp := hl p List.mem_cons_self
      have hscalar : (constScalar p.2).isVec = false := rfl
      have hrest : ∀ seen, ∀ o ∈ broadcasts l seen, o.Formed := fun _ => ih fun p hp => hl p (by simp [hp])
      rw [broadcasts]
      split
      · simpa [hp, hscalar] using hrest _
      · simpa [hp, hscalar] using hrest _

theorem smallConsts_formed : ∀ o ∈ smallConsts tg, o.Formed := by
  intro o ho
  simp only [smallConsts, computed, List.mem_append, List.mem_ite_nil_right, List.mem_cons, List.not_mem_nil, or_false] at ho
  rcases ho with (((((((⟨-, rfl⟩ | ⟨-, rfl⟩) | ⟨-, rfl⟩) | ⟨-, rfl⟩) | ⟨-, rfl⟩) | ⟨-, rfl⟩) | ⟨-, rfl⟩) | ⟨-, rfl | rfl⟩) | ⟨-, rfl⟩
  all_goals simp [Name.isVec]

theorem offsets_formed : ∀ o ∈ offsets, o.Formed := by simp [offsets, Name.isVec]

theorem treeLoads_formed : ∀ o ∈ treeLoads, o.Formed := by
  simp [treeLoads, Name.isVec, VLEN, or_imp, forall_and]
  decide

theorem level4Loads_formed : ∀ o ∈ level4Loads, o.Formed := by
  simp [level4Loads, Name.isVec, VLEN, or_imp, forall_and]
  decide

theorem vecBcasts_isVec : ∀ p ∈ vecBcasts tg, p.1.isVec = true ∧ p.1 ≠ constVec 0 := by
  intro p hp
  simp only [vecBcasts, List.mem_append, List.mem_map, List.mem_filter] at hp
  rcases hp with (hp | hp) | ⟨v, ⟨hv, -⟩, rfl⟩
  · revert p
    decide
  · split at hp <;> revert p <;> decide
  · refine ⟨rfl, ?_⟩
    rintro h
    cases h
    revert hv
    decide

theorem prologue_formed : ∀ o ∈ prologue tg nGroups, o.Formed := by
  intro o ho
  simp only [prologue, List.mem_append, List.mem_singleton, List.mem_ite_nil_right] at ho
  rcases ho with (((((((rfl | ho) | ho) | rfl) | ho) | ho) | ho) | ho) | ⟨-, ho⟩
  · simp [Name.isVec]
  · exact headerLoads_formed o ho
  · exact valueLoads_formed o ho
  · simp [Name.isVec]
  · exact broadcasts_formed vecBcasts_isVec o ho
  · exact smallConsts_formed o ho
  · exact offsets_formed o ho
  · exact treeLoads_formed o ho
  · exact level4Loads_formed o ho

end prologue
section body

variable {tg : Toggles} {h nGroups rounds r g : Nat}

theorem outAddrs_formed : ∀ o ∈ outAddrs nGroups, o.Formed := by
  intro o ho
  obtain ⟨g, -, ho⟩ := List.mem_flatMap.mp ho
  simp only [List.mem_cons, List.not_mem_nil, or_false] at ho
  rcases ho with rfl | rfl <;> simp [Name.isVec]

theorem roundPrelude_formed : ∀ o ∈ roundPrelude tg h r, o.Formed := by
  intro o ho
  simp only [roundPrelude, List.mem_append, List.mem_ite_nil_right] at ho
  rcases ho with ⟨-, ho⟩ | ⟨-, ho⟩
  · rw [List.mem_singleton.mp ho]
    simp [Name.isVec]
  · revert o
    simp [Name.isVec, VLEN, or_imp, forall_and]
    decide

theorem nodeSlots_formed : (nodeSlots tg h r g).1.isVec = true ∧ (nodeSlots tg h r g).1 ≠ constVec 0 ∧ ∀ o ∈ (nodeSlots tg h r g).2, o.Formed := by
  unfold nodeSlots
  split
  · dsimp only
    split <;> split <;> simp [Name.isVec]
  · simp [Name.isVec]
  · simp [Name.isVec]
  · refine ⟨rfl, by simp, fun o ho => ?_⟩
    simp only [level3Slots, List.mem_append, List.mem_ite_nil_right] at ho
    rcases ho with ⟨-, ho⟩ | ho <;> revert o <;> simp [Name.isVec]
  · refine ⟨rfl, by simp, ?_⟩
    dsimp only
    split
    · simp [level4Slots, Name.isVec]
    · simp [Name.isVec]
  · simp [Name.isVec]

theorem updateSlots_formed : ∀ o ∈ updateSlots h r g, o.Formed := by
  unfold updateSlots
  split
  · simp [Name.isVec]
  · dsimp only
    split <;> simp [Name.isVec]

end body
section hash

variable {T : HashTable} {fuse deferC5 : Bool} {v t1 t2 : Sym} {r base : Nat} {fma irr : Dict Nat Sym} {ops : List (Op Operand)}
  (hv : v.isVec = true ∧ isPinned PINNED v = false) (ht1 : t1.isVec = true ∧ isPinned PINNED t1 = false)
  (ht2 : t2.isVec = true ∧ isPinned PINNED t2 = false) (hfma : ∀ k x, fma.get? k = some x → x.isVec = true)
  (hirr : ∀ k x, irr.get? k = some x → x.isVec = true)

include hv ht1 ht2 hfma

theorem fusedSlots_formed (hok : fusedSlots T v t1 t2 r base fma = .ok ops) : ∀ o ∈ ops, o.Formed := by
  obtain ⟨m2, hm2, hok⟩ := bind_eq_ok.mp hok
  obtain ⟨add1, ha1, hok⟩ := bind_eq_ok.mp hok
  obtain ⟨mult, hm, hok⟩ := bind_eq_ok.mp hok
  obtain ⟨add2, ha2, hok⟩ := bind_eq_ok.mp hok
  cases hok
  have hm2 := hfma _ _ (lookup_eq_ok.mp hm2)
  have ha1 := hfma _ _ (lookup_eq_ok.mp ha1)
  have hm := hfma _ _ (lookup_eq_ok.mp hm)
  have ha2 := hfma _ _ (lookup_eq_ok.mp ha2)
  simp [Operand.isVector, hv, ht1, ht2, hm2, ha1, hm, ha2]

include hirr

theorem hashSlots_formed {hi : Nat} {st : HashStage} (hok : hashSlots v t1 t2 r base fma irr deferC5 hi st = .ok ops) : ∀ o ∈ ops, o.Formed := by
  unfold hashSlots at hok
  split at hok
  · obtain ⟨shift, hs, hok⟩ := bind_eq_ok.mp hok
    cases hok
    have hs := hirr _ _ (lookup_eq_ok.mp hs)
    simp [Operand.isVector, hv, ht2, hs]
  · split at hok
    · obtain ⟨mult, hm, hok⟩ := bind_eq_ok.mp hok
      obtain ⟨addend, ha, hok⟩ := bind_eq_ok.mp hok
      cases hok
      have hm := hfma _ _ (lookup_eq_ok.mp hm)
      have ha := hfma _ _ (lookup_eq_ok.mp ha)
      simp [Operand.isVector, hv, hm, ha]
    · obtain ⟨k, hk, hok⟩ := bind_eq_ok.mp hok
      obtain ⟨shift, hs, hok⟩ := bind_eq_ok.mp hok
      cases hok
      have hk := hirr _ _ (lookup_eq_ok.mp hk)
      have hs := hirr _ _ (lookup_eq_ok.mp hs)
      simp [Operand.isVector, hv, ht1, ht2, hk, hs]

theorem hashLoop_formed {n hi : Nat} (hok : hashLoop T fuse v t1 t2 r base fma irr deferC5 n hi = .ok ops) : ∀ o ∈ ops, o.Formed := by
  induction n generalizing hi ops with
  | zero =>
      cases hok
      simp
  | succ n ih =>
      rw [hashLoop] at hok
      split at hok
      · split at hok
        · obtain ⟨slots, hslots, hok⟩ := bind_eq_ok.mp hok
          obtain ⟨rest, hloop, hok⟩ := bind_eq_ok.mp hok
          cases hok
          exact List.forall_mem_append.mpr ⟨fusedSlots_formed hv ht1 ht2 hfma hslots, ih hloop⟩
        · obtain ⟨slots, hslots, hok⟩ := bind_eq_ok.mp hok
          obtain ⟨rest, hloop, hok⟩ := bind_eq_ok.mp hok
          cases hok
          exact List.forall_mem_append.mpr ⟨hashSlots_formed hv ht1 ht2 hfma hirr hslots, ih hloop⟩
      · cases hok
        simp

end hash
section stream

variable {tg : Toggles} {rounds r n g : Nat} {ops : List (Op Operand)}

theorem constDict_isVec {l : List (Nat × Name)} (hl : ∀ p ∈ l, p.2.isVec = true) (k : Nat) (x : Sym) (hk : (constDict l).get? k = some x) :
    x.isVec = true := by
  obtain ⟨⟨k, n⟩, hn, heq⟩ := List.mem_map.mp (Dict.mem_of_get?_ofList hk)
  cases heq
  exact sym_isVec.trans (hl _ hn)

theorem fmaVecConsts_isVec (k : Nat) (x : Sym) (hk : (fmaVecConsts tg).get? k = some x) : x.isVec = true := by
  unfold fmaVecConsts at hk
  split at hk <;> exact constDict_isVec (by decide) k x hk

theorem groupSlots_formed (hok : groupSlots tg 10 rounds r g = .ok ops) : ∀ o ∈ ops, o.Formed := by
  obtain ⟨hash, hhash, hgroup⟩ := groupSlots_ok tg r g rounds
  cases hgroup.symm.trans hok
  obtain ⟨hnv, hpin, hnode⟩ := @nodeSlots_formed tg 10 r g
  have hloop := hashLoop_formed (by simp [Name.isVec]) (by simp [Name.isVec]) (by simp [Name.isVec]) fmaVecConsts_isVec
    (constDict_isVec (by decide)) hhash
  have hval : (val g).isVec = true := rfl
  intro o ho
  simp only [coreSlots, List.mem_append, or_assoc] at ho
  rcases ho with ho | ho | ho | ho | ho | ho | ho
  · exact hnode o ho
  · split at ho
    · cases ho
    · revert o
      simp [hnv, hpin, hval]
  · rw [List.mem_singleton.mp ho]
    simp [hnv, hval]
  · exact hloop o ho
  · split at ho
    · cases ho
    · rw [List.mem_singleton.mp ho]
      simp [hval]
  · exact updateSlots_formed o ho
  · split at ho
    · rw [List.mem_singleton.mp ho]
      simp [Name.isVec]
    · cases ho

theorem bodySlots_formed (hok : bodySlots tg 10 32 rounds n = .ok ops) : ∀ o ∈ ops, o.Formed := by
  obtain ⟨rs, hrs, hok⟩ := bind_eq_ok.mp hok
  cases hok
  refine List.forall_mem_append.mpr ⟨outAddrs_formed, fun o ho => ?_⟩
  obtain ⟨round, hround, ho⟩ := List.mem_flatten.mp ho
  obtain ⟨r, -, hr⟩ := exists_of_mem_mapM hrs hround
  obtain ⟨groups, hgroups, hr⟩ := bind_eq_ok.mp hr
  cases hr
  rcases List.mem_append.mp ho with ho | ho
  · exact roundPrelude_formed o ho
  · obtain ⟨group, hgroup, ho⟩ := List.mem_flatten.mp ho
    obtain ⟨g, -, hg⟩ := exists_of_mem_mapM hgroups hgroup
    exact groupSlots_formed hg o ho

/-- The stream is straight-line code with checks, and all that waits in it reads a variable. -/
theorem number_formed {c : Nat} (h : ∀ o ∈ ops, o.Formed) : Checked PINNED (number c ops) ∧ Waits PINNED (number c ops) := by
  have hop : ∀ ins ∈ number c ops, ins.op.Formed := fun ins hins => h _ (number_map_op c ops ▸ List.mem_map_of_mem hins)
  exact ⟨fun ins hins => ⟨(hop ins hins).noPause, (hop ins hins).shaped, fun hd => (hop ins hins).writes _ hd⟩, fun ins hins => (hop ins hins).waits⟩

end stream
end Vliw
