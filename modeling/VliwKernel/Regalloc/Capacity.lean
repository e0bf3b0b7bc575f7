import Mathlib.Algebra.Order.BigOperators.Group.Finset
import Mathlib.Data.Set.Card
import VliwKernel.Regalloc.Runs

/-!
# The capacity of the register file

Free granules, claimed granules and live tags account for every word of scratch. So a register is refused under pressure
only: a scalar when every word is in use, a vector when the live vectors and the most scalars that were live at once come
within seven words of that.
-/

namespace Vliw

theorem Dict.sum_values {κ : Type} (d : Dict κ Nat) : (d.items.map Prod.snd).sum = (d.keys.map fun k => (d.get? k).getD 0).sum := by
  rw [Dict.items]
  induction d.keys with
  | nil => rfl
  | cons k ks ih =>
      cases hk : d.get? k with
      | none => simp [hk, ih]
      | some v => simp [hk, ih]

namespace Tables

variable {t : Tables}

def live (t : Tables) (v : Bool) : Set Sym := {s | s.isVec = v ∧ (t.assigned s).isSome}

noncomputable def liveVectors (t : Tables) : Nat := (t.live true).ncard

noncomputable def liveScalars (t : Tables) : Nat := (t.live false).ncard

def claims (t : Tables) : Nat := t.granuleFree.keys.length

section accounts

theorem Inv.homes (h : t.Inv) (v : Bool) : (t.live v).InjOn (fun s => (t.assigned s).getD 0) ∧
    (fun s => (t.assigned s).getD 0) '' t.live v = {a | ∃ s, s.isVec = v ∧ t.assigned s = some a} := by
  constructor
  · rintro s ⟨hv, hs⟩ s' ⟨hv', hs'⟩ heq
    obtain ⟨a, ha⟩ := Option.isSome_iff_exists.mp hs
    obtain ⟨a', ha'⟩ := Option.isSome_iff_exists.mp hs'
    simp only [ha, ha', Option.getD_some] at heq
    exact h.assigned_inj (hv.trans hv'.symm) ha (heq ▸ ha')
  · ext a
    constructor
    · rintro ⟨s, ⟨hv, hs⟩, rfl⟩
      obtain ⟨a, ha⟩ := Option.isSome_iff_exists.mp hs
      exact ⟨s, hv, by simp [ha]⟩
    · rintro ⟨s, hv, hs⟩
      exact ⟨s, ⟨hv, by simp [hs]⟩, by simp [hs]⟩

theorem Inv.live_card (h : t.Inv) {v : Bool} {H : Finset Nat} (hH : ∀ a, a ∈ H ↔ ∃ s, s.isVec = v ∧ t.assigned s = some a) :
    (t.live v).Finite ∧ (t.live v).ncard = H.card := by
  obtain ⟨hinj, himage⟩ := h.homes v
  have heq : (fun s => (t.assigned s).getD 0) '' t.live v = ↑H := by
    rw [himage]
    ext a
    exact (hH a).symm
  refine ⟨Set.Finite.of_finite_image (heq ▸ H.finite_toSet) hinj, ?_⟩
  rw [← hinj.ncard_image, heq, Set.ncard_coe_finset]

theorem mem_claimed {g : Nat} : g ∈ t.granuleFree.keys ↔ t.Claimed g := t.granuleFree.mem_keys g

/-- A granule is free, the home of a vector, or claimed. -/
theorem Inv.granules (h : t.Inv) : (t.live true).Finite ∧ t.freeVec.length + t.liveVectors + t.claims = allGranules.length := by
  classical
  obtain ⟨hfin, hcard⟩ := h.live_card (v := true) (H := allGranules.toFinset.filter t.VecAt) (by
    intro a
    rw [Finset.mem_filter, List.mem_toFinset, mem_allGranules]
    exact ⟨And.right, fun ha => ⟨h.vec_granule ha, ha⟩⟩)
  refine ⟨hfin, ?_⟩
  have hall : allGranules.toFinset = t.freeVec.toFinset ∪ allGranules.toFinset.filter t.VecAt ∪ t.granuleFree.keys.toFinset := by
    ext g
    simp only [Finset.mem_union, List.mem_toFinset, Finset.mem_filter, mem_allGranules, mem_claimed]
    constructor
    · intro hg
      rcases h.covered hg with hf | hv | hc
      · exact .inl (.inl hf)
      · exact .inl (.inr ⟨hg, hv⟩)
      · exact .inr hc
    · rintro ((hf | ⟨hg, -⟩) | hc)
      · exact h.free_granule hf
      · exact hg
      · exact h.claimed_granule hc
  have hd : Disjoint t.freeVec.toFinset (allGranules.toFinset.filter t.VecAt) := by
    rw [Finset.disjoint_left]
    intro g hf hv
    exact h.free_vec (List.mem_toFinset.mp hf) (Finset.mem_filter.mp hv).2
  have hd' : Disjoint (t.freeVec.toFinset ∪ allGranules.toFinset.filter t.VecAt) t.granuleFree.keys.toFinset := by
    rw [Finset.disjoint_left]
    intro g hg hc
    have hcl := mem_claimed.mp (List.mem_toFinset.mp hc)
    rcases Finset.mem_union.mp hg with hf | hv
    · exact h.free_claimed (List.mem_toFinset.mp hf) hcl
    · exact h.vec_claimed (Finset.mem_filter.mp hv).2 hcl
  have hnd : allGranules.Nodup := List.nodup_range' VLEN (by decide)
  rw [liveVectors, hcard, claims, ← List.toFinset_card_of_nodup h.free_nodup, ← List.toFinset_card_of_nodup t.granuleFree.nodup,
    ← List.toFinset_card_of_nodup hnd, ← Finset.card_union_of_disjoint hd, ← Finset.card_union_of_disjoint hd', ← hall]

theorem Inv.granule_words (h : t.Inv) [DecidablePred t.WordAt] {g : Nat} (hg : t.Claimed g) :
    (t.granuleFree.get? g).getD 0 + ((granuleRange g).toFinset.filter t.WordAt).card = VLEN := by
  obtain ⟨c, hc⟩ := Option.isSome_iff_exists.mp hg
  obtain ⟨ws, -, hlen, hnd, hmem⟩ := h.words hc
  have hfree : ws.toFinset = (granuleRange g).toFinset.filter fun w => ¬ t.WordAt w := by
    ext w
    rw [List.mem_toFinset, hmem, Finset.mem_filter, List.mem_toFinset, mem_granuleRange]
  rw [hc, Option.getD_some, ← hlen, ← List.toFinset_card_of_nodup hnd, hfree, Nat.add_comm, Finset.card_filter_add_card_filter_not,
    List.toFinset_card_of_nodup (nodup_granuleRange g), granuleRange, List.length_range']

theorem Inv.words_account (h : t.Inv) : (t.live false).Finite ∧ t.freeScalarCount + t.liveScalars = VLEN * t.claims := by
  classical
  have hdisj : ∀ g ∈ t.granuleFree.keys.toFinset, ∀ g' ∈ t.granuleFree.keys.toFinset, g ≠ g' →
      Disjoint ((granuleRange g).toFinset.filter t.WordAt) ((granuleRange g').toFinset.filter t.WordAt) := by
    intro g hg g' hg' hne
    rw [Finset.disjoint_left]
    intro w hw hw'
    rw [Finset.mem_filter, List.mem_toFinset, mem_granuleRange] at hw hw'
    exact hne (granule_of_word (h.claimed_granule (mem_claimed.mp (List.mem_toFinset.mp hg)))
      (h.claimed_granule (mem_claimed.mp (List.mem_toFinset.mp hg'))) hw.1 hw'.1)
  obtain ⟨hfin, hcard⟩ := h.live_card (v := false)
    (H := t.granuleFree.keys.toFinset.biUnion fun g => (granuleRange g).toFinset.filter t.WordAt) (by
      intro w
      simp only [Finset.mem_biUnion, Finset.mem_filter, List.mem_toFinset, mem_claimed, mem_granuleRange]
      constructor
      · rintro ⟨g, -, -, hw⟩
        exact hw
      · intro hw
        obtain ⟨g, hg, hr⟩ := h.word_claimed hw
        exact ⟨g, hg, hr, hw⟩)
  refine ⟨hfin, ?_⟩
  have hsum : t.freeScalarCount = ∑ g ∈ t.granuleFree.keys.toFinset, (t.granuleFree.get? g).getD 0 := by
    rw [freeScalarCount, Dict.sum_values, List.sum_toFinset _ t.granuleFree.nodup]
  have hwords : ∀ g ∈ t.granuleFree.keys.toFinset,
      (t.granuleFree.get? g).getD 0 + ((granuleRange g).toFinset.filter t.WordAt).card = VLEN :=
    fun g hg => h.granule_words (mem_claimed.mp (List.mem_toFinset.mp hg))
  rw [liveScalars, hcard, Finset.card_biUnion hdisj, hsum, ← Finset.sum_add_distrib, Finset.sum_const_nat hwords,
    List.toFinset_card_of_nodup t.granuleFree.nodup, claims, Nat.mul_comm]

/-- Every word of scratch beside the pinned ones is free, part of a live vector or a live scalar. -/
theorem Inv.balance (h : t.Inv) :
    VLEN * t.freeVec.length + t.freeScalarCount + (VLEN * t.liveVectors + t.liveScalars) = SCRATCH_SIZE - VLEN := by
  have hg := h.granules.2
  have hw := h.words_account.2
  have hlen : allGranules.length = 191 := rfl
  simp only [VLEN, SCRATCH_SIZE] at *
  omega

end accounts
section refusal

/-- The search finds a granule unless every claimed one is full. -/
theorem bestFit_none : t.bestFit = none ↔ t.freeScalarCount = 0 := by
  have hkeep : ∀ (l : List (Nat × Nat)) (b : Nat × Nat), l.foldl betterFit (some b) ≠ none := by
    intro l
    induction l with
    | nil => exact fun _ => Option.some_ne_none _
    | cons x l ih =>
        intro b
        rw [List.foldl_cons]
        simp only [betterFit]
        split <;> exact ih _
  have key : ∀ l : List (Nat × Nat), l.foldl betterFit none = none ↔ (l.map Prod.snd).sum = 0 := by
    intro l
    induction l with
    | nil => simp
    | cons x l ih =>
        rw [List.foldl_cons, List.map_cons, List.sum_cons]
        simp only [betterFit]
        split
        · next hpos =>
            simp only [hkeep l x, false_iff]
            omega
        · next hzero =>
            rw [ih]
            omega
  exact key t.granuleFree.items

/-- A scalar is refused a register exactly when every word is in use. -/
theorem Inv.scalar_refused (h : t.Inv) {s : Sym} (hv : s.isVec = false) (hs : t.assigned s = none) :
    t.canWrite s = false ↔ VLEN * t.liveVectors + t.liveScalars = SCRATCH_SIZE - VLEN := by
  have hbal := h.balance
  have hfit := @bestFit_none t
  have hlen : t.freeVec.isEmpty = true ↔ t.freeVec.length = 0 := by simp
  simp only [canWrite, hs, hv, Option.isSome_none, Bool.false_or, Bool.false_eq_true, if_false, Bool.or_eq_false_iff,
    Bool.not_eq_false', hlen, Option.isSome_eq_false_iff, Option.isNone_iff_eq_none, hfit]
  simp only [VLEN] at *
  omega

/-- A vector is refused a register exactly when no granule is free. -/
theorem Inv.vector_refused (h : t.Inv) {s : Sym} (hv : s.isVec = true) (hs : t.assigned s = none) :
    t.canWrite s = false ↔ t.liveVectors + t.claims = allGranules.length := by
  have hgr := h.granules.2
  have hlen : t.freeVec.isEmpty = true ↔ t.freeVec.length = 0 := by simp
  simp only [canWrite, hs, hv, Option.isSome_none, Bool.false_or, if_true, Bool.not_eq_false', hlen]
  omega

end refusal
section claims

theorem claims_set {g c c' : Nat} (h : t.granuleFree.get? g = some c) : (t.granuleFree.set g c').keys = t.granuleFree.keys :=
  Dict.keys_set_of_some h c'

/-- Only a claim adds to the claimed granules. -/
theorem take_claims {s : Sym} {a : Nat} {claimed : Bool} {u : Tables} (h : t.Inv) (htake : t.take s = .ok (a, claimed, u))
    (hu : TakeStep t s a claimed u) : u.claims = t.claims ∨ s.isVec = false ∧ t.freeScalarCount = 0 ∧ u.claims = t.claims + 1 := by
  cases hu with
  | vec hv hf => exact .inl rfl
  | word hv hc hws => exact .inl (congrArg List.length (claims_set hc))
  | @claim g rest hv hf =>
      right
      have hnone : t.granuleFree.get? g = none := by
        rw [← Option.not_isSome_iff_eq_none]
        exact h.free_claimed (by simp [hf])
      refine ⟨hv, bestFit_none.mp ?_, ?_⟩
      · cases hb : t.bestFit with
        | none => rfl
        | some b =>
            simp only [Tables.take, hv, hb, Bool.false_eq_true, if_false] at htake
            obtain ⟨⟨a', u'⟩, -, htake⟩ := bind_eq_ok.mp htake
            cases htake
      · simp [claims, claimWord, Dict.keys_set_of_none hnone]

theorem giveBack_claims {s : Sym} {a : Nat} {p : Option DeallocPath} {u : Tables} (hu : GiveBack t s a p u) : u.claims ≤ t.claims := by
  cases hu with
  | vec hv => exact Nat.le_refl _
  | ret hv hg hc hws hnot => exact Nat.le_of_eq (congrArg List.length (claims_set hc))
  | @rev g ws hv hco hc hws =>
      have hle : (t.granuleFree.erase g).keys.length ≤ t.granuleFree.keys.length := List.erase_sublist.length_le
      simpa only [claims, dropped, returned, Dict.erase_set_idem hc] using hle

theorem pushWord_claims {g a : Nat} {u : Tables} (h : t.pushWord g a = .ok u) : u.claims = t.claims := by
  obtain ⟨ws, -, h⟩ := bind_eq_ok.mp h
  obtain ⟨c, hc, h⟩ := bind_eq_ok.mp h
  cases h
  exact congrArg List.length (claims_set (getKey_eq_ok.mp hc))

theorem unassign_claims {s : Sym} {a : Nat} {u : Tables} (h : t.unassign s = .ok (a, u)) : u.claims = t.claims := by
  obtain ⟨x, -, h⟩ := bind_eq_ok.mp h
  obtain ⟨y, -, h⟩ := bind_eq_ok.mp h
  cases h
  rfl

theorem dropGranule_claims {g : Nat} {words : List Nat} {u : Tables} (h : t.dropGranule g words = .ok u) : u.claims ≤ t.claims := by
  unfold dropGranule at h
  split at h
  · cases h
    exact List.erase_sublist.length_le
  · cases h

end claims
end Tables

namespace RegisterAllocator
open Tables

variable {rc : Sym → Option Int} {a b : RegisterAllocator} {s : Sym} {ops : List AllocOp} {peak : Nat}

theorem read_claims (h : a.read s = .ok b) : b.tab.val.claims = a.tab.val.claims := by
  obtain ⟨n, -, h⟩ := bind_eq_ok.mp h
  dsimp only at h
  split at h
  · obtain ⟨⟨addr, t⟩, ht, h⟩ := bind_eq_ok.mp h
    have hun := unassign_claims ht
    dsimp only at h
    split at h
    · cases h
      exact hun
    · obtain ⟨g, -, h⟩ := bind_eq_ok.mp h
      obtain ⟨u, hu, h⟩ := bind_eq_ok.mp h
      cases h
      exact (pushWord_claims hu).trans hun
  · cases h
    rfl

theorem unwrite_claims (h : a.tab.val.Inv) (hb : a.unwrite rc s = .ok b) : b.tab.val.claims ≤ a.tab.val.claims := by
  rcases unwrite_cases h hb with rfl | ⟨addr, n, p, u, -, -, -, hu, rfl⟩
  · exact Nat.le_refl _
  · exact giveBack_claims hu

theorem collect_claims (h : a.collectScalarGarbage = .ok b) : b.tab.val.claims ≤ a.tab.val.claims := by
  obtain ⟨t, ht, h⟩ := bind_eq_ok.mp h
  cases h
  refine foldlM_inv (I := fun u : Tables => u.claims ≤ a.tab.val.claims) (fun g _ u u' hstep hle => ?_) ht (Nat.le_refl _)
  obtain ⟨ws, -, hstep⟩ := bind_eq_ok.mp hstep
  obtain ⟨v, hv, hstep⟩ := bind_eq_ok.mp hstep
  cases hstep
  exact (dropGranule_claims hv).trans hle

theorem Wrote.live {n : Int} {addr : Nat} (h : Wrote rc a s n addr b) : b.tab.val.live s.isVec = insert s (a.tab.val.live s.isVec) := by
  ext x
  simp only [Tables.live, h.assigned, Set.mem_ofPred_eq, Set.mem_insert_iff, Function.update_apply]
  by_cases hx : x = s <;> simp [hx]

theorem Wrote.live_of_ne {n : Int} {addr : Nat} (h : Wrote rc a s n addr b) {v : Bool} (hv : v ≠ s.isVec) :
    b.tab.val.live v = a.tab.val.live v := by
  ext x
  simp only [Tables.live, h.assigned, Set.mem_ofPred_eq, Function.update_apply]
  by_cases hx : x = s
  · subst hx
    simp [hv.symm]
  · simp [hx]

/-- A granule is claimed only while the scalars that are live fill those claimed before. -/
theorem write_claims (h : a.tab.val.Inv) (hcan : a.canWrite s = true) {addr : Nat} (hb : a.write rc s = .ok (addr, b))
    (hpeak : b.tab.val.liveScalars ≤ peak) (hle : VLEN * a.tab.val.claims < peak + VLEN) : VLEN * b.tab.val.claims < peak + VLEN := by
  rcases write_cases h hcan hb with ⟨-, rfl⟩ | ⟨n, hs, hn, hw⟩
  · exact hle
  · obtain ⟨addr', claimed, u, htake, hu⟩ := h.take hs hcan
    have hval : b.tab.val.claims = u.claims := by
      simp only [write, hs, htake, getKey, hn, bind_ok] at hb
      cases hb
      rfl
    rw [hval]
    rcases take_claims h htake hu with heq | ⟨hv, hfull, heq⟩
    · rwa [heq]
    · obtain ⟨hfin, hwords⟩ := h.words_account
      have hnot : s ∉ a.tab.val.live false := fun hm => by simp [Tables.live, hs] at hm
      have hlive : b.tab.val.liveScalars = a.tab.val.liveScalars + 1 := by
        rw [liveScalars, ← hv, hw.live, hv, Set.ncard_insert_of_notMem hnot hfin, liveScalars]
      rw [heq]
      simp only [VLEN] at *
      omega

theorem op_claims (h : a.tab.val.Inv) {op : AllocOp} (he : op.Enabled a) (hb : op.run rc a = .ok b) (hpeak : b.tab.val.liveScalars ≤ peak)
    (hle : VLEN * a.tab.val.claims < peak + VLEN) : VLEN * b.tab.val.claims < peak + VLEN := by
  cases op with
  | write s =>
      obtain ⟨⟨addr, b'⟩, hw, hb⟩ := bind_eq_ok.mp hb
      cases hb
      exact write_claims h he hw hpeak hle
  | read s => rwa [read_claims hb]
  | unwrite s => exact (Nat.mul_le_mul_left VLEN (unwrite_claims h hb)).trans_lt hle
  | collect => exact (Nat.mul_le_mul_left VLEN (collect_claims hb)).trans_lt hle

/-- An allocator in use by at most `peak` scalars at a time. -/
abbrev PeakRun (rc : Sym → Option Int) (peak : Nat) (a : RegisterAllocator) (ops : List AllocOp) (b : RegisterAllocator) : Prop :=
  AllocRun rc (fun a op => op.Enabled a ∧ a.tab.val.liveScalars ≤ peak) a ops b ∧ b.tab.val.liveScalars ≤ peak

/-- The claimed granules are never more than the scalars filled when most of them were live. -/
theorem PeakRun.claims (h : a.tab.val.Inv) (hle : VLEN * a.tab.val.claims < peak + VLEN) (hr : PeakRun rc peak a ops b) :
    b.tab.val.Inv ∧ VLEN * b.tab.val.claims < peak + VLEN := by
  obtain ⟨hr, hlast⟩ := hr
  induction hr with
  | nil => exact ⟨h, hle⟩
  | @cons a c b op ops hp hop hrest ih =>
      have hpeak : c.tab.val.liveScalars ≤ peak := by
        cases hrest with
        | nil => exact hlast
        | cons hp' _ _ => exact hp'.2
      exact ih (Inv.op h hp.1 hop) (op_claims h hp.1 hop hpeak hle) hlast

theorem PeakRun.of_vectors {ops : List AllocOp} (h : a.tab.val.Inv) (hvec : ∀ op ∈ ops, ∃ s : Sym, op = .write s ∧ s.isVec = true)
    (hr : AllocRun rc (fun a op => op.Enabled a) a ops b) : PeakRun rc a.tab.val.liveScalars a ops b := by
  induction hr with
  | nil a => exact ⟨.nil a, Nat.le_refl _⟩
  | @cons a c b op ops he hop hrest ih =>
      obtain ⟨s, rfl, hv⟩ := hvec op (List.mem_cons_self ..)
      have hlive : c.tab.val.liveScalars = a.tab.val.liveScalars := by
        obtain ⟨⟨addr, c'⟩, hw, hop'⟩ := bind_eq_ok.mp hop
        cases hop'
        rcases write_cases h he hw with ⟨-, rfl⟩ | ⟨n, -, -, hwrote⟩
        · rfl
        · rw [liveScalars, hwrote.live_of_ne (by simp [hv]), liveScalars]
      obtain ⟨hrun, hlast⟩ := ih (Inv.op h he hop) fun op hmem => hvec op (List.mem_cons_of_mem _ hmem)
      rw [hlive] at hrun hlast
      exact ⟨.cons ⟨he, Nat.le_refl _⟩ hop hrun, hlast⟩

/-- In every run the words of scratch are accounted for. A scalar is refused a register exactly when all of them are in use; a vector
exactly when every granule is a live vector or claimed, and then the live vectors and the most scalars that were live at
once come within seven words of all of scratch. -/
theorem refused_under_pressure (rc : Sym → Option Int) {ops : List AllocOp} {a : RegisterAllocator} (hr : PeakRun rc peak .init ops a) :
    VLEN * a.tab.val.freeVec.length + a.tab.val.freeScalarCount + (VLEN * a.tab.val.liveVectors + a.tab.val.liveScalars) =
      SCRATCH_SIZE - VLEN ∧
    ∀ s, a.tab.val.assigned s = none →
      (s.isVec = false → (a.canWrite s = false ↔ VLEN * a.tab.val.liveVectors + a.tab.val.liveScalars = SCRATCH_SIZE - VLEN)) ∧
      (s.isVec = true → (a.canWrite s = false ↔ a.tab.val.liveVectors + a.tab.val.claims = allGranules.length) ∧
        (a.canWrite s = false → SCRATCH_SIZE - VLEN ≤ VLEN * a.tab.val.liveVectors + peak + 7)) := by
  obtain ⟨hinv, hclaims⟩ := hr.claims Inv.init (by simp [Tables.claims, RegisterAllocator.init, Tables.init, VLEN])
  refine ⟨hinv.balance, fun s hs => ⟨fun hv => hinv.scalar_refused hv hs, fun hv => ⟨hinv.vector_refused hv hs, fun href => ?_⟩⟩⟩
  have hfull := (hinv.vector_refused hv hs).mp href
  have hlen : allGranules.length = 191 := rfl
  simp only [VLEN, SCRATCH_SIZE] at *
  omega

/-- With every granule given to a vector, one more is refused. -/
theorem refused_under_pressure_vectors : ∃ a, PeakRun (fun _ => some 1) 0 .init (vectors 191) a ∧ a.canWrite ⟨"v", true⟩ = false ∧
    a.tab.val.liveVectors + a.tab.val.claims = allGranules.length ∧ SCRATCH_SIZE - VLEN ≤ VLEN * a.tab.val.liveVectors + 0 + 7 := by
  have hrun : (AllocOp.runAll? (fun _ => some 1) (vectors 191) .init).map
      (fun a => (a.tab.val.assigned ⟨"v", true⟩, a.canWrite ⟨"v", true⟩)) = some (none, false) := by decide +kernel
  obtain ⟨a, ha, hout⟩ := Option.map_eq_some_iff.mp hrun
  obtain ⟨hfree, hfull⟩ := Prod.mk.inj hout
  have hvec : ∀ op ∈ vectors 191, ∃ s : Sym, op = .write s ∧ s.isVec = true := by
    intro op hop
    obtain ⟨i, -, rfl⟩ := List.mem_map.mp hop
    exact ⟨_, rfl, rfl⟩
  have hr := PeakRun.of_vectors Inv.init hvec (.of_runAll? ha)
  have hzero : RegisterAllocator.init.tab.val.liveScalars = 0 := by
    have hnone : RegisterAllocator.init.tab.val.live false = ∅ := by
      ext s
      simp [Tables.live, RegisterAllocator.init, Tables.init]
    rw [liveScalars, hnone, Set.ncard_empty]
  rw [hzero] at hr
  obtain ⟨hiff, hbound⟩ := ((refused_under_pressure _ hr).2 ⟨"v", true⟩ hfree).2 rfl
  exact ⟨a, hr, hfull, hiff.mp hfull, hbound hfull⟩

end RegisterAllocator
end Vliw
