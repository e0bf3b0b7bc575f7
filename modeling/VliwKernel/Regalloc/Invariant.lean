import VliwKernel.Regalloc.Allocator
import Mathlib.Data.List.Perm.Basic

/-!
# The representation invariant of the register allocator

Every granule of scratch is free, the home of one vector tag, or claimed and split into
words; every word of a claimed granule is free or the home of one scalar tag.
-/

namespace Vliw

/-- The multiples of `VLEN` from `VLEN` up to the end of scratch; granule 0 is pinned. -/
def IsGranule (g : Nat) : Prop := VLEN ∣ g ∧ VLEN ≤ g ∧ g < SCRATCH_SIZE

theorem mem_granuleRange {w g : Nat} : w ∈ granuleRange g ↔ g ≤ w ∧ w < g + VLEN := by
  simp [granuleRange, List.mem_range'_1]

theorem nodup_granuleRange (g : Nat) : (granuleRange g).Nodup := List.nodup_range'

theorem granule_of_word {g g' w : Nat} (hg : IsGranule g) (hg' : IsGranule g')
    (h : g ≤ w ∧ w < g + VLEN) (h' : g' ≤ w ∧ w < g' + VLEN) : g = g' := by
  obtain ⟨⟨k, rfl⟩, -, -⟩ := hg
  obtain ⟨⟨k', rfl⟩, -, -⟩ := hg'
  simp only [VLEN] at h h' ⊢
  omega

namespace Tables

def VecAt (t : Tables) (a : Nat) : Prop := ∃ s : Sym, s.isVec = true ∧ t.assigned s = some a

def WordAt (t : Tables) (w : Nat) : Prop := ∃ s : Sym, s.isVec = false ∧ t.assigned s = some w

def Claimed (t : Tables) (g : Nat) : Prop := (t.granuleFree.get? g).isSome

/-- No claimed granule is wholly free. -/
def Tidy (t : Tables) : Prop := ∀ g, t.granuleFree.get? g ≠ some VLEN

structure Inv (t : Tables) : Prop where
  free_nodup : t.freeVec.Nodup
  free_granule : ∀ {g}, g ∈ t.freeVec → IsGranule g
  vec_granule : ∀ {g}, t.VecAt g → IsGranule g
  claimed_granule : ∀ {g}, t.Claimed g → IsGranule g
  covered : ∀ {g}, IsGranule g → g ∈ t.freeVec ∨ t.VecAt g ∨ t.Claimed g
  free_vec : ∀ {g}, g ∈ t.freeVec → ¬ t.VecAt g
  free_claimed : ∀ {g}, g ∈ t.freeVec → ¬ t.Claimed g
  vec_claimed : ∀ {g}, t.VecAt g → ¬ t.Claimed g
  assigned_inj : ∀ {s s' a}, s.isVec = s'.isVec → t.assigned s = some a → t.assigned s' = some a → s = s'
  words : ∀ {g c}, t.granuleFree.get? g = some c → ∃ ws, t.granuleWords g = some ws ∧
    ws.length = c ∧ ws.Nodup ∧ ∀ w, w ∈ ws ↔ (g ≤ w ∧ w < g + VLEN) ∧ ¬ t.WordAt w
  words_claimed : ∀ {g}, (t.granuleWords g).isSome → t.Claimed g
  word_claimed : ∀ {w}, t.WordAt w → ∃ g, t.Claimed g ∧ g ≤ w ∧ w < g + VLEN
  word_granule : ∀ {w g}, t.wordGranule w = some g ↔ t.Claimed g ∧ g ≤ w ∧ w < g + VLEN
  claim_word : ∀ {w g}, t.claimOf w = some g → t.WordAt w ∧ t.wordGranule w = some g
  remaining_assigned : ∀ s, (t.remaining s).isSome = (t.assigned s).isSome

theorem mem_allGranules {g : Nat} : g ∈ allGranules ↔ IsGranule g := by
  simp only [allGranules, List.mem_range', IsGranule, VLEN, SCRATCH_SIZE]
  constructor
  · rintro ⟨i, hi, rfl⟩
    omega
  · rintro ⟨⟨k, rfl⟩, h, h'⟩
    exact ⟨k - 1, by omega, by omega⟩

theorem Inv.init : Tables.init.Inv where
  free_nodup := List.nodup_range' VLEN (by decide)
  free_granule h := mem_allGranules.mp h
  vec_granule h := by simp [VecAt, Tables.init] at h
  claimed_granule h := by simp [Claimed, Tables.init] at h
  covered h := .inl (mem_allGranules.mpr h)
  free_vec _ h := by simp [VecAt, Tables.init] at h
  free_claimed _ h := by simp [Claimed, Tables.init] at h
  vec_claimed h := by simp [VecAt, Tables.init] at h
  assigned_inj _ h := by simp [Tables.init] at h
  words h := by simp [Tables.init] at h
  words_claimed h := by simp [Tables.init] at h
  word_claimed h := by simp [WordAt, Tables.init] at h
  word_granule := by simp [Claimed, Tables.init]
  claim_word h := by simp [Tables.init] at h
  remaining_assigned s := by simp [Tables.init]

variable {t : Tables}

theorem Inv.granule_of_wordAt (h : t.Inv) {w : Nat} (hw : t.WordAt w) :
    ∃ g c ws, t.wordGranule w = some g ∧ t.granuleFree.get? g = some c ∧ t.granuleWords g = some ws := by
  obtain ⟨g, hg, hlo, hhi⟩ := h.word_claimed hw
  obtain ⟨c, hc⟩ := Option.isSome_iff_exists.mp hg
  obtain ⟨ws, hws, -⟩ := h.words hc
  exact ⟨g, c, ws, h.word_granule.mpr ⟨hg, hlo, hhi⟩, hc, hws⟩

section assigning
variable {s : Sym} {a : Nat} {n : Int}

theorem at_assign (hs : t.assigned s = none) {v : Bool} {b : Nat} : (∃ s', s'.isVec = v ∧ (t.assign s a n).assigned s' = some b) ↔
    (s.isVec = v ∧ b = a) ∨ ∃ s', s'.isVec = v ∧ t.assigned s' = some b := by
  simp only [assign, Function.update_apply]
  constructor
  · rintro ⟨s', hv, h⟩
    split at h
    · next hss => exact .inl ⟨hss ▸ hv, (Option.some.inj h).symm⟩
    · exact .inr ⟨s', hv, h⟩
  · rintro (⟨hv, rfl⟩ | ⟨s', hv, h⟩)
    · exact ⟨s, hv, by simp⟩
    · refine ⟨s', hv, ?_⟩
      rw [if_neg (by rintro rfl; rw [hs] at h; cases h)]
      exact h

theorem vecAt_assign (hs : t.assigned s = none) {g : Nat} :
    (t.assign s a n).VecAt g ↔ (s.isVec = true ∧ g = a) ∨ t.VecAt g := at_assign hs

theorem wordAt_assign (hs : t.assigned s = none) {w : Nat} :
    (t.assign s a n).WordAt w ↔ (s.isVec = false ∧ w = a) ∨ t.WordAt w := at_assign hs

end assigning

theorem Inv.assignVec (h : t.Inv) {s : Sym} {a : Nat} {rest : List Nat} {n : Int} (hv : s.isVec = true)
    (hs : t.assigned s = none) (hf : t.freeVec = a :: rest) :
    ({ t with freeVec := rest }.assign s a n).Inv := by
  have hnd : a ∉ rest ∧ rest.Nodup := List.nodup_cons.mp (hf ▸ h.free_nodup)
  have ha : a ∈ t.freeVec := by simp [hf]
  have hmem : ∀ {g}, g ∈ rest → g ∈ t.freeVec := fun hg => by simp [hf, hg]
  have hvec : ∀ {g}, ({ t with freeVec := rest }.assign s a n).VecAt g ↔ g = a ∨ t.VecAt g := by
    intro g
    rw [vecAt_assign (t := { t with freeVec := rest }) hs]
    simp [hv, VecAt]
  have hword : ∀ {w}, ({ t with freeVec := rest }.assign s a n).WordAt w ↔ t.WordAt w := by
    intro w
    rw [wordAt_assign (t := { t with freeVec := rest }) hs]
    simp [hv, WordAt]
  constructor
  case free_nodup => exact hnd.2
  case free_granule => exact fun hg => h.free_granule (hmem hg)
  case vec_granule =>
    intro g hg
    rcases hvec.mp hg with rfl | hg
    · exact h.free_granule ha
    · exact h.vec_granule hg
  case claimed_granule => exact h.claimed_granule
  case covered =>
    intro g hg
    rcases h.covered hg with hg | hg | hg
    · rw [hf] at hg
      rcases List.mem_cons.mp hg with rfl | hg
      · exact .inr (.inl (hvec.mpr (.inl rfl)))
      · exact .inl hg
    · exact .inr (.inl (hvec.mpr (.inr hg)))
    · exact .inr (.inr hg)
  case free_vec =>
    intro g hg hg'
    rcases hvec.mp hg' with rfl | hg'
    · exact hnd.1 hg
    · exact h.free_vec (hmem hg) hg'
  case free_claimed => exact fun hg => h.free_claimed (hmem hg)
  case vec_claimed =>
    intro g hg
    rcases hvec.mp hg with rfl | hg
    · exact h.free_claimed ha
    · exact h.vec_claimed hg
  case assigned_inj =>
    intro s₁ s₂ b hss h₁ h₂
    have hfree := h.free_vec ha
    simp only [assign, Function.update_apply] at h₁ h₂
    grind [VecAt, h.assigned_inj]
  case words =>
    intro g c hc
    obtain ⟨ws, hws, hl, hn, hm⟩ := h.words hc
    exact ⟨ws, hws, hl, hn, fun w => by rw [hm, hword]⟩
  case words_claimed => exact h.words_claimed
  case word_claimed => exact fun hw => h.word_claimed (hword.mp hw)
  case word_granule => exact h.word_granule
  case claim_word => exact fun hc => ⟨hword.mpr (h.claim_word hc).1, (h.claim_word hc).2⟩
  case remaining_assigned =>
    intro s'
    have := h.remaining_assigned s'
    simp only [assign, Function.update_apply]
    split <;> simp_all

/-- Claiming splits the first free granule into eight free words. -/
theorem Inv.claim (h : t.Inv) {g : Nat} {rest : List Nat} (hf : t.freeVec = g :: rest) :
    (t.claim g rest).Inv := by
  have hnd : g ∉ rest ∧ rest.Nodup := List.nodup_cons.mp (hf ▸ h.free_nodup)
  have hg : g ∈ t.freeVec := by simp [hf]
  have hG := h.free_granule hg
  have hmem : ∀ {x}, x ∈ rest → x ∈ t.freeVec := fun hx => by simp [hf, hx]
  have hclaimed : ∀ {x}, (t.claim g rest).Claimed x ↔ x = g ∨ t.Claimed x := by
    intro x
    simp only [Claimed, Tables.claim, Dict.get?_set]
    split <;> simp_all
  have hnoword : ∀ {w}, t.WordAt w → ¬ (g ≤ w ∧ w < g + VLEN) := by
    intro w hw hr
    obtain ⟨g', hg', hr'⟩ := h.word_claimed hw
    have := granule_of_word hG (h.claimed_granule hg') hr hr'
    exact h.free_claimed hg (this ▸ hg')
  constructor
  case free_nodup => exact hnd.2
  case free_granule => exact fun hx => h.free_granule (hmem hx)
  case vec_granule => exact h.vec_granule
  case claimed_granule =>
    intro x hx
    rcases hclaimed.mp hx with rfl | hx
    · exact hG
    · exact h.claimed_granule hx
  case covered =>
    intro x hx
    rcases h.covered hx with hx | hx | hx
    · rw [hf] at hx
      rcases List.mem_cons.mp hx with rfl | hx
      · exact .inr (.inr (hclaimed.mpr (.inl rfl)))
      · exact .inl hx
    · exact .inr (.inl hx)
    · exact .inr (.inr (hclaimed.mpr (.inr hx)))
  case free_vec => exact fun hx => h.free_vec (hmem hx)
  case free_claimed =>
    intro x hx hc
    rcases hclaimed.mp hc with rfl | hc
    · exact hnd.1 hx
    · exact h.free_claimed (hmem hx) hc
  case vec_claimed =>
    intro x hx hc
    rcases hclaimed.mp hc with rfl | hc
    · exact h.free_vec hg hx
    · exact h.vec_claimed hx hc
  case assigned_inj => exact h.assigned_inj
  case words =>
    intro x c hc
    simp only [Tables.claim, Dict.get?_set] at hc
    split at hc
    · next hx =>
        subst hx
        refine ⟨granuleRange x, by simp [Tables.claim], ?_, nodup_granuleRange x, ?_⟩
        · simpa [granuleRange] using hc
        · intro w
          rw [mem_granuleRange]
          exact ⟨fun hr => ⟨hr, fun hw => hnoword hw hr⟩, fun hr => hr.1⟩
    · next hx =>
        obtain ⟨ws, hws, hrest⟩ := h.words hc
        exact ⟨ws, by simpa [Tables.claim, hx] using hws, hrest⟩
  case words_claimed =>
    intro x hx
    by_cases hxg : x = g
    · exact hclaimed.mpr (.inl hxg)
    · exact hclaimed.mpr (.inr (h.words_claimed (by simpa [Tables.claim, hxg] using hx)))
  case word_claimed =>
    intro w hw
    obtain ⟨x, hx, hr⟩ := h.word_claimed hw
    exact ⟨x, hclaimed.mpr (.inr hx), hr⟩
  case word_granule =>
    intro w x
    change (if w ∈ granuleRange g then some g else t.wordGranule w) = some x ↔
      (t.claim g rest).Claimed x ∧ x ≤ w ∧ w < x + VLEN
    rw [hclaimed]
    simp only [mem_granuleRange]
    split
    · next hr =>
        constructor
        · rintro ⟨rfl⟩
          exact ⟨.inl rfl, hr⟩
        · rintro ⟨rfl | hx, hr'⟩
          · rfl
          · rw [granule_of_word hG (h.claimed_granule hx) hr hr']
    · next hr =>
        rw [h.word_granule]
        constructor
        · rintro ⟨hx, hr'⟩
          exact ⟨.inr hx, hr'⟩
        · rintro ⟨rfl | hx, hr'⟩
          · exact absurd hr' hr
          · exact ⟨hx, hr'⟩
  case claim_word =>
    intro w x hc
    obtain ⟨hw, hwg⟩ := h.claim_word hc
    refine ⟨hw, ?_⟩
    simp only [Tables.claim, mem_granuleRange]
    rw [if_neg (hnoword hw)]
    exact hwg
  case remaining_assigned => exact h.remaining_assigned

theorem Inv.popWord_ok (h : t.Inv) {g c : Nat} (hc : t.granuleFree.get? g = some (c + 1)) :
    ∃ ws a, t.granuleWords g = some (ws ++ [a]) ∧ ws.length = c ∧ (ws ++ [a]).Nodup ∧
      (∀ w, w ∈ ws ++ [a] ↔ (g ≤ w ∧ w < g + VLEN) ∧ ¬ t.WordAt w) ∧
      t.popWord g = .ok (a, { t with
        granuleWords := Function.update t.granuleWords g (some ws)
        granuleFree := t.granuleFree.set g c }) := by
  obtain ⟨ws, hws, hl, hn, hm⟩ := h.words hc
  obtain ⟨ws, a, rfl⟩ := (List.eq_nil_or_concat ws).resolve_left (by rintro rfl; simp at hl)
  simp only [List.concat_eq_append] at *
  refine ⟨ws, a, hws, by simpa using hl, hn, hm, ?_⟩
  simp [Tables.popWord, getKey, hws, hc, bind, Except.bind]

theorem Inv.assignWord (h : t.Inv) {s : Sym} {g c a : Nat} {ws : List Nat} {n : Int}
    (hv : s.isVec = false) (hs : t.assigned s = none) (hc : t.granuleFree.get? g = some (c + 1))
    (hws : t.granuleWords g = some (ws ++ [a])) :
    ({ t with granuleWords := Function.update t.granuleWords g (some ws)
              granuleFree := t.granuleFree.set g c }.assign s a n).Inv := by
  obtain ⟨ws', hws', hl, hn, hm⟩ := h.words hc
  obtain rfl : ws ++ [a] = ws' := Option.some.inj (hws.symm.trans hws')
  obtain ⟨ha, haw⟩ := (hm a).mp (by simp)
  have hG : t.Claimed g := by simp [Claimed, hc]
  set u : Tables := { t with granuleWords := Function.update t.granuleWords g (some ws)
                             granuleFree := t.granuleFree.set g c } with hu
  have hus : u.assigned s = none := hs
  have hvec : ∀ {x}, (u.assign s a n).VecAt x ↔ t.VecAt x := by
    intro x
    rw [vecAt_assign hus]
    simp [hv, VecAt, hu]
  have hword : ∀ {w}, (u.assign s a n).WordAt w ↔ w = a ∨ t.WordAt w := by
    intro w
    rw [wordAt_assign hus]
    simp [hv, WordAt, hu]
  have hclaimed : ∀ {x}, (u.assign s a n).Claimed x ↔ t.Claimed x := by
    intro x
    simp only [Claimed, assign, hu, Dict.get?_set]
    split <;> simp_all
  constructor
  case free_nodup => exact h.free_nodup
  case free_granule => exact h.free_granule
  case vec_granule => exact fun hx => h.vec_granule (hvec.mp hx)
  case claimed_granule => exact fun hx => h.claimed_granule (hclaimed.mp hx)
  case covered => exact fun hx => by rw [hvec, hclaimed]; exact h.covered hx
  case free_vec => exact fun hx hy => h.free_vec hx (hvec.mp hy)
  case free_claimed => exact fun hx hy => h.free_claimed hx (hclaimed.mp hy)
  case vec_claimed => exact fun hx hy => h.vec_claimed (hvec.mp hx) (hclaimed.mp hy)
  case assigned_inj =>
    intro s₁ s₂ b hss h₁ h₂
    simp only [assign, hu, Function.update_apply] at h₁ h₂
    grind [WordAt, h.assigned_inj]
  case words =>
    intro x c' hc'
    simp only [assign, hu, Dict.get?_set] at hc'
    split at hc'
    · next hx =>
        subst hx
        cases hc'
        refine ⟨ws, by simp [assign, hu], by simpa using hl, (List.nodup_append.mp hn).1, ?_⟩
        intro w
        have hna : a ∉ ws := fun hmem => (List.nodup_append.mp hn).2.2 a hmem a (by simp) rfl
        have hw := hm w
        rw [hword]
        by_cases hwa : w = a
        · subst hwa
          simp [hna]
        · simp only [List.mem_append, List.mem_singleton, hwa, or_false, false_or] at hw ⊢
          exact hw
    · next hx =>
        obtain ⟨vs, hvs, hvl, hvn, hvm⟩ := h.words hc'
        refine ⟨vs, by simpa [assign, hu, hx] using hvs, hvl, hvn, ?_⟩
        intro w
        rw [hvm, hword]
        constructor
        · rintro ⟨hr, hnw⟩
          refine ⟨hr, ?_⟩
          rintro (rfl | hw)
          · exact hx (granule_of_word (h.claimed_granule (by simp [Claimed, hc']))
              (h.claimed_granule hG) hr ha)
          · exact hnw hw
        · rintro ⟨hr, hnw⟩
          exact ⟨hr, fun hw => hnw (.inr hw)⟩
  case words_claimed =>
    intro x hx
    rw [hclaimed]
    by_cases hxg : x = g
    · exact hxg ▸ hG
    · exact h.words_claimed (by simpa [assign, hu, hxg] using hx)
  case word_claimed =>
    intro w hw
    rcases hword.mp hw with rfl | hw
    · exact ⟨g, hclaimed.mpr hG, ha⟩
    · obtain ⟨x, hx, hr⟩ := h.word_claimed hw
      exact ⟨x, hclaimed.mpr hx, hr⟩
  case word_granule =>
    intro w x
    rw [hclaimed]
    exact h.word_granule
  case claim_word =>
    intro w x hx
    exact ⟨hword.mpr (.inr (h.claim_word hx).1), (h.claim_word hx).2⟩
  case remaining_assigned =>
    intro s'
    have := h.remaining_assigned s'
    simp only [assign, hu, Function.update_apply]
    split <;> simp_all

theorem Inv.setClaim (h : t.Inv) {a g : Nat} (ha : t.WordAt a) (hg : t.wordGranule a = some g) :
    ({ t with claimOf := Function.update t.claimOf a (some g) } : Tables).Inv := by
  refine { h with claim_word := ?_ }
  intro w x hx
  simp only [Function.update_apply] at hx
  split at hx
  · next hw =>
      cases hx
      exact ⟨hw ▸ ha, hw ▸ hg⟩
  · exact h.claim_word hx

theorem Inv.setName (h : t.Inv) (a : Nat) (name : Option (String × Nat)) : (t.setName a name).Inv :=
  { h with }

/-- A live tag holds a remaining count, so unassigning it cannot raise. -/
theorem Inv.unassign_ok (h : t.Inv) {s : Sym} {a : Nat} (hs : t.assigned s = some a) :
    t.unassign s = .ok (a, { t with
      assigned := Function.update t.assigned s none
      remaining := Function.update t.remaining s none }) := by
  obtain ⟨n, hn⟩ := Option.isSome_iff_exists.mp ((h.remaining_assigned s).trans (by rw [hs]; rfl))
  simp [unassign, popKey, hs, hn, bind, Except.bind]

/-- The tables with one tag forgotten; its home is put back by the caller. -/
def forget (t : Tables) (s : Sym) : Tables :=
  { t with
    assigned := Function.update t.assigned s none
    remaining := Function.update t.remaining s none }

section forgetting
variable {s : Sym} {a : Nat}

theorem Inv.at_forget (h : t.Inv) (hs : t.assigned s = some a) {v : Bool} {b : Nat} :
    (∃ s', s'.isVec = v ∧ (t.forget s).assigned s' = some b) ↔
      (∃ s', s'.isVec = v ∧ t.assigned s' = some b) ∧ ¬ (s.isVec = v ∧ b = a) := by
  simp only [forget, Function.update_apply]
  constructor
  · rintro ⟨s', hv, h'⟩
    split at h'
    · cases h'
    · next hne =>
        refine ⟨⟨s', hv, h'⟩, ?_⟩
        rintro ⟨hv', rfl⟩
        exact hne (h.assigned_inj (hv.trans hv'.symm) h' hs)
  · rintro ⟨⟨s', hv, h'⟩, hne⟩
    refine ⟨s', hv, ?_⟩
    rw [if_neg (by rintro rfl; exact hne ⟨hv, Option.some.inj (h'.symm.trans hs)⟩)]
    exact h'

theorem Inv.vecAt_forget (h : t.Inv) (hs : t.assigned s = some a) {g : Nat} :
    (t.forget s).VecAt g ↔ t.VecAt g ∧ ¬ (s.isVec = true ∧ g = a) := h.at_forget hs

theorem Inv.wordAt_forget (h : t.Inv) (hs : t.assigned s = some a) {w : Nat} :
    (t.forget s).WordAt w ↔ t.WordAt w ∧ ¬ (s.isVec = false ∧ w = a) := h.at_forget hs

theorem Inv.assigned_inj_forget (h : t.Inv) {s₁ s₂ : Sym} {b : Nat} (hss : s₁.isVec = s₂.isVec)
    (h₁ : (t.forget s).assigned s₁ = some b) (h₂ : (t.forget s).assigned s₂ = some b) : s₁ = s₂ := by
  simp only [forget, Function.update_apply] at h₁ h₂
  split at h₁
  · cases h₁
  · split at h₂
    · cases h₂
    · exact h.assigned_inj hss h₁ h₂

theorem Inv.remaining_forget (h : t.Inv) (s' : Sym) :
    ((t.forget s).remaining s').isSome = ((t.forget s).assigned s').isSome := by
  have := h.remaining_assigned s'
  simp only [forget, Function.update_apply]
  split
  · rfl
  · exact this

theorem Inv.releaseVec (h : t.Inv) (hv : s.isVec = true) (hs : t.assigned s = some a) {fv : List Nat}
    (hfv : fv.Perm (a :: t.freeVec)) : ({ t.forget s with freeVec := fv } : Tables).Inv := by
  have ha : t.VecAt a := ⟨s, hv, hs⟩
  have hmem : ∀ {x}, x ∈ fv ↔ x = a ∨ x ∈ t.freeVec := by
    intro x
    rw [hfv.mem_iff, List.mem_cons]
  have hvec : ∀ {x}, (t.forget s).VecAt x ↔ t.VecAt x ∧ x ≠ a := by
    intro x
    rw [h.vecAt_forget hs]
    simp [hv]
  have hword : ∀ {w}, (t.forget s).WordAt w ↔ t.WordAt w := by
    intro w
    rw [h.wordAt_forget hs]
    simp [hv]
  constructor
  case free_nodup =>
    exact hfv.nodup_iff.mpr (List.nodup_cons.mpr ⟨fun hx => h.free_vec hx ha, h.free_nodup⟩)
  case free_granule =>
    intro x hx
    rcases hmem.mp hx with rfl | hx
    · exact h.vec_granule ha
    · exact h.free_granule hx
  case vec_granule => exact fun hx => h.vec_granule (hvec.mp hx).1
  case claimed_granule => exact h.claimed_granule
  case covered =>
    intro x hx
    by_cases hxa : x = a
    · exact .inl (hmem.mpr (.inl hxa))
    · rcases h.covered hx with hx | hx | hx
      · exact .inl (hmem.mpr (.inr hx))
      · exact .inr (.inl (hvec.mpr ⟨hx, hxa⟩))
      · exact .inr (.inr hx)
  case free_vec =>
    intro x hx hy
    obtain ⟨hy, hne⟩ := hvec.mp hy
    exact h.free_vec ((hmem.mp hx).resolve_left hne) hy
  case free_claimed =>
    intro x hx hy
    rcases hmem.mp hx with rfl | hx
    · exact h.vec_claimed ha hy
    · exact h.free_claimed hx hy
  case vec_claimed => exact fun hx hy => h.vec_claimed (hvec.mp hx).1 hy
  case assigned_inj => exact fun hss => h.assigned_inj_forget hss
  case words =>
    intro g c hc
    obtain ⟨ws, hws, hl, hn, hm⟩ := h.words hc
    exact ⟨ws, hws, hl, hn, fun w => (hm w).trans (by rw [← hword]; rfl)⟩
  case words_claimed => exact h.words_claimed
  case word_claimed => exact fun hw => h.word_claimed (hword.mp hw)
  case word_granule => exact h.word_granule
  case claim_word => exact fun hc => ⟨hword.mpr (h.claim_word hc).1, (h.claim_word hc).2⟩
  case remaining_assigned => exact h.remaining_forget

/-- The tables after a scalar tag gave its word back to the granule `g`. -/
def returned (t : Tables) (s : Sym) (a g c : Nat) (ws : List Nat) : Tables :=
  { t.forget s with
    claimOf := Function.update t.claimOf a none
    granuleWords := Function.update t.granuleWords g (some (ws ++ [a]))
    granuleFree := t.granuleFree.set g (c + 1) }

theorem Inv.releaseWord (h : t.Inv) {g c : Nat} {ws : List Nat} (hv : s.isVec = false)
    (hs : t.assigned s = some a) (hg : t.wordGranule a = some g) (hc : t.granuleFree.get? g = some c)
    (hws : t.granuleWords g = some ws) : (t.returned s a g c ws).Inv := by
  obtain ⟨ws', hws', hl, hn, hm⟩ := h.words hc
  obtain rfl : ws = ws' := Option.some.inj (hws.symm.trans hws')
  have ha : t.WordAt a := ⟨s, hv, hs⟩
  obtain ⟨hG, hr⟩ := h.word_granule.mp hg
  have haw : a ∉ ws := fun hmem => ((hm a).mp hmem).2 ha
  have hvec : ∀ {x}, (t.returned s a g c ws).VecAt x ↔ t.VecAt x := by
    intro x
    exact (h.vecAt_forget hs).trans (by simp [hv])
  have hword : ∀ {w}, (t.returned s a g c ws).WordAt w ↔ t.WordAt w ∧ w ≠ a := by
    intro w
    exact (h.wordAt_forget hs).trans (by simp [hv])
  have hclaimed : ∀ {x}, (t.returned s a g c ws).Claimed x ↔ t.Claimed x := by
    intro x
    simp only [Claimed, returned, Dict.get?_set]
    split <;> simp_all
  constructor
  case free_nodup => exact h.free_nodup
  case free_granule => exact h.free_granule
  case vec_granule => exact fun hx => h.vec_granule (hvec.mp hx)
  case claimed_granule => exact fun hx => h.claimed_granule (hclaimed.mp hx)
  case covered => exact fun hx => by rw [hvec, hclaimed]; exact h.covered hx
  case free_vec => exact fun hx hy => h.free_vec hx (hvec.mp hy)
  case free_claimed => exact fun hx hy => h.free_claimed hx (hclaimed.mp hy)
  case vec_claimed => exact fun hx hy => h.vec_claimed (hvec.mp hx) (hclaimed.mp hy)
  case assigned_inj => exact fun hss => h.assigned_inj_forget hss
  case words =>
    intro x c' hc'
    simp only [returned, Dict.get?_set] at hc'
    split at hc'
    · next hx =>
        subst hx
        cases hc'
        refine ⟨ws ++ [a], by simp [returned], by simp [hl], ?_, ?_⟩
        · exact List.nodup_append.mpr ⟨hn, by simp, by rintro x hx y hy rfl; simp_all⟩
        · intro w
          rw [hword, List.mem_append, List.mem_singleton, hm]
          by_cases hwa : w = a
          · subst hwa
            simp [hr]
          · simp [hwa]
    · next hx =>
        obtain ⟨vs, hvs, hvl, hvn, hvm⟩ := h.words hc'
        refine ⟨vs, by simpa [returned, forget, hx] using hvs, hvl, hvn, ?_⟩
        intro w
        rw [hvm, hword]
        constructor
        · rintro ⟨hr', hnw⟩
          exact ⟨hr', fun hw => hnw hw.1⟩
        · rintro ⟨hr', hnw⟩
          refine ⟨hr', fun hw => hnw ⟨hw, ?_⟩⟩
          rintro rfl
          exact hx (granule_of_word (h.claimed_granule (by simp [Claimed, hc'])) (h.claimed_granule hG) hr' hr)
  case words_claimed =>
    intro x hx
    rw [hclaimed]
    by_cases hxg : x = g
    · exact hxg ▸ hG
    · exact h.words_claimed (by simpa [returned, forget, hxg] using hx)
  case word_claimed =>
    intro w hw
    obtain ⟨x, hx, hr'⟩ := h.word_claimed (hword.mp hw).1
    exact ⟨x, hclaimed.mpr hx, hr'⟩
  case word_granule =>
    intro w x
    rw [hclaimed]
    exact h.word_granule
  case claim_word =>
    intro w x hx
    simp only [returned, Function.update_apply] at hx
    split at hx
    · cases hx
    · next hwa => exact ⟨hword.mpr ⟨(h.claim_word hx).1, hwa⟩, (h.claim_word hx).2⟩
  case remaining_assigned => exact h.remaining_forget

end forgetting

/-- The tables without the claimed granule `g`, which the caller puts back into the pool `fv`. -/
def dropped (t : Tables) (g : Nat) (fv : List Nat) : Tables :=
  { t with
    wordGranule := fun w => if w ∈ granuleRange g then none else t.wordGranule w
    granuleWords := Function.update t.granuleWords g none
    granuleFree := t.granuleFree.erase g
    freeVec := fv }

theorem Inv.mem_words_full (h : t.Inv) {g : Nat} {ws : List Nat} (hc : t.granuleFree.get? g = some VLEN)
    (hws : t.granuleWords g = some ws) (w : Nat) : w ∈ ws ↔ w ∈ granuleRange g := by
  obtain ⟨ws', hws', hl, hn, hm⟩ := h.words hc
  obtain rfl : ws = ws' := Option.some.inj (hws.symm.trans hws')
  have hsub : ws ⊆ granuleRange g := fun x hx => mem_granuleRange.mpr ((hm x).mp hx).1
  have hperm : ws.Perm (granuleRange g) :=
    (List.subperm_of_subset hn hsub).perm_of_length_le (by simp [granuleRange, hl])
  exact hperm.mem_iff

theorem Inv.dropGranule (h : t.Inv) {g : Nat} (hc : t.granuleFree.get? g = some VLEN) {fv : List Nat}
    (hfv : fv.Perm (g :: t.freeVec)) : (t.dropped g fv).Inv := by
  have hG : t.Claimed g := by simp [Claimed, hc]
  obtain ⟨ws, hws, -, -, hm⟩ := h.words hc
  have hnoword : ∀ {w}, t.WordAt w → ¬ (g ≤ w ∧ w < g + VLEN) := by
    intro w hw hr
    have := (h.mem_words_full hc hws w).mpr (mem_granuleRange.mpr hr)
    exact ((hm w).mp this).2 hw
  have hmem : ∀ {x}, x ∈ fv ↔ x = g ∨ x ∈ t.freeVec := by
    intro x
    rw [hfv.mem_iff, List.mem_cons]
  have hclaimed : ∀ {x}, (t.dropped g fv).Claimed x ↔ t.Claimed x ∧ x ≠ g := by
    intro x
    simp only [Claimed, dropped, Dict.get?_erase]
    split <;> simp_all
  constructor
  case free_nodup =>
    exact hfv.nodup_iff.mpr (List.nodup_cons.mpr ⟨fun hx => h.free_claimed hx hG, h.free_nodup⟩)
  case free_granule =>
    intro x hx
    rcases hmem.mp hx with rfl | hx
    · exact h.claimed_granule hG
    · exact h.free_granule hx
  case vec_granule => exact h.vec_granule
  case claimed_granule => exact fun hx => h.claimed_granule (hclaimed.mp hx).1
  case covered =>
    intro x hx
    by_cases hxg : x = g
    · exact .inl (hmem.mpr (.inl hxg))
    · rcases h.covered hx with hx | hx | hx
      · exact .inl (hmem.mpr (.inr hx))
      · exact .inr (.inl hx)
      · exact .inr (.inr (hclaimed.mpr ⟨hx, hxg⟩))
  case free_vec =>
    intro x hx hy
    rcases hmem.mp hx with rfl | hx
    · exact h.vec_claimed hy hG
    · exact h.free_vec hx hy
  case free_claimed =>
    intro x hx hy
    obtain ⟨hy, hne⟩ := hclaimed.mp hy
    exact h.free_claimed ((hmem.mp hx).resolve_left hne) hy
  case vec_claimed => exact fun hx hy => h.vec_claimed hx (hclaimed.mp hy).1
  case assigned_inj => exact h.assigned_inj
  case words =>
    intro x c hx
    simp only [dropped, Dict.get?_erase] at hx
    split at hx
    · cases hx
    · next hxg =>
        obtain ⟨vs, hvs, hrest⟩ := h.words hx
        exact ⟨vs, by simpa [dropped, hxg] using hvs, hrest⟩
  case words_claimed =>
    intro x hx
    by_cases hxg : x = g
    · simp [dropped, hxg] at hx
    · exact hclaimed.mpr ⟨h.words_claimed (by simpa [dropped, hxg] using hx), hxg⟩
  case word_claimed =>
    intro w hw
    obtain ⟨x, hx, hr⟩ := h.word_claimed hw
    exact ⟨x, hclaimed.mpr ⟨hx, by rintro rfl; exact hnoword hw hr⟩, hr⟩
  case word_granule =>
    intro w x
    change (if w ∈ granuleRange g then none else t.wordGranule w) = some x ↔
      (t.dropped g fv).Claimed x ∧ x ≤ w ∧ w < x + VLEN
    rw [hclaimed]
    simp only [mem_granuleRange]
    split
    · next hr =>
        constructor
        · rintro ⟨⟩
        · rintro ⟨⟨hx, hne⟩, hr'⟩
          exact absurd (granule_of_word (h.claimed_granule hx) (h.claimed_granule hG) hr' hr) hne
    · next hr =>
        rw [h.word_granule]
        constructor
        · rintro ⟨hx, hr'⟩
          exact ⟨⟨hx, by rintro rfl; exact hr hr'⟩, hr'⟩
        · rintro ⟨⟨hx, -⟩, hr'⟩
          exact ⟨hx, hr'⟩
  case claim_word =>
    intro w x hx
    obtain ⟨hw, hg⟩ := h.claim_word hx
    refine ⟨hw, ?_⟩
    change (if w ∈ granuleRange g then none else t.wordGranule w) = some x
    rw [if_neg (fun hr => hnoword hw (mem_granuleRange.mp hr))]
    exact hg
  case remaining_assigned => exact h.remaining_assigned

/-- Dropping never raises on a claimed granule, whatever order its words are listed in. -/
theorem Inv.dropGranule_ok (h : t.Inv) {g c : Nat} {ws words : List Nat}
    (hc : t.granuleFree.get? g = some c) (hws : t.granuleWords g = some ws)
    (hwords : ∀ w, w ∈ words ↔ w ∈ granuleRange g) :
    t.dropGranule g words = .ok (t.dropped g t.freeVec) := by
  have hall : words.all (fun w => (t.wordGranule w).isSome) = true := by
    rw [List.all_eq_true]
    intro w hw
    rw [h.word_granule.mpr ⟨by simp [Claimed, hc], mem_granuleRange.mp ((hwords w).mp hw)⟩]
    rfl
  simp only [Tables.dropGranule, hall, hws, hc, Option.isSome_some, and_self, if_true, dropped, hwords]

/-- When no tag holds a register and no claimed granule is wholly free, all granules are in the vector pool. -/
theorem Inv.drained {t : Tables} (h : t.Inv) (ht : t.Tidy) (hn : ∀ s, t.assigned s = none) :
    (∀ g, ¬ t.Claimed g) ∧ t.freeVec.Perm allGranules := by
  have hclaimed : ∀ g, ¬ t.Claimed g := by
    intro g hg
    obtain ⟨c, hc⟩ := Option.isSome_iff_exists.mp hg
    obtain ⟨ws, -, hlen, hnd, hmem⟩ := h.words hc
    have hall : ws.Perm (granuleRange g) := (List.perm_ext_iff_of_nodup hnd (nodup_granuleRange g)).mpr fun w => by
      simp [hmem, mem_granuleRange, WordAt, hn]
    refine ht g ?_
    rw [hc, ← hlen, hall.length_eq, granuleRange, List.length_range']
  refine ⟨hclaimed, (List.perm_ext_iff_of_nodup h.free_nodup (List.nodup_range' VLEN (by decide))).mpr fun g => ?_⟩
  rw [show List.range' VLEN ((SCRATCH_SIZE - VLEN) / VLEN) VLEN = allGranules from rfl, mem_allGranules]
  refine ⟨h.free_granule, fun hg => ?_⟩
  rcases h.covered hg with hfree | ⟨s, -, hs⟩ | hc
  · exact hfree
  · rw [hn] at hs
    cases hs
  · exact absurd hc (hclaimed g)

end Tables
end Vliw
